import Abydos.Driver.SysRoot
import Abydos.Vfs.Mount

namespace Abydos.Rootfs

open Abydos.Fdt Abydos.Lib Abydos.SysRoot
open Abydos.Vfs (Str Addr FsPtr Factory Mounts MountM mount mountLoop mountLoop_cases)

/-- `sscanf` of two numbers with a comma between them: the numbers, if it returns 2. -/
def sscanfPair (b : Nat) (s : Str) : Option (Addr × BitVec 64) :=
  match Numeral.scanUnsigned 64 b s with
  | some (x, c :: s) =>
    if c = comma then (Numeral.scanUnsigned 64 b s).map fun y => (x, y.1) else none
  | _ => none

def location (devicePath : Str) : Option (Addr × BitVec 64) :=
  (sscanfPair 10 devicePath).or (sscanfPair 16 devicePath)

inductive Thrown
  | exception
  | other

structure Cpio (W I : Type) where
  new : Addr → BitVec 64 → W → Except Thrown I × W
  delete : FsPtr → W → W

structure Calls (W : Type) where
  calls : List (Addr × BitVec 64)
  rest : W

inductive Instance (I : Type)
  | cpiofs (c : I)
  | devfs
  | null

section Functions

variable {W I : Type} (fs : Cpio W I)

def construct (archive : Addr) (len : BitVec 64) (w : Calls W) : Except Thrown I × Calls W :=
  let (r, rest) := fs.new archive len w.rest
  (r, ⟨w.calls ++ [(archive, len)], rest⟩)

def newCpiofs (devicePath : Str) (w : Calls W) : (Int × Instance I) × Calls W :=
  match location devicePath with
  | none => ((-1, .null), w)
  | some (addr, len) =>
    match construct fs addr len w with
    | (.ok c, w) => ((0, .cpiofs c), w)
    | (.error .exception, w) => ((-1, .null), w)
    | (.error .other, w) => ((-2, .null), w)

def delete (p : FsPtr) (w : Calls W) : Calls W := { w with rest := fs.delete p w.rest }

def cpiofs : Factory (Calls W) (Instance I) := ⟨str "cpiofs", newCpiofs fs, delete fs⟩

def devfs : Factory (Calls W) (Instance I) := ⟨str "cpio", fun _ w => ((0, .devfs), w), delete fs⟩

/-- Both are registered with the same priority, so in the order of their files. -/
def registered : List (Factory (Calls W) (Instance I)) := [cpiofs fs, devfs fs]

def mountRootfs (root : GenericRoot) : MountM (Calls W) (Instance I) Int := do
  if root._initrd_path = [] then return 0
  else
    let rc ← mount (str "/") root._initrd_path none
    if rc < 0 then return rc else return 0

end Functions

variable {W I V : Type} {fs : Cpio W I} {m : Mounts (Calls W) (Instance I)} {root : GenericRoot}
  {t : Tree} {vs ve : Bytes}

/-- `CPIOFS` is constructed on the image of `s` in the direct map with the length of what is between
`s` and `e`, or there is no path and not both are in the direct map. -/
def Survives (m : Mounts (Calls W) (Instance I)) (root : GenericRoot) (s e : Nat) : Prop :=
  ((mountRootfs root).exec m).2.world.calls = m.world.calls ++
      [(BitVec.ofNat 64 (sysmemBase.toNat + s), BitVec.ofNat 64 (e - s))] ∨
    (2 ^ 38 ≤ s ∨ 2 ^ 38 ≤ e) ∧ root._initrd_path = []

theorem scan_toStr (x : BitVec 64) {s : Str} (hs : ∀ c ∈ s.head?, Numeral.digitIn 10 c = none) :
    Numeral.scanUnsigned 64 10 (toStr x ++ s) = some (x, s) :=
  Numeral.scanUnsigned_write (by decide) (by decide) (by decide) x hs

theorem location_path (x y : BitVec 64) : location (toStr x ++ comma :: toStr y) = some (x, y) := by
  have hfst : Numeral.scanUnsigned 64 10 (toStr x ++ comma :: toStr y) =
      some (x, comma :: toStr y) := by
    refine scan_toStr x fun c hc => ?_
    cases hc
    decide
  have hsnd : Numeral.scanUnsigned 64 10 (toStr y) = some (y, []) := by
    have h := scan_toStr y (s := []) fun c hc => by cases hc
    rwa [List.append_nil] at h
  have hpair : sscanfPair 10 (toStr x ++ comma :: toStr y) = some (x, y) := by
    rw [sscanfPair, hfst]
    dsimp only
    rw [if_pos rfl, hsnd]
    rfl
  rw [location, hpair]
  rfl

theorem newCpiofs_calls (fs : Cpio W I) {a : Addr} {len : BitVec 64} {devicePath : Str}
    (hloc : location devicePath = some (a, len)) (w : Calls W) :
    (newCpiofs fs devicePath w).2.calls = w.calls ++ [(a, len)] := by
  unfold newCpiofs construct
  rw [hloc]
  dsimp only
  split <;> rename_i heq <;> obtain ⟨-, rfl⟩ := Prod.mk.inj heq <;> rfl

theorem mountLoop_calls (fs : Cpio W I) (path : Str) {a : Addr} {len : BitVec 64}
    {devicePath : Str} (hloc : location devicePath = some (a, len)) :
    ((mountLoop path devicePath none (registered fs)).exec m).2.world.calls =
      m.world.calls ++ [(a, len)] := by
  have hcalls := newCpiofs_calls fs hloc m.world
  have hwanted : Vfs.Wanted none (cpiofs fs) := fun _ h => by cases h
  rw [registered, mountLoop, Prog.exec_ite, if_pos hwanted,
    Prog.exec_bind_ok (Prog.exec_get m), cpiofs]
  dsimp only
  cases hnew : newCpiofs fs devicePath m.world with
  | mk r w =>
    obtain ⟨ret, i⟩ := r
    rw [hnew] at hcalls
    dsimp only
    rw [Prog.exec_bind_ok (Prog.exec_modify _ m), Prog.exec_ite, Prog.exec_ite]
    split
    · exact hcalls
    · split
      · exact hcalls
      · -- the device file system takes the path, and leaves the calls alone
        exact hcalls

theorem mountRootfs_calls {a : Addr} {len : BitVec 64}
    (hloc : location root._initrd_path = some (a, len)) (hm : m.factories = registered fs) :
    ((mountRootfs root).exec m).2.world.calls = m.world.calls ++ [(a, len)] := by
  have hne : root._initrd_path ≠ [] := by
    intro h
    rw [h] at hloc
    cases hloc
  have hcalls := mountLoop_calls fs (str "/") (m := m) hloc
  obtain ⟨rc, m', hex, -⟩ := mountLoop_cases (str "/") root._initrd_path none (registered fs) m
  have hmount : (mount (str "/") root._initrd_path none).exec m = (.ok rc, m') := by
    rw [mount, Prog.exec_bind_ok (Prog.exec_get m), hm]
    exact hex
  rw [hex] at hcalls
  rw [mountRootfs, Prog.exec_ite, if_neg hne, Prog.exec_bind_ok hmount, Prog.exec_ite]
  split <;> exact hcalls

theorem toNat_or_base (x : BitVec 64) :
    (x ||| sysmemBase).toNat = sysmemBase.toNat + x.toNat % 2 ^ 38 :=
  Word.toNat_or_high x (show 38 ≤ 64 by decide)

theorem image_iff {s e : BitVec 64} (hlt : s < e) :
    s ||| sysmemBase = BitVec.ofNat 64 (sysmemBase.toNat + s.toNat) ∧
      (e ||| sysmemBase) - (s ||| sysmemBase) = BitVec.ofNat 64 (e.toNat - s.toNat) ↔
    e.toNat < 2 ^ 38 := by
  have hs := toNat_or_base s
  have he := toNat_or_base e
  have hbase : sysmemBase.toNat = 2 ^ 64 - 2 ^ 38 := by decide
  have hlt' : s.toNat < e.toNat := hlt
  have hbound := e.isLt
  rw [← BitVec.toNat_inj, ← BitVec.toNat_inj, BitVec.toNat_sub, BitVec.toNat_ofNat,
    BitVec.toNat_ofNat, hs, he, hbase]
  omega

theorem chosen_nonneg {name : String} (h : t.getprop (chosen t) name = some vs) : 0 ≤ chosen t := by
  obtain ⟨n, hn, -⟩ := Option.bind_eq_some_iff.mp h
  rw [← (Tree.mem_of_node hn).2]
  exact Int.natCast_nonneg n.offset

theorem initrdPath_eq (hs : t.getprop (chosen t) "linux,initrd-start" = some vs)
    (he : t.getprop (chosen t) "linux,initrd-end" = some ve)
    (hpos : 0 < cellsValue vs) (hlt : cellsValue vs < cellsValue ve) :
    initrdPath t (chosen t) = some (toStr (cellsValue vs ||| sysmemBase) ++ comma ::
      toStr ((cellsValue ve ||| sysmemBase) - (cellsValue vs ||| sysmemBase))) := by
  have hs0 : cellsValue vs ≠ 0 := fun h => absurd hpos (by rw [h]; decide)
  have he0 : cellsValue ve ≠ 0 := fun h => absurd hlt (by rw [h]; exact BitVec.not_lt_zero)
  rw [initrdPath, hs]
  dsimp only
  rw [he, Option.map_some, Option.getD_some, if_pos ⟨hs0, he0, hlt⟩]

theorem initrd_calls (hs : t.getprop (chosen t) "linux,initrd-start" = some vs)
    (he : t.getprop (chosen t) "linux,initrd-end" = some ve)
    (hpos : 0 < cellsValue vs) (hlt : cellsValue vs < cellsValue ve)
    (hm : m.factories = registered fs) (hroot : root._initrd_path =
      (initrdPath t (chosen t)).getD r₀) :
    root._initrd_path ≠ [] ∧ ((mountRootfs root).exec m).2.world.calls = m.world.calls ++
      [(cellsValue vs ||| sysmemBase,
        (cellsValue ve ||| sysmemBase) - (cellsValue vs ||| sysmemBase))] := by
  rw [initrdPath_eq hs he hpos hlt, Option.getD_some] at hroot
  refine ⟨?_, mountRootfs_calls (by rw [hroot, location_path]) hm⟩
  rw [hroot]
  simp

theorem initrd_survives_iff (hs : t.getprop (chosen t) "linux,initrd-start" = some vs)
    (he : t.getprop (chosen t) "linux,initrd-end" = some ve)
    (hvs : vs.length = 4 ∨ vs.length = 8) (hve : ve.length = 4 ∨ ve.length = 8)
    (hpos : 0 < number vs) (hlt : number vs < number ve) (hm : m.factories = registered fs)
    (after : Int → String → Str) (driver : Driver.DrvPtr → Driver.DriverBase V)
    (_drvlist : List Driver.DrvPtr) (this : Driver.DrvPtr) (st : State V) :
    Survives m ((addDevice t after driver _drvlist this 0).run st).2.root (number vs) (number ve) ↔
      number ve < 2 ^ 38 := by
  rw [← cellsValue_number hvs] at hpos hlt ⊢
  rw [← cellsValue_number hve] at hlt ⊢
  have hroot : ((addDevice t after driver _drvlist this 0).run st).2.root._initrd_path =
      (initrdPath t (chosen t)).getD st.root._initrd_path :=
    addDevice_initrd (chosen_nonneg hs) st
  obtain ⟨hne, hcalls⟩ := initrd_calls hs he hpos hlt hm hroot
  rw [← image_iff hlt, Survives, hcalls]
  simp [hne]

def chosenTree (ve : Bytes) (h : ve.length < 2 ^ 31) : Tree where
  nodes := [⟨0, "", none, []⟩, ⟨8, "chosen", some 0,
    [("linux,initrd-start", [0x84, 0, 0, 0]), ("linux,initrd-end", ve)]⟩]
  inOrder := by simp
  above := by simp
  short := by
    simp only [List.forall_mem_cons]
    exact ⟨nofun, ⟨by decide, h, nofun⟩, nofun⟩
  memRsv := []
  beyond := fun _ _ _ => 0

def schedulerRr : Driver.DriverBase Unit where
  getDeviceType := .SYS
  probe name _ _ w := (if name = K_CONFIG_DEFAULT_SCHEDULER then 1 else 0, w)
  addDevice _ _ h w := (K_ENODEV, h, w)
  marks _ _ _ _ := ⟨[], rfl⟩

def noDevices : State Unit := ⟨{}, ⟨fun _ => none, (), []⟩⟩

def rootOf (t : Tree) : GenericRoot :=
  ((addDevice t (fun _ _ => []) (fun _ => schedulerRr) [1] 0 0).run noDevices).2.root

def anyArchive : Cpio Unit Unit := ⟨fun _ _ w => (.ok (), w), fun _ w => w⟩

def unmounted : Mounts (Calls Unit) (Instance Unit) :=
  .start ⟨[], ()⟩ (registered anyArchive) fun _ => .null

def twoMegabytes : Tree := chosenTree [0, 0, 0, 0, 0x84, 0x20, 0, 0] (by decide)

theorem initrd_survives_two_megabytes :
    Survives unmounted (rootOf twoMegabytes) 0x84000000 0x84200000 := by
  have hs : number [0x84, 0, 0, 0] = 0x84000000 := by decide
  have he : number [0, 0, 0, 0, 0x84, 0x20, 0, 0] = 0x84200000 := by decide
  have h := initrd_survives_iff (t := twoMegabytes) (m := unmounted)
    (show _ = some [0x84, 0, 0, 0] by decide +kernel)
    (show _ = some [0, 0, 0, 0, 0x84, 0x20, 0, 0] by decide +kernel) (.inl rfl) (.inr rfl)
    (by decide) (by decide) rfl (fun _ _ => []) (fun _ => schedulerRr) [1] 0 noDevices
  rw [hs, he] at h
  exact h.mpr (by decide)

def pastDirectMap : Tree := chosenTree [0, 0, 0, 0x40, 0x84, 0x20, 0, 0] (by decide)

theorem initrd_cut :
    ((mountRootfs (rootOf pastDirectMap)).exec unmounted).2.world.calls =
      [(0xFFFFFFC084000000, 0x200000)] ∧
    ¬ Survives unmounted (rootOf pastDirectMap) 0x84000000 0x4084200000 := by
  have hs : pastDirectMap.getprop (chosen pastDirectMap) "linux,initrd-start" =
      some [0x84, 0, 0, 0] := by decide +kernel
  have he : pastDirectMap.getprop (chosen pastDirectMap) "linux,initrd-end" =
      some [0, 0, 0, 0x40, 0x84, 0x20, 0, 0] := by decide +kernel
  have hroot : (rootOf pastDirectMap)._initrd_path =
      (initrdPath pastDirectMap (chosen pastDirectMap)).getD [] :=
    addDevice_initrd (chosen_nonneg hs) noDevices
  obtain ⟨hne, hcalls⟩ := initrd_calls (m := unmounted) hs he (by decide) (by decide) rfl hroot
  have hcall : ((mountRootfs (rootOf pastDirectMap)).exec unmounted).2.world.calls =
      [(0xFFFFFFC084000000, 0x200000)] := hcalls.trans (by decide)
  refine ⟨hcall, ?_⟩
  rintro (h | h)
  · rw [hcall] at h
    exact absurd h (by decide)
  · exact hne h.2

end Abydos.Rootfs
