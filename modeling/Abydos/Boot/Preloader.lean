import Abydos.Lib.Interleave
import Abydos.Mmu.Footprint
import Mathlib.Data.Fintype.Card

namespace Abydos.Preloader

open Abydos.Lib Abydos.Lib.Interleave Abydos.Mmu

def ofWord (x : BitVec 64) : Pte where
  v := x.getLsbD 0
  r := x.getLsbD 1
  w := x.getLsbD 2
  x := x.getLsbD 3
  u := x.getLsbD 4
  g := x.getLsbD 5
  a := x.getLsbD 6
  d := x.getLsbD 7
  rsw := x.extractLsb' 8 2
  ppn0 := x.extractLsb' 10 9
  ppn1 := x.extractLsb' 19 9
  ppn2 := x.extractLsb' 28 9
  ppn3 := x.extractLsb' 37 9
  ppn4 := x.extractLsb' 46 8
  reserved := x.extractLsb' 54 10

@[simp] theorem word_ofWord (x : BitVec 64) : (ofWord x).word = x := by
  have hbit (i : Nat) : (x.getLsbD i).toNat = x.toNat / 2 ^ i % 2 := Nat.toNat_testBit _ _
  have := x.isLt
  rw [← BitVec.toNat_inj, Pte.word_toNat]
  unfold Pte.flags Pte.frame ofWord
  simp only [hbit, Word.toNat_extract]
  omega

def modeOf (mode : BitVec 4) : Option Mode :=
  if mode = 8 then some .sv39
  else if mode = 9 then some .sv48
  else if mode = 10 then some .sv57
  else none

def walkFrom (thead : Bool) (mem : Mem) (m : Mode) (ppn : Nat) (va : Addr) : Option Translation :=
  if m.Canonical va then
    Hw.walk thead (fun a => (mem a).word) va m.getMaxLevel (ppn * 4096) false
  else none

/-- In mode 0 addresses are physical; the modes that are not listed are reserved. -/
def translate (thead : Bool) (mem : Mem) (satp : BitVec 64) (va : Addr) : Option Translation :=
  match modeOf (satp.extractLsb' 60 4) with
  | some m => walkFrom thead mem m (satp.extractLsb' 0 44).toNat va
  | none =>
    if satp.extractLsb' 60 4 = 0 then some ⟨va.toNat, true, true, true, false, false⟩ else none

def load (thead : Bool) (mem : Mem) (satp : BitVec 64) (va : Addr) : Option (BitVec 64) :=
  match translate thead mem satp va with
  | some t => if t.r then some (mem t.pa).word else none
  | none => none

def amoadd (thead : Bool) (mem : Mem) (satp : BitVec 64) (va : Addr) (x : BitVec 32) :
    Option Mem :=
  match translate thead mem satp va with
  | some t =>
    if t.r ∧ t.w then
      let word := (mem t.pa).word
      some (Function.update mem t.pa
        (ofWord (word.extractLsb' 32 32 ++ (word.extractLsb' 0 32 + x))))
    else none
  | none => none

structure Item where
  magic : BitVec 64
  mvendorid : BitVec 64
  marchid : BitVec 64
  mimpid : BitVec 64
  pgtbl : Fin 4 → BitVec 64

def defaultPgtbl : Fin 4 → BitVec 64
  | 0 => 0xef
  | 1 => 0x100000EF
  | 2 => 0x200000EF
  | 3 => 0x300000EF

def pgtblC906 : Item where
  magic := 0xb00797b1
  mvendorid := 0x5b7
  marchid := 0
  mimpid := 0
  pgtbl
    | 0 => 0xef
    | 1 => 0x100000EF
    | 2 => 0x200000EF ||| (0x180#64 <<< 54)
    | 3 => 0x300000EF ||| (0x180#64 <<< 54)

def entryPgtbl : List Item := [pgtblC906]

def findPgtbl (mvendorid marchid mimpid : BitVec 64) : List Item → Fin 4 → BitVec 64
  | [] => defaultPgtbl
  | x :: xs =>
    if x.magic &&& 0xffffffff ≠ 0xb00797b1 then findPgtbl mvendorid marchid mimpid xs
    else if x.mvendorid ≠ mvendorid then findPgtbl mvendorid marchid mimpid xs
    else if x.marchid ≠ marchid then findPgtbl mvendorid marchid mimpid xs
    else if x.mimpid ≠ mimpid then findPgtbl mvendorid marchid mimpid xs
    else x.pgtbl

def stores (a5 : Addr) (pgtbl : Fin 4 → BitVec 64) : List (Addr × BitVec 64) :=
  [(a5 - 1024, pgtbl 0), (a5 + 1024, pgtbl 0),
    (a5 + 8 - 1024, pgtbl 1), (a5 + (8 + 1024), pgtbl 1),
    (a5 + 16 - 1024, pgtbl 2), (a5 + (16 + 1024), pgtbl 2),
    (a5 + 24 - 1024, pgtbl 3), (a5 + (24 + 1024), pgtbl 3)]

def store (mem : Mem) (s : Addr × BitVec 64) : Mem := Function.update mem s.1.toNat (ofWord s.2)

def setMmu (a5 : Addr) : BitVec 64 := (8#64 <<< 60) ||| (a5 >>> 12)

/-- The symbols of the image that the code refers to, at their physical addresses; `start` is what
the image has at `start_addr`. -/
structure Image where
  startup_pgtbl : Addr
  mmutest : Addr
  start_addr : Addr
  start : Addr
  aligned : 4096 ∣ startup_pgtbl.toNat
  startup_lt : startup_pgtbl.toNat < 2 ^ 32
  mmutest_lt : mmutest.toNat < 2 ^ 32
  start_lt : start_addr.toNat < 2 ^ 32
  mmutest_apart : ¬ InPage startup_pgtbl.toNat mmutest.toNat
  start_apart : ¬ InPage startup_pgtbl.toNat start_addr.toNat
  data_apart : mmutest ≠ start_addr

/-- The next instruction that reads or changes what is shared, with the registers that matter. -/
inductive Pc
  | entry
  | hang
  | getVendor
  | getArch (mvendorid : BitVec 64)
  | getImpl (mvendorid marchid : BitVec 64)
  | loadPgtbl (ws : List (Addr × BitVec 64))
  | csrw
  | test (satp : BitVec 64)
  | testHigh (satp : BitVec 64)
  | jumpStart (satp : BitVec 64)
  | start (satp pc : BitVec 64)
  deriving DecidableEq

structure Shared where
  hart_lottery : BitVec 32
  mem : Mem

abbrev Sbi := BitVec 64 → BitVec 64 × BitVec 64

def step (I : Image) (sbi : Sbi) (thead : Bool) : Pc → Shared → Option (Pc × Shared)
  | .entry, m =>
    let a3 := m.hart_lottery
    some (if a3 ≠ 0 then .hang else .getVendor, { m with hart_lottery := a3 + 1 })
  | .hang, m => some (.hang, m)
  | .getVendor, m => some (if (sbi 4).1 ≠ 0 then .hang else .getArch (sbi 4).2, m)
  | .getArch v, m => some (if (sbi 5).1 ≠ 0 then .hang else .getImpl v (sbi 5).2, m)
  | .getImpl v a, m =>
    some (if (sbi 6).1 ≠ 0 then .hang
      else .loadPgtbl (stores (I.startup_pgtbl + 1024) (findPgtbl v a (sbi 6).2 entryPgtbl)), m)
  | .loadPgtbl [], m => some (.csrw, m)
  | .loadPgtbl (s :: ws), m => some (.loadPgtbl ws, { m with mem := store m.mem s })
  | .csrw, m => some (.test (setMmu (I.startup_pgtbl + 1024)), m)
  | .test satp, m =>
    match amoadd thead m.mem satp I.mmutest 1 with
    | some mem => some (.testHigh satp, { m with mem })
    | none => some (.hang, m)
  | .testHigh satp, m =>
    match amoadd thead m.mem satp (I.mmutest ||| (0xFFFFFFC0#64 <<< 32)) 1 with
    | some mem => some (.jumpStart satp, { m with mem })
    | none => some (.hang, m)
  | .jumpStart satp, m =>
    match load thead m.mem satp I.start_addr with
    | some pc => some (.start satp pc, m)
    | none => some (.hang, m)
  | .start _ _, _ => none

def Window (va : Addr) : Prop :=
  va.toNat < 2 ^ 32 ∨
    K_VADDR_BASE.toNat ≤ va.toNat ∧ va.toNat < K_VADDR_BASE.toNat + 2 ^ 32

instance : DecidablePred Window := fun _ => inferInstanceAs (Decidable (_ ∨ _))

def direct (va : Addr) : Translation :=
  grant (va.toNat % 2 ^ 32) (PROT_R ||| PROT_W ||| PROT_X ||| PROT_G) false

def Direct (thead : Bool) (pgtbl : Fin 4 → BitVec 64) : Prop :=
  ∀ i, Hw.kind thead (pgtbl i) = .leaf ∧ Hw.ppn (pgtbl i) = i.val * 2 ^ 18 ∧
    (pgtbl i).getLsbD 1 = true ∧ (pgtbl i).getLsbD 2 = true ∧ (pgtbl i).getLsbD 3 = true ∧
    (pgtbl i).getLsbD 4 = false ∧ (pgtbl i).getLsbD 5 = true

instance : Decidable (Direct thead pgtbl) := inferInstanceAs (Decidable (∀ _, _))

theorem findPgtbl_cases (v a i : BitVec 64) (xs : List Item) :
    findPgtbl v a i xs = defaultPgtbl ∨
      ∃ x ∈ xs, x.mvendorid = v ∧ findPgtbl v a i xs = x.pgtbl := by
  induction xs with
  | nil => exact Or.inl rfl
  | cons x xs ih =>
    have hrest : findPgtbl v a i xs = defaultPgtbl ∨
        ∃ y ∈ x :: xs, y.mvendorid = v ∧ findPgtbl v a i xs = y.pgtbl :=
      ih.imp id fun ⟨y, hy, h⟩ => ⟨y, List.mem_cons_of_mem x hy, h⟩
    unfold findPgtbl
    split
    · exact hrest
    split
    · exact hrest
    split
    · exact hrest
    split
    · exact hrest
    · next hv _ _ => exact Or.inr ⟨x, List.mem_cons_self, not_not.mp hv, rfl⟩

theorem direct_find (h : v = 0x5b7 → thead = true) (a i : BitVec 64) :
    Direct thead (findPgtbl v a i entryPgtbl) := by
  have hdefault : ∀ thead, Direct thead defaultPgtbl := by decide
  have hc906 : Direct true pgtblC906.pgtbl := by decide
  rcases findPgtbl_cases v a i entryPgtbl with heq | ⟨x, hx, hv, heq⟩
  · rw [heq]
    exact hdefault thead
  · cases List.mem_singleton.mp hx
    rw [heq, h hv.symm]
    exact hc906

def Loaded (I : Image) (pgtbl : Fin 4 → BitVec 64) (mem : Mem) : Prop :=
  ∀ k < 512, (mem (I.startup_pgtbl.toNat + 8 * k)).word =
    if h : k % 256 < 4 then pgtbl ⟨k % 256, h⟩ else 0

variable {I : Image} {thead : Bool} {pgtbl : Fin 4 → BitVec 64} {mem mem' : Mem} {a va : Addr}

theorem Image.startup_le (I : Image) : I.startup_pgtbl.toNat + 4096 ≤ 2 ^ 32 := by
  obtain ⟨c, hc⟩ := I.aligned
  have := I.startup_lt
  omega

theorem store_slot (ha : a.toNat = I.startup_pgtbl.toNat + 8 * j) (x : BitVec 64) (k : Nat) :
    store mem (a, x) (I.startup_pgtbl.toNat + 8 * k) =
      if k = j then ofWord x else mem (I.startup_pgtbl.toNat + 8 * k) := by
  unfold store
  rw [Function.update_apply, ha]
  exact if_congr (by omega) rfl rfl

theorem loaded_stores (hzero : ∀ x, InPage I.startup_pgtbl.toNat x → mem x = {}) :
    Loaded I pgtbl ((stores (I.startup_pgtbl + 1024) pgtbl).foldl store mem) := by
  intro k hk
  have hle := I.startup_le
  have hpage : mem (I.startup_pgtbl.toNat + 8 * k) = {} := hzero _ ⟨by omega, by omega⟩
  generalize hp : I.startup_pgtbl = p at hle
  unfold stores
  simp only [List.foldl_cons, List.foldl_nil, ← hp]
  rw [store_slot (j := 259) (by bv_omega), store_slot (j := 3) (by bv_omega),
    store_slot (j := 258) (by bv_omega), store_slot (j := 2) (by bv_omega),
    store_slot (j := 257) (by bv_omega), store_slot (j := 1) (by bv_omega),
    store_slot (j := 256) (by bv_omega), store_slot (j := 0) (by bv_omega), hpage]
  by_cases h : k % 256 < 4
  · have hslot : k = 0 ∨ k = 256 ∨ k = 1 ∨ k = 257 ∨ k = 2 ∨ k = 258 ∨ k = 3 ∨ k = 259 := by omega
    rcases hslot with rfl | rfl | rfl | rfl | rfl | rfl | rfl | rfl <;> simp
  · rw [dif_neg h, if_neg (by omega), if_neg (by omega), if_neg (by omega), if_neg (by omega),
      if_neg (by omega), if_neg (by omega), if_neg (by omega), if_neg (by omega)]
    rfl

theorem setMmu_toNat (ha : a.toNat < 2 ^ 32) : (setMmu a).toNat = 2 ^ 63 + a.toNat / 4096 := by
  have hor : setMmu a = (8#64 <<< 60) + (a >>> 12) := by
    unfold setMmu
    rw [BitVec.add_eq_or_of_and_eq_zero]
    have hbit : (a >>> 12).getLsbD 63 = false := by
      rw [BitVec.getLsbD_ushiftRight]
      exact BitVec.getLsbD_of_ge _ _ (by decide)
    rw [show 8#64 <<< 60 = BitVec.twoPow 64 63 by decide, BitVec.and_comm, BitVec.and_twoPow, hbit]
    rfl
  rw [hor, BitVec.toNat_add, BitVec.toNat_ushiftRight, Nat.shiftRight_eq_div_pow]
  change (2 ^ 63 + _) % 2 ^ 64 = _
  omega

theorem translate_setMmu (ha : InPage I.startup_pgtbl.toNat a.toNat) (thead : Bool) (mem : Mem)
    (va : Addr) : translate thead mem (setMmu a) va =
      if Mode.sv39.Canonical va then
        Hw.walk thead (fun a => (mem a).word) va 2 I.startup_pgtbl.toNat false
      else none := by
  have hle := I.startup_le
  obtain ⟨c, hc⟩ := I.aligned
  have hmmu := setMmu_toNat (a := a) (by have := ha.2; omega)
  have hmode : modeOf ((setMmu a).extractLsb' 60 4) = some .sv39 := by
    have : (setMmu a).extractLsb' 60 4 = 8 := by
      rw [← BitVec.toNat_inj, Word.toNat_extract, hmmu]
      have := ha.2
      change (2 ^ 63 + a.toNat / 4096) / 2 ^ 60 % 2 ^ 4 = 8
      omega
    rw [this]
    rfl
  have hppn : ((setMmu a).extractLsb' 0 44).toNat * 4096 = I.startup_pgtbl.toNat := by
    rw [Word.toNat_extract, hmmu]
    obtain ⟨h1, h2⟩ := ha
    omega
  unfold translate walkFrom
  simp only [hmode, hppn]
  rfl

theorem startup_translate (hl : Loaded I pgtbl mem) (hd : Direct thead pgtbl)
    (ha : InPage I.startup_pgtbl.toNat a.toNat) (va : Addr) :
    translate thead mem (setMmu a) va = if Window va then some (direct va) else none := by
  rw [translate_setMmu ha]
  have hva := va.isLt
  have hword := hl (Hw.vpn va 2) (Nat.mod_lt _ (by decide))
  have hvpn : Hw.vpn va 2 = va.toNat / 2 ^ 30 % 512 := rfl
  have hwin : Mode.sv39.Canonical va ∧ Hw.vpn va 2 % 256 < 4 ↔ Window va := by
    unfold Mode.Canonical Window
    change (va.toNat < 2 ^ 38 ∨ 2 ^ 64 - 2 ^ 38 ≤ va.toNat) ∧ _ ↔
      _ ∨ 0xFFFFFFC000000000 ≤ va.toNat ∧ va.toNat < 0xFFFFFFC000000000 + 2 ^ 32
    rw [hvpn]
    omega
  by_cases hc : Mode.sv39.Canonical va
  · rw [if_pos hc]
    unfold Hw.walk
    dsimp only
    rw [hword]
    by_cases hk : Hw.vpn va 2 % 256 < 4
    · rw [dif_pos hk, if_pos (hwin.mp ⟨hc, hk⟩)]
      obtain ⟨hkind, hppn, hr, hw, hx, hu, hg⟩ := hd ⟨_, hk⟩
      rw [hkind]
      have hpa : Hw.vpn va 2 % 256 * 2 ^ 18 * 4096 + va.toNat % 2 ^ 30 = va.toNat % 2 ^ 32 := by
        have := hwin.mp ⟨hc, hk⟩
        unfold Window at this
        change _ ∨ 0xFFFFFFC000000000 ≤ va.toNat ∧ va.toNat < 0xFFFFFFC000000000 + 2 ^ 32 at this
        rw [hvpn] at hk ⊢
        omega
      unfold Hw.leaf direct grant
      simp only [hppn, hr, hw, hx, hu, hg]
      rw [if_neg (by simp), ← hpa]
      rfl
    · rw [dif_neg hk, if_neg (fun h => hk (hwin.mpr h).2)]
      rfl
  · rw [if_neg hc, if_neg (fun h => hc (hwin.mpr h).1)]

theorem load_window (hl : Loaded I pgtbl mem) (hd : Direct thead pgtbl)
    (ha : InPage I.startup_pgtbl.toNat a.toNat) (hva : Window va) :
    load thead mem (setMmu a) va = some (mem (va.toNat % 2 ^ 32)).word := by
  unfold load
  rw [startup_translate hl hd ha, if_pos hva]
  rfl

theorem amoadd_window (hl : Loaded I pgtbl mem) (hd : Direct thead pgtbl)
    (ha : InPage I.startup_pgtbl.toNat a.toNat) (hva : Window va) (x : BitVec 32) :
    ∃ w, amoadd thead mem (setMmu a) va x =
      some (Function.update mem (va.toNat % 2 ^ 32) (ofWord w)) := by
  unfold amoadd
  rw [startup_translate hl hd ha, if_pos hva]
  exact ⟨_, rfl⟩

structure Ready (I : Image) (pgtbl : Fin 4 → BitVec 64) (mem : Mem) : Prop where
  loaded : Loaded I pgtbl mem
  start : (mem I.start_addr.toNat).word = I.start

theorem Ready.update (h : Ready I pgtbl mem) (w : BitVec 64) :
    Ready I pgtbl (Function.update mem I.mmutest.toNat (ofWord w)) where
  loaded k hk := by
    rw [Function.update_of_ne]
    · exact h.loaded k hk
    · intro heq
      exact I.mmutest_apart (heq ▸ ⟨by omega, by omega⟩)
  start := by
    rw [Function.update_of_ne]
    · exact h.start
    · exact fun heq => I.data_apart (BitVec.toNat_inj.mp heq.symm)

theorem Image.inPage (I : Image) :
    InPage I.startup_pgtbl.toNat (I.startup_pgtbl + 1024).toNat := by
  have := I.startup_le
  have hadd : (I.startup_pgtbl + 1024).toNat = I.startup_pgtbl.toNat + 1024 := by bv_omega
  rw [hadd]
  exact ⟨by omega, by omega⟩

theorem Image.testHigh (I : Image) : (I.mmutest ||| (0xFFFFFFC0#64 <<< 32)).toNat =
    K_VADDR_BASE.toNat + I.mmutest.toNat := by
  have hlt := I.mmutest_lt
  rw [show 0xFFFFFFC0#64 <<< 32 = ~~~ BitVec.ofNat 64 (2 ^ 38 - 1) by decide,
    Word.toNat_or_high _ (by decide)]
  change 2 ^ 64 - 2 ^ 38 + _ = 2 ^ 64 - 2 ^ 38 + _
  omega

theorem foldl_store_of_notMem {ws : List (Addr × BitVec 64)} (h : ∀ s ∈ ws, s.1.toNat ≠ x) :
    ws.foldl store mem x = mem x := by
  induction ws generalizing mem with
  | nil => rfl
  | cons s ws ih =>
    rw [List.foldl_cons, ih fun s' hs' => h s' (List.mem_cons_of_mem s hs')]
    exact Function.update_of_ne (h s List.mem_cons_self).symm _ _

theorem amoadd_test (hl : Loaded I pgtbl mem) (hd : Direct thead pgtbl)
    (ha : InPage I.startup_pgtbl.toNat a.toNat) (x : BitVec 32) :
    ∃ w, amoadd thead mem (setMmu a) I.mmutest x =
      some (Function.update mem I.mmutest.toNat (ofWord w)) := by
  have hw := amoadd_window hl hd ha (Or.inl I.mmutest_lt) x
  rwa [Nat.mod_eq_of_lt I.mmutest_lt] at hw

theorem amoadd_testHigh (hl : Loaded I pgtbl mem) (hd : Direct thead pgtbl)
    (ha : InPage I.startup_pgtbl.toNat a.toNat) (x : BitVec 32) :
    ∃ w, amoadd thead mem (setMmu a) (I.mmutest ||| (0xFFFFFFC0#64 <<< 32)) x =
      some (Function.update mem I.mmutest.toNat (ofWord w)) := by
  have hlt := I.mmutest_lt
  have hhigh := I.testHigh
  have hwin : Window (I.mmutest ||| (0xFFFFFFC0#64 <<< 32)) := by
    unfold Window
    rw [hhigh]
    omega
  have hw := amoadd_window hl hd ha hwin x
  rwa [hhigh, show (K_VADDR_BASE.toNat + I.mmutest.toNat) % 2 ^ 32 = I.mmutest.toNat by
    change (0xFFFFFFC000000000 + _) % _ = _
    omega] at hw

theorem stores_inPage (hs : s ∈ stores (I.startup_pgtbl + 1024) pgtbl) :
    InPage I.startup_pgtbl.toNat s.1.toNat := by
  have hle := I.startup_le
  generalize I.startup_pgtbl = p at hle hs ⊢
  unfold stores at hs
  simp only [List.mem_cons, List.not_mem_nil, or_false] at hs
  unfold InPage
  rcases hs with rfl | rfl | rfl | rfl | rfl | rfl | rfl | rfl <;> bv_omega

theorem ready_stores (hzero : ∀ x, InPage I.startup_pgtbl.toNat x → mem x = {})
    (hstart : (mem I.start_addr.toNat).word = I.start) :
    Ready I pgtbl ((stores (I.startup_pgtbl + 1024) pgtbl).foldl store mem) where
  loaded := loaded_stores hzero
  start := by
    rw [foldl_store_of_notMem, hstart]
    exact fun s hs heq => I.start_apart (heq ▸ stores_inPage hs)

def Sbi.table (sbi : Sbi) : Fin 4 → BitVec 64 :=
  findPgtbl (sbi 4).2 (sbi 5).2 (sbi 6).2 entryPgtbl

def Winner (I : Image) (sbi : Sbi) (mem₀ : Mem) : Pc → Mem → Prop
  | .entry, _ => False
  | .hang, _ => ∃ fid, (sbi fid).1 ≠ 0
  | .getVendor, mem => mem = mem₀
  | .getArch v, mem => mem = mem₀ ∧ v = (sbi 4).2
  | .getImpl v a, mem => mem = mem₀ ∧ v = (sbi 4).2 ∧ a = (sbi 5).2
  | .loadPgtbl ws, mem => ∃ done, mem = done.foldl store mem₀ ∧
      done ++ ws = stores (I.startup_pgtbl + 1024) sbi.table
  | .csrw, mem => Ready I sbi.table mem
  | .test satp, mem => satp = setMmu (I.startup_pgtbl + 1024) ∧ Ready I sbi.table mem
  | .testHigh satp, mem => satp = setMmu (I.startup_pgtbl + 1024) ∧ Ready I sbi.table mem
  | .jumpStart satp, mem => satp = setMmu (I.startup_pgtbl + 1024) ∧ Ready I sbi.table mem
  | .start satp pc, mem =>
    satp = setMmu (I.startup_pgtbl + 1024) ∧ pc = I.start ∧ Ready I sbi.table mem

section Boot

variable {sbi : Sbi} {mem₀ : Mem} {pc pc' : Pc} {m m' : Shared}
  (hzero : ∀ x, InPage I.startup_pgtbl.toNat x → mem₀ x = {})
  (hstart : (mem₀ I.start_addr.toNat).word = I.start)
  (hthead : (sbi 4).2 = 0x5b7 → thead = true)

include hzero hstart hthead

theorem Winner.step (h : Winner I sbi mem₀ pc m.mem)
    (hs : step I sbi thead pc m = some (pc', m')) :
    Winner I sbi mem₀ pc' m'.mem ∧ m'.hart_lottery = m.hart_lottery := by
  have hd : Direct thead sbi.table := direct_find hthead _ _
  have hcall {fid : BitVec 64} {next : Pc} (hnext : Winner I sbi mem₀ next m.mem) :
      Winner I sbi mem₀ (if (sbi fid).1 ≠ 0 then .hang else next) m.mem := by
    split
    · next herr => exact ⟨fid, herr⟩
    · exact hnext
  cases pc with
  | entry => exact h.elim
  | hang =>
    cases hs
    exact ⟨h, rfl⟩
  | getVendor =>
    cases hs
    exact ⟨hcall ⟨h, rfl⟩, rfl⟩
  | getArch v =>
    cases hs
    exact ⟨hcall ⟨h.1, h.2, rfl⟩, rfl⟩
  | getImpl v a =>
    cases hs
    obtain ⟨hmem, rfl, rfl⟩ := h
    exact ⟨hcall ⟨[], hmem, rfl⟩, rfl⟩
  | loadPgtbl ws =>
    obtain ⟨done, hmem, happ⟩ := h
    cases ws with
    | nil =>
      cases hs
      rw [List.append_nil] at happ
      refine ⟨?_, rfl⟩
      change Ready I sbi.table m.mem
      rw [hmem, happ]
      exact ready_stores hzero hstart
    | cons s ws =>
      cases hs
      refine ⟨⟨done ++ [s], ?_, by simpa using happ⟩, rfl⟩
      rw [List.foldl_append, ← hmem]
      rfl
  | csrw =>
    cases hs
    exact ⟨⟨rfl, h⟩, rfl⟩
  | test satp =>
    obtain ⟨rfl, hr⟩ := h
    obtain ⟨w, hw⟩ := amoadd_test hr.loaded hd I.inPage 1
    simp only [Preloader.step, hw] at hs
    cases hs
    exact ⟨⟨rfl, hr.update w⟩, rfl⟩
  | testHigh satp =>
    obtain ⟨rfl, hr⟩ := h
    obtain ⟨w, hw⟩ := amoadd_testHigh hr.loaded hd I.inPage 1
    simp only [Preloader.step, hw] at hs
    cases hs
    exact ⟨⟨rfl, hr.update w⟩, rfl⟩
  | jumpStart satp =>
    obtain ⟨rfl, hr⟩ := h
    have hload := load_window hr.loaded hd I.inPage (Or.inl I.start_lt)
    rw [Nat.mod_eq_of_lt I.start_lt, hr.start] at hload
    simp only [Preloader.step, hload] at hs
    cases hs
    exact ⟨⟨rfl, rfl, hr⟩, rfl⟩
  | start satp pc => cases hs

end Boot

def threads (H : Type) (I : Image) (sbi : Sbi) (thead : Bool) : Threads H Unit Pc Shared where
  step _ _ pc m := step I sbi thead pc m

theorem Winner.ne_entry {mem : Mem} (hw : Winner I sbi mem₀ pc mem) : pc ≠ .entry := by
  rintro rfl
  exact hw

def Pc.togo : Pc → Nat
  | .getVendor => 16
  | .getArch _ => 15
  | .getImpl _ _ => 14
  | .loadPgtbl ws => ws.length + 5
  | .csrw => 4
  | .test _ => 3
  | .testHigh _ => 2
  | .jumpStart _ => 1
  | _ => 0

theorem togo_call {sbi : Sbi} {next : Pc}
    (hhang : (if (sbi fid).1 ≠ 0 then .hang else next) ≠ Pc.hang)
    (hlt : next.togo < n) : Pc.togo (if (sbi fid).1 ≠ 0 then .hang else next) < n := by
  by_cases herr : (sbi fid).1 ≠ 0
  · exact absurd (if_pos herr) hhang
  · rwa [if_neg herr]

theorem togo_step (hs : Preloader.step I sbi thead pc m = some (pc', m')) (hentry : pc ≠ .entry)
    (hhang : pc' ≠ .hang) : pc'.togo < pc.togo := by
  cases pc with
  | entry => exact absurd rfl hentry
  | hang =>
    cases hs
    exact absurd rfl hhang
  | getVendor =>
    cases hs
    exact togo_call hhang (Nat.lt_succ_self 15)
  | getArch v =>
    cases hs
    exact togo_call hhang (Nat.lt_succ_self 14)
  | getImpl v a =>
    cases hs
    exact togo_call hhang (Nat.lt_succ_self 13)
  | loadPgtbl ws =>
    cases ws with
    | nil =>
      cases hs
      exact Nat.lt_succ_self 4
    | cons s ws =>
      cases hs
      exact Nat.add_lt_add_right (Nat.lt_succ_self _) 5
  | csrw =>
    cases hs
    exact Nat.lt_succ_self 3
  | test satp =>
    cases hx : amoadd thead m.mem satp I.mmutest 1 with
    | some mem =>
      simp only [Preloader.step, hx] at hs
      cases hs
      exact Nat.lt_succ_self 2
    | none =>
      simp only [Preloader.step, hx] at hs
      cases hs
      exact absurd rfl hhang
  | testHigh satp =>
    cases hx : amoadd thead m.mem satp (I.mmutest ||| (0xFFFFFFC0#64 <<< 32)) 1 with
    | some mem =>
      simp only [Preloader.step, hx] at hs
      cases hs
      exact Nat.lt_succ_self 1
    | none =>
      simp only [Preloader.step, hx] at hs
      cases hs
      exact absurd rfl hhang
  | jumpStart satp =>
    cases hx : load thead m.mem satp I.start_addr with
    | some mem =>
      simp only [Preloader.step, hx] at hs
      cases hs
      exact Nat.lt_succ_self 0
    | none =>
      simp only [Preloader.step, hx] at hs
      cases hs
      exact absurd rfl hhang
  | start satp pc => cases hs

theorem step_enabled (h : ∀ satp x, pc ≠ .start satp x) :
    ∃ pc' m', Preloader.step I sbi thead pc m = some (pc', m') := by
  cases pc with
  | loadPgtbl ws => cases ws <;> exact ⟨_, _, rfl⟩
  | test satp =>
    simp only [Preloader.step]
    split <;> exact ⟨_, _, rfl⟩
  | testHigh satp =>
    simp only [Preloader.step]
    split <;> exact ⟨_, _, rfl⟩
  | jumpStart satp =>
    simp only [Preloader.step]
    split <;> exact ⟨_, _, rfl⟩
  | start satp x => exact absurd rfl (h satp x)
  | _ => exact ⟨_, _, rfl⟩

section Alone

variable {H : Type} [DecidableEq H] {sbi : Sbi} {mem₀ : Mem} {c : Config H Pc Shared} {w : H}
  (hzero : ∀ x, InPage I.startup_pgtbl.toNat x → mem₀ x = {})
  (hstart : (mem₀ I.start_addr.toNat).word = I.start)
  (hthead : (sbi 4).2 = 0x5b7 → thead = true)

include hzero hstart hthead

theorem winner_starts (hsbi : ∀ fid, (sbi fid).1 = 0) (hw : Winner I sbi mem₀ (c.loc w) c.mem.mem) :
    ∃ es c', (∀ e ∈ es, e.1 = w) ∧ (threads H I sbi thead).run es c = some c' ∧
      ∃ satp pc, c'.loc w = .start satp pc := by
  refine Threads.run_to_goal (P := fun c => Winner I sbi mem₀ (c.loc w) c.mem.mem) w Pc.togo ?_ hw
  intro c hw hdone
  obtain ⟨pc, m, hs⟩ : ∃ pc m, Preloader.step I sbi thead (c.loc w) c.mem = some (pc, m) :=
    step_enabled fun satp x hx => hdone ⟨satp, x, hx⟩
  obtain ⟨hw', -⟩ := hw.step hzero hstart hthead hs
  have hhang : pc ≠ .hang := by
    rintro rfl
    obtain ⟨fid, herr⟩ := hw'
    exact herr (hsbi fid)
  exact ⟨(), pc, m, hs, by simpa using hw', togo_step hs hw.ne_entry hhang⟩

end Alone

section Race

variable {H : Type} [Fintype H] {loc : H → Pc} {h : H} {pc : Pc}

def drawn (loc : H → Pc) : Nat := (Finset.univ.filter fun h => loc h ≠ .entry).card

theorem drawn_eq_zero : drawn loc = 0 ↔ ∀ h, loc h = .entry := by
  unfold drawn
  rw [Finset.card_eq_zero, Finset.filter_eq_empty_iff]
  simp

theorem drawn_lt (hh : loc h = .entry) : drawn loc < Fintype.card H := by
  refine Finset.card_lt_card (Finset.filter_ssubset.mpr ⟨h, Finset.mem_univ h, ?_⟩)
  exact not_not.mpr hh

variable [DecidableEq H]

theorem drawn_update (hpc : pc ≠ .entry) (hh : loc h ≠ .entry) :
    drawn (Function.update loc h pc) = drawn loc := by
  unfold drawn
  congr 1
  ext k
  by_cases hk : k = h
  · subst hk
    simp [hpc, hh]
  · simp [hk]

theorem drawn_update_entry (hpc : pc ≠ .entry) (hh : loc h = .entry) :
    drawn (Function.update loc h pc) = drawn loc + 1 := by
  have hnot : h ∉ Finset.univ.filter fun k => loc k ≠ .entry := by simp [hh]
  unfold drawn
  rw [← Finset.card_insert_of_notMem hnot]
  congr 1
  ext k
  by_cases hk : k = h
  · subst hk
    simp [hpc]
  · simp [hk]

structure Race (I : Image) (sbi : Sbi) (mem₀ : Mem) (c : Config H Pc Shared) : Prop where
  count : c.mem.hart_lottery.toNat = drawn c.loc
  won : (∀ h, c.loc h = .entry) ∧ c.mem.mem = mem₀ ∨
    ∃ w, Winner I sbi mem₀ (c.loc w) c.mem.mem ∧
      ∀ h, h ≠ w → c.loc h = .entry ∨ c.loc h = .hang

variable {sbi : Sbi} {mem₀ : Mem} {c : Config H Pc Shared}

theorem Race.step (hcard : Fintype.card H < 2 ^ 32)
    (hzero : ∀ x, InPage I.startup_pgtbl.toNat x → mem₀ x = {})
    (hstart : (mem₀ I.start_addr.toNat).word = I.start)
    (hthead : (sbi 4).2 = 0x5b7 → thead = true) (hr : Race I sbi mem₀ c)
    (hs : Preloader.step I sbi thead (c.loc h) c.mem = some (pc, m)) :
    Race I sbi mem₀ ⟨Function.update c.loc h pc, m⟩ := by
  -- the lottery of a hart that has not drawn yet
  have hdraw (hh : c.loc h = .entry) : m.mem = c.mem.mem ∧
      m.hart_lottery.toNat = drawn c.loc + 1 ∧
      pc = if drawn c.loc = 0 then .getVendor else .hang := by
    rw [hh] at hs
    cases hs
    have hlt := drawn_lt hh
    have hcount := hr.count
    refine ⟨rfl, ?_, ?_⟩
    · change (c.mem.hart_lottery + 1).toNat = _
      rw [BitVec.toNat_add, hcount]
      change (_ + 1) % 2 ^ 32 = _
      omega
    · have hiff : c.mem.hart_lottery = 0 ↔ drawn c.loc = 0 := by
        rw [← BitVec.toNat_inj, hcount]
        rfl
      simp only [hiff, ne_eq, ite_not]
  rcases hr.won with ⟨hall, hmem⟩ | ⟨w, hw, hothers⟩
  · obtain ⟨hm, hcount, hpc⟩ := hdraw (hall h)
    rw [if_pos (drawn_eq_zero.mpr hall)] at hpc
    refine ⟨?_, Or.inr ⟨h, ?_, fun k hk => ?_⟩⟩
    · change m.hart_lottery.toNat = drawn (Function.update c.loc h pc)
      rw [hcount, drawn_update_entry (by rw [hpc]; nofun) (hall h)]
    · change Winner I sbi mem₀ (Function.update c.loc h pc h) m.mem
      rw [Function.update_self, hpc, hm]
      exact hmem
    · change Function.update c.loc h pc k = _ ∨ Function.update c.loc h pc k = _
      rw [Function.update_of_ne hk]
      exact Or.inl (hall k)
  by_cases hhw : h = w
  · subst hhw
    obtain ⟨hw', hl⟩ := hw.step hzero hstart hthead hs
    refine ⟨?_, Or.inr ⟨h, ?_, fun k hk => ?_⟩⟩
    · change m.hart_lottery.toNat = drawn (Function.update c.loc h pc)
      rw [hl, hr.count, drawn_update hw'.ne_entry hw.ne_entry]
    · change Winner I sbi mem₀ (Function.update c.loc h pc h) m.mem
      rw [Function.update_self]
      exact hw'
    · change Function.update c.loc h pc k = _ ∨ Function.update c.loc h pc k = _
      rw [Function.update_of_ne hk]
      exact hothers k hk
  · -- a hart that has not won changes nothing but the lottery
    have hlose : m.mem = c.mem.mem ∧ pc = .hang ∧
        m.hart_lottery.toNat = drawn (Function.update c.loc h pc) := by
      rcases hothers h hhw with hh | hh
      · obtain ⟨hm, hcount, hpc⟩ := hdraw hh
        rw [if_neg fun h0 => hw.ne_entry (drawn_eq_zero.mp h0 w)] at hpc
        refine ⟨hm, hpc, ?_⟩
        rw [hcount, drawn_update_entry (by rw [hpc]; nofun) hh]
      · have hne : c.loc h ≠ .entry := by
          rw [hh]
          nofun
        rw [hh] at hs
        cases hs
        have hsame := drawn_update (show Pc.hang ≠ .entry by nofun) hne
        exact ⟨rfl, rfl, hr.count.trans hsame.symm⟩
    obtain ⟨hm, hpc, hcount⟩ := hlose
    refine ⟨hcount, Or.inr ⟨w, ?_, fun k hk => ?_⟩⟩
    · change Winner I sbi mem₀ (Function.update c.loc h pc w) m.mem
      rw [Function.update_of_ne (Ne.symm hhw), hm]
      exact hw
    · change Function.update c.loc h pc k = _ ∨ Function.update c.loc h pc k = _
      by_cases hkh : k = h
      · subst hkh
        rw [Function.update_self]
        exact Or.inr hpc
      · rw [Function.update_of_ne hkh]
        exact hothers k hk

theorem Race.of_reaches (hcard : Fintype.card H < 2 ^ 32)
    (hzero : ∀ x, InPage I.startup_pgtbl.toNat x → mem₀ x = {})
    (hstart : (mem₀ I.start_addr.toNat).word = I.start)
    (hthead : (sbi 4).2 = 0x5b7 → thead = true)
    (hr : (threads H I sbi thead).ReachesWhen (fun _ _ _ => True) ⟨fun _ => .entry, ⟨0, mem₀⟩⟩ c) :
    Race I sbi mem₀ c := by
  refine hr.invariant (fun c h e pc m hrace _ hs => hrace.step hcard hzero hstart hthead hs) ?_
  exact ⟨(drawn_eq_zero.mpr fun _ => rfl).symm, Or.inl ⟨fun _ => rfl, rfl⟩⟩

theorem Race.started (hr : Race I sbi mem₀ c) (hh : c.loc h = .start satp x) :
    satp = setMmu (I.startup_pgtbl + 1024) ∧ x = I.start ∧ Ready I sbi.table c.mem.mem ∧
      ∀ h', h' ≠ h → c.loc h' = .entry ∨ c.loc h' = .hang := by
  rcases hr.won with ⟨hall, -⟩ | ⟨w, hw, hothers⟩
  · cases hh.symm.trans (hall h)
  have heq : h = w := by
    by_contra hne
    rcases hothers h hne with h' | h' <;> cases hh.symm.trans h'
  subst heq
  rw [hh] at hw
  obtain ⟨hsatp, hx, hready⟩ := hw
  exact ⟨hsatp, hx, hready, hothers⟩

/-- However the harts are let in, at most one gets past the lottery and the others hang once they
have drawn.  At `_start` it finds the first four gigabytes mapped to themselves and to
`K_VADDR_BASE`, for the kernel, and nothing else.  If no call to the firmware fails, one hart gets
there once a lot has been drawn. -/
theorem one_hart_starts (hcard : Fintype.card H < 2 ^ 32)
    (hzero : ∀ x, InPage I.startup_pgtbl.toNat x → mem₀ x = {})
    (hstart : (mem₀ I.start_addr.toNat).word = I.start)
    (hthead : (sbi 4).2 = 0x5b7 → thead = true)
    (hr : (threads H I sbi thead).ReachesWhen (fun _ _ _ => True) ⟨fun _ => .entry, ⟨0, mem₀⟩⟩ c) :
    ((∀ h, c.loc h = .entry) ∨
      ∃ w, c.loc w ≠ .entry ∧ ∀ h, h ≠ w → c.loc h = .entry ∨ c.loc h = .hang) ∧
    (∀ h satp pc, c.loc h = .start satp pc →
      pc = I.start ∧ (∀ h', h' ≠ h → c.loc h' = .entry ∨ c.loc h' = .hang) ∧
      ∀ va, translate thead c.mem.mem satp va = if Window va then some (direct va) else none) ∧
    ((∀ fid, (sbi fid).1 = 0) → (∃ h, c.loc h ≠ .entry) →
      ∃ w es c', (∀ e ∈ es, e.1 = w) ∧ (threads H I sbi thead).run es c = some c' ∧
        ∃ satp pc, c'.loc w = .start satp pc) := by
  have hrace := Race.of_reaches hcard hzero hstart hthead hr
  have hd : Direct thead sbi.table := direct_find hthead _ _
  refine ⟨?_, ?_, ?_⟩
  · rcases hrace.won with ⟨hall, -⟩ | ⟨w, hw, hothers⟩
    · exact Or.inl hall
    · exact Or.inr ⟨w, hw.ne_entry, hothers⟩
  · intro h satp pc hh
    obtain ⟨rfl, rfl, hready, hothers⟩ := hrace.started hh
    exact ⟨rfl, hothers, startup_translate hready.loaded hd I.inPage⟩
  · rintro hsbi ⟨h, hh⟩
    rcases hrace.won with ⟨hall, -⟩ | ⟨w, hw, -⟩
    · exact absurd (hall h) hh
    exact ⟨w, winner_starts hzero hstart hthead hsbi hw⟩

def sample : Image where
  startup_pgtbl := 0x80201000
  mmutest := 0x80202010
  start_addr := 0x80202008
  start := 0xFFFFFFC080203000
  aligned := by decide
  startup_lt := by decide
  mmutest_lt := by decide
  start_lt := by decide
  mmutest_apart := by decide
  start_apart := by decide
  data_apart := by decide

def sampleMem : Mem := Function.update (fun _ => {}) 0x80202008 (ofWord sample.start)

theorem sampleMem_zero (x : Nat) (hx : InPage sample.startup_pgtbl.toNat x) : sampleMem x = {} := by
  refine Function.update_of_ne ?_ _ _
  rintro rfl
  exact absurd hx.2 (by decide)

theorem sampleMem_start : (sampleMem sample.start_addr.toNat).word = sample.start := by
  rw [show sampleMem sample.start_addr.toNat = ofWord sample.start from
    Function.update_self _ _ _, word_ofWord]

theorem one_hart_starts_two : ∃ w es c', (∀ e ∈ es, e.1 = w) ∧
    (threads (Fin 2) sample (fun _ => (0, 0)) false).run es
      ⟨Function.update (fun _ => .entry) 0 .getVendor, ⟨1, sampleMem⟩⟩ = some c' ∧
    ∃ satp pc, c'.loc w = .start satp pc := by
  refine (one_hart_starts (by decide) sampleMem_zero sampleMem_start (fun h => absurd h (by decide))
    (Threads.ReachesWhen.refl.step (e := ()) trivial rfl)).2.2 (fun _ => rfl) ⟨0, ?_⟩
  nofun

end Race

end Abydos.Preloader
