import Abydos.Defs
import Mathlib.Data.BitVec
import Mathlib.Data.List.Infix

namespace Abydos.Boot

structure CpuNode where
  name : Option (List Char)
  reg : Except Int (BitVec 64)
  enabled : Bool
  isa : Option (List Char)
  mmuType : Option (List Char)

structure Cpu where
  hid : BitVec 64
  state : Bool
  xlen : Nat
  mmu : Nat
  extension : List Char
  deriving DecidableEq

structure GenericCPU where
  cpus : List Cpu := []
  hdlcount : Int := 0
  deriving DecidableEq

def isaXlen : List Char → Option Nat
  | 'r' :: 'v' :: '3' :: _ :: _ :: _ => some 32
  | 'r' :: 'v' :: '6' :: _ :: _ :: _ => some 64
  | _ => none

def mmuBits (mmutype : List Char) : Option Nat :=
  if ['s', 'v', '3', '2'] <:+: mmutype then some 32
  else if ['s', 'v', '3', '9'] <:+: mmutype then some 39
  else if ['s', 'v', '4', '8'] <:+: mmutype then some 48
  else if ['s', 'v', '5', '7'] <:+: mmutype then some 57
  else none

/-- The handle that `addDevice` returns; `none` is the exception of a `std::string` that would start
behind the end of the ISA string. -/
def addDevice (d : GenericCPU) (n : CpuNode) : Option (Int × GenericCPU) :=
  match n.name with
  | none => some (K_EINVAL, d)
  | some name =>
    if name = ['c', 'p', 'u', 's'] then some (0xFFFF, d)
    else if name = ['c', 'p', 'u', '-', 'm', 'a', 'p'] then some (0xFFF0, d)
    else
      match n.reg with
      | .error rc => some (rc, d)
      | .ok hid =>
        match n.isa with
        | none => some (K_EINVAL, d)
        | some isa =>
          match isaXlen isa with
          | none => some (K_EINVAL, d)
          | some xlen =>
            let str := isa.takeWhile (· ≠ '\x00')
            if str.length < 4 then none
            else
              match n.mmuType with
              | none => some (K_EINVAL, d)
              | some mmutype =>
                match mmuBits mmutype with
                | none => some (K_EINVAL, d)
                | some mmu =>
                  let cpu : Cpu := ⟨hid, n.enabled, xlen, mmu, (str.drop 4).take (isa.length - 4)⟩
                  some (d.hdlcount, ⟨d.cpus ++ [cpu], d.hdlcount + 1⟩)

def addDevices (d : GenericCPU) : List CpuNode → Option GenericCPU
  | [] => some d
  | n :: ns => (addDevice d n).bind fun r => addDevices r.2 ns

def K_CONFIG_STACK_SIZE : BitVec 32 := 1 <<< K_CONFIG_STACK_SIZE_N
def K_START_STACK_ADDR : BitVec 64 := 0xFFFFFFC080200000
def SBI_HSM_STATE_STOPPED : Int := 1

/-- What `alignedMalloc` returns: the last byte is not the last one that can be addressed. -/
structure Block (size : BitVec 64) where
  addr : BitVec 64
  ne_zero : addr ≠ 0
  fits : addr.toNat + size.toNat < 2 ^ 64

structure Sbi where
  getHartState : BitVec 64 → Int
  startHart : BitVec 64 → Int

/-- The device tree, the firmware and the heap that the kernel finds, with the `int` that it is
given as the id of its boot hart. -/
structure Platform where
  nodes : List CpuNode
  driver : GenericCPU
  probed : addDevices {} nodes = some driver
  distinct : (driver.cpus.map Cpu.hid).Nodup
  boot : BitVec 32
  sbi : Sbi
  alignedMalloc : (size : BitVec 64) → Option (Block size)

structure Area where
  base : BitVec 64
  size : BitVec 64
  deriving DecidableEq

def Platform.boot_stack_size (P : Platform) : BitVec 64 :=
  BitVec.ofNat 64 P.driver.cpus.length * K_CONFIG_STACK_SIZE.signExtend 64

def startArea : Area := ⟨K_START_STACK_ADDR, 512 * 1024⟩

def Platform.stackArea (P : Platform) : Except Int Area :=
  if P.boot_stack_size < 512 * 1024 then .ok startArea
  else
    match P.alignedMalloc P.boot_stack_size with
    | none => .error K_ENOMEM
    | some b => .ok ⟨b.addr + P.boot_stack_size, P.boot_stack_size⟩

/-- The product is one of `int`. -/
def Area.hartstack (A : Area) (i : BitVec 32) : BitVec 64 :=
  A.base - (i * K_CONFIG_STACK_SIZE).signExtend 64

def startHarts (sbi : Sbi) (boot_hartid : BitVec 32) :
    List Cpu → List (BitVec 32) → List (BitVec 32)
  | [], started => started
  | x :: xs, started =>
    let i := x.hid.setWidth 32
    if i = boot_hartid then startHarts sbi boot_hartid xs started
    else if i ∉ started ∧ sbi.getHartState (i.signExtend 64) = SBI_HSM_STATE_STOPPED ∧
        0 ≤ sbi.startHart (i.signExtend 64) then
      startHarts sbi boot_hartid xs (started ++ [i])
    else startHarts sbi boot_hartid xs started

def Platform.started (P : Platform) : List (BitVec 32) :=
  startHarts P.sbi P.boot P.driver.cpus []

def Platform.harts (P : Platform) : List (BitVec 32) := P.boot :: P.started

def Area.Contains (A : Area) (top : BitVec 64) : Prop :=
  A.base.toNat + 8192 ≤ top.toNat + A.size.toNat ∧ top.toNat ≤ A.base.toNat

def DisjointStacks (top top' : BitVec 64) : Prop :=
  top.toNat + 8192 ≤ top'.toNat ∨ top'.toNat + 8192 ≤ top.toNat

structure ResourcesFit (A : Area) (ids : List (BitVec 32)) : Prop where
  inside : ∀ i ∈ ids, A.Contains (A.hartstack i)
  disjoint : ∀ i ∈ ids, ∀ j ∈ ids, i ≠ j → DisjointStacks (A.hartstack i) (A.hartstack j)
  index : ∀ i ∈ ids, 0 ≤ i.toInt ∧ i.toInt < K_CONFIG_MAX_PROCESSORS

variable {P : Platform} {A : Area} {i j : BitVec 32}

theorem stackArea_large (h : P.stackArea = .ok A) :
    64 * 8192 ≤ A.size.toNat ∧ A.size.toNat ≤ A.base.toNat := by
  unfold Platform.stackArea at h
  split at h
  · cases h
    decide
  · next hlarge =>
    cases hb : P.alignedMalloc P.boot_stack_size with
    | none =>
      simp only [hb] at h
      cases h
    | some b =>
      simp only [hb] at h
      cases h
      have hfits := b.fits
      rw [BitVec.not_lt, BitVec.le_def] at hlarge
      have hsize : (512 * 1024 : BitVec 64).toNat = 64 * 8192 := by decide
      rw [hsize] at hlarge
      refine ⟨hlarge, ?_⟩
      rw [BitVec.toNat_add, Nat.mod_eq_of_lt hfits]
      exact Nat.le_add_left _ _

theorem offset_toNat (h : i.toNat < 64) :
    ((i * K_CONFIG_STACK_SIZE).signExtend 64).toNat = i.toNat * 8192 := by
  have hmul : (i * K_CONFIG_STACK_SIZE).toNat = i.toNat * 8192 := by
    rw [BitVec.toNat_mul, show K_CONFIG_STACK_SIZE.toNat = 8192 from rfl]
    exact Nat.mod_eq_of_lt (by omega)
  have hmsb : (i * K_CONFIG_STACK_SIZE).msb = false := by
    rw [BitVec.msb_eq_false_iff_two_mul_lt, hmul]
    omega
  rw [BitVec.signExtend_eq_setWidth_of_msb_false hmsb, BitVec.toNat_setWidth, hmul]
  exact Nat.mod_eq_of_lt (by omega)

theorem hartstack_toNat (hA : 64 * 8192 ≤ A.size.toNat ∧ A.size.toNat ≤ A.base.toNat)
    (h : i.toNat < 64) : (A.hartstack i).toNat = A.base.toNat - i.toNat * 8192 := by
  unfold Area.hartstack
  rw [BitVec.toNat_sub_of_le, offset_toNat h]
  rw [BitVec.le_def, offset_toNat h]
  omega

theorem index_iff : 0 ≤ i.toInt ∧ i.toInt < K_CONFIG_MAX_PROCESSORS ↔ i.toNat < 64 := by
  rw [BitVec.toInt_eq_toNat_cond]
  have := i.isLt
  unfold K_CONFIG_MAX_PROCESSORS
  split <;> omega

theorem ResourcesFit.of_small (hA : 64 * 8192 ≤ A.size.toNat ∧ A.size.toNat ≤ A.base.toNat)
    (h : ∀ i ∈ ids, BitVec.toNat i < 64) : ResourcesFit A ids := by
  refine ⟨fun i hi => ?_, fun i hi j hj hne => ?_, fun i hi => index_iff.mpr (h i hi)⟩
  · unfold Area.Contains
    rw [hartstack_toNat hA (h i hi)]
    have := h i hi
    omega
  · unfold DisjointStacks
    rw [hartstack_toNat hA (h i hi), hartstack_toNat hA (h j hj)]
    have := h i hi
    have := h j hj
    have hne' : i.toNat ≠ j.toNat := fun heq => hne (BitVec.eq_of_toNat_eq heq)
    omega

def Sbi.Starts (sbi : Sbi) (i : BitVec 32) : Prop :=
  sbi.getHartState (i.signExtend 64) = SBI_HSM_STATE_STOPPED ∧ 0 ≤ sbi.startHart (i.signExtend 64)

instance {sbi : Sbi} : Decidable (sbi.Starts i) := inferInstanceAs (Decidable (_ ∧ _))

theorem mem_startHarts : i ∈ startHarts sbi boot cpus started ↔
    i ∈ started ∨ ∃ x ∈ cpus, x.hid.setWidth 32 = i ∧ i ≠ boot ∧ sbi.Starts i := by
  induction cpus generalizing started with
  | nil => simp [startHarts]
  | cons x xs ih =>
    unfold startHarts
    simp only [List.exists_mem_cons_iff]
    by_cases hb : x.hid.setWidth 32 = boot
    · rw [if_pos hb, ih]
      have hnot : ¬ (x.hid.setWidth 32 = i ∧ i ≠ boot ∧ sbi.Starts i) :=
        fun h => h.2.1 (h.1.symm.trans hb)
      rw [or_iff_right hnot]
    · rw [if_neg hb]
      split
      · next hstart =>
        rw [ih, List.mem_append, List.mem_singleton, or_assoc]
        refine or_congr_right (or_congr_left ⟨?_, fun h => h.1.symm⟩)
        rintro rfl
        exact ⟨rfl, hb, hstart.2⟩
      · next hstart =>
        rw [ih]
        -- a hart that is not started here has been started or is none of those
        constructor
        · exact fun h => h.imp_right Or.inr
        · rintro (h | ⟨rfl, -, hs⟩ | h)
          · exact Or.inl h
          · exact Or.inl (by_contra fun hi => hstart ⟨hi, hs⟩)
          · exact Or.inr h

/-- The ids of the boot hart and of the harts that the firmware starts, as far as an `int` holds
them, are below the number of processors that the kernel is configured for. -/
structure SmallIds (P : Platform) : Prop where
  boot : P.boot.toNat < 64
  cpus : ∀ x ∈ P.driver.cpus, x.hid.setWidth 32 ≠ P.boot → P.sbi.Starts (x.hid.setWidth 32) →
    x.hid.toNat % 2 ^ 32 < 64

theorem hart_resources_fit_iff (P : Platform) (h : P.stackArea = .ok A) :
    ResourcesFit A P.harts ↔ SmallIds P := by
  constructor
  · intro hfit
    refine ⟨index_iff.mp (hfit.index _ List.mem_cons_self), fun x hx hb hs => ?_⟩
    have hmem : x.hid.setWidth 32 ∈ P.started := mem_startHarts.mpr (Or.inr ⟨x, hx, rfl, hb, hs⟩)
    have hlt := index_iff.mp (hfit.index _ (List.mem_cons_of_mem _ hmem))
    rwa [BitVec.toNat_setWidth] at hlt
  · intro hsmall
    refine ResourcesFit.of_small (stackArea_large h) fun i hi => ?_
    rcases List.mem_cons.mp hi with rfl | hi
    · exact hsmall.boot
    · rcases mem_startHarts.mp hi with hnone | ⟨x, hx, rfl, hb, hs⟩
      · cases hnone
      · rw [BitVec.toNat_setWidth]
        exact hsmall.cpus x hx hb hs

def cpuNode (hid : BitVec 64) : CpuNode where
  name := some ['c', 'p', 'u']
  reg := .ok hid
  enabled := true
  isa := some ['r', 'v', '6', '4', 'i', 'm', 'a', 'c', '\x00']
  mmuType := some ['r', 'i', 's', 'c', 'v', ',', 's', 'v', '3', '9', '\x00']

def cpu (hid : BitVec 64) : Cpu := ⟨hid, true, 64, 39, ['i', 'm', 'a', 'c']⟩

def twoCpus (hid : BitVec 64) (h : hid ≠ 0) : Platform where
  nodes := [cpuNode 0, cpuNode hid]
  driver := ⟨[cpu 0, cpu hid], 2⟩
  probed := rfl
  distinct := by simpa [cpu] using Ne.symm h
  boot := 0
  sbi := ⟨fun _ => SBI_HSM_STATE_STOPPED, fun _ => 0⟩
  alignedMalloc _ := none

def nearCpus : Platform := twoCpus 1 (by decide)
def farCpus : Platform := twoCpus 100 (by decide)

theorem hart_resources_fit_iff_two : ResourcesFit startArea nearCpus.harts :=
  (hart_resources_fit_iff nearCpus (by decide)).mpr ⟨by decide, by decide⟩

theorem hart_resources_outside : farCpus.stackArea = .ok startArea ∧ 100 ∈ farCpus.harts ∧
    ¬ startArea.Contains (startArea.hartstack 100) ∧
    ¬ (100 : BitVec 32).toInt < K_CONFIG_MAX_PROCESSORS := by
  refine ⟨by decide, by decide, ?_, by decide⟩
  unfold Area.Contains
  decide

end Abydos.Boot
