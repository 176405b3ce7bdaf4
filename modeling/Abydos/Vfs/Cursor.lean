import Abydos.Vfs.Archive
import Abydos.Vfs.Tables

namespace Abydos.Vfs

open Abydos.Lib

variable {w : World} {c c' : Cpiofs} {i : Fin MAX_FILES} {f : Fcb} {ram : Ram} {a : Addr}

inductive CpioCall
  | openFile (path : Str)
  | close (fd : Int)
  | read (fd : Int) (count : BitVec 64)
  | lseek (fd : Int) (offset : BitVec 64) (whence : Int)
  deriving DecidableEq

def CpioCall.exec (w : World) : CpioCall → Prog Cpiofs Trap Int
  | .openFile path => Cpiofs.fsOpen w path
  | .close fd => Cpiofs.fsClose fd
  | .read fd count => Prod.fst <$> Cpiofs.fsRead w fd count
  | .lseek fd offset whence => Cpiofs.fsLseek fd offset whence

structure Fcb.InFile (f : Fcb) : Prop where
  pos : f.lpos ≤ f.size
  size : f.size.toNat < 2 ^ 32

def Cpiofs.InFiles (c : Cpiofs) : Prop := ∀ i, (c.fcb i).used = true → (c.fcb i).InFile

theorem Cpiofs.InFiles.setFcb (h : c.InFiles) (hf : f.used = true → f.InFile) :
    (c.setFcb i f).InFiles := by
  intro j hj
  rw [Cpiofs.setFcb_fcb] at hj ⊢
  split at hj
  · next hij =>
    rw [if_pos hij]
    exact hf hj
  · next hij =>
    rw [if_neg hij]
    exact h j hj

theorem getFileLoop_size (h : getFileLoop ram name fuel a len = .ok (file, size)) :
    size.toNat < 2 ^ 32 := by
  rcases getFileLoop_placed h with ⟨-, rfl⟩ | ⟨x, ns, -, hlt⟩
  · decide
  · exact hlt

theorem Fcb.InFile.read (h : f.InFile) (count : BitVec 64) :
    Fcb.InFile { f with lpos := f.lpos + f.available count } := by
  refine ⟨?_, h.size⟩
  change f.lpos + f.available count ≤ f.size
  unfold Fcb.available
  split
  · rw [BitVec.add_comm, BitVec.sub_add_cancel]
    exact BitVec.le_refl _
  · next hle => exact BitVec.not_lt.mp hle

def Fcb.target (f : Fcb) (offset : BitVec 64) (whence : Int) : Option Int :=
  if whence = Cpiofs.SEEK_SET then some offset.toInt
  else if whence = Cpiofs.SEEK_CUR then some (f.lpos.toNat + offset.toInt)
  else if whence = Cpiofs.SEEK_END then some (f.size.toNat + offset.toInt)
  else none

theorem checked_eq_some {p q : Prop} [Decidable p] [Decidable q] {x y : α} :
    (if p then none else if q then none else some x) = some y ↔ (¬ p ∧ ¬ q) ∧ x = y := by
  by_cases hp : p
  · simp [hp]
  · by_cases hq : q <;> simp [hp, hq]

theorem seek_eq_some (h : f.InFile) {pos : BitVec 64} : Cpiofs.seek f offset whence = some pos ↔
    f.target offset whence = some (pos.toNat : Int) ∧ pos.toNat ≤ f.size.toNat := by
  have hsize := h.size
  have hs : f.size.toInt = f.size.toNat := by
    rw [BitVec.toInt_eq_toNat_cond]
    omega
  have hneg : (-f.size).toInt = -(f.size.toNat : Int) := by
    rw [BitVec.toInt_eq_toNat_cond, BitVec.toNat_neg]
    omega
  have hpos := BitVec.le_def.mp h.pos
  have hoff := BitVec.toInt_eq_toNat_cond offset
  have := offset.isLt
  have := pos.isLt
  unfold Cpiofs.seek Fcb.target
  split
  · simp only [checked_eq_some, BitVec.slt, decide_eq_true_eq, BitVec.ofNat_eq_ofNat,
      BitVec.toInt_zero, ← BitVec.toNat_inj, Option.some.injEq]
    omega
  split
  · simp only [checked_eq_some, BitVec.lt_def, BitVec.toNat_add, BitVec.ofNat_eq_ofNat,
      BitVec.toNat_ofNat, ← BitVec.toNat_inj, Option.some.injEq]
    omega
  split
  · simp only [checked_eq_some, BitVec.slt, decide_eq_true_eq, BitVec.ofNat_eq_ofNat,
      BitVec.toInt_zero, BitVec.toNat_add, ← BitVec.toNat_inj, Option.some.injEq]
    omega
  · simp

theorem Cpiofs.InFiles.step (h : c.InFiles) (call : CpioCall)
    (hex : (CpioCall.exec w call).exec c = (.ok rc, c')) : c'.InFiles := by
  cases call with
  | openFile path =>
    rcases Cpiofs.fsOpen_cases hex with ⟨-, rfl⟩ | ⟨i, file, size, -, -, ⟨hfile, -⟩, rfl⟩
    · exact h
    · exact h.setFcb fun _ => ⟨BitVec.le_def.mpr (Nat.zero_le _), getFileLoop_size hfile⟩
  | close fd =>
    rcases Cpiofs.fsClose_cases hex with ⟨-, rfl, -⟩ | ⟨i, -, -, -, rfl⟩
    · exact h
    · exact h.setFcb fun hu => by cases hu
  | read fd count =>
    change (Cpiofs.fsRead w fd count >>= fun r => pure r.1 : Prog _ _ _).exec c = _ at hex
    obtain ⟨res, c₁, hread, hpure⟩ := exec_bind_inv hex
    cases hpure
    rcases Cpiofs.fsRead_cases hread with ⟨-, rfl⟩ | ⟨i, data, -, hu, -, -, rfl⟩
    · exact h
    · exact h.setFcb fun _ => (h i hu).read count
  | lseek fd offset whence =>
    rcases Cpiofs.fsLseek_cases hex with ⟨-, rfl⟩ | ⟨i, pos, -, hu, hseek, -, rfl⟩
    · exact h
    · exact h.setFcb fun _ => ⟨BitVec.le_def.mpr ((seek_eq_some (h i hu)).mp hseek).2, (h i hu).size⟩

theorem Cpiofs.InFiles.run (h : c.InFiles)
    (hrun : (Script.runAll (CpioCall.exec w) calls).exec c = (.ok rcs, c')) : c'.InFiles :=
  Script.runAll_invariant (G := fun _ _ => True) h
    (Script.GuardedAll.of_forall (fun _ _ _ => trivial) c) hrun
    fun _ call _ _ hc _ hex => hc.step call hex

theorem Ram.copy_length (h : ram.copy a n = .ok data) : data.length = n := by
  induction n generalizing a data with
  | zero =>
    cases h
    rfl
  | succ n ih =>
    obtain ⟨b, -, h⟩ := bind_eq_ok.mp h
    obtain ⟨bs, hbs, h⟩ := bind_eq_ok.mp h
    cases h
    exact congrArg (· + 1) (ih hbs)

theorem Ram.copy_drop (h : ram.copy a (k + n) = .ok data) :
    ram.copy (a + BitVec.ofNat 64 k) n = .ok (data.drop k) := by
  induction k generalizing a data with
  | zero =>
    rw [Nat.zero_add] at h
    rw [BitVec.add_zero]
    exact h
  | succ k ih =>
    rw [Nat.succ_add] at h
    obtain ⟨b, -, h⟩ := bind_eq_ok.mp h
    obtain ⟨bs, hbs, h⟩ := bind_eq_ok.mp h
    cases h
    rw [ofNat_succ, BitVec.add_comm (BitVec.ofNat 64 k), ← BitVec.add_assoc]
    exact ih hbs

theorem Ram.copy_take (h : ram.copy a n = .ok data) (hm : m ≤ n) :
    ram.copy a m = .ok (data.take m) := by
  induction m generalizing a n data with
  | zero => rfl
  | succ m ih =>
    obtain ⟨n, rfl⟩ : ∃ k, n = k + 1 := ⟨n - 1, by omega⟩
    obtain ⟨b, hb, h⟩ := bind_eq_ok.mp h
    obtain ⟨bs, hbs, h⟩ := bind_eq_ok.mp h
    cases h
    exact bind_eq_ok.mpr ⟨b, hb, bind_eq_ok.mpr ⟨_, ih hbs (by omega), rfl⟩⟩

def Fcb.remaining (f : Fcb) (count : BitVec 64) : Nat := min count.toNat (f.size.toNat - f.lpos.toNat)

/-- `read` copies these bytes of the file, advances the position over them and leaves everything
else as it is. -/
def ReadsExactly (w : World) (c : Cpiofs) (i : Fin MAX_FILES) (count : BitVec 64)
    (contents : List UInt8) : Prop :=
  ∃ rc c', (Cpiofs.fsRead w i.val count).exec c =
      (.ok (rc, (contents.drop (c.fcb i).lpos.toNat).take ((c.fcb i).remaining count)), c') ∧
    c'.fcb i = { c.fcb i with lpos := (c.fcb i).lpos + BitVec.ofNat 64 ((c.fcb i).remaining count) } ∧
    (∀ j ≠ i, c'.fcb j = c.fcb j) ∧ c'.archive = c.archive ∧ c'.archiveLen = c.archiveLen

theorem Fcb.InFile.available_eq (h : f.InFile) (count : BitVec 64) :
    (f.available count).toNat = f.remaining count ↔ f.lpos.toNat + count.toNat < 2 ^ 64 := by
  have hpos := BitVec.le_def.mp h.pos
  have hsize := h.size
  have hc := count.isLt
  have hadd := BitVec.toNat_add f.lpos count
  unfold Fcb.available Fcb.remaining
  split
  · next hlt =>
    rw [BitVec.toNat_sub_of_le h.pos]
    rw [BitVec.lt_def] at hlt
    omega
  · next hge =>
    rw [BitVec.lt_def] at hge
    omega

theorem exec_fsRead (hu : (c.fcb i).used = true) (hd : w.ram.copy ((c.fcb i).file + (c.fcb i).lpos)
    ((c.fcb i).available count).toNat = .ok data) :
    (Cpiofs.fsRead w i.val count).exec c =
      (.ok ((((c.fcb i).available count).setWidth 32).toInt, data),
        c.setFcb i { c.fcb i with lpos := (c.fcb i).lpos + (c.fcb i).available count }) := by
  unfold Cpiofs.fsRead
  rw [Prog.exec_bind_ok (Prog.exec_get c), Cpiofs.slot_eq_some.mpr ⟨rfl, hu⟩]
  change ((liftExcept (w.ram.copy _ ((c.fcb i).available count).toNat) >>= _ :
    Prog _ _ _).exec c) = _
  rw [hd]
  rfl

theorem readsExactly_iff (hu : (c.fcb i).used = true) (h : (c.fcb i).InFile)
    (hfile : w.ram.copy (c.fcb i).file (c.fcb i).size.toNat = .ok contents) (count : BitVec 64) :
    ReadsExactly w c i count contents ↔ (c.fcb i).lpos.toNat + count.toNat < 2 ^ 64 := by
  have hpos := BitVec.le_def.mp h.pos
  have hlen := Ram.copy_length hfile
  rw [← h.available_eq]
  constructor
  · rintro ⟨rc, c', hex, -⟩
    rcases Cpiofs.fsRead_cases hex with ⟨hnone, -⟩ | ⟨j, data, hj, -, hd, hres, -⟩
    · cases hnone.symm.trans (Cpiofs.slot_eq_some.mpr ⟨rfl, hu⟩)
    · obtain rfl : i = j := Fin.ext (Int.natCast_inj.mp hj)
      have hdata := congrArg List.length (Prod.mk.inj hres).2
      rw [Ram.copy_length hd, List.length_take, List.length_drop, hlen] at hdata
      unfold Fcb.remaining at hdata ⊢
      omega
  · intro hn
    have hrest : w.ram.copy ((c.fcb i).file + (c.fcb i).lpos) ((c.fcb i).available count).toNat =
        .ok ((contents.drop (c.fcb i).lpos.toNat).take ((c.fcb i).remaining count)) := by
      have hsplit : (c.fcb i).size.toNat =
          (c.fcb i).lpos.toNat + ((c.fcb i).size.toNat - (c.fcb i).lpos.toNat) := by omega
      rw [hsplit] at hfile
      have hdrop := Ram.copy_drop hfile
      rw [BitVec.ofNat_toNat, BitVec.setWidth_eq] at hdrop
      rw [hn]
      exact Ram.copy_take hdrop (Nat.min_le_right _ _)
    have hofNat : (c.fcb i).available count = BitVec.ofNat 64 ((c.fcb i).remaining count) := by
      rw [← hn, BitVec.ofNat_toNat, BitVec.setWidth_eq]
    refine ⟨_, _, exec_fsRead hu hrest, ?_, fun j hj => ?_, rfl, rfl⟩
    · rw [Cpiofs.setFcb_fcb, if_pos rfl, hofNat]
    · rw [Cpiofs.setFcb_fcb, if_neg hj]

/-- In every state that calls lead to, positions are in their files, and a read gives the next bytes
of its file unless position and count add up to more than a `size_t` holds. -/
theorem reads_inside_iff (hfresh : ∀ i, (c.fcb i).used = false)
    (hrun : (Script.runAll (CpioCall.exec w) calls).exec c = (.ok rcs, c')) :
    (∀ i, (c'.fcb i).used = true → (c'.fcb i).lpos ≤ (c'.fcb i).size) ∧
    ∀ i count contents, (c'.fcb i).used = true →
      w.ram.copy (c'.fcb i).file (c'.fcb i).size.toNat = .ok contents →
      (ReadsExactly w c' i count contents ↔ (c'.fcb i).lpos.toNat + count.toNat < 2 ^ 64) := by
  have hstart : c.InFiles := by
    intro i hu
    rw [hfresh i] at hu
    cases hu
  have h := hstart.run hrun
  exact ⟨fun i hu => (h i hu).pos, fun i count _ hu hfile => readsExactly_iff hu (h i hu) hfile count⟩

def readA : Cpiofs :=
  ((Script.runAll (CpioCall.exec worldA) [.openFile [0x61], .read 0 1]).exec cpiofsA).2

theorem run_readA :
    (Script.runAll (CpioCall.exec worldA) [.openFile [0x61], .read 0 1]).exec cpiofsA =
      (.ok [0, 1], readA) := by
  have hrcs : ((Script.runAll (CpioCall.exec worldA) [.openFile [0x61], .read 0 1]).exec
      cpiofsA).1 = .ok [0, 1] := by decide +kernel
  unfold readA
  rw [← hrcs]

theorem reads_inside_iff_archive :
    (Script.runAll (CpioCall.exec worldA) [.openFile [0x61], .read 0 1]).exec cpiofsA =
      (.ok [0, 1], readA) ∧ ReadsExactly worldA readA slotA 5 [0x68, 0x69] := by
  have hreads := (reads_inside_iff (fun _ => rfl) run_readA).2 slotA 5 [0x68, 0x69]
  exact ⟨run_readA, (hreads (by decide +kernel) (by decide +kernel)).mpr (by decide +kernel)⟩

theorem read_outside :
    (Script.runAll (CpioCall.exec worldA) [.openFile [0x61], .read 0 1]).exec cpiofsA =
      (.ok [0, 1], readA) ∧
    ((Cpiofs.fsRead worldA 0 ((-1 : BitVec 32).signExtend 64)).exec readA).1 =
      .error (.fault (4096 + 114)) ∧
    ¬ ReadsExactly worldA readA slotA ((-1 : BitVec 32).signExtend 64) [0x68, 0x69] := by
  have hfault : ((Cpiofs.fsRead worldA 0 ((-1 : BitVec 32).signExtend 64)).exec readA).1 =
      .error (.fault (4096 + 114)) := by decide +kernel
  refine ⟨run_readA, hfault, ?_⟩
  rintro ⟨rc, c', hex, -⟩
  cases hfault.symm.trans (congrArg Prod.fst hex)

/-- `lseek` goes to the position asked for and returns it if it is in the file, and otherwise returns
a negative code and changes nothing. -/
def SeeksExactly (c : Cpiofs) (i : Fin MAX_FILES) (offset : BitVec 64) (whence : Int) : Prop :=
  (∀ t, (c.fcb i).target offset whence = some t → 0 ≤ t → t ≤ (c.fcb i).size.toNat →
    (Cpiofs.fsLseek i.val offset whence).exec c =
      (.ok t, c.setFcb i { c.fcb i with lpos := BitVec.ofInt 64 t })) ∧
  ((∀ t, (c.fcb i).target offset whence = some t → t < 0 ∨ (c.fcb i).size.toNat < t) →
    ∃ rc, rc < 0 ∧ (Cpiofs.fsLseek i.val offset whence).exec c = (.ok rc, c))

theorem exec_fsLseek (hu : (c.fcb i).used = true) (offset : BitVec 64) (whence : Int) :
    (Cpiofs.fsLseek i.val offset whence).exec c =
      match Cpiofs.seek (c.fcb i) offset whence with
      | some pos => (.ok K_OK, c.setFcb i { c.fcb i with lpos := pos })
      | none => (.ok K_EINVAL, c) := by
  unfold Cpiofs.fsLseek
  rw [Prog.exec_bind_ok (Prog.exec_get c), Cpiofs.slot_eq_some.mpr ⟨rfl, hu⟩]
  dsimp only
  cases Cpiofs.seek (c.fcb i) offset whence <;> rfl

theorem seeksExactly_iff (hu : (c.fcb i).used = true) (h : (c.fcb i).InFile) (offset : BitVec 64)
    (whence : Int) : SeeksExactly c i offset whence ↔
      ∀ t, (c.fcb i).target offset whence = some t → 0 ≤ t → t ≤ (c.fcb i).size.toNat → t = 0 := by
  have hsize := h.size
  have hseek {t : Int} (ht : (c.fcb i).target offset whence = some t) (h0 : 0 ≤ t)
      (hle : t ≤ (c.fcb i).size.toNat) :
      Cpiofs.seek (c.fcb i) offset whence = some (BitVec.ofInt 64 t) := by
    have hnat : ((BitVec.ofInt 64 t).toNat : Int) = t := by
      rw [BitVec.toNat_ofInt]
      omega
    rw [seek_eq_some h, hnat]
    exact ⟨ht, by omega⟩
  unfold SeeksExactly
  rw [exec_fsLseek hu]
  constructor
  · rintro ⟨hok, -⟩ t ht h0 hle
    have hex := hok t ht h0 hle
    rw [hseek ht h0 hle] at hex
    exact (Except.ok.inj (Prod.mk.inj hex).1).symm
  · intro hzero
    refine ⟨fun t ht h0 hle => ?_, fun hout => ⟨K_EINVAL, by decide, ?_⟩⟩
    · rw [hseek ht h0 hle, hzero t ht h0 hle]
      rfl
    · cases hs : Cpiofs.seek (c.fcb i) offset whence with
      | none => rfl
      | some pos =>
        obtain ⟨ht, hle⟩ := (seek_eq_some h).mp hs
        have := hout _ ht
        omega

theorem lseek_reports_iff (hfresh : ∀ i, (c.fcb i).used = false)
    (hrun : (Script.runAll (CpioCall.exec w) calls).exec c = (.ok rcs, c'))
    (hu : (c'.fcb i).used = true) (offset : BitVec 64) (whence : Int) :
    SeeksExactly c' i offset whence ↔
      ∀ t, (c'.fcb i).target offset whence = some t → 0 ≤ t → t ≤ (c'.fcb i).size.toNat → t = 0 := by
  have hstart : c.InFiles := by
    intro i hu
    rw [hfresh i] at hu
    cases hu
  exact seeksExactly_iff hu (hstart.run hrun i hu) offset whence

theorem lseek_reports_iff_archive :
    (Script.runAll (CpioCall.exec worldA) [.openFile [0x61], .read 0 1]).exec cpiofsA =
      (.ok [0, 1], readA) ∧ SeeksExactly readA slotA (-2) Cpiofs.SEEK_END := by
  refine ⟨run_readA, (lseek_reports_iff (fun _ => rfl) run_readA (by decide +kernel) _ _).mpr ?_⟩
  have htarget : (readA.fcb slotA).target (-2) Cpiofs.SEEK_END = some 0 := by decide +kernel
  rintro t ht - -
  exact (Option.some.inj (htarget.symm.trans ht)).symm

theorem lseek_returns_zero :
    (Script.runAll (CpioCall.exec worldA) [.openFile [0x61], .read 0 1]).exec cpiofsA =
      (.ok [0, 1], readA) ∧
    (readA.fcb slotA).target 0 Cpiofs.SEEK_END = some 2 ∧
    ((Cpiofs.fsLseek 0 0 Cpiofs.SEEK_END).exec readA).1 = .ok K_OK ∧
    ¬ SeeksExactly readA slotA 0 Cpiofs.SEEK_END := by
  have htarget : (readA.fcb slotA).target 0 Cpiofs.SEEK_END = some 2 := by decide +kernel
  have hzero : ((Cpiofs.fsLseek 0 0 Cpiofs.SEEK_END).exec readA).1 = .ok K_OK := by decide +kernel
  refine ⟨run_readA, htarget, hzero, fun h => ?_⟩
  have hex := h.1 2 htarget (by decide) (by decide +kernel)
  cases hzero.symm.trans (congrArg Prod.fst hex)

end Abydos.Vfs
