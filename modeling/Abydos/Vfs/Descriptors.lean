import Abydos.Vfs.Confined

namespace Abydos.Vfs

open Abydos.Lib

variable {w : World} {v v' : VirtualFS} {call : Call} {calls : List Call} {path : Str} {p : FsPtr}
  {i : Fin MAX_FILES}

def Gained (v v' : VirtualFS) (p : FsPtr) (i : Fin MAX_FILES) : Prop :=
  ((v.fs p).fcb i).used = false ∧ ((v'.fs p).fcb i).used = true

/-- If a file is opened, then under a number that is not reserved and that no file has. -/
def FreshFd (w : World) (v : VirtualFS) : Call → Prop
  | .openFile path => ∀ rc v' p i, (vfsOpen w path).exec v = (.ok rc, v') → Gained v v' p i →
      3 ≤ rc ∧ v.fdMap rc = none ∧ v'.fdMap rc = some (p, (i.val : Int))
  | _ => True

/-- How many files are opened; each of them takes a number from the counter. -/
def obtained (w : World) : List Call → VirtualFS → Nat
  | [], _ => 0
  | call :: calls, v =>
    match (Call.exec w call).exec v with
    | (.ok _, v') => (if v'.fdCounter = v.fdCounter then 0 else 1) + obtained w calls v'
    | (.error _, _) => 0

theorem obtained_cons (h : (Call.exec w call).exec v = (.ok rc, v')) :
    obtained w (call :: calls) v =
      (if v'.fdCounter = v.fdCounter then 0 else 1) + obtained w calls v' := by
  rw [obtained, h]

theorem succ_ne (n : BitVec 32) : n + 1 ≠ n := by bv_omega

theorem Change.of_gained (hc : Change v (.openFile path) rc v') (hg : Gained v v' p i) :
    rc = v.fdCounter.toInt ∧ v'.fdCounter = v.fdCounter + 1 ∧
      v'.fdMap rc = some ((v.fdMap rc).getD (p, (i.val : Int))) := by
  cases hc with
  | same _ => cases hg.1.symm.trans hg.2
  | @opened _ _ q j f _ _ _ _ hrc =>
    have hused := hg.2
    change (((v.setFs q ((v.fs q).setFcb j f)).fs p).fcb i).used = true at hused
    rw [fcb_setFs] at hused
    split at hused
    · next heq =>
      obtain ⟨rfl, rfl⟩ := heq
      exact ⟨hrc, rfl, Function.update_self _ _ _⟩
    · cases hg.1.symm.trans hused
  | closed hcall _ _ => cases hcall
  | moved _ _ hnot _ => exact absurd rfl (hnot path)

theorem Change.of_counter (hc : Change v call rc v') (hne : v'.fdCounter ≠ v.fdCounter) :
    ∃ path p i, call = .openFile path ∧ Gained v v' p i ∧ rc = v.fdCounter.toInt ∧
      v'.fdCounter = v.fdCounter + 1 := by
  cases hc with
  | same _ => exact absurd rfl hne
  | @opened path _ q j f hcall _ hfree hf hrc =>
    refine ⟨path, q, j, hcall, ⟨hfree, ?_⟩, hrc, rfl⟩
    change (((v.setFs q ((v.fs q).setFcb j f)).fs q).fcb j).used = true
    rw [fcb_setFs, if_pos ⟨rfl, rfl⟩]
    exact hf
  | closed _ _ _ => exact absurd rfl hne
  | moved _ _ _ _ => exact absurd rfl hne

theorem InStep.next (h : InStep n v) (hn : n < 2 ^ 31 - 3) (hc : Change v call rc v') :
    InStep (n + if v'.fdCounter = v.fdCounter then 0 else 1) v' := by
  cases hc with
  | same _ =>
    rw [if_pos rfl]
    exact h
  | opened _ hmnt hfree hf hrc =>
    rw [if_neg (succ_ne v.fdCounter)]
    exact h.opened hn ⟨_, hmnt⟩ hfree hf hrc
  | closed _ hfd _ =>
    change InStep (n + if v.fdCounter = v.fdCounter then 0 else 1) _
    rw [if_pos rfl]
    exact h.closed hfd
  | moved _ hf _ _ =>
    change InStep (n + if v.fdCounter = v.fdCounter then 0 else 1) _
    rw [if_pos rfl]
    exact h.moved hf

theorem FreshFd.of_inStep (h : v.fdCounter ≠ v'.fdCounter → InStep n v ∧ n < 2 ^ 31 - 3)
    (hex : (Call.exec w call).exec v = (.ok rc, v')) : FreshFd w v call := by
  cases call with
  | openFile path =>
    intro rc₁ v₁ p i hex₁ hg
    cases hex.symm.trans hex₁
    obtain ⟨hrc, hcounter, hmap⟩ := (Call.change hex).of_gained hg
    obtain ⟨hin, hn⟩ := h (hcounter ▸ (succ_ne _).symm)
    have hnone : v.fdMap rc = none := hrc ▸ hin.fdMap_counter hn
    rw [hnone] at hmap
    refine ⟨?_, hnone, hmap⟩
    rw [hrc, hin.fdCounter_toInt hn]
    omega
  | _ => trivial

theorem FreshFd.of_error (hex : (Call.exec w call).exec v = (.error e, v')) :
    FreshFd w v call := by
  cases call with
  | openFile path =>
    intro rc v₁ p i hex₁ _
    cases hex.symm.trans hex₁
  | _ => trivial

theorem guarded_of_obtained (h : n < 2 ^ 31 - 3 → InStep n v)
    (hle : n + obtained w calls v ≤ 2 ^ 31 - 3) :
    Script.GuardedAll (Call.exec w) (FreshFd w) calls v := by
  induction calls generalizing n v with
  | nil => trivial
  | cons call calls ih =>
    cases hex : (Call.exec w call).exec v with
    | mk r v' =>
      cases r with
      | error e =>
        refine ⟨FreshFd.of_error hex, fun rc v₁ hex₁ => ?_⟩
        cases hex.symm.trans hex₁
      | ok rc =>
        rw [obtained_cons hex] at hle
        refine ⟨FreshFd.of_inStep (n := n) (fun hne => ?_) hex, fun rc₁ v₁ hex₁ => ?_⟩
        · rw [if_neg hne.symm] at hle
          have hn : n < 2 ^ 31 - 3 := by omega
          exact ⟨h hn, hn⟩
        · cases hex.symm.trans hex₁
          rw [← Nat.add_assoc] at hle
          exact ih (fun hlt => (h (by omega)).next (by omega) (Call.change hex)) hle

theorem obtained_of_guarded (hcounter : v.fdCounter = BitVec.ofNat 32 (3 + n)) (hn : n ≤ 2 ^ 31 - 3)
    (h : Script.GuardedAll (Call.exec w) (FreshFd w) calls v) :
    n + obtained w calls v ≤ 2 ^ 31 - 3 := by
  induction calls generalizing n v with
  | nil => exact hn
  | cons call calls ih =>
    cases hex : (Call.exec w call).exec v with
    | mk r v' =>
      cases r with
      | error e =>
        rw [obtained, hex]
        exact hn
      | ok rc =>
        have hrest := h.2 rc v' hex
        rw [obtained_cons hex, ← Nat.add_assoc]
        by_cases heq : v'.fdCounter = v.fdCounter
        · rw [if_pos heq]
          exact ih (heq.trans hcounter) hn hrest
        · obtain ⟨path, p, i, rfl, hg, hrc, hsucc⟩ := (Call.change hex).of_counter heq
          -- the number that it takes is not negative, so that the counter has not come to 2 ^ 31
          have h3 := (h.1 rc v' p i hex hg).1
          rw [hrc, hcounter, BitVec.toInt_eq_toNat_cond, BitVec.toNat_ofNat] at h3
          rw [if_neg heq]
          refine ih ?_ (by omega) hrest
          rw [hsucc, hcounter, ← Nat.add_assoc, BitVec.ofNat_add (3 + n) 1]
          rfl

theorem fresh_descriptors_iff (hv : v.Fresh) (calls : List Call) :
    Script.GuardedAll (Call.exec w) (FreshFd w) calls v ↔ obtained w calls v ≤ 2 ^ 31 - 3 := by
  constructor
  · intro h
    have hle := obtained_of_guarded (n := 0) hv.counter (Nat.zero_le _) h
    rwa [Nat.zero_add] at hle
  · intro h
    exact guarded_of_obtained (n := 0) (fun _ => hv.inStep) (by rwa [Nat.zero_add])

theorem fresh_descriptors_iff_archive :
    Script.GuardedAll (Call.exec worldA) (FreshFd worldA) callsA mountedA :=
  (fresh_descriptors_iff ⟨rfl, fun _ => rfl, fun _ _ => rfl⟩ callsA).mpr (by decide +kernel)

def pathA : Str := [0x2f, 0x61]

def countedA (c : BitVec 32) : VirtualFS := { mountedA with fdCounter := c }

def openedA (c : BitVec 32) : VirtualFS :=
  { ((countedA c).setFs 0 (cpiofsA.setFcb slotA ⟨true, 4208, 2, 0⟩)).insertFd c.toInt (0, 0) with
    fdCounter := c + 1 }

theorem open_countedA (c : BitVec 32) :
    (vfsOpen worldA pathA).exec (countedA c) = (.ok c.toInt, openedA c) := by
  have hfile : cpioGetFile worldA.ram cpiofsA.archive cpiofsA.archiveLen [0x61] = .ok (4208, 2) := by
    decide +kernel
  have hfree : cpiofsA.firstFree = some slotA := by decide +kernel
  have hopen : (Cpiofs.fsOpen worldA [0x61]).exec cpiofsA =
      (.ok 0, cpiofsA.setFcb slotA ⟨true, 4208, 2, 0⟩) := by
    rw [Cpiofs.exec_fsOpen hfile, if_neg (by decide), hfree]
    rfl
  unfold vfsOpen
  rw [Prog.exec_bind_ok (Prog.exec_get _)]
  change (onFs 0 (Cpiofs.fsOpen worldA [0x61]) >>= _ : VfsM Int).exec (countedA c) = _
  rw [Prog.exec_bind_ok (exec_onFs (v := countedA c) hopen)]
  rfl

theorem close_openedA (c : BitVec 32) :
    (vfsClose c.toInt).exec (openedA c) = (.ok K_OK, countedA (c + 1)) := by
  have hfd : (openedA c).fdMap c.toInt = some (0, 0) := Function.update_self _ _ _
  have hused : ((cpiofsA.setFcb slotA ⟨true, 4208, 2, 0⟩).fcb slotA).used = true := by
    rw [Cpiofs.setFcb_fcb, if_pos rfl]
  have hback : (cpiofsA.setFcb slotA ⟨true, 4208, 2, 0⟩).setFcb slotA {} = cpiofsA := by
    unfold Cpiofs.setFcb
    rw [Function.update_idem]
    exact congrArg (Cpiofs.mk _ _) (Function.update_eq_self slotA cpiofsA.fcb)
  have hclose : (Cpiofs.fsClose 0).exec (cpiofsA.setFcb slotA ⟨true, 4208, 2, 0⟩) =
      (.ok K_OK, cpiofsA) := by
    have hslot : (cpiofsA.setFcb slotA ⟨true, 4208, 2, 0⟩).slot 0 = some slotA :=
      Cpiofs.slot_eq_some.mpr ⟨rfl, hused⟩
    unfold Cpiofs.fsClose
    rw [Prog.exec_bind_ok (Prog.exec_get _), hslot]
    exact Prod.ext rfl hback
  have hclosed : ((openedA c).setFs 0 cpiofsA).eraseFd c.toInt = countedA (c + 1) := by
    unfold openedA VirtualFS.insertFd VirtualFS.eraseFd VirtualFS.setFs
    dsimp only
    rw [Function.update_idem, Function.update_idem]
    exact congrArg₂ (fun fs fdMap => VirtualFS.mk _ fs fdMap _)
      (Function.update_eq_self 0 (countedA c).fs) (Function.update_eq_self _ _)
  unfold vfsClose
  rw [Prog.exec_bind_ok (Prog.exec_get _), hfd]
  change (onFs 0 (Cpiofs.fsClose 0) >>= _ : VfsM Int).exec (openedA c) = _
  rw [Prog.exec_bind_ok (exec_onFs (v := openedA c) hclose)]
  exact Prod.ext rfl hclosed

def roundsA : Nat → BitVec 32 → List Call
  | 0, _ => []
  | n + 1, c => .openFile pathA :: .close c.toInt :: roundsA n (c + 1)

theorem run_roundsA (n : Nat) (c : BitVec 32) : ∃ rcs,
    (Script.runAll (Call.exec worldA) (roundsA n c)).exec (countedA c) =
      (.ok rcs, countedA (c + BitVec.ofNat 32 n)) := by
  induction n generalizing c with
  | zero => exact ⟨[], by rw [BitVec.add_zero]; rfl⟩
  | succ n ih =>
    obtain ⟨rcs, hrest⟩ := ih (c + 1)
    have hc : c + 1 + BitVec.ofNat 32 n = c + BitVec.ofNat 32 (n + 1) := by
      rw [BitVec.ofNat_add, BitVec.add_assoc, BitVec.add_comm 1]
      rfl
    rw [hc] at hrest
    exact ⟨_, Script.exec_runAll_ok (open_countedA c)
      (Script.exec_runAll_ok (close_openedA c) hrest)⟩

theorem descriptor_wraps :
    (∃ rcs, (Script.runAll (Call.exec worldA) (roundsA (2 ^ 31 - 3) 3)).exec mountedA =
      (.ok rcs, countedA (2 ^ 31))) ∧
    (vfsOpen worldA pathA).exec (countedA (2 ^ 31)) = (.ok (-2 ^ 31), openedA (2 ^ 31)) ∧
    Gained (countedA (2 ^ 31)) (openedA (2 ^ 31)) 0 slotA ∧
    ¬ FreshFd worldA (countedA (2 ^ 31)) (.openFile pathA) := by
  have hopen := open_countedA (2 ^ 31)
  have hgained : Gained (countedA (2 ^ 31)) (openedA (2 ^ 31)) 0 slotA :=
    ⟨rfl, by decide +kernel⟩
  refine ⟨run_roundsA (2 ^ 31 - 3) 3, hopen, hgained, fun h => ?_⟩
  exact absurd (h _ _ _ _ hopen hgained).1 (by decide)

end Abydos.Vfs
