import Abydos.Defs
import Abydos.Lib.Script
import Mathlib.Data.List.AList
import Mathlib.Algebra.Group.Nat.Defs
import Mathlib.Data.Nat.Find

namespace Abydos.Sched

open Abydos.Lib

/-- `taskgroup_t`; `added` counts the tasks that have been added since it was made. -/
structure Taskgroup (T : Type) where
  next_task_id : BitVec 32 := 1
  tasks : AList fun _ : BitVec 32 => T := ∅
  added : Nat := 0

structure RoundRobin (T : Type) where
  _hdl_count : BitVec 64 := 0
  _taskgroups : AList fun _ : BitVec 64 => Taskgroup T := ∅

inductive Hang
  | hang
  deriving DecidableEq

abbrev SchedM (T : Type) := Prog (RoundRobin T) Hang

variable {T : Type}

def RoundRobin.put (s : RoundRobin T) (hdl : BitVec 64) (tg : Taskgroup T) : RoundRobin T :=
  { s with _taskgroups := s._taskgroups.insert hdl tg }

def addDevice : SchedM T Int := do
  let s ← get
  modify fun s => { s.put s._hdl_count {} with _hdl_count := s._hdl_count + 1 }
  return s._hdl_count.toInt

def removeDevice (handler : BitVec 64) : SchedM T Int := do
  modify fun s => { s with _taskgroups := s._taskgroups.erase handler }
  return 0

def freeId (tasks : AList fun _ : BitVec 32 => T) : Nat → BitVec 32 → Option (BitVec 32)
  | 0, _ => none
  | fuel + 1, id => if id ∈ tasks then freeId tasks fuel (id + 1) else some id

/-- After as many rounds as there are ids the loop is where it began and never ends. -/
def addTask (hdl : BitVec 64) (task : T) : SchedM T Int := do
  let s ← get
  match s._taskgroups.lookup hdl with
  | none => return 0
  | some tg =>
    if tg.tasks.entries.length = 2 ^ 32 - 1 then return 0
    else
      match freeId tg.tasks (2 ^ 32) tg.next_task_id with
      | none => throw .hang
      | some id => do
        modify fun s => s.put hdl ⟨id + 1, tg.tasks.insert id task, tg.added + 1⟩
        return id.toNat

def removeTask (hdl : BitVec 64) (task_id : BitVec 32) : SchedM T Int := do
  let s ← get
  match s._taskgroups.lookup hdl with
  | none => return K_EINVAL
  | some tg =>
    if task_id ∈ tg.tasks then do
      modify fun s => s.put hdl { tg with tasks := tg.tasks.erase task_id }
      return 0
    else return K_EALREADY

inductive Call (T : Type)
  | addDevice
  | removeDevice (handler : BitVec 64)
  | addTask (hdl : BitVec 64) (task : T)
  | removeTask (hdl : BitVec 64) (task_id : BitVec 32)

def Call.exec : Call T → SchedM T Int
  | .addDevice => Sched.addDevice
  | .removeDevice handler => Sched.removeDevice handler
  | .addTask hdl task => Sched.addTask hdl task
  | .removeTask hdl task_id => Sched.removeTask hdl task_id

def RoundRobin.task (s : RoundRobin T) (hdl : BitVec 64) (id : BitVec 32) : Option T :=
  (s._taskgroups.lookup hdl).bind fun tg => tg.tasks.lookup id

def NoRoom (s : RoundRobin T) (hdl : BitVec 64) : Prop :=
  ∀ tg, s._taskgroups.lookup hdl = some tg → tg.tasks.entries.length = 2 ^ 32 - 1

def OnlyAt (s s' : RoundRobin T) (hdl : BitVec 64) (id : BitVec 32) (t : Option T) : Prop :=
  s'.task hdl id = t ∧ ∀ hdl' id', ¬ (hdl' = hdl ∧ id' = id) → s'.task hdl' id' = s.task hdl' id'

/-- `addTask` stores the task under a new id and returns it, or returns zero if there is no room;
`removeTask` removes the task that it is given. -/
def Correct (s : RoundRobin T) : Call T → Prop
  | .addTask hdl task => ∃ rc s', (addTask hdl task).exec s = (.ok rc, s') ∧
      (rc = 0 ↔ NoRoom s hdl) ∧ (¬ NoRoom s hdl → ∃ id : BitVec 32, rc = id.toNat ∧
        s.task hdl id = none ∧ OnlyAt s s' hdl id (some task))
  | .removeTask hdl task_id => ∀ s', (removeTask hdl task_id).exec s = (.ok 0, s') →
      (∃ t, s.task hdl task_id = some t) ∧ OnlyAt s s' hdl task_id none
  | _ => True

def Room (s : RoundRobin T) : Call T → Prop
  | .addTask hdl _ => ∀ tg, s._taskgroups.lookup hdl = some tg →
      tg.tasks.entries.length = 2 ^ 32 - 1 ∨ tg.added < 2 ^ 32 - 1
  | _ => True

variable {s s' : RoundRobin T} {tg : Taskgroup T} {hdl : BitVec 64} {id : BitVec 32} {task : T}

theorem lookup_put (s : RoundRobin T) (hdl hdl' : BitVec 64) (tg : Taskgroup T) :
    (s.put hdl tg)._taskgroups.lookup hdl' =
      if hdl' = hdl then some tg else s._taskgroups.lookup hdl' := by
  unfold RoundRobin.put
  split
  · next heq => rw [heq, AList.lookup_insert]
  · next hne => rw [AList.lookup_insert_ne hne]

theorem task_of_lookup (hg : s._taskgroups.lookup hdl = some tg) (id : BitVec 32) :
    s.task hdl id = tg.tasks.lookup id := by
  rw [RoundRobin.task, hg]
  rfl

theorem onlyAt_put {tg' : Taskgroup T} (hg : s._taskgroups.lookup hdl = some tg)
    (hid : tg'.tasks.lookup id = t) (hrest : ∀ id' ≠ id, tg'.tasks.lookup id' = tg.tasks.lookup id') :
    OnlyAt s (s.put hdl tg') hdl id t := by
  have hput : (s.put hdl tg')._taskgroups.lookup hdl = some tg' := by
    rw [lookup_put, if_pos rfl]
  refine ⟨(task_of_lookup hput id).trans hid, fun hdl' id' hne => ?_⟩
  by_cases heq : hdl' = hdl
  · subst heq
    rw [task_of_lookup hput, task_of_lookup hg, hrest id' fun h => hne ⟨rfl, h⟩]
  · rw [RoundRobin.task, RoundRobin.task, lookup_put, if_neg heq]

theorem exists_of_room (h : ¬ NoRoom s hdl) : ∃ tg, s._taskgroups.lookup hdl = some tg ∧
    tg.tasks.entries.length ≠ 2 ^ 32 - 1 := by
  unfold NoRoom at h
  push Not at h
  exact h

theorem exec_addTask_noRoom (h : NoRoom s hdl) : (addTask hdl task).exec s = (.ok 0, s) := by
  unfold addTask
  rw [Prog.exec_bind_ok (Prog.exec_get s)]
  cases hg : s._taskgroups.lookup hdl with
  | none => rfl
  | some tg =>
    dsimp only
    rw [if_pos (h tg hg)]
    rfl

theorem exec_addTask (hg : s._taskgroups.lookup hdl = some tg)
    (hfull : tg.tasks.entries.length ≠ 2 ^ 32 - 1) (hfree : tg.next_task_id ∉ tg.tasks) (task : T) :
    (addTask hdl task).exec s = (.ok tg.next_task_id.toNat, s.put hdl
      ⟨tg.next_task_id + 1, tg.tasks.insert tg.next_task_id task, tg.added + 1⟩) := by
  have hid : freeId tg.tasks (2 ^ 32) tg.next_task_id = some tg.next_task_id := by
    rw [show 2 ^ 32 = (2 ^ 32 - 1) + 1 from rfl, freeId, if_neg hfree]
  unfold addTask
  rw [Prog.exec_bind_ok (Prog.exec_get s), hg]
  dsimp only
  rw [if_neg hfull, hid]
  rfl

theorem removeTask_cases (h : (removeTask hdl id).exec s = (.ok rc, s')) :
    (rc ≠ 0 ∧ s' = s) ∨ ∃ tg, s._taskgroups.lookup hdl = some tg ∧ id ∈ tg.tasks ∧
      s' = s.put hdl { tg with tasks := tg.tasks.erase id } := by
  unfold removeTask at h
  rw [Prog.exec_bind_ok (Prog.exec_get s)] at h
  cases hg : s._taskgroups.lookup hdl with
  | none =>
    rw [hg] at h
    cases h
    exact Or.inl ⟨by decide, rfl⟩
  | some tg =>
    rw [hg] at h
    dsimp only at h
    split at h
    · next hmem =>
      cases h
      exact Or.inr ⟨tg, rfl, hmem, rfl⟩
    · cases h
      exact Or.inl ⟨by decide, rfl⟩

structure Taskgroup.InOrder (tg : Taskgroup T) : Prop where
  next : tg.next_task_id = BitVec.ofNat 32 (tg.added + 1)
  added : tg.added ≤ 2 ^ 32 - 1
  ids : ∀ id ∈ tg.tasks, 0 < id.toNat ∧ id.toNat ≤ tg.added

def InOrder (s : RoundRobin T) : Prop :=
  ∀ hdl tg, s._taskgroups.lookup hdl = some tg → tg.InOrder

theorem Taskgroup.InOrder.next_toNat (h : tg.InOrder) :
    tg.next_task_id.toNat = (tg.added + 1) % 2 ^ 32 := by
  rw [h.next, BitVec.toNat_ofNat]

theorem Taskgroup.InOrder.next_free (h : tg.InOrder) : tg.next_task_id ∉ tg.tasks := by
  intro hmem
  have hids := h.ids _ hmem
  have hadded := h.added
  rw [h.next_toNat] at hids
  omega

theorem Taskgroup.InOrder.new : ({} : Taskgroup T).InOrder :=
  ⟨rfl, Nat.zero_le _, fun _ hmem => absurd hmem (AList.notMem_empty _)⟩

theorem Taskgroup.InOrder.add (h : tg.InOrder) (hlt : tg.added < 2 ^ 32 - 1) (task : T) :
    Taskgroup.InOrder
      ⟨tg.next_task_id + 1, tg.tasks.insert tg.next_task_id task, tg.added + 1⟩ := by
  refine ⟨?_, hlt, fun id hmem => ?_⟩
  · rw [h.next, BitVec.ofNat_add (tg.added + 1) 1]
    rfl
  · rcases (AList.mem_insert _).mp hmem with rfl | hmem
    · rw [h.next_toNat, Nat.mod_eq_of_lt (by omega)]
      exact ⟨Nat.succ_pos _, Nat.le_refl _⟩
    · exact ⟨(h.ids id hmem).1, Nat.le_succ_of_le (h.ids id hmem).2⟩

theorem Taskgroup.InOrder.erase (h : tg.InOrder) (id : BitVec 32) :
    Taskgroup.InOrder { tg with tasks := tg.tasks.erase id } :=
  ⟨h.next, h.added, fun id' hmem => h.ids id' (AList.mem_erase.mp hmem).2⟩

theorem InOrder.put (h : InOrder s) (htg : tg.InOrder) : InOrder (s.put hdl tg) := by
  intro hdl' tg' hg
  rw [lookup_put] at hg
  split at hg
  · cases hg
    exact htg
  · exact h hdl' tg' hg

theorem correct_iff (h : InOrder s) (call : Call T) : Correct s call ↔ Room s call := by
  cases call with
  | addDevice => exact Iff.rfl
  | removeDevice handler => exact Iff.rfl
  | addTask hdl task =>
    by_cases hno : NoRoom s hdl
    · refine iff_of_true ⟨0, s, exec_addTask_noRoom hno, iff_of_true rfl hno, ?_⟩ fun tg hg => ?_
      · exact fun hroom => absurd hno hroom
      · exact Or.inl (hno tg hg)
    · obtain ⟨tg, hg, hfull⟩ := exists_of_room hno
      have hin := h hdl tg hg
      have hex := exec_addTask hg hfull hin.next_free task
      have hnext := hin.next_toNat
      constructor
      · rintro ⟨rc, s', hex', hrc, -⟩ tg' hg'
        cases hg.symm.trans hg'
        cases hex.symm.trans hex'
        have hadded := hin.added
        have hzero := mt hrc.mp hno
        omega
      · intro hroom
        have hlt := (hroom tg hg).resolve_left hfull
        refine ⟨_, _, hex, iff_of_false ?_ hno, fun _ => ⟨tg.next_task_id, rfl, ?_, ?_⟩⟩
        · omega
        · rw [task_of_lookup hg]
          exact AList.lookup_eq_none.mpr hin.next_free
        · exact onlyAt_put hg (AList.lookup_insert _) fun id' hne => AList.lookup_insert_ne hne
  | removeTask hdl id =>
    refine iff_of_true (fun s' hex => ?_) trivial
    obtain ⟨hrc, -⟩ | ⟨tg, hg, hmem, rfl⟩ := removeTask_cases hex
    · exact absurd rfl hrc
    refine ⟨?_, onlyAt_put hg (AList.lookup_erase _ _) fun id' hne => AList.lookup_erase_ne hne⟩
    rw [task_of_lookup hg]
    exact Option.isSome_iff_exists.mp (AList.lookup_isSome.mpr hmem)

theorem InOrder.exec (h : InOrder s) {call : Call T} (hroom : Room s call)
    (hex : call.exec.exec s = (.ok rc, s')) : InOrder s' := by
  cases call with
  | addDevice =>
    cases hex
    exact h.put .new
  | removeDevice handler =>
    cases hex
    intro hdl tg hg
    by_cases heq : hdl = handler
    · subst heq
      cases (AList.lookup_erase _ _).symm.trans hg
    · exact h hdl tg ((AList.lookup_erase_ne heq).symm.trans hg)
  | addTask hdl task =>
    by_cases hno : NoRoom s hdl
    · cases (exec_addTask_noRoom hno).symm.trans hex
      exact h
    · obtain ⟨tg, hg, hfull⟩ := exists_of_room hno
      have hin := h hdl tg hg
      cases (exec_addTask hg hfull hin.next_free task).symm.trans hex
      exact h.put (hin.add ((hroom tg hg).resolve_left hfull) task)
  | removeTask hdl id =>
    rcases removeTask_cases hex with ⟨-, rfl⟩ | ⟨tg, hg, -, rfl⟩
    · exact h
    · exact h.put ((h hdl tg hg).erase id)

/-- Along a run, `addTask` and `removeTask` do what they should exactly if no group has tasks added to
it after 2³² - 1 others while it is not full. -/
theorem task_ids_iff (calls : List (Call T)) :
    Script.GuardedAll Call.exec Correct calls {} ↔ Script.GuardedAll Call.exec Room calls {} := by
  refine Script.guardedAll_congr (I := InOrder) (H := fun _ _ => True)
    (fun s call h _ => correct_iff h call) ?_ ?_ (Script.GuardedAll.of_forall (fun _ _ _ => trivial) _)
  · exact fun s call rc s' h _ hc hex => h.exec ((correct_iff h call).mp hc) hex
  · intro hdl tg hg
    cases hg

theorem task_ids_iff_two :
    Script.GuardedAll Call.exec Correct
      [.addDevice, .addTask 0 (), .addTask 0 (), .removeTask 0 1] ({} : RoundRobin Unit) := by
  refine (task_ids_iff _).mpr ⟨trivial, fun _ _ h₁ => ⟨?_, fun _ _ h₂ => ⟨?_, fun _ _ _ => ?_⟩⟩⟩
  · cases h₁
    intro tg hg
    cases hg
    exact Or.inr (by decide)
  · cases h₁
    cases h₂
    intro tg hg
    cases hg
    exact Or.inr (by decide)
  · exact ⟨trivial, fun _ _ _ => trivial⟩

def emptied (n : Nat) : RoundRobin Unit :=
  ⟨1, (∅ : AList _).insert 0 ⟨BitVec.ofNat 32 (n + 1), ∅, n⟩⟩

def roundsFrom (n : Nat) : Nat → List (Call Unit)
  | 0 => []
  | k + 1 => .addTask 0 () :: .removeTask 0 (BitVec.ofNat 32 (n + 1)) :: roundsFrom (n + 1) k

theorem lookup_emptied (n : Nat) :
    (emptied n)._taskgroups.lookup 0 = some ⟨BitVec.ofNat 32 (n + 1), ∅, n⟩ :=
  AList.lookup_insert _

def afterAdd (n : Nat) : RoundRobin Unit := (emptied n).put 0
  ⟨BitVec.ofNat 32 (n + 1) + 1, (∅ : AList _).insert (BitVec.ofNat 32 (n + 1)) (), n + 1⟩

theorem add_emptied (n : Nat) : (addTask 0 ()).exec (emptied n) =
    (.ok (BitVec.ofNat 32 (n + 1)).toNat, afterAdd n) :=
  exec_addTask (lookup_emptied n) (Nat.zero_ne_add_one _) (AList.notMem_empty _) ()

theorem remove_afterAdd (n : Nat) :
    (removeTask 0 (BitVec.ofNat 32 (n + 1))).exec (afterAdd n) = (.ok 0, emptied (n + 1)) := by
  have hg : (afterAdd n)._taskgroups.lookup 0 = some ⟨BitVec.ofNat 32 (n + 1) + 1,
      (∅ : AList _).insert (BitVec.ofNat 32 (n + 1)) (), n + 1⟩ := AList.lookup_insert _
  have herase : ((∅ : AList fun _ : BitVec 32 => Unit).insert (BitVec.ofNat 32 (n + 1)) ()).erase
      (BitVec.ofNat 32 (n + 1)) = ∅ :=
    AList.ext (List.kerase_cons_eq rfl)
  have hnext : BitVec.ofNat 32 (n + 1) + 1 = BitVec.ofNat 32 (n + 1 + 1) :=
    (BitVec.ofNat_add (n + 1) 1).symm
  unfold removeTask
  rw [Prog.exec_bind_ok (Prog.exec_get _), hg]
  dsimp only
  rw [if_pos ((AList.mem_insert _).mpr (Or.inl rfl))]
  refine Prod.ext rfl ?_
  change ((emptied n).put 0 _).put 0 _ = _
  unfold RoundRobin.put emptied
  rw [AList.insert_insert, AList.insert_insert, hnext, herase]

theorem run_rounds (n k : Nat) : ∃ rcs,
    (Script.runAll Call.exec (roundsFrom n k)).exec (emptied n) = (.ok rcs, emptied (n + k)) := by
  induction k generalizing n with
  | zero => exact ⟨[], rfl⟩
  | succ k ih =>
    obtain ⟨rcs, hrest⟩ := ih (n + 1)
    rw [Nat.add_right_comm] at hrest
    exact ⟨_, Script.exec_runAll_ok (add_emptied n) (Script.exec_runAll_ok (remove_afterAdd n) hrest)⟩

theorem task_id_zero :
    (∃ rcs, (Script.runAll Call.exec (.addDevice :: roundsFrom 0 (2 ^ 32 - 1))).exec {} =
      (.ok rcs, emptied (2 ^ 32 - 1))) ∧
    ¬ NoRoom (emptied (2 ^ 32 - 1)) 0 ∧
    (addTask 0 ()).exec (emptied (2 ^ 32 - 1)) = (.ok 0, afterAdd (2 ^ 32 - 1)) ∧
    (afterAdd (2 ^ 32 - 1)).task 0 0 = some () ∧
    ¬ Correct (emptied (2 ^ 32 - 1)) (.addTask 0 ()) := by
  have hadd := add_emptied (2 ^ 32 - 1)
  have hroom : ¬ NoRoom (emptied (2 ^ 32 - 1)) 0 := fun h =>
    absurd (h _ (lookup_emptied _)) (by decide)
  refine ⟨?_, hroom, hadd, rfl, ?_⟩
  · obtain ⟨rcs, hrun⟩ := run_rounds 0 (2 ^ 32 - 1)
    rw [Nat.zero_add] at hrun
    have hdev : (Call.addDevice : Call Unit).exec.exec {} = (.ok 0, emptied 0) := rfl
    exact ⟨_, Script.exec_runAll_ok hdev hrun⟩
  · rintro ⟨rc, s', hex, hrc, -⟩
    cases hadd.symm.trans hex
    exact hroom (hrc.mp rfl)

section FreeId

variable {tasks : AList fun _ : BitVec 32 => T}

theorem freeId_first (hfree : id + BitVec.ofNat 32 d ∉ tasks)
    (hused : ∀ j < d, id + BitVec.ofNat 32 j ∈ tasks) (hd : d < fuel) :
    freeId tasks fuel id = some (id + BitVec.ofNat 32 d) := by
  induction fuel generalizing id d with
  | zero => exact absurd hd (Nat.not_lt_zero d)
  | succ fuel ih =>
    unfold freeId
    cases d with
    | zero =>
      rw [BitVec.add_zero] at hfree ⊢
      rw [if_neg hfree]
    | succ d =>
      have hnext (j : Nat) : id + BitVec.ofNat 32 (j + 1) = id + 1 + BitVec.ofNat 32 j := by
        rw [Nat.add_comm, BitVec.ofNat_add, ← BitVec.add_assoc]
        rfl
      have hid : id ∈ tasks := by
        have h0 := hused 0 (Nat.succ_pos d)
        rwa [BitVec.add_zero] at h0
      rw [if_pos hid, hnext]
      apply ih (hnext d ▸ hfree) (fun j hj => ?_) (Nat.lt_of_succ_lt_succ hd)
      rw [← hnext]
      exact hused (j + 1) (Nat.succ_lt_succ hj)

theorem exists_free (hlt : tasks.entries.length < 2 ^ 32) (id : BitVec 32) :
    ∃ d < 2 ^ 32, id + BitVec.ofNat 32 d ∉ tasks := by
  by_contra hall
  push Not at hall
  have hsub : List.range (2 ^ 32) ⊆ tasks.keys.map BitVec.toNat := by
    intro k hk
    have hmem := hall (BitVec.ofNat 32 k - id).toNat (BitVec.isLt _)
    rw [BitVec.ofNat_toNat, BitVec.setWidth_eq, BitVec.add_comm, BitVec.sub_add_cancel] at hmem
    refine List.mem_map.mpr ⟨_, AList.mem_keys.mp hmem, ?_⟩
    exact (BitVec.toNat_ofNat k 32).trans (Nat.mod_eq_of_lt (List.mem_range.mp hk))
  have hle := List.nodup_range.length_le_of_subset hsub
  rw [List.length_range, List.length_map, AList.keys, List.keys, List.length_map] at hle
  exact Nat.not_lt.mpr hle hlt

end FreeId

/-- The search of `addTask` ends in a group that is not full, at the first id that is free from
`next_task_id` on. -/
theorem free_id_first (hg : s._taskgroups.lookup hdl = some tg)
    (hlt : tg.tasks.entries.length < 2 ^ 32 - 1) (task : T) :
    ∃ d < 2 ^ 32, (∀ j < d, tg.next_task_id + BitVec.ofNat 32 j ∈ tg.tasks) ∧
      tg.next_task_id + BitVec.ofNat 32 d ∉ tg.tasks ∧
      (∀ fuel, d < fuel → freeId tg.tasks fuel tg.next_task_id =
        some (tg.next_task_id + BitVec.ofNat 32 d)) ∧
      (addTask hdl task).exec s = (.ok (tg.next_task_id + BitVec.ofNat 32 d).toNat,
        s.put hdl ⟨tg.next_task_id + BitVec.ofNat 32 d + 1,
          tg.tasks.insert (tg.next_task_id + BitVec.ofNat 32 d) task, tg.added + 1⟩) := by
  have hex := exists_free (Nat.lt_of_lt_of_le hlt (Nat.sub_le _ _)) tg.next_task_id
  classical
  obtain ⟨hd, hfree⟩ := Nat.find_spec hex
  have hused (j : Nat) (hj : j < Nat.find hex) : tg.next_task_id + BitVec.ofNat 32 j ∈ tg.tasks :=
    by_contra fun hj' => Nat.find_min hex hj ⟨Nat.lt_trans hj hd, hj'⟩
  have hfirst (fuel : Nat) (hf : Nat.find hex < fuel) := freeId_first hfree hused hf
  refine ⟨_, hd, hused, hfree, hfirst, ?_⟩
  unfold addTask
  rw [Prog.exec_bind_ok (Prog.exec_get s), hg]
  dsimp only
  rw [if_neg (Nat.ne_of_lt hlt), hfirst (2 ^ 32) hd]
  rfl

def lastIds : Taskgroup Unit :=
  ⟨0xFFFFFFFF, ((∅ : AList _).insert 0xFFFFFFFF ()).insert 0 (), 2⟩

theorem free_id_first_wrapped : lastIds.tasks.entries.length < 2 ^ 32 - 1 ∧
    ∃ s', (addTask 0 ()).exec (RoundRobin.put {} 0 lastIds) = (.ok 1, s') := by
  have hg : (RoundRobin.put {} 0 lastIds)._taskgroups.lookup 0 = some lastIds := rfl
  obtain ⟨d, -, hused, hfree, -, hex⟩ := free_id_first hg (by decide) ()
  obtain rfl : d = 2 := by
    rcases Nat.lt_trichotomy d 2 with hlt | heq | hgt
    · obtain rfl | rfl : d = 0 ∨ d = 1 := by omega
      · exact absurd (by decide) hfree
      · exact absurd (by decide) hfree
    · exact heq
    · exact absurd (hused 2 hgt) (by decide)
  exact ⟨by decide, _, hex⟩

end Abydos.Sched
