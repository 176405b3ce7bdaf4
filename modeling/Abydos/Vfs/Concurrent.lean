import Abydos.Lib.Interleave
import Abydos.Vfs.Files
import Mathlib.Data.List.Permutation

/-! Calls of several harts.  `open` and `close` are one step under the lock; `read`, `write` and
`lseek` look the descriptor up under the lock and use what they found after they have let it go. -/

namespace Abydos.Vfs.Concurrent

open Abydos.Lib Abydos.Lib.Interleave

def Call.handle : Call → Option Int
  | .read fd _ => if fd = FILE_STDIN then none else some fd
  | .write fd _ _ => if fd = FILE_STDOUT then none else some fd
  | .lseek fd _ _ =>
    if fd = FILE_STDIN ∨ fd = FILE_STDOUT ∨ fd = FILE_STDERR then none else some fd
  | _ => none

def Call.operation (w : World) (i : Int) : Call → Prog Cpiofs Trap Result
  | .read _ count => Cpiofs.fsRead w i (count.signExtend 64)
  | .write _ _ _ => do return (← Cpiofs.fsWrite, [])
  | .lseek _ offset whence => do return (← Cpiofs.fsLseek i offset whence, [])
  | _ => return (K_OK, [])

inductive Local
  | idle
  | found (c : Call) (p : FsPtr) (i : Int)

structure Shared where
  vfs : VirtualFS
  log : List (Call × Result)

inductive Event
  | call (c : Call)
  | operate

def Shared.complete (m : Shared) (c : Call) (x : VfsM Result) : Option (Local × Shared) :=
  match x.exec m.vfs with
  | (.ok r, v) => some (.idle, ⟨v, (c, r) :: m.log⟩)
  | (.error _, _) => none

/-- The entry a call finds; a call that needs none, or finds none, is over with its first step. -/
def Shared.entry (m : Shared) (c : Call) : Option (FsPtr × Int) := (Call.handle c).bind m.vfs.fdMap

def step (w : World) (e : Event) (l : Local) (m : Shared) : Option (Local × Shared) :=
  match e, l with
  | .call c, .idle =>
    match m.entry c with
    | some (p, i) => some (.found c p i, m)
    | none => m.complete c (c.perform w)
  | .operate, .found c p i => m.complete c (onFs p (Call.operation w i c))
  | _, _ => none

def harts (H : Type) (w : World) : Threads H Event Local Shared where
  step _ := step w

def init (H : Type) (v : VirtualFS) : Config H Local Shared := ⟨fun _ => .idle, ⟨v, []⟩⟩

/-- A descriptor is not closed while another hart is about to use it. -/
def Calm (c : Config H Local Shared) (_ : H) (e : Event) : Prop :=
  ∀ fd, e = .call (.close fd) → ∀ k call p i, c.loc k = .found call p i → Call.handle call ≠ some fd

variable {H : Type} {w : World} {v v' : VirtualFS} {m m' : Shared} {l : Local}

theorem onFs_map (x : Prog Cpiofs Trap α) (f : α → β) :
    (onFs p x >>= fun a => pure (f a)).exec v = (onFs p (x >>= fun a => pure (f a))).exec v := by
  cases hx : x.exec (v.fs p) with
  | mk r c =>
    cases r with
    | ok a =>
      have hmap : (x >>= fun a => pure (f a)).exec (v.fs p) = (.ok (f a), c) :=
        Prog.exec_bind_ok hx
      rw [Prog.exec_bind_ok (exec_onFs hx), exec_onFs hmap]
      rfl
    | error e => rw [Prog.exec_bind_error (exec_onFs hx), exec_onFs (Prog.exec_bind_error hx)]

theorem perform_eq_operation {c : Call} (hh : Call.handle c = some fd)
    (hfd : v.fdMap fd = some (p, i)) :
    (c.perform w).exec v = (onFs p (Call.operation w i c)).exec v := by
  cases c with
  | openFile path => cases hh
  | close fd => cases hh
  | read fd count =>
    obtain ⟨hne, heq⟩ := Option.ite_none_left_eq_some.mp hh
    cases heq
    change (vfsRead w fd count).exec v = _
    rw [vfsRead, Prog.exec_ite, if_neg hne, Prog.exec_bind_ok (Prog.exec_get v), hfd]
    rfl
  | write fd buf count =>
    obtain ⟨hne, heq⟩ := Option.ite_none_left_eq_some.mp hh
    cases heq
    have hex : (vfsWrite w fd buf count).exec v = (onFs p Cpiofs.fsWrite).exec v := by
      rw [vfsWrite, Prog.exec_ite, if_neg hne, Prog.exec_bind_ok (Prog.exec_get v), hfd]
    refine Eq.trans ?_ (onFs_map Cpiofs.fsWrite fun rc => (rc, []))
    exact Prog.exec_bind_congr hex
  | lseek fd offset whence =>
    obtain ⟨hne, heq⟩ := Option.ite_none_left_eq_some.mp hh
    cases heq
    have hex : (vfsLseek fd offset whence).exec v =
        (onFs p (Cpiofs.fsLseek i offset whence)).exec v := by
      rw [vfsLseek, Prog.exec_ite, if_neg hne, Prog.exec_bind_ok (Prog.exec_get v), hfd]
    refine Eq.trans ?_ (onFs_map (Cpiofs.fsLseek i offset whence) fun rc => (rc, []))
    exact Prog.exec_bind_congr hex

theorem complete_eq_some {x : VfsM Result} (h : m.complete c x = some (l, m')) :
    ∃ r v, x.exec m.vfs = (.ok r, v) ∧ l = .idle ∧ m' = ⟨v, (c, r) :: m.log⟩ := by
  unfold Shared.complete at h
  split at h
  · next r v hx =>
    cases h
    exact ⟨r, v, hx, rfl, rfl⟩
  · cases h

theorem fdMap_of_change (hc : Change v c rc v') (hfd : v.fdMap fd = some x) (hne : c ≠ .close fd) :
    v'.fdMap fd = some x := by
  cases hc with
  | same => exact hfd
  | @opened path mnt p i f =>
    change Function.update v.fdMap rc ((v.fdMap rc).getD (p, (i.val : Int))) fd = some x
    rw [Function.update_apply]
    split
    · next heq =>
      rw [← heq, hfd]
      rfl
    · exact hfd
  | @closed fd₁ p i hcall =>
    change Function.update v.fdMap fd₁ none fd = some x
    rw [Function.update_apply, if_neg]
    · exact hfd
    · rintro rfl
      exact hne hcall
  | moved => exact hfd

/-- What the harts know: the log is a history of the calls one after the other, and the entry a hart
has found is still there. -/
structure Linear (w : World) (v₀ : VirtualFS) (c : Config H Local Shared) : Prop where
  history : History w v₀ c.mem.log c.mem.vfs
  found {k : H} {call : Call} {p : FsPtr} {i : Int} : c.loc k = .found call p i →
    ∃ fd, Call.handle call = some fd ∧ c.mem.vfs.fdMap fd = some (p, i)

theorem Linear.complete [DecidableEq H] {c : Config H Local Shared} {r : Result}
    (h : Linear w v₀ c) (call : Call) (hx : (call.perform w).exec c.mem.vfs = (.ok r, v))
    (hcalm : ∀ k q p i fd, c.loc k = .found q p i → Call.handle q = some fd → call ≠ .close fd)
    (k : H) : Linear w v₀ ⟨Function.update c.loc k .idle, ⟨v, (call, r) :: c.mem.log⟩⟩ := by
  refine ⟨h.history.cons hx, fun {k' q p i} hk' => ?_⟩
  change Function.update c.loc k .idle k' = _ at hk'
  rw [Function.update_apply] at hk'
  split at hk'
  · cases hk'
  · obtain ⟨fd, hh, hfd⟩ := h.found hk'
    refine ⟨fd, hh, fdMap_of_change (Call.change (Call.exec_of_perform call hx)) hfd ?_⟩
    exact hcalm k' q p i fd hk' hh

theorem Linear.step [DecidableEq H] {c : Config H Local Shared} (h : Linear w v₀ c)
    (hcalm : Calm c k e) (hs : Concurrent.step w e (c.loc k) c.mem = some (l, m)) :
    Linear w v₀ ⟨Function.update c.loc k l, m⟩ := by
  unfold Concurrent.step at hs
  cases e with
  | call call =>
    cases hl : c.loc k with
    | found q p i =>
      rw [hl] at hs
      cases hs
    | idle =>
      simp only [hl] at hs
      cases he : c.mem.entry call with
      | some x =>
        simp only [he] at hs
        cases hs
        obtain ⟨fd, hh, hfd⟩ := Option.bind_eq_some_iff.mp he
        refine ⟨h.history, fun {k' q p i} hk' => ?_⟩
        change Function.update c.loc k _ k' = _ at hk'
        rw [Function.update_apply] at hk'
        split at hk'
        · cases hk'
          exact ⟨fd, hh, hfd⟩
        · exact h.found hk'
      | none =>
        simp only [he] at hs
        obtain ⟨r, v, hx, rfl, rfl⟩ := complete_eq_some hs
        refine h.complete call hx (fun k' q p i fd hk' hh heq => ?_) k
        exact hcalm fd (by rw [heq]) k' q p i hk' hh
  | operate =>
    cases hl : c.loc k with
    | idle =>
      rw [hl] at hs
      cases hs
    | found q p i =>
      simp only [hl] at hs
      obtain ⟨r, v, hx, rfl, rfl⟩ := complete_eq_some hs
      obtain ⟨fd, hh, hfd⟩ := h.found hl
      rw [← perform_eq_operation hh hfd] at hx
      refine h.complete q hx (fun _ _ _ _ _ _ _ heq => ?_) k
      rw [heq] at hh
      cases hh

theorem linear_of_reaches [DecidableEq H]
    (hr : (harts H w).ReachesWhen Calm (init H v₀) c) : Linear w v₀ c := by
  refine hr.invariant (fun c h e l m hc hg hs => hc.step hg hs) ⟨.nil, fun hk => ?_⟩
  cases hk

/-- If no descriptor is closed while another hart is about to use it, the results are those of the
calls one after the other, in the order in which they are completed; and as long as the descriptors
can be counted, every read gives the bytes of its file at its position. -/
theorem reads_linearizable [DecidableEq H] {v₀ : VirtualFS} (hv₀ : v₀.Fresh)
    (hr : (harts H w).ReachesWhen Calm (init H v₀) c) :
    History w v₀ c.mem.log c.mem.vfs ∧
    (opens (c.mem.log.map Prod.fst) (c.mem.log.map fun x => x.2.1) < 2 ^ 31 - 3 →
      ∃ T, LegalRun (fun path file size => ∃ p, Located w v₀ path p file size) w.ram c.mem.log
        T) := by
  have h := linear_of_reaches hr
  refine ⟨h.history, fun hn => ?_⟩
  obtain ⟨-, -, T, hlegal, -⟩ := h.history.legal hv₀ hn
  exact ⟨T, hlegal⟩

def entryOf (name byte : UInt8) : Str :=
  CPIO_HEADER_MAGIC ++ List.replicate 55 0x30 ++ [0x31] ++ List.replicate 39 0x30 ++ [0x32] ++
    List.replicate 8 0x30 ++ [name, 0, byte, 0, 0, 0]

def archiveAB : Str := entryOf 0x61 0x78 ++ entryOf 0x62 0x79

def worldAB : World := ⟨fun a => archiveAB[(a - 4096).toNat]?, fun _ count => count.toInt⟩

def mountedAB : VirtualFS :=
  ⟨[([0x2f], 0)], fun _ => ⟨4096, 232, fun _ => {}⟩, fun _ => none, 3⟩

theorem mountedAB_fresh : mountedAB.Fresh := ⟨rfl, fun _ => rfl, fun _ _ => rfl⟩

def openA : Call := .openFile [0x2f, 0x61]

def openB : Call := .openFile [0x2f, 0x62]

theorem reads_linearizable_open : ∃ c,
    (harts Bool worldAB).run [(false, .call openA), (true, .call (.read 3 1)), (false, .call openB),
      (true, .operate)] (init Bool mountedAB) = some c ∧
    c.mem.log = [(.read 3 1, (1, [0x78])), (openB, (4, [])), (openA, (3, []))] ∧
    History worldAB mountedAB c.mem.log c.mem.vfs := by
  have hlog : ((harts Bool worldAB).run [(false, .call openA), (true, .call (.read 3 1)),
      (false, .call openB), (true, .operate)] (init Bool mountedAB)).map (fun c => c.mem.log) =
      some [(.read 3 1, (1, [0x78])), (openB, (4, [])), (openA, (3, []))] := by decide +kernel
  obtain ⟨c, hrun, hlog⟩ := Option.map_eq_some_iff.mp hlog
  refine ⟨c, hrun, hlog,
    (reads_linearizable mountedAB_fresh (.run .refl (fun p hp c => ?_) hrun)).1⟩
  intro fd heq
  revert heq
  revert p
  simp [openA, openB]

def replay (w : World) (v₀ : VirtualFS) : List (Call × Result) → Option VirtualFS
  | [] => some v₀
  | (c, r) :: log => (replay w v₀ log).bind fun v =>
    match (c.perform w).exec v with
    | (.ok r', v') => if r' = r then some v' else none
    | (.error _, _) => none

theorem replay_of_history (h : History w v₀ log v) : replay w v₀ log = some v := by
  induction h with
  | nil => rfl
  | cons _ hx ih => simp [replay, ih, hx]

/-- The second hart has found `a`; the first one closes it and opens `b` in the same slot.  In no
order do the calls give these results. -/
theorem read_other_file : ∃ c,
    (harts Bool worldAB).run [(false, .call openA), (true, .call (.read 3 1)),
      (false, .call (.close 3)), (false, .call openB), (true, .operate)] (init Bool mountedAB) =
        some c ∧
    c.mem.log = [(.read 3 1, (1, [0x79])), (openB, (4, [])), (.close 3, (K_OK, [])),
      (openA, (3, []))] ∧
    ∀ log v, log.Perm c.mem.log → ¬ History worldAB mountedAB log v := by
  have hlog : ((harts Bool worldAB).run [(false, .call openA), (true, .call (.read 3 1)),
      (false, .call (.close 3)), (false, .call openB), (true, .operate)] (init Bool mountedAB)).map
        (fun c => c.mem.log) = some [(.read 3 1, (1, [0x79])), (openB, (4, [])),
          (.close 3, (K_OK, [])), (openA, (3, []))] := by decide +kernel
  obtain ⟨c, hrun, hlog⟩ := Option.map_eq_some_iff.mp hlog
  have hnone : ∀ log ∈ List.permutations' [(Call.read 3 1, ((1, [0x79]) : Result)),
      (openB, (4, [])), (.close 3, (K_OK, [])), (openA, (3, []))],
      (replay worldAB mountedAB log).isNone = true := by decide +kernel
  refine ⟨c, hrun, hlog, fun log v hperm h => ?_⟩
  rw [hlog] at hperm
  have hreplay := hnone log (List.mem_permutations'.mpr hperm)
  rw [replay_of_history h] at hreplay
  cases hreplay

end Abydos.Vfs.Concurrent
