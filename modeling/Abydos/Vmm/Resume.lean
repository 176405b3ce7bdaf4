import Abydos.Lib.Script
import Abydos.Vmm.Manager

namespace Abydos.Vmm

open Abydos.Lib

inductive MmuCall
  | map (vaddr paddr size : BitVec 64) (prot : BitVec 32)
  | unmap (vaddr size : BitVec 64)
  deriving DecidableEq

def MmuCall.exec (M : MMUBase S E) : MmuCall → Prog S E Int
  | .map vaddr paddr size prot => M.map vaddr paddr size prot
  | .unmap vaddr size => M.unmap vaddr size

def MapT.request (r : MapT) : Option MmuCall :=
  match r.pending with
  | .MAP => some (.map r.vaddr r.paddr r.size r.prot)
  | .UNMAP => some (.unmap r.vaddr r.size)
  | .NONE => none

def logged (M : MMUBase S E) : MMUBase (S × List (MmuCall × Int)) E where
  map vaddr paddr size prot := note (.map vaddr paddr size prot)
  unmap vaddr size := note (.unmap vaddr size)
where
  note (call : MmuCall) : Prog (S × List (MmuCall × Int)) E Int := do
    let rc ← Prog.zoom Prod.fst (fun t s => (s, t.2)) (call.exec M)
    modify fun t => (t.1, t.2 ++ [(call, rc)])
    return rc

structure Issued where
  record : Nat
  call : MmuCall
  rc : Int

def issued (M : MMUBase S E) : Nat → List MapT → S → List Issued
  | _, [], _ => []
  | i, r :: rs, s =>
    match r.request with
    | none => issued M (i + 1) rs s
    | some call =>
      match (call.exec M).exec s with
      | (.error _, _) => []
      | (.ok rc, s') => ⟨i, call, rc⟩ :: if rc < 0 then [] else issued M (i + 1) rs s'

def pendingFrom : Nat → List MapT → List Nat
  | _, [] => []
  | i, r :: rs => if r.pending = .NONE then pendingFrom (i + 1) rs else i :: pendingFrom (i + 1) rs

inductive Confirmed : Nat → List MapT → Int → List Issued → List MapT → Int → Prop
  | nil : Confirmed i [] rc [] [] rc
  | skip : r.request = none → Confirmed (i + 1) rs rc L rs' rc' →
      Confirmed i (r :: rs) rc L (r :: rs') rc'
  | stop : r.request = some call → rc' < 0 →
      Confirmed i (r :: rs) rc [⟨i, call, rc'⟩] (r :: rs) rc'
  | next : r.request = some call → ¬ rc₁ < 0 → Confirmed (i + 1) rs rc₁ L rs' rc' →
      Confirmed i (r :: rs) rc (⟨i, call, rc₁⟩ :: L) (r.settled :: rs') rc'

inductive IssuedFrom : Nat → List MapT → List Issued → Prop
  | nil : IssuedFrom i rs []
  | skip : r.request = none → IssuedFrom (i + 1) rs L → IssuedFrom i (r :: rs) L
  | call : r.request = some call → IssuedFrom (i + 1) rs L →
      IssuedFrom i (r :: rs) (⟨i, call, rc⟩ :: L)

inductive Happening
  | marked (record : Nat)
  | called (call : Issued)

def Op.happenings (M : MMUBase S E) (σ : Space S) : Op → List Happening
  | .addMap _ _ _ _ => []
  | .removeMap vaddr size prot =>
    if isGlobal prot then []
    else ((σ.mgr.maps.findIdx? (·.key = (vaddr, size))).map Happening.marked).toList
  | .confirm => (issued M 0 σ.mgr.maps σ.mgr.mmu).map .called

def history (M : MMUBase S E) : List Op → Space S → List Happening
  | [], _ => []
  | op :: ops, σ => op.happenings M σ ++
    match (op.exec M).exec σ with
    | (.ok _, σ') => history M ops σ'
    | (.error _, _) => []

def Happening.entry : Happening → Option (MmuCall × Int)
  | .marked _ => none
  | .called c => some (c.call, c.rc)

def Space.logging (σ : Space S) (log : List (MmuCall × Int)) : Space (S × List (MmuCall × Int)) :=
  ⟨σ.globalMaps, ⟨σ.mgr.maps, (σ.mgr.mmu, log)⟩⟩

def Untouched (i : Nat) : List Happening → Prop
  | [] => True
  | .marked j :: hs => j = i ∨ Untouched i hs
  | .called c :: hs => c.record ≠ i ∧ Untouched i hs

/-- What is completed is not called for again unless the record is marked again. -/
def NoRepeat : List Happening → Prop
  | [] => True
  | .marked _ :: hs => NoRepeat hs
  | .called c :: hs => (0 ≤ c.rc → Untouched c.record hs) ∧ NoRepeat hs

def MmuCall.isMap : MmuCall → Bool
  | .map _ _ _ _ => true
  | .unmap _ _ => false

def MapsOnce : Happening → Happening → Prop
  | .called c, .called c' =>
    c.record = c'.record → c.call.isMap = true → 0 ≤ c.rc → c'.call.isMap = false
  | _, _ => True

/-- A `confirm` that returned `rc`, with the calls it made. -/
structure Resumes (m m' : VMemoryMgr S) (rc : Int) (L : List Issued) : Prop where
  inOrder : L.map Issued.record <+: pendingFrom 0 m.maps
  requested : ∀ c ∈ L, ∃ r, m.maps[c.record]? = some r ∧ r.request = some c.call
  failed : rc < 0 → ∃ done c, L = done ++ [c] ∧ c.rc = rc ∧ (∀ c ∈ done, 0 ≤ c.rc) ∧
    pendingFrom 0 m'.maps = (pendingFrom 0 m.maps).drop done.length
  finished : 0 ≤ rc → L.map Issued.record = pendingFrom 0 m.maps ∧ (∀ c ∈ L, 0 ≤ c.rc) ∧
    pendingFrom 0 m'.maps = [] ∧ rc = (L.map Issued.rc).getLastD 0
  settled : m'.maps.map MapT.settled = m.maps.map MapT.settled
  kept : ∀ k ∈ pendingFrom 0 m'.maps, m'.maps[k]? = m.maps[k]?

variable {S E : Type} {M : MMUBase S E} {r : MapT} {rs rs' : List MapT} {s s' : S} {rc rc' : Int}
  {σ σ' : Space S} {i : Nat} {call : MmuCall}

theorem call_eq (M : MMUBase S E) (r : MapT) : r.call M = r.request.map (MmuCall.exec M) := by
  unfold MapT.call MapT.request
  cases r.pending <;> rfl

theorem request_eq_none : r.request = none ↔ r.pending = .NONE := by
  unfold MapT.request
  cases r.pending <;> simp

theorem pendingFrom_none (h : r.request = none) :
    pendingFrom i (r :: rs) = pendingFrom (i + 1) rs := if_pos (request_eq_none.mp h)

theorem pendingFrom_settled : pendingFrom i (r.settled :: rs) = pendingFrom (i + 1) rs := rfl

theorem pendingFrom_some (h : r.request = some call) :
    pendingFrom i (r :: rs) = i :: pendingFrom (i + 1) rs := by
  refine if_neg fun h0 => ?_
  cases (request_eq_none.mpr h0).symm.trans h

theorem issued_none (h : r.request = none) :
    issued M i (r :: rs) s = issued M (i + 1) rs s := by
  rw [issued, h]

theorem issued_fail (h : r.request = some call) (hx : (call.exec M).exec s = (.ok rc, s'))
    (hrc : rc < 0) : issued M i (r :: rs) s = [⟨i, call, rc⟩] := by
  rw [issued, h]
  dsimp only
  rw [hx]
  dsimp only
  rw [if_pos hrc]

theorem issued_ok (h : r.request = some call) (hx : (call.exec M).exec s = (.ok rc, s'))
    (hrc : ¬ rc < 0) :
    issued M i (r :: rs) s = ⟨i, call, rc⟩ :: issued M (i + 1) rs s' := by
  rw [issued, h]
  dsimp only
  rw [hx]
  dsimp only
  rw [if_neg hrc]

theorem issued_trap (h : r.request = some call) (hx : (call.exec M).exec s = (.error e, s')) :
    issued M i (r :: rs) s = [] := by
  rw [issued, h]
  dsimp only
  rw [hx]

section Loop

def behind (r : MapT) (x : Except E (Int × List MapT) × S) : Except E (Int × List MapT) × S :=
  (x.1.map fun p => (p.1, r :: p.2), x.2)

theorem behind_ok {x : Except E (Int × List MapT) × S} (h : behind r x = (.ok (rc, rs), s)) :
    ∃ rs', x = (.ok (rc, rs'), s) ∧ rs = r :: rs' := by
  obtain ⟨res, s₁⟩ := x
  cases res with
  | error e => cases h
  | ok p =>
    cases h
    exact ⟨p.2, rfl, rfl⟩

theorem exec_behind (x : Prog S E (Int × List MapT)) (r : MapT) (s : S) :
    (do
      let (rc, rs) ← x
      return (rc, r :: rs) : Prog S E (Int × List MapT)).exec s = behind r (x.exec s) := by
  cases hx : x.exec s with
  | mk res s' =>
    cases res with
    | error e => exact Prog.exec_bind_error hx
    | ok p => exact Prog.exec_bind_ok hx

theorem exec_confirmLoop_skip (h : r.request = none) :
    (confirmLoop M (r :: rs) rc).exec s = behind r ((confirmLoop M rs rc).exec s) := by
  rw [confirmLoop, call_eq, h]
  exact exec_behind _ r s

theorem exec_confirmLoop_next (h : r.request = some call)
    (hx : (call.exec M).exec s = (.ok rc', s')) (hrc : ¬ rc' < 0) :
    (confirmLoop M (r :: rs) rc).exec s = behind r.settled ((confirmLoop M rs rc').exec s') := by
  rw [confirmLoop, call_eq, h]
  refine (Prog.exec_bind_ok hx).trans ?_
  rw [if_neg hrc]
  exact exec_behind _ r.settled s'

theorem exec_confirmLoop_trap (h : r.request = some call)
    (hx : (call.exec M).exec s = (.error e, s')) :
    (confirmLoop M (r :: rs) rc).exec s = (.error e, s') := by
  rw [confirmLoop, call_eq, h]
  exact Prog.exec_bind_error hx

theorem exec_confirmLoop_stop (h : r.request = some call)
    (hx : (call.exec M).exec s = (.ok rc', s')) (hrc : rc' < 0) :
    (confirmLoop M (r :: rs) rc).exec s = (.ok (rc', r :: rs), s') := by
  refine exec_confirmLoop_fail (M := M) ?_ hx hrc
  rw [call_eq, h]
  rfl

theorem confirmed (i : Nat) (h : (confirmLoop M rs rc).exec s = (.ok (rc', rs'), s')) :
    Confirmed i rs rc (issued M i rs s) rs' rc' := by
  induction rs generalizing i s rc rs' with
  | nil =>
    cases h
    exact .nil
  | cons r rs ih =>
    cases hreq : r.request with
    | none =>
      obtain ⟨rs₁, hrest, rfl⟩ := behind_ok ((exec_confirmLoop_skip hreq).symm.trans h)
      rw [issued_none hreq]
      exact .skip hreq (ih (i + 1) hrest)
    | some call =>
      cases hx : (call.exec M).exec s with
      | mk res s₁ =>
        cases res with
        | error e => cases (exec_confirmLoop_trap hreq hx).symm.trans h
        | ok rc₁ =>
          by_cases hrc : rc₁ < 0
          · cases (exec_confirmLoop_stop hreq hx hrc).symm.trans h
            rw [issued_fail hreq hx hrc]
            exact .stop hreq hrc
          · obtain ⟨rs₁, hrest, rfl⟩ := behind_ok ((exec_confirmLoop_next hreq hx hrc).symm.trans h)
            rw [issued_ok hreq hx hrc]
            exact .next hreq hrc (ih (i + 1) hrest)

theorem issuedFrom (i : Nat) (rs : List MapT) (s : S) : IssuedFrom i rs (issued M i rs s) := by
  induction rs generalizing i s with
  | nil => exact .nil
  | cons r rs ih =>
    cases hreq : r.request with
    | none =>
      rw [issued_none hreq]
      exact .skip hreq (ih (i + 1) s)
    | some call =>
      cases hx : (call.exec M).exec s with
      | mk res s₁ =>
        cases res with
        | error e =>
          rw [issued_trap hreq hx]
          exact .nil
        | ok rc₁ =>
          by_cases hrc : rc₁ < 0
          · rw [issued_fail hreq hx hrc]
            exact .call hreq .nil
          · rw [issued_ok hreq hx hrc]
            exact .call hreq (ih (i + 1) s₁)

namespace IssuedFrom

theorem mem (h : IssuedFrom i rs L) (hc : c ∈ L) :
    ∃ k r, c.record = i + k ∧ rs[k]? = some r ∧ r.request = some c.call := by
  induction h with
  | nil => cases hc
  | skip _ _ ih =>
    obtain ⟨k, q, hk, hq, hreq⟩ := ih hc
    exact ⟨k + 1, q, by omega, hq, hreq⟩
  | call hreq _ ih =>
    rcases List.mem_cons.mp hc with rfl | hc
    · exact ⟨0, _, rfl, rfl, hreq⟩
    · obtain ⟨k, q, hk, hq, hreq⟩ := ih hc
      exact ⟨k + 1, q, by omega, hq, hreq⟩

theorem increasing (h : IssuedFrom i rs L) : L.Pairwise fun c c' => c.record < c'.record := by
  induction h with
  | nil => exact .nil
  | skip _ _ ih => exact ih
  | call _ hrest ih =>
    refine .cons (fun c hc => ?_) ih
    obtain ⟨k, -, hk, -, -⟩ := hrest.mem hc
    dsimp only
    omega

end IssuedFrom

end Loop

namespace Confirmed

theorem map_settled (h : Confirmed i rs rc L rs' rc') :
    rs'.map MapT.settled = rs.map MapT.settled := by
  induction h with
  | nil => rfl
  | skip _ _ ih => rw [List.map_cons, List.map_cons, ih]
  | stop _ _ => rfl
  | next _ _ _ ih =>
    rw [List.map_cons, List.map_cons, ih]
    rfl

theorem getElem? {k : Nat} (h : Confirmed i rs rc L rs' rc') (hr : rs[k]? = some r) :
    rs'[k]? = some r ∨ rs'[k]? = some r.settled := by
  induction h generalizing k with
  | nil => cases hr
  | skip _ _ ih =>
    cases k with
    | zero => exact .inl hr
    | succ k => exact ih hr
  | stop _ _ => exact .inl hr
  | next _ _ _ ih =>
    cases k with
    | zero =>
      cases hr
      exact .inr rfl
    | succ k => exact ih hr

theorem completed (h : Confirmed i rs rc L rs' rc') (hc : c ∈ L) (hrc : 0 ≤ c.rc) :
    ∃ k r, c.record = i + k ∧ rs'[k]? = some r ∧ r.pending = .NONE := by
  induction h with
  | nil => cases hc
  | skip _ _ ih =>
    obtain ⟨k, q, hk, hq, hpend⟩ := ih hc
    exact ⟨k + 1, q, by omega, hq, hpend⟩
  | stop _ hneg =>
    rw [List.mem_singleton.mp hc] at hrc
    exact absurd hneg (Int.not_lt.mpr hrc)
  | next _ _ _ ih =>
    rcases List.mem_cons.mp hc with rfl | hc
    · exact ⟨0, _, rfl, rfl, rfl⟩
    · obtain ⟨k, q, hk, hq, hpend⟩ := ih hc
      exact ⟨k + 1, q, by omega, hq, hpend⟩

theorem inOrder (h : Confirmed i rs rc L rs' rc') : L.map Issued.record <+: pendingFrom i rs := by
  induction h with
  | nil => exact List.prefix_rfl
  | skip hreq _ ih =>
    rw [pendingFrom_none hreq]
    exact ih
  | stop hreq _ =>
    rw [pendingFrom_some hreq]
    exact List.prefix_cons_inj _ |>.mpr List.nil_prefix
  | next hreq _ _ ih =>
    rw [pendingFrom_some hreq]
    exact List.prefix_cons_inj _ |>.mpr ih

theorem failed (h : Confirmed i rs rc L rs' rc') (hrc : 0 ≤ rc) (hneg : rc' < 0) :
    ∃ L₀ c, L = L₀ ++ [c] ∧ c.rc = rc' ∧ (∀ c ∈ L₀, 0 ≤ c.rc) ∧
      pendingFrom i rs' = (pendingFrom i rs).drop L₀.length := by
  induction h with
  | nil => exact absurd hneg (Int.not_lt.mpr hrc)
  | skip hreq _ ih =>
    obtain ⟨L₀, c, hL, hc, hdone, hpend⟩ := ih hrc hneg
    rw [pendingFrom_none hreq, pendingFrom_none hreq]
    exact ⟨L₀, c, hL, hc, hdone, hpend⟩
  | stop _ _ => exact ⟨[], _, rfl, rfl, fun _ h => absurd h List.not_mem_nil, rfl⟩
  | next hreq hnn _ ih =>
    obtain ⟨L₀, c, hL, hc, hdone, hpend⟩ := ih (Int.not_lt.mp hnn) hneg
    refine ⟨_ :: L₀, c, congrArg _ hL, hc, ?_, ?_⟩
    · exact List.forall_mem_cons.mpr ⟨Int.not_lt.mp hnn, hdone⟩
    · rw [pendingFrom_settled, pendingFrom_some hreq]
      exact hpend

theorem finished (h : Confirmed i rs rc L rs' rc') (hrc : 0 ≤ rc) (hnn : 0 ≤ rc') :
    L.map Issued.record = pendingFrom i rs ∧ (∀ c ∈ L, 0 ≤ c.rc) ∧ pendingFrom i rs' = [] ∧
      rc' = (L.map Issued.rc).getLastD rc := by
  induction h with
  | nil => exact ⟨rfl, fun _ h => absurd h List.not_mem_nil, rfl, rfl⟩
  | skip hreq _ ih =>
    rw [pendingFrom_none hreq, pendingFrom_none hreq]
    exact ih hrc hnn
  | stop _ hneg => exact absurd hneg (Int.not_lt.mpr hnn)
  | next hreq hnn₁ _ ih =>
    obtain ⟨hrec, hdone, hpend, hlast⟩ := ih (Int.not_lt.mp hnn₁) hnn
    refine ⟨?_, List.forall_mem_cons.mpr ⟨Int.not_lt.mp hnn₁, hdone⟩, ?_, ?_⟩
    · rw [List.map_cons, hrec, pendingFrom_some hreq]
    · rw [pendingFrom_settled, hpend]
    · rw [List.map_cons, List.getLastD_cons]
      exact hlast

end Confirmed

section Log

variable {log : List (MmuCall × Int)}

theorem exec_logged_ok (hx : (call.exec M).exec s = (.ok rc, s')) :
    (call.exec (logged M)).exec (s, log) = (.ok rc, (s', log ++ [(call, rc)])) := by
  have hnote : (logged.note M call).exec (s, log) = (.ok rc, (s', log ++ [(call, rc)])) := by
    have hzoom : (Prog.zoom Prod.fst (fun t s => (s, t.2)) (call.exec M)).exec (s, log) =
        (.ok rc, (s', log)) := by
      show (((call.exec M).exec s).1, ((call.exec M).exec s).2, log) = _
      rw [hx]
    exact (Prog.exec_bind_ok hzoom).trans rfl
  cases call <;> exact hnote

theorem exec_logged_trap (hx : (call.exec M).exec s = (.error e, s')) :
    (call.exec (logged M)).exec (s, log) = (.error e, (s', log)) := by
  have hnote : (logged.note M call).exec (s, log) = (.error e, (s', log)) := by
    refine Prog.exec_bind_error ?_
    show (((call.exec M).exec s).1, ((call.exec M).exec s).2, log) = _
    rw [hx]
  cases call <;> exact hnote

theorem exec_confirmLoop_logged (i : Nat) (rs : List MapT) (rc : Int) (s : S)
    (log : List (MmuCall × Int)) :
    (confirmLoop (logged M) rs rc).exec (s, log) =
      (((confirmLoop M rs rc).exec s).1, ((confirmLoop M rs rc).exec s).2,
        log ++ (issued M i rs s).map fun c => (c.call, c.rc)) := by
  induction rs generalizing i rc s log with
  | nil =>
    show _ = (_, _, log ++ [])
    rw [List.append_nil]
    rfl
  | cons r rs ih =>
    cases hreq : r.request with
    | none =>
      rw [exec_confirmLoop_skip hreq, exec_confirmLoop_skip hreq, issued_none hreq, ih (i + 1)]
      rfl
    | some call =>
      cases hx : (call.exec M).exec s with
      | mk res s₁ =>
        cases res with
        | error e =>
          rw [exec_confirmLoop_trap hreq hx, exec_confirmLoop_trap hreq (exec_logged_trap hx),
            issued_trap hreq hx]
          show _ = (_, _, log ++ [])
          rw [List.append_nil]
        | ok rc₁ =>
          by_cases hrc : rc₁ < 0
          · rw [exec_confirmLoop_stop hreq hx hrc,
              exec_confirmLoop_stop hreq (exec_logged_ok hx) hrc, issued_fail hreq hx hrc]
            rfl
          · rw [exec_confirmLoop_next hreq hx hrc,
              exec_confirmLoop_next hreq (exec_logged_ok hx) hrc, issued_ok hreq hx hrc,
              ih (i + 1), List.map_cons, List.append_assoc]
            rfl

theorem exec_confirm_eq (M : MMUBase S E) (m : VMemoryMgr S) :
    (confirm M).exec m = match (confirmLoop M m.maps 0).exec m.mmu with
      | (.ok (rc, rs), s) => (.ok rc, ⟨rs, s⟩)
      | (.error e, s) => (.error e, { m with mmu := s }) := by
  cases hloop : (confirmLoop M m.maps 0).exec m.mmu with
  | mk res s =>
    cases res with
    | ok p => exact exec_confirm hloop
    | error e =>
      unfold confirm
      refine (Prog.exec_bind_ok (Prog.exec_get m)).trans (Prog.exec_bind_error ?_)
      show (((confirmLoop M m.maps 0).exec m.mmu).1, _) = _
      rw [hloop]

theorem exec_confirm_logged (m : VMemoryMgr S) (log : List (MmuCall × Int)) :
    (confirm (logged M)).exec ⟨m.maps, (m.mmu, log)⟩ =
      (((confirm M).exec m).1, ⟨((confirm M).exec m).2.maps, ((confirm M).exec m).2.mmu,
        log ++ (issued M 0 m.maps m.mmu).map fun c => (c.call, c.rc)⟩) := by
  rw [exec_confirm_eq, exec_confirm_eq, exec_confirmLoop_logged 0]
  cases (confirmLoop M m.maps 0).exec m.mmu with
  | mk res s => cases res <;> rfl

theorem filterMap_entry (L : List Issued) :
    (L.map Happening.called).filterMap Happening.entry = L.map fun c => (c.call, c.rc) := by
  rw [List.filterMap_map]
  exact congrFun (List.filterMap_eq_map (f := fun c : Issued => (c.call, c.rc))) L

theorem exec_op_logged (op : Op) (σ : Space S) (log : List (MmuCall × Int)) :
    (op.exec (logged M)).exec (σ.logging log) = (((op.exec M).exec σ).1,
      ((op.exec M).exec σ).2.logging (log ++ (op.happenings M σ).filterMap Happening.entry)) := by
  cases op with
  | addMap vaddr paddr size prot =>
    show _ = (_, Space.logging _ (log ++ []))
    rw [List.append_nil]
    rfl
  | removeMap vaddr size prot =>
    have hmarks :
        ((Op.removeMap vaddr size prot).happenings M σ).filterMap Happening.entry = [] := by
      rw [Op.happenings]
      split
      · rfl
      · cases σ.mgr.maps.findIdx? (·.key = (vaddr, size)) <;> rfl
    rw [hmarks, List.append_nil]
    show (Except.ok 0, removeMap vaddr size prot (σ.logging log)) =
      (Except.ok 0, (removeMap vaddr size prot σ).logging log)
    unfold removeMap
    split <;> rfl
  | confirm =>
    rw [Op.happenings, filterMap_entry]
    show (((confirm (logged M)).exec ⟨σ.mgr.maps, (σ.mgr.mmu, log)⟩).1,
      (⟨σ.globalMaps, ((confirm (logged M)).exec ⟨σ.mgr.maps, (σ.mgr.mmu, log)⟩).2⟩ :
        Space (S × List (MmuCall × Int)))) = _
    rw [exec_confirm_logged]
    rfl

theorem exec_runAll_logged (ops : List Op) (σ : Space S) (log : List (MmuCall × Int)) :
    (Script.runAll (Op.exec (logged M)) ops).exec (σ.logging log) =
      (((Script.runAll (Op.exec M) ops).exec σ).1,
        ((Script.runAll (Op.exec M) ops).exec σ).2.logging
          (log ++ (history M ops σ).filterMap Happening.entry)) := by
  induction ops generalizing σ log with
  | nil =>
    show _ = (_, Space.logging _ (log ++ []))
    rw [List.append_nil]
    rfl
  | cons op ops ih =>
    have hop := exec_op_logged (M := M) op σ log
    cases hex : (op.exec M).exec σ with
    | mk res σ₁ =>
      rw [hex] at hop
      cases res with
      | error e =>
        rw [Script.exec_runAll_error hop, Script.exec_runAll_error hex, history, hex,
          List.append_nil]
      | ok rc =>
        rw [history, hex, List.filterMap_append, ← List.append_assoc]
        have hrest := ih σ₁ (log ++ (op.happenings M σ).filterMap Happening.entry)
        cases hex' : (Script.runAll (Op.exec M) ops).exec σ₁ with
        | mk res' σ₂ =>
          rw [hex'] at hrest
          cases res' with
          | error e =>
            rw [Script.exec_runAll_rest_error hop hrest, Script.exec_runAll_rest_error hex hex']
          | ok rcs => rw [Script.exec_runAll_ok hop hrest, Script.exec_runAll_ok hex hex']

end Log

section History

variable {op : Op} {ops : List Op} {hs hs' : List Happening} {c : Issued} {k : Nat}
  {m m' : VMemoryMgr S} {L : List Issued}

theorem confirm_confirmed (h : (confirm M).exec m = (.ok rc, m')) :
    Confirmed 0 m.maps 0 (issued M 0 m.maps m.mmu) m'.maps rc := by
  rw [exec_confirm_eq] at h
  cases hloop : (confirmLoop M m.maps 0).exec m.mmu with
  | mk res s =>
    rw [hloop] at h
    cases res with
    | error e => cases h
    | ok p =>
      cases h
      exact confirmed 0 hloop

theorem getElem?_markUnmap (key : BitVec 64 × BitVec 64) (hr : rs[k]? = some r) :
    (markUnmap key rs)[k]? = some (if rs.findIdx? (·.key = key) = some k then
      { r with pending := .UNMAP } else r) := by
  induction rs generalizing k with
  | nil => cases hr
  | cons q rs ih =>
    rw [markUnmap, List.findIdx?_cons]
    by_cases hkey : q.key = key
    · rw [if_pos hkey, decide_eq_true hkey, if_pos rfl]
      cases k with
      | zero =>
        cases hr
        rw [if_pos rfl]
        rfl
      | succ k =>
        rw [if_neg nofun]
        exact hr
    · rw [if_neg hkey, decide_eq_false hkey, if_neg Bool.false_ne_true]
      cases k with
      | zero =>
        rw [if_neg (by cases rs.findIdx? (·.key = key) <;> simp)]
        exact hr
      | succ k =>
        have hshift : (rs.findIdx? (·.key = key)).map (· + 1) = some (k + 1) ↔
            rs.findIdx? (·.key = key) = some k := by
          cases rs.findIdx? (·.key = key) <;> simp
        simp only [hshift]
        exact ih hr

theorem getElem?_step (h : (op.exec M).exec σ = (.ok rc, σ')) (hr : σ.mgr.maps[k]? = some r) :
    σ'.mgr.maps[k]? = some r ∨ σ'.mgr.maps[k]? = some r.settled ∨
      .marked k ∈ op.happenings M σ ∧ σ'.mgr.maps[k]? = some { r with pending := .UNMAP } := by
  cases op with
  | addMap vaddr paddr size prot =>
    cases h
    exact .inl (List.getElem?_append_left (List.getElem?_eq_some_iff.mp hr).1 ▸ hr)
  | removeMap vaddr size prot =>
    have hσ : σ' = removeMap vaddr size prot σ := (congrArg Prod.snd h).symm
    rw [hσ, removeMap, Op.happenings]
    by_cases hg : isGlobal prot
    · rw [if_pos hg]
      exact .inl hr
    · rw [if_neg hg, if_neg hg]
      have hget := getElem?_markUnmap (vaddr, size) hr
      by_cases hidx : σ.mgr.maps.findIdx? (·.key = (vaddr, size)) = some k
      · rw [if_pos hidx] at hget
        rw [hidx]
        exact .inr (.inr ⟨List.mem_singleton.mpr rfl, hget⟩)
      · rw [if_neg hidx] at hget
        exact .inl hget
  | confirm =>
    obtain ⟨m', hm, rfl⟩ := Prog.exec_zoom_ok h
    rcases (confirm_confirmed hm).getElem? hr with hget | hget
    · exact .inl hget
    · exact .inr (.inl hget)

theorem mem_called (h : .called c ∈ op.happenings M σ) :
    op = .confirm ∧ c ∈ issued M 0 σ.mgr.maps σ.mgr.mmu := by
  cases op with
  | addMap _ _ _ _ => cases h
  | removeMap vaddr size prot =>
    rw [Op.happenings] at h
    split at h
    · cases h
    · obtain ⟨j, -, hj⟩ := Option.map_eq_some_iff.mp (Option.mem_toList.mp h)
      cases hj
  | confirm =>
    obtain ⟨c', hc', heq⟩ := List.mem_map.mp h
    cases heq
    exact ⟨rfl, hc'⟩

theorem called_request (h : .called c ∈ op.happenings M σ) :
    ∃ r, σ.mgr.maps[c.record]? = some r ∧ r.request = some c.call := by
  obtain ⟨k, r, hk, hr, hreq⟩ := (issuedFrom ..).mem (mem_called h).2
  rw [Nat.zero_add] at hk
  exact ⟨r, hk ▸ hr, hreq⟩

theorem called_completed (hc : .called c ∈ op.happenings M σ) (hrc : 0 ≤ c.rc)
    (h : (op.exec M).exec σ = (.ok rc, σ')) :
    ∃ r, σ'.mgr.maps[c.record]? = some r ∧ r.pending = .NONE := by
  obtain ⟨rfl, hmem⟩ := mem_called hc
  obtain ⟨m', hm, rfl⟩ := Prog.exec_zoom_ok h
  obtain ⟨k, r, hk, hr, hpend⟩ := (confirm_confirmed hm).completed hmem hrc
  rw [Nat.zero_add] at hk
  exact ⟨r, hk ▸ hr, hpend⟩

theorem request_isMap (h : r.request = some call) (hmap : call.isMap = true) :
    r.pending = .MAP := by
  unfold MapT.request at h
  cases hp : r.pending with
  | MAP => rfl
  | UNMAP =>
    rw [hp] at h
    cases h
    cases hmap
  | NONE =>
    rw [hp] at h
    cases h

theorem history_isMap (hr : σ.mgr.maps[k]? = some r) (hpend : r.pending ≠ .MAP)
    (hc : .called c ∈ history M ops σ) (hk : c.record = k) : c.call.isMap = false := by
  induction ops generalizing σ r with
  | nil => cases hc
  | cons op ops ih =>
    rw [history, List.mem_append] at hc
    rcases hc with hc | hc
    · obtain ⟨q, hq, hreq⟩ := called_request hc
      rw [hk, hr] at hq
      cases hq
      cases hmap : c.call.isMap with
      | false => rfl
      | true => exact absurd (request_isMap hreq hmap) hpend
    · cases hex : (op.exec M).exec σ with
      | mk res σ₁ =>
        rw [hex] at hc
        cases res with
        | error e => cases hc
        | ok rc =>
          rcases getElem?_step hex hr with hr₁ | hr₁ | ⟨-, hr₁⟩
          · exact ih hr₁ hpend hc
          · exact ih hr₁ nofun hc
          · exact ih hr₁ nofun hc

theorem untouched_append (hcalls : ∀ c, .called c ∈ hs → c.record ≠ k)
    (h : .marked k ∈ hs ∨ Untouched k hs') : Untouched k (hs ++ hs') := by
  induction hs with
  | nil => exact h.resolve_left List.not_mem_nil
  | cons e hs ih =>
    have hrest := ih fun c hc => hcalls c (List.mem_cons_of_mem e hc)
    cases e with
    | marked j =>
      by_cases hj : j = k
      · exact .inl hj
      · refine .inr (hrest (h.imp_left fun hm => ?_))
        exact (List.mem_cons.mp hm).resolve_left fun heq => hj (Happening.marked.inj heq).symm
    | called c =>
      refine ⟨hcalls c List.mem_cons_self, hrest (h.imp_left fun hm => ?_)⟩
      exact (List.mem_cons.mp hm).resolve_left nofun

theorem history_untouched (hr : σ.mgr.maps[k]? = some r) (hpend : r.pending = .NONE) :
    Untouched k (history M ops σ) := by
  induction ops generalizing σ with
  | nil => trivial
  | cons op ops ih =>
    rw [history]
    refine untouched_append (fun c hc hk => ?_) ?_
    · obtain ⟨q, hq, hreq⟩ := called_request hc
      rw [hk, hr] at hq
      cases hq
      rw [request_eq_none.mpr hpend] at hreq
      cases hreq
    · cases hex : (op.exec M).exec σ with
      | mk res σ₁ =>
        cases res with
        | error e => exact .inr trivial
        | ok rc =>
          have hsame : r.settled = r := by
            rw [MapT.settled, ← hpend]
          rcases getElem?_step hex hr with hr₁ | hr₁ | ⟨hmark, -⟩
          · exact .inr (ih hr₁)
          · rw [hsame] at hr₁
            exact .inr (ih hr₁)
          · exact .inl hmark

theorem noRepeat_calls (hL : L.Pairwise fun c c' => c.record < c'.record)
    (hdone : ∀ c ∈ L, 0 ≤ c.rc → Untouched c.record hs) (h : NoRepeat hs) :
    NoRepeat (L.map Happening.called ++ hs) := by
  induction L with
  | nil => exact h
  | cons c L ih =>
    obtain ⟨hc, hL⟩ := List.pairwise_cons.mp hL
    refine ⟨fun hrc => ?_, ih hL fun c' hc' => hdone c' (List.mem_cons_of_mem c hc')⟩
    refine untouched_append (fun c' hc' => ?_) (.inr (hdone c List.mem_cons_self hrc))
    obtain ⟨c₁, hc₁, heq⟩ := List.mem_map.mp hc'
    cases heq
    exact Nat.ne_of_gt (hc c' hc₁)

theorem noRepeat_marks (hno : ∀ c, .called c ∉ hs) (h : NoRepeat hs') : NoRepeat (hs ++ hs') := by
  induction hs with
  | nil => exact h
  | cons e hs ih =>
    have hrest := ih fun c hc => hno c (List.mem_cons_of_mem e hc)
    cases e with
    | marked j => exact hrest
    | called c => exact absurd List.mem_cons_self (hno c)

theorem noRepeat_happenings (hdone : ∀ c, .called c ∈ op.happenings M σ → 0 ≤ c.rc →
    Untouched c.record hs) (h : NoRepeat hs) : NoRepeat (op.happenings M σ ++ hs) := by
  by_cases hop : op = .confirm
  · subst hop
    exact noRepeat_calls (issuedFrom ..).increasing (fun c hc => hdone c (List.mem_map_of_mem hc)) h
  · exact noRepeat_marks (fun c hc => hop (mem_called hc).1) h

theorem history_noRepeat (M : MMUBase S E) (ops : List Op) (σ : Space S) :
    NoRepeat (history M ops σ) := by
  induction ops generalizing σ with
  | nil => trivial
  | cons op ops ih =>
    rw [history]
    cases hex : (op.exec M).exec σ with
    | mk res σ₁ =>
      cases res with
      | error e => exact noRepeat_happenings (fun _ _ _ => trivial) trivial
      | ok rc =>
        refine noRepeat_happenings (fun c hc hrc => ?_) (ih σ₁)
        obtain ⟨r, hr, hpend⟩ := called_completed hc hrc hex
        exact history_untouched hr hpend

theorem happenings_mapsOnce (op : Op) (σ : Space S) :
    (op.happenings M σ).Pairwise MapsOnce := by
  cases op with
  | addMap _ _ _ _ => exact .nil
  | removeMap vaddr size prot =>
    rw [Op.happenings]
    split
    · exact .nil
    · cases σ.mgr.maps.findIdx? (·.key = (vaddr, size)) with
      | none => exact .nil
      | some j => exact List.pairwise_singleton _ _
  | confirm =>
    refine List.pairwise_map.mpr ((issuedFrom ..).increasing.imp fun hlt heq => ?_)
    exact absurd heq (Nat.ne_of_lt hlt)

theorem history_mapsOnce (M : MMUBase S E) (ops : List Op) (σ : Space S) :
    (history M ops σ).Pairwise MapsOnce := by
  induction ops generalizing σ with
  | nil => exact .nil
  | cons op ops ih =>
    rw [history]
    cases hex : (op.exec M).exec σ with
    | mk res σ₁ =>
      cases res with
      | error e =>
        rw [List.append_nil]
        exact happenings_mapsOnce op σ
      | ok rc =>
        refine List.pairwise_append.mpr ⟨happenings_mapsOnce op σ, ih σ₁, fun e he e' he' => ?_⟩
        cases e with
        | marked _ => trivial
        | called c =>
          cases e' with
          | marked _ => trivial
          | called c' =>
            intro hrec _ hrc
            obtain ⟨r, hr, hpend⟩ := called_completed he hrc hex
            exact history_isMap hr (by rw [hpend]; nofun) he' hrec.symm

theorem mem_pendingFrom (hk : k ∈ pendingFrom i rs) :
    ∃ j r, k = i + j ∧ rs[j]? = some r ∧ r.pending ≠ .NONE := by
  induction rs generalizing i with
  | nil => cases hk
  | cons r rs ih =>
    have htail : k ∈ pendingFrom (i + 1) rs →
        ∃ j q, k = i + j ∧ (r :: rs)[j]? = some q ∧ q.pending ≠ .NONE := by
      intro hk
      obtain ⟨j, q, hj, hq, hpend⟩ := ih hk
      exact ⟨j + 1, q, by omega, hq, hpend⟩
    rw [pendingFrom] at hk
    split at hk
    · exact htail hk
    · rename_i hpend
      rcases List.mem_cons.mp hk with hk | hk
      · exact ⟨0, r, hk, rfl, hpend⟩
      · exact htail hk

theorem pendingFrom_eq_nil (h : pendingFrom i rs = []) : ∀ r ∈ rs, r.pending = .NONE := by
  induction rs generalizing i with
  | nil => exact fun _ hr => absurd hr List.not_mem_nil
  | cons r rs ih =>
    rw [pendingFrom] at h
    split at h
    · rename_i hpend
      exact List.forall_mem_cons.mpr ⟨hpend, ih h⟩
    · cases h

theorem confirm_resumes (h : (confirm M).exec m = (.ok rc, m')) :
    Resumes m m' rc (issued M 0 m.maps m.mmu) := by
  have hc := confirm_confirmed h
  refine ⟨hc.inOrder, fun c hmem => ?_, hc.failed (Int.le_refl 0), hc.finished (Int.le_refl 0),
    hc.map_settled, fun k hk => ?_⟩
  · obtain ⟨k, r, hk, hr, hreq⟩ := (issuedFrom ..).mem hmem
    rw [Nat.zero_add] at hk
    exact ⟨r, hk ▸ hr, hreq⟩
  · obtain ⟨j, r', hj, hr', hpend⟩ := mem_pendingFrom hk
    rw [Nat.zero_add] at hj
    subst hj
    have hlen : k < m.maps.length := by
      have hmap := congrArg List.length hc.map_settled
      rw [List.length_map, List.length_map] at hmap
      exact hmap ▸ (List.getElem?_eq_some_iff.mp hr').1
    rcases hc.getElem? (List.getElem?_eq_getElem hlen) with hget | hget
    · rw [hget, List.getElem?_eq_getElem hlen]
    · rw [hget] at hr'
      cases hr'
      exact absurd rfl hpend

theorem confirm_again (h : (confirm M).exec m = (.ok rc, m')) (hrc : 0 ≤ rc) :
    issued M 0 m'.maps m'.mmu = [] ∧ (confirm M).exec m' = (.ok 0, m') := by
  obtain ⟨-, -, hpend, -⟩ := (confirm_resumes h).finished hrc
  have hnone := pendingFrom_eq_nil hpend
  have hloop := (Settles.refl (M := M) hnone m'.mmu).exec
  have hsame : m'.maps.map MapT.settled = m'.maps := by
    refine (List.map_congr_left fun r hr => ?_).trans (List.map_id _)
    rw [MapT.settled, ← hnone r hr]
    rfl
  rw [hsame] at hloop
  refine ⟨?_, exec_confirm hloop⟩
  have hrec := (confirmed 0 hloop).finished (Int.le_refl 0) (Int.le_refl 0)
  rw [hpend] at hrec
  exact List.map_eq_nil_iff.mp hrec.1

end History

/-- Whatever the MMU returns: over any run a record is mapped at most once and nothing completed is
called for again without a new request; a `confirm` goes through the pending records in order up to
the first negative code, and the next one starts there. -/
theorem confirm_resumes_where_failed (M : MMUBase S E) :
    (∀ (ops : List Op) (σ : Space S),
      (history M ops σ).Pairwise MapsOnce ∧ NoRepeat (history M ops σ) ∧
      ∀ log, ((Script.runAll (Op.exec (logged M)) ops).exec (σ.logging log)).2 =
        ((Script.runAll (Op.exec M) ops).exec σ).2.logging
          (log ++ (history M ops σ).filterMap Happening.entry)) ∧
    ∀ (m m' : VMemoryMgr S) (rc : Int), (confirm M).exec m = (.ok rc, m') →
      Resumes m m' rc (issued M 0 m.maps m.mmu) ∧
      (0 ≤ rc → issued M 0 m'.maps m'.mmu = [] ∧ (confirm M).exec m' = (.ok 0, m')) := by
  refine ⟨fun ops σ => ⟨history_mapsOnce M ops σ, history_noRepeat M ops σ, fun log => ?_⟩,
    fun m m' rc h => ⟨confirm_resumes h, confirm_again h⟩⟩
  rw [exec_runAll_logged]

def scripted : MMUBase (List Int) Empty where
  map _ _ _ _ := next
  unmap _ _ := next
where
  next : Prog (List Int) Empty Int := do
    let codes ← get
    modify List.tail
    return codes.headD 0

def twoPending : VMemoryMgr (List Int) :=
  ⟨[⟨0x1000, 0x4000, 0x1000, 1, .MAP⟩, ⟨0x2000, 0x5000, 0x1000, 1, .MAP⟩], [0, K_EALREADY, 0]⟩

theorem confirm_resumes_at_second : ∃ m, (confirm scripted).exec twoPending = (.ok K_EALREADY, m) ∧
    Resumes twoPending m K_EALREADY (issued scripted 0 twoPending.maps twoPending.mmu) ∧
    pendingFrom 0 m.maps = [1] :=
  ⟨_, rfl, ((confirm_resumes_where_failed scripted).2 _ _ _ rfl).1, rfl⟩

end Abydos.Vmm
