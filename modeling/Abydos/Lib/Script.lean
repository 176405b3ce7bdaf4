import Abydos.Lib.Program

namespace Abydos.Lib.Script

variable {S E O : Type} (op : O → Prog S E Int)

def run : List O → Prog S E Int
  | [] => return 0
  | o :: os => do
    let rc ← op o
    if rc ≠ 0 then return rc else run os

def runAll : List O → Prog S E (List Int)
  | [] => return []
  | o :: os => do
    let rc ← op o
    let rcs ← runAll os
    return rc :: rcs

theorem run_map {A : Type} (f : A → O) (as : List A) :
    run op (as.map f) = run (fun a => op (f a)) as := by
  induction as with
  | nil => rfl
  | cons a as ih =>
    rw [List.map_cons]
    unfold run
    rw [ih]

variable {op} {s s' : S} {o : O} {os : List O}

theorem exec_run_error (h : (op o).exec s = (.error e, s')) :
    (run op (o :: os)).exec s = (.error e, s') := Prog.exec_bind_error h

theorem exec_run_stop (h : (op o).exec s = (.ok rc, s')) (hrc : rc ≠ 0) :
    (run op (o :: os)).exec s = (.ok rc, s') := by
  refine (Prog.exec_bind_ok h).trans ?_
  rw [if_pos hrc]
  rfl

theorem exec_run_next (h : (op o).exec s = (.ok 0, s')) :
    (run op (o :: os)).exec s = (run op os).exec s' := by
  refine (Prog.exec_bind_ok h).trans ?_
  rw [if_neg (fun h => h rfl)]

theorem exec_run_ok (h : (run op (o :: os)).exec s = (.ok 0, s')) :
    ∃ s₁, (op o).exec s = (.ok 0, s₁) ∧ (run op os).exec s₁ = (.ok 0, s') := by
  cases hex : (op o).exec s with
  | mk r s₁ =>
    cases r with
    | error e => cases (exec_run_error hex).symm.trans h
    | ok rc =>
      by_cases hrc : rc = 0
      · subst hrc
        exact ⟨s₁, rfl, (exec_run_next hex).symm.trans h⟩
      · have heq := (exec_run_stop hex hrc).symm.trans h
        exact absurd (Except.ok.inj (Prod.mk.inj heq).1) hrc

theorem exec_runAll_error (h : (op o).exec s = (.error e, s')) :
    (runAll op (o :: os)).exec s = (.error e, s') := Prog.exec_bind_error h

theorem exec_runAll_ok (h : (op o).exec s = (.ok rc, s₁))
    (h' : (runAll op os).exec s₁ = (.ok rcs, s')) :
    (runAll op (o :: os)).exec s = (.ok (rc :: rcs), s') := by
  refine (Prog.exec_bind_ok h).trans ?_
  rw [Prog.exec_bind_ok h']
  rfl

theorem exec_runAll_rest_error (h : (op o).exec s = (.ok rc, s₁))
    (h' : (runAll op os).exec s₁ = (.error e, s')) :
    (runAll op (o :: os)).exec s = (.error e, s') := by
  refine (Prog.exec_bind_ok h).trans ?_
  rw [Prog.exec_bind_error h']

theorem exec_runAll_inv (h : (runAll op (o :: os)).exec s = (.ok rcs, s')) :
    ∃ rc rcs' s₁, rcs = rc :: rcs' ∧ (op o).exec s = (.ok rc, s₁) ∧
      (runAll op os).exec s₁ = (.ok rcs', s') := by
  cases hex : (op o).exec s with
  | mk r s₁ =>
    cases r with
    | error e => cases (exec_runAll_error hex).symm.trans h
    | ok rc =>
      cases hex' : (runAll op os).exec s₁ with
      | mk r' s₂ =>
        cases r' with
        | error e => cases (exec_runAll_rest_error hex hex').symm.trans h
        | ok rcs' =>
          cases (exec_runAll_ok hex hex').symm.trans h
          exact ⟨rc, rcs', s₁, rfl, rfl, hex'⟩

variable (op) (G : S → O → Prop)

/-- Every operation `run` executes meets the guard. -/
def Guarded : List O → S → Prop
  | [], _ => True
  | o :: os, s => G s o ∧ ∀ s', (op o).exec s = (.ok 0, s') → Guarded os s'

def GuardedAll : List O → S → Prop
  | [], _ => True
  | o :: os, s => G s o ∧ ∀ rc s', (op o).exec s = (.ok rc, s') → GuardedAll os s'

theorem guarded_map {A : Type} (f : A → O) (as : List A) (s : S) :
    Guarded op G (as.map f) s ↔ Guarded (fun a => op (f a)) (fun s a => G s (f a)) as s := by
  induction as generalizing s with
  | nil => rfl
  | cons a as ih =>
    rw [List.map_cons]
    unfold Guarded
    simp only [ih]

def Outcome {α : Type} (I : S → Prop) (F : E → S → Prop) : Except E α × S → Prop
  | (.ok _, s) => I s
  | (.error e, s) => F e s

variable {op G} {I : S → Prop} {F : E → S → Prop}

theorem Guarded.of_forall (h : ∀ o ∈ os, ∀ s, G s o) (s : S) : Guarded op G os s := by
  induction os generalizing s with
  | nil => trivial
  | cons o os ih =>
    refine ⟨h o List.mem_cons_self s, fun s' _ => ?_⟩
    exact ih (fun o' ho' => h o' (List.mem_cons_of_mem _ ho')) s'

theorem GuardedAll.of_forall (h : ∀ o ∈ os, ∀ s, G s o) (s : S) : GuardedAll op G os s := by
  induction os generalizing s with
  | nil => trivial
  | cons o os ih =>
    refine ⟨h o List.mem_cons_self s, fun _ s' _ => ?_⟩
    exact ih (fun o' ho' => h o' (List.mem_cons_of_mem _ ho')) s'

theorem Guarded.of_invariant (hs : I s) (h : ∀ o ∈ os, ∀ s, I s →
    G s o ∧ ∀ s', (op o).exec s = (.ok 0, s') → I s') : Guarded op G os s := by
  induction os generalizing s with
  | nil => trivial
  | cons o os ih =>
    obtain ⟨hg, hstep⟩ := h o List.mem_cons_self s hs
    refine ⟨hg, fun s' hex => ?_⟩
    exact ih (hstep s' hex) (fun o' ho' => h o' (List.mem_cons_of_mem _ ho'))

def Succeeds (op : O → Prog S E Int) (s : S) (o : O) : Prop := ∃ s', (op o).exec s = (.ok 0, s')

theorem exec_run_succeeds (h : Guarded op (Succeeds op) os s) :
    ∃ s', (run op os).exec s = (.ok 0, s') := by
  induction os generalizing s with
  | nil => exact ⟨s, rfl⟩
  | cons o os ih =>
    obtain ⟨⟨s₁, hex⟩, hrest⟩ := h
    obtain ⟨s', hrun⟩ := ih (hrest s₁ hex)
    exact ⟨s', (exec_run_next hex).trans hrun⟩

theorem guardedAll_congr {G' H : S → O → Prop} (hiff : ∀ s o, I s → H s o → (G s o ↔ G' s o))
    (hstep : ∀ s o rc s', I s → H s o → G s o → (op o).exec s = (.ok rc, s') → I s') (hs : I s)
    (hH : GuardedAll op H os s) : GuardedAll op G os s ↔ GuardedAll op G' os s := by
  induction os generalizing s with
  | nil => exact Iff.rfl
  | cons o os ih =>
    obtain ⟨hh, hH⟩ := hH
    constructor
    · rintro ⟨hg, hrest⟩
      exact ⟨(hiff s o hs hh).mp hg, fun rc s' hex =>
        (ih (hstep s o rc s' hs hh hg hex) (hH rc s' hex)).mp (hrest rc s' hex)⟩
    · rintro ⟨hg, hrest⟩
      have hg' := (hiff s o hs hh).mpr hg
      exact ⟨hg', fun rc s' hex =>
        (ih (hstep s o rc s' hs hh hg' hex) (hH rc s' hex)).mpr (hrest rc s' hex)⟩

theorem run_rule (hstep : ∀ s o, I s → G s o → Outcome I F ((op o).exec s))
    (hs : I s) (hg : Guarded op G os s) : Outcome I F ((run op os).exec s) := by
  induction os generalizing s with
  | nil => exact hs
  | cons o os ih =>
    have hout := hstep s o hs hg.1
    cases hex : (op o).exec s with
    | mk r s₁ =>
      rw [hex] at hout
      cases r with
      | error e =>
        rw [exec_run_error hex]
        exact hout
      | ok rc =>
        by_cases hrc : rc = 0
        · subst hrc
          rw [exec_run_next hex]
          exact ih hout (hg.2 s₁ hex)
        · rw [exec_run_stop hex hrc]
          exact hout

theorem runAll_rule (hstep : ∀ s o, I s → G s o → Outcome I F ((op o).exec s))
    (hs : I s) (hg : GuardedAll op G os s) : Outcome I F ((runAll op os).exec s) := by
  induction os generalizing s with
  | nil => exact hs
  | cons o os ih =>
    have hout := hstep s o hs hg.1
    cases hex : (op o).exec s with
    | mk r s₁ =>
      rw [hex] at hout
      cases r with
      | error e =>
        rw [exec_runAll_error hex]
        exact hout
      | ok rc =>
        have hrest := ih hout (hg.2 rc s₁ hex)
        cases hex' : (runAll op os).exec s₁ with
        | mk r₂ s₂ =>
          rw [hex'] at hrest
          cases r₂ with
          | error e =>
            rw [exec_runAll_rest_error hex hex']
            exact hrest
          | ok rcs =>
            rw [exec_runAll_ok hex hex']
            exact hrest

theorem runAll_invariant (hs : I s) (hg : GuardedAll op G os s)
    (h : (runAll op os).exec s = (.ok rcs, s'))
    (hstep : ∀ s o rc s', I s → G s o → (op o).exec s = (.ok rc, s') → I s') : I s' := by
  induction os generalizing s rcs with
  | nil =>
    cases h
    exact hs
  | cons o os ih =>
    obtain ⟨rc, rcs', s₁, -, hex, hrest⟩ := exec_runAll_inv h
    exact ih (hstep s o rc s₁ hs hg.1 hex) (hg.2 rc s₁ hex) hrest

section Refinement

variable {A : Type} (next : A → O → A) (L : A → O → Prop)

/-- Every operation meets the guard in the abstract state that the ones before it lead to. -/
def LegalRun : List O → A → Prop
  | [], _ => True
  | o :: os, a => L a o ∧ LegalRun os (next a o)

variable {next L}

theorem runAll_refines {X : E → Prop} {R : S → A → Prop}
    (hstep : ∀ s a o, R s a → L a o → (∃ e s', (op o).exec s = (.error e, s') ∧ X e) ∨
      ∃ s', (op o).exec s = (.ok 0, s') ∧ R s' (next a o))
    (hs : R s a) (hl : LegalRun next L os a) :
    (∃ e s', (runAll op os).exec s = (.error e, s') ∧ X e) ∨
      ∃ s', (runAll op os).exec s = (.ok (os.map fun _ => 0), s') ∧ R s' (os.foldl next a) := by
  induction os generalizing s a with
  | nil => exact Or.inr ⟨s, rfl, hs⟩
  | cons o os ih =>
    rcases hstep s a o hs hl.1 with ⟨e, s₁, hex, he⟩ | ⟨s₁, hex, hs₁⟩
    · exact Or.inl ⟨e, s₁, exec_runAll_error hex, he⟩
    rcases ih hs₁ hl.2 with ⟨e, s₂, hrest, he⟩ | ⟨s₂, hrest, hs₂⟩
    · exact Or.inl ⟨e, s₂, exec_runAll_rest_error hex hrest, he⟩
    · exact Or.inr ⟨s₂, exec_runAll_ok hex hrest, hs₂⟩

end Refinement

end Abydos.Lib.Script
