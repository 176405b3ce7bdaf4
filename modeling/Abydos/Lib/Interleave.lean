import Mathlib.Logic.Function.Basic

namespace Abydos.Lib.Interleave

/-- What event `e` of thread `h` does to its own state and to the memory, if it can happen. -/
structure Threads (H E L M : Type) where
  step : H → E → L → M → Option (L × M)

structure Config (H L M : Type) where
  loc : H → L
  mem : M

variable {H E L M : Type} [DecidableEq H]

def Threads.next (T : Threads H E L M) (c : Config H L M) (h : H) (e : E) :
    Option (Config H L M) :=
  (T.step h e (c.loc h) c.mem).map fun s => ⟨Function.update c.loc h s.1, s.2⟩

def Threads.run (T : Threads H E L M) : List (H × E) → Config H L M → Option (Config H L M)
  | [], c => some c
  | (h, e) :: es, c => (T.next c h e).bind (T.run es)

/-- The states of the runs from `c₀` in which every step meets the guard. -/
inductive Threads.ReachesWhen (T : Threads H E L M) (G : Config H L M → H → E → Prop)
    (c₀ : Config H L M) : Config H L M → Prop
  | refl : T.ReachesWhen G c₀ c₀
  | step {c c' : Config H L M} {h : H} {e : E} : T.ReachesWhen G c₀ c → G c h e →
      T.next c h e = some c' → T.ReachesWhen G c₀ c'

/-- The guard looks at the memory and at the thread that moves. -/
abbrev Threads.Reaches (T : Threads H E L M) (G : H → E → L → M → Prop) :
    Config H L M → Config H L M → Prop :=
  T.ReachesWhen fun c h e => G h e (c.loc h) c.mem

variable {T : Threads H E L M} {c c₀ c' : Config H L M}

theorem Threads.next_eq_some : T.next c h e = some c' ↔
    ∃ l m, T.step h e (c.loc h) c.mem = some (l, m) ∧ c' = ⟨Function.update c.loc h l, m⟩ := by
  unfold Threads.next
  rw [Option.map_eq_some_iff]
  constructor
  · rintro ⟨⟨l, m⟩, hs, rfl⟩
    exact ⟨l, m, hs, rfl⟩
  · rintro ⟨l, m, hs, rfl⟩
    exact ⟨(l, m), hs, rfl⟩

section Guarded

variable {G : Config H L M → H → E → Prop}

theorem Threads.ReachesWhen.run (hr : T.ReachesWhen G c₀ c) (hG : ∀ p ∈ es, ∀ c, G c p.1 p.2)
    (hrun : T.run es c = some c') : T.ReachesWhen G c₀ c' := by
  induction es generalizing c with
  | nil =>
    cases hrun
    exact hr
  | cons p es ih =>
    obtain ⟨c₁, hs, hrest⟩ := Option.bind_eq_some_iff.mp hrun
    refine ih (hr.step (hG p List.mem_cons_self c) hs) (fun q hq => ?_) hrest
    exact hG q (List.mem_cons_of_mem _ hq)

theorem Threads.ReachesWhen.invariant {A : Config H L M → Prop}
    (hstep : ∀ c h e l m, A c → G c h e → T.step h e (c.loc h) c.mem = some (l, m) →
      A ⟨Function.update c.loc h l, m⟩)
    (hinit : A c₀) (hr : T.ReachesWhen G c₀ c) : A c := by
  induction hr with
  | refl => exact hinit
  | @step c c' h e _ hg hs ih =>
    obtain ⟨l, m, hs₁, rfl⟩ := Threads.next_eq_some.mp hs
    exact hstep c h e l m ih hg hs₁

end Guarded

section Local

variable {G : H → E → L → M → Prop}

def Threads.guardedRun (T : Threads H E L M) (G : H → E → L → M → Prop)
    [∀ h e l m, Decidable (G h e l m)] : List (H × E) → Config H L M → Option (Config H L M)
  | [], c => some c
  | (h, e) :: es, c =>
    if G h e (c.loc h) c.mem then (T.next c h e).bind (T.guardedRun G es) else none

theorem Threads.Reaches.guardedRun [∀ h e l m, Decidable (G h e l m)] (hr : T.Reaches G c₀ c)
    (hrun : T.guardedRun G es c = some c') : T.Reaches G c₀ c' := by
  induction es generalizing c with
  | nil =>
    cases hrun
    exact hr
  | cons p es ih =>
    unfold Threads.guardedRun at hrun
    split at hrun
    · next hg =>
      obtain ⟨c₁, hs, hrest⟩ := Option.bind_eq_some_iff.mp hrun
      exact ih (hr.step hg hs) hrest
    · cases hrun

theorem Threads.Reaches.invariant {A : H → L → M → Prop}
    (hstep : ∀ c : Config H L M, (∀ k, A k (c.loc k) c.mem) → ∀ h e l m, G h e (c.loc h) c.mem →
      T.step h e (c.loc h) c.mem = some (l, m) → A h l m ∧ ∀ k, k ≠ h → A k (c.loc k) m)
    (hinit : ∀ k, A k (c₀.loc k) c₀.mem) (hr : T.Reaches G c₀ c) : ∀ k, A k (c.loc k) c.mem := by
  refine Threads.ReachesWhen.invariant (A := fun c => ∀ k, A k (c.loc k) c.mem) ?_ hinit hr
  intro c h e l m ih hg hs k
  obtain ⟨hown, hother⟩ := hstep c ih h e l m hg hs
  change A k (Function.update c.loc h l k) m
  by_cases hk : k = h
  · rw [hk, Function.update_self]
    exact hown
  · rw [Function.update_of_ne hk]
    exact hother k hk

end Local

/-- A thread that can move as long as it has not reached `Q`, and has less to go after each of its
steps, gets there on its own. -/
theorem Threads.run_to_goal {P Q : Config H L M → Prop} (k : H) (togo : L → Nat)
    (hstep : ∀ c, P c → ¬ Q c → ∃ e l m, T.step k e (c.loc k) c.mem = some (l, m) ∧
      P ⟨Function.update c.loc k l, m⟩ ∧ togo l < togo (c.loc k)) (hc : P c) :
    ∃ es c', (∀ e ∈ es, e.1 = k) ∧ T.run es c = some c' ∧ Q c' := by
  induction hn : togo (c.loc k) using Nat.strongRecOn generalizing c with
  | _ n ih =>
    by_cases hdone : Q c
    · exact ⟨[], c, fun _ he => absurd he List.not_mem_nil, rfl, hdone⟩
    obtain ⟨e, l, m, hs, hP, hlt⟩ := hstep c hc hdone
    obtain ⟨es, c', hes, hrun, hQ⟩ := ih (togo l) (hn ▸ hlt) hP (by simp)
    refine ⟨(k, e) :: es, c', List.forall_mem_cons.mpr ⟨rfl, hes⟩, ?_, hQ⟩
    have hnext : T.next c k e = some ⟨Function.update c.loc k l, m⟩ :=
      Threads.next_eq_some.mpr ⟨l, m, hs, rfl⟩
    unfold Threads.run
    rw [hnext]
    exact hrun

end Abydos.Lib.Interleave
