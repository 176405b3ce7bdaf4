import Abydos.Defs
import Abydos.Lib.Interleave

namespace Abydos.Lock

open Abydos.Lib.Interleave

abbrev Ptr := BitVec 64

structure Reents (H : Type) where
  reent : H → Ptr
  injective : Function.Injective reent
  ne_null : ∀ h, reent h ≠ 0

namespace Malloc

inductive Pc
  | idle
  | test
  | exchange (tmp : Ptr)
  | clear
  deriving DecidableEq, Repr

structure Local where
  pc : Pc
  depth : Nat
  deriving DecidableEq, Repr

inductive Event
  | lock
  | unlock
  | access (spurious : Bool)
  deriving DecidableEq, Repr

def step (k_stage : Stage) (reent : Ptr) (e : Event) (l : Local) (k_malloc_lock : Ptr) :
    Option (Local × Ptr) :=
  match e, l.pc with
  | .lock, .idle =>
    if k_stage ≠ .K_MULTICORE then some ({ l with depth := l.depth + 1 }, k_malloc_lock)
    else some ({ l with pc := .test }, k_malloc_lock)
  | .access _, .test =>
    if k_malloc_lock = reent then some (⟨.idle, l.depth + 1⟩, k_malloc_lock)
    else some ({ l with pc := .exchange 0 }, k_malloc_lock)
  | .access spurious, .exchange tmp =>
    -- the loop goes on after an exchange that succeeds, and ends with one that fails
    if k_malloc_lock = tmp ∧ spurious = false then some ({ l with pc := .exchange 0 }, reent)
    else some (⟨.idle, l.depth + 1⟩, k_malloc_lock)
  | .unlock, .idle =>
    if l.depth = 0 then none
    else if k_stage ≠ .K_MULTICORE then some ({ l with depth := l.depth - 1 }, k_malloc_lock)
    else some (⟨.clear, l.depth - 1⟩, k_malloc_lock)
  | .access _, .clear => some ({ l with pc := .idle }, 0)
  | _, _ => none

def harts (k_stage : Stage) (R : Reents H) : Threads H Event Local Ptr where
  step h := step k_stage (R.reent h)

def init (H : Type) : Config H Local Ptr := ⟨fun _ => ⟨.idle, 0⟩, 0⟩

def Inside (l : Local) : Prop := 1 ≤ l.depth

instance (l : Local) : Decidable (Inside l) := inferInstanceAs (Decidable (1 ≤ l.depth))

/-- No lock is nested in another one, and an exchange that does not find the hart's own pointer
finds the lock free and does not fail. -/
def Uncontended (reent : Ptr) (e : Event) (l : Local) (k_malloc_lock : Ptr) : Prop :=
  match e, l.pc with
  | .unlock, _ => l.depth ≤ 1
  | .access spurious, .exchange _ =>
    k_malloc_lock = reent ∨ (k_malloc_lock = 0 ∧ spurious = false)
  | _, _ => True

structure Owned (reent : Ptr) (l : Local) (k_malloc_lock : Ptr) : Prop where
  own : 1 ≤ l.depth ∨ l.pc = .clear → k_malloc_lock = reent
  tmp : ∀ tmp, l.pc = .exchange tmp → tmp = 0
  cleared : l.pc = .clear → l.depth = 0

variable {H : Type} {R : Reents H}

theorem Owned.idle (hd : 1 ≤ d → w = r) : Owned r ⟨.idle, d⟩ w :=
  ⟨fun h => h.elim hd (fun h => by cases h), fun _ h => (by cases h), fun h => by cases h⟩

theorem Owned.exchange (hd : 1 ≤ d → w = r) : Owned r ⟨.exchange 0, d⟩ w :=
  ⟨fun h => h.elim hd (fun h => by cases h), fun _ h => (by cases h; rfl), fun h => by cases h⟩

inductive Effect (reent : Ptr) (l : Local) : Ptr → Ptr → Prop
  | keep {w : Ptr} : Effect reent l w w
  | take : Effect reent l 0 reent
  | free : Effect reent l reent 0

theorem Owned.step {l l' : Local} (hA : Owned r l w) (hG : Uncontended r e l w)
    (hs : Malloc.step .K_MULTICORE r e l w = some (l', w')) :
    Owned r l' w' ∧ Effect r l w w' := by
  obtain ⟨pc, d⟩ := l
  unfold Malloc.step at hs
  cases e with
  | lock =>
    cases pc with
    | idle =>
      cases hs
      refine ⟨⟨?_, fun _ h => (by cases h), fun h => by cases h⟩, .keep⟩
      rintro (h | h)
      · exact hA.own (Or.inl h)
      · cases h
    | test => cases hs
    | exchange tmp => cases hs
    | clear => cases hs
  | unlock =>
    cases pc with
    | idle =>
      have hd : d ≤ 1 := hG
      by_cases h0 : d = 0
      · simp [h0] at hs
      · simp only [h0, if_false, ne_eq, not_true_eq_false, Option.some.injEq, Prod.mk.injEq] at hs
        obtain ⟨rfl, rfl⟩ := hs
        have hd1 : d = 1 := by omega
        refine ⟨⟨fun _ => hA.own (Or.inl (Nat.pos_of_ne_zero h0)), fun _ h => (by cases h),
            fun _ => ?_⟩,
          .keep⟩
        rw [hd1]
    | test => cases hs
    | exchange tmp => cases hs
    | clear => cases hs
  | access spurious =>
    cases pc with
    | idle => cases hs
    | test =>
      simp only at hs
      split at hs
      · next h =>
        cases hs
        exact ⟨.idle fun _ => h, .keep⟩
      · cases hs
        exact ⟨.exchange fun h => hA.own (Or.inl h), .keep⟩
    | exchange tmp =>
      have ht := hA.tmp tmp rfl
      simp only at hs
      split at hs
      · next h =>
        cases hs
        obtain ⟨rfl, -⟩ := h
        subst ht
        exact ⟨.exchange fun _ => rfl, .take⟩
      · next h =>
        cases hs
        refine ⟨.idle fun _ => ?_, .keep⟩
        rcases hG with hG | ⟨hG, hsp⟩
        · exact hG
        · exact absurd ⟨hG.trans ht.symm, hsp⟩ h
    | clear =>
      cases hs
      have hw := hA.own (Or.inr rfl)
      have hd := hA.cleared rfl
      refine ⟨.idle fun h => ?_, hw ▸ .free⟩
      rw [hd] at h
      cases h

theorem Owned.other (hA : Owned r' l' w) (hne : r ≠ r') (hnull : r' ≠ 0) (he : Effect r l w w') :
    Owned r' l' w' := by
  refine ⟨fun h => ?_, hA.tmp, hA.cleared⟩
  have hw := hA.own h
  cases he with
  | keep => exact hw
  | take => exact absurd hw.symm hnull
  | free => exact absurd hw hne

theorem owned_of_reaches [DecidableEq H]
    (hr : (harts .K_MULTICORE R).Reaches (fun h => Uncontended (R.reent h)) (init H) c) (h : H) :
    Owned (R.reent h) (c.loc h) c.mem := by
  refine Threads.Reaches.invariant (A := fun h => Owned (R.reent h)) ?_ ?_ hr h
  · intro c hA h e l w hG hs
    obtain ⟨hown, heff⟩ := (hA h).step hG hs
    refine ⟨hown, fun k hk => (hA k).other ?_ (R.ne_null k) heff⟩
    exact fun heq => hk (R.injective heq).symm
  · intro k
    exact .idle fun h => by cases h

theorem malloc_lock_exclusive [DecidableEq H]
    (hr : (harts .K_MULTICORE R).Reaches (fun h => Uncontended (R.reent h)) (init H) c)
    (h1 : Inside (c.loc h)) (h2 : Inside (c.loc h')) : h = h' := by
  have hw := (owned_of_reaches hr h).own (Or.inl h1)
  have hw' := (owned_of_reaches hr h').own (Or.inl h2)
  exact R.injective (hw.symm.trans hw')

def twoReents : Reents Bool where
  reent h := if h then 0x2000 else 0x1000
  injective h h' heq := by
    revert h h'
    decide
  ne_null := by decide

theorem malloc_lock_exclusive_alone :
    ∃ c, (harts .K_MULTICORE twoReents).run
        [(false, .lock), (false, .access false), (false, .access false), (false, .access false)]
        (init Bool) = some c ∧ Inside (c.loc false) ∧ ¬ Inside (c.loc true) := by
  refine ⟨_, rfl, by decide, fun hin => ?_⟩
  suffices h : true = false by cases h
  refine malloc_lock_exclusive (R := twoReents) ?_ hin (show Inside (Config.loc _ false) by decide)
  refine (((Threads.ReachesWhen.refl.step (h := false) (e := .lock) ?_ rfl).step (h := false)
    (e := .access false) ?_ rfl).step (h := false) (e := .access false) ?_ rfl).step (h := false)
    (e := .access false) ?_ rfl
  · trivial
  · trivial
  · exact Or.inr (by decide)
  · exact Or.inl (by decide)

/-- The second hart's exchange fails because the first one has the lock, and it goes on as if it
had got it.  No exchange fails spuriously. -/
theorem malloc_lock_shared :
    ∃ c, (harts .K_MULTICORE twoReents).run
        [(false, .lock), (false, .access false), (false, .access false), (false, .access false),
          (true, .lock), (true, .access false), (true, .access false)] (init Bool) = some c ∧
      Inside (c.loc false) ∧ Inside (c.loc true) :=
  ⟨_, rfl, by decide, by decide⟩

end Malloc

end Abydos.Lock
