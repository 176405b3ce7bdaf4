import Mathlib.Logic.Basic

/-! Sequential programs over a state that may trap.  A trap keeps the state it was raised in, so
that what a program did before it is still visible. -/

namespace Abydos.Lib

abbrev Prog (S E : Type) := ExceptT E (StateM S)

namespace Prog

variable {S E : Type} {α β : Type}

def exec (x : Prog S E α) (s : S) : Except E α × S := StateT.run (ExceptT.run x) s

@[simp] theorem exec_get (s : S) : exec (get : Prog S E S) s = (.ok s, s) := rfl

@[simp] theorem exec_modify (f : S → S) (s : S) :
    exec (modify f : Prog S E PUnit) s = (.ok ⟨⟩, f s) := rfl

theorem exec_bind (x : Prog S E α) (f : α → Prog S E β) (s : S) :
    exec (x >>= f) s = match exec x s with
      | (.ok a, s') => exec (f a) s'
      | (.error e, s') => (.error e, s') := by
  change (match (ExceptT.run x) s with | (a, s') => ExceptT.bindCont f a s') = _
  simp only [exec, StateT.run]
  cases h : (ExceptT.run x) s with
  | mk r s' => cases r <;> rfl

theorem exec_bind_ok {x : Prog S E α} {f : α → Prog S E β} (h : exec x s = (.ok a, s')) :
    exec (x >>= f) s = exec (f a) s' := by
  rw [exec_bind, h]

theorem exec_bind_error {x : Prog S E α} {f : α → Prog S E β} (h : exec x s = (.error e, s')) :
    exec (x >>= f) s = (.error e, s') := by
  rw [exec_bind, h]

theorem exec_bind_congr {x y : Prog S E α} {f : α → Prog S E β} (h : exec x s = exec y s) :
    exec (x >>= f) s = exec (y >>= f) s := by
  rw [exec_bind, exec_bind, h]

theorem exec_ite (c : Prop) [Decidable c] (x y : Prog S E α) (s : S) :
    exec (if c then x else y) s = if c then exec x s else exec y s := by
  split <;> rfl

def zoom (part : S → T) (put : S → T → S) (x : Prog T E α) : Prog S E α :=
  ExceptT.mk fun s => ((exec x (part s)).1, put s (exec x (part s)).2)

theorem exec_zoom_ok {part : S → T} {put : S → T → S} {x : Prog T E α}
    (h : exec (zoom part put x) s = (.ok a, s')) :
    ∃ t, exec x (part s) = (.ok a, t) ∧ s' = put s t := by
  obtain ⟨hr, hs⟩ := Prod.mk.inj h
  exact ⟨(exec x (part s)).2, Prod.ext hr rfl, hs.symm⟩

end Prog

end Abydos.Lib
