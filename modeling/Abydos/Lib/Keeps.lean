import Abydos.Lib.Program

namespace Abydos.Lib.Prog

variable {S E α β : Type}

/-- Wherever the program stops, the state is related to the one it started in. -/
def Keeps (T : S → S → Prop) (x : Prog S E α) : Prop := ∀ s, T s (x.exec s).2

variable {T : S → S → Prop}

theorem Keeps.pure (hrefl : ∀ s, T s s) (a : α) : Keeps T (Pure.pure a : Prog S E α) := hrefl

theorem Keeps.throw (hrefl : ∀ s, T s s) (e : E) : Keeps T (MonadExcept.throw e : Prog S E α) :=
  hrefl

theorem Keeps.get (hrefl : ∀ s, T s s) : Keeps T (MonadState.get : Prog S E S) := hrefl

theorem Keeps.bind (htrans : ∀ s₁ s₂ s₃, T s₁ s₂ → T s₂ s₃ → T s₁ s₃) {x : Prog S E α}
    {f : α → Prog S E β} (hx : Keeps T x) (hf : ∀ a, Keeps T (f a)) : Keeps T (x >>= f) := by
  intro s
  have hs := hx s
  rw [exec_bind]
  cases hex : x.exec s with
  | mk r s' =>
    rw [hex] at hs
    cases r with
    | ok a => exact htrans _ _ _ hs (hf a s')
    | error e => exact hs

theorem Keeps.ite {c : Prop} [Decidable c] {x y : Prog S E α} (hx : Keeps T x) (hy : Keeps T y) :
    Keeps T (if c then x else y) := by
  split
  · exact hx
  · exact hy

theorem Keeps.of_exec {x : Prog S E α} (h : Keeps T x) (hex : x.exec s = (r, s')) : T s s' := by
  have hs := h s
  rwa [hex] at hs

end Abydos.Lib.Prog
