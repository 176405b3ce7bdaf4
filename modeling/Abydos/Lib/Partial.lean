import Mathlib.Logic.Basic

namespace Abydos.Lib

variable {α β : Type} {x y : Option α} {f : α → Option β} {P Q : α → Prop} {R : β → Prop}

/-- The computation gives a value, and `Q` holds of it. -/
def Returns (x : Option α) (Q : α → Prop) : Prop := ∃ a, x = some a ∧ Q a

namespace Returns

theorem pure {a : α} (h : Q a) : Returns (some a) Q := ⟨a, rfl, h⟩

theorem of_eq {a : α} (hx : x = some a) (h : Q a) : Returns x Q := ⟨a, hx, h⟩

theorem bind (hx : Returns x P) (hf : ∀ a, x = some a → P a → Returns (f a) R) :
    Returns (x >>= f) R := by
  obtain ⟨a, rfl, ha⟩ := hx
  exact hf a rfl ha

theorem ite {c : Prop} [Decidable c] (ht : c → Returns x Q) (he : ¬ c → Returns y Q) :
    Returns (if c then x else y) Q := by
  split
  · exact ht ‹c›
  · exact he ‹¬ c›

theorem mono (hx : Returns x P) (h : ∀ a, P a → Q a) : Returns x Q := by
  obtain ⟨a, ha, hP⟩ := hx
  exact ⟨a, ha, h a hP⟩

theorem isSome (hx : Returns x P) : x.isSome := by
  obtain ⟨a, rfl, -⟩ := hx
  rfl

end Returns

end Abydos.Lib
