import Mathlib.Logic.Basic

namespace Abydos.Lib

variable {P : Type} {start len : P → Nat}

/-- The pieces cover `[a, b)` one after the other. -/
inductive Tiles (start len : P → Nat) : Nat → Nat → List P → Prop
  | nil : Tiles start len a a []
  | cons : Tiles start len (start x + len x) b xs → Tiles start len (start x) b (x :: xs)

namespace Tiles

theorem le (h : Tiles start len a b xs) : a ≤ b := by
  induction h with
  | nil => exact Nat.le_refl _
  | cons _ ih => exact Nat.le_trans (Nat.le_add_right _ _) ih

theorem mem_iff (h : Tiles start len a b xs) :
    (a ≤ y ∧ y < b) ↔ ∃ x ∈ xs, start x ≤ y ∧ y < start x + len x := by
  induction h with
  | nil => simp
  | @cons x b xs h ih =>
    simp only [List.mem_cons, exists_eq_or_imp, ← ih]
    have := h.le
    omega

theorem start_ge (h : Tiles start len a b xs) (hx : x ∈ xs) : a ≤ start x := by
  induction h with
  | nil => cases hx
  | cons _ ih =>
    rcases List.mem_cons.mp hx with rfl | hx
    · exact Nat.le_refl _
    · exact Nat.le_trans (Nat.le_add_right _ _) (ih hx)

theorem end_le (h : Tiles start len a b xs) (hx : x ∈ xs) : start x + len x ≤ b := by
  induction h with
  | nil => cases hx
  | cons h ih =>
    rcases List.mem_cons.mp hx with rfl | hx
    · exact h.le
    · exact ih hx

theorem eq_of_mem (h : Tiles start len a b xs) (hx : x ∈ xs) (hy : y ∈ xs)
    (hzx : start x ≤ z ∧ z < start x + len x) (hzy : start y ≤ z ∧ z < start y + len y) :
    x = y := by
  induction h with
  | nil => cases hx
  | cons h ih =>
    rcases List.mem_cons.mp hx with hx | hx <;> rcases List.mem_cons.mp hy with hy | hy
    · exact hx.trans hy.symm
    · have := h.start_ge hy
      subst hx
      omega
    · have := h.start_ge hx
      subst hy
      omega
    · exact ih hx hy

end Tiles

theorem aligned_nested {p q a b z : Nat} (hpq : p ∣ q) (ha : p ∣ a) (hb : q ∣ b) (hza : a ≤ z ∧ z < a + p)
    (hzb : b ≤ z ∧ z < b + q) : b ≤ a ∧ a + p ≤ b + q := by
  obtain ⟨u, rfl⟩ := ha
  obtain ⟨v, rfl⟩ := Nat.dvd_trans hpq hb
  obtain ⟨w, rfl⟩ := hpq
  have hvu : v < u + 1 := by
    apply Nat.lt_of_mul_lt_mul_left (a := p)
    rw [Nat.mul_succ]
    omega
  have huv : u < v + w := by
    apply Nat.lt_of_mul_lt_mul_left (a := p)
    rw [Nat.mul_add]
    omega
  refine ⟨Nat.mul_le_mul_left p (Nat.le_of_lt_succ hvu), ?_⟩
  rw [← Nat.mul_succ, ← Nat.mul_add]
  exact Nat.mul_le_mul_left p huv

section Greedy

variable {Q : Type} {start' len' : Q → Nat} {xs : List P} {ys : List Q} {a b : Nat}
  (hx : Tiles start len a b xs) (hy : Tiles start' len' a b ys)
  (hxa : ∀ x ∈ xs, len x ∣ start x) (hya : ∀ y ∈ ys, len' y ∣ start' y)
  (hcmp : ∀ x ∈ xs, ∀ y ∈ ys, len x ∣ len' y ∨ len' y ∣ len x)
  (hgreedy : ∀ x ∈ xs, ∀ y ∈ ys, start x = start' y → len x ≤ len' y)

include hx hy hxa hya hcmp hgreedy

theorem Tiles.inside_of_meet {x : P} {y : Q} (hxm : x ∈ xs) (hym : y ∈ ys)
    (hzx : start x ≤ z ∧ z < start x + len x) (hzy : start' y ≤ z ∧ z < start' y + len' y) :
    start' y ≤ start x ∧ start x + len x ≤ start' y + len' y := by
  rcases hcmp x hxm y hym with hd | hd
  · exact aligned_nested hd (hxa x hxm) (hya y hym) hzx hzy
  -- the piece of the second tiling in which `x` begins goes at least as far as `x`
  have hstart : a ≤ start x ∧ start x < b := ⟨hx.start_ge hxm, by have := hx.end_le hxm; omega⟩
  obtain ⟨y₀, hy₀, hs₀⟩ := hy.mem_iff.mp hstart
  have hmeet : start x ≤ start x ∧ start x < start x + len x := by omega
  have hin : start' y₀ ≤ start x ∧ start x + len x ≤ start' y₀ + len' y₀ := by
    rcases hcmp x hxm y₀ hy₀ with hd₀ | hd₀
    · exact aligned_nested hd₀ (hxa x hxm) (hya y₀ hy₀) hmeet hs₀
    · have hle := (aligned_nested hd₀ (hya y₀ hy₀) (hxa x hxm) hs₀ hmeet).1
      have := hgreedy x hxm y₀ hy₀ (by omega)
      omega
  rw [hy.eq_of_mem hym hy₀ hzy (by omega)]
  exact hin

theorem Tiles.union_of_greedy {y : Q} (hym : y ∈ ys) (z : Nat) :
    (start' y ≤ z ∧ z < start' y + len' y) ↔
      ∃ x ∈ xs, (start' y ≤ start x ∧ start x + len x ≤ start' y + len' y) ∧
        start x ≤ z ∧ z < start x + len x := by
  constructor
  · intro hz
    have hrange : a ≤ z ∧ z < b := by
      have := hy.start_ge hym
      have := hy.end_le hym
      omega
    obtain ⟨x, hxm, hzx⟩ := hx.mem_iff.mp hrange
    exact ⟨x, hxm, hx.inside_of_meet hy hxa hya hcmp hgreedy hxm hym hzx hz, hzx⟩
  · rintro ⟨x, -, hin, hz⟩
    omega

end Greedy

end Abydos.Lib
