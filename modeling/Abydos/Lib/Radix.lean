import Mathlib.Logic.Function.Basic
import Mathlib.Tactic.Linarith

/-! Radix tables in a flat memory: every word of a table may point to a further table.  A table at
depth `l` is named by the number `k` its `l` indices spell in base `fanout`, the slot `k % fanout`
of the table `k / fanout` by `k`. -/

namespace Abydos.Lib.Radix

universe u

structure Layout (W : Type u) where
  fanout : Nat
  stride : Nat
  next : W → Option Nat
  fanout_pos : 0 < fanout
  stride_pos : 0 < stride

namespace Layout

variable {W : Type u} (L : Layout W)

def page : Nat := L.fanout * L.stride

def addr (p i : Nat) : Nat := p + L.stride * i

theorem addr_inj (hp : L.page ∣ p) (hq : L.page ∣ q) (hi : i < L.fanout) (hj : j < L.fanout)
    (h : L.addr p i = L.addr q j) : p = q ∧ i = j := by
  obtain ⟨a, rfl⟩ := hp
  obtain ⟨b, rfl⟩ := hq
  have h' : L.stride * (L.fanout * a + i) = L.stride * (L.fanout * b + j) := by
    unfold addr page at h
    linarith [h]
  have h'' := Nat.eq_of_mul_eq_mul_left L.stride_pos h'
  have hij : i = j := by
    have := congrArg (· % L.fanout) h''
    simpa [Nat.mul_add_mod, Nat.mod_eq_of_lt hi, Nat.mod_eq_of_lt hj] using this
  subst hij
  have hab : a = b := Nat.eq_of_mul_eq_mul_left L.fanout_pos (Nat.add_right_cancel h'')
  exact ⟨by rw [hab], rfl⟩

def tableAt (mem : Nat → W) (root : Nat) : Nat → Nat → Option Nat
  | 0, k => if k = 0 then some root else none
  | l + 1, k =>
    (tableAt mem root l (k / L.fanout)).bind fun p => L.next (mem (L.addr p (k % L.fanout)))

def slot (mem : Nat → W) (root l k : Nat) : Option W :=
  (L.tableAt mem root l (k / L.fanout)).map fun p => mem (L.addr p (k % L.fanout))

theorem tableAt_succ (mem : Nat → W) (root l k : Nat) :
    L.tableAt mem root (l + 1) k = (L.slot mem root l k).bind L.next := by
  unfold slot
  rw [tableAt]
  cases L.tableAt mem root l (k / L.fanout) <;> rfl

theorem slot_eq_some {mem : Nat → W} :
    L.slot mem root l k = some w ↔
      ∃ p, L.tableAt mem root l (k / L.fanout) = some p ∧ mem (L.addr p (k % L.fanout)) = w := by
  simp [slot]

/-- The linked tables form a tree of whole pages. -/
structure Tree (mem : Nat → W) (root : Nat) : Prop where
  aligned : L.tableAt mem root l k = some p → L.page ∣ p
  inj : L.tableAt mem root l k = some p → L.tableAt mem root l' k' = some p → l = l' ∧ k = k'

def Below (l k : Nat) : Nat → Nat → Prop
  | 0, _ => False
  | l' + 1, k' => (l' = l ∧ k' = k) ∨ Below l k l' (k' / L.fanout)

theorem not_below_of_le (h : l' ≤ l) : ¬ L.Below l k l' k' := by
  induction l' generalizing k' with
  | zero => exact id
  | succ l' ih =>
    rintro (⟨rfl, -⟩ | h')
    · omega
    · exact ih (by omega) h'

variable {mem mem' : Nat → W} {w w' w₀ : W} {root l k p l' k' q t : Nat}

theorem tableAt_congr
    (h : ∀ l k p, L.tableAt mem root l k = some p → ∀ i < L.fanout,
      mem' (L.addr p i) = mem (L.addr p i)) (l k : Nat) :
    L.tableAt mem' root l k = L.tableAt mem root l k := by
  induction l generalizing k with
  | zero => rfl
  | succ l ih =>
    rw [tableAt, tableAt, ih]
    cases hp : L.tableAt mem root l (k / L.fanout) with
    | none => rfl
    | some p =>
      simp only [Option.bind_some]
      rw [h _ _ _ hp _ (Nat.mod_lt _ L.fanout_pos)]

theorem slot_congr
    (h : ∀ l k p, L.tableAt mem root l k = some p → ∀ i < L.fanout,
      mem' (L.addr p i) = mem (L.addr p i)) (l k : Nat) :
    L.slot mem' root l k = L.slot mem root l k := by
  unfold slot
  rw [L.tableAt_congr h]
  cases hp : L.tableAt mem root l (k / L.fanout) with
  | none => rfl
  | some p =>
    simp only [Option.map_some]
    rw [h _ _ _ hp _ (Nat.mod_lt _ L.fanout_pos)]

theorem tableAt_below_none (hs : L.slot mem root l k = some w) (hw : L.next w = none)
    (h : L.Below l k l' k') : L.tableAt mem root l' k' = none := by
  induction l' generalizing k' with
  | zero => exact h.elim
  | succ l' ih =>
    rcases h with ⟨rfl, rfl⟩ | h
    · rw [tableAt_succ, hs, Option.bind_some, hw]
    · rw [tableAt, ih h, Option.bind_none]

theorem slot_below_none (hs : L.slot mem root l k = some w) (hw : L.next w = none)
    (h : L.Below l k l' (k' / L.fanout)) : L.slot mem root l' k' = none := by
  unfold slot
  rw [L.tableAt_below_none hs hw h, Option.map_none]

theorem slot_child_none (hs : L.slot mem root l k = some w) (hw : L.next w = none)
    (hk : k' / L.fanout = k) : L.slot mem root (l + 1) k' = none :=
  L.slot_below_none hs hw (Or.inl ⟨rfl, hk⟩)

def write (mem : Nat → W) (p k : Nat) (w : W) : Nat → W :=
  Function.update mem (L.addr p (k % L.fanout)) w

section Write

variable (ht : L.Tree mem root) (hp : L.tableAt mem root l (k / L.fanout) = some p)

include ht hp

theorem write_other (hq : L.tableAt mem root l' (k' / L.fanout) = some q)
    (hne : ¬ (l' = l ∧ k' = k)) :
    L.write mem p k w (L.addr q (k' % L.fanout)) = mem (L.addr q (k' % L.fanout)) := by
  apply Function.update_of_ne
  intro h
  obtain ⟨rfl, hmod⟩ := L.addr_inj (ht.aligned hq) (ht.aligned hp)
    (Nat.mod_lt _ L.fanout_pos) (Nat.mod_lt _ L.fanout_pos) h
  obtain ⟨rfl, hdiv⟩ := ht.inj hq hp
  apply hne
  refine ⟨rfl, ?_⟩
  rw [← Nat.div_add_mod k' L.fanout, ← Nat.div_add_mod k L.fanout, hdiv, hmod]

theorem tableAt_write_of_not_below (h : ¬ L.Below l k l' k') :
    L.tableAt (L.write mem p k w) root l' k' = L.tableAt mem root l' k' := by
  induction l' generalizing k' with
  | zero => rfl
  | succ l' ih =>
    have hk : ¬ (l' = l ∧ k' = k) := fun e => h (Or.inl e)
    have hb : ¬ L.Below l k l' (k' / L.fanout) := fun e => h (Or.inr e)
    rw [tableAt, tableAt, ih hb]
    cases hq : L.tableAt mem root l' (k' / L.fanout) with
    | none => rfl
    | some q =>
      simp only [Option.bind_some]
      rw [L.write_other ht hp hq hk]

theorem tableAt_write_self :
    L.tableAt (L.write mem p k w) root (l + 1) k = L.next w := by
  rw [tableAt, L.tableAt_write_of_not_below ht hp (L.not_below_of_le (Nat.le_refl l)), hp]
  simp [write]

theorem tableAt_write_below (hw : L.next w = none) (h : L.Below l k l' k') :
    L.tableAt (L.write mem p k w) root l' k' = none := by
  induction l' generalizing k' with
  | zero => exact h.elim
  | succ l' ih =>
    rcases h with ⟨rfl, rfl⟩ | h
    · rw [L.tableAt_write_self ht hp, hw]
    · rw [tableAt, ih h, Option.bind_none]

theorem slot_write_self : L.slot (L.write mem p k w) root l k = some w := by
  unfold slot
  rw [L.tableAt_write_of_not_below ht hp (L.not_below_of_le (Nat.le_refl l)), hp]
  simp [write]

theorem slot_write_other (hne : ¬ (l' = l ∧ k' = k)) (h : ¬ L.Below l k l' (k' / L.fanout)) :
    L.slot (L.write mem p k w) root l' k' = L.slot mem root l' k' := by
  unfold slot
  rw [L.tableAt_write_of_not_below ht hp h]
  cases hq : L.tableAt mem root l' (k' / L.fanout) with
  | none => rfl
  | some q =>
    simp only [Option.map_some]
    rw [L.write_other ht hp hq hne]

theorem slot_write_below (hw : L.next w = none) (h : L.Below l k l' (k' / L.fanout)) :
    L.slot (L.write mem p k w) root l' k' = none := by
  unfold slot
  rw [L.tableAt_write_below ht hp hw h, Option.map_none]

theorem tableAt_of_write (hw : L.next w = none)
    (h : L.tableAt (L.write mem p k w) root l' k' = some q) :
    L.tableAt mem root l' k' = some q := by
  by_cases hb : L.Below l k l' k'
  · rw [L.tableAt_write_below ht hp hw hb] at h
    cases h
  · rwa [L.tableAt_write_of_not_below ht hp hb] at h

theorem slot_of_write (hw : L.next w = none)
    (h : L.slot (L.write mem p k w) root l' k' = some w') :
    (l' = l ∧ k' = k ∧ w' = w) ∨ L.slot mem root l' k' = some w' := by
  by_cases hs : l' = l ∧ k' = k
  · obtain ⟨rfl, rfl⟩ := hs
    rw [L.slot_write_self ht hp] at h
    exact Or.inl ⟨rfl, rfl, (Option.some.inj h).symm⟩
  · by_cases hb : L.Below l k l' (k' / L.fanout)
    · rw [L.slot_write_below ht hp hw hb] at h
      cases h
    · rw [L.slot_write_other ht hp hs hb] at h
      exact Or.inr h

theorem Tree.write (hw : L.next w = none) : L.Tree (L.write mem p k w) root := by
  constructor
  · intro l' k' q h
    exact ht.aligned (L.tableAt_of_write ht hp hw h)
  · intro l' k' q l'' k'' h h'
    exact ht.inj (L.tableAt_of_write ht hp hw h) (L.tableAt_of_write ht hp hw h')

section Link

variable (ht' : L.page ∣ t) (hnew : ∀ l k, L.tableAt mem root l k ≠ some t)

include ht' hnew

theorem write_fresh (hi : i < L.fanout) :
    L.write mem p k w (L.addr t i) = mem (L.addr t i) := by
  apply Function.update_of_ne
  intro h
  obtain ⟨rfl, -⟩ := L.addr_inj ht' (ht.aligned hp) hi (Nat.mod_lt _ L.fanout_pos) h
  exact hnew _ _ hp

variable (hw : L.next w = some t) (hz : ∀ i < L.fanout, L.next (mem (L.addr t i)) = none)

include hw hz

theorem tableAt_link_below (h : L.Below l k l' k') :
    L.tableAt (L.write mem p k w) root l' k' = if l' = l + 1 ∧ k' = k then some t else none := by
  induction l' generalizing k' with
  | zero => exact h.elim
  | succ l' ih =>
    rcases h with ⟨rfl, rfl⟩ | h
    · rw [L.tableAt_write_self ht hp, hw]
      simp
    · have hlt : l < l' := by
        by_contra hle
        exact L.not_below_of_le (by omega) h
      rw [tableAt, ih h, if_neg (c := l' + 1 = l + 1 ∧ k' = k) (by omega)]
      split
      · rw [Option.bind_some, L.write_fresh ht hp ht' hnew (Nat.mod_lt _ L.fanout_pos)]
        exact hz _ (Nat.mod_lt _ L.fanout_pos)
      · rfl

theorem slot_link_child (h : k' / L.fanout = k) :
    L.slot (L.write mem p k w) root (l + 1) k' = some (mem (L.addr t (k' % L.fanout))) := by
  have hb : L.Below l k (l + 1) (k' / L.fanout) := Or.inl ⟨rfl, h⟩
  unfold slot
  rw [L.tableAt_link_below ht hp ht' hnew hw hz hb, if_pos ⟨rfl, h⟩,
    Option.map_some, L.write_fresh ht hp ht' hnew (Nat.mod_lt _ L.fanout_pos)]

theorem slot_link_below (h : L.Below l k l' (k' / L.fanout)) (hl : l' ≠ l + 1) :
    L.slot (L.write mem p k w) root l' k' = none := by
  unfold slot
  rw [L.tableAt_link_below ht hp ht' hnew hw hz h, if_neg (fun e => hl e.1), Option.map_none]

theorem slot_link (hs : L.slot mem root l k = some w₀) (hw₀ : L.next w₀ = none) :
    L.slot (L.write mem p k w) root l' k' =
      if l' = l ∧ k' = k then some w
      else if l' = l + 1 ∧ k' / L.fanout = k then some (mem (L.addr t (k' % L.fanout)))
      else L.slot mem root l' k' := by
  split
  next h =>
    obtain ⟨rfl, rfl⟩ := h
    exact L.slot_write_self ht hp
  next h =>
    split
    next hc =>
      obtain ⟨rfl, hk⟩ := hc
      exact L.slot_link_child ht hp ht' hnew hw hz hk
    next hc =>
      by_cases hb : L.Below l k l' (k' / L.fanout)
      · have hl : l' ≠ l + 1 := by
          rintro rfl
          rcases hb with ⟨-, hk⟩ | hb
          · exact hc ⟨rfl, hk⟩
          · exact L.not_below_of_le (Nat.le_refl l) hb
        rw [L.slot_link_below ht hp ht' hnew hw hz hb hl, L.slot_below_none hs hw₀ hb]
      · exact L.slot_write_other ht hp h hb

theorem tableAt_of_link (h : L.tableAt (L.write mem p k w) root l' k' = some q) :
    L.tableAt mem root l' k' = some q ∨ (q = t ∧ l' = l + 1 ∧ k' = k) := by
  by_cases hb : L.Below l k l' k'
  · rw [L.tableAt_link_below ht hp ht' hnew hw hz hb] at h
    split at h
    next e =>
      cases h
      exact Or.inr ⟨rfl, e⟩
    next => cases h
  · rw [L.tableAt_write_of_not_below ht hp hb] at h
    exact Or.inl h

theorem Tree.link : L.Tree (L.write mem p k w) root := by
  constructor
  · intro l' k' q h
    rcases L.tableAt_of_link ht hp ht' hnew hw hz h with h | ⟨rfl, -⟩
    · exact ht.aligned h
    · exact ht'
  · intro l' k' q l'' k'' h h'
    rcases L.tableAt_of_link ht hp ht' hnew hw hz h with h | ⟨hq, hl, hk⟩ <;>
      rcases L.tableAt_of_link ht hp ht' hnew hw hz h' with h' | ⟨hq', hl', hk'⟩
    · exact ht.inj h h'
    · exact absurd (hq' ▸ h) (hnew _ _)
    · exact absurd (hq ▸ h') (hnew _ _)
    · exact ⟨hl.trans hl'.symm, hk.trans hk'.symm⟩

end Link

end Write

end Layout

end Abydos.Lib.Radix
