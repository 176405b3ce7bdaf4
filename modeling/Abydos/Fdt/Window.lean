import Abydos.Fdt.Helper

namespace Abydos.Fdt

structure FirstRange (t : Tree) (parent : Int) (n m : Nat) (v : Bytes) : Prop where
  addressCells : t.addressCells parent = n
  one_le : 1 ≤ n
  sizeCells : t.sizeCells parent = m
  ranges : t.getprop parent "ranges" = some v
  length_ge : 4 * (n + n + m) ≤ v.length

structure SingleRange (t : Tree) (parent : Int) (n m : Nat) (v : Bytes) : Prop
    extends FirstRange t parent n m v where
  length_le : v.length ≤ 4 * (n + n + m)

def WindowExact (t : Tree) (parent : Int) (reg : BitVec 64) (c p z : Nat) : Prop :=
  ∀ o, let (rc, o') := (translateAddress t reg parent).run o
    if c ≤ reg.toNat ∧ reg.toNat < c + z then
      rc = 0 ∧ ∃ a, o'.addr = some a ∧ a.toNat = p + (reg.toNat - c)
    else rc = K_ENODEV ∧ o'.addr = o.addr

/-- Where the sum of address and size does not mislead the test. -/
def WindowSafe (reg c z : Nat) : Prop :=
  reg < c ∧ (c < 2 ^ 64 ∨ reg = 0) ∨
  c ≤ reg ∧ reg < c + z ∧ (reg + z < 2 ^ 64 ∨ c + 2 ^ 64 < reg + z) ∨
  c + z ≤ reg ∧ (reg + z ≤ c ∨ 2 ^ 64 ≤ reg + z ∧ reg + z ≤ c + 2 ^ 64)

instance : Decidable (WindowSafe reg c z) := inferInstanceAs (Decidable (_ ∨ _))

variable {t : Tree} {parent : Int} {n m : Nat} {v : Bytes} {reg : BitVec 64} {c p z : Nat}

theorem FirstRange.hasCells (h : FirstRange t parent n m v) : hasCells t parent := by
  have hone := h.one_le
  refine ⟨?_, ?_⟩
  · rw [h.addressCells]
    omega
  · rw [h.sizeCells]
    omega

theorem FirstRange.hasRanges (h : FirstRange t parent n m v) : hasRanges t parent := by
  have hone := h.one_le
  have hlen := h.length_ge
  rw [Fdt.hasRanges, h.ranges, Option.getD_some]
  omega

theorem FirstRange.firstRange (h : FirstRange t parent n m v) : firstRange t parent =
    (BitVec.ofNat 64 (field v 0 n), BitVec.ofNat 64 (field v n n),
      BitVec.ofNat 64 (field v (n + n) m)) := by
  have hlen := h.length_ge
  have hload : ∀ i k, i + k ≤ n + n + m →
      loaded t parent "ranges" i k 0 = BitVec.ofNat 64 (field v i k) := by
    intro i k hik
    rw [show (0 : BitVec 64) = BitVec.ofNat 64 0 from rfl, loaded_eq h.ranges (by omega),
      Nat.zero_mul, Nat.zero_add]
  rw [Fdt.firstRange, h.addressCells, h.sizeCells]
  dsimp only [Int.toNat_natCast]
  rw [hload 0 n (by omega), hload n n (by omega), hload (n + n) m (by omega)]

def Accepts (reg : BitVec 64) (c z : Nat) : Prop :=
  ¬ (reg < BitVec.ofNat 64 c ∨ BitVec.ofNat 64 c ≥ reg + BitVec.ofNat 64 z)

instance : Decidable (Accepts reg c z) := inferInstanceAs (Decidable (¬ _))

theorem accepts_iff : Accepts reg c z ↔
    c % 2 ^ 64 ≤ reg.toNat ∧ c % 2 ^ 64 < (reg.toNat + z) % 2 ^ 64 := by
  rw [Accepts, not_or, BitVec.lt_def, ge_iff_le, BitVec.le_def, BitVec.toNat_add,
    BitVec.toNat_ofNat, BitVec.toNat_ofNat, Nat.not_lt, Nat.not_le, Nat.add_mod_mod]

theorem windowSafe_iff (hc : c + z ≤ 2 ^ 64) (reg : BitVec 64) : WindowSafe reg.toNat c z ↔
    (Accepts reg c z ↔ c ≤ reg.toNat ∧ reg.toNat < c + z) := by
  rw [accepts_iff, WindowSafe]
  have hreg := reg.isLt
  omega

theorem FirstRange.translated (h : FirstRange t parent n m v) (reg : BitVec 64) :
    translated t reg parent = if Accepts reg (field v 0 n) (field v (n + n) m) then
      some (BitVec.ofNat 64 (field v n n) + (reg - BitVec.ofNat 64 (field v 0 n))) else none := by
  rw [Fdt.translated, if_pos h.hasCells, if_pos h.hasRanges, h.firstRange]
  exact (ite_not ..).symm

theorem ofNat_translated (hle : c ≤ reg.toNat) :
    BitVec.ofNat 64 p + (reg - BitVec.ofNat 64 c) = BitVec.ofNat 64 (p + (reg.toNat - c)) := by
  have hreg := reg.isLt
  refine BitVec.eq_of_toNat_eq ?_
  rw [BitVec.toNat_add, BitVec.toNat_sub, BitVec.toNat_ofNat, BitVec.toNat_ofNat,
    BitVec.toNat_ofNat]
  omega

theorem window_test_exact (h : SingleRange t parent n m v)
    (hc : field v 0 n + field v (n + n) m ≤ 2 ^ 64) (hp : field v n n + field v (n + n) m ≤ 2 ^ 64) :
    WindowExact t parent reg (field v 0 n) (field v n n) (field v (n + n) m) ↔
      WindowSafe reg.toNat (field v 0 n) (field v (n + n) m) := by
  rw [windowSafe_iff hc, WindowExact]
  simp only [run_translateAddress, h.toFirstRange.translated]
  by_cases hin : field v 0 n ≤ reg.toNat ∧ reg.toNat < field v 0 n + field v (n + n) m
  · simp only [if_pos hin, iff_true_right hin]
    constructor
    · intro hex
      by_contra hacc
      rw [if_neg hacc] at hex
      exact absurd (hex .start).1 (show K_ENODEV ≠ 0 by decide)
    · intro hacc o
      rw [if_pos hacc, ofNat_translated hin.1]
      refine ⟨rfl, _, rfl, ?_⟩
      rw [BitVec.toNat_ofNat, Nat.mod_eq_of_lt (by omega)]
  · simp only [if_neg hin, iff_false_right hin]
    constructor
    · intro hex hacc
      rw [if_pos hacc] at hex
      exact absurd (hex .start).1 (show 0 ≠ K_ENODEV by decide)
    · intro hacc o
      rw [if_neg hacc]
      exact ⟨rfl, rfl⟩

def window : Bytes := [0, 0, 0x10, 0, 0x80, 0, 0, 0, 0, 0, 0x20, 0]

def oneBus : Tree where
  nodes := [⟨0, "", none, [("#address-cells", [0, 0, 0, 1]), ("#size-cells", [0, 0, 0, 1]),
    ("ranges", window)]⟩]
  inOrder := List.pairwise_singleton _ _
  above := by decide
  short := by decide
  memRsv := []
  beyond := fun _ _ _ => 0

theorem oneBus_window : SingleRange oneBus 0 1 1 window :=
  ⟨⟨by decide +kernel, by decide, by decide +kernel, by decide +kernel, by decide⟩, by decide⟩

theorem window_test_exact_inside :
    WindowExact oneBus 0 0x1800 0x1000 0x80000000 0x2000 :=
  (window_test_exact oneBus_window (by decide) (by decide)).mpr (by decide)

theorem window_test_inexact :
    ((translateAddress oneBus 0x8000 0).run .start).1 = 0 ∧
    ¬ WindowExact oneBus 0 0x8000 0x1000 0x80000000 0x2000 := by
  have hrc : ((translateAddress oneBus 0x8000 0).run .start).1 = 0 := by
    decide +kernel
  refine ⟨hrc, fun h => ?_⟩
  have hout : ¬ (0x1000 ≤ (0x8000 : BitVec 64).toNat ∧
      (0x8000 : BitVec 64).toNat < 0x1000 + 0x2000) := by decide
  have hstart := h .start
  simp only [if_neg hout] at hstart
  exact absurd (hrc.symm.trans hstart.1) (by decide)

end Abydos.Fdt
