import Mathlib.Data.Nat.Bitwise
import Mathlib.Tactic.Ring

namespace Abydos.Lib.Word

theorem toNat_append (x : BitVec m) (y : BitVec n) :
    (x ++ y).toNat = x.toNat * 2 ^ n + y.toNat := by
  rw [BitVec.toNat_append, ← Nat.shiftLeft_add_eq_or_of_lt y.isLt, Nat.shiftLeft_eq]

theorem toNat_extract (x : BitVec w) (s n : Nat) :
    (x.extractLsb' s n).toNat = x.toNat / 2 ^ s % 2 ^ n := by
  rw [BitVec.extractLsb'_toNat, Nat.shiftRight_eq_div_pow]

theorem toNat_and_low (x : BitVec w) (h : k ≤ w) :
    (x &&& BitVec.ofNat w (2 ^ k - 1)).toNat = x.toNat % 2 ^ k := by
  have hk : 2 ^ k ≤ 2 ^ w := Nat.pow_le_pow_right (by decide) h
  have hpos : 0 < 2 ^ k := Nat.two_pow_pos k
  rw [BitVec.toNat_and, BitVec.toNat_ofNat, Nat.mod_eq_of_lt (by omega),
    Nat.and_two_pow_sub_one_eq_mod]

theorem and_low_eq_zero (x : BitVec w) (h : k ≤ w) :
    x &&& BitVec.ofNat w (2 ^ k - 1) = 0#w ↔ 2 ^ k ∣ x.toNat := by
  rw [← BitVec.toNat_inj, toNat_and_low x h, Nat.dvd_iff_mod_eq_zero]
  simp

theorem and_add_and_not (x m : BitVec w) : (x &&& m) + (x &&& ~~~ m) = x := by
  rw [BitVec.add_eq_or_of_and_eq_zero]
  · ext i; simp; cases x[i] <;> simp
  · ext i; simp; cases x[i] <;> simp

theorem and_not_eq_sub (x m : BitVec w) : x &&& ~~~ m = x - (x &&& m) := by
  conv_rhs => lhs; rw [← and_add_and_not x m, BitVec.add_comm]
  rw [BitVec.add_sub_cancel]

theorem toNat_and_high (x : BitVec w) (h : k ≤ w) :
    (x &&& ~~~ BitVec.ofNat w (2 ^ k - 1)).toNat = x.toNat / 2 ^ k * 2 ^ k := by
  have hle : x &&& BitVec.ofNat w (2 ^ k - 1) ≤ x := by
    rw [BitVec.le_def, toNat_and_low x h]
    exact Nat.mod_le _ _
  rw [and_not_eq_sub, BitVec.toNat_sub_of_le hle, toNat_and_low x h]
  have := Nat.div_add_mod' x.toNat (2 ^ k)
  omega

theorem toNat_or_high (x : BitVec w) (h : k ≤ w) :
    (x ||| ~~~ BitVec.ofNat w (2 ^ k - 1)).toNat = 2 ^ w - 2 ^ k + x.toNat % 2 ^ k := by
  have hk : 2 ^ k ≤ 2 ^ w := Nat.pow_le_pow_right (by decide) h
  have hlow : x.toNat % 2 ^ k < 2 ^ k := Nat.mod_lt _ (Nat.two_pow_pos k)
  have hsplit : x ||| ~~~ BitVec.ofNat w (2 ^ k - 1) =
      ~~~ BitVec.ofNat w (2 ^ k - 1) + (x &&& BitVec.ofNat w (2 ^ k - 1)) := by
    rw [BitVec.add_eq_or_of_and_eq_zero]
    · ext i; simp; cases x[i] <;> simp [Bool.or_comm]
    · ext i; simp; cases x[i] <;> simp
  rw [hsplit, BitVec.toNat_add, toNat_and_low x h, BitVec.toNat_not, BitVec.toNat_ofNat,
    Nat.mod_eq_of_lt (show 2 ^ k - 1 < 2 ^ w by omega), Nat.mod_eq_of_lt (by omega)]
  omega

end Abydos.Lib.Word
