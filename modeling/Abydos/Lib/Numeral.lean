import Mathlib.Data.Nat.Digits.Defs
import Mathlib.Data.UInt

namespace Abydos.Lib.Numeral

abbrev Text := List UInt8

def digitChar (d : Nat) : UInt8 := UInt8.ofNat (if d < 10 then 0x30 + d else 0x61 + (d - 10))

def charDigit (c : UInt8) : Option Nat :=
  if 0x30 ≤ c ∧ c ≤ 0x39 then some (c.toNat - 0x30)
  else if 0x61 ≤ c ∧ c ≤ 0x7a then some (c.toNat - 0x61 + 10)
  else if 0x41 ≤ c ∧ c ≤ 0x5a then some (c.toNat - 0x41 + 10)
  else none

def digitIn (b : Nat) (c : UInt8) : Option Nat := (charDigit c).filter (· < b)

def write (b n : Nat) : Text :=
  if n = 0 then [digitChar 0] else (Nat.digits b n).reverse.map digitChar

/-- The digits at the front, as a number that follows `acc`, and what comes after them. -/
def scanDigits (b : Nat) : Nat → Text → Nat × Text
  | acc, [] => (acc, [])
  | acc, c :: s =>
    match digitIn b c with
    | some d => scanDigits b (b * acc + d) s
    | none => (acc, c :: s)

def isSpace (c : UInt8) : Bool := c = 0x20 || 0x09 ≤ c && c ≤ 0x0d

def sign : Text → Bool × Text
  | [] => (false, [])
  | c :: s => if c = 0x2d then (true, s) else if c = 0x2b then (false, s) else (false, c :: s)

def skipMark (b : Nat) : Text → Text
  | z :: x :: c :: s =>
    if b = 16 ∧ z = 0x30 ∧ (x = 0x78 ∨ x = 0x58) ∧ (digitIn 16 c).isSome then c :: s
    else z :: x :: c :: s
  | s => s

def clip (w : Nat) (neg : Bool) (n : Nat) : BitVec w :=
  if 2 ^ w ≤ n then BitVec.allOnes w
  else if neg then -BitVec.ofNat w n
  else BitVec.ofNat w n

def scanUnsigned (w b : Nat) (s : Text) : Option (BitVec w × Text) :=
  let (neg, s) := sign (s.dropWhile isSpace)
  match skipMark b s with
  | [] => none
  | c :: s =>
    if (digitIn b c).isSome then
      let (n, rest) := scanDigits b 0 (c :: s)
      some (clip w neg n, rest)
    else none

variable {b d n w : Nat} {ds : List Nat} {s : Text}

theorem charDigit_digitChar : ∀ d < 36, charDigit (digitChar d) = some d := by decide

theorem digitIn_digitChar (hb : b ≤ 36) (hd : d < b) : digitIn b (digitChar d) = some d := by
  rw [digitIn, charDigit_digitChar d (Nat.lt_of_lt_of_le hd hb)]
  simp [hd]

theorem scanDigits_digits (hb : b ≤ 36) (hds : ∀ d ∈ ds, d < b)
    (hs : ∀ c ∈ s.head?, digitIn b c = none) (acc : Nat) :
    scanDigits b acc (ds.map digitChar ++ s) = (ds.foldl (fun a d => b * a + d) acc, s) := by
  induction ds generalizing acc with
  | nil =>
    cases s with
    | nil => rfl
    | cons c s =>
      rw [List.map_nil, List.nil_append, scanDigits, hs c rfl]
      rfl
  | cons d ds ih =>
    have hd := digitIn_digitChar hb (hds d List.mem_cons_self)
    rw [List.map_cons, List.cons_append, scanDigits, hd]
    exact ih (fun d' h => hds d' (List.mem_cons_of_mem d h)) (b * acc + d)

theorem foldl_digits (b n : Nat) : (Nat.digits b n).reverse.foldl (fun a d => b * a + d) 0 = n := by
  rw [List.foldl_reverse]
  conv_rhs => rw [← Nat.ofDigits_digits b n, Nat.ofDigits_eq_foldr]
  simp only [Nat.cast_id, Nat.add_comm]

theorem write_digits (hb : 1 < b) (n : Nat) : ∃ d ds, write b n = (d :: ds).map digitChar ∧
    (∀ x ∈ d :: ds, x < b) ∧ (d :: ds).foldl (fun a d => b * a + d) 0 = n := by
  unfold write
  split
  · rename_i hn
    exact ⟨0, [], rfl, by simp; omega, by simp [hn]⟩
  · rename_i hn
    have hlt : ∀ x ∈ (Nat.digits b n).reverse, x < b := fun x hx =>
      Nat.digits_lt_base hb (List.mem_reverse.mp hx)
    have hval := foldl_digits b n
    cases hds : (Nat.digits b n).reverse with
    | nil =>
      rw [hds] at hval
      exact absurd hval.symm hn
    | cons d ds =>
      rw [hds] at hlt hval
      exact ⟨d, ds, rfl, hlt, hval⟩

theorem digitChar_plain : ∀ d < 36,
    isSpace (digitChar d) = false ∧ digitChar d ≠ 0x2d ∧ digitChar d ≠ 0x2b := by decide

theorem skipMark_of_ne (hb : b ≠ 16) (s : Text) : skipMark b s = s := by
  unfold skipMark
  split
  · rw [if_neg fun h => hb h.1]
  · rfl

theorem scanUnsigned_write (hb : 1 < b) (hle : b ≤ 36) (hne : b ≠ 16) (x : BitVec w)
    (hs : ∀ c ∈ s.head?, digitIn b c = none) :
    scanUnsigned w b (write b x.toNat ++ s) = some (x, s) := by
  obtain ⟨d, ds, hwrite, hlt, hval⟩ := write_digits hb x.toNat
  have hd : d < b := hlt d List.mem_cons_self
  obtain ⟨hspace, hminus, hplus⟩ := digitChar_plain d (Nat.lt_of_lt_of_le hd hle)
  have hscan := scanDigits_digits hle hlt hs 0
  rw [hval, List.map_cons, List.cons_append] at hscan
  have hclip : clip w false x.toNat = x := by
    rw [clip, if_neg (Nat.not_le.mpr x.isLt)]
    simp
  rw [scanUnsigned, hwrite, List.map_cons, List.cons_append,
    List.dropWhile_cons_of_neg (by simp [hspace]), sign, if_neg hminus, if_neg hplus]
  dsimp only
  rw [skipMark_of_ne hne]
  dsimp only
  rw [if_pos (by rw [digitIn_digitChar hle hd]; rfl), hscan, hclip]

end Abydos.Lib.Numeral
