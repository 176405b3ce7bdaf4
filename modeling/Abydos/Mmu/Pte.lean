import Abydos.Lib.Word

namespace Abydos.Mmu

open Abydos.Lib

abbrev Addr := BitVec 64

structure Pte where
  v : Bool := false
  r : Bool := false
  w : Bool := false
  x : Bool := false
  u : Bool := false
  g : Bool := false
  a : Bool := false
  d : Bool := false
  rsw : BitVec 2 := 0
  ppn0 : BitVec 9 := 0
  ppn1 : BitVec 9 := 0
  ppn2 : BitVec 9 := 0
  ppn3 : BitVec 9 := 0
  ppn4 : BitVec 8 := 0
  reserved : BitVec 10 := 0
  deriving DecidableEq

namespace Pte

def word (e : Pte) : BitVec 64 :=
  e.reserved ++ e.ppn4 ++ e.ppn3 ++ e.ppn2 ++ e.ppn1 ++ e.ppn0 ++ e.rsw ++
    BitVec.ofBool e.d ++ BitVec.ofBool e.a ++ BitVec.ofBool e.g ++ BitVec.ofBool e.u ++
    BitVec.ofBool e.x ++ BitVec.ofBool e.w ++ BitVec.ofBool e.r ++ BitVec.ofBool e.v

def fit (e : Pte) : Pte := { e with reserved := 0 }

def ppn (e : Pte) (addr : Addr) : Pte :=
  { e with
    ppn0 := addr.extractLsb' 12 9
    ppn1 := addr.extractLsb' 21 9
    ppn2 := addr.extractLsb' 30 9
    ppn3 := addr.extractLsb' 39 9
    ppn4 := addr.extractLsb' 48 8 }

def paddr (e : Pte) : Addr :=
  (e.word <<< 2) &&& ~~~ 0xFFF#64 &&& ~~~ 0xFFFFFFC000000000#64

def frame (e : Pte) : Nat :=
  e.ppn0.toNat + 2 ^ 9 * e.ppn1.toNat + 2 ^ 18 * e.ppn2.toNat + 2 ^ 27 * e.ppn3.toNat +
    2 ^ 36 * e.ppn4.toNat

def flags (e : Pte) : Nat :=
  e.v.toNat + 2 * e.r.toNat + 4 * e.w.toNat + 8 * e.x.toNat + 16 * e.u.toNat + 32 * e.g.toNat +
    64 * e.a.toNat + 128 * e.d.toNat + 256 * e.rsw.toNat

theorem flags_lt (e : Pte) : e.flags < 2 ^ 10 := by
  have := e.rsw.isLt
  have hb (b : Bool) : b.toNat ≤ 1 := Bool.toNat_le b
  have := hb e.v; have := hb e.r; have := hb e.w; have := hb e.x
  have := hb e.u; have := hb e.g; have := hb e.a; have := hb e.d
  unfold flags
  omega

theorem frame_lt (e : Pte) : e.frame < 2 ^ 44 := by
  have := e.ppn0.isLt; have := e.ppn1.isLt; have := e.ppn2.isLt
  have := e.ppn3.isLt; have := e.ppn4.isLt
  unfold frame
  omega

theorem word_toNat (e : Pte) :
    e.word.toNat = e.flags + 2 ^ 10 * e.frame + 2 ^ 54 * e.reserved.toNat := by
  unfold word flags frame
  simp only [Word.toNat_append, BitVec.toNat_ofBool]
  ring

theorem word_frame (e : Pte) : (e.word.extractLsb' 10 44).toNat = e.frame := by
  have := e.flags_lt
  have := e.frame_lt
  rw [Word.toNat_extract, word_toNat]
  omega

theorem paddr_toNat (e : Pte) : e.paddr.toNat = e.frame * 4096 % 2 ^ 38 := by
  have := e.flags_lt
  have := e.frame_lt
  have hlow : ~~~ 0xFFFFFFC000000000#64 = BitVec.ofNat 64 (2 ^ 38 - 1) := by decide
  have hpage : 0xFFF#64 = BitVec.ofNat 64 (2 ^ 12 - 1) := by decide
  rw [paddr, hlow, hpage, Word.toNat_and_low _ (by decide), Word.toNat_and_high _ (by decide),
    BitVec.toNat_shiftLeft, Nat.shiftLeft_eq, word_toNat]
  omega

@[simp] theorem frame_ppn (e : Pte) (addr : Addr) :
    (e.ppn addr).frame = addr.toNat / 4096 % 2 ^ 44 := by
  unfold frame ppn
  simp only [Word.toNat_extract]
  omega

theorem paddr_eq_zero_iff (e : Pte) : e.paddr = 0 ↔ e.frame % 2 ^ 26 = 0 := by
  rw [← BitVec.toNat_inj, paddr_toNat]
  simp only [BitVec.ofNat_eq_ofNat, BitVec.toNat_ofNat]
  omega

end Pte

end Abydos.Mmu
