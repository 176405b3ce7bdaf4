import Abydos.Mmu.Rv64

/-! The address translation algorithm of the RISC-V privileged architecture, over the raw words in
physical memory.  It raises a page fault on non-canonical addresses, on invalid or reserved
encodings and on misaligned superpages; the A and D updates of the final step are not modelled. -/

namespace Abydos.Mmu

structure Translation where
  pa : Nat
  r : Bool
  w : Bool
  x : Bool
  u : Bool
  g : Bool
  deriving DecidableEq

inductive Kind
  | fault | leaf | pointer
  deriving DecidableEq

namespace Hw

def ppn (w : BitVec 64) : Nat := (w.extractLsb' 10 44).toNat

def vpn (va : Addr) (i : Nat) : Nat := va.toNat / 2 ^ (12 + 9 * i) % 512

/-- Bits 54 to 63 must be zero, unless the hart uses them as page attributes (T-Head); A, D and U
are reserved in pointers. -/
def kind (thead : Bool) (w : BitVec 64) : Kind :=
  if !w.getLsbD 0 || (!w.getLsbD 1 && w.getLsbD 2) then .fault
  else if w.extractLsb' 54 10 ≠ 0 ∧ thead = false then .fault
  else if w.getLsbD 1 || w.getLsbD 3 then .leaf
  else if w.getLsbD 4 || w.getLsbD 6 || w.getLsbD 7 then .fault
  else .pointer

def leaf (va : Addr) (i : Nat) (g : Bool) (w : BitVec 64) : Option Translation :=
  if ppn w % 2 ^ (9 * i) ≠ 0 then none
  else some {
    pa := ppn w * 4096 + va.toNat % 2 ^ (12 + 9 * i)
    r := w.getLsbD 1, w := w.getLsbD 2, x := w.getLsbD 3, u := w.getLsbD 4
    g := g || w.getLsbD 5 }

def walk (thead : Bool) (mem : Nat → BitVec 64) (va : Addr) :
    Nat → Nat → Bool → Option Translation
  | i, a, g =>
    let w := mem (a + 8 * vpn va i)
    match kind thead w with
    | .fault => none
    | .leaf => leaf va i g w
    | .pointer =>
      match i with
      | 0 => none
      | i + 1 => walk thead mem va i (ppn w * 4096) (g || w.getLsbD 5)

end Hw

def Mode.Canonical (m : Mode) (va : Addr) : Prop :=
  va.toNat < 2 ^ (m.sz - 1) ∨ 2 ^ 64 - 2 ^ (m.sz - 1) ≤ va.toNat

instance (m : Mode) (va : Addr) : Decidable (m.Canonical va) :=
  inferInstanceAs (Decidable (_ ∨ _))

def State.thead (σ : State) : Bool := σ.variant = VARIANT_THEAD_C906

def State.translate (m : Mode) (σ : State) (va : Addr) : Option Translation :=
  if m.Canonical va then
    Hw.walk σ.thead (fun a => (σ.mem a).word) va m.getMaxLevel (σ.satp.ppn.toNat * 4096) false
  else none

namespace Pte

theorem getLsbD_word (e : Pte) :
    e.word.getLsbD 0 = e.v ∧ e.word.getLsbD 1 = e.r ∧ e.word.getLsbD 2 = e.w ∧
      e.word.getLsbD 3 = e.x ∧ e.word.getLsbD 4 = e.u ∧ e.word.getLsbD 5 = e.g ∧
      e.word.getLsbD 6 = e.a ∧ e.word.getLsbD 7 = e.d := by
  simp only [word, BitVec.getLsbD_append, BitVec.getLsbD_ofBool]
  simp

theorem word_reserved (e : Pte) : e.word.extractLsb' 54 10 = e.reserved := by
  have := e.flags_lt
  have := e.frame_lt
  have := e.reserved.isLt
  rw [← BitVec.toNat_inj, Lib.Word.toNat_extract, word_toNat]
  omega

end Pte

end Abydos.Mmu
