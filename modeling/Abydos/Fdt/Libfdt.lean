import Abydos.Lib.Word
import Mathlib.Data.BitVec
import Mathlib.Tactic.Ring

namespace Abydos.Fdt

open Abydos.Lib

abbrev Bytes := List UInt8

def FDT_ERR_NOTFOUND : Int := 1
def FDT_ERR_BADOFFSET : Int := 4
def FDT_ERR_BADPHANDLE : Int := 6
def FDT_ERR_BADNCELLS : Int := 14
def FDT_MAX_NCELLS : Nat := 4

structure Node where
  offset : Nat
  name : String
  parent : Option Nat
  props : List (String × Bytes)

/-- The nodes in document order, and the memory reservations.  Nothing is known of the memory after a
property, which is where a cell of too high an index is. -/
structure Tree where
  nodes : List Node
  inOrder : nodes.Pairwise fun n m => n.offset < m.offset
  above : ∀ n ∈ nodes, ∀ p ∈ n.parent, p < n.offset ∧ ∃ q ∈ nodes, q.offset = p
  short : ∀ n ∈ nodes, ∀ q ∈ n.props, q.2.length < 2 ^ 31
  memRsv : List (BitVec 64 × BitVec 64)
  beyond : Int → String → Nat → BitVec 32

def cell : Bytes → Option (BitVec 32)
  | a :: b :: c :: d :: _ => some (a.toBitVec ++ b.toBitVec ++ c.toBitVec ++ d.toBitVec)
  | _ => none

def cellAt (v : Bytes) (i : Nat) : Option (BitVec 32) := cell (v.drop (4 * i))

def nodenameEq (name s : String) : Prop :=
  name = s ∨ '@' ∉ s.toList ∧ s.toList ++ ['@'] <+: name.toList

instance : Decidable (nodenameEq name s) := inferInstanceAs (Decidable (_ ∨ _))

namespace Tree

variable (t : Tree)

def node (nodeoffset : Int) : Option Node := t.nodes.find? fun n => n.offset = nodeoffset

def getprop (nodeoffset : Int) (name : String) : Option Bytes :=
  (t.node nodeoffset).bind fun n => n.props.lookup name

def getName (nodeoffset : Int) : Option String := (t.node nodeoffset).map Node.name

def subnodes (nodeoffset : Int) : List Node :=
  t.nodes.filter fun n => n.parent.map Int.ofNat = some nodeoffset

def subnodeOffset (parentoffset : Int) (name : String) : Int :=
  match (t.subnodes parentoffset).find? fun n => nodenameEq n.name name with
  | none => -FDT_ERR_NOTFOUND
  | some n => n.offset

def parentOffset (nodeoffset : Int) : Int :=
  match t.node nodeoffset with
  | none => -FDT_ERR_BADOFFSET
  | some n =>
    match n.parent with
    | none => -FDT_ERR_NOTFOUND
    | some p => p

def cells (nodeoffset : Int) (name : String) : Int :=
  match t.node nodeoffset with
  | none => -FDT_ERR_BADOFFSET
  | some n =>
    match n.props.lookup name with
    | none => -FDT_ERR_NOTFOUND
    | some c =>
      if c.length ≠ 4 then -FDT_ERR_BADNCELLS
      else
        let val := (cellAt c 0).getD 0
        if FDT_MAX_NCELLS < val.toNat then -FDT_ERR_BADNCELLS else val.toNat

def addressCells (nodeoffset : Int) : Int :=
  let val := t.cells nodeoffset "#address-cells"
  if val = 0 then -FDT_ERR_BADNCELLS
  else if val = -FDT_ERR_NOTFOUND then 2
  else val

def sizeCells (nodeoffset : Int) : Int :=
  let val := t.cells nodeoffset "#size-cells"
  if val = -FDT_ERR_NOTFOUND then 1 else val

def word (nodeoffset : Int) (name : String) : Option (BitVec 32) :=
  match t.getprop nodeoffset name with
  | some php => if php.length = 4 then cellAt php 0 else none
  | none => none

def getPhandle (nodeoffset : Int) : BitVec 32 :=
  ((t.word nodeoffset "phandle").or (t.word nodeoffset "linux,phandle")).getD 0

def nodeOffsetByPhandle (phandle : BitVec 32) : Int :=
  if phandle = 0 ∨ phandle = BitVec.allOnes 32 then -FDT_ERR_BADPHANDLE
  else
    match t.nodes.find? fun n => t.getPhandle n.offset = phandle with
    | none => -FDT_ERR_NOTFOUND
    | some n => n.offset

end Tree

section Cells

variable {v : Bytes} {i j n m : Nat}

theorem cell_isSome : (cell v).isSome ↔ 4 ≤ v.length := by
  unfold cell
  split
  · simp
  · rename_i hno
    refine iff_of_false Bool.false_ne_true fun h => ?_
    match v, h with
    | a :: b :: c :: d :: v, _ => exact hno a b c d v rfl

theorem cellAt_isSome : (cellAt v i).isSome ↔ 4 * (i + 1) ≤ v.length := by
  rw [cellAt, cell_isSome, List.length_drop]
  omega

def number : Bytes → Nat
  | [] => 0
  | b :: v => b.toNat * 2 ^ (8 * v.length) + number v

/-- The number in the cells from `i` on. -/
def field (v : Bytes) (i n : Nat) : Nat := number ((v.drop (4 * i)).take (4 * n))

theorem number_lt (v : Bytes) : number v < 2 ^ (8 * v.length) := by
  induction v with
  | nil => decide
  | cons b v ih =>
    have hb : b.toNat + 1 ≤ 2 ^ 8 := b.toNat_lt
    have hpow : 2 ^ (8 * (b :: v).length) = 2 ^ 8 * 2 ^ (8 * v.length) := by
      rw [← Nat.pow_add, List.length_cons]
      congr 1
      omega
    calc number (b :: v) = b.toNat * 2 ^ (8 * v.length) + number v := rfl
      _ < b.toNat * 2 ^ (8 * v.length) + 2 ^ (8 * v.length) := Nat.add_lt_add_left ih _
      _ = (b.toNat + 1) * 2 ^ (8 * v.length) := (Nat.succ_mul _ _).symm
      _ ≤ 2 ^ 8 * 2 ^ (8 * v.length) := Nat.mul_le_mul_right _ hb
      _ = 2 ^ (8 * (b :: v).length) := hpow.symm

theorem field_lt (h : 4 * (i + n) ≤ v.length) : field v i n < 2 ^ (32 * n) := by
  have hlt := number_lt ((v.drop (4 * i)).take (4 * n))
  rw [List.length_take, List.length_drop, Nat.min_eq_left (by omega), ← Nat.mul_assoc] at hlt
  exact hlt

theorem number_append (v w : Bytes) :
    number (v ++ w) = number v * 2 ^ (8 * w.length) + number w := by
  induction v with
  | nil => simp [number]
  | cons b v ih =>
    rw [List.cons_append, number, ih, number, List.length_append, Nat.mul_add, Nat.pow_add]
    ring

theorem cell_number {x : BitVec 32} (h : cell v = some x) : x.toNat = number (v.take 4) := by
  unfold cell at h
  split at h
  · rename_i a b c d v
    cases h
    simp only [Word.toNat_append, UInt8.toNat_toBitVec, List.take_succ_cons, List.take_zero, number,
      List.length_cons, List.length_nil]
    omega
  · cases h

theorem field_succ {x : BitVec 32} (h : 4 * (i + (n + 1)) ≤ v.length) (hx : cellAt v i = some x) :
    field v i (n + 1) = x.toNat * 2 ^ (32 * n) + field v (i + 1) n := by
  have hsplit : (v.drop (4 * i)).take (4 * (n + 1)) =
      (v.drop (4 * i)).take 4 ++ (v.drop (4 * (i + 1))).take (4 * n) := by
    rw [show 4 * (n + 1) = 4 + 4 * n by ring, List.take_add, List.drop_drop]
    rfl
  have hlen : ((v.drop (4 * (i + 1))).take (4 * n)).length = 4 * n := by
    rw [List.length_take, List.length_drop]
    omega
  rw [field, hsplit, number_append, hlen, ← cell_number hx, ← Nat.mul_assoc]
  rfl

@[simp] theorem field_zero : field v i 0 = 0 := by
  rw [field, Nat.mul_zero, List.take_zero]
  rfl

end Cells

namespace Tree

variable {t : Tree} {nodeoffset : Int} {name : String} {v : Bytes}

theorem mem_of_node (h : t.node nodeoffset = some n) :
    n ∈ t.nodes ∧ (n.offset : Int) = nodeoffset := by
  unfold node at h
  exact ⟨List.mem_of_find?_eq_some h, by simpa using List.find?_some h⟩

theorem mem_of_getprop (h : t.getprop nodeoffset name = some v) :
    ∃ n ∈ t.nodes, (name, v) ∈ n.props := by
  obtain ⟨n, hn, hv⟩ := Option.bind_eq_some_iff.mp h
  obtain ⟨l, r, hsplit, -⟩ := List.lookup_eq_some_iff.mp hv
  refine ⟨n, (mem_of_node hn).1, ?_⟩
  rw [hsplit]
  exact List.mem_append_right l List.mem_cons_self

theorem getprop_length (h : t.getprop nodeoffset name = some v) : v.length < 2 ^ 31 := by
  obtain ⟨n, hn, hv⟩ := mem_of_getprop h
  exact t.short n hn (name, v) hv

theorem parentOffset_lt (h : 0 ≤ t.parentOffset nodeoffset) :
    t.parentOffset nodeoffset < nodeoffset := by
  unfold parentOffset at h ⊢
  cases hn : t.node nodeoffset with
  | none =>
    rw [hn] at h
    exact absurd h (by decide)
  | some n =>
    rw [hn] at h
    dsimp only at h ⊢
    cases hp : n.parent with
    | none =>
      rw [hp] at h
      exact absurd h (by decide)
    | some p =>
      dsimp only
      obtain ⟨hmem, hoff⟩ := mem_of_node hn
      have hlt := (t.above n hmem p hp).1
      omega

theorem cells_cases (t : Tree) (nodeoffset : Int) (name : String) :
    t.cells nodeoffset name < 0 ∨ ∃ k ≤ FDT_MAX_NCELLS, t.cells nodeoffset name = (k : Nat) := by
  unfold cells
  split
  · exact .inl (by decide)
  · split
    · exact .inl (by decide)
    · split
      · exact .inl (by decide)
      · dsimp only
        split
        · exact .inl (by decide)
        · rename_i hle
          exact .inr ⟨_, Nat.not_lt.mp hle, rfl⟩

theorem addressCells_cases (t : Tree) (nodeoffset : Int) : t.addressCells nodeoffset < 1 ∨
    ∃ n, 1 ≤ n ∧ n ≤ FDT_MAX_NCELLS ∧ t.addressCells nodeoffset = (n : Nat) := by
  unfold addressCells
  dsimp only
  split
  · exact .inl (by decide)
  · rename_i h0
    split
    · exact .inr ⟨2, by decide, by decide, rfl⟩
    · rcases t.cells_cases nodeoffset "#address-cells" with h | ⟨k, hk, heq⟩
      · exact .inl (by omega)
      · exact .inr ⟨k, by omega, hk, heq⟩

theorem sizeCells_cases (t : Tree) (nodeoffset : Int) : t.sizeCells nodeoffset < 0 ∨
    ∃ m ≤ FDT_MAX_NCELLS, t.sizeCells nodeoffset = (m : Nat) := by
  unfold sizeCells
  dsimp only
  split
  · exact .inr ⟨1, by decide, rfl⟩
  · exact t.cells_cases nodeoffset "#size-cells"

end Tree

end Abydos.Fdt
