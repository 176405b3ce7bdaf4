import Abydos.Defs
import Abydos.Fdt.Libfdt

namespace Abydos.Fdt

structure Cell where
  node : Int
  prop : String
  index : Nat
  deriving DecidableEq

def Inside (t : Tree) (c : Cell) : Prop :=
  ∃ v, t.getprop c.node c.prop = some v ∧ 4 * (c.index + 1) ≤ v.length

/-- The cells that were read, and what was stored through the pointers `addr` and `size`. -/
structure Out where
  reads : List Cell
  addr : Option (BitVec 64)
  size : Option (BitVec 64)
  deriving DecidableEq

def Out.start : Out := ⟨[], none, none⟩

abbrev FdtM := StateM Out

def sizeT (x : Int) : Nat := (x % 2 ^ 64).toNat

section Functions

variable (t : Tree)

def peek (node : Int) (prop : String) (i : Nat) : BitVec 32 :=
  ((t.getprop node prop).bind fun v => cellAt v i).getD (t.beyond node prop i)

def readCell (node : Int) (prop : String) (i : Nat) : FdtM (BitVec 32) := do
  modify fun o => { o with reads := o.reads ++ [⟨node, prop, i⟩] }
  return peek t node prop i

def loadCells (node : Int) (prop : String) : Nat → Nat → BitVec 64 → FdtM (BitVec 64)
  | _, 0, x => return x
  | i, n + 1, x => do
    let c ← readCell t node prop i
    loadCells node prop (i + 1) n (x <<< 32 ||| c.setWidth 64)

def storeAddr (x : BitVec 64) : FdtM Unit := modify fun o => { o with addr := some x }

def storeSize (x : BitVec 64) : FdtM Unit := modify fun o => { o with size := some x }

def translateAddress (reg : BitVec 64) (parent : Int) : FdtM Int :=
  let cellAddr := t.addressCells parent
  if cellAddr < 1 then return K_ENODEV
  else
    let cellSize := t.sizeCells parent
    if cellSize < 0 then return K_ENODEV
    else
      if 0 < ((t.getprop parent "ranges").getD []).length then do
        let caddr ← loadCells t parent "ranges" 0 cellAddr.toNat 0
        let paddr ← loadCells t parent "ranges" cellAddr.toNat cellAddr.toNat 0
        let rsize ← loadCells t parent "ranges" (cellAddr.toNat + cellAddr.toNat) cellSize.toNat 0
        if reg < caddr ∨ caddr ≥ reg + rsize then return K_ENODEV
        else do
          let offset := reg - caddr
          storeAddr (paddr + offset)
          return 0
      else do
        storeAddr reg
        return 0

/-- The loop from a bus to the root.  An ancestor comes before its node, so that `parent + 1` rounds
are enough. -/
def translateLoop : Nat → Int → BitVec 64 → FdtM Unit
  | 0, _, _ => return
  | fuel + 1, parent, temp =>
    if parent < 0 then return
    else do
      let rc ← translateAddress t temp parent
      if rc ≠ 0 then return
      else do
        let o ← get
        translateLoop fuel (t.parentOffset parent) (o.addr.getD temp)

def getNodeAddrSize (node index : Int) (addr size : Bool) : FdtM Int :=
  if node < 0 ∨ index < 0 then return K_EINVAL
  else
    let parent := t.parentOffset node
    if parent < 0 then return parent
    else
      let cellAddr := t.addressCells parent
      if cellAddr < 1 then return K_ENODEV
      else
        let cellSize := t.sizeCells parent
        if cellSize < 0 then return K_ENODEV
        else
          match t.getprop node "reg" with
          | none => return K_ENODEV
          | some reg =>
            -- an `int` product
            let first := (index * (cellAddr + cellSize)).bmod (2 ^ 32)
            if reg.length / 4 ≤ sizeT first then return K_EINVAL
            else do
              if addr then do
                let temp ← loadCells t node "reg" first.toNat cellAddr.toNat 0
                translateLoop t (parent.toNat + 1) parent temp
              if size then do
                let temp ← loadCells t node "reg" (first.toNat + cellAddr.toNat) cellSize.toNat 0
                storeSize temp
              return 0

def loaded (node : Int) (prop : String) : Nat → Nat → BitVec 64 → BitVec 64
  | _, 0, x => x
  | i, n + 1, x => loaded node prop (i + 1) n (x <<< 32 ||| (peek t node prop i).setWidth 64)

end Functions

def span (node : Int) (prop : String) (i n : Nat) : List Cell :=
  (List.range' i n).map fun j => ⟨node, prop, j⟩

variable {t : Tree} {node parent index : Int} {prop : String} {i n m : Nat} {x reg temp : BitVec 64}
  {o : Out} {v : Bytes}

theorem mem_span {c : Cell} (hc : c ∈ span node prop i n) : c.node = node ∧ c.prop = prop := by
  obtain ⟨j, -, rfl⟩ := List.mem_map.mp hc
  exact ⟨rfl, rfl⟩

theorem inside_of_span {c : Cell} (hv : t.getprop node prop = some v) (h : 4 * (i + n) ≤ v.length)
    (hc : c ∈ span node prop i n) : Inside t c := by
  obtain ⟨j, hj, rfl⟩ := List.mem_map.mp hc
  rw [List.mem_range'_1] at hj
  exact ⟨v, hv, show 4 * (j + 1) ≤ v.length by omega⟩

section Load

theorem run_bind {σ α β : Type} {s s' : σ} {a : α} {x : StateM σ α} {f : α → StateM σ β}
    (h : x.run s = (a, s')) : (x >>= f).run s = (f a).run s' := by
  change (match x.run s with | (a, s') => (f a).run s') = _
  rw [h]

theorem run_loadCells (t : Tree) (node : Int) (prop : String) (i n : Nat) (x : BitVec 64)
    (o : Out) :
    (loadCells t node prop i n x).run o =
      (loaded t node prop i n x, { o with reads := o.reads ++ span node prop i n }) := by
  induction n generalizing i x o with
  | zero =>
    rw [loadCells, span, List.range'_zero, List.map_nil, List.append_nil]
    rfl
  | succ n ih =>
    refine (ih (i + 1) _ { o with reads := o.reads ++ [⟨node, prop, i⟩] }).trans ?_
    rw [loaded, span, span, List.range'_succ, List.map_cons, List.append_assoc]
    rfl

theorem shift_or (y : Nat) (c : BitVec 32) :
    BitVec.ofNat 64 y <<< 32 ||| c.setWidth 64 = BitVec.ofNat 64 (y * 2 ^ 32 + c.toNat) := by
  refine BitVec.eq_of_toNat_eq ?_
  have hc := c.isLt
  have hhigh : (y % 2 ^ 64) <<< 32 % 2 ^ 64 = (y % 2 ^ 32) <<< 32 := by
    rw [Nat.shiftLeft_eq, Nat.shiftLeft_eq]
    omega
  rw [BitVec.toNat_or, BitVec.toNat_shiftLeft, BitVec.toNat_ofNat, BitVec.toNat_setWidth,
    BitVec.toNat_ofNat, Nat.mod_eq_of_lt (show c.toNat < 2 ^ 64 by omega), hhigh,
    ← Nat.shiftLeft_add_eq_or_of_lt hc, Nat.shiftLeft_eq]
  omega

theorem loaded_eq (hv : t.getprop node prop = some v) (h : 4 * (i + n) ≤ v.length) (y : Nat) :
    loaded t node prop i n (BitVec.ofNat 64 y) =
      BitVec.ofNat 64 (y * 2 ^ (32 * n) + field v i n) := by
  induction n generalizing i y with
  | zero => rw [loaded, field_zero, Nat.mul_zero, Nat.pow_zero, Nat.mul_one, Nat.add_zero]
  | succ n ih =>
    obtain ⟨c, hc⟩ := Option.isSome_iff_exists.mp (cellAt_isSome.mpr
      (show 4 * (i + 1) ≤ v.length by omega))
    have hpeek : peek t node prop i = c := by
      rw [peek, hv, Option.bind_some, hc, Option.getD_some]
    have hpow : 2 ^ (32 * (n + 1)) = 2 ^ 32 * 2 ^ (32 * n) := by
      rw [← Nat.pow_add]
      congr 1
      omega
    rw [loaded, hpeek, shift_or, ih (by omega), field_succ h hc, hpow, Nat.add_mul, Nat.mul_assoc,
      Nat.add_assoc]

end Load

section Bus

/-- The first entry of `ranges`, read with the cells of the bus alone. -/
def firstRange (t : Tree) (parent : Int) : BitVec 64 × BitVec 64 × BitVec 64 :=
  let n := (t.addressCells parent).toNat
  (loaded t parent "ranges" 0 n 0, loaded t parent "ranges" n n 0,
    loaded t parent "ranges" (n + n) (t.sizeCells parent).toNat 0)

def hasCells (t : Tree) (parent : Int) : Prop :=
  1 ≤ t.addressCells parent ∧ 0 ≤ t.sizeCells parent

instance : Decidable (hasCells t parent) := inferInstanceAs (Decidable (_ ∧ _))

def hasRanges (t : Tree) (parent : Int) : Prop := 0 < ((t.getprop parent "ranges").getD []).length

instance : Decidable (hasRanges t parent) := inferInstanceAs (Decidable (_ < _))

def translated (t : Tree) (reg : BitVec 64) (parent : Int) : Option (BitVec 64) :=
  if hasCells t parent then
    if hasRanges t parent then
      let (caddr, paddr, rsize) := firstRange t parent
      if reg < caddr ∨ caddr ≥ reg + rsize then none else some (paddr + (reg - caddr))
    else some reg
  else none

def rangeCells (t : Tree) (parent : Int) : List Cell :=
  if hasCells t parent ∧ hasRanges t parent then
    let n := (t.addressCells parent).toNat
    span parent "ranges" 0 (n + n + (t.sizeCells parent).toNat)
  else []

theorem span_append (node : Int) (prop : String) (i n m : Nat) :
    span node prop i n ++ span node prop (i + n) m = span node prop i (n + m) := by
  rw [span, span, span, ← List.map_append, ← List.range'_append_1]

def settle (o : Out) (reads : List Cell) : Option (BitVec 64) → Int × Out
  | none => (K_ENODEV, { o with reads := o.reads ++ reads })
  | some a => (0, { o with reads := o.reads ++ reads, addr := some a })

theorem run_translateAddress (t : Tree) (reg : BitVec 64) (parent : Int) (o : Out) :
    (translateAddress t reg parent).run o =
      settle o (rangeCells t parent) (translated t reg parent) := by
  unfold translateAddress
  by_cases hcells : hasCells t parent
  · rw [if_neg (Int.not_lt.mpr hcells.1), if_neg (Int.not_lt.mpr hcells.2)]
    by_cases hranges : hasRanges t parent
    · have hreads : rangeCells t parent = span parent "ranges" 0
          ((t.addressCells parent).toNat + (t.addressCells parent).toNat +
            (t.sizeCells parent).toNat) := if_pos ⟨hcells, hranges⟩
      rw [hreads, translated, if_pos hcells, if_pos hranges, ← span_append, ← span_append,
        if_pos (show 0 < _ from hranges)]
      refine (run_bind (run_loadCells ..)).trans ((run_bind (run_loadCells ..)).trans
        ((run_bind (run_loadCells ..)).trans ?_))
      dsimp only [firstRange]
      simp only [List.append_assoc, Nat.zero_add]
      split <;> rfl
    · have hreads : rangeCells t parent = [] := if_neg fun h => hranges h.2
      have htr : translated t reg parent = some reg := by
        rw [translated, if_pos hcells, if_neg hranges]
      rw [hreads, htr, settle, List.append_nil, if_neg (show ¬ 0 < _ from hranges)]
      rfl
  · have hreads : rangeCells t parent = [] := if_neg fun h => hcells h.1
    have htr : translated t reg parent = none := if_neg hcells
    rw [hreads, htr, settle, List.append_nil]
    by_cases haddr : t.addressCells parent < 1
    · rw [if_pos haddr]
      rfl
    · have hsize : t.sizeCells parent < 0 :=
        Int.not_le.mp fun h => hcells ⟨Int.not_lt.mp haddr, h⟩
      rw [if_neg haddr, if_pos hsize]
      rfl

end Bus

section Climb

def ancestorsWithin (t : Tree) : Nat → Int → List Int
  | 0, _ => []
  | fuel + 1, parent =>
    if parent < 0 then [] else parent :: ancestorsWithin t fuel (t.parentOffset parent)

def ancestors (t : Tree) (parent : Int) : List Int := ancestorsWithin t (parent.toNat + 1) parent

def climb (t : Tree) : List Int → BitVec 64 → Option (BitVec 64) → Option (BitVec 64)
  | [], _, a => a
  | p :: ps, temp, a =>
    match translated t temp p with
    | none => a
    | some b => climb t ps b (some b)

def climbCells (t : Tree) : List Int → BitVec 64 → List Cell
  | [], _ => []
  | p :: ps, temp => rangeCells t p ++
    match translated t temp p with
    | none => []
    | some b => climbCells t ps b

theorem ancestorsWithin_neg (h : parent < 0) (fuel : Nat) : ancestorsWithin t fuel parent = [] := by
  cases fuel with
  | zero => rfl
  | succ fuel => exact if_pos h

theorem ancestorsWithin_congr {k k' : Nat} (h : parent.toNat < k) (h' : parent.toNat < k') :
    ancestorsWithin t k parent = ancestorsWithin t k' parent := by
  induction k generalizing k' parent with
  | zero => exact absurd h (Nat.not_lt_zero _)
  | succ k ih =>
    cases k' with
    | zero => exact absurd h' (Nat.not_lt_zero _)
    | succ k' =>
      by_cases hneg : parent < 0
      · rw [ancestorsWithin_neg hneg, ancestorsWithin_neg hneg]
      · rw [ancestorsWithin, ancestorsWithin, if_neg hneg, if_neg hneg]
        refine congrArg (List.cons parent) ?_
        by_cases hp : t.parentOffset parent < 0
        · rw [ancestorsWithin_neg hp, ancestorsWithin_neg hp]
        · have hlt := Tree.parentOffset_lt (Int.not_lt.mp hp)
          exact ih (by omega) (by omega)

theorem ancestors_neg (h : parent < 0) : ancestors t parent = [] := ancestorsWithin_neg h _

theorem ancestors_cons (h : 0 ≤ parent) :
    ancestors t parent = parent :: ancestors t (t.parentOffset parent) := by
  rw [ancestors, ancestorsWithin, if_neg (Int.not_lt.mpr h)]
  refine congrArg (List.cons parent) ?_
  by_cases hp : t.parentOffset parent < 0
  · rw [ancestors_neg hp, ancestorsWithin_neg hp]
  · have hlt := Tree.parentOffset_lt (Int.not_lt.mp hp)
    exact ancestorsWithin_congr (by omega) (by omega)

theorem run_translateLoop (t : Tree) (fuel : Nat) (parent : Int) (temp : BitVec 64) (o : Out) :
    (translateLoop t fuel parent temp).run o =
      ((), { o with reads := o.reads ++ climbCells t (ancestorsWithin t fuel parent) temp
                    addr := climb t (ancestorsWithin t fuel parent) temp o.addr }) := by
  induction fuel generalizing parent temp o with
  | zero =>
    rw [ancestorsWithin, climbCells, climb, List.append_nil]
    rfl
  | succ fuel ih =>
    rw [translateLoop, ancestorsWithin]
    by_cases hneg : parent < 0
    · rw [if_pos hneg, if_pos hneg, climbCells, climb, List.append_nil]
      rfl
    · rw [if_neg hneg, if_neg hneg, climbCells, climb]
      have hrun := run_translateAddress t temp parent o
      cases htr : translated t temp parent with
      | none =>
        rw [htr, settle] at hrun
        refine (run_bind hrun).trans ?_
        rw [if_pos (by decide), List.append_nil]
        rfl
      | some b =>
        rw [htr, settle] at hrun
        refine (run_bind hrun).trans ?_
        rw [if_neg (by decide)]
        refine (ih ..).trans ?_
        dsimp only [Option.getD_some]
        rw [List.append_assoc]

end Climb

section Entry

structure Found (t : Tree) (node : Int) (parent : Int) (n m : Nat) (v : Bytes) : Prop where
  node_nonneg : 0 ≤ node
  parent_eq : t.parentOffset node = parent
  parent_nonneg : 0 ≤ parent
  addressCells : t.addressCells parent = n
  one_le : 1 ≤ n
  n_le : n ≤ FDT_MAX_NCELLS
  sizeCells : t.sizeCells parent = m
  m_le : m ≤ FDT_MAX_NCELLS
  reg : t.getprop node "reg" = some v

def firstCell (index : Int) (n m : Nat) : Int := (index * (n + m)).bmod (2 ^ 32)

def fetched (t : Tree) (node parent : Int) (i n m : Nat) (addr size : Bool) (o : Out) : Out :=
  let temp := loaded t node "reg" i n 0
  let o := if addr then
      { o with reads := o.reads ++ span node "reg" i n ++ climbCells t (ancestors t parent) temp
               addr := climb t (ancestors t parent) temp o.addr }
    else o
  if size then
    { o with reads := o.reads ++ span node "reg" (i + n) m
             size := some (loaded t node "reg" (i + n) m 0) }
  else o

theorem getNodeAddrSize_cases (t : Tree) (node index : Int) :
    (∃ rc < 0, ∀ addr size o, (getNodeAddrSize t node index addr size).run o = (rc, o)) ∨
    ∃ parent n m v, Found t node parent n m v ∧ 0 ≤ index := by
  unfold getNodeAddrSize
  by_cases hneg : node < 0 ∨ index < 0
  · refine .inl ⟨K_EINVAL, by decide, fun _ _ _ => ?_⟩
    rw [if_pos hneg]
    rfl
  by_cases hparent : t.parentOffset node < 0
  · refine .inl ⟨_, hparent, fun _ _ _ => ?_⟩
    simp only [if_neg hneg, if_pos hparent]
    rfl
  rcases t.addressCells_cases (t.parentOffset node) with haddr | ⟨n, hone, hn, haddr⟩
  · refine .inl ⟨K_ENODEV, by decide, fun _ _ _ => ?_⟩
    simp only [if_neg hneg, if_neg hparent, if_pos haddr]
    rfl
  have hnaddr : ¬ t.addressCells (t.parentOffset node) < 1 := by omega
  rcases t.sizeCells_cases (t.parentOffset node) with hsize | ⟨m, hm, hsize⟩
  · refine .inl ⟨K_ENODEV, by decide, fun _ _ _ => ?_⟩
    simp only [if_neg hneg, if_neg hparent, if_neg hnaddr, if_pos hsize]
    rfl
  have hnsize : ¬ t.sizeCells (t.parentOffset node) < 0 := by omega
  cases hreg : t.getprop node "reg" with
  | none =>
    refine .inl ⟨K_ENODEV, by decide, fun _ _ _ => ?_⟩
    simp only [if_neg hneg, if_neg hparent, if_neg hnaddr, if_neg hnsize]
    rfl
  | some v =>
    obtain ⟨hnode, hindex⟩ := not_or.mp hneg
    have hfound : Found t node (t.parentOffset node) n m v :=
      ⟨Int.not_lt.mp hnode, rfl, Int.not_lt.mp hparent, haddr, hone, hn, hsize, hm, hreg⟩
    exact .inr ⟨_, n, m, v, hfound, Int.not_lt.mp hindex⟩

theorem run_getNodeAddrSize (h : Found t node parent n m v) (hindex : 0 ≤ index)
    (addr size : Bool) (o : Out) :
    (getNodeAddrSize t node index addr size).run o =
      if v.length / 4 ≤ sizeT (firstCell index n m) then (K_EINVAL, o)
      else (0, fetched t node parent (firstCell index n m).toNat n m addr size o) := by
  have hparent := Int.not_lt.mpr h.parent_nonneg
  have hn : ¬ (n : Int) < 1 := Int.not_lt.mpr (by exact_mod_cast h.one_le)
  have hm : ¬ (m : Int) < 0 := Int.not_lt.mpr (Int.natCast_nonneg m)
  unfold getNodeAddrSize
  rw [if_neg (not_or.mpr ⟨Int.not_lt.mpr h.node_nonneg, Int.not_lt.mpr hindex⟩)]
  dsimp only
  rw [h.parent_eq, if_neg hparent, h.addressCells, if_neg hn, h.sizeCells, if_neg hm, h.reg]
  dsimp only
  rw [← firstCell]
  by_cases hlen : v.length / 4 ≤ sizeT (firstCell index n m)
  · rw [if_pos hlen, if_pos hlen]
    rfl
  · rw [if_neg hlen, if_neg hlen]
    have hsize : ∀ o, (do
        let temp ← loadCells t node "reg" ((firstCell index n m).toNat + n) m 0
        storeSize temp
        return 0 : FdtM Int).run o =
        (0, { o with reads := o.reads ++ span node "reg" ((firstCell index n m).toNat + n) m
                     size := some (loaded t node "reg" ((firstCell index n m).toNat + n) m 0) }) :=
      fun o => run_bind (run_loadCells ..)
    have haddr : ∀ (f : FdtM Int) o, (do
        let temp ← loadCells t node "reg" (firstCell index n m).toNat n 0
        translateLoop t (parent.toNat + 1) parent temp
        f : FdtM Int).run o = f.run
          { o with reads := o.reads ++ span node "reg" (firstCell index n m).toNat n ++
                     climbCells t (ancestors t parent)
                       (loaded t node "reg" (firstCell index n m).toNat n 0)
                   addr := climb t (ancestors t parent)
                       (loaded t node "reg" (firstCell index n m).toNat n 0) o.addr } :=
      fun f o => (run_bind (run_loadCells ..)).trans (run_bind (run_translateLoop ..))
    unfold fetched
    cases addr <;> cases size
    · rfl
    · exact hsize o
    · exact haddr (pure 0) o
    · exact (haddr _ o).trans (hsize _)

end Entry

end Abydos.Fdt
