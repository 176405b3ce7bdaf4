import Abydos.Fdt.Helper

namespace Abydos.Fdt

def Complete (v : Bytes) (index : Int) (k : Nat) : Prop := 4 * ((index.toNat + 1) * k) ≤ v.length

def RangeComplete (t : Tree) (parent : Int) : Prop :=
  hasCells t parent → hasRanges t parent →
    4 * ((t.addressCells parent).toNat + (t.addressCells parent).toNat +
      (t.sizeCells parent).toNat) ≤ ((t.getprop parent "ranges").getD []).length

def reached (t : Tree) : List Int → BitVec 64 → List Int
  | [], _ => []
  | p :: ps, temp => p ::
    match translated t temp p with
    | none => []
    | some b => reached t ps b

/-- A call reads what is in the properties, and fails without a complete entry. -/
def ReadsComplete (t : Tree) (node index : Int) : Prop :=
  ∀ addr size o, let (rc, o') := (getNodeAddrSize t node index addr size).run o
    (∃ cs, o'.reads = o.reads ++ cs ∧ ∀ c ∈ cs, Inside t c ∧
      (c.node = node ∧ c.prop = "reg" ∨
        c.node ∈ ancestors t (t.parentOffset node) ∧ c.prop = "ranges")) ∧
    (0 ≤ rc → ∃ parent n m v, Found t node parent n m v ∧ Complete v index (n + m))

variable {t : Tree} {node parent index : Int} {n m : Nat} {v : Bytes}

theorem inside_span {prop : String} {i n : Nat} (hv : t.getprop node prop = some v) (hn : 0 < n) :
    (∀ c ∈ span node prop i n, Inside t c) ↔ 4 * (i + n) ≤ v.length := by
  refine ⟨fun h => ?_, fun h c => inside_of_span hv h⟩
  have hmem : (⟨node, prop, i + n - 1⟩ : Cell) ∈ span node prop i n :=
    List.mem_map.mpr ⟨i + n - 1, List.mem_range'_1.mpr (by omega), rfl⟩
  obtain ⟨w, hw, hlen⟩ := h _ hmem
  cases hv.symm.trans hw
  dsimp only at hlen
  omega

theorem inside_rangeCells (parent : Int) :
    (∀ c ∈ rangeCells t parent, Inside t c) ↔ RangeComplete t parent := by
  unfold rangeCells RangeComplete
  by_cases h : hasCells t parent ∧ hasRanges t parent
  · have hpos := h.1.1
    cases hv : t.getprop parent "ranges" with
    | none =>
      have hlen := h.2
      rw [hasRanges, hv] at hlen
      exact absurd hlen (Nat.lt_irrefl 0)
    | some v =>
      rw [if_pos h, inside_span hv (by omega), Nat.zero_add, Option.getD_some]
      exact ⟨fun hlen _ _ => hlen, fun hlen => hlen h.1 h.2⟩
  · rw [if_neg h]
    exact iff_of_true (fun _ hc => absurd hc List.not_mem_nil) fun hc hr => absurd ⟨hc, hr⟩ h

theorem climbCells_eq (t : Tree) (ps : List Int) (temp : BitVec 64) :
    climbCells t ps temp = (reached t ps temp).flatMap (rangeCells t) := by
  induction ps generalizing temp with
  | nil => rfl
  | cons p ps ih =>
    rw [climbCells, reached, List.flatMap_cons]
    cases translated t temp p with
    | none => rfl
    | some b =>
      dsimp only
      rw [ih]

theorem reached_subset (ps : List Int) (temp : BitVec 64) : ∀ p ∈ reached t ps temp, p ∈ ps := by
  induction ps generalizing temp with
  | nil => exact fun p hp => hp
  | cons q ps ih =>
    intro p hp
    rw [reached] at hp
    rcases List.mem_cons.mp hp with rfl | hp
    · exact List.mem_cons_self
    · cases htr : translated t temp q with
      | none =>
        rw [htr] at hp
        cases hp
      | some b =>
        rw [htr] at hp
        exact List.mem_cons_of_mem q (ih b p hp)

theorem inside_climbCells (ps : List Int) (temp : BitVec 64) :
    (∀ c ∈ climbCells t ps temp, Inside t c) ↔ ∀ p ∈ reached t ps temp, RangeComplete t p := by
  simp only [climbCells_eq, List.mem_flatMap, ← inside_rangeCells]
  exact ⟨fun h p hp c hc => h c ⟨p, hp, hc⟩, fun h c ⟨p, hp, hc⟩ => h p hp c hc⟩

theorem complete_iff {k : Nat} : Complete v index k ↔ 4 * (index.toNat * k + k) ≤ v.length := by
  rw [Complete, Nat.add_mul, Nat.one_mul]

theorem firstCell_eq (hindex : 0 ≤ index) (h : 4 * (index.toNat * (n + m)) ≤ v.length)
    (hlen : v.length < 2 ^ 31) : firstCell index n m = (index.toNat * (n + m) : Nat) := by
  have hcast : index * (n + m) = (index.toNat * (n + m) : Nat) := by
    rw [Nat.cast_mul, Int.toNat_of_nonneg hindex, Nat.cast_add]
  rw [firstCell, hcast]
  exact Int.bmod_eq_of_le (by omega) (by omega)

theorem Found.unique {parent' : Int} {n' m' : Nat} {v' : Bytes} (h : Found t node parent n m v)
    (h' : Found t node parent' n' m' v') : parent = parent' ∧ n = n' ∧ m = m' ∧ v = v' := by
  have hparent := h.parent_eq.symm.trans h'.parent_eq
  subst hparent
  exact ⟨rfl, Int.ofNat.inj (h.addressCells.symm.trans h'.addressCells),
    Int.ofNat.inj (h.sizeCells.symm.trans h'.sizeCells), Option.some.inj (h.reg.symm.trans h'.reg)⟩

theorem sizeT_natCast {k : Nat} (h : k < 2 ^ 64) : sizeT k = k := by
  unfold sizeT
  omega

theorem fetched_reads (addr size : Bool) (i : Nat) (o : Out) :
    (fetched t node parent i n m addr size o).reads = o.reads ++
      ((if addr then span node "reg" i n ++ climbCells t (ancestors t parent)
          (loaded t node "reg" i n 0) else []) ++
        if size then span node "reg" (i + n) m else []) := by
  unfold fetched
  cases addr <;> cases size <;> simp

theorem mem_rangeCells {c : Cell} {p : Int} (hc : c ∈ rangeCells t p) :
    c.node = p ∧ c.prop = "ranges" := by
  unfold rangeCells at hc
  split at hc
  · exact mem_span hc
  · cases hc

theorem mem_climbCells {c : Cell} {ps : List Int} {temp : BitVec 64}
    (hc : c ∈ climbCells t ps temp) : c.node ∈ ps ∧ c.prop = "ranges" := by
  rw [climbCells_eq] at hc
  obtain ⟨p, hp, hc⟩ := List.mem_flatMap.mp hc
  obtain ⟨hnode, hprop⟩ := mem_rangeCells hc
  exact ⟨hnode ▸ reached_subset ps temp p hp, hprop⟩

theorem loaded_field (h : Found t node parent n m v) {i k : Nat} (hle : 4 * (i + k) ≤ v.length) :
    loaded t node "reg" i k 0 = BitVec.ofNat 64 (field v i k) := by
  have hload := loaded_eq h.reg hle 0
  rw [Nat.zero_mul, Nat.zero_add] at hload
  exact hload

theorem fetched_complete (hf : Found t node parent n m v) (hindex : 0 ≤ index)
    (hcomp : Complete v index (n + m)) (addr size : Bool) (o : Out) :
    (fetched t node parent (firstCell index n m).toNat n m addr size o).reads = o.reads ++
      ((if addr then span node "reg" (index.toNat * (n + m)) n ++ climbCells t (ancestors t parent)
          (BitVec.ofNat 64 (field v (index.toNat * (n + m)) n)) else []) ++
        if size then span node "reg" (index.toNat * (n + m) + n) m else []) := by
  rw [complete_iff] at hcomp
  have hfirst := firstCell_eq hindex (show 4 * (index.toNat * (n + m)) ≤ v.length by omega)
    (Tree.getprop_length hf.reg)
  rw [fetched_reads, hfirst, Int.toNat_natCast, loaded_field hf (by omega)]

theorem readsComplete_iff (t : Tree) (node index : Int) : ReadsComplete t node index ↔
    ∀ parent n m v, Found t node parent n m v → 0 ≤ index →
      sizeT (firstCell index n m) < v.length / 4 → Complete v index (n + m) ∧
        ∀ p ∈ reached t (ancestors t parent)
          (BitVec.ofNat 64 (field v (index.toNat * (n + m)) n)), RangeComplete t p := by
  constructor
  · intro hreads parent n m v hf hindex hpass
    have hall := hreads true true .start
    rw [run_getNodeAddrSize hf hindex, if_neg (Nat.not_le.mpr hpass)] at hall
    obtain ⟨⟨cs, hcs, hin⟩, hrc⟩ := hall
    obtain ⟨parent', n', m', v', hf', hcomp⟩ := hrc (Int.le_refl 0)
    obtain ⟨-, rfl, rfl, rfl⟩ := hf.unique hf'
    refine ⟨hcomp, (inside_climbCells _ _).mp fun c hc => (hin c ?_).1⟩
    rw [fetched_complete hf hindex hcomp, List.append_cancel_left_eq, if_pos rfl] at hcs
    rw [← hcs]
    exact List.mem_append_left _ (List.mem_append_right _ hc)
  · intro hcond addr size o
    have hnothing : ∃ cs, o.reads = o.reads ++ cs ∧ ∀ c ∈ cs, Inside t c ∧
        (c.node = node ∧ c.prop = "reg" ∨
          c.node ∈ ancestors t (t.parentOffset node) ∧ c.prop = "ranges") :=
      ⟨[], (List.append_nil _).symm, fun _ hc => absurd hc List.not_mem_nil⟩
    rcases getNodeAddrSize_cases t node index with ⟨rc, hrc, hrun⟩ | ⟨parent, n, m, v, hf, hindex⟩
    · rw [hrun]
      exact ⟨hnothing, fun h => absurd hrc (Int.not_lt.mpr h)⟩
    · rw [run_getNodeAddrSize hf hindex]
      by_cases hpass : v.length / 4 ≤ sizeT (firstCell index n m)
      · rw [if_pos hpass]
        exact ⟨hnothing, fun h => absurd h (by decide)⟩
      · rw [if_neg hpass]
        obtain ⟨hcomp, hreached⟩ := hcond parent n m v hf hindex (Nat.not_le.mp hpass)
        refine ⟨⟨_, fetched_complete hf hindex hcomp addr size o, fun c hc => ?_⟩,
          fun _ => ⟨parent, n, m, v, hf, hcomp⟩⟩
        rw [complete_iff] at hcomp
        rcases List.mem_append.mp hc with hc | hc
        · cases addr with
          | false => cases hc
          | true =>
            rcases List.mem_append.mp hc with hc | hc
            · exact ⟨inside_of_span hf.reg (by omega) hc, .inl (mem_span hc)⟩
            · refine ⟨(inside_climbCells _ _).mpr hreached c hc, .inr ?_⟩
              exact hf.parent_eq ▸ mem_climbCells hc
        · cases size with
          | false => cases hc
          | true => exact ⟨inside_of_span hf.reg (by omega) hc, .inl (mem_span hc)⟩

end Abydos.Fdt
