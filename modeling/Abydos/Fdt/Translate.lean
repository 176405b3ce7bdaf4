import Abydos.Fdt.Bounds
import Abydos.Fdt.Window

namespace Abydos.Fdt

structure Range where
  child : Nat
  parent : Nat
  size : Nat
  deriving DecidableEq

def rangesOf (v : Bytes) (n n' m : Nat) : List Range :=
  (List.range (v.length / (4 * (n + n' + m)))).map fun j =>
    let i := j * (n + n' + m)
    ⟨field v i n, field v (i + n) n', field v (i + n + n') m⟩

def Range.Contains (r : Range) (a : BitVec 64) : Prop :=
  r.child ≤ a.toNat ∧ a.toNat < r.child + r.size

instance : Decidable (Range.Contains r a) := inferInstanceAs (Decidable (_ ∧ _))

/-- The address cells of the bus above, which for the root are its own. -/
def parentCells (t : Tree) (bus : Int) : Int :=
  if t.parentOffset bus < 0 then t.addressCells bus else t.addressCells (t.parentOffset bus)

def throughBus (t : Tree) (bus : Int) (a : BitVec 64) : Option (BitVec 64) :=
  if hasRanges t bus then
    let rs := rangesOf ((t.getprop bus "ranges").getD []) (t.addressCells bus).toNat
      (parentCells t bus).toNat (t.sizeCells bus).toNat
    (rs.find? fun r => r.Contains a).map fun r => BitVec.ofNat 64 (r.parent + (a.toNat - r.child))
  else some a

def pushUp (t : Tree) : List Int → BitVec 64 → Option (BitVec 64)
  | [], a => some a
  | bus :: buses, a => (throughBus t bus a).bind (pushUp t buses)

/-- The address that is stored is in `reg` and went through all buses, and a call fails if one of
them has no window for it. -/
def Translates (t : Tree) (node index : Int) : Prop :=
  ∀ size o, let (rc, o') := (getNodeAddrSize t node index true size).run o
    (rc = 0 → ∃ parent n m v a, Found t node parent n m v ∧
      4 * (index.toNat * (n + m) + n) ≤ v.length ∧
      pushUp t (ancestors t parent) (BitVec.ofNat 64 (field v (index.toNat * (n + m)) n)) = some a ∧
      o'.addr = some a) ∧
    ∀ parent n m v, Found t node parent n m v →
      pushUp t (ancestors t parent) (BitVec.ofNat 64 (field v (index.toNat * (n + m)) n)) = none →
      rc < 0

def SmallCells (t : Tree) (bus : Int) : Prop :=
  (t.addressCells bus = 1 ∨ t.addressCells bus = 2) ∧ 0 ≤ t.sizeCells bus ∧ t.sizeCells bus ≤ 2

/-- The test that the code makes for the first entry of `ranges`. -/
def InFirst (t : Tree) (bus : Int) (b : BitVec 64) : Prop :=
  let (c, _, z) := firstRange t bus
  c ≤ b ∧ c < b + z

instance : Decidable (InFirst t bus b) := inferInstanceAs (Decidable (_ ∧ _))

/-- The windows take `a` to the root, and the first entries take `b` to the same address.  Where `b`
fails the test it is left as it is. -/
def Agrees (t : Tree) : List Int → BitVec 64 → BitVec 64 → Prop
  | [], a, b => a = b
  | bus :: buses, a, b => ∃ a', throughBus t bus a = some a' ∧
    if hasRanges t bus then
      if InFirst t bus b then
        Agrees t buses a' ((firstRange t bus).2.1 + (b - (firstRange t bus).1))
      else pushUp t buses a' = some b
    else Agrees t buses a' b

def Direct (t : Tree) : List Int → BitVec 64 → Prop
  | [], _ => True
  | bus :: buses, a =>
    if hasRanges t bus then
      let v := (t.getprop bus "ranges").getD []
      let n := (t.addressCells bus).toNat
      let m := (t.sizeCells bus).toNat
      parentCells t bus = t.addressCells bus ∧ 4 * (n + n + m) ≤ v.length ∧
        field v 0 n ≤ a.toNat ∧ a.toNat < field v 0 n + field v (n + n) m ∧
        (a.toNat + field v (n + n) m < 2 ^ 64 ∨ field v 0 n + 2 ^ 64 < a.toNat + field v (n + n) m) ∧
        Direct t buses (BitVec.ofNat 64 (field v n n + (a.toNat - field v 0 n)))
    else Direct t buses a

variable {t : Tree} {node parent bus index : Int} {n m : Nat} {v : Bytes} {a b : BitVec 64}

theorem SmallCells.hasCells (h : SmallCells t bus) : hasCells t bus := by
  obtain ⟨haddr, hsize, -⟩ := h
  exact ⟨by omega, hsize⟩

theorem find?_rangesOf (hlen : 4 * (n + n + m) ≤ v.length) (hn : 1 ≤ n)
    (hin : field v 0 n ≤ a.toNat ∧ a.toNat < field v 0 n + field v (n + n) m) :
    (rangesOf v n n m).find? (fun r => r.Contains a) =
      some ⟨field v 0 n, field v n n, field v (n + n) m⟩ := by
  have hpos : 0 < v.length / (4 * (n + n + m)) := Nat.div_pos hlen (by omega)
  obtain ⟨k, hk⟩ := Nat.exists_eq_succ_of_ne_zero (Nat.ne_of_gt hpos)
  rw [rangesOf, hk, List.range_succ_eq_map, List.map_cons]
  dsimp only
  rw [Nat.zero_mul, Nat.zero_add]
  refine List.find?_cons_of_pos ?_
  exact decide_eq_true hin

theorem direct_step (hsmall : SmallCells t bus) (h : Direct t (bus :: buses) a) :
    ∃ b, throughBus t bus a = some b ∧ translated t a bus = some b ∧ Direct t buses b := by
  by_cases hr : hasRanges t bus
  · rw [Direct, if_pos hr] at h
    obtain ⟨hcells, hlen, hle, hlt, hwrap, hrest⟩ := h
    have hv : t.getprop bus "ranges" = some ((t.getprop bus "ranges").getD []) := by
      cases hv : t.getprop bus "ranges" with
      | none =>
        rw [hasRanges, hv] at hr
        exact absurd hr (Nat.lt_irrefl 0)
      | some v => rfl
    generalize (t.getprop bus "ranges").getD [] = v at *
    obtain ⟨haddr, hsize, hsize'⟩ := hsmall
    have hfirst : FirstRange t bus (t.addressCells bus).toNat (t.sizeCells bus).toNat v :=
      ⟨by omega, by omega, by omega, hv, hlen⟩
    refine ⟨_, ?_, ?_, hrest⟩
    · rw [throughBus, if_pos hr, hv]
      dsimp only
      rw [Option.getD_some, hcells, find?_rangesOf hlen hfirst.one_le ⟨hle, hlt⟩]
      rfl
    · have hz : field v ((t.addressCells bus).toNat + (t.addressCells bus).toNat)
          (t.sizeCells bus).toNat < 2 ^ 64 := by
        refine (field_lt (by omega)).trans_le (Nat.pow_le_pow_right (by decide) (by omega))
      have hacc : Accepts a (field v 0 (t.addressCells bus).toNat)
          (field v ((t.addressCells bus).toNat + (t.addressCells bus).toNat)
            (t.sizeCells bus).toNat) := by
        rw [accepts_iff]
        have ha := a.isLt
        omega
      rw [hfirst.translated, if_pos hacc, ofNat_translated hle]
  · rw [Direct, if_neg hr] at h
    exact ⟨a, if_neg hr, by rw [translated, if_pos hsmall.hasCells, if_neg hr], h⟩

theorem direct_way {buses : List Int} (hsmall : ∀ bus ∈ buses, SmallCells t bus)
    (h : Direct t buses a) :
    ∃ b, pushUp t buses a = some b ∧ climb t buses a (some a) = some b := by
  induction buses generalizing a with
  | nil => exact ⟨a, rfl, rfl⟩
  | cons bus buses ih =>
    obtain ⟨b, hspec, hcode, hrest⟩ := direct_step (hsmall bus List.mem_cons_self) h
    obtain ⟨c, hpush, hclimb⟩ := ih (fun p hp => hsmall p (List.mem_cons_of_mem bus hp)) hrest
    refine ⟨c, ?_, ?_⟩
    · rw [pushUp, hspec, Option.bind_some, hpush]
    · rw [climb, hcode]
      exact hclimb

theorem translated_eq (hcells : hasCells t bus) (b : BitVec 64) : translated t b bus =
    if hasRanges t bus then
      if InFirst t bus b then some ((firstRange t bus).2.1 + (b - (firstRange t bus).1)) else none
    else some b := by
  have hiff : InFirst t bus b ↔
      ¬ (b < (firstRange t bus).1 ∨ (firstRange t bus).1 ≥ b + (firstRange t bus).2.2) := by
    rw [not_or, BitVec.not_lt, ge_iff_le, BitVec.not_le]
    rfl
  rw [translated, if_pos hcells]
  simp only [hiff, ite_not]

theorem agrees_iff {buses : List Int} (hsmall : ∀ bus ∈ buses, SmallCells t bus) :
    Agrees t buses a b ↔ ∃ r, pushUp t buses a = some r ∧ climb t buses b (some b) = some r := by
  induction buses generalizing a b with
  | nil => simp [Agrees, pushUp, climb, eq_comm]
  | cons bus buses ih =>
    have hrest : ∀ p ∈ buses, SmallCells t p := fun p hp => hsmall p (List.mem_cons_of_mem bus hp)
    rw [Agrees, pushUp, climb, translated_eq (hsmall bus List.mem_cons_self).hasCells]
    cases hspec : throughBus t bus a with
    | none => simp
    | some a' =>
      simp only [Option.some.injEq, Option.bind_some, exists_eq_left']
      split
      · split
        · exact ih hrest
        · simp [eq_comm]
      · exact ih hrest

theorem climb_iff {buses : List Int} (hsmall : ∀ p ∈ bus :: buses, SmallCells t p) :
    (∀ x, ∃ r, pushUp t (bus :: buses) a = some r ∧ climb t (bus :: buses) a x = some r) ↔
      (hasRanges t bus → InFirst t bus a) ∧ Agrees t (bus :: buses) a a := by
  rw [agrees_iff hsmall]
  have htr := translated_eq (hsmall bus List.mem_cons_self).hasCells a
  constructor
  · intro h
    refine ⟨fun hr => ?_, h (some a)⟩
    by_contra hout
    obtain ⟨r, -, hclimb⟩ := h none
    rw [climb, htr, if_pos hr, if_neg hout] at hclimb
    cases hclimb
  · rintro ⟨hin, r, hpush, hclimb⟩ x
    refine ⟨r, hpush, ?_⟩
    obtain ⟨b, hb⟩ : ∃ b, translated t a bus = some b := by
      rw [htr]
      split
      · next hr => exact ⟨_, if_pos (hin hr)⟩
      · exact ⟨a, rfl⟩
    rw [climb, hb] at hclimb ⊢
    exact hclimb

theorem Direct.agrees {buses : List Int} (hsmall : ∀ p ∈ bus :: buses, SmallCells t p)
    (h : Direct t (bus :: buses) a) :
    (hasRanges t bus → InFirst t bus a) ∧ Agrees t (bus :: buses) a a := by
  refine ⟨fun hr => ?_, (agrees_iff hsmall).mpr (direct_way hsmall h)⟩
  obtain ⟨b, -, hb, -⟩ := direct_step (hsmall bus List.mem_cons_self) h
  rw [translated_eq (hsmall bus List.mem_cons_self).hasCells, if_pos hr] at hb
  by_contra hout
  rw [if_neg hout] at hb
  cases hb

theorem fetched_addr (i : Nat) (size : Bool) (o : Out) :
    (fetched t node parent i n m true size o).addr =
      climb t (ancestors t parent) (loaded t node "reg" i n 0) o.addr := by
  cases size <;> rfl

theorem translates_iff (hf : Found t node parent n m v) (hindex : 0 ≤ index)
    (hpass : sizeT (firstCell index n m) < v.length / 4) : Translates t node index ↔
      4 * (index.toNat * (n + m) + n) ≤ v.length ∧
      ∀ x, ∃ b, pushUp t (ancestors t parent)
          (BitVec.ofNat 64 (field v (index.toNat * (n + m)) n)) = some b ∧
        climb t (ancestors t parent) (loaded t node "reg" (firstCell index n m).toNat n 0) x =
          some b := by
  unfold Translates
  simp only [run_getNodeAddrSize hf hindex, if_neg (Nat.not_le.mpr hpass), fetched_addr]
  constructor
  · intro h
    have hx (x : Option (BitVec 64)) := (h true ⟨[], x, none⟩).1 trivial
    refine ⟨?_, fun x => ?_⟩
    · obtain ⟨parent', n', m', v', b, hf', hin, -⟩ := hx none
      obtain ⟨rfl, rfl, rfl, rfl⟩ := hf.unique hf'
      exact hin
    · obtain ⟨parent', n', m', v', b, hf', -, hpush, haddr⟩ := hx x
      obtain ⟨rfl, rfl, rfl, rfl⟩ := hf.unique hf'
      exact ⟨b, hpush, haddr⟩
  · rintro ⟨hin, h⟩ size o
    obtain ⟨b, hpush, hclimb⟩ := h o.addr
    refine ⟨fun _ => ⟨parent, n, m, v, b, hf, hin, hpush, hclimb⟩,
      fun parent' n' m' v' hf' hnone => ?_⟩
    obtain ⟨rfl, rfl, rfl, rfl⟩ := hf.unique hf'
    cases hpush.symm.trans hnone

theorem translates_refused (h : ∀ size o, ∃ rc < 0,
    (getNodeAddrSize t node index true size).run o = (rc, o)) : Translates t node index := by
  intro size o
  obtain ⟨rc, hrc, hrun⟩ := h size o
  rw [hrun]
  exact ⟨fun h0 => absurd hrc (by omega), fun _ _ _ _ _ _ => hrc⟩

def behindBus (reg : Bytes) (h : reg.length < 2 ^ 31) : Tree where
  nodes := [⟨0, "", none, [("#address-cells", [0, 0, 0, 1]), ("#size-cells", [0, 0, 0, 1])]⟩,
    ⟨8, "soc", some 0, [("#address-cells", [0, 0, 0, 1]), ("#size-cells", [0, 0, 0, 1]),
      ("ranges", window)]⟩,
    ⟨64, "uart", some 8, [("reg", reg)]⟩]
  inOrder := by simp
  above := by simp
  short := by
    simp only [List.forall_mem_cons]
    exact ⟨⟨by decide, by decide, nofun⟩, ⟨by decide, by decide, by decide, nofun⟩, ⟨h, nofun⟩,
      nofun⟩
  memRsv := []
  beyond := fun _ _ _ => 0

def inWindow : Bytes := [0, 0, 0x18, 0, 0, 0, 0, 0x10]

def belowWindow : Bytes := [0, 0, 0x1, 0, 0, 0, 0, 0x10]

end Abydos.Fdt
