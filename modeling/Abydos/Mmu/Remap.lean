import Abydos.Mmu.Undo

namespace Abydos.Mmu

open Abydos.Lib Abydos.Lib.Radix

variable {m : Mode} {σ σ' σ₀ σ₁ : State} {v p s va p' : Addr} {prot' : BitVec 32} {e : Pte}
  {q : Request} {qs : List Request}

/-- `unmap` succeeds and removes the range and nothing else, and mapping the range again succeeds
and translates as requested. -/
def Undoes (m : Mode) (σ : State) (v s p' : Addr) (prot' : BitVec 32) : Prop :=
  ∃ σ₁ σ₂, (m.unmap v s).exec σ = (.ok 0, σ₁) ∧
    (∀ va, InRange v s va → σ₁.translate m va = none) ∧
    (∀ va, ¬ InRange v s va → σ₁.translate m va = σ.translate m va) ∧
    (m.map v p' s prot').exec σ₁ = (.ok 0, σ₂) ∧
    ∀ va, InRange v s va → σ₂.translate m va = some (Request.translation ⟨v, p', s, prot'⟩ va)

/-- The range and both frames suit the root, or the bits of the old leaves do no harm. -/
def Undoable (m : Mode) (q : Request) (p' : Addr) (prot' : BitVec 32) : Prop :=
  2 ^ m.shift 0 ∣ q.vaddr.toNat ∧ 2 ^ m.shift 0 ∣ q.size.toNat ∧
    p'.toNat + q.size.toNat ≤ 2 ^ 56 ∧
    (2 ^ m.shift 0 ∣ q.paddr.toNat → 2 ^ m.shift 0 ∣ p'.toNat ∨
      (q.prot &&& PROT_R = 0 ∧ q.prot &&& PROT_U = 0 ∧
        (q.prot &&& PROT_G ≠ 0 → prot' &&& PROT_G ≠ 0)))

theorem Request.Args.unmapArgs (h : q.Args) : UnmapArgs q.vaddr q.size :=
  ⟨h.1, h.2.2.1, h.2.2.2.1⟩

theorem UnmapArgs.tiles (h : UnmapArgs v s) : Tiles Block.start Block.len v.toNat
    (v.toNat + s.toNat) (m.plan (s.toNat / 4096) s.toNat v v) :=
  Mode.plan_tiles h.1 h.1 h.2.1 (Nat.le_refl _) h.2.2

theorem plan_low (hv : 2 ^ m.shift 0 ∣ v.toNat) (hp : ¬ 2 ^ m.shift 0 ∣ p.toNat) {b : Block m}
    (hb : b ∈ m.plan n room v p) : b.level ≠ 0 := by
  intro h0
  apply hp
  have hbv := b.va_dvd
  have hbp := b.pa_dvd
  have hoff : (b.pa - b.va).toNat = (p - v).toNat := congrArg BitVec.toNat (Mode.plan_offset hb)
  rw [BitVec.toNat_sub, BitVec.toNat_sub] at hoff
  rw [h0] at hbv hbp
  have := b.va.isLt
  have := b.pa.isLt
  have := v.isLt
  have := p.isLt
  unfold Mode.shift at hbv hbp hv ⊢
  cases m <;> simp only [Mode.getMaxLevel, Nat.reduceSub, Nat.reduceMul, Nat.reduceAdd] at * <;>
    omega

section Served

variable (hserved : Served m qs σ₀ σ) (hq : q ∈ qs) (hhalf : m.InHalf q.vaddr q.size)
  (hargs : q.Args)

include hserved hq

theorem root_leaf_bits (hva : q.Mem va) (hs : σ.slots 0 (m.key va 0) = some e)
    (hk : e.kind σ.thead = .leaf) :
    e.a = decide (q.prot &&& PROT_R ≠ 0) ∧ e.d = decide (q.prot &&& PROT_W ≠ 0) ∧
      e.u = decide (q.prot &&& PROT_U ≠ 0) ∧ e.g = decide (q.prot &&& PROT_G ≠ 0) := by
  have heq := root_leaf_translation hserved.good.wf hs hk (hserved.mapped q hq va hva)
  have hmarks : e.a = e.r ∧ e.d = e.w := by
    cases hserved.good.wf.slots hs with
    | empty hv => cases (Pte.kind_of_not_v hv).symm.trans hk
    | leaf _ _ ha hd => exact ⟨ha, hd⟩
    | pointer hn => exact absurd hk (Pte.not_leaf_of_next hn)
  have hr : _ = e.r := congrArg Translation.r heq
  have hw : _ = e.w := congrArg Translation.w heq
  have hu : _ = e.u := congrArg Translation.u heq
  have hg : _ = (false || e.g) := congrArg Translation.g heq
  rw [Bool.false_or] at hg
  rw [hmarks.1, hmarks.2, ← hr, ← hw, ← hu, ← hg]
  exact ⟨rfl, rfl, rfl, Bool.false_or _⟩

theorem root_leaf_paddr (hv : 2 ^ m.shift 0 ∣ q.vaddr.toNat) (hva : q.Mem va)
    (hs : σ.slots 0 (m.key va 0) = some e) (hk : e.kind σ.thead = .leaf) :
    2 ^ m.shift 0 ∣ q.paddr.toNat := by
  have heq := root_leaf_translation hserved.good.wf hs hk (hserved.mapped q hq va hva)
  have ha : e.frame % 2 ^ (9 * m.getMaxLevel) = 0 := by
    cases hserved.good.wf.slots hs with
    | empty hv => cases (Pte.kind_of_not_v hv).symm.trans hk
    | leaf _ ha => exact ha
    | pointer hn => exact absurd hk (Pte.not_leaf_of_next hn)
  have hpa : (va + (q.paddr - q.vaddr)).toNat % 2 ^ 56 =
      e.frame * 4096 + va.toNat % 2 ^ m.shift 0 := congrArg Translation.pa heq
  rw [BitVec.toNat_add, BitVec.toNat_sub] at hpa
  have := va.isLt
  unfold Mode.shift at hv hpa ⊢
  cases m <;> simp only [Mode.getMaxLevel, Nat.reduceSub, Nat.reduceMul, Nat.reduceAdd] at * <;>
    omega

include hhalf hargs

theorem unmap_rooted (hv : 2 ^ m.shift 0 ∣ q.vaddr.toNat) (hs : 2 ^ m.shift 0 ∣ q.size.toNat) :
    ∃ σ₁, (m.unmap q.vaddr q.size).exec σ = (.ok 0, σ₁) ∧ Good m σ₁ ∧
      Cleared m (m.plan (q.size.toNat / 4096) q.size.toNat q.vaddr q.vaddr) σ σ₁ ∧
      ∀ va, σ₁.translate m va = if q.Mem va then none else σ.translate m va := by
  rw [Mode.unmap_eq hargs.unmapArgs]
  refine run_unmap hserved.good hargs.unmapArgs.tiles (fun va h1 h2 => hhalf.canonical ⟨h1, h2⟩)
    (fun b hb => Mode.plan_root hv hv hs hb) ?_
  intro va h1 h2
  rw [hserved.mapped q hq va ⟨h1, h2⟩]
  rfl

omit hserved hq hargs in
theorem unmap_keys (hargs : q.Args) (hv : 2 ^ m.shift 0 ∣ q.vaddr.toNat)
    (hs : 2 ^ m.shift 0 ∣ q.size.toNat) :
    (∃ b ∈ m.plan (q.size.toNat / 4096) q.size.toNat q.vaddr q.vaddr, m.key b.va 0 = k) ↔
      ∃ va, q.Mem va ∧ m.key va 0 = k := by
  have ht := hargs.unmapArgs.tiles (m := m)
  constructor
  · rintro ⟨b, hb, hk⟩
    exact ⟨b.va, ht.mem_iff.mpr ⟨b, hb, b.covers_self⟩, hk⟩
  · rintro ⟨va, hva, hk⟩
    obtain ⟨b, hb, hcov⟩ := ht.mem_iff.mp hva
    have hcb : ∀ va, b.Covers va → m.Canonical va := fun va hva =>
      hhalf.canonical (ht.mem_iff.mpr ⟨b, hb, hva⟩)
    refine ⟨b, hb, ?_⟩
    rw [← hk]
    exact ((Block.root_covers (Mode.plan_root hv hv hs hb) hcb (hcb va hcov)).mpr hcov).symm

theorem undoes_of_undoable (h : Undoable m q p' prot') (hp' : 4096 ∣ p'.toNat)
    (hprot' : Accepted prot')
    (hmem : ∀ rc σ₁, (m.unmap q.vaddr q.size).exec σ = (.ok rc, σ₁) →
      ((m.map q.vaddr p' q.size prot').exec σ₁).1 ≠ .error .noMemory) :
    Undoes m σ q.vaddr q.size p' prot' := by
  obtain ⟨hv, hs, hphys, hold⟩ := h
  obtain ⟨σ₁, hex, hg₁, hcl, htr⟩ := unmap_rooted hserved hq hhalf hargs hv hs
  have hargs' : MapArgs q.vaddr p' q.size prot' :=
    ⟨hargs.1, hp', hargs.2.2.1, hargs.2.2.2.1, Nat.lt_of_le_of_lt hphys (by decide), hprot'⟩
  have hnone : ∀ va, q.Mem va → σ₁.translate m va = none :=
    fun va hva => (htr va).trans (if_pos hva)
  have hcan {b : Block m} (hb : b ∈ m.plan (q.size.toNat / 4096) q.size.toNat q.vaddr p') :
      ∀ va, b.Covers va → m.Canonical va := fun va hva =>
    hhalf.canonical (hargs'.covers_inRange hb hva)
  -- the remap finds the way open: at the root, or below recycled entries that do no harm
  have hready : ∃ J : State → Prop, J σ₁ ∧
      ∀ b ∈ m.plan (q.size.toNat / 4096) q.size.toNat q.vaddr p', Ready prot' J b := by
    by_cases hroot : 2 ^ m.shift 0 ∣ p'.toNat
    · exact ⟨fun _ => True, trivial, fun b hb => Ready.root (Mode.plan_root hv hroot hs hb)⟩
    · refine ⟨State.Mild fun _ => 2 ^ m.shift 0 ∣ q.paddr.toNat ∧ q.prot &&& PROT_G ≠ 0, ?_, ?_⟩
      · refine hcl.mild hserved.pristine ?_
        intro k e hkey hslot hk
        obtain ⟨va, hva, rfl⟩ := (unmap_keys hhalf hargs hv hs).mp hkey
        have hpaddr := root_leaf_paddr hserved hq hv hva hslot hk
        obtain ⟨hR, hU, -⟩ := (hold hpaddr).resolve_left hroot
        have hW : q.prot &&& PROT_W = 0 := by
          by_contra hW
          exact (MapArgs.accepted hargs).bits.2 hW hR
        obtain ⟨ha, hd, hu, hg⟩ := root_leaf_bits hserved hq hva hslot hk
        refine ⟨⟨?_, ?_, ?_⟩, fun hg' => ⟨hpaddr, ?_⟩⟩
        · rw [hu, decide_eq_false (not_not_intro hU)]
        · rw [ha, decide_eq_false (not_not_intro hR)]
        · rw [hd, decide_eq_false (not_not_intro hW)]
        · exact of_decide_eq_true (hg.symm.trans hg')
      · intro b hb
        refine State.Mild.ready hprot' (hcan hb) ?_
        rintro va - ⟨hpaddr, hG⟩
        exact ((hold hpaddr).resolve_left hroot).2.2 hG
  obtain ⟨J, hj, hready⟩ := hready
  cases hex' : (m.map q.vaddr p' q.size prot').exec σ₁ with
  | mk r σ₂ =>
    rcases map_free hg₁ hj hargs' hhalf hnone hready hex' with rfl | ⟨rfl, -, -, -, htr'⟩
    · exact absurd (congrArg Prod.fst hex') (hmem 0 σ₁ hex)
    refine ⟨σ₁, σ₂, hex, hnone, fun va hva => (htr va).trans (if_neg hva), hex', fun va hva => ?_⟩
    have hgr := Request.granted_eq (q := ⟨q.vaddr, p', q.size, prot'⟩) hphys hva
    exact (htr' va).trans ((if_pos hva).trans (congrArg some hgr))

theorem undoable_of_undoes (h : Undoes m σ q.vaddr q.size p' prot') (hpos : 0 < q.size.toNat)
    (hprot' : Accepted prot') : Undoable m q p' prot' := by
  obtain ⟨σ₁, σ₂, hex, hnone, hother, hex', htr'⟩ := h
  have ht := hargs.unmapArgs.tiles (m := m)
  have hroot : ∀ b ∈ m.plan (q.size.toNat / 4096) q.size.toNat q.vaddr q.vaddr, b.level = 0 := by
    rw [Mode.unmap_eq hargs.unmapArgs] at hex
    exact run_unmap_root hex
  obtain ⟨hv, hend⟩ := tiles_root ht hroot (Nat.lt_add_of_pos_right hpos)
  have hs : 2 ^ m.shift 0 ∣ q.size.toNat := (Nat.dvd_add_right hv).mp hend
  have hargs' : MapArgs q.vaddr p' q.size prot' := by
    by_contra hbad
    obtain ⟨rc, hrc, h0⟩ := Mode.map_rejected (m := m) hbad
    rw [hrc] at hex'
    cases hex'
    rw [(h0 rfl).1] at hpos
    cases hpos
  have hself : q.Mem q.vaddr := ⟨Nat.le_refl _, Nat.lt_add_of_pos_right hpos⟩
  refine ⟨hv, hs, ?_, fun hpaddr => ?_⟩
  · -- the last address of the range
    have hlast : q.Mem (q.vaddr + (q.size - 1)) := by
      have := hargs.2.2.2.1
      unfold Request.Mem InRange
      rw [BitVec.toNat_add, BitVec.toNat_sub]
      simp only [BitVec.ofNat_eq_ofNat, BitVec.toNat_ofNat]
      omega
    have hlt := translate_pa_lt (htr' _ hlast)
    have hval : (q.vaddr + (q.size - 1)).toNat = q.vaddr.toNat + (q.size.toNat - 1) := by
      have := hargs.2.2.2.1
      rw [BitVec.toNat_add, BitVec.toNat_sub]
      simp only [BitVec.ofNat_eq_ofNat, BitVec.toNat_ofNat]
      omega
    change p'.toNat + ((q.vaddr + (q.size - 1)).toNat - q.vaddr.toNat) < 2 ^ 56 at hlt
    omega
  · by_cases hroot' : 2 ^ m.shift 0 ∣ p'.toNat
    · exact Or.inl hroot'
    refine Or.inr ?_
    obtain ⟨σ₁', hexu, hg₁, hcl, -⟩ := unmap_rooted hserved hq hhalf hargs hv hs
    cases hexu.symm.trans hex
    have hcleared : ∀ va, q.Mem va → ∃ e, σ.slots 0 (m.key va 0) = some e ∧
        e.kind σ.thead = .leaf ∧ σ₁.slots 0 (m.key va 0) = some e.clear := by
      intro va hva
      obtain ⟨e, hslot, hk⟩ := hserved.root q hq ⟨hv, hs, hpaddr⟩ va hva
      obtain ⟨e', hslot', -, himp⟩ := hcl.root_slot hslot
      rw [himp ((unmap_keys hhalf hargs hv hs).mpr ⟨va, hva, rfl⟩)] at hslot'
      exact ⟨e, hslot, hk, hslot'⟩
    have hvac : σ₁.Vacant m q.vaddr.toNat (q.vaddr.toNat + q.size.toNat) := by
      apply State.vacant_of_root
      intro va h1 h2
      obtain ⟨e, -, -, hslot⟩ := hcleared va ⟨h1, h2⟩
      exact ⟨_, hslot, rfl⟩
    obtain ⟨e, hslot, hk, hslot₁⟩ := hcleared q.vaddr hself
    rw [Mode.map_eq hargs'] at hex'
    obtain ⟨hw₂, e', hslot₂, hk₂, ha, hu, hg⟩ := run_stale hg₁.wf hargs'.tiles
      (fun va h1 h2 => hhalf.canonical ⟨h1, h2⟩) hprot' hvac (fun b hb => plan_low hv hroot' hb)
      hslot₁ (by rw [Pte.kind_of_not_v rfl]; decide) hex'
    obtain ⟨ha₂, hu₂, hg₂⟩ := translate_root hw₂ hslot₂ hk₂ (htr' _ hself)
    obtain ⟨hea, -, heu, heg⟩ := root_leaf_bits hserved hq hself hslot hk
    have hafalse : e.a = false := ha.symm.trans ha₂
    have hufalse : e.u = false := hu.symm.trans hu₂
    rw [hea, decide_eq_false_iff_not, not_not] at hafalse
    rw [heu, decide_eq_false_iff_not, not_not] at hufalse
    refine ⟨hafalse, hufalse, fun hG => ?_⟩
    have hgtrue : e'.g = true := hg.trans (heg.trans (decide_eq_true hG))
    exact of_decide_eq_true ((Bool.false_or _).symm.trans (hg₂ hgtrue))

end Served

/-- After successful calls to `map` on disjoint ranges, unmapping one of them and mapping it again
works as intended exactly for whole blocks of the root whose old leaves do no harm. -/
theorem undoes_iff (hb : Boot σ') (hnew : (m.new asid variant).exec σ' = (.ok (), σ₀))
    (hhalf : ∀ q ∈ qs, m.InHalf q.vaddr q.size) (hdisj : qs.Pairwise Request.Disjoint)
    (hrun : (Script.runAll (Request.exec m) qs).exec σ₀ = (.ok rcs, σ))
    (hzero : ∀ rc ∈ rcs, rc = 0) (hq : q ∈ qs) (hp' : 4096 ∣ p'.toNat) (hprot' : Accepted prot')
    (hmem : ∀ rc σ₁, (m.unmap q.vaddr q.size).exec σ = (.ok rc, σ₁) →
      ((m.map q.vaddr p' q.size prot').exec σ₁).1 ≠ .error .noMemory) :
    Undoes m σ q.vaddr q.size p' prot' ↔ q.size = 0 ∨ Undoable m q p' prot' := by
  have hargs := runAll_args hrun hzero
  have hserved : Served m qs σ₀ σ := by
    rcases runAll_served (hb.good hnew) (hb.pristine hnew)
      (fun q hq => (hargs q hq).imp id And.left) hhalf hdisj (fun _ _ va _ => hb.unmapped hnew va)
      hrun with h | ⟨-, -, -, h⟩
    · cases h
    · exact h
  by_cases h0 : q.size = 0
  · -- nothing to do
    refine ⟨fun _ => Or.inl h0, fun _ => ?_⟩
    have hv : 4096 ∣ q.vaddr.toNat := (hargs q hq).elim (fun h => h.1) And.right
    have hempty : ∀ va, ¬ InRange q.vaddr q.size va := by
      rintro va ⟨hle, hlt⟩
      rw [h0] at hlt
      exact Nat.not_lt.mpr hle hlt
    rw [h0] at hempty ⊢
    have hmap : MapArgs q.vaddr p' 0 prot' :=
      ⟨hv, hp', by decide, q.vaddr.isLt, p'.isLt, hprot'⟩
    refine ⟨σ, σ, ?_, fun va hva => absurd hva (hempty va), fun _ _ => rfl, ?_,
      fun va hva => absurd hva (hempty va)⟩
    · rw [Mode.unmap_eq (s := 0) ⟨hv, by decide, q.vaddr.isLt⟩]
      rfl
    · rw [Mode.map_eq hmap]
      rfl
  · have hargs' : q.Args := (hargs q hq).resolve_right (fun h => h0 h.1)
    have hpos : 0 < q.size.toNat := by
      rcases Nat.eq_zero_or_pos q.size.toNat with h | h
      · exact absurd (BitVec.eq_of_toNat_eq h) h0
      · exact h
    constructor
    · exact fun h => Or.inr (undoable_of_undoes hserved hq (hhalf q hq) hargs' h hpos hprot')
    · rintro (h | h)
      · exact absurd h h0
      · exact undoes_of_undoable hserved hq (hhalf q hq) hargs' h hp' hprot' hmem

def gigabyte : Request := ⟨0x40000000, 0x80000000, 0x40000000, 1⟩

theorem undoes_iff_gigabyte :
    Undoes .sv39 ((Script.runAll (Request.exec .sv39) [gigabyte]).exec
      ((State.boot [0x1000, 0x2000, 0x3000]).fresh .sv39 0 0 0x1000)).2
      0x40000000 0x40000000 0xC0000000 3 := by
  have hb := State.boot_boot [0x1000, 0x2000, 0x3000] (by decide) (by decide)
  have hnew := exec_new (m := .sv39) (σ := State.boot [0x1000, 0x2000, 0x3000]) (t := 0x1000)
    (by decide) rfl 0 0
  have hmem : ((Mode.sv39.map 0x40000000 0xC0000000 0x40000000 3).exec
      ((Mode.sv39.unmap 0x40000000 0x40000000).exec
        ((Script.runAll (Request.exec .sv39) [gigabyte]).exec
          ((State.boot [0x1000, 0x2000, 0x3000]).fresh .sv39 0 0 0x1000)).2).2).1 ≠
      .error .noMemory := by decide +kernel
  have hrun : (Script.runAll (Request.exec .sv39) [gigabyte]).exec
      ((State.boot [0x1000, 0x2000, 0x3000]).fresh .sv39 0 0 0x1000) = (.ok [0], _) :=
    Prod.ext (by decide +kernel) rfl
  have hmem' : ∀ rc σ₁, (Mode.sv39.unmap 0x40000000 0x40000000).exec
      ((Script.runAll (Request.exec .sv39) [gigabyte]).exec
        ((State.boot [0x1000, 0x2000, 0x3000]).fresh .sv39 0 0 0x1000)).2 = (.ok rc, σ₁) →
      ((Mode.sv39.map 0x40000000 0xC0000000 0x40000000 3).exec σ₁).1 ≠ .error .noMemory := by
    intro rc σ₁ hex
    rw [hex] at hmem
    exact hmem
  refine (undoes_iff hb hnew ?_ ?_ hrun ?_ (q := gigabyte) List.mem_cons_self ?_ ?_ hmem').mpr
    (Or.inr ?_)
  · intro q hq
    cases List.mem_singleton.mp hq
    decide
  · exact List.pairwise_singleton _ _
  · intro rc hrc
    exact List.mem_singleton.mp hrc
  · decide
  · decide
  · exact ⟨by decide, by decide, by decide, fun _ => Or.inl (by decide)⟩

theorem unmap_not_undone :
    ((Script.runAll (Request.exec .sv39) [⟨0, 0x5000, 0x1000, 1⟩]).exec
      ((State.boot [0x1000, 0x2000, 0x3000]).fresh .sv39 0 0 0x1000)).1 = .ok [0] ∧
    ¬ Undoes .sv39 ((Script.runAll (Request.exec .sv39) [⟨0, 0x5000, 0x1000, 1⟩]).exec
      ((State.boot [0x1000, 0x2000, 0x3000]).fresh .sv39 0 0 0x1000)).2 0 0x1000 0x5000 1 := by
  refine ⟨by decide +kernel, ?_⟩
  rintro ⟨σ₁, -, hex, -⟩
  have hne : ((Mode.sv39.unmap 0 0x1000).exec ((Script.runAll (Request.exec .sv39)
      [⟨0, 0x5000, 0x1000, 1⟩]).exec
        ((State.boot [0x1000, 0x2000, 0x3000]).fresh .sv39 0 0 0x1000)).2).1 ≠ .ok 0 := by
    decide +kernel
  exact hne (congrArg Prod.fst hex)

end Abydos.Mmu
