import Abydos.Mmu.Calls
import Abydos.Mmu.Space

namespace Abydos.Mmu

open Abydos.Lib Abydos.Lib.Radix

variable {m : Mode} {σ σ' σ₀ σ₁ : State} {v p s : Addr} {prot : BitVec 32}

def Mode.InHalf (m : Mode) (v s : Addr) : Prop :=
  v.toNat + s.toNat ≤ 2 ^ (m.sz - 1) ∨ 2 ^ 64 - 2 ^ (m.sz - 1) ≤ v.toNat

instance : Decidable (m.InHalf v s) := inferInstanceAs (Decidable (_ ∨ _))

def InRange (v s va : Addr) : Prop := v.toNat ≤ va.toNat ∧ va.toNat < v.toNat + s.toNat

instance : Decidable (InRange v s va) := inferInstanceAs (Decidable (_ ∧ _))

theorem Mode.InHalf.canonical (h : m.InHalf v s) (hva : InRange v s va) : m.Canonical va := by
  obtain ⟨hle, hlt⟩ := hva
  rcases h with h | h
  · exact Or.inl (Nat.lt_of_lt_of_le hlt h)
  · exact Or.inr (Nat.le_trans h hle)

def Block.Covers (b : Block m) (va : Addr) : Prop :=
  b.start ≤ va.toNat ∧ va.toNat < b.start + b.len

instance {b : Block m} : Decidable (b.Covers va) := inferInstanceAs (Decidable (_ ∧ _))

theorem Block.covers_self (b : Block m) : b.Covers b.va :=
  ⟨Nat.le_refl _, Nat.lt_add_of_pos_right (Nat.two_pow_pos _)⟩

theorem Block.covers_iff {b : Block m} (hc : ∀ va, b.Covers va → m.Canonical va) (va : Addr) :
    (m.Canonical va ∧ m.key va b.level = m.key b.va b.level) ↔ b.Covers va := by
  obtain ⟨c, hdvd⟩ := b.va_dvd
  have hdiv : b.va.toNat / 2 ^ m.shift b.level = c := by
    rw [hdvd, Nat.mul_div_cancel_left _ (Nat.two_pow_pos _)]
  have hiff : va.toNat / 2 ^ m.shift b.level = c ↔ b.Covers va := by
    unfold Block.Covers Block.start Block.len
    rw [Nat.div_eq_iff (Nat.two_pow_pos _), hdvd, Nat.mul_comm c]
    have := Nat.two_pow_pos (m.shift b.level)
    omega
  constructor
  · rintro ⟨hva, hk⟩
    rw [Mode.key_eq_iff b.level_le (hc _ b.covers_self) hva, hdiv] at hk
    exact hiff.mp hk
  · intro h
    refine ⟨hc va h, ?_⟩
    rw [Mode.key_eq_iff b.level_le (hc _ b.covers_self) (hc va h), hdiv]
    exact hiff.mpr h

theorem MapArgs.tiles (h : MapArgs v p s prot) : Tiles Block.start Block.len v.toNat
    (v.toNat + s.toNat) (m.plan (s.toNat / 4096) s.toNat v p) :=
  Mode.plan_tiles h.1 h.2.1 h.2.2.1 (Nat.le_refl _) h.2.2.2.1

theorem MapArgs.covers_inRange (h : MapArgs v p s prot) {b : Block m}
    (hb : b ∈ m.plan (s.toNat / 4096) s.toNat v p) (hva : b.Covers va) : InRange v s va :=
  h.tiles.mem_iff.mpr ⟨b, hb, hva⟩

/-- The invariant behind conflict detection: a valid entry is one under which something is
mapped. -/
structure Good (m : Mode) (σ : State) : Prop where
  wf : Wf m σ
  full : σ.Full m

/-- A block step of `map` with no leaf and no recycled entry in its way. -/
def Op.Free (σ : State) : Op m → Prop
  | .map b _ _ => σ.Passable m b.va b.level
  | .unmap _ => True

theorem Op.exec_good (hg : Good m σ) {o : Op m} (ho : o.Free σ) :
    Script.Outcome (Good m) (fun _ _ => True) (o.exec.exec σ) := by
  cases o with
  | map b prot hprot =>
    obtain ⟨r, σ', hex, hw, hstep⟩ :=
      mapBlock_step hg.wf b.level_le (State.Passable.openTo ho) b.pa_dvd hprot
    change Script.Outcome _ _ ((m.mapBlock (m.shift b.level) b.va b.pa prot).exec σ)
    rw [hex]
    rcases hstep.space hg.wf hg.full ho b.level_le b.pa_dvd hprot with
      ⟨rfl, -⟩ | ⟨rfl, -, hf, -⟩ | ⟨rfl, hf, -⟩
    · trivial
    · exact ⟨hw, hf⟩
    · exact ⟨hw, hf⟩
  | unmap b =>
    change Script.Outcome _ _ ((m.unmapBlock (m.shift b.level) b.va).exec σ)
    cases hl : b.level with
    | zero =>
      obtain ⟨rc, σ', hex, hw, hstep⟩ := unmapBlock_root hg.wf b.va
      rw [hex]
      rcases hstep.space hg.wf hg.full with ⟨rfl, -, hf, -⟩ | ⟨rfl, hf, -⟩
      · exact ⟨hw, hf⟩
      · exact ⟨hw, hf⟩
    | succ L =>
      obtain ⟨a, σ', hex⟩ := unmapBlock_low (hl ▸ b.level_le) b.va σ
      rw [hex]
      trivial

theorem Good.call {c : Call} (hg : Good m σ) (hfree : c.Guarded m Op.Free σ)
    (h : (c.exec m).exec σ = (.ok rc, σ')) : Good m σ' := by
  have hout := Call.rule (fun σ o hg ho => Op.exec_good hg ho) hg hfree
  rw [h] at hout
  exact hout

theorem Good.runAll {calls : List Call} (hg : Good m σ)
    (hfree : Script.GuardedAll (Call.exec m) (Call.Guarded m Op.Free) calls σ)
    (h : (Script.runAll (Call.exec m) calls).exec σ = (.ok rcs, σ')) : Good m σ' := by
  have hout := Call.run_rule (fun σ o hg ho => Op.exec_good hg ho) hg hfree
  rw [h] at hout
  exact hout

theorem Call.free_map (hargs : MapArgs v p s prot)
    (h : (Call.map v p s prot).Guarded m Op.Free σ) :
    Script.Guarded (m.mapOp prot) (fun σ b => σ.Passable m b.va b.level)
      (m.plan (s.toNat / 4096) s.toNat v p) σ := by
  unfold Call.Guarded at h
  rw [Call.ops_map hargs, Script.guarded_map] at h
  exact h

theorem mapOp_space (hg : Good m σ) {b : Block m} (hp : σ.Passable m b.va b.level)
    (hprot : Accepted prot) (hc : ∀ va, b.Covers va → m.Canonical va) :
    ∃ r σ', (m.mapOp prot b).exec σ = (r, σ') ∧ MapStep m b.level b.va b.pa prot σ r σ' ∧
      (r = .error .noMemory ∨
      (r = .ok K_EALREADY ∧ Good m σ' ∧ (∀ va, σ'.translate m va = σ.translate m va) ∧
        ∃ va, b.Covers va ∧ (σ.translate m va).isSome) ∨
      (r = .ok 0 ∧ Good m σ' ∧ (∀ va, b.Covers va → σ.translate m va = none) ∧
        ∀ va, σ'.translate m va =
          if b.Covers va then some (grant (b.pa.toNat % 2 ^ 56 + va.toNat % b.len) prot
            (Slots.gAbove m σ.slots va b.level))
          else σ.translate m va)) := by
  have hcov := Block.covers_iff hc
  obtain ⟨r, σ', hex, hw, hstep⟩ := mapBlock_step hg.wf b.level_le hp.openTo b.pa_dvd hprot
  refine ⟨r, σ', hex, hstep, ?_⟩
  rcases hstep.space hg.wf hg.full hp b.level_le b.pa_dvd hprot with
    ⟨rfl, -⟩ | ⟨rfl, -, hf, htr, va, hk, hsome⟩ | ⟨rfl, hf, hnone, htr⟩
  · exact Or.inl rfl
  · refine Or.inr (Or.inl ⟨rfl, ⟨hw, hf⟩, htr, va, (hcov va).mp ⟨?_, hk⟩, hsome⟩)
    obtain ⟨t, ht⟩ := Option.isSome_iff_exists.mp hsome
    exact State.canonical_of_translate ht
  · refine Or.inr (Or.inr ⟨rfl, ⟨hw, hf⟩, fun va h => hnone va ((hcov va).mpr h).2, ?_⟩)
    intro va
    rw [htr]
    exact if_congr (hcov va) rfl rfl

theorem Boot.good (hb : Boot σ) (h : (m.new asid variant).exec σ = (.ok (), σ₀)) : Good m σ₀ := by
  refine ⟨(hb.new h).1, ?_⟩
  intro l k e hs hv
  obtain ⟨-, rfl⟩ := (hb.new h).2 l k e hs
  cases hv

theorem run_conflict {bs : List (Block m)} (hg : Good m σ)
    (ht : Tiles Block.start Block.len a e bs)
    (hc : ∀ va : Addr, a ≤ va.toNat → va.toNat < e → m.Canonical va) (hprot : Accepted prot)
    (hfree : Script.Guarded (m.mapOp prot) (fun σ b => σ.Passable m b.va b.level) bs σ)
    (h : (Script.run (m.mapOp prot) bs).exec σ = (r, σ')) :
    r = .error .noMemory ∨ ∃ rc, r = .ok rc ∧
      (rc = K_EALREADY ↔ ∃ va, (a ≤ va.toNat ∧ va.toNat < e) ∧ (σ.translate m va).isSome) ∧
      ∀ va t, σ.translate m va = some t → σ'.translate m va = some t := by
  induction ht generalizing σ with
  | nil =>
    cases h
    refine Or.inr ⟨0, rfl, ⟨fun h => absurd h (by decide), ?_⟩, fun _ _ h => h⟩
    rintro ⟨va, hva, -⟩
    omega
  | @cons b e bs ht ih =>
    have hle := ht.le
    have hcb : ∀ va, b.Covers va → m.Canonical va := fun va hva =>
      hc va hva.1 (Nat.lt_of_lt_of_le hva.2 hle)
    obtain ⟨r₁, σ₁, hex, -, hcase⟩ := mapOp_space hg hfree.1 hprot hcb
    rcases hcase with rfl | ⟨rfl, -, htr, va, hva, hsome⟩ | ⟨rfl, hg₁, hnone, htr⟩
    · cases (Script.exec_run_error hex).symm.trans h
      exact Or.inl rfl
    · cases (Script.exec_run_stop hex (by decide)).symm.trans h
      refine Or.inr ⟨_, rfl, ⟨fun _ => ⟨va, ⟨hva.1, Nat.lt_of_lt_of_le hva.2 hle⟩, hsome⟩,
        fun _ => rfl⟩, fun va t hva => (htr va).trans hva⟩
    · rw [Script.exec_run_next hex] at h
      have hkeep : ∀ va t, σ.translate m va = some t → σ₁.translate m va = some t := by
        intro va t hva
        rw [htr, if_neg]
        · exact hva
        · intro hb
          cases (hnone va hb).symm.trans hva
      rcases ih hg₁ (fun va h1 h2 => hc va (Nat.le_trans (Nat.le_add_right _ _) h1) h2)
        (hfree.2 σ₁ hex) h with rfl | ⟨rc, rfl, hiff, hkeep'⟩
      · exact Or.inl rfl
      refine Or.inr ⟨rc, rfl, hiff.trans ?_, fun va t hva => hkeep' va t (hkeep va t hva)⟩
      -- the first block was free, the others are as before it
      constructor
      · rintro ⟨va, ⟨h1, h2⟩, hsome⟩
        rw [htr, if_neg (fun hb => Nat.not_lt.mpr h1 hb.2)] at hsome
        exact ⟨va, ⟨Nat.le_trans (Nat.le_add_right _ _) h1, h2⟩, hsome⟩
      · rintro ⟨va, ⟨h1, h2⟩, hsome⟩
        have hb : ¬ b.Covers va := by
          intro hb
          rw [hnone va hb] at hsome
          cases hsome
        refine ⟨va, ⟨?_, h2⟩, ?_⟩
        · by_contra hlt
          exact hb ⟨h1, Nat.not_le.mp hlt⟩
        · rw [htr, if_neg hb]
          exact hsome

/-- In a run of calls whose block steps are all free, and for one more call to `map` of which this
holds too: it reports a conflict exactly if a page of its range is mapped, and leaves every
translation there was. -/
theorem conflict_detected (hb : Boot σ) (hnew : (m.new asid variant).exec σ = (.ok (), σ₀))
    (calls : List Call)
    (hg : Script.GuardedAll (Call.exec m) (Call.Guarded m Op.Free) calls σ₀)
    (hrun : (Script.runAll (Call.exec m) calls).exec σ₀ = (.ok rcs, σ₁))
    (hargs : MapArgs v p s prot) (hhalf : m.InHalf v s)
    (hfree : (Call.map v p s prot).Guarded m Op.Free σ₁)
    (h : (m.map v p s prot).exec σ₁ = (r, σ')) (hmem : r ≠ .error .noMemory) :
    ∃ rc, r = .ok rc ∧
      (rc = K_EALREADY ↔ ∃ va, InRange v s va ∧ (σ₁.translate m va).isSome) ∧
      ∀ va t, σ₁.translate m va = some t → σ'.translate m va = some t := by
  have hgood : Good m σ₁ := (hb.good hnew).runAll hg hrun
  rw [Mode.map_eq hargs] at h
  rcases run_conflict hgood hargs.tiles (fun va h1 h2 => hhalf.canonical ⟨h1, h2⟩) hargs.accepted
    (Call.free_map hargs hfree) h with rfl | hres
  · exact absurd rfl hmem
  · exact hres

instance : Decidable (σ.Passable m va L) :=
  decidable_of_iff (∀ l < L, ((σ.slots l (m.key va l)).all fun e =>
      decide (e.kind σ.thead ≠ .leaf ∧ (e.v = false → e.u = false ∧ e.a = false ∧ e.d = false))) =
        true) <| by
    unfold State.Passable
    refine forall₂_congr fun l _ => ?_
    cases σ.slots l (m.key va l) with
    | none => simp only [Option.all_none, reduceCtorEq, false_implies, implies_true]
    | some e => simp only [Option.all_some, decide_eq_true_eq, Option.some.injEq, forall_eq']

theorem State.Passable.mono (h : σ.Passable m va L) (hle : L' ≤ L) : σ.Passable m va L' :=
  fun l hl => h l (Nat.lt_of_lt_of_le hl hle)

def again : State :=
  ((Script.runAll (Call.exec .sv39) [.map 0x1000 0x5000 0x1000 1]).exec
    ((State.boot [0x1000, 0x2000, 0x3000]).fresh .sv39 0 0 0x1000)).2

theorem conflict_detected_again : ∃ rc,
    ((Mode.sv39.map 0x1000 0x6000 0x1000 3).exec again).1 = .ok rc ∧
    (rc = K_EALREADY ↔ ∃ va, InRange 0x1000 0x1000 va ∧ (again.translate .sv39 va).isSome) ∧
    ∀ va t, again.translate .sv39 va = some t →
      ((Mode.sv39.map 0x1000 0x6000 0x1000 3).exec again).2.translate .sv39 va = some t := by
  have hb := State.boot_boot [0x1000, 0x2000, 0x3000] (by decide) (by decide)
  have hnew := exec_new (m := .sv39) (σ := State.boot [0x1000, 0x2000, 0x3000]) (t := 0x1000)
    (by decide) rfl 0 0
  have hrun : (Script.runAll (Call.exec .sv39) [.map 0x1000 0x5000 0x1000 1]).exec
      ((State.boot [0x1000, 0x2000, 0x3000]).fresh .sv39 0 0 0x1000) = (.ok [0], again) :=
    Prod.ext (by decide +kernel) rfl
  have hargs : MapArgs 0x1000 0x6000 0x1000 3 := by decide
  have hpass : again.Passable .sv39 0x1000 2 := by decide +kernel
  refine conflict_detected hb hnew [.map 0x1000 0x5000 0x1000 1] ?_ hrun
    hargs (by decide) ?_ rfl (by decide +kernel)
  · refine And.intro (Call.guarded_page (by decide) ?_) fun _ _ _ => trivial
    intro b _ l _ e hs
    obtain ⟨-, rfl⟩ := (hb.new hnew).2 _ _ _ hs
    exact ⟨by rw [Pte.kind_of_not_v rfl]; decide, fun _ => ⟨rfl, rfl, rfl⟩⟩
  · refine Call.guarded_page (by decide) ?_
    rintro b hva
    change again.Passable .sv39 b.va b.level
    rw [hva]
    exact hpass.mono b.level_le

/-- SV39.  Inside a gigapage a page is mapped again without a conflict; and where the gigapage maps
physical address zero, mapping a page inside it unmaps the rest. -/
theorem conflict_missed :
    let boot := (State.boot [0x1000, 0x2000, 0x3000, 0x4000]).fresh .sv39 0 0 0x1000
    let giga := ((Mode.sv39.map 0 0x40000000 0x40000000 3).exec boot).2
    let zero := ((Mode.sv39.map 0 0 0x40000000 3).exec boot).2
    ((giga.translate .sv39 0).isSome ∧ ((Mode.sv39.map 0 0x5000 0x1000 1).exec giga).1 = .ok 0) ∧
    ((zero.translate .sv39 0x2000).isSome ∧
      (((Mode.sv39.map 0 0x5000 0x1000 1).exec zero).2.translate .sv39 0x2000) = none) := by
  decide +kernel

end Abydos.Mmu
