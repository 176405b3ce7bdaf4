import Abydos.Mmu.Conflict

namespace Abydos.Mmu

open Abydos.Lib

variable {m : Mode} {σ σ' : State} {v p s : Addr} {prot : BitVec 32}

def Block.InUse (σ : State) (b : Block m) : Prop :=
  ∃ va, m.key va b.level = m.key b.va b.level ∧ (σ.translate m va).isSome

/-- `map` turns its arguments away, or finds its first block in use. -/
def Mode.StopsFirst (m : Mode) (σ : State) (v p s : Addr) (prot : BitVec 32) : Prop :=
  ¬ MapArgs v p s prot ∨ ∃ b, m.pick s.toNat v p = some b ∧ b.InUse σ

def State.Grows (m : Mode) (σ σ' : State) : Prop :=
  ∀ va t, σ.translate m va = some t → σ'.translate m va = some t

theorem State.Grows.trans {σ₁ : State} (h : State.Grows m σ σ₁) (h' : State.Grows m σ₁ σ') :
    State.Grows m σ σ' := fun va t ht => h' va t (h va t ht)

theorem Block.InUse.grows {b : Block m} (hb : b.InUse σ) (h : State.Grows m σ σ') : b.InUse σ' := by
  obtain ⟨va, hk, hsome⟩ := hb
  obtain ⟨t, ht⟩ := Option.isSome_iff_exists.mp hsome
  exact ⟨va, hk, Option.isSome_iff_exists.mpr ⟨t, h va t ht⟩⟩

theorem mapOp_use (hg : Good m σ) {b : Block m} (hp : σ.Passable m b.va b.level)
    (hprot : Accepted prot) :
    ∃ r σ', (m.mapOp prot b).exec σ = (r, σ') ∧
      (r = .error .noMemory ∨
      (r = .ok K_EALREADY ∧ (∀ va, σ'.translate m va = σ.translate m va) ∧ b.InUse σ) ∨
      (r = .ok 0 ∧ Good m σ' ∧ State.Grows m σ σ' ∧ ¬ b.InUse σ ∧ b.InUse σ')) := by
  obtain ⟨r, σ', hex, hw, hstep⟩ := mapBlock_step hg.wf b.level_le hp.openTo b.pa_dvd hprot
  refine ⟨r, σ', hex, ?_⟩
  rcases hstep.space hg.wf hg.full hp b.level_le b.pa_dvd hprot with
    ⟨rfl, -⟩ | ⟨rfl, -, -, htr, huse⟩ | ⟨rfl, hf, hnone, htr⟩
  · exact Or.inl rfl
  · exact Or.inr (Or.inl ⟨rfl, htr, huse⟩)
  · refine Or.inr (Or.inr ⟨rfl, ⟨hw, hf⟩, ?_, ?_, ?_⟩)
    · intro va t ht
      rw [htr, if_neg]
      · exact ht
      · rintro ⟨-, hk⟩
        cases (hnone va hk).symm.trans ht
    · rintro ⟨va, hk, hsome⟩
      rw [hnone va hk] at hsome
      cases hsome
    · obtain ⟨va, hc, hk⟩ := m.exists_canonical b.va
      refine ⟨va, hk b.level, ?_⟩
      rw [htr, if_pos ⟨hc, hk b.level⟩]
      rfl

theorem run_grows {bs : List (Block m)} (hg : Good m σ) (hprot : Accepted prot)
    (hfree : Script.Guarded (m.mapOp prot) (fun σ b => σ.Passable m b.va b.level) bs σ)
    (h : (Script.run (m.mapOp prot) bs).exec σ = (.ok rc, σ')) :
    (rc = 0 ∨ rc = K_EALREADY) ∧ State.Grows m σ σ' := by
  induction bs generalizing σ with
  | nil =>
    cases h
    exact ⟨Or.inl rfl, fun _ _ ht => ht⟩
  | cons b bs ih =>
    obtain ⟨r, σ₁, hex, rfl | ⟨rfl, htr, -⟩ | ⟨rfl, hg₁, hgrow, -⟩⟩ := mapOp_use hg hfree.1 hprot
    · cases (Script.exec_run_error hex).symm.trans h
    · cases (Script.exec_run_stop hex (by decide)).symm.trans h
      exact ⟨Or.inr rfl, fun va t ht => (htr va).trans ht⟩
    · rw [Script.exec_run_next hex] at h
      obtain ⟨hrc, hgrow'⟩ := ih hg₁ (hfree.2 σ₁ hex) h
      exact ⟨hrc, hgrow.trans hgrow'⟩

theorem run_unchanged_iff {b : Block m} {bs : List (Block m)} (hg : Good m σ)
    (hprot : Accepted prot)
    (hfree : Script.Guarded (m.mapOp prot) (fun σ b => σ.Passable m b.va b.level) (b :: bs) σ)
    (h : (Script.run (m.mapOp prot) (b :: bs)).exec σ = (.ok rc, σ')) :
    (∀ va, σ'.translate m va = σ.translate m va) ↔ b.InUse σ := by
  obtain ⟨r, σ₁, hex, rfl | ⟨rfl, htr, huse⟩ | ⟨rfl, hg₁, -, hfirst, huse⟩⟩ :=
    mapOp_use hg hfree.1 hprot
  · cases (Script.exec_run_error hex).symm.trans h
  · cases (Script.exec_run_stop hex (by decide)).symm.trans h
    exact iff_of_true htr huse
  · rw [Script.exec_run_next hex] at h
    refine iff_of_false (fun hsame => hfirst ?_) hfirst
    -- what the first block installed is still there at the end
    obtain ⟨va, hk, hsome⟩ := huse.grows (run_grows hg₁ hprot (hfree.2 σ₁ hex) h).2
    exact ⟨va, hk, hsame va ▸ hsome⟩

theorem Mode.pick_of_plan {b : Block m} {va pa : Addr} (h : m.plan n room va pa = b :: bs) :
    m.pick room va pa = some b := by
  cases n with
  | zero => cases h
  | succ n =>
    unfold Mode.plan at h
    cases hb : m.pick room va pa with
    | none =>
      rw [hb] at h
      cases h
    | some b' =>
      rw [hb] at h
      cases h
      rfl

theorem Call.free_rooted (hv : 2 ^ m.shift 0 ∣ v.toNat) (hp : 2 ^ m.shift 0 ∣ p.toNat)
    (hs : 2 ^ m.shift 0 ∣ s.toNat) (σ : State) : (Call.map v p s prot).Guarded m Op.Free σ := by
  refine Script.Guarded.of_forall (fun o ho σ => ?_) σ
  simp only [Call.ops] at ho
  split at ho
  · obtain ⟨b, hb, rfl⟩ := List.mem_map.mp ho
    change σ.Passable m b.va b.level
    rw [Mode.plan_root hv hp hs hb]
    exact fun l hl => absurd hl (Nat.not_lt_zero l)
  · cases ho

theorem map_unchanged_iff (hg : Good m σ) (hfree : (Call.map v p s prot).Guarded m Op.Free σ)
    (h : (m.map v p s prot).exec σ = (.ok rc, σ')) (hrc : rc ≠ 0) :
    (∀ va, σ'.translate m va = σ.translate m va) ↔ m.StopsFirst σ v p s prot := by
  unfold Mode.StopsFirst
  by_cases hargs : MapArgs v p s prot
  · rw [Mode.map_eq hargs] at h
    replace hfree := Call.free_map hargs hfree
    cases hplan : m.plan (s.toNat / 4096) s.toNat v p with
    | nil =>
      rw [hplan] at h
      cases h
      exact absurd rfl hrc
    | cons b bs =>
      rw [hplan] at h hfree
      rw [run_unchanged_iff hg hargs.accepted hfree h, Mode.pick_of_plan hplan]
      simp [hargs]
  · obtain ⟨rc', hrc', -⟩ := Mode.map_rejected (m := m) hargs
    rw [hrc'] at h
    cases h
    exact iff_of_true (fun _ => rfl) (Or.inl hargs)

theorem map_clear (hg : Good m σ) (hargs : MapArgs v p s prot) (hhalf : m.InHalf v s)
    (hfree : (Call.map v p s prot).Guarded m Op.Free σ)
    (hclear : ∀ va, InRange v s va → σ.translate m va = none)
    (h : (m.map v p s prot).exec σ = (r, σ')) (hmem : r ≠ .error .noMemory) : r = .ok 0 := by
  rw [Mode.map_eq hargs] at h
  replace hfree := Call.free_map hargs hfree
  rcases run_conflict hg hargs.tiles (fun va h1 h2 => hhalf.canonical ⟨h1, h2⟩) hargs.accepted
    hfree h with rfl | ⟨rc, rfl, hiff, -⟩
  · exact absurd rfl hmem
  · rcases (run_grows hg hargs.accepted hfree h).1 with rfl | rfl
    · rfl
    · obtain ⟨va, hva, hsome⟩ := hiff.mp rfl
      rw [hclear va hva] at hsome
      cases hsome

def Call.IsUnmap : Call → Prop
  | .map .. => False
  | .unmap .. => True

theorem unmapOp_shrinks (hg : Good m σ) (b : Block m) :
    Script.Outcome (fun σ' => ∀ va, σ.translate m va = none → σ'.translate m va = none)
      (fun _ _ => True) ((m.unmapOp b).exec σ) := by
  change Script.Outcome _ _ ((m.unmapBlock (m.shift b.level) b.va).exec σ)
  cases hl : b.level with
  | zero =>
    obtain ⟨rc, σ', hex, -, hstep⟩ := unmapBlock_root hg.wf b.va
    rw [hex]
    rcases hstep.space hg.wf hg.full with ⟨rfl, -, -, htr, -⟩ | ⟨rfl, -, htr⟩
    · exact fun va hva => (htr va).trans hva
    · intro va hva
      rw [htr]
      split
      · rfl
      · exact hva
  | succ L =>
    obtain ⟨a, σ', hex⟩ := unmapBlock_low (hl ▸ b.level_le) b.va σ
    rw [hex]
    trivial

theorem unmaps_shrink {calls : List Call} (hg : Good m σ) (hall : ∀ c ∈ calls, c.IsUnmap)
    (h : (Script.runAll (Call.exec m) calls).exec σ = (.ok rcs, σ')) :
    Good m σ' ∧ ∀ va, σ.translate m va = none → σ'.translate m va = none := by
  have hguard : Script.GuardedAll (Call.exec m)
      (Call.Guarded m fun _ o => ∃ b, o = Op.unmap b) calls σ := by
    refine Script.GuardedAll.of_forall (fun c hc σ => Script.Guarded.of_forall ?_ σ) σ
    cases c with
    | map v p s prot => exact absurd (hall _ hc) id
    | unmap v s =>
      intro o ho _
      simp only [Call.ops] at ho
      split at ho
      · obtain ⟨b, -, rfl⟩ := List.mem_map.mp ho
        exact ⟨b, rfl⟩
      · cases ho
  have hout := Call.run_rule (F := fun _ _ => True)
    (I := fun σ' => Good m σ' ∧ ∀ va, σ.translate m va = none → σ'.translate m va = none)
    ?_ ⟨hg, fun _ hva => hva⟩ hguard
  · rw [h] at hout
    exact hout
  · rintro σ₁ o ⟨hg₁, hnone⟩ ⟨b, rfl⟩
    have hgood := Op.exec_good hg₁ (o := .unmap b) trivial
    have hshrink := unmapOp_shrinks hg₁ b
    change Script.Outcome _ _ ((m.unmapOp b).exec σ₁) at hgood
    change Script.Outcome _ _ ((m.unmapOp b).exec σ₁)
    cases hex : (m.unmapOp b).exec σ₁ with
    | mk r σ₂ =>
      rw [hex] at hgood hshrink
      cases r with
      | error e => trivial
      | ok rc => exact ⟨hgood, fun va hva => hshrink va (hnone va hva)⟩

end Abydos.Mmu
