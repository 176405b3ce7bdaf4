import Abydos.Mmu.Exact

namespace Abydos.Mmu

open Abydos.Lib Abydos.Lib.Radix

variable {m : Mode} {σ σ' σ₀ σ₁ : State} {v p s va pa : Addr} {prot : BitVec 32} {e : Pte}
  {G : Nat → Prop}

namespace UnmapStep

theorem root_table (hw : Wf m σ) (va : Addr) :
    layout.tableAt σ.mem σ.root 0 (m.key va 0 / 512) = some σ.root := by
  rw [m.key_zero_div]
  exact hw.root_linked

theorem slot_of (h : UnmapStep m va σ rc σ') (hw : Wf m σ) (hs : σ'.slots l k = some e) :
    σ.slots l k = some e ∨
      (l = 0 ∧ k = m.key va 0 ∧ ∃ e₁, σ.slots 0 k = some e₁ ∧ e = e₁.clear) := by
  cases h with
  | already => exact Or.inl hs
  | cleared log hs' hv =>
    rcases layout.slot_of_write hw.tree (root_table hw va) (Pte.next_of_not_v rfl) hs with
      ⟨rfl, rfl, rfl⟩ | hs
    · exact Or.inr ⟨rfl, rfl, _, hs', rfl⟩
    · exact Or.inl hs

theorem root_slot (h : UnmapStep m va σ rc σ') (hw : Wf m σ) (hr : rc = 0)
    (hs : σ.slots 0 k = some e) :
    σ'.slots 0 k = some (if k = m.key va 0 then e.clear else e) := by
  cases h with
  | already => exact absurd hr (by decide)
  | cleared log hs' hv =>
    split
    next hk =>
      subst hk
      cases hs'.symm.trans hs
      exact layout.slot_write_self hw.tree (root_table hw va)
    next hk =>
      rw [← hs]
      apply layout.slot_write_other hw.tree (root_table hw va)
      · exact fun h => hk h.2
      · exact layout.not_below_of_le (Nat.zero_le _)

theorem thead (h : UnmapStep m va σ rc σ') : σ'.thead = σ.thead := by
  cases h <;> rfl

end UnmapStep

inductive Cleared (m : Mode) : List (Block m) → State → State → Prop
  | nil {σ : State} : Cleared m [] σ σ
  | cons {b : Block m} {σ σ₁ σ' : State} : Wf m σ → UnmapStep m b.va σ 0 σ₁ →
      Cleared m bs σ₁ σ' → Cleared m (b :: bs) σ σ'

namespace Cleared

variable {bs : List (Block m)}

theorem thead (h : Cleared m bs σ σ') : σ'.thead = σ.thead := by
  induction h with
  | nil => rfl
  | cons _ h _ ih => exact ih.trans h.thead

theorem slot_of (h : Cleared m bs σ σ') (hs : σ'.slots l k = some e) :
    σ.slots l k = some e ∨
      (l = 0 ∧ (∃ b ∈ bs, m.key b.va 0 = k) ∧ ∃ e₁, σ.slots 0 k = some e₁ ∧ e = e₁.clear) := by
  induction h with
  | nil => exact Or.inl hs
  | @cons bs b _ _ _ hw h _ ih =>
    rcases ih hs with hs₁ | ⟨rfl, ⟨b', hb', hk'⟩, e₁, hs₁, rfl⟩
    · rcases h.slot_of hw hs₁ with hs₀ | ⟨rfl, rfl, hcl⟩
      · exact Or.inl hs₀
      · exact Or.inr ⟨rfl, ⟨b, List.mem_cons_self, rfl⟩, hcl⟩
    · refine Or.inr ⟨rfl, ⟨b', List.mem_cons_of_mem _ hb', hk'⟩, ?_⟩
      rcases h.slot_of hw hs₁ with hs₀ | ⟨-, -, e₂, hs₀, rfl⟩
      · exact ⟨e₁, hs₀, rfl⟩
      · exact ⟨e₂, hs₀, rfl⟩

theorem root_slot (h : Cleared m bs σ σ') (hs : σ.slots 0 k = some e) :
    ∃ e', σ'.slots 0 k = some e' ∧ (e' = e ∨ e' = e.clear) ∧
      ((∃ b ∈ bs, m.key b.va 0 = k) → e' = e.clear) := by
  induction h generalizing e with
  | nil =>
    refine ⟨e, hs, Or.inl rfl, ?_⟩
    rintro ⟨b, hb, -⟩
    cases hb
  | @cons bs b _ _ _ hw h _ ih =>
    have hs₁ := h.root_slot hw rfl hs
    split at hs₁
    next hk =>
      obtain ⟨e', hs', hcase, -⟩ := ih hs₁
      have he' : e' = e.clear := by rcases hcase with rfl | rfl <;> rfl
      exact ⟨e', hs', Or.inr he', fun _ => he'⟩
    next hk =>
      obtain ⟨e', hs', hcase, himp⟩ := ih hs₁
      refine ⟨e', hs', hcase, ?_⟩
      rintro ⟨b', hb', hk'⟩
      rcases List.mem_cons.mp hb' with rfl | hb'
      · exact absurd hk'.symm hk
      · exact himp ⟨b', hb', hk'⟩

theorem mild (h : Cleared m bs σ σ') (hp : σ.Pristine)
    (hleaf : ∀ k e, (∃ b ∈ bs, m.key b.va 0 = k) → σ.slots 0 k = some e → e.kind σ.thead = .leaf →
      (e.u = false ∧ e.a = false ∧ e.d = false) ∧ (e.g = true → G k)) : σ'.Mild G := by
  intro l k e hs hk
  rw [h.thead] at hk
  rcases h.slot_of hs with hs₀ | ⟨rfl, hkey, e₁, hs₀, rfl⟩
  · exact ⟨(hp l k e hs₀ hk).1, fun hg => ((hp l k e hs₀ hk).2 hg).2.elim⟩
  · by_cases hk₁ : e₁.kind σ.thead = .leaf
    · exact ⟨(hleaf k e₁ hkey hs₀ hk₁).1, fun hg => ⟨rfl, (hleaf k e₁ hkey hs₀ hk₁).2 hg⟩⟩
    · exact ⟨(hp 0 k e₁ hs₀ hk₁).1, fun hg => ((hp 0 k e₁ hs₀ hk₁).2 hg).2.elim⟩

end Cleared

theorem Block.root_covers {b : Block m} (h : b.level = 0) (hc : ∀ va, b.Covers va → m.Canonical va)
    (hva : m.Canonical va) : m.key va 0 = m.key b.va 0 ↔ b.Covers va := by
  rw [← Block.covers_iff hc va, h]
  exact (and_iff_right hva).symm

theorem run_unmap {a e : Nat} {bs : List (Block m)} (hg : Good m σ)
    (ht : Tiles Block.start Block.len a e bs)
    (hc : ∀ va : Addr, a ≤ va.toNat → va.toNat < e → m.Canonical va)
    (hroot : ∀ b ∈ bs, b.level = 0)
    (hall : ∀ va : Addr, a ≤ va.toNat → va.toNat < e → (σ.translate m va).isSome) :
    ∃ σ', (Script.run m.unmapOp bs).exec σ = (.ok 0, σ') ∧ Good m σ' ∧ Cleared m bs σ σ' ∧
      ∀ va, σ'.translate m va =
        if a ≤ va.toNat ∧ va.toNat < e then none else σ.translate m va := by
  induction ht generalizing σ with
  | nil => exact ⟨σ, rfl, hg, .nil, fun va => (if_neg (by omega)).symm⟩
  | @cons b e bs ht ih =>
    have hle := ht.le
    have h0 := hroot b List.mem_cons_self
    have hcb : ∀ va, b.Covers va → m.Canonical va := fun va hva =>
      hc va hva.1 (Nat.lt_of_lt_of_le hva.2 hle)
    obtain ⟨rc, σ₁, hex, hw₁, hstep⟩ := unmapBlock_root hg.wf b.va
    have hop : (m.unmapOp b).exec σ = (.ok rc, σ₁) := by
      unfold Mode.unmapOp
      rw [h0, hex]
    rcases hstep.space hg.wf hg.full with ⟨-, -, -, -, hnone⟩ | ⟨rfl, hf₁, htr⟩
    · have hsome := hall b.va (Nat.le_refl _) (Nat.lt_of_lt_of_le b.covers_self.2 hle)
      rw [hnone b.va rfl] at hsome
      cases hsome
    have htr₁ : ∀ va, σ₁.translate m va = if b.Covers va then none else σ.translate m va := by
      intro va
      rw [htr]
      by_cases hva : m.Canonical va
      · exact if_congr (Block.root_covers h0 hcb hva) rfl rfl
      · rw [State.translate_not_canonical hva, ite_self, ite_self]
    have hrest {va : Addr} (h1 : b.start + b.len ≤ va.toNat) : b.start ≤ va.toNat :=
      Nat.le_trans (Nat.le_add_right _ _) h1
    obtain ⟨σ', hex', hg', hcl, htr'⟩ := ih ⟨hw₁, hf₁⟩ (fun va h1 h2 => hc va (hrest h1) h2)
      (fun b' hb' => hroot b' (List.mem_cons_of_mem _ hb')) (by
        intro va h1 h2
        rw [htr₁, if_neg (fun hb => Nat.not_lt.mpr h1 hb.2)]
        exact hall va (hrest h1) h2)
    refine ⟨σ', (Script.exec_run_next hop).trans hex', hg', .cons hg.wf hstep hcl, fun va => ?_⟩
    rw [htr', htr₁]
    by_cases hva : b.Covers va
    · rw [if_pos hva, ite_self, if_pos ⟨hva.1, Nat.lt_of_lt_of_le hva.2 hle⟩]
    · rw [if_neg hva]
      refine if_congr ?_ rfl rfl
      unfold Block.Covers at hva
      omega

theorem run_unmap_root {bs : List (Block m)} (h : (Script.run m.unmapOp bs).exec σ = (.ok 0, σ')) :
    ∀ b ∈ bs, b.level = 0 := by
  induction bs generalizing σ with
  | nil => exact fun b hb => absurd hb List.not_mem_nil
  | cons b bs ih =>
    cases hl : b.level with
    | zero =>
      intro b' hb'
      rcases List.mem_cons.mp hb' with rfl | hb'
      · exact hl
      · obtain ⟨σ₁, -, hrest⟩ := Script.exec_run_ok h
        exact ih hrest b' hb'
    | succ L =>
      obtain ⟨t, σ₁, hex⟩ := unmapBlock_low (hl ▸ b.level_le) b.va σ
      have hop : (m.unmapOp b).exec σ = (.error (.fault t), σ₁) := by
        unfold Mode.unmapOp
        rw [hl, hex]
      cases (Script.exec_run_error hop).symm.trans h

theorem tiles_root {a e : Nat} {bs : List (Block m)} (ht : Tiles Block.start Block.len a e bs)
    (hroot : ∀ b ∈ bs, b.level = 0) (hlt : a < e) : 2 ^ m.shift 0 ∣ a ∧ 2 ^ m.shift 0 ∣ e := by
  induction ht with
  | nil => exact absurd hlt (Nat.lt_irrefl _)
  | @cons b e bs ht ih =>
    have hb := b.va_dvd
    have hlen : b.len = 2 ^ m.shift 0 := by
      unfold Block.len
      rw [hroot b List.mem_cons_self]
    rw [hroot b List.mem_cons_self] at hb
    refine ⟨hb, ?_⟩
    rcases Nat.lt_or_eq_of_le ht.le with hlt' | heq
    · exact (ih (fun b' hb' => hroot b' (List.mem_cons_of_mem _ hb')) hlt').2
    · rw [← heq, hlen]
      exact Nat.dvd_add hb (Nat.dvd_refl _)

theorem root_leaf_translation (hw : Wf m σ) (hs : σ.slots 0 (m.key va 0) = some e)
    (hk : e.kind σ.thead = .leaf) (ht : σ.translate m va = some t) :
    t = e.translation m 0 false va := by
  obtain ⟨l, hl, hp, e', hs', -, -, rfl⟩ := State.translate_some hw.satp ht
  cases l with
  | zero =>
    cases hs'.symm.trans hs
    rfl
  | succ l =>
    obtain ⟨e₀, hs₀, hptr⟩ := hp 0 (Nat.succ_pos l)
    cases hs₀.symm.trans hs
    cases hptr.symm.trans hk

theorem Hw.leaf_pa_lt {g : Bool} {w : BitVec 64} (hi : i ≤ 4) (h : Hw.leaf va i g w = some t) :
    t.pa < 2 ^ 56 := by
  have hw : Hw.ppn w < 2 ^ 44 := (w.extractLsb' 10 44).isLt
  unfold Hw.leaf at h
  split at h
  · cases h
  next ha =>
    cases h
    push Not at ha
    change Hw.ppn w * 4096 + va.toNat % 2 ^ (12 + 9 * i) < 2 ^ 56
    interval_cases i <;> simp only [Nat.reduceMul, Nat.reduceAdd] at ha ⊢ <;> omega

theorem Hw.walk_pa_lt {g : Bool} {mem : Nat → BitVec 64} (hi : i ≤ 4)
    (h : Hw.walk thead mem va i a g = some t) : t.pa < 2 ^ 56 := by
  induction i generalizing a g with
  | zero =>
    unfold Hw.walk at h
    dsimp only at h
    split at h
    · cases h
    · exact Hw.leaf_pa_lt hi h
    · cases h
  | succ i ih =>
    unfold Hw.walk at h
    dsimp only at h
    split at h
    · cases h
    · exact Hw.leaf_pa_lt hi h
    · exact ih (Nat.le_of_succ_le hi) h

theorem translate_pa_lt (ht : σ.translate m va = some t) : t.pa < 2 ^ 56 := by
  unfold State.translate at ht
  split at ht
  · exact Hw.walk_pa_lt (by cases m <;> decide) ht
  · cases ht

def State.Vacant (m : Mode) (σ : State) (a b : Nat) : Prop :=
  ∀ va : Addr, a ≤ va.toNat → va.toNat < b → ∀ l ≤ m.getMaxLevel, ∀ e,
    σ.slots l (m.key va l) = some e → e.kind σ.thead ≠ .leaf

theorem State.vacant_of_root {a b : Nat} (h : ∀ va : Addr, a ≤ va.toNat → va.toNat < b →
    ∃ e, σ.slots 0 (m.key va 0) = some e ∧ e.v = false) : σ.Vacant m a b := by
  intro va h1 h2 l hl e hs hk
  obtain ⟨e₀, hs₀, hv⟩ := h va h1 h2
  cases l with
  | zero =>
    cases hs₀.symm.trans hs
    cases (Pte.kind_of_not_v hv).symm.trans hk
  | succ l =>
    obtain ⟨e₁, p, hs₁, hn⟩ := State.above hl hs 0 (Nat.succ_pos l)
    cases hs₀.symm.trans hs₁
    cases (Pte.next_of_not_v hv).symm.trans hn

theorem run_stale {a b : Nat} {bs : List (Block m)} (hw : Wf m σ)
    (ht : Tiles Block.start Block.len a b bs)
    (hc : ∀ va : Addr, a ≤ va.toNat → va.toNat < b → m.Canonical va) (hprot : Accepted prot)
    (hvac : σ.Vacant m a b) (hlow : ∀ b ∈ bs, b.level ≠ 0)
    (hs : σ.slots 0 k = some e) (hk : e.kind σ.thead ≠ .leaf)
    (h : (Script.run (m.mapOp prot) bs).exec σ = (.ok 0, σ')) :
    Wf m σ' ∧ ∃ e', σ'.slots 0 k = some e' ∧ e'.kind σ'.thead ≠ .leaf ∧ e'.a = e.a ∧ e'.u = e.u ∧
      e'.g = e.g := by
  induction ht generalizing σ e with
  | nil =>
    cases h
    exact ⟨hw, e, hs, hk, rfl, rfl, rfl⟩
  | @cons blk b bs ht ih =>
    have hle := ht.le
    have hin {va : Addr} (hva : blk.Covers va) : blk.start ≤ va.toNat ∧ va.toNat < b :=
      ⟨hva.1, Nat.lt_of_lt_of_le hva.2 hle⟩
    have hcb : ∀ va, blk.Covers va → m.Canonical va := fun va hva => hc va (hin hva).1 (hin hva).2
    have hopen : σ.Open m blk.va blk.level := fun l hl e' hs' hk' =>
      absurd hk' (hvac blk.va (hin blk.covers_self).1 (hin blk.covers_self).2 l
        (Nat.le_trans (Nat.le_of_lt hl) blk.level_le) e' hs')
    obtain ⟨σ₁, hop, hrest⟩ := Script.exec_run_ok h
    obtain ⟨r, σ₂, hex, hw₁, hstep⟩ := mapBlock_step hw blk.level_le hopen blk.pa_dvd hprot
    cases hex.symm.trans hop
    have hkeep : ∃ e₁, σ₁.slots 0 k = some e₁ ∧ e₁.kind σ.thead ≠ .leaf ∧ e₁.a = e.a ∧
        e₁.u = e.u ∧ e₁.g = e.g := by
      by_cases hkey : m.key blk.va 0 = k
      · subst hkey
        obtain ⟨L, hL⟩ := Nat.exists_eq_succ_of_ne_zero (hlow blk List.mem_cons_self)
        rw [hL] at hstep
        exact hstep.root_keep hs hk
      · exact ⟨e, (hstep.root_frame hkey).trans hs, hk, rfl, rfl, rfl⟩
    obtain ⟨e₁, hs₁, hk₁, ha₁, hu₁, hg₁⟩ := hkeep
    have hvac₁ : σ₁.Vacant m (blk.start + blk.len) b := by
      intro va h1 h2 l hl e' hs' hk'
      have h1' : blk.start ≤ va.toNat := Nat.le_trans (Nat.le_add_right _ _) h1
      rw [hstep.thead] at hk'
      refine hvac va h1' h2 l hl e' (hstep.leaf_of hprot hs' hk' ?_) hk'
      rintro ⟨rfl, hkey⟩
      exact Nat.not_lt.mpr h1 ((Block.covers_iff hcb va).mp ⟨hc va h1' h2, hkey⟩).2
    obtain ⟨hw', e', hs', hk', ha', hu', hg'⟩ := ih hw₁
      (fun va h1 h2 => hc va (Nat.le_trans (Nat.le_add_right _ _) h1) h2) hvac₁
      (fun b' hb' => hlow b' (List.mem_cons_of_mem _ hb')) hs₁ (hstep.thead ▸ hk₁) hrest
    exact ⟨hw', e', hs', hk', ha'.trans ha₁, hu'.trans hu₁, hg'.trans hg₁⟩

theorem gAbove_root {sl : Slots} (hg : sl.g 0 (m.key va 0) = true) (hl : 0 < l) :
    Slots.gAbove m sl va l = true := by
  induction l with
  | zero => cases hl
  | succ l ih =>
    unfold Slots.gAbove
    rw [Bool.or_eq_true]
    rcases Nat.eq_zero_or_pos l with rfl | hpos
    · exact Or.inr hg
    · exact Or.inl (ih hpos)

theorem translate_root (hw : Wf m σ) (hs : σ.slots 0 (m.key va 0) = some e)
    (hk : e.kind σ.thead ≠ .leaf) (ht : σ.translate m va = some t) :
    e.a = false ∧ e.u = false ∧ (e.g = true → t.g = true) := by
  rcases State.kind_of_translate hw.satp ht (Nat.zero_le _) hs with hp | hleaf
  · obtain ⟨-, -, -, -, hu, ha, -⟩ := Pte.kind_eq_pointer.mp hp
    refine ⟨ha, hu, fun hg => ?_⟩
    obtain ⟨l, -, -, e', hs', hk', -, rfl⟩ := State.translate_some hw.satp ht
    have hpos : 0 < l := by
      rcases Nat.eq_zero_or_pos l with rfl | h
      · cases hs'.symm.trans hs
        exact absurd hk' hk
      · exact h
    have hroot : σ.slots.g 0 (m.key va 0) = true := by
      unfold Slots.g
      rw [hs]
      exact hg
    change (Slots.gAbove m σ.slots va l || e'.g) = true
    rw [gAbove_root hroot hpos, Bool.true_or]
  · exact absurd hleaf hk

end Abydos.Mmu
