import Abydos.Mmu.Block

namespace Abydos.Mmu

open Abydos.Lib Abydos.Lib.Radix

variable {m : Mode} {σ σ' : State} {va va' pa : Addr} {e : Pte} {prot : BitVec 32}

theorem Mode.exists_canonical (m : Mode) (va : Addr) :
    ∃ va', m.Canonical va' ∧ ∀ l, m.key va' l = m.key va l := by
  suffices h : ∃ va', m.Canonical va' ∧ m.low va' = m.low va by
    obtain ⟨va', hc, hlow⟩ := h
    exact ⟨va', hc, fun l => congrArg (m.idx l) hlow⟩
  have hlt := m.low_lt va
  by_cases hhalf : m.low va < 2 ^ (m.sz - 1)
  · refine ⟨BitVec.ofNat 64 (m.low va), Or.inl ?_, ?_⟩ <;> unfold Mode.low at * <;>
      rw [BitVec.toNat_ofNat] <;> cases m <;> simp only [Mode.sz] at * <;> omega
  · refine ⟨BitVec.ofNat 64 (2 ^ 64 - 2 ^ m.sz + m.low va), Or.inr ?_, ?_⟩ <;>
      unfold Mode.low at * <;> rw [BitVec.toNat_ofNat] <;> cases m <;>
      simp only [Mode.sz] at * <;> omega

theorem Mode.key_eq_iff (hl : L ≤ m.getMaxLevel) (h : m.Canonical va) (h' : m.Canonical va') :
    m.key va' L = m.key va L ↔ va'.toNat / 2 ^ m.shift L = va.toNat / 2 ^ m.shift L := by
  have := va.isLt
  have := va'.isLt
  unfold Mode.Canonical at h h'
  unfold Mode.key Mode.idx Mode.low Mode.shift
  cases m with
  | sv39 =>
    change L ≤ 2 at hl
    interval_cases L <;> simp only [Mode.sz, Mode.getMaxLevel] at * <;> omega
  | sv48 =>
    change L ≤ 3 at hl
    interval_cases L <;> simp only [Mode.sz, Mode.getMaxLevel] at * <;> omega
  | sv57 =>
    change L ≤ 4 at hl
    interval_cases L <;> simp only [Mode.sz, Mode.getMaxLevel] at * <;> omega

theorem Mode.key_le (hj : j ≤ l) (hl : l ≤ m.getMaxLevel) (h : m.key va' l = m.key va l) :
    m.key va' j = m.key va j := by
  induction l with
  | zero =>
    cases Nat.le_zero.mp hj
    exact h
  | succ l ih =>
    rcases Nat.lt_or_eq_of_le hj with hj | rfl
    · apply ih (Nat.lt_succ_iff.mp hj) (Nat.le_of_succ_le hl)
      rw [← m.key_div hl, ← m.key_div hl, h]
    · exact h

theorem State.translate_some (hsat : σ.satp.ppn.toNat * 4096 = σ.root)
    (h : σ.translate m va = some t) :
    ∃ l ≤ m.getMaxLevel, Slots.LeafAt m σ.thead σ.slots va l t := by
  rw [State.translate_eq hsat (State.canonical_of_translate h)] at h
  exact Slots.walk_eq_some h

theorem State.kind_of_translate (hsat : σ.satp.ppn.toNat * 4096 = σ.root)
    (h : σ.translate m va = some t) (hl : l ≤ m.getMaxLevel)
    (hs : σ.slots l (m.key va l) = some e) :
    e.kind σ.thead = .pointer ∨ e.kind σ.thead = .leaf := by
  obtain ⟨l', hl', hp, e', hs', hk, -⟩ := State.translate_some hsat h
  rcases Nat.lt_trichotomy l l' with hlt | rfl | hgt
  · obtain ⟨e'', hs'', hk'⟩ := hp l hlt
    cases hs''.symm.trans hs
    exact Or.inl hk'
  · cases hs'.symm.trans hs
    exact Or.inr hk
  · obtain ⟨e'', q, hs'', hn⟩ := State.above hl hs l' hgt
    cases hs''.symm.trans hs'
    exact absurd hk (Pte.not_leaf_of_next hn)

def State.Full (m : Mode) (σ : State) : Prop :=
  ∀ l k e, σ.slots l k = some e → e.v = true → ∃ va, m.key va l = k ∧ (σ.translate m va).isSome

theorem State.Full.kind (hf : σ.Full m) (hw : Wf m σ) (hs : σ.slots l k = some e)
    (hv : e.v = true) : e.kind σ.thead = .pointer ∨ e.kind σ.thead = .leaf := by
  obtain ⟨va, rfl, ht⟩ := hf l k e hs hv
  obtain ⟨t, ht⟩ := Option.isSome_iff_exists.mp ht
  exact State.kind_of_translate hw.satp ht (hw.slot_depth hs) hs

/-- The way down to depth `L` is free for `_map`: no leaf, and no empty entry with A, D or U on. -/
def State.Passable (m : Mode) (σ : State) (va : Addr) (L : Nat) : Prop :=
  ∀ l < L, ∀ e, σ.slots l (m.key va l) = some e →
    e.kind σ.thead ≠ .leaf ∧ (e.v = false → e.u = false ∧ e.a = false ∧ e.d = false)

theorem State.Passable.openTo (h : σ.Passable m va L) : σ.Open m va L :=
  fun l hl e hs hk => absurd hk (h l hl e hs).1

theorem State.Passable.tidy (h : σ.Passable m va L) (hf : σ.Full m) (hw : Wf m σ) :
    σ.Tidy m va L := by
  intro l hl e hs
  refine ⟨(h l hl e hs).1, ?_⟩
  cases hv : e.v with
  | false => exact (h l hl e hs).2 hv
  | true =>
    rcases hf.kind hw hs hv with hp | hleaf
    · obtain ⟨-, -, -, -, hu, ha, hd, -⟩ := Pte.kind_eq_pointer.mp hp
      exact ⟨hu, ha, hd⟩
    · exact absurd hleaf (h l hl e hs).1

theorem Wf.not_leaf (hw : Wf m σ) (hc : m.Canonical va) (hfree : σ.translate m va = none)
    (hl : l ≤ m.getMaxLevel) (hs : σ.slots l (m.key va l) = some e)
    (hclean : ∀ j < l, ∀ e p, σ.slots j (m.key va j) = some e → e.next = some p →
      e.u = false ∧ e.a = false ∧ e.d = false) : e.kind σ.thead ≠ .leaf := by
  intro hk
  have htidy : σ.Tidy m va l := by
    intro j hj e' hs'
    obtain ⟨e'', p, hs'', hn⟩ := State.above hl hs j hj
    cases hs''.symm.trans hs'
    exact ⟨Pte.not_leaf_of_next hn, hclean j hj e' p hs' hn⟩
  have halign : e.frame % 2 ^ (9 * (m.getMaxLevel - l)) = 0 := by
    cases hw.slots hs with
    | empty hv => cases (Pte.kind_of_not_v hv).symm.trans hk
    | leaf _ ha => exact ha
    | pointer hn => exact absurd hk (Pte.not_leaf_of_next hn)
  rw [State.translate_eq hw.satp hc,
    Slots.walk_leaf hl (htidy.path hw hl hs) hs hk halign] at hfree
  cases hfree

def grant (pa : Nat) (prot : BitVec 32) (g : Bool) : Translation where
  pa := pa
  r := prot &&& PROT_R ≠ 0
  w := prot &&& PROT_W ≠ 0
  x := prot &&& PROT_X ≠ 0
  u := prot &&& PROT_U ≠ 0
  g := g || prot &&& PROT_G ≠ 0

theorem Pte.leaf_translation (ha : 4096 ∣ pa.toNat) (variant : Int) (g : Bool) (e : Pte) :
    (e.leaf variant pa prot).translation m L g va =
      grant (pa.toNat % 2 ^ 56 + va.toNat % 2 ^ m.shift L) prot g := by
  obtain ⟨-, hr, hw, hx, hu, hg⟩ := e.leaf_fields variant pa prot
  have hpa : pa.toNat / 4096 % 2 ^ 44 * 4096 = pa.toNat % 2 ^ 56 := by omega
  unfold Pte.translation grant
  rw [hr, hw, hx, hu, hg, Pte.leaf_frame, hpa]

theorem Links.slot_of (h : Links m va n σ σ') (hs : σ'.slots l k = some e) (hv : e.v = true) :
    σ.slots l k = some e ∨ (l < n ∧ k = m.key va l) := by
  induction h generalizing l k e with
  | quiet => exact Or.inl hs
  | link log _ hw hl ht hs' hn _ hp hok ih =>
    replace hs := (hw.linked_slots ht hs' hp hok hn l k).symm.trans hs
    split at hs
    next heq =>
      obtain ⟨rfl, rfl⟩ := heq
      exact Or.inr ⟨hl, rfl⟩
    next =>
      split at hs
      · cases hs
        cases hv
      · exact ih hs hv

theorem shift_page (m : Mode) (L : Nat) (h : 2 ^ m.shift L ∣ n) : 4096 ∣ n :=
  Nat.dvd_trans (Nat.pow_dvd_pow 2 (Nat.le_add_right 12 _)) h

section MapStep

variable (hw : Wf m σ) (hf : σ.Full m) (hp : σ.Passable m va L) (hL : L ≤ m.getMaxLevel)
  (ha : 2 ^ m.shift L ∣ pa.toNat) (hprot : Accepted prot)

include hw hf hp hL ha hprot

theorem installed_translate {σ₁ : State} (h : Links m va L σ σ₁) (hw₁ : Wf m σ₁)
    (ht : layout.tableAt σ₁.mem σ₁.root L (m.key va L / 512) = some p)
    (hs : σ₁.slots L (m.key va L) = some e) (log : List Access) (va' : Addr) :
    (σ₁.put p (m.key va L) (e.leaf σ.variant pa prot) log).translate m va' =
      if m.Canonical va' ∧ m.key va' L = m.key va L then
        some (grant (pa.toNat % 2 ^ 56 + va'.toNat % 2 ^ m.shift L) prot
          (Slots.gAbove m σ.slots va' L))
      else σ.translate m va' := by
  have hclear : ∀ l < L, ∀ e, σ.slots l (m.key va l) = some e → e.kind σ.thead ≠ .leaf :=
    fun l hl e hs => (hp l hl e hs).1
  have htidy := (hp.tidy hf hw).links h
  split
  next hin =>
    obtain ⟨hc, hk⟩ := hin
    have hkind : (e.leaf σ.variant pa prot).kind σ₁.thead = .leaf := by
      rw [h.thead]
      exact e.leaf_kind σ.variant pa prot hprot
    have htidy' : σ₁.Tidy m va' L := by
      intro l hl e hs
      rw [Mode.key_le (Nat.le_of_lt hl) hL hk] at hs
      exact htidy l hl e hs
    rw [put_translate_leaf hw₁ ht log hL hk hc (htidy'.path hw₁ hL (hk ▸ hs)) hkind
      (by rw [Pte.leaf_frame]; exact frame_aligned ha),
      Pte.leaf_translation (shift_page m L ha), Slots.gAbove_congr (fun j _ => h.g j _)]
  next hout =>
    by_cases hc : m.Canonical va'
    · rw [put_translate_other hw₁ ht log (fun hk => hout ⟨hc, hk⟩), h.translate hL hclear]
    · rw [State.translate_not_canonical hc, State.translate_not_canonical hc]

theorem installed_full {σ₁ : State} (h : Links m va L σ σ₁) (hw₁ : Wf m σ₁)
    (ht : layout.tableAt σ₁.mem σ₁.root L (m.key va L / 512) = some p)
    (hs : σ₁.slots L (m.key va L) = some e) (log : List Access) :
    (σ₁.put p (m.key va L) (e.leaf σ.variant pa prot) log).Full m := by
  have htr := installed_translate hw hf hp hL ha hprot h hw₁ ht hs log
  have hnext : (e.leaf σ.variant pa prot).next = none :=
    Pte.next_of_leaf (e.leaf_kind σ.variant pa prot hprot)
  obtain ⟨va₀, hc, hkeys⟩ := m.exists_canonical va
  have hva₀ : (State.translate m (σ₁.put p (m.key va L) (e.leaf σ.variant pa prot) log)
      va₀).isSome := by
    rw [htr, if_pos ⟨hc, hkeys L⟩]
    rfl
  intro l k e' hs' hv
  rcases layout.slot_of_write hw₁.tree ht hnext hs' with ⟨rfl, rfl, -⟩ | hs'
  · exact ⟨va₀, hkeys _, hva₀⟩
  rcases h.slot_of hs' hv with hs' | ⟨-, rfl⟩
  · obtain ⟨va', hk, hsome⟩ := hf l k e' hs' hv
    refine ⟨va', hk, ?_⟩
    rw [htr]
    split
    · rfl
    · exact hsome
  · exact ⟨va₀, hkeys _, hva₀⟩

theorem MapStep.space (h : MapStep m L va pa prot σ r σ') :
    (r = .error .noMemory ∧ ∀ va', σ'.translate m va' = σ.translate m va') ∨
    (r = .ok K_EALREADY ∧ σ'.slots = σ.slots ∧ σ'.Full m ∧
      (∀ va', σ'.translate m va' = σ.translate m va') ∧
      ∃ va', m.key va' L = m.key va L ∧ (σ.translate m va').isSome) ∨
    (r = .ok 0 ∧ σ'.Full m ∧ (∀ va', m.key va' L = m.key va L → σ.translate m va' = none) ∧
      ∀ va', σ'.translate m va' =
        if m.Canonical va' ∧ m.key va' L = m.key va L then
          some (grant (pa.toNat % 2 ^ 56 + va'.toNat % 2 ^ m.shift L) prot
            (Slots.gAbove m σ.slots va' L))
        else σ.translate m va') := by
  have hclear : ∀ l < L, ∀ e, σ.slots l (m.key va l) = some e → e.kind σ.thead ≠ .leaf :=
    fun l hl e hs => (hp l hl e hs).1
  cases h with
  | noMemory h => exact Or.inl ⟨rfl, h.translate hL hclear⟩
  | already log hs hv =>
    exact Or.inr (Or.inl ⟨rfl, rfl, hf, fun _ => rfl, hf L _ _ hs hv⟩)
  | installed log h hw₁ ht hs hv =>
    refine Or.inr (Or.inr ⟨rfl, installed_full hw hf hp hL ha hprot h hw₁ ht hs log, ?_,
      installed_translate hw hf hp hL ha hprot h hw₁ ht hs log⟩)
    intro va' hk
    rw [← h.translate hL hclear]
    exact State.translate_eq_none hw₁.satp hL (hk ▸ hs) (Pte.kind_of_not_v hv)

end MapStep

theorem UnmapStep.space (hw : Wf m σ) (hf : σ.Full m) (h : UnmapStep m va σ rc σ') :
    (rc = K_EALREADY ∧ σ'.slots = σ.slots ∧ σ'.Full m ∧
      (∀ va', σ'.translate m va' = σ.translate m va') ∧
      ∀ va', m.key va' 0 = m.key va 0 → σ.translate m va' = none) ∨
    (rc = 0 ∧ σ'.Full m ∧ ∀ va', σ'.translate m va' =
      if m.key va' 0 = m.key va 0 then none else σ.translate m va') := by
  cases h with
  | already log hs hv =>
    refine Or.inl ⟨rfl, rfl, hf, fun _ => rfl, ?_⟩
    intro va' hk
    exact State.translate_eq_none hw.satp (Nat.zero_le _) (hk ▸ hs) (Pte.kind_of_not_v hv)
  | @cleared e log hs hv =>
    have ht : layout.tableAt σ.mem σ.root 0 (m.key va 0 / 512) = some σ.root := by
      rw [m.key_zero_div]
      exact hw.root_linked
    have htr : ∀ va', (σ.put σ.root (m.key va 0) e.clear log).translate m va' =
        if m.key va' 0 = m.key va 0 then none else σ.translate m va' := by
      intro va'
      split
      next hk => exact put_translate_fault hw ht log (Nat.zero_le _) hk rfl
      next hk => exact put_translate_other hw ht log hk
    refine Or.inr ⟨rfl, ?_, htr⟩
    intro l k e' hs' hv'
    have hcut := hs'
    rcases layout.slot_of_write hw.tree ht (Pte.next_of_not_v rfl) hs' with ⟨rfl, rfl, rfl⟩ | hs'
    · cases hv'
    obtain ⟨va', rfl, hsome⟩ := hf l k e' hs' hv'
    refine ⟨va', rfl, ?_⟩
    rw [htr, if_neg]
    · exact hsome
    -- what hung below the cleared entry is gone
    · intro hroot
      have hself := layout.slot_write_self hw.tree ht (w := e.clear)
      cases l with
      | zero =>
        rw [hroot] at hcut
        cases hself.symm.trans hcut
        cases hv'
      | succ l =>
        obtain ⟨e₀, q, hs₀, hn⟩ := State.above (hw.slot_depth hs') hcut 0 (Nat.succ_pos l)
        rw [hroot] at hs₀
        cases hself.symm.trans hs₀
        cases hn

end Abydos.Mmu
