import Abydos.Mmu.Undo

namespace Abydos.Mmu

open Abydos.Lib Abydos.Lib.Radix

variable {m : Mode} {σ σ' σ₀ : State} {v p s va pa : Addr} {prot : BitVec 32} {e : Pte}

inductive Pte.Sound (m : Mode) (thead : Bool) (l : Nat) (e : Pte) : Prop
  | leaf : (e.r = true ∨ e.x = true) → (e.w = true → e.r = true) →
      e.frame % 2 ^ (9 * (m.getMaxLevel - l)) = 0 →
      (e.reserved = 0 ∨ (thead = true ∧ e.reserved = 0x180)) → Sound m thead l e
  | pointer : e.r = false → e.w = false → e.x = false → e.a = false → e.d = false → e.u = false →
      e.reserved = 0 → Sound m thead l e

def State.Sound (m : Mode) (σ : State) : Prop :=
  ∀ l k e, σ.slots l k = some e → e.v = true → e.Sound m σ.thead l

def Pte.marked (e : Pte) : Bool := e.u || e.a || e.d

theorem Pte.marked_eq_false : e.marked = false ↔ e.u = false ∧ e.a = false ∧ e.d = false := by
  unfold Pte.marked
  rw [Bool.or_eq_false_iff, Bool.or_eq_false_iff, and_assoc]

/-- What every entry keeps through its uses: below the root no empty entry is marked, and the
reserved bits are those of T-Head or none. -/
def Pte.Kept (thead : Bool) (l : Nat) (e : Pte) : Prop :=
  (e.v = false → 0 < l → e.marked = false) ∧
    (e.reserved = 0 ∨ (thead = true ∧ e.reserved = 0x180))

def State.Kept (σ : State) : Prop := ∀ l k e, σ.slots l k = some e → e.Kept σ.thead l

theorem Pte.leaf_tagged (e : Pte) (variant : Int) (pa : Addr) (prot : BitVec 32) :
    (e.leaf variant pa prot).reserved = 0 ∨
      (decide (variant = VARIANT_THEAD_C906) = true ∧
        (e.leaf variant pa prot).reserved = 0x180) := by
  unfold Pte.leaf
  dsimp only
  split
  next h => exact Or.inr ⟨decide_eq_true h.1, rfl⟩
  next => exact Or.inl rfl

namespace State.Kept

theorem links (h : σ.Kept) (hl : Links m va n σ σ') : σ'.Kept := by
  induction hl with
  | quiet => exact h
  | link log _ hw _ ht hs hn _ hp hok ih =>
    intro l k e he
    replace he := (hw.linked_slots ht hs hp hok hn l k).symm.trans he
    split at he
    · cases he
      refine ⟨?_, Or.inl rfl⟩
      intro hv
      cases hv
    split at he
    · cases he
      exact ⟨fun _ _ => rfl, Or.inl rfl⟩
    · exact ih l k e he

theorem mapStep (h : σ.Kept) (hprot : Accepted prot) (hs : MapStep m L va pa prot σ r σ') :
    σ'.Kept := by
  cases hs with
  | noMemory hl => exact h.links hl
  | already => exact h
  | @installed q σ₁ e log hl hw ht hs hv =>
    intro l k e' hs'
    have hnext := Pte.next_of_leaf (e.leaf_kind σ.variant pa prot hprot)
    rcases layout.slot_of_write hw.tree ht hnext hs' with ⟨rfl, rfl, rfl⟩ | hs'
    · have hv' := (e.leaf_fields σ.variant pa prot).1
      refine ⟨?_, ?_⟩
      · intro hv
        cases hv'.symm.trans hv
      · have htag := e.leaf_tagged σ.variant pa prot
        rwa [show decide (σ.variant = VARIANT_THEAD_C906) = σ₁.thead from hl.thead.symm] at htag
    · exact h.links hl l k e' hs'

theorem unmapStep (h : σ.Kept) (hw : Wf m σ) (hs : UnmapStep m va σ rc σ') : σ'.Kept := by
  intro l k e hs'
  rw [hs.thead]
  rcases hs.slot_of hw hs' with hs' | ⟨rfl, -, e₁, -, rfl⟩
  · exact h l k e hs'
  · exact ⟨fun _ h0 => absurd h0 (Nat.lt_irrefl 0), Or.inl rfl⟩

end State.Kept

structure Orderly (m : Mode) (σ : State) : Prop extends Good m σ where
  kept : σ.Kept

theorem Orderly.sound (h : Orderly m σ) : σ.Sound m := by
  intro l k e hs hv
  have hok := h.wf.slots hs
  rcases h.full.kind h.wf hs hv with hk | hk
  · obtain ⟨-, hr, hw, hx, hu, ha, hd, -⟩ := Pte.kind_eq_pointer.mp hk
    cases hok with
    | empty hv' => cases hv'.symm.trans hv
    | leaf hk' => cases hk'.symm.trans hk
    | pointer _ hres _ => exact .pointer hr hw hx ha hd hu hres
  · obtain ⟨-, hrx, hwr, -⟩ := Pte.kind_eq_leaf.mp hk
    cases hok with
    | empty hv' => cases hv'.symm.trans hv
    | leaf _ halign => exact .leaf hrx hwr halign (h.kept l k e hs).2
    | pointer hn => exact absurd hk (Pte.not_leaf_of_next hn)

theorem Boot.orderly (hb : Boot σ) (h : (m.new asid variant).exec σ = (.ok (), σ₀)) :
    Orderly m σ₀ where
  toGood := hb.good h
  kept l k e hs := by
    obtain ⟨rfl, rfl⟩ := (hb.new h).2 l k e hs
    exact ⟨fun _ _ => rfl, Or.inl rfl⟩

def Op.LeavesSound (σ : State) (o : Op m) : Prop :=
  ∀ rc σ', o.exec.exec σ = (.ok rc, σ') → σ'.Sound m

def Op.FoundFree (σ : State) (o : Op m) : Prop :=
  ∀ rc σ', o.exec.exec σ = (.ok rc, σ') → o.Free σ

theorem Op.exec_orderly (h : Orderly m σ) {o : Op m} (ho : o.FoundFree σ)
    (hex : o.exec.exec σ = (.ok rc, σ')) : Orderly m σ' := by
  have hgood := Op.exec_good h.toGood (ho rc σ' hex)
  rw [hex] at hgood
  refine ⟨hgood, ?_⟩
  cases o with
  | map b prot hprot =>
    obtain ⟨r, σ₁, hex₁, -, hstep⟩ := mapBlock_step h.wf b.level_le
      (State.Passable.openTo (ho rc σ' hex)) b.pa_dvd hprot
    cases hex₁.symm.trans hex
    exact h.kept.mapStep hprot hstep
  | unmap b =>
    change (m.unmapBlock (m.shift b.level) b.va).exec σ = _ at hex
    cases hl : b.level with
    | zero =>
      obtain ⟨rc₁, σ₁, hex₁, -, hstep⟩ := unmapBlock_root h.wf b.va
      rw [hl] at hex
      cases hex₁.symm.trans hex
      exact h.kept.unmapStep h.wf hstep
    | succ L =>
      obtain ⟨a, σ₁, hex₁⟩ := unmapBlock_low (hl ▸ b.level_le) b.va σ
      rw [hl] at hex
      cases hex₁.symm.trans hex

theorem MapStep.not_sound (h : MapStep m L va pa prot σ (.ok rc) σ') (hL : L ≤ m.getMaxLevel)
    (hpos : 0 < L) (hs : σ.slots 0 (m.key va 0) = some e) (hv : e.v = false)
    (hm : e.marked = true) : ¬ σ'.Sound m := by
  intro hsound
  cases h with
  | already log hs' hv' =>
    obtain ⟨e₀, q, hs₀, hn⟩ := State.above hL hs' 0 hpos
    cases hs₀.symm.trans hs
    cases (Pte.next_of_not_v hv).symm.trans hn
  | @installed t σ₁ e₁ log hl hw ht hs' hv' =>
    obtain ⟨e₀, q, hs₀, hn⟩ := State.above hL hs' 0 hpos
    have hm₀ : e₀.marked = true := by
      have hkept := hl.kept (f := Pte.marked) rfl (fun _ _ => rfl) 0 (m.key va 0)
      rw [hs₀, hs] at hkept
      exact hkept.trans hm
    have hroot : (σ₁.put t (m.key va L) (e₁.leaf σ.variant pa prot) log).slots 0 (m.key va 0) =
        some e₀ := by
      rw [← hs₀]
      apply layout.slot_write_other hw.tree ht
      · exact fun h0 => Nat.ne_of_lt hpos h0.1
      · exact layout.not_below_of_le (Nat.zero_le _)
    obtain ⟨hv₀, hr, -, hx, -⟩ := Pte.next_eq_some.mp hn
    cases hsound 0 _ e₀ hroot hv₀ with
    | leaf hrx => simp [hr, hx] at hrx
    | pointer _ _ _ ha hd hu _ =>
      cases (Pte.marked_eq_false.mpr ⟨hu, ha, hd⟩).symm.trans hm₀

section Block

variable {b : Block m} (h : Orderly m σ) (hprot : Accepted prot) (hc : m.Canonical b.va)
  (hfree : σ.translate m b.va = none)

include h hc hfree

theorem Orderly.not_leaf (hl : l ≤ m.getMaxLevel) (hs : σ.slots l (m.key b.va l) = some e) :
    e.kind σ.thead ≠ .leaf := by
  apply h.wf.not_leaf hc hfree hl hs
  intro j _ e' p hs' hn
  rcases h.full.kind h.wf hs' (Pte.next_eq_some.mp hn).1 with hk | hk
  · obtain ⟨-, -, -, -, hu, ha, hd, -⟩ := Pte.kind_eq_pointer.mp hk
    exact ⟨hu, ha, hd⟩
  · exact absurd hk (Pte.not_leaf_of_next hn)

theorem Orderly.passable_or : σ.Passable m b.va b.level ∨
    (0 < b.level ∧ ∃ e, σ.slots 0 (m.key b.va 0) = some e ∧ e.v = false ∧ e.marked = true) := by
  by_cases hrec : 0 < b.level ∧
      ∃ e, σ.slots 0 (m.key b.va 0) = some e ∧ e.v = false ∧ e.marked = true
  · exact Or.inr hrec
  left
  intro l hl e hs
  refine ⟨h.not_leaf hc hfree (Nat.le_trans (Nat.le_of_lt hl) b.level_le) hs, fun hv => ?_⟩
  apply Pte.marked_eq_false.mp
  rcases Nat.eq_zero_or_pos l with rfl | hpos
  · by_contra hm
    exact hrec ⟨hl, e, hs, hv, Bool.eq_true_of_not_eq_false hm⟩
  · exact (h.kept l _ e hs).1 hv hpos

theorem Orderly.leavesSound_iff :
    Op.LeavesSound σ (.map b prot hprot) ↔ Op.FoundFree σ (.map b prot hprot) := by
  constructor
  · intro hsound rc σ' hex
    rcases h.passable_or hc hfree with hp | ⟨hpos, e, hs, hv, hm⟩
    · exact hp
    have hopen : σ.Open m b.va b.level := fun l hl e hs hk =>
      absurd hk (h.not_leaf hc hfree (Nat.le_trans (Nat.le_of_lt hl) b.level_le) hs)
    obtain ⟨r, σ₁, hex₁, -, hstep⟩ := mapBlock_step h.wf b.level_le hopen b.pa_dvd hprot
    cases hex₁.symm.trans hex
    exact absurd (hsound rc σ' hex) (hstep.not_sound b.level_le hpos hs hv hm)
  · intro hff rc σ' hex
    exact (Op.exec_orderly h hff hex).sound

end Block

theorem Orderly.guarded_iff {a e : Nat} {bs : List (Block m)} (h : Orderly m σ)
    (ht : Tiles Block.start Block.len a e bs)
    (hc : ∀ va : Addr, a ≤ va.toNat → va.toNat < e → m.Canonical va) (hprot : Accepted prot)
    (hfree : ∀ va : Addr, a ≤ va.toNat → va.toNat < e → σ.translate m va = none) :
    Script.Guarded Op.exec Op.LeavesSound (bs.map (.map · prot hprot)) σ ↔
      Script.Guarded Op.exec Op.FoundFree (bs.map (.map · prot hprot)) σ := by
  induction ht generalizing σ with
  | nil => exact Iff.rfl
  | @cons b e bs ht ih =>
    have hle := ht.le
    have hcb : ∀ va, b.Covers va → m.Canonical va := fun va hva =>
      hc va hva.1 (Nat.lt_of_lt_of_le hva.2 hle)
    have hfb := hfree b.va b.covers_self.1 (Nat.lt_of_lt_of_le b.covers_self.2 hle)
    have hiff := h.leavesSound_iff hprot (hcb _ b.covers_self) hfb
    have hrest : Op.FoundFree σ (.map b prot hprot) → ∀ σ₁,
        (Op.exec (.map b prot hprot)).exec σ = (.ok 0, σ₁) →
        (Script.Guarded Op.exec Op.LeavesSound (bs.map (.map · prot hprot)) σ₁ ↔
          Script.Guarded Op.exec Op.FoundFree (bs.map (.map · prot hprot)) σ₁) := by
      intro hff σ₁ hex
      obtain ⟨r, σ₂, hex₂, -, hcase⟩ := mapOp_space h.toGood (hff 0 σ₁ hex) hprot hcb
      cases hex₂.symm.trans hex
      refine ih (Op.exec_orderly h hff hex)
        (fun va h1 h2 => hc va (Nat.le_trans (Nat.le_add_right _ _) h1) h2) ?_
      intro va h1 h2
      have hva := hfree va (Nat.le_trans (Nat.le_add_right _ _) h1) h2
      rcases hcase with hr | ⟨hr, -⟩ | ⟨-, -, -, htr⟩
      · cases hr
      · exact absurd hr (by decide)
      · rw [htr, if_neg (fun hb => Nat.not_lt.mpr h1 hb.2)]
        exact hva
    rw [List.map_cons]
    constructor
    · rintro ⟨hls, hnext⟩
      have hff := hiff.mp hls
      exact ⟨hff, fun σ₁ hex => (hrest hff σ₁ hex).mp (hnext σ₁ hex)⟩
    · rintro ⟨hff, hnext⟩
      exact ⟨hiff.mpr hff, fun σ₁ hex => (hrest hff σ₁ hex).mpr (hnext σ₁ hex)⟩

def Call.Disjoint (m : Mode) (σ : State) : Call → Prop
  | .map v p s prot => MapArgs v p s prot →
    m.InHalf v s ∧ ∀ va, InRange v s va → σ.translate m va = none
  | .unmap _ _ => True

theorem Orderly.call_iff (h : Orderly m σ) {c : Call} (hd : c.Disjoint m σ) :
    c.Guarded m Op.LeavesSound σ ↔ c.Guarded m Op.FoundFree σ := by
  cases c with
  | map v p s prot =>
    unfold Call.Guarded
    by_cases hargs : MapArgs v p s prot
    · obtain ⟨hhalf, hfree⟩ := hd hargs
      rw [Call.ops_map hargs]
      exact h.guarded_iff hargs.tiles (fun va h1 h2 => hhalf.canonical ⟨h1, h2⟩) hargs.accepted
        (fun va h1 h2 => hfree va ⟨h1, h2⟩)
    · rw [show (Call.map v p s prot).ops m = [] from dif_neg hargs]
      exact Iff.rfl
  | unmap v s =>
    unfold Call.Guarded
    by_cases hargs : UnmapArgs v s
    · rw [Call.ops_unmap hargs]
      have hff : ∀ o ∈ (m.plan (s.toNat / 4096) s.toNat v v).map Op.unmap, ∀ σ,
          Op.FoundFree σ o := by
        intro o ho σ
        obtain ⟨b, -, rfl⟩ := List.mem_map.mp ho
        exact fun _ _ _ => trivial
      refine iff_of_true ?_ (Script.Guarded.of_forall hff σ)
      apply Script.Guarded.of_invariant (I := Orderly m) h
      intro o ho σ h
      exact ⟨fun rc σ' hex => (Op.exec_orderly h (hff o ho σ) hex).sound,
        fun σ' hex => Op.exec_orderly h (hff o ho σ) hex⟩
    · rw [show (Call.unmap v s).ops m = [] from if_neg hargs]
      exact Iff.rfl

theorem Orderly.call (h : Orderly m σ) {c : Call} (hg : c.Guarded m Op.FoundFree σ)
    (hex : (c.exec m).exec σ = (.ok rc, σ')) : Orderly m σ' := by
  have hout := Call.rule (F := fun _ _ => True) (I := Orderly m) ?_ h hg
  · rw [hex] at hout
    exact hout
  intro σ o h ho
  cases hex : o.exec.exec σ with
  | mk r σ' =>
    cases r with
    | error => trivial
    | ok rc => exact Op.exec_orderly h ho hex

/-- In a run of calls with disjoint live ranges, every block step leaves a table of sound entries
exactly if none finds a recycled entry in its way, an empty one with A, D or U on. -/
theorem entries_sound_iff (hb : Boot σ) (hnew : (m.new asid variant).exec σ = (.ok (), σ₀))
    (calls : List Call) (hd : Script.GuardedAll (Call.exec m) (Call.Disjoint m) calls σ₀) :
    (σ₀.Sound m ∧ Script.GuardedAll (Call.exec m) (Call.Guarded m Op.LeavesSound) calls σ₀) ↔
      Script.GuardedAll (Call.exec m) (Call.Guarded m Op.FoundFree) calls σ₀ := by
  have h := hb.orderly hnew
  rw [and_iff_right h.sound]
  apply Script.guardedAll_congr (I := Orderly m) (fun σ c h hd => h.call_iff hd) ?_ h hd
  exact fun σ c rc σ' h hd hls hex => h.call ((h.call_iff hd).mp hls) hex

def threePages : State := (State.boot [0x1000, 0x2000, 0x3000, 0x4000]).fresh .sv39 0 0 0x1000

theorem threePages_boot : Boot (State.boot [0x1000, 0x2000, 0x3000, 0x4000]) :=
  State.boot_boot _ (by decide) (by decide)

theorem threePages_new :
    (Mode.sv39.new 0 0).exec (State.boot [0x1000, 0x2000, 0x3000, 0x4000]) =
      (.ok (), threePages) :=
  exec_new (by decide) rfl 0 0

theorem threePages_disjoint (h : m = .sv39) (hhalf : m.InHalf v s) :
    (Call.map v p s prot).Disjoint m threePages := by
  subst h
  exact fun _ => ⟨hhalf, fun va _ => threePages_boot.unmapped threePages_new va⟩

theorem entries_sound_iff_page :
    threePages.Sound .sv39 ∧ Script.GuardedAll (Call.exec .sv39)
      (Call.Guarded .sv39 Op.LeavesSound)
      [.map 0x1000 0x5000 0x1000 1, .unmap 0 0x40000000] threePages := by
  refine (entries_sound_iff threePages_boot threePages_new _ ?_).mpr ?_
  · exact ⟨threePages_disjoint rfl (by decide), fun _ _ _ => ⟨trivial, fun _ _ _ => trivial⟩⟩
  refine And.intro (Call.guarded_page (by decide) ?_) fun _ _ _ => And.intro ?_ fun _ _ _ => trivial
  · intro b _ _ _ _ l _ e hs
    obtain ⟨-, rfl⟩ := (threePages_boot.new threePages_new).2 _ _ _ hs
    exact ⟨by rw [Pte.kind_of_not_v rfl]; decide, fun _ => ⟨rfl, rfl, rfl⟩⟩
  · unfold Call.Guarded
    rw [Call.ops_unmap (by decide)]
    apply Script.Guarded.of_forall
    intro o ho σ
    obtain ⟨b, -, rfl⟩ := List.mem_map.mp ho
    exact fun _ _ _ => trivial

def recycled : State :=
  ((Script.runAll (Call.exec .sv39) [.map 0 0x40000000 0x40000000 3, .unmap 0 0x40000000]).exec
    threePages).2

theorem recycled_root :
    recycled.slots 0 0 = some { r := true, w := true, a := true, d := true } := by
  decide +kernel

theorem recycled_free (hva : InRange 0 0x1000 va) : recycled.translate .sv39 va = none := by
  have hkey : Mode.sv39.key va 0 = 0 := by
    obtain ⟨-, hlt⟩ := hva
    change va.toNat < 0 + 0x1000 at hlt
    change va.toNat % 2 ^ 39 / 2 ^ 30 = 0
    omega
  have hs : recycled.slots 0 (Mode.sv39.key va 0) =
      some { r := true, w := true, a := true, d := true } := by
    rw [hkey]
    exact recycled_root
  exact State.translate_eq_none (by decide +kernel) (Nat.zero_le _) hs (Pte.kind_of_not_v rfl)

theorem pointer_unsound :
    Script.GuardedAll (Call.exec .sv39) (Call.Disjoint .sv39)
      [.map 0 0x40000000 0x40000000 3, .unmap 0 0x40000000, .map 0 0x5000 0x1000 1] threePages ∧
    ∃ σ', (Script.runAll (Call.exec .sv39)
      [.map 0 0x40000000 0x40000000 3, .unmap 0 0x40000000, .map 0 0x5000 0x1000 1]).exec
        threePages = (.ok [0, 0, 0], σ') ∧ ¬ σ'.Sound .sv39 := by
  refine ⟨⟨threePages_disjoint rfl (by decide), fun rc σ₁ h₁ => ⟨trivial, fun rc' σ₂ h₂ =>
    ⟨fun _ => ⟨by decide, ?_⟩, fun _ _ _ => trivial⟩⟩⟩, _, Prod.ext (by decide +kernel) rfl, ?_⟩
  · intro va hva
    have hend : (Script.runAll (Call.exec .sv39) []).exec σ₂ = (.ok [], σ₂) := rfl
    have hrun := Script.exec_runAll_ok h₁ (Script.exec_runAll_ok h₂ hend)
    rw [← show recycled = σ₂ from congrArg Prod.snd hrun]
    exact recycled_free hva
  · intro hsound
    have hroot := hsound 0 0 { v := true, a := true, d := true, ppn0 := 2 } (by decide +kernel) rfl
    cases hroot with
    | leaf hrx => simp at hrx
    | pointer _ _ _ ha => cases ha

end Abydos.Mmu
