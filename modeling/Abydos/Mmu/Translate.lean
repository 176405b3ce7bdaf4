import Abydos.Mmu.Create

namespace Abydos.Mmu

open Abydos.Lib Abydos.Lib.Radix

variable {m : Mode} {σ σ' : State} {va va' : Addr} {e : Pte}

theorem Pte.not_leaf_of_next (h : e.next = some p) : e.kind thead ≠ .leaf := by
  intro hk
  obtain ⟨-, hr, -, hx, -⟩ := Pte.next_eq_some.mp h
  obtain ⟨-, hrx, -⟩ := Pte.kind_eq_leaf.mp hk
  simp [hr, hx] at hrx

theorem Pte.next_of_leaf (h : e.kind thead = .leaf) : e.next = none := by
  cases hn : e.next with
  | none => rfl
  | some p => exact absurd h (Pte.not_leaf_of_next hn)

theorem Pte.next_of_not_v (h : e.v = false) : e.next = none := by
  unfold Pte.next
  rw [h]
  rfl

theorem SlotOk.fault (h : SlotOk m thead l e) (hn : e.next = none) (hk : e.kind thead ≠ .leaf) :
    e.v = false ∧ e.frame = 0 := by
  cases h with
  | empty hv hf => exact ⟨hv, hf⟩
  | leaf h => exact absurd h hk
  | pointer h => cases hn.symm.trans h

namespace State

theorem translate_eq (hsat : σ.satp.ppn.toNat * 4096 = σ.root) (hc : m.Canonical va) :
    σ.translate m va = Slots.walk m σ.thead σ.slots va m.getMaxLevel false := by
  unfold translate
  rw [if_pos hc, hsat]
  apply hw_walk_eq m σ.thead σ.mem va (Nat.le_refl _)
  rw [Nat.sub_self, m.idx_zero_div (m.low_lt va)]
  rfl

theorem translate_not_canonical (hc : ¬ m.Canonical va) : σ.translate m va = none := if_neg hc

theorem canonical_of_translate (h : σ.translate m va = some t) : m.Canonical va := by
  by_contra hc
  cases (translate_not_canonical hc).symm.trans h

theorem translate_congr (hsat : σ.satp.ppn.toNat * 4096 = σ.root)
    (hsat' : σ'.satp.ppn.toNat * 4096 = σ'.root) (ht : σ'.thead = σ.thead)
    (h : ∀ l ≤ m.getMaxLevel, σ'.slots l (m.key va l) = σ.slots l (m.key va l)) :
    σ'.translate m va = σ.translate m va := by
  by_cases hc : m.Canonical va
  · rw [translate_eq hsat hc, translate_eq hsat' hc, ht]
    exact Slots.walk_congr m _ h _ _
  · rw [translate_not_canonical hc, translate_not_canonical hc]

theorem parent (hl : l < m.getMaxLevel) (hs : σ.slots (l + 1) (m.key va (l + 1)) = some e) :
    ∃ e' p, σ.slots l (m.key va l) = some e' ∧ e'.next = some p := by
  obtain ⟨p, ht, -⟩ := layout.slot_eq_some.mp hs
  rw [show m.key va (l + 1) / layout.fanout = m.key va l from m.key_div hl va,
    Layout.tableAt_succ] at ht
  obtain ⟨e', hs', hn⟩ := Option.bind_eq_some_iff.mp ht
  exact ⟨e', p, hs', hn⟩

theorem above (hl : l ≤ m.getMaxLevel) (hs : σ.slots l (m.key va l) = some e) :
    ∀ j < l, ∃ e' p, σ.slots j (m.key va j) = some e' ∧ e'.next = some p := by
  induction l generalizing e with
  | zero => exact fun j hj => absurd hj (Nat.not_lt_zero j)
  | succ l ih =>
    obtain ⟨e', p, hs', hn⟩ := parent hl hs
    intro j hj
    rcases Nat.lt_succ_iff_lt_or_eq.mp hj with hj | rfl
    · exact ih (Nat.le_of_succ_le hl) hs' j hj
    · exact ⟨e', p, hs', hn⟩

theorem translate_eq_none (hsat : σ.satp.ppn.toNat * 4096 = σ.root) (hl : l ≤ m.getMaxLevel)
    (hs : σ.slots l (m.key va l) = some e) (hk : e.kind σ.thead = .fault) :
    σ.translate m va = none := by
  by_cases hc : m.Canonical va
  · rw [translate_eq hsat hc]
    refine Slots.walk_eq_none hl ?_ hs hk
    intro j hj
    obtain ⟨e', p, hs', hn⟩ := above hl hs j hj
    exact ⟨e', hs', Pte.not_leaf_of_next hn⟩
  · exact translate_not_canonical hc

end State

theorem linked_translate (hw : Wf m σ) (hl : l < m.getMaxLevel)
    (ht : layout.tableAt σ.mem σ.root l (k / 512) = some p)
    (hs : σ.slots l k = some e) (hn : e.next = none) (hk : e.kind σ.thead ≠ .leaf)
    (hp : t ∉ σ.tables) (hok : PageOk t) (log : List Access) (va : Addr) :
    { σ.linked p k t with log }.translate m va = σ.translate m va := by
  have hslots := hw.linked_slots ht hs hp hok hn
  have hsat : { σ.linked p k t with log }.satp.ppn.toNat * 4096 =
    { σ.linked p k t with log }.root := hw.satp
  by_cases hkey : m.key va l = k
  · subst hkey
    have hchild := hslots (l + 1) (m.key va (l + 1))
    rw [if_neg (fun h => Nat.succ_ne_self l h.1), if_pos ⟨rfl, m.key_div hl va⟩] at hchild
    rw [State.translate_eq_none hw.satp (Nat.le_of_lt hl) hs
        (Pte.kind_of_not_v ((hw.slots hs).fault hn hk).1),
      State.translate_eq_none hsat hl hchild (Pte.kind_of_not_v rfl)]
  · apply State.translate_congr hw.satp hsat rfl
    intro j hj
    refine (hslots j _).trans ?_
    rw [if_neg, if_neg]
    · rintro ⟨rfl, hdiv⟩
      exact hkey ((m.key_div hl va).symm.trans hdiv)
    · rintro ⟨rfl, hk'⟩
      exact hkey hk'

namespace Links

theorem satp (h : Links m va n σ σ') : σ'.satp = σ.satp := by
  induction h with
  | quiet => rfl
  | link _ _ _ _ _ _ _ _ _ _ ih => exact ih

theorem leaf_of (h : Links m va n σ σ') (hs : σ'.slots l k = some e)
    (hk : e.kind σ.thead = .leaf) : σ.slots l k = some e := by
  induction h generalizing l k e with
  | quiet => exact hs
  | link log _ hw _ ht hs' hn _ hp hok ih =>
    replace hs := (hw.linked_slots ht hs' hp hok hn l k).symm.trans hs
    split at hs
    · cases hs
      exact absurd hk (Pte.not_leaf_of_next (Pte.next_link hok _))
    split at hs
    · cases hs
      cases (Pte.kind_of_not_v rfl).symm.trans hk
    · exact ih hs hk

theorem translate (h : Links m va n σ σ') (hn : n ≤ m.getMaxLevel)
    (ho : ∀ l < n, ∀ e, σ.slots l (m.key va l) = some e → e.kind σ.thead ≠ .leaf) (va' : Addr) :
    σ'.translate m va' = σ.translate m va' := by
  induction h with
  | quiet => rfl
  | link log h hw hl ht hs hn' _ hp hok ih =>
    rw [← ih]
    apply linked_translate hw (Nat.lt_of_lt_of_le hl hn) ht hs hn' ?_ hp hok
    intro hk
    rw [h.thead] at hk
    exact ho _ hl _ (h.leaf_of hs hk) hk

theorem kept {f : Pte → Bool} (h : Links m va n σ σ') (hzero : f {} = false)
    (hlink : ∀ e a, f (Pte.link a e) = f e) (l k : Nat) :
    ((σ'.slots l k).map f).getD false = ((σ.slots l k).map f).getD false := by
  induction h with
  | quiet => rfl
  | link log h hw hl ht hs hn _ hp hok ih =>
    rw [← ih]
    refine (congrArg (fun o => (Option.map f o).getD false)
      (hw.linked_slots ht hs hp hok hn l k)).trans ?_
    split
    next heq =>
      obtain ⟨rfl, rfl⟩ := heq
      rw [hs]
      exact hlink _ _
    next =>
      split
      next heq =>
        obtain ⟨rfl, hdiv⟩ := heq
        rw [show State.slots _ _ k = none from layout.slot_child_none hs hn hdiv]
        exact hzero
      next => rfl

theorem g (h : Links m va n σ σ') (l k : Nat) : σ'.slots.g l k = σ.slots.g l k :=
  h.kept rfl (fun _ _ => rfl) l k

end Links

namespace Links

theorem root_frame (h : Links m va n σ σ') (hk : m.key va 0 ≠ k) :
    σ'.slots 0 k = σ.slots 0 k := by
  induction h with
  | quiet => rfl
  | link log h hw hl ht hs hn _ hp hok ih =>
    rw [← ih]
    refine (hw.linked_slots ht hs hp hok hn 0 k).trans ?_
    rw [if_neg, if_neg]
    · rintro ⟨h0, -⟩
      cases h0
    · rintro ⟨rfl, rfl⟩
      exact hk rfl

theorem root_keep (h : Links m va n σ σ') (hs : σ.slots 0 (m.key va 0) = some e)
    (hk : e.kind σ.thead ≠ .leaf) :
    ∃ e', σ'.slots 0 (m.key va 0) = some e' ∧ e'.kind σ.thead ≠ .leaf ∧ e'.a = e.a ∧ e'.u = e.u ∧
      e'.g = e.g := by
  induction h with
  | quiet => exact ⟨e, hs, hk, rfl, rfl, rfl⟩
  | @link l p t σ₁ e₁ log h hw hl ht hs₁ hn _ hp hok ih =>
    obtain ⟨e', he', hk', hbits⟩ := ih
    have heq := hw.linked_slots ht hs₁ hp hok hn 0 (m.key va 0)
    rcases Nat.eq_zero_or_pos l with rfl | hpos
    · cases hs₁.symm.trans he'
      rw [if_pos ⟨rfl, rfl⟩] at heq
      exact ⟨_, heq, Pte.not_leaf_of_next (Pte.next_link hok _), hbits⟩
    · rw [if_neg (fun h => Nat.ne_of_lt hpos h.1), if_neg (fun h => by cases h.1), he'] at heq
      exact ⟨e', heq, hk', hbits⟩

end Links

def State.Tidy (m : Mode) (σ : State) (va : Addr) (n : Nat) : Prop :=
  ∀ l < n, ∀ e, σ.slots l (m.key va l) = some e →
    e.kind σ.thead ≠ .leaf ∧ e.u = false ∧ e.a = false ∧ e.d = false

namespace State.Tidy

theorem links (h : σ.Tidy m va n) (hl : Links m va n σ σ') : σ'.Tidy m va n := by
  induction hl with
  | quiet => exact h
  | link log h' hw hl ht hs hn _ hp hok ih =>
    intro l hln e he
    replace he := (hw.linked_slots ht hs hp hok hn l _).symm.trans he
    split at he
    next heq =>
      obtain ⟨rfl, -⟩ := heq
      cases he
      exact ⟨Pte.not_leaf_of_next (Pte.next_link hok _), (ih _ hl _ hs).2⟩
    next =>
      split at he
      · cases he
        exact ⟨by rw [Pte.kind_of_not_v rfl]; decide, rfl, rfl, rfl⟩
      · exact ih l hln e he

theorem path (h : σ.Tidy m va n) (hw : Wf m σ) (hn : n ≤ m.getMaxLevel)
    (hs : σ.slots n (m.key va n) = some e) : Slots.Path m σ.thead σ.slots va n := by
  intro j hj
  obtain ⟨e', p, hs', hnext⟩ := State.above hn hs j hj
  obtain ⟨hv, hr, hw', hx, -⟩ := Pte.next_eq_some.mp hnext
  refine ⟨e', hs', Pte.kind_eq_pointer.mpr ⟨hv, hr, hw', hx, (h j hj e' hs').2.1,
    (h j hj e' hs').2.2.1, (h j hj e' hs').2.2.2, Or.inl ?_⟩⟩
  cases hw.slots hs' with
  | empty hv' => cases hv'.symm.trans hv
  | leaf hk => exact absurd hk (Pte.not_leaf_of_next hnext)
  | pointer _ hres _ => exact hres

end State.Tidy

end Abydos.Mmu
