import Abydos.Mmu.Slots

namespace Abydos.Mmu

open Abydos.Lib Abydos.Lib.Radix

def PageOk (p : Nat) : Prop := 4096 ∣ p ∧ 0 < p ∧ p < 2 ^ 38

instance : Decidable (PageOk p) := inferInstanceAs (Decidable (_ ∧ _))

def kva (p : Nat) : Addr := K_VADDR_BASE + BitVec.ofNat 64 p

theorem kva_toNat (h : p < 2 ^ 38) : (kva p).toNat = 0xFFFFFFC000000000 + p := by
  unfold kva K_VADDR_BASE
  rw [BitVec.toNat_add, BitVec.toNat_ofNat, BitVec.toNat_ofNat]
  omega

theorem toPhys_kva (h : p < 2 ^ 38) : toPhys (kva p) = some p := by
  have hk := kva_toNat h
  unfold toPhys
  rw [if_pos (by rw [BitVec.le_def, hk]; unfold K_VADDR_BASE; simp)]
  congr 1
  unfold kva
  rw [BitVec.add_comm, BitVec.add_sub_cancel, BitVec.toNat_ofNat]
  omega

theorem kva_injective (hp : p < 2 ^ 38) (hq : q < 2 ^ 38) (h : kva p = kva q) : p = q := by
  have := toPhys_kva hp
  rw [h, toPhys_kva hq] at this
  exact (Option.some.inj this).symm

theorem kva_sub (h : p < 2 ^ 38) : (kva p - K_VADDR_BASE).toNat = p := by
  unfold kva
  rw [BitVec.add_comm, BitVec.add_sub_cancel, BitVec.toNat_ofNat]
  omega

theorem kva_unmask (h : p < 2 ^ 38) : (kva p &&& ~~~ 0xFFFFFFC000000000#64).toNat = p := by
  have hlow : ~~~ 0xFFFFFFC000000000#64 = BitVec.ofNat 64 (2 ^ 38 - 1) := by decide
  rw [hlow, Word.toNat_and_low _ (by decide), kva_toNat h]
  omega

theorem PageOk.addr_lt (h : PageOk p) (hi : i < 512) : layout.addr p i < 2 ^ 38 := by
  obtain ⟨⟨c, rfl⟩, -, hlt⟩ := h
  unfold Layout.addr
  change 4096 * c + 8 * i < 2 ^ 38
  omega

theorem entry_kva (h : PageOk p) (poff : BitVec 9) :
    entry (kva p) poff = kva (layout.addr p poff.toNat) := by
  have hi := poff.isLt
  have hlt := h.addr_lt hi
  rw [← BitVec.toNat_inj, kva_toNat hlt]
  unfold entry
  rw [BitVec.toNat_add, kva_toNat h.2.2, BitVec.toNat_mul, BitVec.toNat_setWidth]
  unfold Layout.addr at hlt ⊢
  change p + 8 * poff.toNat < 2 ^ 38 at hlt
  change _ = 0xFFFFFFC000000000 + (p + 8 * poff.toNat)
  simp only [BitVec.ofNat_eq_ofNat, BitVec.toNat_ofNat]
  omega

def Access.Owned (root : Nat) (a : Access) : Prop :=
  ∃ l k p i, layout.tableAt a.mem root l k = some p ∧ p ∈ a.tables ∧ i < 512 ∧
    a.addr = kva (layout.addr p i)

inductive SlotOk (m : Mode) (thead : Bool) (l : Nat) (e : Pte) : Prop
  | empty : e.v = false → e.frame = 0 → SlotOk m thead l e
  | leaf : e.kind thead = .leaf → e.frame % 2 ^ (9 * (m.getMaxLevel - l)) = 0 →
      e.a = e.r → e.d = e.w → SlotOk m thead l e
  | pointer : e.next = some p → e.reserved = 0 → l < m.getMaxLevel → SlotOk m thead l e

structure Wf (m : Mode) (σ : State) : Prop where
  tree : layout.Tree σ.mem σ.root
  ptes : σ.ptes = kva σ.root
  satp : σ.satp.ppn.toNat * 4096 = σ.root
  pages : p ∈ σ.tables → PageOk p
  linked : layout.tableAt σ.mem σ.root l k = some p → p ∈ σ.tables
  pool : a ∈ σ.pool → ∃ p, PageOk p ∧ a = kva p ∧ p ∉ σ.tables
  nodup : σ.pool.Nodup
  slots : σ.slots l k = some e → SlotOk m σ.thead l e
  log : a ∈ σ.log → a.Owned σ.root

namespace Wf

variable {m : Mode} {σ : State}

theorem page (h : Wf m σ) (ht : layout.tableAt σ.mem σ.root l k = some p) : PageOk p :=
  h.pages (h.linked ht)

theorem root_linked (_ : Wf m σ) : layout.tableAt σ.mem σ.root 0 0 = some σ.root := rfl

theorem root_ok (h : Wf m σ) : PageOk σ.root := h.page h.root_linked

theorem slot_depth (h : Wf m σ) (hs : σ.slots l k = some e) : l ≤ m.getMaxLevel := by
  cases l with
  | zero => exact Nat.zero_le _
  | succ l =>
    obtain ⟨p, ht, -⟩ := (layout.slot_eq_some).mp hs
    rw [Layout.tableAt_succ] at ht
    obtain ⟨e', hs', hn⟩ := Option.bind_eq_some_iff.mp ht
    cases h.slots hs' with
    | empty hv =>
      have := (Pte.next_eq_some.mp hn).1
      rw [hv] at this
      cases this
    | leaf hk =>
      obtain ⟨-, hr, hw, hx, -⟩ := Pte.next_eq_some.mp hn
      obtain ⟨-, hrx, -⟩ := Pte.kind_eq_leaf.mp hk
      rw [hr, hx] at hrx
      simp at hrx
    | pointer _ _ hl => exact hl

theorem put (h : Wf m σ) (ht : layout.tableAt σ.mem σ.root l (k / 512) = some p)
    (hn : e.next = none) (hok : SlotOk m σ.thead l e) :
    Wf m { σ with mem := layout.write σ.mem p k e } where
  tree := h.tree.write layout ht hn
  ptes := h.ptes
  satp := h.satp
  pages := h.pages
  linked hq := h.linked (layout.tableAt_of_write h.tree ht hn hq)
  pool := h.pool
  nodup := h.nodup
  slots hs := by
    rcases layout.slot_of_write h.tree ht hn hs with ⟨rfl, rfl, rfl⟩ | hs
    · exact hok
    · exact h.slots hs
  log := h.log

end Wf

namespace State

def logged (σ : State) (a : Addr) : State :=
  { σ with log := ⟨σ.mem, σ.tables, a⟩ :: σ.log }

/-- The page `t` is taken from the heap, zeroed and linked from slot `k` of the table `p`. -/
def linked (σ : State) (p k t : Nat) : State :=
  { σ with
    mem := layout.write (zeroPage t σ.mem) p k
      ((zeroPage t σ.mem (layout.addr p (k % 512))).link (kva t))
    pool := σ.pool.tail
    tables := t :: σ.tables }

end State

theorem Pte.next_link (h : PageOk t) (e : Pte) : (e.link (kva t)).next = some t := by
  obtain ⟨⟨c, rfl⟩, hpos, hlt⟩ := h
  rw [Pte.next_eq_some]
  refine ⟨rfl, rfl, rfl, rfl, ?_⟩
  change (e.ppn (kva (4096 * c) &&& ~~~ 0xFFFFFFC000000000#64)).frame * 4096 = 4096 * c
  rw [Pte.frame_ppn, kva_unmask hlt]
  omega

theorem zeroPage_self (t : Nat) (mem : Mem) (hi : i < 512) :
    zeroPage t mem (layout.addr t i) = {} := by
  unfold zeroPage
  rw [if_pos]
  change t ≤ t + 8 * i ∧ t + 8 * i < t + 4096
  omega

theorem fresh_zero (t : Nat) (mem : Mem) (i : Nat) (hi : i < layout.fanout) :
    layout.next (zeroPage t mem (layout.addr t i)) = none := by
  rw [zeroPage_self t mem hi]
  rfl

namespace Wf

variable {m : Mode} {σ : State} {e : Pte}

theorem zeroPage_other (h : Wf m σ) (hp : t ∉ σ.tables) (hok : PageOk t)
    (hq : layout.tableAt σ.mem σ.root l k = some q) (hi : i < 512) :
    zeroPage t σ.mem (layout.addr q i) = σ.mem (layout.addr q i) := by
  have hne : t ≠ q := fun e => hp (e ▸ h.linked hq)
  obtain ⟨⟨c, rfl⟩, -⟩ := hok
  obtain ⟨⟨d, rfl⟩, -⟩ := h.page hq
  unfold zeroPage
  rw [if_neg]
  change ¬ (4096 * c ≤ 4096 * d + 8 * i ∧ 4096 * d + 8 * i < 4096 * c + 4096)
  omega

theorem zero_tableAt (h : Wf m σ) (hp : t ∉ σ.tables) (hok : PageOk t) (l k : Nat) :
    layout.tableAt (zeroPage t σ.mem) σ.root l k = layout.tableAt σ.mem σ.root l k :=
  layout.tableAt_congr (fun _ _ _ hq _ hi => h.zeroPage_other hp hok hq hi) l k

theorem zero_slot (h : Wf m σ) (hp : t ∉ σ.tables) (hok : PageOk t) (l k : Nat) :
    layout.slot (zeroPage t σ.mem) σ.root l k = σ.slots l k :=
  layout.slot_congr (fun _ _ _ hq _ hi => h.zeroPage_other hp hok hq hi) l k

theorem zero_tree (h : Wf m σ) (hp : t ∉ σ.tables) (hok : PageOk t) :
    layout.Tree (zeroPage t σ.mem) σ.root where
  aligned hq := h.tree.aligned ((h.zero_tableAt hp hok _ _).symm.trans hq)
  inj hq hq' := h.tree.inj ((h.zero_tableAt hp hok _ _).symm.trans hq)
    ((h.zero_tableAt hp hok _ _).symm.trans hq')

theorem fresh_unlinked (h : Wf m σ) (hp : t ∉ σ.tables) (hok : PageOk t) (l k : Nat) :
    layout.tableAt (zeroPage t σ.mem) σ.root l k ≠ some t :=
  fun hq => hp (h.linked ((h.zero_tableAt hp hok l k).symm.trans hq))

section Link

variable (h : Wf m σ) (ht : layout.tableAt σ.mem σ.root l (k / 512) = some p)
  (hs : σ.slots l k = some e) (hp : t ∉ σ.tables) (hok : PageOk t)

include h ht hs hp hok

theorem linked_word : zeroPage t σ.mem (layout.addr p (k % 512)) = e := by
  rw [h.zeroPage_other hp hok ht (Nat.mod_lt _ (by decide))]
  obtain ⟨q, hq, he⟩ := layout.slot_eq_some.mp hs
  rw [← he]
  rw [show layout.tableAt σ.mem σ.root l (k / layout.fanout) = some p from ht] at hq
  cases hq
  rfl

theorem linked_mem : (σ.linked p k t).mem =
    layout.write (zeroPage t σ.mem) p k (e.link (kva t)) := by
  unfold State.linked
  rw [h.linked_word ht hs hp hok]

theorem linked_slots (hn : e.next = none) (l' k' : Nat) :
    (σ.linked p k t).slots l' k' =
      if l' = l ∧ k' = k then some (e.link (kva t))
      else if l' = l + 1 ∧ k' / 512 = k then some {}
      else σ.slots l' k' := by
  have hw : layout.next (e.link (kva t)) = some t := Pte.next_link hok e
  change layout.slot (σ.linked p k t).mem σ.root l' k' = _
  rw [h.linked_mem ht hs hp hok, layout.slot_link (h.zero_tree hp hok)
    ((h.zero_tableAt hp hok _ _).trans ht) hok.1 (h.fresh_unlinked hp hok) hw (fresh_zero t σ.mem)
    ((h.zero_slot hp hok l k).trans hs) hn]
  have hk : k' % layout.fanout < 512 := Nat.mod_lt _ (by decide)
  rw [h.zero_slot hp hok, zeroPage_self t σ.mem hk]
  rfl

theorem link (hn : e.next = none) (hl : l < m.getMaxLevel) (hpool : σ.pool = kva t :: pool') :
    Wf m (σ.linked p k t) where
  tree := by
    have hw : layout.next (e.link (kva t)) = some t := Pte.next_link hok e
    change layout.Tree (σ.linked p k t).mem σ.root
    rw [h.linked_mem ht hs hp hok]
    exact (h.zero_tree hp hok).link layout ((h.zero_tableAt hp hok _ _).trans ht) hok.1
      (h.fresh_unlinked hp hok) hw (fresh_zero t σ.mem)
  ptes := h.ptes
  satp := h.satp
  pages hq := by
    rcases List.mem_cons.mp hq with rfl | hq
    · exact hok
    · exact h.pages hq
  linked hq := by
    have hw : layout.next (e.link (kva t)) = some t := Pte.next_link hok e
    change layout.tableAt (σ.linked p k t).mem σ.root _ _ = _ at hq
    rw [h.linked_mem ht hs hp hok] at hq
    rcases layout.tableAt_of_link (h.zero_tree hp hok) ((h.zero_tableAt hp hok _ _).trans ht) hok.1
      (h.fresh_unlinked hp hok) hw (fresh_zero t σ.mem) hq with hq | ⟨rfl, -⟩
    · exact List.mem_cons_of_mem _ (h.linked ((h.zero_tableAt hp hok _ _).symm.trans hq))
    · exact List.mem_cons_self
  pool ha := by
    unfold State.linked at ha
    simp only [hpool, List.tail_cons] at ha
    have hnd := h.nodup
    rw [hpool, List.nodup_cons] at hnd
    obtain ⟨p', hp', rfl, hnot⟩ := h.pool (hpool ▸ List.mem_cons_of_mem _ ha)
    refine ⟨p', hp', rfl, ?_⟩
    intro hmem
    rcases List.mem_cons.mp hmem with rfl | hmem
    · exact hnd.1 ha
    · exact hnot hmem
  nodup := h.nodup.tail
  slots hs' := by
    rw [h.linked_slots ht hs hp hok hn] at hs'
    split at hs'
    next heq =>
      cases hs'
      obtain ⟨rfl, -⟩ := heq
      exact .pointer (Pte.next_link hok e) rfl hl
    next =>
      split at hs'
      · cases hs'
        exact .empty rfl rfl
      · exact h.slots hs'
  log := h.log

end Link

end Wf

end Abydos.Mmu
