import Abydos.Mmu.Table

namespace Abydos.Mmu

open Abydos.Lib Abydos.Lib.Radix

variable {m : Mode} {σ σ' : State} {va a : Addr}

theorem exec_load (h : toPhys a = some q) : (load a).exec σ = (.ok (σ.mem q), σ.logged a) := by
  unfold load record
  rw [Prog.exec_bind_ok (Prog.exec_modify _ _), h]
  rfl

theorem exec_load_fault (h : toPhys a = none) :
    (load a).exec σ = (.error (.fault a), σ.logged a) := by
  unfold load record
  rw [Prog.exec_bind_ok (Prog.exec_modify _ _), h]
  rfl

theorem exec_modifyPTE (h : toPhys a = some q) (f : Pte → Pte) :
    (modifyPTE a f).exec σ = (.ok (), { (σ.logged a).logged a with
      mem := Function.update σ.mem q (f (σ.mem q)) }) := by
  unfold modifyPTE
  rw [Prog.exec_bind_ok (exec_load h)]
  unfold store record
  rw [Prog.exec_bind_ok (Prog.exec_modify _ _), h]
  rfl

theorem exec_alignedMalloc_nil (h : σ.pool = []) :
    alignedMalloc.exec σ = (.error .noMemory, σ) := by
  unfold alignedMalloc
  rw [Prog.exec_bind_ok (Prog.exec_get σ), h]
  rfl

theorem exec_alignedMalloc (h : σ.pool = a :: pool) :
    alignedMalloc.exec σ = (.ok a, { σ with
      pool, tables := (a - K_VADDR_BASE).toNat :: σ.tables }) := by
  unfold alignedMalloc
  rw [Prog.exec_bind_ok (Prog.exec_get σ), h]
  rfl

theorem exec_memset (h : toPhys a = some q) :
    (memset a).exec σ = (.ok (), { σ with mem := zeroPage q σ.mem }) := by
  unfold memset
  rw [h]
  rfl

theorem Wf.relog (h : Wf m σ) {log : List Access} (hlog : ∀ a ∈ log, a.Owned σ.root) :
    Wf m { σ with log } where
  tree := h.tree
  ptes := h.ptes
  satp := h.satp
  pages := h.pages
  linked := h.linked
  pool := h.pool
  nodup := h.nodup
  slots := h.slots
  log := hlog _

theorem Wf.logged (h : Wf m σ) (ht : layout.tableAt σ.mem σ.root l k = some p) (hi : i < 512) :
    Wf m (σ.logged (kva (layout.addr p i))) := by
  apply h.relog
  intro a ha
  rcases List.mem_cons.mp ha with rfl | ha
  · exact ⟨l, k, p, i, ht, h.linked ht, hi, rfl⟩
  · exact h.log ha

def Mode.key (m : Mode) (va : Addr) (l : Nat) : Nat := m.idx l (m.low va)

theorem Mode.key_div (h : l < m.getMaxLevel) (va : Addr) :
    m.key va (l + 1) / 512 = m.key va l := m.idx_div h _

theorem Mode.key_zero_div (m : Mode) (va : Addr) : m.key va 0 / 512 = 0 :=
  m.idx_zero_div (m.low_lt va)

/-- Fresh tables are linked at slots above depth `n` on the path of `va`; the log may grow. -/
inductive Links (m : Mode) (va : Addr) (n : Nat) (σ : State) : State → Prop
  | quiet (log : List Access) : Links m va n σ { σ with log }
  | link {σ₁ : State} {e : Pte} (log : List Access) (h : Links m va n σ σ₁) (hw : Wf m σ₁)
      (hl : l < n)
      (ht : layout.tableAt σ₁.mem σ₁.root l (m.key va l / 512) = some p)
      (hs : σ₁.slots l (m.key va l) = some e) (hn : e.next = none) (hz : e.paddr = 0)
      (hp : t ∉ σ₁.tables) (hok : PageOk t) :
      Links m va n σ { σ₁.linked p (m.key va l) t with log }

theorem Links.mono (h : Links m va n σ σ') (hn : n ≤ n') : Links m va n' σ σ' := by
  induction h with
  | quiet log => exact .quiet log
  | link log _ hw hl ht hs hn' hz hp hok ih =>
    exact .link log ih hw (Nat.lt_of_lt_of_le hl hn) ht hs hn' hz hp hok

theorem Links.requiet (h : Links m va n σ σ') (log : List Access) :
    Links m va n σ { σ' with log } := by
  cases h with
  | quiet _ => exact .quiet log
  | link _ h hw hl ht hs hn hz hp hok => exact .link log h hw hl ht hs hn hz hp hok

theorem Links.ptes (h : Links m va n σ σ') : σ'.ptes = σ.ptes := by
  induction h with
  | quiet => rfl
  | link _ _ _ _ _ _ _ _ _ _ ih => exact ih

theorem Links.variant (h : Links m va n σ σ') : σ'.variant = σ.variant := by
  induction h with
  | quiet => rfl
  | link _ _ _ _ _ _ _ _ _ _ ih => exact ih

theorem Links.root (h : Links m va n σ σ') : σ'.root = σ.root := by
  unfold State.root
  rw [h.ptes]

theorem Links.thead (h : Links m va n σ σ') : σ'.thead = σ.thead := by
  unfold State.thead
  rw [h.variant]

/-- No leaf above depth `n` stands in the way of `createPTE`: it takes a leaf for a table unless
the leaf's address is zero in the direct map. -/
def State.Open (m : Mode) (σ : State) (va : Addr) (n : Nat) : Prop :=
  ∀ l < n, ∀ e, σ.slots l (m.key va l) = some e → e.kind σ.thead = .leaf → e.paddr = 0

theorem exec_link (hw : Wf m σ) (hl : l < m.getMaxLevel)
    (ht : layout.tableAt σ.mem σ.root l (k / 512) = some p)
    (hs : σ.slots l k = some e) (hn : e.next = none) (hpool : σ.pool = kva t :: pool)
    (hp : t ∉ σ.tables) (hok : PageOk t) (x : Addr → MmuM α) :
    ∃ log, Wf m { σ.linked p k t with log } ∧
      (do
        let thisPTE ← alignedMalloc
        memset thisPTE
        modifyPTE (kva (layout.addr p (k % 512))) (Pte.link thisPTE)
        x thisPTE).exec σ = (x (kva t)).exec { σ.linked p k t with log } := by
  have hi : k % 512 < 512 := Nat.mod_lt _ (by decide)
  let here : Access := ⟨zeroPage t σ.mem, t :: σ.tables, kva (layout.addr p (k % 512))⟩
  have hown : here.Owned σ.root :=
    ⟨l, _, p, _, (hw.zero_tableAt hp hok l _).trans ht, List.mem_cons_of_mem _ (hw.linked ht), hi,
      rfl⟩
  refine ⟨here :: here :: σ.log, (hw.link ht hs hp hok hn hl hpool).relog ?_, ?_⟩
  · intro a ha
    rcases List.mem_cons.mp ha with rfl | ha
    · exact hown
    rcases List.mem_cons.mp ha with rfl | ha
    · exact hown
    · exact hw.log ha
  · rw [Prog.exec_bind_ok (exec_alignedMalloc hpool), kva_sub hok.2.2,
      Prog.exec_bind_ok (exec_memset (toPhys_kva hok.2.2)),
      Prog.exec_bind_ok (exec_modifyPTE (toPhys_kva ((hw.page ht).addr_lt hi)) _)]
    unfold State.linked State.logged
    simp only [hpool, List.tail_cons]
    rfl

theorem Wf.slot_paddr (hw : Wf m σ) (hs : σ.slots l k = some e)
    (ho : e.kind σ.thead = .leaf → e.paddr = 0) :
    (e.next = none ∧ e.paddr = 0) ∨
      ∃ q, layout.tableAt σ.mem σ.root (l + 1) k = some q ∧ l < m.getMaxLevel ∧ e.next = some q ∧
        e.paddr ≠ 0 ∧ e.paddr + K_VADDR_BASE = kva q := by
  cases hw.slots hs with
  | empty hv hf =>
    refine Or.inl ⟨?_, ?_⟩
    · unfold Pte.next
      rw [hv]
      rfl
    · rw [Pte.paddr_eq_zero_iff, hf]
      rfl
  | leaf hk =>
    refine Or.inl ⟨?_, ho hk⟩
    obtain ⟨-, hrx, -⟩ := Pte.kind_eq_leaf.mp hk
    unfold Pte.next
    rcases hrx with hr | hx
    · simp [hr]
    · simp [hx]
  | @pointer q hn _ hl =>
    have ht : layout.tableAt σ.mem σ.root (l + 1) k = some q := by
      rw [Layout.tableAt_succ]
      exact Option.bind_eq_some_iff.mpr ⟨e, hs, hn⟩
    obtain ⟨-, hpos, hlt⟩ := hw.page ht
    have hq : e.paddr.toNat = q := by
      rw [Pte.paddr_toNat, (Pte.next_eq_some.mp hn).2.2.2.2, Nat.mod_eq_of_lt hlt]
    refine Or.inr ⟨q, ht, hl, hn, ?_, ?_⟩
    · intro h0
      rw [h0] at hq
      exact Nat.ne_of_lt hpos hq
    · unfold kva
      rw [BitVec.add_comm, ← hq, BitVec.ofNat_toNat, BitVec.setWidth_eq]

theorem createPTE_spec (hw : Wf m σ) (hl : L ≤ m.getMaxLevel) (ho : σ.Open m va L) :
    ∃ r σ', (m.createPTE L va).exec σ = (r, σ') ∧ Links m va L σ σ' ∧ Wf m σ' ∧
      (r = .error .noMemory ∨ ∃ p, layout.tableAt σ'.mem σ'.root L (m.key va L / 512) = some p ∧
        r = .ok (kva (layout.addr p (m.key va L % 512))) ∧
        (σ' = { σ with log := σ'.log } ∨ σ'.slots L (m.key va L) = some {})) := by
  induction L with
  | zero =>
    refine ⟨_, σ, rfl, .quiet σ.log, hw, Or.inr ⟨σ.root, ?_, ?_, Or.inl rfl⟩⟩
    · rw [m.key_zero_div]
      rfl
    · congr 1
      rw [hw.ptes, entry_kva hw.root_ok, m.getVPN_toNat hl]
      rfl
  | succ L ih =>
    obtain ⟨r, σ₁, hex, hlinks, hw₁, hr⟩ :=
      ih (Nat.le_of_succ_le hl) (fun l hl' => ho l (Nat.lt_succ_of_lt hl'))
    unfold Mode.createPTE
    rcases hr with rfl | ⟨p, ht, rfl, hsame⟩
    · exact ⟨_, _, Prog.exec_bind_error hex, hlinks.mono (Nat.le_succ L), hw₁, Or.inl rfl⟩
    obtain ⟨e, he⟩ : ∃ e, σ₁.mem (layout.addr p (m.key va L % 512)) = e := ⟨_, rfl⟩
    have hi : m.key va L % 512 < 512 := Nat.mod_lt _ (by decide)
    have hs : σ₁.slots L (m.key va L) = some e := layout.slot_eq_some.mpr ⟨p, ht, he⟩
    have ho₁ : e.kind σ₁.thead = .leaf → e.paddr = 0 := by
      intro hk
      rcases hsame with hsame | hsame
      · rw [hsame] at hs hk
        exact ho L (Nat.lt_succ_self L) e hs hk
      · cases hsame.symm.trans hs
        cases (Pte.kind_of_not_v rfl).symm.trans hk
    have hdiv := m.key_div hl va
    have hw₂ := hw₁.logged ht hi
    rw [Prog.exec_bind_ok hex,
      Prog.exec_bind_ok (exec_load (toPhys_kva ((hw₁.page ht).addr_lt hi))),
      he]
    rcases hw₁.slot_paddr hs ho₁ with ⟨hn, hz⟩ | ⟨q, hq, -, hn, hne, hq'⟩
    · rw [if_neg (not_not_intro hz)]
      cases hpool : σ₁.pool with
      | nil =>
        exact ⟨_, _, Prog.exec_bind_error (exec_alignedMalloc_nil hpool),
          (hlinks.mono (Nat.le_succ L)).requiet _, hw₂, Or.inl rfl⟩
      | cons a pool =>
        obtain ⟨t, hok, rfl, hnew⟩ := hw₁.pool (hpool ▸ List.mem_cons_self)
        obtain ⟨log, hw₃, hex₃⟩ := exec_link hw₂ hl ht hs hn hpool hnew hok
          (fun thisPTE => return entry thisPTE (m.getVPN (L + 1) va))
        have hslots := hw₂.linked_slots ht hs hnew hok hn
        refine ⟨_, _, hex₃, .link log ((hlinks.mono (Nat.le_succ L)).requiet _) hw₂
          (Nat.lt_succ_self L) ht hs hn hz hnew hok, hw₃, Or.inr ⟨t, ?_, ?_, Or.inr ?_⟩⟩
        · rw [hdiv, Layout.tableAt_succ]
          refine Option.bind_eq_some_iff.mpr ⟨_, (hslots _ _).trans (if_pos ⟨rfl, rfl⟩), ?_⟩
          exact Pte.next_link hok e
        · rw [entry_kva hok, m.getVPN_toNat hl]
          rfl
        · refine (hslots _ _).trans ?_
          rw [if_neg (fun h => Nat.succ_ne_self L h.1), if_pos ⟨rfl, hdiv⟩]
    · rw [if_pos hne]
      refine ⟨_, _, rfl, (hlinks.mono (Nat.le_succ L)).requiet _, hw₂,
        Or.inr ⟨q, ?_, ?_, Or.inl ?_⟩⟩
      · rw [hdiv]
        exact hq
      · change Except.ok (entry (e.paddr + K_VADDR_BASE) _) = _
        rw [hq', entry_kva (hw₁.page hq), m.getVPN_toNat hl]
        rfl
      · rcases hsame with hsame | hsame
        · rw [hsame]
          rfl
        · cases hsame.symm.trans hs
          cases hn

end Abydos.Mmu
