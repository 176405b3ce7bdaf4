import Abydos.Lib.Keeps
import Abydos.Mmu.Exact

namespace Abydos.Mmu

open Abydos.Lib Abydos.Lib.Radix

variable {m : Mode} {σ σ' σ₁ σ₂ σ₃ : State}

def phys (a : Addr) : Nat := (a - K_VADDR_BASE).toNat

def InPage (p a : Nat) : Prop := p ≤ a ∧ a < p + 4096

instance : Decidable (InPage p a) := inferInstanceAs (Decidable (_ ∧ _))

/-- Pages went from the heap to the tables, and every word that changed was accessed by the MMU or
lies in one of its pages. -/
structure Framed (σ σ' : State) : Prop where
  heap : ∃ ts, σ.pool = ts ++ σ'.pool ∧ σ'.tables = (ts.map phys).reverse ++ σ.tables
  words : ∃ new, σ'.log = new ++ σ.log ∧ (∀ x ∈ new, x.tables ⊆ σ'.tables) ∧
    ∀ a, σ'.mem a = σ.mem a ∨ (∃ x ∈ new, toPhys x.addr = some a) ∨ ∃ p ∈ σ'.tables, InPage p a
  ptes : σ'.ptes = σ.ptes
  variant : σ'.variant = σ.variant
  satp : σ'.satp = σ.satp

namespace Framed

theorem refl (σ : State) : Framed σ σ where
  heap := ⟨[], rfl, rfl⟩
  words := ⟨[], rfl, by simp, fun _ => Or.inl rfl⟩
  ptes := rfl
  variant := rfl
  satp := rfl

theorem tables_subset (h : Framed σ σ') : σ.tables ⊆ σ'.tables := by
  obtain ⟨ts, -, htab⟩ := h.heap
  rw [htab]
  exact List.subset_append_right _ _

theorem tables_cases (h : Framed σ σ') (hp : p ∈ σ'.tables) :
    p ∈ σ.tables ∨ ∃ x ∈ σ.pool, p = phys x := by
  obtain ⟨ts, hpool, htab⟩ := h.heap
  rw [htab] at hp
  rcases List.mem_append.mp hp with hp | hp
  · obtain ⟨x, hx, rfl⟩ := List.mem_map.mp (List.mem_reverse.mp hp)
    exact Or.inr ⟨x, hpool ▸ List.mem_append_left _ hx, rfl⟩
  · exact Or.inl hp

theorem pool_subset (h : Framed σ σ') : σ'.pool ⊆ σ.pool := by
  obtain ⟨ts, hpool, -⟩ := h.heap
  rw [hpool]
  exact List.subset_append_right _ _

theorem pool_nodup (h : Framed σ σ') (hnd : σ.pool.Nodup) : σ'.pool.Nodup := by
  obtain ⟨ts, hpool, -⟩ := h.heap
  rw [hpool] at hnd
  exact (List.nodup_append.mp hnd).2.1

theorem trans (h : Framed σ₁ σ₂) (h' : Framed σ₂ σ₃) : Framed σ₁ σ₃ where
  heap := by
    obtain ⟨ts, hpool, htab⟩ := h.heap
    obtain ⟨ts', hpool', htab'⟩ := h'.heap
    refine ⟨ts ++ ts', ?_, ?_⟩
    · rw [hpool, hpool', List.append_assoc]
    · rw [htab', htab, List.map_append, List.reverse_append, List.append_assoc]
  words := by
    obtain ⟨new, hlog, hsub, hmem⟩ := h.words
    obtain ⟨new', hlog', hsub', hmem'⟩ := h'.words
    have hmono := h'.tables_subset
    refine ⟨new' ++ new, by rw [hlog', hlog, List.append_assoc], ?_, ?_⟩
    · intro x hx
      rcases List.mem_append.mp hx with hx | hx
      · exact hsub' x hx
      · exact List.Subset.trans (hsub x hx) hmono
    · intro a
      rcases hmem' a with heq | ⟨x, hx, ha⟩ | hpage
      · rw [heq]
        rcases hmem a with heq | ⟨x, hx, ha⟩ | ⟨p, hp, hpage⟩
        · exact Or.inl heq
        · exact Or.inr (Or.inl ⟨x, List.mem_append_right _ hx, ha⟩)
        · exact Or.inr (Or.inr ⟨p, hmono hp, hpage⟩)
      · exact Or.inr (Or.inl ⟨x, List.mem_append_left _ hx, ha⟩)
      · exact Or.inr (Or.inr hpage)
  ptes := h'.ptes.trans h.ptes
  variant := h'.variant.trans h.variant
  satp := h'.satp.trans h.satp

theorem access (σ : State) (a : Addr) {mem : Mem}
    (hmem : ∀ q, mem q = σ.mem q ∨ toPhys a = some q) :
    Framed σ { σ.logged a with mem } where
  heap := ⟨[], rfl, rfl⟩
  words := by
    refine ⟨[⟨σ.mem, σ.tables, a⟩], rfl, ?_, ?_⟩
    · intro x hx
      cases List.mem_singleton.mp hx
      exact List.Subset.refl _
    · exact fun q => (hmem q).imp id fun h => Or.inl ⟨_, List.mem_singleton_self _, h⟩
  ptes := rfl
  variant := rfl
  satp := rfl

theorem mem_eq (h : Framed σ σ') (hw : Wf m σ') (ha : ∀ p ∈ σ'.tables, ¬ InPage p a) :
    σ'.mem a = σ.mem a := by
  obtain ⟨new, hlog, hsub, hmem⟩ := h.words
  rcases hmem a with heq | ⟨x, hx, hphys⟩ | ⟨p, hp, hpage⟩
  · exact heq
  · -- the access lies in a table page, by the history of the table
    obtain ⟨l, k, p, i, -, hp, hi, haddr⟩ := hw.log (hlog ▸ List.mem_append_left _ hx)
    have hp' := hsub x hx hp
    rw [haddr, toPhys_kva ((hw.pages hp').addr_lt hi)] at hphys
    refine absurd ?_ (ha p hp')
    cases hphys
    change p ≤ p + 8 * i ∧ p + 8 * i < p + 4096
    omega
  · exact absurd hpage (ha p hp)

end Framed

theorem keeps_bind {x : MmuM α} {f : α → MmuM β} (hx : Prog.Keeps Framed x)
    (hf : ∀ a, Prog.Keeps Framed (f a)) : Prog.Keeps Framed (x >>= f) :=
  Prog.Keeps.bind (T := Framed) (fun _ _ _ => Framed.trans) hx hf

theorem keeps_get : Prog.Keeps Framed (get : MmuM State) := Prog.Keeps.get Framed.refl

theorem keeps_pure (a : α) : Prog.Keeps Framed (pure a : MmuM α) := Prog.Keeps.pure Framed.refl a

theorem keeps_load (a : Addr) : Prog.Keeps Framed (load a) := by
  intro σ
  cases h : toPhys a with
  | some q =>
    rw [exec_load h]
    exact Framed.access σ a fun _ => Or.inl rfl
  | none =>
    rw [exec_load_fault h]
    exact Framed.access σ a fun _ => Or.inl rfl

theorem keeps_store (a : Addr) (e : Pte) : Prog.Keeps Framed (store a e) := by
  intro σ
  unfold store record
  rw [Prog.exec_bind_ok (Prog.exec_modify _ _)]
  cases h : toPhys a with
  | some q =>
    refine Framed.access σ a fun q' => ?_
    by_cases hq : q' = q
    · exact Or.inr (by rw [hq, h])
    · exact Or.inl (Function.update_of_ne hq _ _)
  | none => exact Framed.access σ a fun _ => Or.inl rfl

theorem keeps_modifyPTE (a : Addr) (f : Pte → Pte) : Prog.Keeps Framed (modifyPTE a f) :=
  keeps_bind (keeps_load a) fun _ => keeps_store a _

theorem keeps_zalloc {f : Addr → MmuM α} (hf : ∀ a, Prog.Keeps Framed (f a)) :
    Prog.Keeps Framed (do
      let a ← alignedMalloc
      memset a
      f a) := by
  intro σ
  cases hpool : σ.pool with
  | nil =>
    rw [Prog.exec_bind_error (exec_alignedMalloc_nil hpool)]
    exact Framed.refl σ
  | cons a pool =>
    have htaken (mem : Mem) (hmem : ∀ q, mem q = σ.mem q ∨ InPage (phys a) q) :
        Framed σ { σ with mem, pool, tables := phys a :: σ.tables } := by
      refine ⟨⟨[a], hpool, rfl⟩, ⟨[], rfl, by simp, fun q => ?_⟩, rfl, rfl, rfl⟩
      exact (hmem q).imp id fun h => Or.inr ⟨_, List.mem_cons_self, h⟩
    rw [Prog.exec_bind_ok (exec_alignedMalloc hpool)]
    cases h : toPhys a with
    | some q =>
      have hq : q = phys a := by
        unfold toPhys at h
        split at h
        · exact (Option.some.inj h).symm
        · cases h
      rw [Prog.exec_bind_ok (exec_memset h)]
      refine Framed.trans (htaken (zeroPage q σ.mem) fun a' => ?_) (hf a _)
      unfold zeroPage
      rw [← hq]
      split
      · next hin => exact Or.inr hin
      · exact Or.inl rfl
    | none =>
      have hfault : (memset a).exec { σ with pool, tables := phys a :: σ.tables } =
          (.error (.fault a), { σ with pool, tables := phys a :: σ.tables }) := by
        unfold memset
        rw [h]
        rfl
      rw [show (a - K_VADDR_BASE).toNat = phys a from rfl, Prog.exec_bind_error hfault]
      exact htaken σ.mem fun _ => Or.inl rfl

theorem keeps_createPTE (L : Nat) (va : Addr) : Prog.Keeps Framed (m.createPTE L va) := by
  induction L with
  | zero => exact keeps_bind keeps_get fun _ => keeps_pure _
  | succ L ih =>
    unfold Mode.createPTE
    refine keeps_bind ih fun parent => keeps_bind (keeps_load parent) fun e => ?_
    refine Prog.Keeps.ite (keeps_pure _) (keeps_zalloc fun _ => ?_)
    exact keeps_bind (keeps_modifyPTE _ _) fun _ => keeps_pure _

theorem keeps_getPTE (L : Nat) (va : Addr) : Prog.Keeps Framed (m.getPTE L va) := by
  induction L with
  | zero => exact keeps_bind keeps_get fun _ => keeps_pure _
  | succ L ih =>
    unfold Mode.getPTE
    exact keeps_bind ih fun parent => keeps_bind (keeps_load parent) fun e => keeps_pure _

theorem keeps_mapBlock (blocksz : Nat) (va pa : Addr) (prot : BitVec 32) :
    Prog.Keeps Framed (m.mapBlock blocksz va pa prot) := by
  unfold Mode.mapBlock
  refine Prog.Keeps.ite (keeps_pure _) (keeps_bind (keeps_createPTE _ va) fun pte => ?_)
  refine keeps_bind (keeps_load pte) fun e => Prog.Keeps.ite (keeps_pure _) ?_
  exact keeps_bind keeps_get fun _ => keeps_bind (keeps_modifyPTE _ _) fun _ => keeps_pure _

theorem keeps_unmapBlock (blocksz : Nat) (va : Addr) :
    Prog.Keeps Framed (m.unmapBlock blocksz va) := by
  unfold Mode.unmapBlock
  refine Prog.Keeps.ite (keeps_pure _) (keeps_bind (keeps_getPTE _ va) fun pte => ?_)
  refine keeps_bind (keeps_load pte) fun e => Prog.Keeps.ite ?_ (keeps_pure _)
  exact keeps_bind (keeps_modifyPTE _ _) fun _ => keeps_pure _

theorem keeps_mapLoop (v s : Addr) (prot : BitVec 32) (n : Nat) (vc pc : Addr) (rc : Int) :
    Prog.Keeps Framed (m.mapLoop v s prot n vc pc rc) := by
  induction n generalizing vc pc rc with
  | zero => exact Prog.Keeps.throw Framed.refl _
  | succ n ih =>
    unfold Mode.mapLoop
    refine Prog.Keeps.ite (Prog.Keeps.ite (keeps_pure _) ?_) (keeps_pure _)
    split
    · exact keeps_bind (keeps_mapBlock _ _ _ _) fun _ => ih _ _ _
    · exact keeps_pure _

theorem keeps_unmapLoop (v s : Addr) (n : Nat) (vc : Addr) (rc : Int) :
    Prog.Keeps Framed (m.unmapLoop v s n vc rc) := by
  induction n generalizing vc rc with
  | zero => exact Prog.Keeps.throw Framed.refl _
  | succ n ih =>
    unfold Mode.unmapLoop
    refine Prog.Keeps.ite (Prog.Keeps.ite (keeps_pure _) ?_) (keeps_pure _)
    split
    · exact keeps_bind (keeps_unmapBlock _ _) fun _ => ih _ _
    · exact keeps_pure _

theorem keeps_map (v p s : Addr) (prot : BitVec 32) : Prog.Keeps Framed (m.map v p s prot) := by
  unfold Mode.map
  refine Prog.Keeps.ite (keeps_pure _) (Prog.Keeps.ite (keeps_pure _) ?_)
  refine Prog.Keeps.ite (keeps_pure _) (Prog.Keeps.ite (keeps_pure _) ?_)
  exact keeps_mapLoop v s prot _ _ _ _

theorem keeps_unmap (v s : Addr) : Prog.Keeps Framed (m.unmap v s) := by
  unfold Mode.unmap
  refine Prog.Keeps.ite (keeps_pure _) (Prog.Keeps.ite (keeps_pure _) ?_)
  exact Prog.Keeps.ite (keeps_pure _) (keeps_unmapLoop v s _ _ _)

def State.over (σ : State) (mem : Mem) (pool : List Addr) : State := { σ with mem, pool }

section Over

variable {mem : Mem} {pool : List Addr} (hw : Wf m σ)
  (hmem : ∀ p ∈ σ.tables, ∀ a, InPage p a → mem a = σ.mem a)

include hw hmem

theorem over_word (hq : layout.tableAt σ.mem σ.root l k = some q) (hi : i < 512) :
    mem (layout.addr q i) = σ.mem (layout.addr q i) := by
  refine hmem q (hw.linked hq) _ ?_
  change q ≤ q + 8 * i ∧ q + 8 * i < q + 4096
  omega

theorem over_tableAt (l k : Nat) :
    layout.tableAt mem σ.root l k = layout.tableAt σ.mem σ.root l k :=
  layout.tableAt_congr (fun _ _ _ hq _ hi => over_word hw hmem hq hi) l k

theorem over_slots (l k : Nat) : (σ.over mem pool).slots l k = σ.slots l k :=
  layout.slot_congr (fun _ _ _ hq _ hi => over_word hw hmem hq hi) l k

theorem over_translate (va : Addr) : (σ.over mem pool).translate m va = σ.translate m va :=
  State.translate_congr hw.satp hw.satp rfl fun _ _ => over_slots hw hmem _ _

theorem Wf.over (hpool : pool ⊆ σ.pool) (hnd : pool.Nodup) : Wf m (σ.over mem pool) where
  tree :=
    { aligned := fun hq => hw.tree.aligned ((over_tableAt hw hmem _ _).symm.trans hq)
      inj := fun hq hq' => hw.tree.inj ((over_tableAt hw hmem _ _).symm.trans hq)
        ((over_tableAt hw hmem _ _).symm.trans hq') }
  ptes := hw.ptes
  satp := hw.satp
  pages := hw.pages
  linked hq := hw.linked ((over_tableAt hw hmem _ _).symm.trans hq)
  pool ha := hw.pool (hpool ha)
  nodup := hnd
  slots hs := hw.slots ((over_slots hw hmem _ _).symm.trans hs)
  log := hw.log

end Over

theorem Good.over (hg : Good m σ) (hmem : ∀ p ∈ σ.tables, ∀ a, InPage p a → mem a = σ.mem a)
    (hpool : pool ⊆ σ.pool) (hnd : pool.Nodup) : Good m (σ.over mem pool) where
  wf := hg.wf.over hmem hpool hnd
  full l k e hs hv := by
    obtain ⟨va, hkey, ht⟩ := hg.full l k e ((over_slots hg.wf hmem l k).symm.trans hs) hv
    exact ⟨va, hkey, by rwa [over_translate hg.wf hmem]⟩

theorem State.Pristine.over {mem : Mem} {pool : List Addr} (h : σ.Pristine) (hw : Wf m σ)
    (hmem : ∀ p ∈ σ.tables, ∀ a, InPage p a → mem a = σ.mem a) : (σ.over mem pool).Pristine :=
  fun l k e hs hk => h l k e ((over_slots hw hmem l k).symm.trans hs) hk

theorem InPage.eq (hp : 4096 ∣ p) (hq : 4096 ∣ q) (h : InPage p a) (h' : InPage q a) : p = q := by
  obtain ⟨c, rfl⟩ := hp
  obtain ⟨d, rfl⟩ := hq
  unfold InPage at h h'
  omega

end Abydos.Mmu
