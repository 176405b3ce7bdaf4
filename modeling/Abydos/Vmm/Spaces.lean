import Abydos.Mmu.Footprint
import Abydos.Vmm.Retry
import Mathlib.Data.List.Pairwise

namespace Abydos.Vmm.Spaces

open Abydos.Lib Abydos.Mmu

structure AddressSpace where
  maps : List MapT
  ptes : Addr
  variant : Int
  satp : Satp
  tables : List Nat
  log : List Access

def AddressSpace.of (mgr : VMemoryMgr State) : AddressSpace where
  maps := mgr.maps
  ptes := mgr.mmu.ptes
  variant := mgr.mmu.variant
  satp := mgr.mmu.satp
  tables := mgr.mmu.tables
  log := mgr.mmu.log

structure Machine where
  mem : Mmu.Mem
  pool : List Addr
  globalMaps : List MapT := []
  spaces : List AddressSpace := []

namespace Machine

def mmu (k : Machine) (a : AddressSpace) : State where
  mem := k.mem
  pool := k.pool
  ptes := a.ptes
  variant := a.variant
  satp := a.satp
  tables := a.tables
  log := a.log

def space (k : Machine) (a : AddressSpace) : Space State := ⟨k.globalMaps, ⟨a.maps, k.mmu a⟩⟩

def blank (k : Machine) : State where
  mem := k.mem
  pool := k.pool

def put (k : Machine) (i : Nat) (s : Space State) : Machine where
  mem := s.mgr.mmu.mem
  pool := s.mgr.mmu.pool
  globalMaps := s.globalMaps
  spaces := k.spaces.set i (.of s.mgr)

def add (k : Machine) (σ : State) : Machine where
  mem := σ.mem
  pool := σ.pool
  globalMaps := k.globalMaps
  spaces := k.spaces ++ [.of (VMemoryMgr.new k.globalMaps σ)]

end Machine

/-- A manager over a new MMU, a manager over a fork of the MMU of space `i`, or a call to the
manager of space `i`. -/
inductive Act
  | new (asid : BitVec 16) (variant : Int)
  | fork (i : Nat) (asid : BitVec 16)
  | op (i : Nat) (o : Op)

def Act.exec (m : Mode) : Act → Prog Machine Trap Int
  | .new asid variant => do
    Prog.zoom Machine.blank Machine.add (m.new asid variant)
    return 0
  | .fork i asid => do
    match (← get).spaces[i]? with
    | some a =>
      Prog.zoom Machine.blank Machine.add (m.new asid a.variant)
      return 0
    | none => throw (.fault 0)
  | .op i o => do
    match (← get).spaces[i]? with
    | some a => Prog.zoom (fun k => k.space a) (fun k s => k.put i s) (o.exec (rv64 m))
    | none => throw (.fault 0)

abbrev Entries := List (Request × Bool)

structure Ledger where
  globals : List Request := []
  spaces : List Entries := []

def Entries.inForce (es : Entries) (va : Addr) : Option Translation :=
  (es.find? fun x => x.2 = true ∧ x.1.Mem va).map fun x => x.1.translation va

def Entries.ask (es : Entries) (q : Request) : Entries := es ++ [(q, false)]

def Entries.enforce (es : Entries) : Entries := es.map fun x => (x.1, true)

namespace Ledger

def step (L : Ledger) : Act → Ledger
  | .new _ _ => { L with spaces := L.spaces ++ [L.globals.map (·, false)] }
  | .fork _ _ => { L with spaces := L.spaces ++ [L.globals.map (·, false)] }
  | .op i (.addMap v p n prot) =>
    { globals := if isGlobal prot then L.globals ++ [⟨v, p, n, prot⟩] else L.globals
      spaces := L.spaces.modify i (Entries.ask · ⟨v, p, n, prot⟩) }
  | .op i .confirm => { L with spaces := L.spaces.modify i Entries.enforce }
  | .op _ (.removeMap _ _ _) => L

/-- Spaces exist, nothing is removed, and a new range is well formed and apart from what its space
was asked for, a global one from what is global too. -/
def Legal (m : Mode) (L : Ledger) : Act → Prop
  | .new _ _ => True
  | .fork i _ => i < L.spaces.length
  | .op i (.addMap v p n prot) =>
    ∃ es, L.spaces[i]? = some es ∧ Request.Ok m ⟨v, p, n, prot⟩ ∧
      (∀ x ∈ es, Request.Disjoint x.1 ⟨v, p, n, prot⟩) ∧
      (isGlobal prot → ∀ q ∈ L.globals, Request.Disjoint q ⟨v, p, n, prot⟩)
  | .op i .confirm => i < L.spaces.length
  | .op _ (.removeMap _ _ _) => False

end Ledger

variable {m : Mode} {σ σ' : State} {es : Entries} {va : Addr} {k : Machine} {L : Ledger}

def record (x : Request × Bool) : MapT :=
  ⟨x.1.vaddr, x.1.paddr, x.1.size, x.1.prot, if x.2 then .NONE else .MAP⟩

theorem settled_record (es : Entries) :
    (es.map record).map MapT.settled = es.enforce.map record := by
  unfold Entries.enforce
  rw [List.map_map, List.map_map]
  rfl

structure Sorted (m : Mode) (qs : List Request) : Prop where
  ok : ∀ q ∈ qs, q.Ok m
  disjoint : qs.Pairwise Request.Disjoint

instance : Std.Symm Request.Disjoint := ⟨fun _ _ h va hva => h va hva.symm⟩

namespace Sorted

variable {qs : List Request} {q : Request}

theorem append (h : Sorted m qs) (hq : q.Ok m) (hd : ∀ q' ∈ qs, q'.Disjoint q) :
    Sorted m (qs ++ [q]) where
  ok q' hq' := by
    rcases List.mem_append.mp hq' with hq' | hq'
    · exact h.ok q' hq'
    · cases List.mem_singleton.mp hq'
      exact hq
  disjoint := by
    refine List.pairwise_append.mpr ⟨h.disjoint, List.pairwise_singleton _ _, ?_⟩
    intro q' hq' q'' hq''
    cases List.mem_singleton.mp hq''
    exact hd q' hq'

end Sorted

namespace Entries

def requests (es : Entries) : List Request := es.map Prod.fst

theorem inForce_of_mem (hs : Sorted m es.requests) (hx : (q, true) ∈ es) (hva : q.Mem va) :
    es.inForce va = some (q.translation va) := by
  unfold inForce
  cases hf : es.find? fun x => x.2 = true ∧ x.1.Mem va with
  | none =>
    have := List.find?_eq_none.mp hf _ hx
    simp [hva] at this
  | some y =>
    have hy : y.2 = true ∧ y.1.Mem va := by simpa using List.find?_some hf
    have hymem := List.mem_of_find?_eq_some hf
    -- two entries with an address in common are the same
    have heq : y.1 = q := by
      by_contra hne
      have hdis := hs.disjoint.forall (List.mem_map_of_mem hymem) (List.mem_map_of_mem hx) hne
      exact hdis va ⟨hy.2, hva⟩
    rw [Option.map_some, heq]

theorem inForce_eq_none (h : ∀ x ∈ es, x.2 = true → ¬ x.1.Mem va) : es.inForce va = none := by
  unfold inForce
  rw [List.find?_eq_none.mpr, Option.map_none]
  intro x hx hc
  obtain ⟨hb, hva⟩ := of_decide_eq_true hc
  exact h x hx hb hva

theorem inForce_set (done rest : Entries) (hva : ¬ q.Mem va) (b b' : Bool) :
    inForce (done ++ (q, b) :: rest) va = inForce (done ++ (q, b') :: rest) va := by
  unfold inForce
  simp [List.find?_append, hva]

end Entries

structure Exact (m : Mode) (es : Entries) (σ : State) : Prop where
  good : Good m σ
  pristine : σ.Pristine
  sorted : Sorted m es.requests
  translate : ∀ va, σ.translate m va = es.inForce va

namespace Exact

theorem ask (h : Exact m es σ) {q : Request} (hq : q.Ok m) (hd : ∀ x ∈ es, x.1.Disjoint q) :
    Exact m (es.ask q) σ where
  good := h.good
  pristine := h.pristine
  sorted := by
    unfold Entries.ask Entries.requests
    rw [List.map_append]
    refine h.sorted.append hq fun q' hq' => ?_
    obtain ⟨x, hx, rfl⟩ := List.mem_map.mp hq'
    exact hd x hx
  translate va := by
    rw [h.translate]
    unfold Entries.inForce Entries.ask
    simp [List.find?_append]

theorem requests_mark (done rest : Entries) (q : Request) (b : Bool) :
    Entries.requests (done ++ (q, b) :: rest) =
      Entries.requests done ++ q :: Entries.requests rest := by
  simp [Entries.requests]

theorem serve {done rest : Entries} {q : Request} (h : Exact m (done ++ (q, false) :: rest) σ)
    (hex : (q.exec m).exec σ = (r, σ')) :
    r = .error .noMemory ∨ r = .ok 0 ∧ Exact m (done ++ (q, true) :: rest) σ' := by
  have hsorted : Sorted m (Entries.requests (done ++ (q, true) :: rest)) := by
    have := h.sorted
    rwa [requests_mark] at this ⊢
  have hok := h.sorted.ok q (by rw [requests_mark]; simp)
  have hfree : ∀ va, q.Mem va → σ.translate m va = none := by
    intro va hva
    rw [h.translate]
    refine Entries.inForce_eq_none fun y hy hb hyva => ?_
    -- an entry in force is another one
    have hapart := h.sorted.disjoint
    rw [requests_mark, List.pairwise_append, List.pairwise_cons] at hapart
    rcases List.mem_append.mp hy with hy | hy
    · exact hapart.2.2 y.1 (List.mem_map_of_mem hy) q List.mem_cons_self va ⟨hyva, hva⟩
    rcases List.mem_cons.mp hy with rfl | hy
    · cases hb
    · exact hapart.2.1.1 y.1 (List.mem_map_of_mem hy) va ⟨hva, hyva⟩
  rcases serve_one h.good h.pristine (Or.inl hok.args) hok.half hfree hex with
    rfl | ⟨rc, rfl, hrc, hserved⟩
  · exact Or.inl rfl
  cases hrc hok.args
  refine Or.inr ⟨rfl, hserved.good, hserved.pristine, hsorted, fun va => ?_⟩
  by_cases hva : q.Mem va
  · rw [hserved.mapped q List.mem_cons_self va hva, Request.granted_eq hok.phys hva]
    exact (Entries.inForce_of_mem hsorted (by simp) hva).symm
  · rw [hserved.other va (by simpa using hva), h.translate]
    exact Entries.inForce_set done rest hva false true

theorem settle (done : Entries) {rest : Entries} (h : Exact m (done ++ rest) σ) :
    (∃ σ', (confirmLoop (rv64 m) (rest.map record) 0).exec σ = (.error .noMemory, σ')) ∨
      ∃ σ', Settles (rv64 m) (rest.map record) σ σ' ∧
        Exact m (done ++ Entries.enforce rest) σ' := by
  induction rest generalizing done σ with
  | nil => exact Or.inr ⟨σ, .nil, h⟩
  | cons x rest ih =>
    obtain ⟨q, b⟩ := x
    have hnext {σ₁ : State} (h₁ : Exact m (done ++ (q, true) :: rest) σ₁) :=
      ih (done ++ [(q, true)]) (by simpa using h₁)
    have hend : done ++ Entries.enforce ((q, b) :: rest) =
        (done ++ [(q, true)]) ++ Entries.enforce rest := by simp [Entries.enforce]
    rw [List.map_cons, hend]
    cases b with
    | true =>
      rcases hnext h with ⟨σ', hx⟩ | ⟨σ', hs, hx⟩
      · exact Or.inl ⟨σ', Prog.exec_bind_error hx⟩
      · exact Or.inr ⟨σ', .skip rfl hs, hx⟩
    | false =>
      cases hex : (q.exec m).exec σ with
      | mk r σ₁ =>
        rcases h.serve hex with rfl | ⟨rfl, h₁⟩
        · exact Or.inl ⟨σ₁, Prog.exec_bind_error hex⟩
        rcases hnext h₁ with ⟨σ', hx⟩ | ⟨σ', hs, hx⟩
        · refine Or.inl ⟨σ', (Prog.exec_bind_ok hex).trans ?_⟩
          rw [if_neg (by decide)]
          exact Prog.exec_bind_error hx
        · exact Or.inr ⟨σ', .call rfl hex hs, hx⟩

end Exact

theorem Exact.over {mem : Mmu.Mem} {pool : List Addr} (h : Exact m es σ)
    (hmem : ∀ p ∈ σ.tables, ∀ a, InPage p a → mem a = σ.mem a) (hpool : pool ⊆ σ.pool)
    (hnd : pool.Nodup) : Exact m es (σ.over mem pool) where
  good := h.good.over hmem hpool hnd
  pristine := h.pristine.over h.good.wf hmem
  sorted := h.sorted
  translate va := by rw [over_translate h.good.wf hmem, h.translate]

theorem keeps_confirmLoop (rs : List MapT) (rc : Int) :
    Prog.Keeps Framed (confirmLoop (rv64 m) rs rc) := by
  induction rs generalizing rc with
  | nil => exact keeps_pure _
  | cons r rs ih =>
    unfold confirmLoop MapT.call
    cases r.pending with
    | NONE => exact keeps_bind (ih rc) fun _ => keeps_pure _
    | MAP =>
      refine keeps_bind (keeps_map _ _ _ _) fun rc => Prog.Keeps.ite (keeps_pure _) ?_
      exact keeps_bind (ih rc) fun _ => keeps_pure _
    | UNMAP =>
      refine keeps_bind (keeps_unmap _ _) fun rc => Prog.Keeps.ite (keeps_pure _) ?_
      exact keeps_bind (ih rc) fun _ => keeps_pure _

theorem exec_confirm_error {M : MMUBase S E} {g : VMemoryMgr S}
    (h : (confirmLoop M g.maps 0).exec g.mmu = (.error e, s)) :
    (confirm M).exec g = (.error e, { g with mmu := s }) := by
  unfold confirm
  refine (Prog.exec_bind_ok (Prog.exec_get g)).trans (Prog.exec_bind_error ?_)
  change (((confirmLoop M g.maps 0).exec g.mmu).1, _) = _
  rw [h]

theorem exec_confirm_space {M : MMUBase S E} {g : VMemoryMgr S} {gs : List MapT}
    (h : (confirm M).exec g = (r, g')) : (Op.confirm.exec M).exec ⟨gs, g⟩ = (r, ⟨gs, g'⟩) := by
  change (((confirm M).exec g).1, _) = _
  rw [h]

/-- Every space has the records of its entries, and a table for them in pages of its own.  All the
pages are among those the heap had, and the rest of memory is as it was. -/
structure Machine.Refines (m : Mode) (mem : Mmu.Mem) (pages : List Nat) (k : Machine)
    (L : Ledger) : Prop where
  heap : ∀ x ∈ k.pool, ∃ p ∈ pages, PageOk p ∧ x = kva p
  nodup : k.pool.Nodup
  globals : k.globalMaps = L.globals.map fun q => record (q, false)
  sorted : Sorted m L.globals
  length : k.spaces.length = L.spaces.length
  holds {i : Nat} {a : AddressSpace} {es : Entries} : k.spaces[i]? = some a →
    L.spaces[i]? = some es → a.maps = es.map record ∧ Exact m es (k.mmu a)
  apart {i j : Nat} {a b : AddressSpace} : k.spaces[i]? = some a → k.spaces[j]? = some b →
    i ≠ j → ∀ p ∈ a.tables, p ∉ b.tables
  owned {i : Nat} {a : AddressSpace} : k.spaces[i]? = some a → ∀ p ∈ a.tables, p ∈ pages
  outside {x : Nat} : (∀ p ∈ pages, ¬ InPage p x) → k.mem x = mem x

namespace Machine.Refines

variable {mem : Mmu.Mem} {pages : List Nat} {a b : AddressSpace} {gs : List Request}
  {es' : Entries} {i j : Nat}

theorem entries (h : k.Refines m mem pages L) (hi : k.spaces[i]? = some a) :
    ∃ es, L.spaces[i]? = some es := by
  have hlt := (List.getElem?_eq_some_iff.mp hi).1
  rw [h.length] at hlt
  exact ⟨_, List.getElem?_eq_getElem hlt⟩

theorem exists_space (h : k.Refines m mem pages L) (hi : i < L.spaces.length) :
    ∃ a, k.spaces[i]? = some a := by
  rw [← h.length] at hi
  exact ⟨_, List.getElem?_eq_getElem hi⟩

theorem fresh_page (h : k.Refines m mem pages L) (hi : k.spaces[i]? = some a)
    (hx : x ∈ k.pool) : phys x ∉ a.tables := by
  obtain ⟨es, hes⟩ := h.entries hi
  obtain ⟨q, hq, rfl, hnot⟩ := (h.holds hi hes).2.good.wf.pool hx
  unfold phys
  rwa [kva_sub hq.2.2]

theorem apart_framed (h : k.Refines m mem pages L) (hi : k.spaces[i]? = some a)
    (hj : k.spaces[j]? = some b) (hne : i ≠ j) (hf : Framed (k.mmu a) σ') :
    ∀ p ∈ σ'.tables, p ∉ b.tables := by
  intro p hp
  rcases hf.tables_cases hp with hp | ⟨x, hx, rfl⟩
  · exact h.apart hi hj hne p hp
  · exact h.fresh_page hj hx

theorem owned_framed (h : k.Refines m mem pages L) (hi : k.spaces[i]? = some a)
    (hf : Framed (k.mmu a) σ') : ∀ p ∈ σ'.tables, p ∈ pages := by
  intro p hp
  rcases hf.tables_cases hp with hp | ⟨x, hx, rfl⟩
  · exact h.owned hi p hp
  · obtain ⟨q, hq, hok, rfl⟩ := h.heap x hx
    unfold phys
    rwa [kva_sub hok.2.2]

theorem put (h : k.Refines m mem pages L) (hi : k.spaces[i]? = some a) (hL : L.spaces[i]? = some es)
    (hgs : Sorted m gs) (hf : Framed (k.mmu a) σ') (hx' : Exact m es' σ') :
    (k.put i ⟨gs.map fun q => record (q, false), ⟨es'.map record, σ'⟩⟩).Refines m mem pages
      ⟨gs, L.spaces.set i es'⟩ := by
  have hlt := (List.getElem?_eq_some_iff.mp hi).1
  have hlt' := (List.getElem?_eq_some_iff.mp hL).1
  have hsub := hf.pool_subset
  have hnd := hf.pool_nodup h.nodup
  have hget {α : Type} {l : List α} (hlt : i < l.length) (x : α) (j : Nat) :
      (l.set i x)[j]? = if i = j then some x else l[j]? := by
    split
    · next h => rw [← h, List.getElem?_set_self hlt]
    · next h => exact List.getElem?_set_ne h
  have hspace (j : Nat) : (k.spaces.set i (.of ⟨es'.map record, σ'⟩))[j]? =
      if i = j then some (.of ⟨es'.map record, σ'⟩) else k.spaces[j]? := hget hlt _ j
  constructor
  case heap => exact fun x hx => h.heap x (hsub hx)
  case nodup => exact hnd
  case globals => rfl
  case sorted => exact hgs
  case length =>
    change (k.spaces.set i _).length = (L.spaces.set i es').length
    rw [List.length_set, List.length_set, h.length]
  case holds =>
    intro j b es₁ hj hes
    change (k.spaces.set i _)[j]? = _ at hj
    rw [hspace] at hj
    change (L.spaces.set i es')[j]? = _ at hes
    rw [hget hlt'] at hes
    split at hj
    · next heq =>
      rw [if_pos heq] at hes
      cases hj
      cases hes
      exact ⟨rfl, hx'⟩
    · next hne =>
      rw [if_neg hne] at hes
      obtain ⟨hrec, hold⟩ := h.holds hj hes
      refine ⟨hrec, hold.over (fun p hp x hpx => ?_) hsub hnd⟩
      refine hf.mem_eq hx'.good.wf fun q hq hqx => ?_
      have heq := hqx.eq (hx'.good.wf.pages hq).1 (hold.good.wf.pages hp).1 hpx
      exact h.apart_framed hi hj hne hf q hq (heq ▸ hp)
  case apart =>
    intro j l b c hj hl hne
    change (k.spaces.set i _)[j]? = _ at hj
    change (k.spaces.set i _)[l]? = _ at hl
    rw [hspace] at hj hl
    split at hj
    · next heq =>
      rw [if_neg (heq ▸ hne)] at hl
      cases hj
      exact h.apart_framed hi hl (heq ▸ hne) hf
    · next hji =>
      split at hl
      · next heq =>
        cases hl
        exact fun p hp hp' => h.apart_framed hi hj hji hf p hp' hp
      · exact h.apart hj hl hne
  case owned =>
    intro j b hj
    change (k.spaces.set i _)[j]? = _ at hj
    rw [hspace] at hj
    split at hj
    · cases hj
      exact h.owned_framed hi hf
    · exact h.owned hj
  case outside =>
    intro x hx
    rw [← h.outside hx]
    exact hf.mem_eq hx'.good.wf fun p hp => hx p (h.owned_framed hi hf p hp)

theorem boot (h : k.Refines m mem pages L) : Boot k.blank where
  pages x hx := by
    obtain ⟨p, -, hp⟩ := h.heap x hx
    exact ⟨p, hp⟩
  nodup := h.nodup
  tables := rfl
  log := rfl

theorem add {t : Nat} {rest : List Addr} (h : k.Refines m mem pages L) (hok : PageOk t)
    (ht : t ∈ pages) (hpool : k.pool = kva t :: rest) (asid : BitVec 16) (variant : Int) :
    (k.add (k.blank.fresh m asid variant t)).Refines m mem pages
      { L with spaces := L.spaces ++ [L.globals.map (·, false)] } := by
  have hnew := exec_new (m := m) (σ := k.blank) hok hpool asid variant
  have hsub : k.pool.tail ⊆ k.pool := List.tail_subset k.pool
  have hfree {i : Nat} {a : AddressSpace} (hi : k.spaces[i]? = some a) : t ∉ a.tables := by
    have hnot := h.fresh_page hi (hpool ▸ List.mem_cons_self)
    unfold phys at hnot
    rwa [kva_sub hok.2.2] at hnot
  have hfresh : Exact m (L.globals.map (·, false)) (k.blank.fresh m asid variant t) := by
    refine ⟨h.boot.good hnew, h.boot.pristine hnew, ?_, fun va => ?_⟩
    · have hreq : Entries.requests (L.globals.map (·, false)) = L.globals := by
        simp [Entries.requests, Function.comp_def]
      rw [hreq]
      exact h.sorted
    · rw [h.boot.unmapped hnew, Entries.inForce_eq_none]
      rintro x hx hb
      obtain ⟨q, -, rfl⟩ := List.mem_map.mp hx
      cases hb
  have hspace {b : AddressSpace} (j : Nat)
      (hj : (k.add (k.blank.fresh m asid variant t)).spaces[j]? = some b) :
      k.spaces[j]? = some b ∨
        j = k.spaces.length ∧ b = .of (.new k.globalMaps (k.blank.fresh m asid variant t)) := by
    change (k.spaces ++ _)[j]? = _ at hj
    rw [List.getElem?_append] at hj
    split at hj
    · exact Or.inl hj
    · next hlt =>
      obtain ⟨h0, rfl⟩ := List.getElem?_eq_some_iff.mp hj
      simp only [List.length_singleton] at h0
      exact Or.inr ⟨by omega, by simp⟩
  constructor
  case heap => exact fun x hx => h.heap x (hsub hx)
  case nodup => exact h.nodup.tail
  case globals => exact h.globals
  case sorted => exact h.sorted
  case length =>
    change (k.spaces ++ _).length = (L.spaces ++ _).length
    rw [List.length_append, List.length_append, h.length]
    rfl
  case holds =>
    intro j b es₁ hj hes
    change (L.spaces ++ _)[j]? = _ at hes
    rw [List.getElem?_append, ← h.length] at hes
    rcases hspace j hj with hj | ⟨rfl, rfl⟩
    · rw [if_pos (List.getElem?_eq_some_iff.mp hj).1] at hes
      obtain ⟨hrec, hold⟩ := h.holds hj hes
      refine ⟨hrec, hold.over (fun p hp x hpx => if_neg fun htx => ?_) hsub h.nodup.tail⟩
      have heq := InPage.eq hok.1 (hold.good.wf.pages hp).1 htx hpx
      exact hfree hj (heq ▸ hp)
    · rw [if_neg (Nat.lt_irrefl _), Nat.sub_self] at hes
      cases hes
      refine ⟨?_, hfresh⟩
      change k.globalMaps = _
      rw [h.globals, List.map_map]
      rfl
  case apart =>
    intro j l b c hj hl hne p hp hp'
    rcases hspace j hj with hj | ⟨rfl, rfl⟩
    · rcases hspace l hl with hl | ⟨rfl, rfl⟩
      · exact h.apart hj hl hne p hp hp'
      · cases List.mem_singleton.mp hp'
        exact hfree hj hp
    · rcases hspace l hl with hl | ⟨rfl, rfl⟩
      · cases List.mem_singleton.mp hp
        exact hfree hl hp'
      · exact hne rfl
  case owned =>
    intro j b hj p hp
    rcases hspace j hj with hj | ⟨-, rfl⟩
    · exact h.owned hj p hp
    · cases List.mem_singleton.mp hp
      exact ht
  case outside =>
    intro x hx
    rw [← h.outside hx]
    exact if_neg (hx t ht)

theorem exec_new_space (h : k.Refines m mem pages L) (asid : BitVec 16) (variant : Int) :
    (∃ k', ((Act.new asid variant).exec m).exec k = (.error .noMemory, k')) ∨
      ∃ k', ((Act.new asid variant).exec m).exec k = (.ok 0, k') ∧
        k'.Refines m mem pages (L.step (.new asid variant)) := by
  cases hpool : k.pool with
  | nil =>
    have hno : (m.new asid variant).exec k.blank = (.error .noMemory, k.blank) :=
      Prog.exec_bind_error (exec_alignedMalloc_nil hpool)
    refine Or.inl ⟨k.add k.blank, Prog.exec_bind_error ?_⟩
    change (((m.new asid variant).exec k.blank).1, k.add ((m.new asid variant).exec k.blank).2) = _
    rw [hno]
  | cons x pool =>
    obtain ⟨t, ht, hok, rfl⟩ := h.heap x (hpool ▸ List.mem_cons_self)
    refine Or.inr ⟨_, Prog.exec_bind_ok (a := ()) ?_, h.add hok ht hpool asid variant⟩
    change (((m.new asid variant).exec k.blank).1, k.add ((m.new asid variant).exec k.blank).2) = _
    rw [exec_new (σ := k.blank) hok hpool]

theorem exec_op (hi : k.spaces[i]? = some a) (o : Op) :
    ((Act.op i o).exec m).exec k =
      (((o.exec (rv64 m)).exec (k.space a)).1, k.put i ((o.exec (rv64 m)).exec (k.space a)).2) := by
  unfold Act.exec
  rw [Prog.exec_bind_ok (Prog.exec_get k), hi]
  rfl

theorem op (h : k.Refines m mem pages L) {o : Op} (hl : L.Legal m (.op i o)) :
    (∃ k', ((Act.op i o).exec m).exec k = (.error .noMemory, k')) ∨
      ∃ k', ((Act.op i o).exec m).exec k = (.ok 0, k') ∧
        k'.Refines m mem pages (L.step (.op i o)) := by
  cases o with
  | addMap v p n prot =>
    obtain ⟨es, hL, hok, hd, hg⟩ := hl
    obtain ⟨a, hi⟩ := h.exists_space (List.getElem?_eq_some_iff.mp hL).1
    obtain ⟨hrec, hx⟩ := h.holds hi hL
    refine Or.inr ⟨k.put i (addMap v p n prot (k.space a)), exec_op hi _, ?_⟩
    have hgs : Sorted m (if isGlobal prot then L.globals ++ [⟨v, p, n, prot⟩] else L.globals) := by
      split
      · next hglobal => exact h.sorted.append hok (hg hglobal)
      · exact h.sorted
    have hput := h.put hi hL hgs (Framed.refl _) (hx.ask hok hd)
    have hadd : addMap v p n prot (k.space a) =
        ⟨(if isGlobal prot then L.globals ++ [⟨v, p, n, prot⟩] else L.globals).map
          fun q => record (q, false), ⟨(es.ask ⟨v, p, n, prot⟩).map record, k.mmu a⟩⟩ := by
      unfold addMap Machine.space Entries.ask
      rw [hrec, h.globals, List.map_append]
      split <;> simp [record]
    change (k.put i (addMap v p n prot (k.space a))).Refines m mem pages ⟨_, L.spaces.modify i _⟩
    rw [List.modify_eq_set_getElem?, hL, hadd]
    exact hput
  | confirm =>
    obtain ⟨a, hi⟩ := h.exists_space hl
    obtain ⟨es, hL⟩ := h.entries hi
    obtain ⟨hrec, hx⟩ := h.holds hi hL
    have hspace : k.space a = ⟨k.globalMaps, ⟨a.maps, k.mmu a⟩⟩ := rfl
    rw [exec_op hi, hspace]
    rcases Exact.settle [] hx with ⟨σ', hex⟩ | ⟨σ', hs, hx'⟩
    · rw [exec_confirm_space (exec_confirm_error (g := ⟨a.maps, k.mmu a⟩) (hrec ▸ hex))]
      exact Or.inl ⟨_, rfl⟩
    · rw [exec_confirm_space (exec_confirm (m := ⟨a.maps, k.mmu a⟩) (hrec ▸ hs.exec))]
      refine Or.inr ⟨_, rfl, ?_⟩
      have hput := h.put hi hL h.sorted ((keeps_confirmLoop _ _).of_exec hs.exec) hx'
      rw [← h.globals, List.nil_append, ← settled_record, ← hrec] at hput
      change Machine.Refines m mem pages _ ⟨_, L.spaces.modify i _⟩
      rw [List.modify_eq_set_getElem?, hL]
      exact hput
  | removeMap v n prot => exact hl.elim

theorem step (h : k.Refines m mem pages L) {act : Act} (hl : L.Legal m act) :
    (∃ k', (act.exec m).exec k = (.error .noMemory, k')) ∨
      ∃ k', (act.exec m).exec k = (.ok 0, k') ∧ k'.Refines m mem pages (L.step act) := by
  cases act with
  | new asid variant => exact h.exec_new_space asid variant
  | fork i asid =>
    obtain ⟨a, hi⟩ := h.exists_space hl
    have hfork : ((Act.fork i asid).exec m).exec k = ((Act.new asid a.variant).exec m).exec k := by
      unfold Act.exec
      rw [Prog.exec_bind_ok (Prog.exec_get k), hi]
    rw [hfork]
    exact h.exec_new_space asid a.variant
  | op i o => exact h.op hl

end Machine.Refines

def Machine.start (mem : Mmu.Mem) (pages : List Nat) : Machine where
  mem := mem
  pool := pages.map kva

theorem Machine.refines_start (mem : Mmu.Mem) {pages : List Nat} (hok : ∀ p ∈ pages, PageOk p)
    (hnd : pages.Nodup) : (Machine.start mem pages).Refines m mem pages {} where
  heap x hx := by
    obtain ⟨p, hp, rfl⟩ := List.mem_map.mp hx
    exact ⟨p, hp, hok p hp, rfl⟩
  nodup := (State.boot_boot pages hok hnd).nodup
  globals := rfl
  sorted := ⟨fun _ hq => absurd hq List.not_mem_nil, List.Pairwise.nil⟩
  length := rfl
  holds hi := by cases hi
  apart hi := by cases hi
  owned hi := by cases hi
  outside _ := rfl

theorem runAll_refines (mem : Mmu.Mem) {pages : List Nat} (hok : ∀ p ∈ pages, PageOk p)
    (hnd : pages.Nodup) {acts : List Act}
    (hlegal : Script.LegalRun Ledger.step (Ledger.Legal m) acts {}) :
    (∃ k, (Script.runAll (Act.exec m) acts).exec (.start mem pages) = (.error .noMemory, k)) ∨
      ∃ k, (Script.runAll (Act.exec m) acts).exec (.start mem pages) =
          (.ok (acts.map fun _ => 0), k) ∧
        k.Refines m mem pages (acts.foldl Ledger.step {}) := by
  have hstep (k : Machine) (L : Ledger) (act : Act) (h : k.Refines m mem pages L)
      (hl : L.Legal m act) : (∃ e k', (act.exec m).exec k = (.error e, k') ∧ e = .noMemory) ∨
        ∃ k', (act.exec m).exec k = (.ok 0, k') ∧ k'.Refines m mem pages (L.step act) :=
    (h.step hl).imp (fun ⟨k', hex⟩ => ⟨_, k', hex, rfl⟩) id
  rcases Script.runAll_refines hstep (Machine.refines_start mem hok hnd) hlegal with
    ⟨e, k, hex, rfl⟩ | h
  · exact Or.inl ⟨k, hex⟩
  · exact Or.inr h

/-- Spaces are made and forked, asked for ranges and confirmed in any order.  As long as there are
pages, every call returns zero, and each space translates exactly what is in force in it: neither
its tables nor what other spaces do shows in it.  Memory outside of the heap is left alone. -/
theorem spaces_exact (mem : Mmu.Mem) {pages : List Nat} (hok : ∀ p ∈ pages, PageOk p)
    (hnd : pages.Nodup) (acts : List Act)
    (hlegal : Script.LegalRun Ledger.step (Ledger.Legal m) acts {}) :
    (∃ k, (Script.runAll (Act.exec m) acts).exec (.start mem pages) = (.error .noMemory, k)) ∨
      ∃ k, (Script.runAll (Act.exec m) acts).exec (.start mem pages) =
          (.ok (acts.map fun _ => 0), k) ∧
        k.spaces.length = (acts.foldl Ledger.step {}).spaces.length ∧
        (∀ (i : Nat) (a : AddressSpace) (es : Entries), k.spaces[i]? = some a →
          (acts.foldl Ledger.step {}).spaces[i]? = some es →
          ∀ va, (k.mmu a).translate m va = es.inForce va) ∧
        ∀ x, (∀ p ∈ pages, ¬ InPage p x) → k.mem x = mem x := by
  rcases runAll_refines mem hok hnd hlegal with ⟨k, hex⟩ | ⟨k, hex, h⟩
  · exact Or.inl ⟨k, hex⟩
  · exact Or.inr ⟨k, hex, h.length, fun i a es hi hL => (h.holds hi hL).2.translate,
      fun x => h.outside⟩

def twoSpaces : List Act :=
  [.new 0xFFFF 0, .op 0 (.addMap 0xFFFFFFC000000000 0 0x80000000 0x37), .op 0 .confirm, .fork 0 1,
    .op 1 (.addMap 0x1000 0x5000 0x1000 0xB), .op 1 .confirm]

theorem spaces_exact_two :
    ∃ k, (Script.runAll (Act.exec .sv39) twoSpaces).exec
        (.start (fun _ => {}) [0x1000, 0x2000, 0x3000, 0x4000]) =
          (.ok (twoSpaces.map fun _ => 0), k) ∧
      k.spaces.length = (twoSpaces.foldl Ledger.step {}).spaces.length ∧
      (∀ (i : Nat) (a : AddressSpace) (es : Entries), k.spaces[i]? = some a →
        (twoSpaces.foldl Ledger.step {}).spaces[i]? = some es →
        ∀ va, (k.mmu a).translate .sv39 va = es.inForce va) ∧
      ∀ x, (∀ p ∈ [0x1000, 0x2000, 0x3000, 0x4000], ¬ InPage p x) → k.mem x = {} := by
  have hlegal : Script.LegalRun Ledger.step (Ledger.Legal .sv39) twoSpaces {} := by
    refine ⟨trivial, ⟨[], rfl, ⟨by decide, by decide, by decide, by decide⟩, nofun, nofun⟩, ?_⟩
    have hpage : Request.Ok .sv39 ⟨0x1000, 0x5000, 0x1000, 0xB⟩ :=
      ⟨by decide, by decide, by decide, by decide⟩
    refine ⟨Nat.one_pos, Nat.one_pos, ⟨_, rfl, hpage, ?_, ?_⟩, ?_⟩
    · intro x hx va hva
      cases List.mem_singleton.mp hx
      exact Nat.not_lt.mpr hva.1.1 (Nat.lt_trans hva.2.2 (by decide))
    · exact fun hg => absurd hg (by decide)
    · exact ⟨Nat.one_lt_two, trivial⟩
  have hok : ∀ p ∈ [0x1000, 0x2000, 0x3000, 0x4000], PageOk p := by decide
  rcases spaces_exact (fun _ => {}) hok (by decide) twoSpaces hlegal with ⟨k, hex⟩ | h
  · have hrc : ((Script.runAll (Act.exec .sv39) twoSpaces).exec
        (.start (fun _ => {}) [0x1000, 0x2000, 0x3000, 0x4000])).1 ≠ .error .noMemory := by
      decide +kernel
    exact absurd (congrArg Prod.fst hex) hrc
  · exact h

end Abydos.Vmm.Spaces
