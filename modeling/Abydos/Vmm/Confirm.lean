import Abydos.Lib.Script
import Abydos.Vmm.Manager

namespace Abydos.Vmm

open Abydos.Lib

abbrev Key := BitVec 64 × BitVec 64

structure Requests where
  live : List Mapping := []
  fresh : List Key := []

def Requests.find (q : Requests) (k : Key) : Option Mapping := q.live.find? (·.key = k)

def Requests.step (q : Requests) : Op → Requests
  | .addMap v p n prot =>
    { live := q.live ++ [⟨v, p, n, prot⟩], fresh := q.fresh ++ [(v, n)] }
  | .removeMap v n _ => { q with live := q.live.filter (·.key ≠ (v, n)) }
  | .confirm => { q with fresh := [] }

/-- Live ranges stay disjoint, and a range is removed with the rights that it was added with. -/
def Legal (q : Requests) : Op → Prop
  | .addMap v p n prot => ∀ y ∈ q.live, ¬ Overlaps ⟨v, p, n, prot⟩ y
  | .removeMap v n prot => ∀ x ∈ q.find (v, n), prot = x.prot
  | .confirm => True

def Space.searched (σ : Space S) (prot : BitVec 32) : List MapT :=
  if isGlobal prot then σ.globalMaps else σ.mgr.maps

/-- A live range that is removed is not global and has been confirmed; a range that is not live has
no record, or one that is to be unmapped anyway. -/
def Tidy (σ : Space S) (q : Requests) : Op → Prop
  | .removeMap v n prot =>
    match q.find (v, n) with
    | some _ => ¬ isGlobal prot ∧ (v, n) ∉ q.fresh
    | none => ∀ r ∈ (σ.searched prot).find? (·.key = (v, n)), r.pending = .UNMAP
  | _ => True

inductive Reached : Space (List Mapping) → Requests → Prop
  | start : Reached ⟨[], VMemoryMgr.new [] []⟩ {}
  | step {σ σ' : Space (List Mapping)} {q : Requests} {op : Op} {rc : Int} : Reached σ q →
      Legal q op → Tidy σ q op → (op.exec ideal).exec σ = (.ok rc, σ') → Reached σ' (q.step op)

variable {k : Key} {r : MapT} {rs : List MapT} {s s' : List Mapping} {y : Mapping}
  {σ σ' : Space (List Mapping)} {q : Requests}

theorem markUnmap_of_find (h : ∀ r ∈ rs.find? (·.key = k), r.pending = .UNMAP) :
    markUnmap k rs = rs := by
  induction rs with
  | nil => rfl
  | cons r rs ih =>
    unfold markUnmap
    by_cases hk : r.key = k
    · have hr := h r (by simp [hk])
      rw [if_pos hk, ← hr]
    · rw [if_neg hk, ih fun q hq => h q (by simpa [hk] using hq)]

def Quiet (k : Key) (rs : List MapT) : Prop := ∀ r ∈ rs, r.key = k → r.pending = .NONE

theorem Quiet.ne (h : Quiet k (r :: rs)) (hp : r.call ideal = some x) : r.key ≠ k := by
  intro hk
  have := (call_eq_none (M := ideal)).mpr (h r List.mem_cons_self hk)
  rw [hp] at this
  cases this

theorem Quiet.tail (h : Quiet k (r :: rs)) : Quiet k rs :=
  fun q hq => h q (List.mem_cons_of_mem r hq)

theorem ideal_call_ok (hcall : r.call ideal = some x) (hx : x.exec s = (.ok 0, s')) :
    (r.pending = .MAP ∧ (∀ y ∈ s, ¬ Overlaps r.mapping y) ∧ s' = s ++ [r.mapping]) ∨
    (r.pending = .UNMAP ∧ (∃ y ∈ s, y.key = r.key) ∧ s' = s.filter (·.key ≠ r.key)) := by
  unfold MapT.call at hcall
  cases hp : r.pending with
  | NONE => simp [hp] at hcall
  | MAP =>
    simp only [hp, Option.some.injEq] at hcall
    rw [← hcall] at hx
    by_cases h : ∃ y ∈ s, Overlaps r.mapping y
    · obtain ⟨y, hy, hov⟩ := h
      cases (exec_ideal_map_fail hy hov).symm.trans hx
    · have hno : ∀ y ∈ s, ¬ Overlaps r.mapping y := fun y hy hov => h ⟨y, hy, hov⟩
      cases (exec_ideal_map hno).symm.trans hx
      exact Or.inl ⟨rfl, hno, rfl⟩
  | UNMAP =>
    simp only [hp, Option.some.injEq] at hcall
    rw [← hcall] at hx
    by_cases h : ∃ y ∈ s, y.key = r.key
    · obtain ⟨y, hy, hk⟩ := h
      cases (exec_ideal_unmap hy hk).symm.trans hx
      exact Or.inr ⟨rfl, ⟨y, hy, hk⟩, rfl⟩
    · have hno : ∀ y ∈ s, y.key ≠ (r.vaddr, r.size) := fun y hy hk => h ⟨y, hy, hk⟩
      cases (exec_ideal_unmap_fail hno).symm.trans hx

theorem call_map (hp : r.pending = .MAP) :
    r.call ideal = some (ideal.map r.vaddr r.paddr r.size r.prot) := by
  unfold MapT.call
  rw [hp]

theorem call_unmap (hp : r.pending = .UNMAP) :
    r.call ideal = some (ideal.unmap r.vaddr r.size) := by
  unfold MapT.call
  rw [hp]

theorem Settles.without (h : Settles ideal rs s s') (hq : Quiet k rs) :
    Settles ideal rs (s.filter (·.key ≠ k)) (s'.filter (·.key ≠ k)) := by
  induction h with
  | nil => exact .nil
  | skip hcall _ ih => exact .skip hcall (ih hq.tail)
  | @call r rs s s₁ s' x hcall hx _ ih =>
    have hne := hq.ne hcall
    rcases ideal_call_ok hcall hx with ⟨hp, hno, rfl⟩ | ⟨hp, ⟨y, hy, hyk⟩, rfl⟩
    · have hmap : (s ++ [r.mapping]).filter (·.key ≠ k) = s.filter (·.key ≠ k) ++ [r.mapping] := by
        rw [List.filter_append]
        congr 1
        exact List.filter_eq_self.mpr (by simpa using hne)
      have hrest := ih hq.tail
      rw [hmap] at hrest
      exact .call (call_map hp) (exec_ideal_map fun y hy => hno y (List.mem_filter.mp hy).1) hrest
    · have hrest := ih hq.tail
      rw [List.filter_comm] at hrest
      have hmem : y ∈ s.filter (·.key ≠ k) :=
        List.mem_filter.mpr ⟨hy, by simpa [hyk] using hne⟩
      exact .call (call_unmap hp) (exec_ideal_unmap hmem hyk) hrest

theorem Settles.mapped (h : Settles ideal rs s s') (hq : Quiet k rs) (hy : y ∈ s')
    (hk : y.key = k) : y ∈ s := by
  induction h with
  | nil => exact hy
  | skip hcall _ ih => exact ih hq.tail hy
  | @call r rs s s₁ s' x hcall hx _ ih =>
    have hne := hq.ne hcall
    have hmem := ih hq.tail hy
    rcases ideal_call_ok hcall hx with ⟨hp, hno, rfl⟩ | ⟨hp, -, rfl⟩
    · rcases List.mem_append.mp hmem with hs | hs
      · exact hs
      · rw [List.mem_singleton.mp hs] at hk
        exact absurd hk hne
    · exact (List.mem_filter.mp hmem).1

theorem Settles.markUnmap (h : Settles ideal rs s s') (hq : Quiet k rs) (hr : ∃ r ∈ rs, r.key = k)
    (hy : ∃ y ∈ s', y.key = k) :
    Settles ideal (Vmm.markUnmap k rs) s (s'.filter (·.key ≠ k)) := by
  induction h with
  | nil =>
    obtain ⟨r, hr, -⟩ := hr
    cases hr
  | @skip r rs s s' hcall hrest ih =>
    unfold Vmm.markUnmap
    by_cases hk : r.key = k
    · obtain ⟨y, hy, hyk⟩ := hy
      have hmem := hrest.mapped hq.tail hy hyk
      rw [if_pos hk]
      have hcall' := call_unmap (r := { r with pending := .UNMAP }) rfl
      have hx := exec_ideal_unmap hmem (hyk.trans hk.symm)
      rw [show (r.vaddr, r.size) = k from hk] at hx
      exact .call hcall' hx (hrest.without hq.tail)
    · rw [if_neg hk]
      refine .skip hcall (ih hq.tail ?_ hy)
      obtain ⟨r', hr', hrk⟩ := hr
      rcases List.mem_cons.mp hr' with rfl | hr'
      · exact absurd hrk hk
      · exact ⟨r', hr', hrk⟩
  | @call r rs s s₁ s' x hcall hx _ ih =>
    have hne := hq.ne hcall
    unfold Vmm.markUnmap
    rw [if_neg hne]
    refine .call hcall hx (ih hq.tail ?_ hy)
    obtain ⟨r', hr', hrk⟩ := hr
    rcases List.mem_cons.mp hr' with rfl | hr'
    · exact absurd hrk hne
    · exact ⟨r', hr', hrk⟩

structure Realises (σ : Space (List Mapping)) (q : Requests) : Prop where
  settles : ∃ s', Settles ideal σ.mgr.maps σ.mgr.mmu s' ∧ s'.Perm q.live
  recorded : ∀ x ∈ q.live, ∃ r ∈ σ.mgr.maps, r.key = x.key
  quiet : ∀ x ∈ q.live, x.key ∉ q.fresh → Quiet x.key σ.mgr.maps

theorem mem_markUnmap (h : r ∈ markUnmap k rs) :
    r ∈ rs ∨ ∃ r' ∈ rs, r'.key = k ∧ r = { r' with pending := .UNMAP } := by
  induction rs with
  | nil => cases h
  | cons r' rs ih =>
    unfold markUnmap at h
    split at h
    · next hk =>
      rcases List.mem_cons.mp h with h | h
      · exact Or.inr ⟨r', List.mem_cons_self, hk, h⟩
      · exact Or.inl (List.mem_cons_of_mem _ h)
    · rcases List.mem_cons.mp h with rfl | h
      · exact Or.inl List.mem_cons_self
      · refine (ih h).imp (List.mem_cons_of_mem _) fun ⟨r'', hmem, hr''⟩ => ?_
        exact ⟨r'', List.mem_cons_of_mem _ hmem, hr''⟩

theorem mem_markUnmap_of_mem (h : r ∈ rs) (k : Key) :
    r ∈ markUnmap k rs ∨ { r with pending := .UNMAP } ∈ markUnmap k rs := by
  induction rs with
  | nil => cases h
  | cons r' rs ih =>
    unfold markUnmap
    split
    · rcases List.mem_cons.mp h with rfl | h
      · exact Or.inr List.mem_cons_self
      · exact Or.inl (List.mem_cons_of_mem _ h)
    · rcases List.mem_cons.mp h with rfl | h
      · exact Or.inl List.mem_cons_self
      · exact (ih h).imp (List.mem_cons_of_mem _) (List.mem_cons_of_mem _)

theorem exists_mem_markUnmap {P : MapT → Prop} (h : ∃ r ∈ rs, P r)
    (hP : ∀ r, P r → P { r with pending := .UNMAP }) (k : Key) : ∃ r ∈ markUnmap k rs, P r := by
  obtain ⟨r, hr, hp⟩ := h
  rcases mem_markUnmap_of_mem hr k with hr | hr
  · exact ⟨r, hr, hp⟩
  · exact ⟨_, hr, hP r hp⟩

theorem exists_marked (h : ∃ r ∈ rs, r.key = k) : ∃ r ∈ markUnmap k rs, r.pending = .UNMAP := by
  induction rs with
  | nil =>
    obtain ⟨r, hr, -⟩ := h
    cases hr
  | cons r' rs ih =>
    unfold markUnmap
    split
    · exact ⟨_, List.mem_cons_self, rfl⟩
    · next hk =>
      obtain ⟨r, hr, hrk⟩ := h
      rcases List.mem_cons.mp hr with rfl | hr
      · exact absurd hrk hk
      · obtain ⟨r'', hmem, hp⟩ := ih ⟨r, hr, hrk⟩
        exact ⟨r'', List.mem_cons_of_mem _ hmem, hp⟩

theorem Requests.find_some (h : q.find k = some x) : x ∈ q.live ∧ x.key = k :=
  ⟨List.mem_of_find?_eq_some h, by simpa using List.find?_some h⟩

theorem Requests.find_none (h : q.find k = none) : ∀ x ∈ q.live, x.key ≠ k := by
  simpa [Requests.find] using h

theorem Requests.filter_of_find_none (h : q.find k = none) :
    q.live.filter (·.key ≠ k) = q.live :=
  List.filter_eq_self.mpr fun x hx => by simpa using Requests.find_none h x hx

theorem removeMap_of_none (hf : q.find (v, n) = none) (ht : Tidy σ q (.removeMap v n prot)) :
    removeMap v n prot σ = σ := by
  simp only [Tidy, hf] at ht
  have hmark := markUnmap_of_find ht
  unfold Space.searched at hmark
  unfold removeMap
  split
  · next hg =>
    rw [if_pos hg] at hmark
    rw [hmark]
  · next hg =>
    rw [if_neg hg] at hmark
    rw [hmark]

namespace Realises

theorem addMap (h : Realises σ q) (hl : Legal q (.addMap v p n prot)) :
    Realises (Vmm.addMap v p n prot σ) (q.step (.addMap v p n prot)) := by
  obtain ⟨⟨s', hs, hperm⟩, hrec, hquiet⟩ := h
  constructor
  · refine ⟨s' ++ [⟨v, p, n, prot⟩], hs.append ?_, hperm.append_right _⟩
    have hno : ∀ y ∈ s', ¬ Overlaps ⟨v, p, n, prot⟩ y := fun y hy => hl y (hperm.mem_iff.mp hy)
    exact .call (call_map (r := ⟨v, p, n, prot, .MAP⟩) rfl) (exec_ideal_map hno) .nil
  · intro x hx
    rcases List.mem_append.mp hx with hx | hx
    · obtain ⟨r, hr, hk⟩ := hrec x hx
      exact ⟨r, List.mem_append_left _ hr, hk⟩
    · rw [List.mem_singleton.mp hx]
      exact ⟨_, List.mem_append_right _ List.mem_cons_self, rfl⟩
  · intro x hx hfresh r hr hk
    have hnot : x.key ∉ q.fresh ∧ x.key ≠ (v, n) := by
      simpa [Requests.step, not_or] using hfresh
    have hold : x ∈ q.live := by
      rcases List.mem_append.mp hx with hx | hx
      · exact hx
      · rw [List.mem_singleton.mp hx] at hnot
        exact absurd rfl hnot.2
    rcases List.mem_append.mp hr with hr | hr
    · exact hquiet x hold hnot.1 r hr hk
    · rw [List.mem_singleton.mp hr] at hk
      exact absurd hk.symm hnot.2

theorem removeMap (h : Realises σ q) (ht : Tidy σ q (.removeMap v n prot)) :
    Realises (Vmm.removeMap v n prot σ) (q.step (.removeMap v n prot)) := by
  cases hf : q.find (v, n) with
  | none =>
    have hlive : (q.step (.removeMap v n prot)) = q := by
      simp only [Requests.step, Requests.filter_of_find_none hf]
    rw [removeMap_of_none hf ht, hlive]
    exact h
  | some x =>
    obtain ⟨⟨s', hs, hperm⟩, hrec, hquiet⟩ := h
    obtain ⟨hx, hkey⟩ := Requests.find_some hf
    simp only [Tidy, hf] at ht
    have hq := hquiet x hx (hkey ▸ ht.2)
    have hr := hrec x hx
    rw [hkey] at hq hr
    unfold Vmm.removeMap
    rw [if_neg ht.1]
    constructor
    · exact ⟨_, hs.markUnmap hq hr ⟨x, hperm.mem_iff.mpr hx, hkey⟩, hperm.filter _⟩
    · intro y hy
      exact exists_mem_markUnmap (hrec y (List.mem_filter.mp hy).1) (fun _ hk => hk) _
    · intro y hy hfresh r' hr' hk
      obtain ⟨hmem, hne⟩ := List.mem_filter.mp hy
      rcases mem_markUnmap hr' with hold | ⟨r'', -, hmark, rfl⟩
      · exact hquiet y hmem hfresh r' hold hk
      · have hne' : y.key ≠ (v, n) := by simpa using hne
        exact absurd (hk.symm.trans hmark) hne'

theorem exec_confirm (h : Realises σ q) : ∃ s', s'.Perm q.live ∧
    (Op.confirm.exec ideal).exec σ =
      (.ok 0, { σ with mgr := ⟨σ.mgr.maps.map MapT.settled, s'⟩ }) := by
  obtain ⟨s', hs, hperm⟩ := h.settles
  refine ⟨s', hperm, ?_⟩
  have hc := Vmm.exec_confirm (m := σ.mgr) hs.exec
  show ((Vmm.confirm ideal).exec σ.mgr |>.1, _) = _
  rw [hc]

theorem confirm (h : Realises σ q) (hperm : s'.Perm q.live) :
    Realises { σ with mgr := ⟨σ.mgr.maps.map MapT.settled, s'⟩ } (q.step .confirm) := by
  have hnone : ∀ r ∈ σ.mgr.maps.map MapT.settled, r.pending = .NONE := by
    intro r hr
    obtain ⟨r', -, rfl⟩ := List.mem_map.mp hr
    rfl
  constructor
  · exact ⟨s', Settles.refl hnone s', hperm⟩
  · intro x hx
    obtain ⟨r, hr, hk⟩ := h.recorded x hx
    exact ⟨r.settled, List.mem_map_of_mem hr, hk⟩
  · exact fun x _ _ r hr _ => hnone r hr

end Realises

theorem Reached.realises (h : Reached σ q) : Realises σ q := by
  induction h with
  | start => exact ⟨⟨[], .nil, .nil⟩, nofun, nofun⟩
  | @step σ σ' q op rc _ hl ht hx ih =>
    cases op with
    | addMap v p n prot =>
      cases hx
      exact ih.addMap hl
    | removeMap v n prot =>
      cases hx
      exact ih.removeMap ht
    | confirm =>
      obtain ⟨s', hperm, hc⟩ := ih.exec_confirm
      cases hc.symm.trans hx
      exact ih.confirm hperm

/-- Every `confirm` returns zero with exactly the live ranges mapped, and to remove a range that is
not live changes nothing. -/
theorem confirm_realises (h : Reached σ q) :
    (∃ σ', (Op.confirm.exec ideal).exec σ = (.ok 0, σ') ∧ σ'.mgr.mmu.Perm q.live) ∧
    ∀ v n prot, q.find (v, n) = none → Tidy σ q (.removeMap v n prot) →
      ((Op.removeMap v n prot).exec ideal).exec σ = (.ok 0, σ) := by
  refine ⟨?_, fun v n prot hf ht => ?_⟩
  · obtain ⟨s', hperm, hc⟩ := h.realises.exec_confirm
    exact ⟨_, hc, hperm⟩
  · show (Except.ok 0, removeMap v n prot σ) = _
    rw [removeMap_of_none hf ht]

theorem confirm_realises_moved : ∃ σ q, Reached σ q ∧ q.live = [⟨0x1000, 0x8000, 0x2000, 1⟩] ∧
    ∃ σ', (Op.confirm.exec ideal).exec σ = (.ok 0, σ') ∧ σ'.mgr.mmu.Perm q.live := by
  have h₁ := @Reached.step _ _ _ (.addMap 0x1000 0x4000 0x1000 1) 0 .start nofun trivial rfl
  have h₂ := @Reached.step _ _ _ .confirm 0 h₁ trivial trivial rfl
  have hlegal : Legal ⟨[⟨0x1000, 0x4000, 0x1000, 1⟩], []⟩ (.removeMap 0x1000 0x1000 1) := by
    simp [Legal, Requests.find, Mapping.key]
  have h₃ := h₂.step hlegal ⟨by decide, List.not_mem_nil⟩ rfl
  have h₄ := @Reached.step _ _ _ (.addMap 0x1000 0x8000 0x2000 1) 0 h₃ nofun trivial rfl
  exact ⟨_, _, h₄, rfl, (confirm_realises h₄).1⟩

def start : Space (List Mapping) := ⟨[], VMemoryMgr.new [] []⟩

def outcome (ops : List Op) : Except Empty (List Int) × List Mapping :=
  let r := (Script.runAll (Op.exec ideal) ops).exec start
  (r.1, r.2.mgr.mmu)

theorem confirm_diverges :
    outcome [.addMap 0x1000 0x4000 0x1000 1, .removeMap 0x1000 0x1000 1, .confirm] =
      (.ok [0, 0, K_EALREADY], []) ∧
    outcome [.addMap 0x1000 0x4000 0x1000 1, .confirm, .removeMap 0x1000 0x1000 1, .confirm,
      .removeMap 0x1000 0x1000 1, .confirm] = (.ok [0, 0, 0, 0, 0, K_EALREADY], []) ∧
    outcome [.addMap 0x1000 0x4000 0x1000 17, .confirm, .removeMap 0x1000 0x1000 17, .confirm] =
      (.ok [0, 0, 0, 0], [⟨0x1000, 0x4000, 0x1000, 17⟩]) := by
  decide

end Abydos.Vmm
