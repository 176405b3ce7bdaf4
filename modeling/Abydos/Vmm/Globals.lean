import Abydos.Lib.Script
import Abydos.Vmm.Confirm

namespace Abydos.Vmm

open Abydos.Lib

structure Kernel (S : Type) where
  globalMaps : List MapT
  mgr : Nat → VMemoryMgr S

inductive Event (S : Type)
  | construct (i : Nat) (mmu : S)
  | call (i : Nat) (op : Op)

def Kernel.space (K : Kernel S) (i : Nat) : Space S := ⟨K.globalMaps, K.mgr i⟩

def Kernel.setSpace (i : Nat) (K : Kernel S) (σ : Space S) : Kernel S :=
  ⟨σ.globalMaps, Function.update K.mgr i σ.mgr⟩

def Event.exec (M : MMUBase S E) : Event S → Prog (Kernel S) E Int
  | .construct i mmu => do
    modify fun K => { K with mgr := Function.update K.mgr i (VMemoryMgr.new K.globalMaps mmu) }
    return 0
  | .call i op => Prog.zoom (Kernel.space · i) (Kernel.setSpace i) (op.exec M)

def Kernel.start (mmu : Nat → S) : Kernel S := ⟨[], fun i => VMemoryMgr.new [] (mmu i)⟩

def Event.op : Event S → Option Op
  | .construct _ _ => none
  | .call _ op => some op

/-- The ranges added with `PROT_G` and not since removed with it. -/
def liveStep (live : List Mapping) : Op → List Mapping
  | .addMap v p n prot => if isGlobal prot then live ++ [⟨v, p, n, prot⟩] else live
  | .removeMap v n prot => if isGlobal prot then live.filter (·.key ≠ (v, n)) else live
  | .confirm => live

def liveGlobals (ops : List Op) : List Mapping := ops.foldl liveStep []

def GlobalsDisjoint (ops : List Op) : Prop :=
  ∀ ops₁ v p n prot ops₂, ops = ops₁ ++ .addMap v p n prot :: ops₂ → isGlobal prot →
    ∀ y ∈ liveGlobals ops₁, ¬ Overlaps ⟨v, p, n, prot⟩ y

def GlobalsKept (ops : List Op) : Prop :=
  ∀ ops₁ v n prot ops₂, ops = ops₁ ++ .removeMap v n prot :: ops₂ → isGlobal prot →
    ∀ p prot', isGlobal prot' → Op.addMap v p n prot' ∉ ops₁

def globalStep (g : List MapT) : Op → List MapT
  | .addMap v p n prot => if isGlobal prot then g ++ [⟨v, p, n, prot, .MAP⟩] else g
  | .removeMap v n prot => if isGlobal prot then markUnmap (v, n) g else g
  | .confirm => g

variable {S E : Type} {M : MMUBase S E} {K K' : Kernel S} {ops : List Op} {g : List MapT}
  {k : Key} {r : MapT} {s : List Mapping}

theorem Op.exec_globalMaps {op : Op} {σ σ' : Space S}
    (h : (op.exec M).exec σ = (.ok rc, σ')) : σ'.globalMaps = globalStep σ.globalMaps op := by
  cases op with
  | addMap v p n prot =>
    cases h
    rfl
  | removeMap v n prot =>
    cases h
    dsimp only [globalStep]
    unfold Vmm.removeMap
    split <;> rfl
  | confirm =>
    obtain ⟨m, -, rfl⟩ := Prog.exec_zoom_ok h
    rfl

theorem exec_globalMaps (h : (Script.runAll (Event.exec M) es).exec K = (.ok rcs, K')) :
    K'.globalMaps = (es.filterMap Event.op).foldl globalStep K.globalMaps := by
  induction es generalizing K rcs with
  | nil =>
    cases h
    rfl
  | cons e es ih =>
    obtain ⟨rc, rcs', K₁, -, he, hrest⟩ := Script.exec_runAll_inv h
    rw [ih hrest]
    cases e with
    | construct i mmu =>
      cases he
      rfl
    | call i op =>
      obtain ⟨σ, hσ, rfl⟩ := Prog.exec_zoom_ok he
      exact congrArg (List.foldl globalStep · _) (Op.exec_globalMaps hσ)

def globals (ops : List Op) : List MapT := ops.foldl globalStep []

theorem globals_snoc (ops : List Op) (op : Op) :
    globals (ops ++ [op]) = globalStep (globals ops) op := by
  unfold globals
  rw [List.foldl_append]
  rfl

theorem liveGlobals_snoc (ops : List Op) (op : Op) :
    liveGlobals (ops ++ [op]) = liveStep (liveGlobals ops) op := by
  unfold liveGlobals
  rw [List.foldl_append]
  rfl

theorem globalStep_cases (op : Op) (g : List MapT) (live : List Mapping) :
    (globalStep g op = g ∧ liveStep live op = live) ∨
    (∃ v p n prot, op = .addMap v p n prot ∧ isGlobal prot ∧
      globalStep g op = g ++ [⟨v, p, n, prot, .MAP⟩] ∧
      liveStep live op = live ++ [⟨v, p, n, prot⟩]) ∨
    (∃ v n prot, op = .removeMap v n prot ∧ isGlobal prot ∧
      globalStep g op = markUnmap (v, n) g ∧
      liveStep live op = live.filter (·.key ≠ (v, n))) := by
  cases op with
  | addMap v p n prot =>
    by_cases hg : isGlobal prot
    · exact Or.inr (Or.inl ⟨v, p, n, prot, rfl, hg, if_pos hg, if_pos hg⟩)
    · exact Or.inl ⟨if_neg hg, if_neg hg⟩
  | removeMap v n prot =>
    by_cases hg : isGlobal prot
    · exact Or.inr (Or.inr ⟨v, n, prot, rfl, hg, if_pos hg, if_pos hg⟩)
    · exact Or.inl ⟨if_neg hg, if_neg hg⟩
  | confirm => exact Or.inl ⟨rfl, rfl⟩

def Added (ops : List Op) (k : Key) : Prop :=
  ∃ p prot, isGlobal prot ∧ Op.addMap k.1 p k.2 prot ∈ ops

theorem Added.snoc (h : Added ops k) (op : Op) : Added (ops ++ [op]) k := by
  obtain ⟨p, prot, hg, hmem⟩ := h
  exact ⟨p, prot, hg, List.mem_append_left _ hmem⟩

theorem added_of_mem (ops : List Op) :
    (∀ r ∈ globals ops, Added ops r.key) ∧ ∀ x ∈ liveGlobals ops, Added ops x.key := by
  induction ops using List.reverseRecOn with
  | nil => exact ⟨nofun, nofun⟩
  | append_singleton ops op ih =>
    obtain ⟨hrec, hlive⟩ := ih
    rw [globals_snoc, liveGlobals_snoc]
    rcases globalStep_cases op (globals ops) (liveGlobals ops) with
      ⟨h, h'⟩ | ⟨v, p, n, prot, rfl, hg, h, h'⟩ | ⟨v, n, prot, rfl, hg, h, h'⟩
    · rw [h, h']
      exact ⟨fun r hr => (hrec r hr).snoc op, fun x hx => (hlive x hx).snoc op⟩
    · rw [h, h']
      have hnew : Added (ops ++ [.addMap v p n prot]) (v, n) :=
        ⟨p, prot, hg, List.mem_append_right _ List.mem_cons_self⟩
      constructor
      · intro r hr
        rcases List.mem_append.mp hr with hr | hr
        · exact (hrec r hr).snoc _
        · rw [List.mem_singleton.mp hr]
          exact hnew
      · intro x hx
        rcases List.mem_append.mp hx with hx | hx
        · exact (hlive x hx).snoc _
        · rw [List.mem_singleton.mp hx]
          exact hnew
    · rw [h, h']
      refine ⟨fun r hr => ?_, fun x hx => (hlive x (List.mem_filter.mp hx).1).snoc _⟩
      rcases mem_markUnmap hr with hr | ⟨r', hr', -, rfl⟩
      · exact (hrec r hr).snoc _
      · exact (hrec r' hr').snoc _

theorem globalStep_keeps {P : MapT → Prop} (op : Op)
    (hP : ∀ r, P r → P { r with pending := .UNMAP }) (h : ∃ r ∈ g, P r) :
    ∃ r ∈ globalStep g op, P r := by
  rcases globalStep_cases op g [] with ⟨h', -⟩ | ⟨v, p, n, prot, rfl, -, h', -⟩ |
    ⟨v, n, prot, rfl, -, h', -⟩
  · rwa [h']
  · rw [h']
    obtain ⟨r, hr, hp⟩ := h
    exact ⟨r, List.mem_append_left _ hr, hp⟩
  · rw [h']
    exact exists_mem_markUnmap h hP _

theorem foldl_marked (ops : List Op) (h : ∃ r ∈ g, r.pending = .UNMAP) :
    ∃ r ∈ ops.foldl globalStep g, r.pending = .UNMAP := by
  induction ops generalizing g with
  | nil => exact h
  | cons op ops ih => exact ih (globalStep_keeps op (fun _ _ => rfl) h)

theorem recorded_of_added (h : Added ops k) : ∃ r ∈ globals ops, r.key = k := by
  induction ops using List.reverseRecOn with
  | nil =>
    obtain ⟨p, prot, -, hmem⟩ := h
    cases hmem
  | append_singleton ops op ih =>
    obtain ⟨p, prot, hg, hmem⟩ := h
    rw [globals_snoc]
    rcases List.mem_append.mp hmem with hmem | hmem
    · exact globalStep_keeps op (fun _ hk => hk) (ih ⟨p, prot, hg, hmem⟩)
    · rw [← List.mem_singleton.mp hmem]
      have hstep : globalStep (globals ops) (.addMap k.1 p k.2 prot) = _ := if_pos hg
      rw [hstep]
      exact ⟨_, List.mem_append_right _ List.mem_cons_self, rfl⟩

theorem marked_of_removed (h : ¬ GlobalsKept ops) : ∃ r ∈ globals ops, r.pending = .UNMAP := by
  unfold GlobalsKept at h
  push Not at h
  obtain ⟨ops₁, v, n, prot, ops₂, rfl, hg, p, prot', hg', hmem⟩ := h
  have hadd : Added ops₁ (v, n) := ⟨p, prot', hg', hmem⟩
  have hstep : globalStep (globals ops₁) (.removeMap v n prot) = _ := if_pos hg
  have hmark := exists_marked (recorded_of_added hadd)
  rw [← hstep] at hmark
  unfold globals
  rw [List.foldl_append]
  exact foldl_marked ops₂ hmark

theorem GlobalsKept.init (h : GlobalsKept (ops ++ [op])) : GlobalsKept ops := by
  intro ops₁ v n prot ops₂ heq
  exact h ops₁ v n prot (ops₂ ++ [op]) (by rw [heq, List.append_assoc]; rfl)

theorem GlobalsDisjoint.init (h : GlobalsDisjoint (ops ++ [op])) : GlobalsDisjoint ops := by
  intro ops₁ v p n prot ops₂ heq
  exact h ops₁ v p n prot (ops₂ ++ [op]) (by rw [heq, List.append_assoc]; rfl)

theorem settles_globals (hk : GlobalsKept ops) (hd : GlobalsDisjoint ops) :
    Settles ideal (globals ops) [] (liveGlobals ops) := by
  induction ops using List.reverseRecOn with
  | nil => exact .nil
  | append_singleton ops op ih =>
    have hs := ih hk.init hd.init
    rw [globals_snoc, liveGlobals_snoc]
    rcases globalStep_cases op (globals ops) (liveGlobals ops) with
      ⟨h, h'⟩ | ⟨v, p, n, prot, rfl, hg, h, h'⟩ | ⟨v, n, prot, rfl, hg, h, h'⟩
    · rw [h, h']
      exact hs
    · rw [h, h']
      have hno := hd ops v p n prot [] rfl hg
      exact hs.append (.call (call_map (r := ⟨v, p, n, prot, .MAP⟩) rfl) (exec_ideal_map hno) .nil)
    · -- nothing with this range has been added, so nothing is found
      have hnot : ¬ Added ops (v, n) := by
        rintro ⟨p, prot', hg', hmem⟩
        exact hk ops v n prot [] rfl hg p prot' hg' hmem
      obtain ⟨hrec, hlive⟩ := added_of_mem ops
      have hmark : markUnmap (v, n) (globals ops) = globals ops := by
        refine markUnmap_of_find fun r hr => ?_
        have hkey : r.key = (v, n) := by simpa using List.find?_some hr
        exact absurd (hkey ▸ hrec r (List.mem_of_find?_eq_some hr)) hnot
      have hfilter : (liveGlobals ops).filter (·.key ≠ (v, n)) = liveGlobals ops := by
        refine List.filter_eq_self.mpr fun x hx => ?_
        have hne : x.key ≠ (v, n) := fun hkey => hnot (hkey ▸ hlive x hx)
        simpa using hne
      rw [h, h', hmark, hfilter]
      exact hs

def Leading (a b : MapT) : Prop := b.pending = .UNMAP → a.key ≠ b.key

theorem leading_markUnmap (h : g.Pairwise Leading) : (markUnmap k g).Pairwise Leading := by
  induction g with
  | nil => exact .nil
  | cons r g ih =>
    obtain ⟨hr, hg⟩ := List.pairwise_cons.mp h
    unfold markUnmap
    split
    · exact List.pairwise_cons.mpr ⟨hr, hg⟩
    · next hk =>
      refine List.pairwise_cons.mpr ⟨fun b hb hp => ?_, ih hg⟩
      rcases mem_markUnmap hb with hb | ⟨b', -, hk', rfl⟩
      · exact hr b hb hp
      · exact fun h => hk (h.trans hk')

theorem globals_leading (ops : List Op) : (globals ops).Pairwise Leading := by
  induction ops using List.reverseRecOn with
  | nil => exact .nil
  | append_singleton ops op ih =>
    rw [globals_snoc]
    rcases globalStep_cases op (globals ops) [] with ⟨h, -⟩ | ⟨v, p, n, prot, rfl, -, h, -⟩ |
      ⟨v, n, prot, rfl, -, h, -⟩
    · rwa [h]
    · rw [h]
      refine List.pairwise_append.mpr ⟨ih, List.pairwise_singleton _ _, fun a _ b hb hp => ?_⟩
      rw [List.mem_singleton.mp hb] at hp
      cases hp
    · rw [h]
      exact leading_markUnmap ih

theorem confirmLoop_fails (hl : g.Pairwise Leading) (hm : ∃ r ∈ g, r.pending = .UNMAP)
    (hs : ∀ y ∈ s, ∀ r ∈ g, r.pending = .UNMAP → y.key ≠ r.key) (rc : Int) :
    ∃ rc' rs s', rc' < 0 ∧ (confirmLoop ideal g rc).exec s = (.ok (rc', rs), s') := by
  induction g generalizing s rc with
  | nil =>
    obtain ⟨r, hr, -⟩ := hm
    cases hr
  | cons r g ih =>
    obtain ⟨hr, hg⟩ := List.pairwise_cons.mp hl
    have htail : r.pending ≠ .UNMAP → ∃ r ∈ g, r.pending = .UNMAP := by
      intro hp
      obtain ⟨r', hr', hp'⟩ := hm
      rcases List.mem_cons.mp hr' with rfl | hr'
      · exact absurd hp' hp
      · exact ⟨r', hr', hp'⟩
    have hs' : ∀ y ∈ s, ∀ r ∈ g, r.pending = .UNMAP → y.key ≠ r.key :=
      fun y hy q hq => hs y hy q (List.mem_cons_of_mem r hq)
    cases hp : r.pending with
    | NONE =>
      obtain ⟨rc', rs, s', hneg, hx⟩ := ih hg (htail (by simp [hp])) hs' rc
      exact ⟨rc', _, s', hneg, exec_confirmLoop_none (call_eq_none.mpr hp) hx⟩
    | MAP =>
      by_cases hov : ∃ y ∈ s, Overlaps r.mapping y
      · obtain ⟨y, hy, hov⟩ := hov
        exact ⟨_, _, _, by decide, exec_confirmLoop_fail (call_map hp) (exec_ideal_map_fail hy hov)
          (by decide)⟩
      · have hno : ∀ y ∈ s, ¬ Overlaps r.mapping y := fun y hy h => hov ⟨y, hy, h⟩
        have hs₁ : ∀ y ∈ s ++ [r.mapping], ∀ r ∈ g, r.pending = .UNMAP → y.key ≠ r.key := by
          intro y hy q hq hqp
          rcases List.mem_append.mp hy with hy | hy
          · exact hs' y hy q hq hqp
          · rw [List.mem_singleton.mp hy]
            exact hr q hq hqp
        obtain ⟨rc', rs, s', hneg, hx⟩ := ih hg (htail (by simp [hp])) hs₁ 0
        exact ⟨rc', _, s', hneg, exec_confirmLoop_call (call_map hp) (exec_ideal_map hno)
          (by decide) hx⟩
    | UNMAP =>
      have hno : ∀ y ∈ s, y.key ≠ (r.vaddr, r.size) :=
        fun y hy => hs y hy r List.mem_cons_self hp
      exact ⟨_, _, _, by decide, exec_confirmLoop_fail (call_unmap hp) (exec_ideal_unmap_fail hno)
        (by decide)⟩

/-- The first `confirm` of a new manager on an empty MMU maps exactly the live global ranges. -/
def Inherits (K : Kernel S) (live : List Mapping) : Prop :=
  ∃ m, (confirm ideal).exec (VMemoryMgr.new K.globalMaps []) = (.ok 0, m) ∧ m.mmu.Perm live

theorem inherits_iff {mmu : Nat → S} {es : List (Event S)}
    (hrun : (Script.runAll (Event.exec M) es).exec (Kernel.start mmu) = (.ok rcs, K))
    (hd : GlobalsDisjoint (es.filterMap Event.op)) :
    Inherits K (liveGlobals (es.filterMap Event.op)) ↔ GlobalsKept (es.filterMap Event.op) := by
  have hglobal : K.globalMaps = globals (es.filterMap Event.op) := exec_globalMaps hrun
  unfold Inherits
  rw [hglobal]
  constructor
  · rintro ⟨m, hm, -⟩
    by_contra hk
    obtain ⟨rc, rs, s', hneg, hx⟩ :=
      confirmLoop_fails (globals_leading _) (marked_of_removed hk) (s := []) nofun 0
    cases (exec_confirm (m := VMemoryMgr.new _ []) hx).symm.trans hm
    exact absurd hneg (by decide)
  · intro hk
    exact ⟨_, exec_confirm (m := VMemoryMgr.new _ []) (settles_globals hk hd).exec, .refl _⟩

theorem globalsDisjoint_cons (h : ∀ v p n prot, Op.addMap v p n prot ∉ ops) :
    GlobalsDisjoint (op :: ops) := by
  intro ops₁ v p n prot ops₂ heq
  cases ops₁ with
  | nil => exact fun _ => nofun
  | cons op' ops₁ =>
    have hmem : Op.addMap v p n prot ∈ ops := by
      rw [(List.cons.inj heq).2]
      exact List.mem_append_right _ List.mem_cons_self
    exact absurd hmem (h v p n prot)

def sharing : List (Event (List Mapping)) :=
  [.call 0 (.addMap 0x1000 0x4000 0x1000 17), .construct 1 [], .call 1 .confirm,
    .call 1 (.removeMap 0x1000 0x1000 1)]

theorem inherits_iff_sharing : ∃ rcs K,
    (Script.runAll (Event.exec ideal) sharing).exec (Kernel.start fun _ => []) = (.ok rcs, K) ∧
    GlobalsDisjoint (sharing.filterMap Event.op) ∧ GlobalsKept (sharing.filterMap Event.op) ∧
    Inherits K [⟨0x1000, 0x4000, 0x1000, 17⟩] := by
  have hd : GlobalsDisjoint (sharing.filterMap Event.op) :=
    globalsDisjoint_cons (by simp [Event.op])
  have hk : GlobalsKept (sharing.filterMap Event.op) := by
    intro ops₁ v n prot ops₂ heq hg
    have hmem : Op.removeMap v n prot ∈ sharing.filterMap Event.op := by
      rw [heq]
      exact List.mem_append_right _ List.mem_cons_self
    have hprot : 1 = prot := by
      simp [sharing, Event.op] at hmem
      exact hmem.2.2
    rw [← hprot] at hg
    exact absurd hg (by decide)
  obtain ⟨rcs, K, hrun⟩ : ∃ rcs K, (Script.runAll (Event.exec ideal) sharing).exec
      (Kernel.start fun _ => []) = (.ok rcs, K) := ⟨_, _, rfl⟩
  exact ⟨rcs, K, hrun, hd, hk, (inherits_iff hrun hd).mpr hk⟩

def withdrawn : List (Event (List Mapping)) :=
  [.call 0 (.addMap 0x1000 0x4000 0x1000 17), .call 0 .confirm,
    .call 0 (.removeMap 0x1000 0x1000 17)]

theorem inherits_unmap : ∃ rcs K,
    (Script.runAll (Event.exec ideal) withdrawn).exec (Kernel.start fun _ => []) = (.ok rcs, K) ∧
    GlobalsDisjoint (withdrawn.filterMap Event.op) ∧
    liveGlobals (withdrawn.filterMap Event.op) = [] ∧
    ((confirm ideal).exec (VMemoryMgr.new K.globalMaps [])).1 = .ok K_EALREADY ∧
    ¬ Inherits K (liveGlobals (withdrawn.filterMap Event.op)) := by
  refine ⟨_, _, rfl, globalsDisjoint_cons (by simp [Event.op]), rfl, rfl, ?_⟩
  rintro ⟨m, hm, -⟩
  cases congrArg Prod.fst hm

end Abydos.Vmm
