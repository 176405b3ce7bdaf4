import Mathlib.Data.List.Nodup
import Abydos.Driver.Manager

namespace Abydos.Driver

variable {W : Type} {fdt : Fdt} {driver : DrvPtr → DriverBase W} {_drvlist : List DrvPtr}
  {type : DevType} {s s' s₁ : DriverManager W} {h h' : Devhdl} {above : List Nat} {node : Nat}
  {events : List Event}

def Devhdl.Extends (h h' : Devhdl) : Prop := ∀ node e, h node = some e → h' node = some e

/-- None of these nodes is installed with what is below it. -/
def Devhdl.Uncovered (h : Devhdl) (nodes : List Nat) : Prop :=
  ∀ a ∈ nodes, ∀ e, h a = some e → e.cap < DRV_CAP_COVER

def Event.devhdl : Event → Option Devhdl
  | .tried _ _ => none
  | .offered _ _ h => some h
  | .added _ _ h => some h

def triedOf (events : List Event) : List (Nat × Int) := events.filterMap fun
  | .tried node ret => some (node, ret)
  | _ => none

def stopped (tried : List (Nat × Int)) (node : Nat) : Bool :=
  tried.any fun t => t.1 = node ∧ (1 < t.2 ∨ t.2 < 0)

def Event.Proper (fdt : Fdt) : Event → Prop
  | .tried _ _ => True
  | .offered _ node h => ∀ pl ∈ fdt.places, pl.offset = node → h.Uncovered pl.above
  | .added _ node h => h node = none

namespace Devhdl

theorem Extends.refl (h : Devhdl) : h.Extends h := fun _ _ he => he

theorem Extends.trans (h₁ : h.Extends h') (h₂ : h'.Extends h'') : h.Extends h'' :=
  fun node e he => h₂ node e (h₁ node e he)

theorem insert_apply (h : Devhdl) (node k : Nat) (e : Entry) :
    h.insert node e k = if k = node then some ((h node).getD e) else h k :=
  Function.update_apply h node _ k

theorem extends_insert (h : Devhdl) (node : Nat) (e : Entry) : h.Extends (h.insert node e) := by
  intro k e' he
  rw [insert_apply]
  split
  · next hk =>
    subst hk
    rw [he]
    rfl
  · exact he

theorem Uncovered.cons (hu : h.Uncovered above)
    (hnode : ∀ e, h node = some e → e.cap < DRV_CAP_COVER) : h.Uncovered (node :: above) :=
  List.forall_mem_cons.mpr ⟨hnode, hu⟩

theorem Uncovered.insert (hu : h.Uncovered above) (he : node ∈ above → e.cap < DRV_CAP_COVER) :
    (h.insert node e).Uncovered above := by
  intro a ha e' he'
  rw [insert_apply] at he'
  split at he'
  · next hk =>
    subst hk
    cases hn : h a with
    | none =>
      rw [hn] at he'
      cases he'
      exact he ha
    | some e₀ =>
      rw [hn] at he'
      cases he'
      exact hu a ha e₀ hn
  · exact hu a ha e' he'

end Devhdl

theorem Mark.apply_eq (fdt : Fdt) (h : Devhdl) (mark : Mark) :
    mark.apply fdt h = h ∨
      mark.apply fdt h = h.insert mark.node ⟨mark.drv, DRV_CAP_THIS, mark.handler⟩ := by
  unfold Mark.apply markInstalled
  split
  · exact Or.inl rfl
  · exact Or.inr rfl

section Marks

variable (ms : List Mark)

theorem marks_extends : h.Extends (ms.foldl (Mark.apply fdt) h) := by
  induction ms generalizing h with
  | nil => exact .refl h
  | cons mark ms ih =>
    refine Devhdl.Extends.trans ?_ ih
    rcases mark.apply_eq fdt h with heq | heq
    · rw [heq]
      exact .refl h
    · rw [heq]
      exact h.extends_insert _ _

theorem marks_uncovered (hu : h.Uncovered above) :
    (ms.foldl (Mark.apply fdt) h).Uncovered above := by
  induction ms generalizing h with
  | nil => exact hu
  | cons mark ms ih =>
    apply ih
    rcases mark.apply_eq fdt h with heq | heq
    · rw [heq]
      exact hu
    · rw [heq]
      exact hu.insert fun _ => (by decide : DRV_CAP_THIS < DRV_CAP_COVER)

end Marks

structure Goes (fdt : Fdt) (s s' : DriverManager W) (events : List Event) : Prop where
  log : s'.log = s.log ++ events
  proper : ∀ e ∈ events, e.Proper fdt
  history : (s._devhdl :: events.filterMap Event.devhdl ++ [s'._devhdl]).Pairwise Devhdl.Extends

namespace Goes

theorem trans {events' : List Event} (h₁ : Goes fdt s s₁ events) (h₂ : Goes fdt s₁ s' events') :
    Goes fdt s s' (events ++ events') where
  log := by rw [h₂.log, h₁.log, List.append_assoc]
  proper e he := (List.mem_append.mp he).elim (h₁.proper e) (h₂.proper e)
  history := by
    obtain ⟨hp₁, -, hend⟩ := List.pairwise_append.mp h₁.history
    have hp₂ := h₂.history
    rw [List.cons_append, List.pairwise_cons] at hp₂
    rw [List.filterMap_append, ← List.cons_append, List.append_assoc, List.pairwise_append]
    -- every table up to `s₁` is extended by that of `s₁`, and so by every later one
    exact ⟨hp₁, hp₂.2, fun h hh h' hh' => (hend h hh _ List.mem_cons_self).trans (hp₂.1 h' hh')⟩

theorem quiet (hlog : s'.log = s.log) (he : s._devhdl.Extends s'._devhdl) : Goes fdt s s' [] where
  log := hlog.trans (List.append_nil _).symm
  proper _ he := absurd he List.not_mem_nil
  history := by simpa using he

theorem refl (s : DriverManager W) : Goes fdt s s [] := .quiet rfl (.refl _)

theorem single {e : Event} (he : e.Proper fdt) (hd : ∀ h, e.devhdl = some h → h = s._devhdl) :
    Goes fdt s { s with log := s.log ++ [e] } [e] where
  log := rfl
  proper e' he' := List.mem_singleton.mp he' ▸ he
  history := by
    cases hh : e.devhdl with
    | none => simp [hh, Devhdl.Extends.refl]
    | some h => simp [hh, hd h hh, Devhdl.Extends.refl]

end Goes

theorem triedOf_append (events events' : List Event) :
    triedOf (events ++ events') = triedOf events ++ triedOf events' := List.filterMap_append

def Within (fdt : Fdt) (s s' : DriverManager W) : Prop :=
  ∃ events, Goes fdt s s' events ∧ triedOf events = []

theorem Within.trans (h₁ : Within fdt s s₁) (h₂ : Within fdt s₁ s') : Within fdt s s' := by
  obtain ⟨events, hg, ht⟩ := h₁
  obtain ⟨events', hg', ht'⟩ := h₂
  refine ⟨events ++ events', hg.trans hg', ?_⟩
  rw [triedOf_append]
  exact List.append_eq_nil_iff.mpr ⟨ht, ht'⟩

theorem Within.quiet (hlog : s'.log = s.log) (he : s._devhdl.Extends s'._devhdl) :
    Within fdt s s' := ⟨[], .quiet hlog he, rfl⟩

section Try

variable {name compatible : Str}

theorem offer_within (hu : ∀ pl ∈ fdt.places, pl.offset = node → s._devhdl.Uncovered pl.above)
    (p : DrvPtr) :
    Within fdt s ((offer driver type node name compatible p).run s).2 ∧
      ((offer driver type node name compatible p).run s).2._devhdl = s._devhdl := by
  unfold offer
  dsimp only
  split
  · have hoffered : Goes fdt s { s with log := s.log ++ [.offered p node s._devhdl] }
        [.offered p node s._devhdl] := .single hu (fun _ hh => (Option.some.inj hh).symm)
    exact ⟨.trans ⟨_, hoffered, rfl⟩ (.quiet rfl (.refl _)), rfl⟩
  · exact ⟨.quiet rfl (.refl _), rfl⟩

theorem run_findIf_cons (p : DrvPtr) (ps : List DrvPtr) (s : DriverManager W) :
    (findIf driver type node name compatible (p :: ps)).run s =
      if 0 < ((offer driver type node name compatible p).run s).1 then
        (some (p, ((offer driver type node name compatible p).run s).1),
          ((offer driver type node name compatible p).run s).2)
      else (findIf driver type node name compatible ps).run
        ((offer driver type node name compatible p).run s).2 := by
  rw [findIf, StateT.run_bind]
  change StateT.run (ite _ _ _) _ = _
  split <;> rfl

theorem findIf_within (hu : ∀ pl ∈ fdt.places, pl.offset = node → s._devhdl.Uncovered pl.above)
    (ps : List DrvPtr) :
    Within fdt s ((findIf driver type node name compatible ps).run s).2 ∧
      ((findIf driver type node name compatible ps).run s).2._devhdl = s._devhdl := by
  induction ps generalizing s with
  | nil => exact ⟨.quiet rfl (.refl _), rfl⟩
  | cons p ps ih =>
    obtain ⟨hw, hd⟩ : Within fdt s ((offer driver type node name compatible p).run s).2 ∧ _ :=
      offer_within hu p
    rw [run_findIf_cons]
    split
    · exact ⟨hw, hd⟩
    · obtain ⟨hw', hd'⟩ := ih (s := ((offer driver type node name compatible p).run s).2)
        (by rwa [hd])
      exact ⟨hw.trans hw', hd'.trans hd⟩

def DriverManager.install (fdt : Fdt) (driver : DrvPtr → DriverBase W) (node : Nat) (drv : DrvPtr)
    (rc : Int) (s : DriverManager W) : DriverManager W :=
  let (hdl, h, world) := (driver drv).addDevice fdt node s._devhdl s.world
  { _devhdl := if 0 ≤ hdl then h.insert node ⟨drv, rc, hdl⟩ else h
    world
    log := s.log ++ [.added drv node s._devhdl] }

theorem run_try (name compatible : Option Str) (s : DriverManager W) :
    (_try fdt driver _drvlist type node name compatible).run s =
      match s._devhdl node with
      | some e => (e.cap, s)
      | none =>
        match name with
        | none => (-1, s)
        | some nodeName =>
          match (findIf driver type node nodeName (compatible.getD []) _drvlist).run s with
          | (none, s₁) => (0, s₁)
          | (some (drv, rc), s₁) => (rc, s₁.install fdt driver node drv rc) := by
  unfold _try
  rw [StateT.run_bind]
  change StateT.run (match s._devhdl node with | some e => _ | none => _) s = _
  cases s._devhdl node with
  | some e => rfl
  | none =>
    cases name with
    | none => rfl
    | some nodeName =>
      dsimp only
      rw [StateT.run_bind]
      cases (findIf driver type node nodeName (compatible.getD []) _drvlist).run s with
      | mk found s₁ =>
        cases found with
        | none => rfl
        | some f =>
          change (ite _ _ _ : DriverM W Int).run _ = (f.2, s₁.install fdt driver node f.1 f.2)
          unfold DriverManager.install
          dsimp only
          split <;> rfl

section Install

variable {drv : DrvPtr} {rc : Int}

theorem install_within (hnone : s._devhdl node = none) :
    Within fdt s (s.install fdt driver node drv rc) := by
  have hadded : Goes fdt s { s with log := s.log ++ [.added drv node s._devhdl] }
      [.added drv node s._devhdl] := .single hnone (fun _ hh => (Option.some.inj hh).symm)
  refine .trans ⟨_, hadded, rfl⟩ (.quiet rfl ?_)
  obtain ⟨ms, hms⟩ := (driver drv).marks fdt node s._devhdl s.world
  have hmarks : s._devhdl.Extends ((driver drv).addDevice fdt node s._devhdl s.world).2.1 :=
    hms ▸ marks_extends ms
  change s._devhdl.Extends (ite _ _ _)
  split
  · exact hmarks.trans (Devhdl.extends_insert _ _ _)
  · exact hmarks

theorem install_uncovered (hu : s._devhdl.Uncovered above)
    (hrc : node ∈ above → rc < DRV_CAP_COVER) :
    (s.install fdt driver node drv rc)._devhdl.Uncovered above := by
  obtain ⟨ms, hms⟩ := (driver drv).marks fdt node s._devhdl s.world
  have hmarks : ((driver drv).addDevice fdt node s._devhdl s.world).2.1.Uncovered above :=
    hms ▸ marks_uncovered ms hu
  change Devhdl.Uncovered (ite _ _ _) _
  split
  · exact hmarks.insert hrc
  · exact hmarks

end Install

theorem try_within {name compatible : Option Str} (hnode : node ∉ above)
    (habove : ∀ pl ∈ fdt.places, pl.offset = node → pl.above = above)
    (hu : s._devhdl.Uncovered above)
    (hrun : (_try fdt driver _drvlist type node name compatible).run s = (tret, s')) :
    Within fdt s s' ∧ s'._devhdl.Uncovered above ∧
      (tret < DRV_CAP_COVER → s'._devhdl.Uncovered (node :: above)) := by
  rw [run_try] at hrun
  split at hrun
  · next e he =>
    cases hrun
    refine ⟨.quiet rfl (.refl _), hu, fun hcap => hu.cons fun e' he' => ?_⟩
    rw [he] at he'
    cases he'
    exact hcap
  · next hnone =>
    have hu' : s._devhdl.Uncovered (node :: above) := hu.cons fun e he => by
      rw [hnone] at he
      cases he
    split at hrun
    · cases hrun
      exact ⟨.quiet rfl (.refl _), hu, fun _ => hu'⟩
    · next nodeName =>
      obtain ⟨hw, hd⟩ : Within fdt s
          ((findIf driver type node nodeName (compatible.getD []) _drvlist).run s).2 ∧ _ :=
        findIf_within (fun pl hpl hoff => (habove pl hpl hoff).symm ▸ hu) _drvlist
      split at hrun
      · next s₁ hfind =>
        rw [hfind] at hw hd
        cases hrun
        exact ⟨hw, hd.symm ▸ hu, fun _ => hd.symm ▸ hu'⟩
      · next drv rc s₁ hfind =>
        rw [hfind] at hw hd
        cases hrun
        rw [← hd] at hnone hu hu'
        exact ⟨hw.trans (install_within hnone), install_uncovered hu fun hm => absurd hm hnode,
          fun hrc => install_uncovered hu' fun _ => hrc⟩

end Try

mutual

def Node.Visited : Node → List (Nat × Int) → Prop
  | .mk offset _ _ subnodes, tried =>
    ∃ ret below, tried = (offset, ret) :: below ∧
      if 1 < ret ∨ ret < 0 then below = [] else VisitedAll subnodes below

def VisitedAll : List Node → List (Nat × Int) → Prop
  | [], tried => tried = []
  | n :: ns, tried => ∃ first rest, tried = first ++ rest ∧ n.Visited first ∧ VisitedAll ns rest

end

structure Lies (fdt : Fdt) (above : List Nat) (pls : List Place) : Prop where
  subset : pls ⊆ fdt.places
  fresh : (pls.map Place.offset ++ above).Nodup

section Lies

variable {name compatible : Option Str} {subnodes ns : List Node} {n : Node}

theorem Lies.sublist (hl : Lies fdt above pls) (hs : pls'.Sublist pls) : Lies fdt above pls' where
  subset := fun _ hpl => hl.subset (hs.subset hpl)
  fresh := hl.fresh.sublist ((hs.map _).append_right _)

theorem Lies.not_mem (hl : Lies fdt above (Node.places above (.mk node name compatible subnodes))) :
    node ∉ above := fun hm => by
  have hf := hl.fresh
  rw [Node.places, List.map_cons, List.cons_append, List.nodup_cons] at hf
  exact hf.1 (List.mem_append_right _ hm)

theorem Lies.above_eq (hl : Lies fdt above (Node.places above (.mk node name compatible subnodes))) :
    ∀ pl ∈ fdt.places, pl.offset = node → pl.above = above := by
  intro pl hpl hoff
  have hm : ⟨node, name, above⟩ ∈ fdt.places := hl.subset (by simp [Node.places])
  rw [List.inj_on_of_nodup_map fdt.distinct hpl hm hoff]

theorem Lies.below (hl : Lies fdt above (Node.places above (.mk node name compatible subnodes))) :
    Lies fdt (node :: above) (placesOf (node :: above) subnodes) where
  subset := fun pl hpl => hl.subset (by simp [Node.places, hpl])
  fresh := by
    have hf := hl.fresh
    rw [Node.places, List.map_cons, List.cons_append] at hf
    exact List.perm_middle.nodup_iff.mpr hf

end Lies

theorem run_probe (name compatible : Option Str) (subnodes : List Node) (s : DriverManager W) :
    (probe fdt driver _drvlist type (.mk node name compatible subnodes)).run s =
      match (_try fdt driver _drvlist type node name compatible).run s with
      | (tret, s₁) =>
        if tret < 0 then (-1, { s₁ with log := s₁.log ++ [.tried node tret] })
        else if 1 < tret then (0, { s₁ with log := s₁.log ++ [.tried node tret] })
        else (0, ((probeSubnodes fdt driver _drvlist type subnodes).run
          { s₁ with log := s₁.log ++ [.tried node tret] }).2) := by
  rw [probe, StateT.run_bind]
  cases (_try fdt driver _drvlist type node name compatible).run s with
  | mk tret s₁ =>
    change (ite _ _ _ : DriverM W Int).run _ = _
    dsimp only
    split
    · rfl
    · split <;> rfl

theorem run_probeSubnodes_cons (n : Node) (ns : List Node) (s : DriverManager W) :
    (probeSubnodes fdt driver _drvlist type (n :: ns)).run s =
      (probeSubnodes fdt driver _drvlist type ns).run
        ((probe fdt driver _drvlist type n).run s).2 := by
  cases ns with
  | nil =>
    rw [probeSubnodes, probeSubnodes]
    rfl
  | cons child children =>
    rw [probeSubnodes]
    rfl

mutual

theorem probe_goes : ∀ (n : Node) {above : List Nat} {s : DriverManager W},
    Lies fdt above (n.places above) → s._devhdl.Uncovered above →
    ∃ events, Goes fdt s ((probe fdt driver _drvlist type n).run s).2 events ∧
      n.Visited (triedOf events) ∧
      ((probe fdt driver _drvlist type n).run s).2._devhdl.Uncovered above
  | .mk node name compatible subnodes, above, s, hl, hu => by
    rw [run_probe]
    cases htry : (_try fdt driver _drvlist type node name compatible).run s with
    | mk tret s₁ =>
      obtain ⟨⟨events, hg, ht⟩, hu₁, hbelow⟩ := try_within hl.not_mem hl.above_eq hu htry
      have htried : Goes fdt s₁ { s₁ with log := s₁.log ++ [.tried node tret] } [.tried node tret] :=
        .single trivial (fun h hh => by cases hh)
      have hlog : triedOf (events ++ [.tried node tret]) = [(node, tret)] := by
        rw [triedOf_append, ht]
        rfl
      dsimp only
      split
      · next hneg =>
        refine ⟨_, hg.trans htried, ⟨tret, [], hlog, ?_⟩, hu₁⟩
        rw [if_pos (Or.inr hneg)]
      split
      · next hcover =>
        refine ⟨_, hg.trans htried, ⟨tret, [], hlog, ?_⟩, hu₁⟩
        rw [if_pos (Or.inl hcover)]
      · next hneg hcover =>
        obtain ⟨events', hg', hv', hu'⟩ :=
          probeSubnodes_goes subnodes (s := { s₁ with log := s₁.log ++ [.tried node tret] })
            hl.below (hbelow (Int.lt_add_one_of_le (Int.not_lt.mp hcover)))
        refine ⟨_, (hg.trans htried).trans hg', ⟨tret, triedOf events', ?_, ?_⟩, ?_⟩
        · rw [triedOf_append, hlog]
          rfl
        · rw [if_neg (not_or.mpr ⟨hcover, hneg⟩)]
          exact hv'
        · exact fun a ha => hu' a (List.mem_cons_of_mem _ ha)

theorem probeSubnodes_goes : ∀ (ns : List Node) {above : List Nat} {s : DriverManager W},
    Lies fdt above (placesOf above ns) → s._devhdl.Uncovered above →
    ∃ events, Goes fdt s ((probeSubnodes fdt driver _drvlist type ns).run s).2 events ∧
      VisitedAll ns (triedOf events) ∧
      ((probeSubnodes fdt driver _drvlist type ns).run s).2._devhdl.Uncovered above
  | [], above, s, _, hu => ⟨[], .refl s, rfl, hu⟩
  | n :: ns, above, s, hl, hu => by
    rw [run_probeSubnodes_cons]
    obtain ⟨events, hg, hv, hu₁⟩ := probe_goes n (hl.sublist (List.sublist_append_left _ _)) hu
    obtain ⟨events', hg', hv', hu'⟩ :=
      probeSubnodes_goes ns (hl.sublist (List.sublist_append_right _ _)) hu₁
    refine ⟨events ++ events', hg.trans hg', ?_, hu'⟩
    exact ⟨_, _, triedOf_append _ _, hv, hv'⟩

end

section Visited

variable {tried all : List (Nat × Int)}

mutual

theorem Node.mem_above : ∀ (n : Node) {above : List Nat},
    ∀ pl ∈ n.places above, ∀ a ∈ above, a ∈ pl.above
  | .mk node name compatible subnodes, above, pl, hpl, a, ha => by
    rw [Node.places] at hpl
    rcases List.mem_cons.mp hpl with rfl | hpl
    · exact ha
    · exact mem_aboveOf subnodes pl hpl a (List.mem_cons_of_mem _ ha)

theorem mem_aboveOf : ∀ (ns : List Node) {above : List Nat},
    ∀ pl ∈ placesOf above ns, ∀ a ∈ above, a ∈ pl.above
  | [], _, _, hpl, _, _ => absurd hpl List.not_mem_nil
  | n :: ns, above, pl, hpl, a, ha => by
    rw [placesOf] at hpl
    rcases List.mem_append.mp hpl with hpl | hpl
    · exact n.mem_above pl hpl a ha
    · exact mem_aboveOf ns pl hpl a ha

end

mutual

theorem Node.Visited.sublist : ∀ (n : Node) {above : List Nat} {tried : List (Nat × Int)},
    n.Visited tried → (tried.map Prod.fst).Sublist ((n.places above).map Place.offset)
  | .mk node name compatible subnodes, above, tried, hv => by
    obtain ⟨ret, below, rfl, hbelow⟩ := hv
    rw [Node.places]
    refine List.Sublist.cons_cons node ?_
    split at hbelow
    · rw [hbelow]
      exact List.nil_sublist _
    · exact VisitedAll.sublist subnodes hbelow

theorem VisitedAll.sublist : ∀ (ns : List Node) {above : List Nat} {tried : List (Nat × Int)},
    VisitedAll ns tried → (tried.map Prod.fst).Sublist ((placesOf above ns).map Place.offset)
  | [], above, tried, hv => by
    obtain rfl : tried = [] := hv
    exact List.nil_sublist _
  | n :: ns, above, tried, hv => by
    obtain ⟨first, rest, rfl, hfirst, hrest⟩ := hv
    rw [placesOf, List.map_append, List.map_append]
    exact (Node.Visited.sublist n hfirst).append (VisitedAll.sublist ns hrest)

end

theorem stopped_eq (hd : (all.map Prod.fst).Nodup) (hm : (node, ret) ∈ all) :
    stopped all node = decide (1 < ret ∨ ret < 0) := by
  rw [Bool.eq_iff_iff, stopped, List.any_eq_true, decide_eq_true_iff]
  constructor
  · rintro ⟨t, ht, hstop⟩
    obtain ⟨hnode, hstop⟩ := of_decide_eq_true hstop
    rw [List.inj_on_of_nodup_map hd ht hm hnode] at hstop
    exact hstop
  · exact fun hstop => ⟨_, hm, decide_eq_true ⟨rfl, hstop⟩⟩

/-- No node that the place is below stops the pass. -/
def Place.reached (tried : List (Nat × Int)) (pl : Place) : Bool :=
  pl.above.all fun a => !stopped tried a

mutual

theorem Node.Visited.eq_filter (hd : (all.map Prod.fst).Nodup) :
    ∀ (n : Node) {above : List Nat} {tried : List (Nat × Int)}, n.Visited tried → tried ⊆ all →
    (∀ a ∈ above, stopped all a = false) →
    tried.map Prod.fst = ((n.places above).filter (Place.reached all)).map Place.offset
  | .mk node name compatible subnodes, above, tried, hv, hsub, habove => by
    obtain ⟨ret, below, rfl, hbelow⟩ := hv
    obtain ⟨hnode, hsub⟩ := List.cons_subset.mp hsub
    have hstop : stopped all node = decide (1 < ret ∨ ret < 0) := stopped_eq hd hnode
    have hself : Place.reached all ⟨node, name, above⟩ = true :=
      List.all_eq_true.mpr fun a ha => by rw [habove a ha]; rfl
    rw [Node.places, List.filter_cons_of_pos hself, List.map_cons, List.map_cons]
    congr 1
    split at hbelow
    · next hret =>
      -- the node itself is above everything that is left out
      rw [hbelow, List.filter_eq_nil_iff.mpr]
      · rfl
      · intro pl hpl hreached
        have hr := List.all_eq_true.mp hreached node
          (mem_aboveOf subnodes pl hpl node List.mem_cons_self)
        rw [hstop, decide_eq_true hret] at hr
        cases hr
    · next hret =>
      apply VisitedAll.eq_filter hd subnodes hbelow hsub
      intro a ha
      rcases List.mem_cons.mp ha with rfl | ha
      · rw [hstop, decide_eq_false hret]
      · exact habove a ha

theorem VisitedAll.eq_filter (hd : (all.map Prod.fst).Nodup) :
    ∀ (ns : List Node) {above : List Nat} {tried : List (Nat × Int)}, VisitedAll ns tried →
    tried ⊆ all → (∀ a ∈ above, stopped all a = false) →
    tried.map Prod.fst = ((placesOf above ns).filter (Place.reached all)).map Place.offset
  | [], above, tried, hv, hsub, habove => by
    obtain rfl : tried = [] := hv
    rfl
  | n :: ns, above, tried, hv, hsub, habove => by
    obtain ⟨first, rest, rfl, hfirst, hrest⟩ := hv
    obtain ⟨hsub₁, hsub₂⟩ := List.append_subset.mp hsub
    rw [placesOf, List.filter_append, List.map_append, List.map_append,
      Node.Visited.eq_filter hd n hfirst hsub₁ habove, VisitedAll.eq_filter hd ns hrest hsub₂ habove]

end

end Visited

theorem Fdt.lies (fdt : Fdt) : Lies fdt [] (fdt.root.places []) where
  subset := List.Subset.refl _
  fresh := by
    rw [List.append_nil]
    exact fdt.distinct

theorem pass_goes (type : DevType) (s : DriverManager W) :
    ∃ events, Goes fdt s ((probe fdt driver _drvlist type fdt.root).run s).2 events ∧
      fdt.root.Visited (triedOf events) := by
  obtain ⟨events, hg, hv, -⟩ : ∃ events,
      Goes fdt s ((probe fdt driver _drvlist type fdt.root).run s).2 events ∧ _ :=
    probe_goes fdt.root fdt.lies fun a ha => absurd ha List.not_mem_nil
  exact ⟨events, hg, hv⟩

theorem passes_goes (types : List DevType) (s : DriverManager W) :
    ∃ events, Goes fdt s (passes fdt driver _drvlist types s) events := by
  induction types generalizing s with
  | nil => exact ⟨[], .refl s⟩
  | cons type types ih =>
    obtain ⟨events, hg, -⟩ : ∃ events,
        Goes fdt s ((probe fdt driver _drvlist type fdt.root).run s).2 events ∧ _ :=
      pass_goes type s
    obtain ⟨events', hg'⟩ := ih ((probe fdt driver _drvlist type fdt.root).run s).2
    exact ⟨events ++ events', hg.trans hg'⟩

/-- A pass tries, each once and in document order, exactly the nodes below none that stopped it.
Over all passes no driver is installed where one is, no entry changes, and no driver is offered what
is below a covered node. -/
theorem probing_once (fdt : Fdt) (driver : DrvPtr → DriverBase W) (_drvlist : List DrvPtr)
    (types : List DevType) (s : DriverManager W) :
    (∀ (type : DevType) (s : DriverManager W), ∃ events,
      ((probe fdt driver _drvlist type fdt.root).run s).2.log = s.log ++ events ∧
      (triedOf events).map Prod.fst =
        (fdt.places.filter (Place.reached (triedOf events))).map Place.offset) ∧
    ∃ events, (passes fdt driver _drvlist types s).log = s.log ++ events ∧
      (∀ drv node h, .added drv node h ∈ events → h node = none) ∧
      (∀ drv node h, .offered drv node h ∈ events →
        ∀ pl ∈ fdt.places, pl.offset = node → h.Uncovered pl.above) ∧
      (s._devhdl :: events.filterMap Event.devhdl ++
        [(passes fdt driver _drvlist types s)._devhdl]).Pairwise Devhdl.Extends := by
  constructor
  · intro type s
    obtain ⟨events, hg, hv⟩ : ∃ events,
        Goes fdt s ((probe fdt driver _drvlist type fdt.root).run s).2 events ∧ _ :=
      pass_goes type s
    have hd : ((triedOf events).map Prod.fst).Nodup := fdt.distinct.sublist (hv.sublist fdt.root)
    exact ⟨events, hg.log, hv.eq_filter hd fdt.root (List.Subset.refl _)
      fun a ha => absurd ha List.not_mem_nil⟩
  · obtain ⟨events, hg⟩ : ∃ events, Goes fdt s (passes fdt driver _drvlist types s) events :=
      passes_goes types s
    exact ⟨events, hg.log, fun drv node h he => hg.proper _ he, fun drv node h he => hg.proper _ he,
      hg.history⟩

end Abydos.Driver
