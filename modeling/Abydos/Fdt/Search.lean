import Abydos.Fdt.Write

namespace Abydos.Fdt

open Abydos.Lib

def Place.found (n : Option Place) : Int := (n.map fun n => (n.offset : Int)).getD (-FDT_ERR_NOTFOUND)

/-- The first child of a name, or of a name and any unit address. -/
def Dt.child (t : Dt) (o : Nat) (name : Bytes) : Option Place :=
  (t.nodes.filter (·.up = some o)).find? (Matches ·.name name)

def Dt.follow (t : Dt) : Option Place → List Bytes → Option Place
  | n, [] => n
  | n, name :: names => t.follow (n.bind fun n => t.child n.offset name) names

def Dt.alias (t : Dt) (name : Bytes) : Option Bytes :=
  (t.follow t.nodes.head? [raw "aliases"]).bind fun n => n.props.lookup name

def segments (path : Bytes) : List Bytes := (path.splitOn slash).filter (· ≠ [])

section Segments

variable {path : Bytes}

theorem ne_slash {name : Bytes} (hname : slash ∉ name) : ∀ c ∈ name, (c == slash) = false :=
  fun _ hc => beq_eq_false_iff_ne.mpr fun h => hname (h ▸ hc)

theorem segments_append {name : Bytes} (hname : slash ∉ name) (hne : name ≠ []) :
    segments (name ++ slash :: path) = name :: segments path := by
  have hsplit : (name ++ slash :: path).splitOn slash = name :: path.splitOn slash :=
    List.splitOnP_append_cons_of_forall_mem (ne_slash hname) slash (beq_self_eq_true slash) path
  rw [segments, hsplit, List.filter_cons_of_pos (by simpa using hne)]
  rfl

theorem segments_single {name : Bytes} (hname : slash ∉ name) (hne : name ≠ []) :
    segments name = [name] := by
  have hsplit : name.splitOn slash = [name] :=
    List.splitOnP_eq_singleton (ne_slash hname)
  rw [segments, hsplit, List.filter_cons_of_pos (by simpa using hne)]
  rfl

theorem segments_slash (path : Bytes) : segments (slash :: path) = segments path := by
  have hsplit : (slash :: path).splitOn slash = [] :: path.splitOn slash :=
    List.splitOnP_append_cons [] path (beq_self_eq_true slash)
  rw [segments, hsplit]
  rfl

theorem segments_dropWhile (path : Bytes) : segments (path.dropWhile (· = slash)) = segments path := by
  induction path with
  | nil => rfl
  | cons c path ih =>
    by_cases hc : c = slash
    · rw [List.dropWhile_cons_of_pos (by simpa using hc), ih, hc, segments_slash]
    · rw [List.dropWhile_cons_of_neg (by simpa using hc)]

theorem segments_cons {c : UInt8} (hc : c ≠ slash) : segments (c :: path) =
    (c :: path).takeWhile (· ≠ slash) :: segments ((c :: path).dropWhile (· ≠ slash)) := by
  have hsplit := List.takeWhile_append_dropWhile (p := (· ≠ slash)) (l := c :: path)
  have hname : slash ∉ (c :: path).takeWhile (· ≠ slash) := by
    intro hmem
    simpa using List.mem_takeWhile_imp hmem
  have hne : (c :: path).takeWhile (· ≠ slash) ≠ [] := by
    rw [List.takeWhile_cons_of_pos (by simpa using hc)]
    exact List.cons_ne_nil _ _
  cases hrest : (c :: path).dropWhile (· ≠ slash) with
  | nil =>
    rw [hrest, List.append_nil] at hsplit
    rw [hsplit] at hname hne ⊢
    exact segments_single hname hne
  | cons sep rest =>
    have hsep : sep = slash := by
      have hhead := List.head?_dropWhile_not (· ≠ slash) (c :: path)
      rw [hrest] at hhead
      simpa using hhead
    rw [hrest, hsep] at hsplit
    rw [hsep, segments_slash, ← segments_append hname hne, hsplit]

end Segments

namespace Blob

variable {b : Blob} {t : Dt} {n m : Place} {before post : List Place} {d fuel : Nat} {name : Bytes}

section Names

theorem subnodeOffsetLoop_left {offset k x : Int}
    (hx : b.nextNode offset (some k) = some (x, some (-1))) :
    (b.nextNode offset (some k) >>= fun x => b.subnodeOffsetLoop name (fuel + 1) x.1 (x.2.getD 0)) =
      some (-FDT_ERR_NOTFOUND) := by
  rw [hx, Option.bind_eq_bind, Option.bind_some, subnodeOffsetLoop, if_pos (by simp)]

theorem Contains.subnodeOffsetLoop_succ (h : b.Contains t) (hn : t.nodes = before ++ m :: post)
    (hm : d ≤ m.depth) (name : Bytes) (fuel : Nat) : b.subnodeOffsetLoop name (fuel + 1) m.offset (m.depth - d) =
      if m.depth = d + 1 ∧ Matches m.name name then some (m.offset : Int)
      else b.nextNode m.offset (some (m.depth - d)) >>= fun x =>
        b.subnodeOffsetLoop name fuel x.1 (x.2.getD 0) := by
  rw [subnodeOffsetLoop, if_neg (by omega), if_neg (by omega)]
  by_cases hd : m.depth = d + 1
  · rw [if_pos (by omega), (h.sits hn).nodenameEq_eq h.accepted h.version, Option.bind_eq_bind,
      Option.bind_some]
    simp only [decide_eq_true_eq, hd, true_and]
    rfl
  · rw [if_neg (by omega), if_neg (fun hc => hd hc.1)]
    rfl

theorem Contains.subnodeOffsetLoop_eq (h : b.Contains t) (hn : t.nodes = before ++ m :: post)
    (hm : d ≤ m.depth) (hfuel : post.length < fuel) :
    (b.nextNode m.offset (some (m.depth - d)) >>= fun x =>
      b.subnodeOffsetLoop name fuel x.1 (x.2.getD 0)) =
        some (Place.found ((Preorder.children Place.depth d post).find? (Matches ·.name name))) := by
  induction post generalizing before m fuel with
  | nil =>
    cases fuel with
    | zero => exact absurd hfuel (Nat.not_lt_zero _)
    | succ fuel =>
      obtain ⟨x, -, hx⟩ := (h.sits hn).nextNode_left (k := m.depth - d) h.accepted h.version
        (by simp) (by omega) (by omega)
      exact subnodeOffsetLoop_left hx
  | cons c post ih =>
    cases fuel with
    | zero => exact absurd hfuel (Nat.not_lt_zero _)
    | succ fuel =>
      have hsits := h.sits hn
      have hn' := hn.trans (List.append_cons ..)
      by_cases hc : d < c.depth
      · have hfound := hsits.nextNode_found (k := m.depth - d) h.accepted h.version (by omega)
        have hdepth : (m.depth : Int) - d + c.depth - m.depth = c.depth - d := by omega
        rw [hdepth] at hfound
        have hturn := h.subnodeOffsetLoop_succ hn' hc.le name fuel
        rw [ih hn' hc.le (Nat.lt_of_succ_lt_succ hfuel)] at hturn
        rw [hfound, Preorder.children_of_lt hc]
        refine hturn.trans ?_
        by_cases hd : c.depth = d + 1
        · rw [if_pos hd, List.find?_cons]
          by_cases hmatch : Matches c.name name
          · rw [if_pos ⟨hd, hmatch⟩, decide_eq_true hmatch]
            rfl
          · rw [if_neg (fun hc => hmatch hc.2), decide_eq_false hmatch]
        · rw [if_neg hd, if_neg (fun hc => hd hc.1)]
      · obtain ⟨x, -, hx⟩ := hsits.nextNode_left (k := m.depth - d) h.accepted h.version (by
          rintro q ⟨⟩
          dsimp only [Place.key]
          omega) (by omega) (by omega)
        rw [Preorder.children_of_le (Nat.not_lt.mp hc)]
        exact subnodeOffsetLoop_left hx

theorem Contains.subnodeOffsetNamelen_eq (h : b.Contains t) (hn : t.nodes = before ++ n :: post)
    (name : Bytes) :
    b.subnodeOffsetNamelen n.offset name = some (Place.found (t.child n.offset name)) := by
  have hprobe := h.accepted.probe
  have hlen := h.length_lt_fuel
  rw [hn, List.length_append, List.length_cons] at hlen
  have hfuel : b.fuel = (b.fuel - 1) + 1 := rfl
  have hturn := h.subnodeOffsetLoop_succ hn (Nat.le_refl _) name (b.fuel - 1)
  rw [if_neg (fun hc => by omega), h.subnodeOffsetLoop_eq hn (Nat.le_refl _) (by omega),
    Int.sub_self] at hturn
  rw [subnodeOffsetNamelen, if_neg (by omega), hfuel, Dt.child, Dt.filter_up hn]
  exact hturn

end Names

section Paths

theorem Dt.mem_of_child {o : Nat} (h : t.child o name = some n) : n ∈ t.nodes :=
  List.mem_of_mem_filter (List.mem_of_find?_eq_some h)

@[simp] theorem Dt.follow_none (names : List Bytes) : t.follow none names = none := by
  induction names with
  | nil => rfl
  | cons name names ih => exact ih

theorem Contains.pathLoop_eq (h : b.Contains t) (hn : n ∈ t.nodes) {path : Bytes}
    (hfuel : path.length < fuel) :
    b.pathLoop fuel n.offset path = some (Place.found (t.follow (some n) (segments path))) := by
  induction fuel generalizing n path with
  | zero => exact absurd hfuel (Nat.not_lt_zero _)
  | succ fuel ih =>
    have hle := (List.dropWhile_suffix (l := path) (· = slash)).length_le
    rw [pathLoop, ← segments_dropWhile]
    cases hpath : path.dropWhile (· = slash) with
    | nil => rfl
    | cons c rest =>
      have hc : c ≠ slash := by
        have hhead := List.head?_dropWhile_not (· = slash) path
        rw [hpath] at hhead
        simpa using hhead
      obtain ⟨before, post, hsplit⟩ := List.append_of_mem hn
      dsimp only
      rw [segments_cons hc, h.subnodeOffsetNamelen_eq hsplit, Option.bind_eq_bind, Option.bind_some,
        Dt.follow, Option.bind_some]
      cases hchild : t.child n.offset ((c :: rest).takeWhile (· ≠ slash)) with
      | none =>
        rw [Dt.follow_none]
        rfl
      | some m =>
        have hshort : ((c :: rest).dropWhile (· ≠ slash)).length < fuel := by
          have := (List.dropWhile_suffix (l := rest) (· ≠ slash)).length_le
          rw [List.dropWhile_cons_of_pos (by simpa using hc)]
          rw [hpath, List.length_cons] at hle
          omega
        rw [← ih (Dt.mem_of_child hchild) hshort]
        exact if_neg (Int.not_lt.mpr (Int.natCast_nonneg _))

theorem Contains.absolutePath_eq (h : b.Contains t) (path : Bytes) :
    b.absolutePath path = some (Place.found (t.follow t.nodes.head? (segments path))) := by
  obtain ⟨root, others, hnodes, hoff, -⟩ := t.exists_nodes
  have hroot : (root.offset : Int) = 0 := by
    rw [hoff, h.first]
    rfl
  have hmem : root ∈ t.nodes := hnodes ▸ List.mem_cons_self
  have hloop := h.pathLoop_eq hmem (Nat.lt_succ_self path.length)
  rw [hroot] at hloop
  rw [absolutePath, hloop, hnodes]
  rfl

theorem Dt.mem_of_follow {names : List Bytes} {start : Option Place}
    (hstart : ∀ m ∈ start, m ∈ t.nodes) (h : t.follow start names = some n) : n ∈ t.nodes := by
  induction names generalizing start with
  | nil => exact hstart n h
  | cons name names ih =>
    refine ih (fun m hm => ?_) h
    obtain ⟨p, -, hp⟩ := Option.bind_eq_some_iff.mp hm
    exact Dt.mem_of_child hp

theorem Dt.follow_append (start : Option Place) (names names' : List Bytes) :
    t.follow start (names ++ names') = t.follow (t.follow start names) names' := by
  induction names generalizing start with
  | nil => rfl
  | cons name names ih => exact ih _

theorem takeWhile_name {rest : Bytes} (hname : slash ∉ name)
    (hrest : ∀ c ∈ rest.head?, c = slash) : (name ++ rest).takeWhile (· ≠ slash) = name ∧
      (name ++ rest).dropWhile (· ≠ slash) = rest := by
  have hall : ∀ c ∈ name, decide (c ≠ slash) = true :=
    fun c hc => decide_eq_true fun h => hname (h ▸ hc)
  rw [List.takeWhile_append_of_pos hall, List.dropWhile_append_of_pos hall]
  cases rest with
  | nil => exact ⟨List.append_nil _, rfl⟩
  | cons c rest =>
    have hc := hrest c rfl
    rw [List.takeWhile_cons_of_neg (by simpa using hc), List.dropWhile_cons_of_neg (by simpa using hc)]
    exact ⟨List.append_nil _, rfl⟩

theorem Written.getAlias_eq (h : b.Written t) {target junk : Bytes} (htarget : 0 ∉ target)
    (halias : t.alias name = some (target ++ 0 :: junk)) : ∃ p, b.getAlias name = some (some p) ∧
      b.strlen p = some target.length ∧ b.slice p target.length = some target := by
  obtain ⟨n, hn, hv⟩ := Option.bind_eq_some_iff.mp halias
  have hmem : n ∈ t.nodes := Dt.mem_of_follow (fun m hm => List.mem_of_head? hm) hn
  obtain ⟨before, post, hsplit⟩ := List.append_of_mem hmem
  have hsegments : segments (raw "/aliases") = [raw "aliases"] := by decide
  have hpath := h.toContains.absolutePath_eq (raw "/aliases")
  rw [hsegments, hn] at hpath
  obtain ⟨p, r, hget, hdrop, hin⟩ := h.getprop_some hsplit hv
  rw [List.append_assoc, List.cons_append] at hdrop
  have hlen := length_of_drop hdrop
  refine ⟨p, ?_, strlen_eq hdrop htarget, ?_⟩
  · rw [getAlias, hpath, Option.bind_eq_bind, Option.bind_some]
    change (if (n.offset : Int) < 0 then _ else _) = _
    rw [if_neg (by omega)]
    change (b.getprop n.offset name >>= _) = _
    rw [hget]
    rfl
  · rw [slice_eq hdrop (Nat.le_refl _) (by omega), List.take_length]

theorem Contains.pathLoop_found (h : b.Contains t) (start : Option Place)
    (hstart : ∀ m ∈ start, m ∈ t.nodes) {path : Bytes} (hfuel : path.length < fuel) :
    b.pathLoop fuel (Place.found start) path =
      some (Place.found (t.follow start (segments path))) := by
  cases start with
  | some n => exact h.pathLoop_eq (hstart n rfl) hfuel
  | none =>
    have hprobe := h.accepted.probe
    rw [Dt.follow_none]
    cases fuel with
    | zero => exact absurd hfuel (Nat.not_lt_zero _)
    | succ fuel =>
      rw [pathLoop]
      cases path.dropWhile (· = slash) with
      | nil => rfl
      | cons c rest =>
        have hsub : ∀ name, b.subnodeOffsetNamelen (Place.found none) name =
            some (-FDT_ERR_NOTFOUND) := by
          intro name
          rw [subnodeOffsetNamelen, if_neg (by omega)]
          rfl
        dsimp only
        rw [hsub]
        rfl

theorem Written.pathOffset_absolute (h : b.Written t) (depth : Nat) {path : Bytes}
    (hpath : path.head? = some slash) : b.pathOffset (depth + 1) path =
      some (Place.found (t.follow t.nodes.head? (segments path))) := by
  have hprobe := h.accepted.probe
  rw [pathOffset, if_neg (by omega), if_pos hpath]
  exact h.toContains.absolutePath_eq path

theorem Written.pathOffset_alias (h : b.Written t) (depth : Nat) {rest target junk : Bytes}
    (hname : slash ∉ name) (hne : name ≠ []) (hrest : ∀ c ∈ rest.head?, c = slash)
    (htarget : 0 ∉ target) (halias : t.alias name = some (target ++ 0 :: junk)) :
    b.pathOffset (depth + 1) (name ++ rest) = b.pathOffset depth target >>= fun offset =>
      b.pathLoop ((name ++ rest).length + 1) offset rest := by
  have hprobe := h.accepted.probe
  obtain ⟨p, hget, hlen, hslice⟩ := h.getAlias_eq htarget halias
  obtain ⟨htake, hdrop⟩ := takeWhile_name hname hrest
  have hhead : (name ++ rest).head? ≠ some slash := by
    cases name with
    | nil => exact absurd rfl hne
    | cons c name =>
      intro hc
      cases hc
      exact hname List.mem_cons_self
  rw [pathOffset, if_neg (by omega), if_neg hhead, htake, hdrop]
  dsimp only
  rw [hget, Option.bind_eq_bind, Option.bind_some]
  dsimp only
  rw [hlen]
  change (b.slice p target.length >>= _) = _
  rw [hslice]
  rfl

theorem Written.pathOffset_through (h : b.Written t) (depth : Nat) {rest target junk : Bytes}
    (hname : slash ∉ name) (hne : name ≠ []) (hrest : ∀ c ∈ rest.head?, c = slash)
    (htarget : 0 ∉ target) (habs : target.head? = some slash)
    (halias : t.alias name = some (target ++ 0 :: junk)) :
    b.pathOffset (depth + 2) (name ++ rest) =
      some (Place.found (t.follow t.nodes.head? (segments target ++ segments rest))) := by
  rw [h.pathOffset_alias (depth + 1) hname hne hrest htarget halias,
    h.pathOffset_absolute depth habs, Option.bind_eq_bind, Option.bind_some, Dt.follow_append]
  refine h.toContains.pathLoop_found _ (fun m hm => ?_) ?_
  · exact Dt.mem_of_follow (fun m hm => List.mem_of_head? hm) hm
  · rw [List.length_append]
    omega

theorem Written.pathOffset_self (h : b.Written t) {rest junk : Bytes} (hname : slash ∉ name)
    (hne : name ≠ []) (hrest : ∀ c ∈ rest.head?, c = slash) (h0 : 0 ∉ name)
    (halias : t.alias name = some (name ++ 0 :: junk)) (depth : Nat) :
    b.pathOffset depth (name ++ rest) = none := by
  induction depth generalizing rest with
  | zero => rfl
  | succ depth ih =>
    have hself : b.pathOffset depth (name ++ []) = none := ih (by simp)
    rw [List.append_nil] at hself
    rw [h.pathOffset_alias depth hname hne hrest h0 halias, hself]
    rfl

/-- Paths are resolved from the root, or from where an alias leads; an alias that leads to itself is
never resolved, however deep the stack is. -/
theorem Written.pathOffset_eq (h : b.Written t) :
    (∀ depth path, path.head? = some slash → b.pathOffset (depth + 1) path =
      some (Place.found (t.follow t.nodes.head? (segments path)))) ∧
    ∀ name rest target junk : Bytes, slash ∉ name → name ≠ [] → (∀ c ∈ rest.head?, c = slash) →
      0 ∉ target → t.alias name = some (target ++ 0 :: junk) →
        (target.head? = some slash → ∀ depth, b.pathOffset (depth + 2) (name ++ rest) =
          some (Place.found (t.follow t.nodes.head? (segments target ++ segments rest)))) ∧
        (target = name → ∀ depth, b.pathOffset depth (name ++ rest) = none) := by
  refine ⟨fun depth path hpath => h.pathOffset_absolute depth hpath,
    fun name rest target junk hname hne hrest htarget halias => ⟨fun habs depth => ?_, ?_⟩⟩
  · exact h.pathOffset_through depth hname hne hrest htarget habs halias
  · rintro rfl depth
    exact h.pathOffset_self hname hne hrest htarget halias depth

end Paths

theorem pathOffset_sample :
    (sample.block sampleStrings).pathOffset 2 (raw "serial0") =
      some (Place.found (sample.follow sample.nodes.head? [raw "soc", raw "uart"])) ∧
    ∀ depth, (sample.block sampleStrings).pathOffset depth (raw "loop") = none :=
  ⟨((written_block sample_fits).pathOffset_eq.2 (raw "serial0") [] (raw "/soc/uart") []
      (by decide) (by decide) (by simp) (by decide) (by decide +kernel)).1 (by decide) 0,
    ((written_block sample_fits).pathOffset_eq.2 (raw "loop") [] (raw "loop") []
      (by decide) (by decide) (by simp) (by decide) (by decide +kernel)).2 rfl⟩

end Blob

end Abydos.Fdt
