import Abydos.Fdt.Flat

namespace Abydos.Fdt.Blob

open Abydos.Lib

variable {b : Blob} {o d o' d' fuel : Nat} {t : Token} {ts : List Token} {l : List (Nat × Nat)}
  {k : Int} {depth : Option Int}

section Turns

theorem nextNodeLoop_begin (hacc : b.Accepted) (hver : 0x10 ≤ b.version) {name : Bytes}
    (h : b.Holds o (.beginNode name :: ts)) :
    b.nextNodeLoop (fuel + 1) o depth = some ((o : Int), depth.map (· + 1)) := by
  rw [nextNodeLoop, h.nextTag_eq hacc hver]
  rfl

theorem nextNodeLoop_skip (hacc : b.Accepted) (hver : 0x10 ≤ b.version) (h : b.Holds o (t :: ts))
    (ht : t.tag = FDT_PROP ∨ t.tag = FDT_NOP) :
    b.nextNodeLoop (fuel + 1) o depth = b.nextNodeLoop fuel ((o + t.size : Nat) : Int) depth := by
  rw [nextNodeLoop, h.nextTag_eq hacc hver, Option.bind_eq_bind, Option.bind_some]
  dsimp only
  rcases ht with ht | ht <;>
    rw [ht, if_neg (by decide), if_neg (by decide), if_neg (by decide)]

theorem nextNodeLoop_end (hacc : b.Accepted) (hver : 0x10 ≤ b.version)
    (h : b.Holds o (.endNode :: ts)) :
    b.nextNodeLoop (fuel + 1) o (some k) =
      if k - 1 < 0 then some (((o + Token.endNode.size : Nat) : Int), some (k - 1))
      else b.nextNodeLoop fuel ((o + Token.endNode.size : Nat) : Int) (some (k - 1)) := by
  rw [nextNodeLoop, h.nextTag_eq hacc hver, Option.bind_eq_bind, Option.bind_some]
  dsimp only
  rw [if_neg (by decide), if_pos (by decide)]
  simp only [Option.map_some, Option.mem_some, exists_eq_left']
  rfl

theorem nextNodeLoop_end_none (hacc : b.Accepted) (hver : 0x10 ≤ b.version)
    (h : b.Holds o (.endNode :: ts)) :
    b.nextNodeLoop (fuel + 1) o none =
      b.nextNodeLoop fuel ((o + Token.endNode.size : Nat) : Int) none := by
  rw [nextNodeLoop, h.nextTag_eq hacc hver, Option.bind_eq_bind, Option.bind_some]
  dsimp only
  rw [if_neg (by decide), if_pos (by decide)]
  simp

theorem nextNodeLoop_finish (hacc : b.Accepted) (hver : 0x10 ≤ b.version)
    (h : b.Holds o (.finish :: ts)) :
    b.nextNodeLoop (fuel + 1) o depth = some (-FDT_ERR_NOTFOUND, depth) := by
  rw [nextNodeLoop, h.nextTag_eq hacc hver, Option.bind_eq_bind, Option.bind_some]
  dsimp only
  rw [if_neg (by decide), if_neg (by decide), if_pos (by decide), if_pos (.inl (Int.natCast_nonneg _))]
  rfl

end Turns

section Streams

theorem depth_le_of_opens (hc : Closes ts d) (h : opens ts o d = (o', d') :: l) : d' ≤ d := by
  induction ts generalizing o d with
  | nil => cases h
  | cons t ts ih =>
    cases t with
    | beginNode name =>
      cases h
      exact Nat.le_refl _
    | endNode =>
      cases d with
      | zero => exact absurd hc id
      | succ d => exact (ih hc h).trans (Nat.le_succ d)
    | prop nameoff value => exact ih hc h
    | nop => exact ih hc h
    | finish => cases h

theorem nextNodeLoop_found (hacc : b.Accepted) (hver : 0x10 ≤ b.version) (h : b.Holds o ts)
    (hc : Closes ts d) (ho : opens ts o d = (o', d') :: l) (hfuel : ts.length ≤ fuel)
    (hk : (d : Int) ≤ d' + k) :
    b.nextNodeLoop fuel o (some k) = some ((o' : Int), some (k + d' + 1 - d)) := by
  induction ts generalizing o d fuel k with
  | nil => cases ho
  | cons t ts ih =>
    cases fuel with
    | zero => exact absurd hfuel (Nat.not_succ_le_zero _)
    | succ fuel =>
      have hfuel' : ts.length ≤ fuel := Nat.le_of_succ_le_succ hfuel
      cases t with
      | beginNode name =>
        cases ho
        rw [nextNodeLoop_begin hacc hver h, Option.map_some]
        congr 3
        omega
      | endNode =>
        cases d with
        | zero => exact absurd hc id
        | succ d =>
          have hclose : Closes ts d := hc
          have hle := depth_le_of_opens hclose ho
          have hrest := ih (k := k - 1) h.tail hc ho hfuel' (by omega)
          rw [nextNodeLoop_end hacc hver h, if_neg (by omega), hrest]
          congr 3
          omega
      | prop nameoff value =>
        rw [nextNodeLoop_skip hacc hver h (.inl rfl)]
        exact ih h.tail hc ho hfuel' hk
      | nop =>
        rw [nextNodeLoop_skip hacc hver h (.inr rfl)]
        exact ih h.tail hc ho hfuel' hk
      | finish => cases ho

theorem nextNodeLoop_left (hacc : b.Accepted) (hver : 0x10 ≤ b.version) (h : b.Holds o ts)
    (hc : Closes ts d) (ho : ∀ m ∈ (opens ts o d).head?, m.2 + k < d) (hfuel : ts.length ≤ fuel)
    (h0 : 0 ≤ k) (hk : k < d) :
    ∃ x : Int, 0 ≤ x ∧ b.nextNodeLoop fuel o (some k) = some (x, some (-1)) := by
  induction ts generalizing o d fuel k with
  | nil => exact absurd hc id
  | cons t ts ih =>
    cases fuel with
    | zero => exact absurd hfuel (Nat.not_succ_le_zero _)
    | succ fuel =>
      have hfuel' : ts.length ≤ fuel := Nat.le_of_succ_le_succ hfuel
      cases t with
      | beginNode name =>
        have := ho (o, d) rfl
        dsimp only at this
        omega
      | endNode =>
        cases d with
        | zero => exact absurd hc id
        | succ d =>
          rw [nextNodeLoop_end hacc hver h]
          split
          · refine ⟨((o + Token.endNode.size : Nat) : Int), Int.natCast_nonneg _, ?_⟩
            congr 3
            omega
          · refine ih h.tail hc (fun m hm => ?_) hfuel' (by omega) (by omega)
            have := ho m hm
            omega
      | prop nameoff value =>
        rw [nextNodeLoop_skip hacc hver h (.inl rfl)]
        exact ih h.tail hc ho hfuel' h0 hk
      | nop =>
        rw [nextNodeLoop_skip hacc hver h (.inr rfl)]
        exact ih h.tail hc ho hfuel' h0 hk
      | finish =>
        cases d with
        | zero => omega
        | succ d => exact absurd hc id

theorem nextNodeLoop_none (hacc : b.Accepted) (hver : 0x10 ≤ b.version) (h : b.Holds o ts)
    (hc : Closes ts d) (hfuel : ts.length ≤ fuel) : b.nextNodeLoop fuel o none =
      some (((opens ts o d).head?.map fun m => (m.1 : Int)).getD (-FDT_ERR_NOTFOUND), none) := by
  induction ts generalizing o d fuel with
  | nil => exact absurd hc id
  | cons t ts ih =>
    cases fuel with
    | zero => exact absurd hfuel (Nat.not_succ_le_zero _)
    | succ fuel =>
      have hfuel' : ts.length ≤ fuel := Nat.le_of_succ_le_succ hfuel
      cases t with
      | beginNode name => exact nextNodeLoop_begin hacc hver h
      | endNode =>
        cases d with
        | zero => exact absurd hc id
        | succ d =>
          rw [nextNodeLoop_end_none hacc hver h]
          exact ih h.tail hc hfuel'
      | prop nameoff value =>
        rw [nextNodeLoop_skip hacc hver h (.inl rfl)]
        exact ih h.tail hc hfuel'
      | nop =>
        rw [nextNodeLoop_skip hacc hver h (.inr rfl)]
        exact ih h.tail hc hfuel'
      | finish => exact nextNodeLoop_finish hacc hver h

end Streams

section Nodes

variable {n : Place} {later : List (Nat × Nat)}

theorem Holds.checkNodeOffset_eq (hacc : b.Accepted) (hver : 0x10 ≤ b.version) {name : Bytes}
    (h : b.Holds o (.beginNode name :: ts)) :
    b.checkNodeOffset o = some ((o + (Token.beginNode name).size : Nat) : Int) := by
  have hal := h.aligned
  rw [checkNodeOffset, checkOffset, if_neg (by unfold FDT_TAGSIZE; omega), h.nextTag_eq hacc hver]
  rfl

theorem Holds.length_le_fuel (hacc : b.Accepted) (h : b.Holds o ts) : ts.length ≤ b.fuel := by
  have := h.inside
  have := length_le_encode ts
  have := hacc.whole
  unfold fuel
  omega

theorem Sits.nextNode_eq (hacc : b.Accepted) (hver : 0x10 ≤ b.version) (h : b.Sits n later) :
    ∃ o ts, b.nextNode n.offset depth = b.nextNodeLoop b.fuel (o : Nat) depth ∧ b.Holds o ts ∧
      Closes ts (n.depth + 1) ∧ opens ts o (n.depth + 1) = later := by
  obtain ⟨ts, hhold, -, hclose, hopens⟩ := h
  refine ⟨_, _, ?_, hhold.tail, (closes_entries n.entries).mpr hclose, ?_⟩
  · rw [nextNode, if_pos (Int.natCast_nonneg _), hhold.checkNodeOffset_eq hacc hver,
      Option.bind_eq_bind, Option.bind_some, if_neg (Int.not_lt.mpr (Int.natCast_nonneg _))]
  · rw [opens_entries]
    exact hopens

theorem Sits.nextNode_found (hacc : b.Accepted) (hver : 0x10 ≤ b.version)
    (h : b.Sits n ((o', d') :: l)) (hk : (n.depth : Int) + 1 ≤ d' + k) :
    b.nextNode n.offset (some k) = some ((o' : Int), some (k + d' - n.depth)) := by
  obtain ⟨o, ts, heq, hhold, hclose, hopens⟩ := h.nextNode_eq hacc hver
  rw [heq, nextNodeLoop_found hacc hver hhold hclose hopens (hhold.length_le_fuel hacc) (by omega)]
  congr 3
  omega

theorem Sits.nextNode_left (hacc : b.Accepted) (hver : 0x10 ≤ b.version) (h : b.Sits n later)
    (hlater : ∀ m ∈ later.head?, m.2 + k < n.depth + 1) (h0 : 0 ≤ k) (hk : k < n.depth + 1) :
    ∃ x : Int, 0 ≤ x ∧ b.nextNode n.offset (some k) = some (x, some (-1)) := by
  obtain ⟨o, ts, heq, hhold, hclose, hopens⟩ := h.nextNode_eq hacc hver
  rw [heq]
  exact nextNodeLoop_left hacc hver hhold hclose (hopens ▸ hlater) (hhold.length_le_fuel hacc) h0 hk

theorem Sits.nextNode_none (hacc : b.Accepted) (hver : 0x10 ≤ b.version) (h : b.Sits n later) :
    b.nextNode n.offset none =
      some ((later.head?.map fun m => (m.1 : Int)).getD (-FDT_ERR_NOTFOUND), none) := by
  obtain ⟨o, ts, heq, hhold, hclose, hopens⟩ := h.nextNode_eq hacc hver
  rw [heq, nextNodeLoop_none hacc hver hhold hclose (hhold.length_le_fuel hacc), hopens]

end Nodes

structure Contains (b : Blob) (t : Dt) : Prop where
  accepted : b.Accepted
  version : 0x10 ≤ b.version
  first : t.lead = 0
  struct : ∃ trail, b.Holds 0 (t.tokens ++ (nops trail ++ [.finish]))

section Subnodes

variable {t : Dt} {n m : Place} {before post l : List Place}

theorem Contains.sits (h : b.Contains t) (hn : t.nodes = before ++ n :: post) :
    b.Sits n (post.map Place.key) := by
  obtain ⟨trail, hhold⟩ := h.struct
  have hclose : Closes (nops trail ++ [.finish]) 0 := (closes_nops trail).mpr trivial
  have hall := allSit_places none t hhold hclose
  rw [opens_nops] at hall
  have hsits := AllSit.sits (show b.AllSit (before ++ n :: post) [] from hn ▸ hall)
  rwa [List.append_nil] at hsits

theorem Contains.length_lt_fuel (h : b.Contains t) : t.nodes.length < b.fuel := by
  obtain ⟨trail, hhold⟩ := h.struct
  have := hhold.length_le_fuel h.accepted
  have := t.length_nodes_le
  rw [List.length_append, List.length_append] at *
  simp only [List.length_cons, List.length_nil] at *
  omega

theorem Dt.depth_le_succ (hn : t.nodes = before ++ n :: m :: post) : m.depth ≤ n.depth + 1 := by
  have hsteps := t.places_steps 0 0 none
  rw [show t.places 0 0 none = before ++ n :: m :: post from hn] at hsteps
  exact (List.isChain_cons_cons.mp (List.isChain_append.mp hsteps).2.1).1

def sibling (d : Nat) : List Place → Int
  | [] => -FDT_ERR_NOTFOUND
  | m :: _ => if m.depth = d + 1 then m.offset else -FDT_ERR_NOTFOUND

theorem Contains.firstSubnode_eq (h : b.Contains t) (hn : t.nodes = before ++ n :: post) :
    b.firstSubnode n.offset = some (sibling n.depth post) := by
  have hsits := h.sits hn
  have hleft : (∀ m ∈ (post.map Place.key).head?, (m.2 : Int) + 0 < n.depth + 1) →
      b.firstSubnode n.offset = some (-FDT_ERR_NOTFOUND) := by
    intro hpost
    obtain ⟨x, -, hx⟩ := hsits.nextNode_left h.accepted h.version hpost (by decide) (by omega)
    rw [firstSubnode, hx]
    exact congrArg some (if_pos (.inr (by decide)))
  cases post with
  | nil => exact hleft (by simp)
  | cons m post =>
    have hle := Dt.depth_le_succ hn
    rw [sibling]
    split
    · rename_i hm
      have hfound : b.nextNode n.offset (some 0) =
          some ((m.offset : Int), some (0 + (m.depth : Int) - n.depth)) :=
        hsits.nextNode_found h.accepted h.version (by omega)
      have hone : (0 : Int) + m.depth - n.depth = 1 := by omega
      rw [hone] at hfound
      rw [firstSubnode, hfound]
      exact congrArg some (if_neg (by simp))
    · refine hleft ?_
      rintro q ⟨⟩
      dsimp only [Place.key]
      omega

theorem nextSubnodeLoop_succ {offset x k' : Int} (hnext : b.nextNode offset (some k) =
    some (x, some k')) : b.nextSubnodeLoop (fuel + 1) offset k =
      if x < 0 ∨ k' < 1 then some (-FDT_ERR_NOTFOUND)
      else if 1 < k' then b.nextSubnodeLoop fuel x k' else some x := by
  rw [nextSubnodeLoop, hnext]
  rfl

theorem Contains.nextSubnodeLoop_eq (h : b.Contains t) (hn : t.nodes = before ++ n :: post)
    (hdn : d + 1 ≤ n.depth) (hfuel : post.length < fuel) :
    b.nextSubnodeLoop fuel n.offset (n.depth - d) =
      some (sibling d (Preorder.skip Place.depth (d + 1) post)) := by
  induction post generalizing before n fuel with
  | nil =>
    cases fuel with
    | zero => exact absurd hfuel (Nat.not_lt_zero _)
    | succ fuel =>
      obtain ⟨x, -, hx⟩ := (h.sits hn).nextNode_left (k := n.depth - d) h.accepted h.version
        (by simp) (by omega) (by omega)
      rw [nextSubnodeLoop_succ hx, if_pos (.inr (by decide))]
      rfl
  | cons m post ih =>
    cases fuel with
    | zero => exact absurd hfuel (Nat.not_lt_zero _)
    | succ fuel =>
      have hsits := h.sits hn
      by_cases hm : d + 1 ≤ m.depth
      · have hfound := hsits.nextNode_found (k := n.depth - d) h.accepted h.version (by omega)
        have hdepth : (n.depth : Int) - d + m.depth - n.depth = m.depth - d := by omega
        rw [hdepth] at hfound
        rw [nextSubnodeLoop_succ hfound, if_neg (by omega)]
        by_cases hdeeper : d + 1 < m.depth
        · rw [if_pos (by omega), Preorder.skip, List.dropWhile_cons_of_pos (by simpa using hdeeper)]
          exact ih (hn.trans (List.append_cons ..)) (by omega) (Nat.lt_of_succ_lt_succ hfuel)
        · rw [if_neg (by omega), Preorder.skip, List.dropWhile_cons_of_neg (by simpa using hdeeper),
            sibling, if_pos (by omega)]
      · obtain ⟨x, -, hx⟩ := hsits.nextNode_left (k := n.depth - d) h.accepted h.version (by
          rintro q ⟨⟩
          dsimp only [Place.key]
          omega) (by omega) (by omega)
        rw [nextSubnodeLoop_succ hx, if_pos (.inr (by decide)), Preorder.skip,
          List.dropWhile_cons_of_neg (by simp; omega), sibling, if_neg (by omega)]

theorem Contains.nextSubnode_eq (h : b.Contains t) (hn : t.nodes = before ++ n :: post)
    (hd : n.depth = d + 1) :
    b.nextSubnode n.offset = some (sibling d (Preorder.skip Place.depth (d + 1) post)) := by
  have hlen := h.length_lt_fuel
  rw [hn, List.length_append, List.length_cons] at hlen
  have hone : (n.depth : Int) - d = 1 := by omega
  have hloop := h.nextSubnodeLoop_eq (d := d) hn (by omega) (show post.length < b.fuel by omega)
  rwa [hone] at hloop

theorem Contains.eachSubnodeLoop_eq (h : b.Contains t) (hl : t.nodes = before ++ l)
    (hhead : ∀ m ∈ l.head?, m.depth ≤ d + 1) (hfuel : l.length < fuel) :
    b.eachSubnodeLoop fuel (sibling d l) =
      some ((Preorder.children Place.depth d l).map fun m => (m.offset : Int)) := by
  induction fuel generalizing before l with
  | zero => exact absurd hfuel (Nat.not_lt_zero _)
  | succ fuel ih =>
    rw [eachSubnodeLoop]
    cases l with
    | nil => rfl
    | cons m l =>
      by_cases hm : m.depth = d + 1
      · have hsuffix : Preorder.skip Place.depth (d + 1) l <:+ l := List.dropWhile_suffix _
        obtain ⟨skipped, hskipped⟩ := hsuffix
        have hsplit : t.nodes = before ++ m :: skipped ++ Preorder.skip Place.depth (d + 1) l := by
          rw [hl, List.append_assoc, List.cons_append, hskipped]
        have hnext : ∀ x ∈ (Preorder.skip Place.depth (d + 1) l).head?, x.depth ≤ d + 1 := by
          intro x hx
          have := List.head?_dropWhile_not (fun a : Place => decide (d + 1 < a.depth)) l
          rw [← Preorder.skip, Option.mem_def.mp hx] at this
          simpa using this
        have hlen : (Preorder.skip Place.depth (d + 1) l).length < fuel := by
          have := congrArg List.length hskipped
          rw [List.length_append] at this
          rw [List.length_cons] at hfuel
          omega
        rw [sibling, if_pos hm, if_neg (Int.not_lt.mpr (Int.natCast_nonneg _)),
          h.nextSubnode_eq hl hm, Preorder.children_cons hm, Option.bind_eq_bind,
          Option.bind_some, ih hsplit hnext hlen]
        rfl
      · have hle := hhead m rfl
        rw [sibling, if_neg hm, if_pos (by decide), Preorder.children_of_le (by omega)]
        rfl

theorem Contains.eachSubnode_eq (h : b.Contains t) (hn : t.nodes = before ++ n :: post) :
    b.eachSubnode n.offset =
      some ((Preorder.children Place.depth n.depth post).map fun m => (m.offset : Int)) := by
  have hlen := h.length_lt_fuel
  rw [hn, List.length_append, List.length_cons] at hlen
  rw [eachSubnode, h.firstSubnode_eq hn, Option.bind_eq_bind, Option.bind_some]
  refine h.eachSubnodeLoop_eq (hn.trans (List.append_cons ..)) (fun m hm => ?_) (by omega)
  cases post with
  | nil => cases hm
  | cons m' post =>
    cases hm
    exact Dt.depth_le_succ hn

end Subnodes

end Abydos.Fdt.Blob
