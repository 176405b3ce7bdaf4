import Abydos.Fdt.Ancestors
import Abydos.Fdt.Search

namespace Abydos.Fdt

open Abydos.Lib

section Text

def text (s : Bytes) : String := String.ofList (s.map fun c => Char.ofNat c.toNat)

theorem toList_text (s : Bytes) : (text s).toList = s.map fun c => Char.ofNat c.toNat :=
  String.toList_ofList

theorem toNat_char (c : UInt8) : (Char.ofNat c.toNat).toNat = c.toNat := by
  have hlt := c.toNat_lt
  rw [Char.ofNat, dif_pos (.inl (by omega))]
  rfl

theorem char_injective : Function.Injective fun c : UInt8 => Char.ofNat c.toNat := by
  intro c c' h
  have hnat := congrArg Char.toNat h
  dsimp only at hnat
  rw [toNat_char, toNat_char] at hnat
  exact UInt8.toNat_inj.mp hnat

theorem text_injective : Function.Injective text := by
  intro s s' h
  have hlist := congrArg String.toList h
  rw [toList_text, toList_text] at hlist
  exact List.map_injective_iff.mpr char_injective hlist

theorem nodenameEq_text (name s : Bytes) : nodenameEq (text name) (text s) ↔ Matches name s := by
  have hat : '@' = Char.ofNat atSign.toNat := by decide
  have happ : (text s).toList ++ ['@'] = (s ++ [atSign]).map fun c => Char.ofNat c.toNat := by
    rw [toList_text, hat, List.map_append]
    rfl
  have hpre : (text s).toList ++ ['@'] <+: (text name).toList ↔ s ++ [atSign] <+: name := by
    rw [happ, toList_text]
    refine ⟨fun h => ?_, fun h => h.map _⟩
    obtain ⟨l, hl, heq⟩ := List.prefix_map_iff.mp h
    rwa [List.map_injective_iff.mpr char_injective heq]
  have hmem : '@' ∈ (text s).toList ↔ atSign ∈ s := by
    rw [toList_text, hat]
    exact List.mem_map_of_injective char_injective
  exact or_congr text_injective.eq_iff (and_congr (not_congr hmem) hpre)

theorem lookup_text (l : List (Bytes × Bytes)) (name : Bytes) :
    (l.map (Prod.map text id)).lookup (text name) = l.lookup name := by
  induction l with
  | nil => rfl
  | cons q l ih =>
    have hkey : (text name == text q.1) = (name == q.1) := by
      rw [Bool.eq_iff_iff, beq_iff_eq, beq_iff_eq, text_injective.eq_iff]
    rw [List.map_cons, Prod.map, List.lookup_cons, List.lookup_cons, ih, hkey]
    rfl

end Text

def Place.node (n : Place) : Node where
  offset := n.offset
  name := text n.name
  parent := n.up
  props := n.props.map (Prod.map text id)

namespace Blob

variable {b : Blob} {t : Dt} {n m : Place} {before post : List Place} {name v : Bytes}

section Tree

theorem Dt.up_lt (hn : t.nodes = before ++ n :: post) : ∀ p ∈ n.up, p < n.offset ∧
    ∃ q ∈ t.nodes, q.offset = p := by
  intro p hp
  have hlink : Preorder.Linked Place.depth Place.offset Place.up [] t.nodes :=
    t.places_linked 0 0 none rfl
  have horder : t.nodes.Pairwise fun n m => n.offset < m.offset := t.places_inOrder 0 0 none
  rw [hn] at hlink horder ⊢
  have hup := hlink.up_eq
  rw [Option.mem_def.mp hp] at hup
  obtain ⟨q, hq, rfl⟩ := Option.map_eq_some_iff.mp hup.symm
  have hmem := (Preorder.parent_mem hq).1
  exact ⟨(List.pairwise_append.mp horder).2.2 q hmem n List.mem_cons_self, q,
    List.mem_append_left _ hmem, rfl⟩

theorem Written.short (h : b.Written t) (hn : t.nodes = before ++ n :: post) :
    ∀ q ∈ n.props, q.2.length < 2 ^ 31 := by
  intro q hq
  obtain ⟨e, he, heq⟩ := List.mem_filterMap.mp hq
  obtain ⟨ts, hhold, -⟩ := h.sits hn
  obtain ⟨l, r, hsplit⟩ := List.append_of_mem he
  cases e with
  | nop => cases heq
  | prop nameoff name value =>
    cases heq
    have hall := hhold.tail
    rw [hsplit, List.map_append, List.append_assoc, List.map_cons, List.cons_append] at hall
    have hin := hall.drop.inside
    have hsize := (Token.prop nameoff value).size_eq
    have hbody := Token.length_prop nameoff value
    have hsmall := h.accepted.small
    rw [length_encode_cons, Entry.token] at hin
    dsimp only
    omega

/-- The tree that a block holds. -/
def Written.tree (h : b.Written t) (memRsv : List (BitVec 64 × BitVec 64)) : Tree where
  nodes := t.nodes.map Place.node
  inOrder := List.pairwise_map.mpr (t.places_inOrder 0 0 none)
  above := by
    intro n hn p hp
    obtain ⟨m, hm, rfl⟩ := List.mem_map.mp hn
    obtain ⟨before, post, hsplit⟩ := List.append_of_mem hm
    obtain ⟨hlt, q, hq, rfl⟩ := Dt.up_lt hsplit p hp
    exact ⟨hlt, q.node, List.mem_map_of_mem hq, rfl⟩
  short := by
    intro n hn q hq
    obtain ⟨m, hm, rfl⟩ := List.mem_map.mp hn
    obtain ⟨before, post, hsplit⟩ := List.append_of_mem hm
    obtain ⟨q', hq', rfl⟩ := List.mem_map.mp hq
    exact h.short hsplit q' hq'
  memRsv := memRsv
  beyond nodeoffset name i :=
    match b.getprop nodeoffset (raw name) with
    | some (.ok (p, _)) => (cell (b.bytes.drop (p + 4 * i))).getD 0
    | _ => 0

variable {memRsv : List (BitVec 64 × BitVec 64)}

theorem Written.node_eq (h : b.Written t) (hn : t.nodes = before ++ n :: post) :
    (h.tree memRsv).node n.offset = some n.node := by
  have horder : t.nodes.Pairwise fun n m => n.offset < m.offset := t.places_inOrder 0 0 none
  rw [hn] at horder
  have hbefore : before.find? (fun m => decide ((m.node.offset : Int) = n.offset)) = none := by
    rw [List.find?_eq_none]
    intro m hm
    have hlt := (List.pairwise_append.mp horder).2.2 m hm n List.mem_cons_self
    have hne : (m.node.offset : Int) ≠ n.offset := by
      dsimp only [Place.node]
      omega
    simpa using hne
  change (t.nodes.map Place.node).find? _ = _
  rw [hn, List.find?_map, List.find?_append]
  change ((before.find? (fun m => decide ((m.node.offset : Int) = n.offset))).or _).map _ = _
  rw [hbefore, Option.none_or, List.find?_cons_of_pos]
  · rfl
  · simp [Place.node]

theorem Written.tree_getprop (h : b.Written t) (memRsv : List (BitVec 64 × BitVec 64))
    (hn : t.nodes = before ++ n :: post) (name : Bytes) :
    (h.tree memRsv).getprop n.offset (text name) = n.props.lookup name := by
  rw [Tree.getprop, h.node_eq hn]
  exact lookup_text n.props name

theorem Written.tree_subnodes (h : b.Written t) (n : Place) :
    (h.tree memRsv).subnodes n.offset = (t.nodes.filter (·.up = some n.offset)).map Place.node := by
  rw [Tree.subnodes]
  change (t.nodes.map Place.node).filter _ = _
  rw [List.filter_map]
  congr 1
  refine List.filter_congr fun m _ => ?_
  rw [Function.comp_apply, decide_eq_decide]
  dsimp only [Place.node]
  constructor
  · intro hup
    obtain ⟨p, hp, heq⟩ := Option.map_eq_some_iff.mp hup
    rw [hp, Int.ofNat.inj heq]
  · intro hup
    rw [hup]
    rfl

theorem Written.tree_subnodeOffset (h : b.Written t) (n : Place) (name : Bytes) :
    (h.tree memRsv).subnodeOffset n.offset (text name) = Place.found (t.child n.offset name) := by
  rw [Tree.subnodeOffset, h.tree_subnodes, List.find?_map, Dt.child]
  have hpred : (fun n : Node => decide (Fdt.nodenameEq n.name (text name))) ∘ Place.node =
      fun m : Place => decide (Matches m.name name) := by
    funext m
    exact decide_eq_decide.mpr (nodenameEq_text m.name name)
  rw [hpred]
  cases (t.nodes.filter (·.up = some n.offset)).find? (fun m => decide (Matches m.name name)) <;> rfl

theorem Written.tree_parentOffset (h : b.Written t) (hn : t.nodes = before ++ n :: post) :
    (h.tree memRsv).parentOffset n.offset = (n.up.map Int.ofNat).getD (-FDT_ERR_NOTFOUND) := by
  rw [Tree.parentOffset, h.node_eq hn]
  dsimp only [Place.node]
  cases n.up <;> rfl

end Tree

section Words

variable {memRsv : List (BitVec 64 × BitVec 64)} {fuel : Nat}

theorem load_of_drop {p : Nat} {r : Bytes} (h : b.bytes.drop p = v ++ r) (hv : v.length = 4) :
    b.load p = (cellAt v 0).map BitVec.toNat := by
  match v, hv with
  | [c0, c1, c2, c3], _ => rw [load, h]; rfl

theorem Written.getWord_eq (h : b.Written t) (memRsv : List (BitVec 64 × BitVec 64))
    (hn : t.nodes = before ++ n :: post) (name : Bytes) : b.getWord n.offset name =
      some (((h.tree memRsv).word n.offset (text name)).map BitVec.toNat) := by
  rw [getWord, Tree.word, h.tree_getprop memRsv hn]
  cases hv : n.props.lookup name with
  | none =>
    rw [h.getprop_none hn hv]
    rfl
  | some v =>
    obtain ⟨p, r, hget, hdrop, -⟩ := h.getprop_some hn hv
    rw [hget, Option.bind_eq_bind, Option.bind_some]
    dsimp only
    by_cases hlen : v.length = 4
    · have hsome : (cellAt v 0).isSome := cellAt_isSome.mpr (by omega)
      obtain ⟨x, hx⟩ := Option.isSome_iff_exists.mp hsome
      rw [if_neg (not_not.mpr hlen), if_pos hlen, load_of_drop hdrop hlen, hx]
      rfl
    · rw [if_pos hlen, if_neg hlen]
      rfl

theorem Written.getPhandle_eq (h : b.Written t) (memRsv : List (BitVec 64 × BitVec 64))
    (hn : t.nodes = before ++ n :: post) :
    b.getPhandle n.offset = some ((h.tree memRsv).getPhandle n.offset).toNat := by
  have hname : text (raw "phandle") = "phandle" := by decide
  have hold : text (raw "linux,phandle") = "linux,phandle" := by decide
  have hphandle := h.getWord_eq memRsv hn (raw "phandle")
  have hlinux := h.getWord_eq memRsv hn (raw "linux,phandle")
  rw [hname] at hphandle
  rw [hold] at hlinux
  rw [getPhandle, hphandle, hlinux, Tree.getPhandle]
  cases (h.tree memRsv).word n.offset "phandle" with
  | some x => rfl
  | none => cases (h.tree memRsv).word n.offset "linux,phandle" <;> rfl

theorem Written.cells_eq (h : b.Written t) (memRsv : List (BitVec 64 × BitVec 64))
    (hn : t.nodes = before ++ n :: post) (name : Bytes) :
    b.cells n.offset name = some ((h.tree memRsv).cells n.offset (text name)) := by
  rw [cells, Tree.cells, h.node_eq hn]
  dsimp only
  rw [show n.node.props.lookup (text name) = n.props.lookup name from lookup_text n.props name]
  cases hv : n.props.lookup name with
  | none =>
    rw [h.getprop_none hn hv]
    rfl
  | some v =>
    obtain ⟨p, r, hget, hdrop, -⟩ := h.getprop_some hn hv
    rw [hget, Option.bind_eq_bind, Option.bind_some]
    dsimp only
    by_cases hlen : v.length = 4
    · have hsome : (cellAt v 0).isSome := cellAt_isSome.mpr (by omega)
      obtain ⟨x, hx⟩ := Option.isSome_iff_exists.mp hsome
      rw [if_neg (not_not.mpr hlen), if_neg (not_not.mpr hlen), load_of_drop hdrop hlen, hx]
      rfl
    · rw [if_pos hlen, if_pos hlen]
      rfl

theorem Written.addressCells_eq (h : b.Written t) (hn : t.nodes = before ++ n :: post) :
    b.addressCells n.offset = some ((h.tree memRsv).addressCells n.offset) := by
  have hname : text (raw "#address-cells") = "#address-cells" := by decide
  rw [addressCells, h.cells_eq memRsv hn, hname]
  rfl

theorem Written.sizeCells_eq (h : b.Written t) (hn : t.nodes = before ++ n :: post) :
    b.sizeCells n.offset = some ((h.tree memRsv).sizeCells n.offset) := by
  have hname : text (raw "#size-cells") = "#size-cells" := by decide
  rw [sizeCells, h.cells_eq memRsv hn, hname]
  rfl

theorem Written.byPhandleLoop_eq (h : b.Written t) (memRsv : List (BitVec 64 × BitVec 64))
    (phandle : BitVec 32) (hn : t.nodes = before ++ post)
    (hfuel : post.length < fuel) : b.byPhandleLoop phandle.toNat fuel (Place.found post.head?) =
      some (Place.found
        (post.find? fun n => (h.tree memRsv).getPhandle n.offset = phandle)) := by
  induction post generalizing before fuel with
  | nil =>
    cases fuel with
    | zero => exact absurd hfuel (Nat.not_lt_zero _)
    | succ fuel => rfl
  | cons n post ih =>
    cases fuel with
    | zero => exact absurd hfuel (Nat.not_lt_zero _)
    | succ fuel =>
      have hnext : b.nextNode n.offset none = some (Place.found post.head?, none) := by
        rw [(h.sits hn).nextNode_none h.accepted h.version]
        cases post <;> rfl
      rw [List.find?_cons]
      change b.byPhandleLoop phandle.toNat (fuel + 1) (n.offset : Int) = _
      rw [byPhandleLoop, if_neg (by omega), h.getPhandle_eq memRsv hn, hnext,
        Option.bind_eq_bind, Option.bind_some]
      by_cases hp : (h.tree memRsv).getPhandle n.offset = phandle
      · rw [if_pos (congrArg BitVec.toNat hp), decide_eq_true hp]
        rfl
      · rw [if_neg (fun heq => hp (BitVec.toNat_inj.mp heq)), decide_eq_false hp]
        exact ih (hn.trans (List.append_cons ..)) (Nat.lt_of_succ_lt_succ hfuel)

theorem Contains.nextNode_first (h : b.Contains t) :
    b.nextNode (-1) none = some (Place.found t.nodes.head?, none) := by
  obtain ⟨trail, hhold⟩ := h.struct
  have hclose : Closes (t.tokens ++ (nops trail ++ [.finish])) 0 :=
    t.closes_tokens.mpr ((closes_nops trail).mpr trivial)
  rw [nextNode, if_neg (by decide)]
  refine (nextNodeLoop_none h.accepted h.version hhold hclose
    (hhold.length_le_fuel h.accepted)).trans ?_
  obtain ⟨root, others, hnodes, -⟩ := t.exists_nodes
  rw [t.opens_tokens none]
  change some ((((t.nodes.map Place.key ++ _).head?.map _).getD _), none) = _
  rw [hnodes]
  rfl

theorem Written.nodeOffsetByPhandle_eq (h : b.Written t) (phandle : BitVec 32) :
    b.nodeOffsetByPhandle phandle = some ((h.tree memRsv).nodeOffsetByPhandle phandle) := by
  have hprobe := h.accepted.probe
  rw [nodeOffsetByPhandle, Tree.nodeOffsetByPhandle]
  split
  · rfl
  · have hloop := h.byPhandleLoop_eq memRsv phandle (show t.nodes = [] ++ t.nodes from rfl)
      h.length_lt_fuel
    have hnodes : (h.tree memRsv).nodes = t.nodes.map Place.node := rfl
    have hpred : (fun n : Node => decide ((h.tree memRsv).getPhandle n.offset = phandle)) ∘
        Place.node = fun n => decide ((h.tree memRsv).getPhandle n.offset = phandle) := rfl
    rw [if_neg (by omega), h.nextNode_first, Option.bind_eq_bind, Option.bind_some, hloop, hnodes,
      List.find?_map, hpred]
    cases t.nodes.find? fun n => decide ((h.tree memRsv).getPhandle n.offset = phandle) <;> rfl

end Words

section Reservations

variable {memRsv : List (BitVec 64 × BitVec 64)}

structure Reserves (b : Blob) (memRsv : List (BitVec 64 × BitVec 64)) : Prop where
  inside : b.offMemRsvmap + (memRsv.length + 1) * 16 ≤ b.totalsize
  reads : ∀ i r, memRsv[i]? = some r → b.load64 (b.offMemRsvmap + i * 16) = some r.1 ∧
    b.load64 (b.offMemRsvmap + i * 16 + 8) = some r.2
  used : ∀ r ∈ memRsv, r.2 ≠ 0
  last : b.load64 (b.offMemRsvmap + memRsv.length * 16 + 8) = some 0

theorem Reserves.memRsv_eq (hacc : b.Accepted) (h : b.Reserves memRsv) {i : Nat}
    (hi : i ≤ memRsv.length) : b.memRsv i = some (b.offMemRsvmap + i * 16) := by
  have hin := h.inside
  have hsmall := hacc.small
  have hmul : uint ((i : Int) * 16) = i * 16 := by
    unfold uint
    omega
  unfold Blob.memRsv
  rw [hmul]
  refine if_neg ?_
  unfold uint
  omega

theorem Reserves.numMemRsvLoop_eq (hacc : b.Accepted) (h : b.Reserves memRsv) {fuel i : Nat}
    (hi : i ≤ memRsv.length) (hfuel : memRsv.length < i + fuel) :
    b.numMemRsvLoop fuel i = some (memRsv.length : Int) := by
  induction fuel generalizing i with
  | zero => omega
  | succ fuel ih =>
    rw [numMemRsvLoop, h.memRsv_eq hacc hi]
    change (b.load64 _ >>= _) = _
    rcases Nat.eq_or_lt_of_le hi with rfl | hlt
    · rw [h.last]
      rfl
    · have hget := List.getElem?_eq_getElem hlt
      have hused := h.used _ (List.getElem_mem hlt)
      rw [(h.reads i _ hget).2, Option.bind_eq_bind, Option.bind_some, if_neg hused]
      exact ih (by omega) (by omega)

theorem Reserves.numMemRsv_eq (hacc : b.Accepted) (h : b.Reserves memRsv) :
    b.numMemRsv = some (memRsv.length : Int) := by
  have hin := h.inside
  have hwhole := hacc.whole
  refine h.numMemRsvLoop_eq hacc (Nat.zero_le _) ?_
  unfold fuel
  omega

theorem Reserves.getMemRsv_eq (hacc : b.Accepted) (h : b.Reserves memRsv) {i : Nat}
    {r : BitVec 64 × BitVec 64} (hr : memRsv[i]? = some r) : b.getMemRsv i = some (.ok r) := by
  have hprobe := hacc.probe
  have hi : i < memRsv.length := (List.getElem?_eq_some_iff.mp hr).1
  rw [getMemRsv, if_neg (by omega), h.memRsv_eq hacc hi.le]
  change (b.load64 _ >>= _) = _
  rw [(h.reads i r hr).1]
  change (b.load64 _ >>= _) = _
  rw [(h.reads i r hr).2]
  rfl

end Reservations

variable {memRsv : List (BitVec 64 × BitVec 64)}

theorem Written.exists_place (h : b.Written t) {n : Node} (hn : n ∈ (h.tree memRsv).nodes) :
    ∃ m before post, m.node = n ∧ t.nodes = before ++ m :: post := by
  obtain ⟨m, hm, heq⟩ := List.mem_map.mp hn
  obtain ⟨before, post, hsplit⟩ := List.append_of_mem hm
  exact ⟨m, before, post, heq, hsplit⟩

theorem Written.navigates (h : b.Written t) (memRsv : List (BitVec 64 × BitVec 64)) :
    ∀ n ∈ (h.tree memRsv).nodes,
      b.eachSubnode n.offset =
        some (((h.tree memRsv).subnodes n.offset).map fun m => (m.offset : Int)) ∧
      (∀ name, b.subnodeOffsetNamelen n.offset name =
        some ((h.tree memRsv).subnodeOffset n.offset (text name))) ∧
      b.parentOffset n.offset = some ((h.tree memRsv).parentOffset n.offset) := by
  intro n hn
  obtain ⟨m, before, post, rfl, hsplit⟩ := h.exists_place hn
  change b.eachSubnode m.offset =
      some (((h.tree memRsv).subnodes m.offset).map fun m => (m.offset : Int)) ∧
    (∀ name, b.subnodeOffsetNamelen m.offset name =
      some ((h.tree memRsv).subnodeOffset m.offset (text name))) ∧
    b.parentOffset m.offset = some ((h.tree memRsv).parentOffset m.offset)
  refine ⟨?_, fun name => ?_, ?_⟩
  · rw [h.toContains.eachSubnode_eq hsplit, h.tree_subnodes, Dt.filter_up hsplit, List.map_map]
    rfl
  · rw [h.toContains.subnodeOffsetNamelen_eq hsplit, h.tree_subnodeOffset]
  · rw [h.toContains.parentOffset_eq hsplit, h.tree_parentOffset hsplit]

theorem navigates_sample :
    (sample.block sampleStrings).eachSubnode 0 = some
      ((((written_block sample_fits).tree []).subnodes 0).map fun m => (m.offset : Int)) ∧
    (sample.block sampleStrings).parentOffset 0 =
      some (((written_block sample_fits).tree []).parentOffset 0) := by
  have hroot : Place.node ⟨0, 0, none, [], [.prop 0 (raw "#address-cells") (be32 1)]⟩ ∈
      ((written_block sample_fits).tree []).nodes := List.mem_map_of_mem List.mem_cons_self
  have hsample := (written_block sample_fits).navigates [] _ hroot
  exact ⟨hsample.1, hsample.2.2⟩

theorem Written.looks_up (h : b.Written t) (hr : b.Reserves memRsv) :
    (∀ n ∈ (h.tree memRsv).nodes,
      (∃ p s, b.getName n.offset = some (.ok (p, s.length)) ∧ b.slice p s.length = some s ∧
        n.name = text s) ∧
      (∀ name, match (h.tree memRsv).getprop n.offset (text name) with
        | none => b.getprop n.offset name = some (.error (-FDT_ERR_NOTFOUND))
        | some v => ∃ p, b.getprop n.offset name = some (.ok (p, v.length)) ∧
          b.slice p v.length = some v) ∧
      b.addressCells n.offset = some ((h.tree memRsv).addressCells n.offset) ∧
      b.sizeCells n.offset = some ((h.tree memRsv).sizeCells n.offset)) ∧
    (∀ phandle, b.nodeOffsetByPhandle phandle =
      some ((h.tree memRsv).nodeOffsetByPhandle phandle)) ∧
    b.numMemRsv = some ((h.tree memRsv).memRsv.length : Int) ∧
    ∀ (i : Nat) r, (h.tree memRsv).memRsv[i]? = some r → b.getMemRsv i = some (.ok r) := by
  have hwhole := h.accepted.whole
  refine ⟨fun n hn => ?_, fun phandle => h.nodeOffsetByPhandle_eq phandle,
    hr.numMemRsv_eq h.accepted, fun i r hi => hr.getMemRsv_eq h.accepted hi⟩
  obtain ⟨m, before, post, rfl, hsplit⟩ := h.exists_place hn
  refine ⟨?_, fun name => ?_, h.addressCells_eq hsplit, h.sizeCells_eq hsplit⟩
  · obtain ⟨-, r, hdrop⟩ := (h.sits hsplit).exists_name
    have hlen := length_of_drop hdrop
    refine ⟨_, m.name, (h.sits hsplit).getName_eq h.accepted h.version, ?_, rfl⟩
    rw [slice_eq hdrop (Nat.le_refl _) (by omega), List.take_length]
  · have hget := h.tree_getprop memRsv hsplit name
    change match (h.tree memRsv).getprop m.offset (text name) with
      | none => b.getprop m.offset name = some (.error (-FDT_ERR_NOTFOUND))
      | some v => ∃ p, b.getprop m.offset name = some (.ok (p, v.length)) ∧
        b.slice p v.length = some v
    rw [hget]
    cases hv : m.props.lookup name with
    | none => exact h.getprop_none hsplit hv
    | some v =>
      obtain ⟨p, r, hp, hdrop, hin⟩ := h.getprop_some hsplit hv
      refine ⟨p, hp, ?_⟩
      rw [slice_eq hdrop (Nat.le_refl _) (by omega), List.take_length]

theorem reserves_block {strings : Bytes} (h : t.Fits strings) : (t.block strings).Reserves [] := by
  have hsmall := h.lt
  have hsize : (t.block strings).totalsize = 56 + (encode t.stream).length + strings.length :=
    getHeader_block rfl (by omega)
  have hoff : (t.block strings).offMemRsvmap = 40 := getHeader_block rfl (by decide)
  have hdrop : (t.block strings).bytes.drop 40 =
      List.replicate 16 0 ++ (encode t.stream ++ strings) :=
    List.drop_left' (length_header t strings)
  have hhi : cell ((t.block strings).bytes.drop 48) = some 0 := by
    rw [show 48 = 40 + 8 from rfl, ← List.drop_drop, hdrop]
    rfl
  have hlo : cell ((t.block strings).bytes.drop 52) = some 0 := by
    rw [show 52 = 40 + 12 from rfl, ← List.drop_drop, hdrop]
    rfl
  refine ⟨by rw [hoff, hsize, List.length_nil]; omega, by simp, by simp, ?_⟩
  rw [hoff]
  change (cell ((t.block strings).bytes.drop 48) >>= fun hi =>
    cell ((t.block strings).bytes.drop 52) >>= fun lo => pure (hi ++ lo)) = some 0
  rw [hhi, hlo]
  rfl

theorem looks_up_sample :
    (sample.block sampleStrings).nodeOffsetByPhandle 7 =
      some (((written_block sample_fits).tree []).nodeOffsetByPhandle 7) :=
  ((written_block sample_fits).looks_up (reserves_block sample_fits)).2.1 7

end Blob

end Abydos.Fdt
