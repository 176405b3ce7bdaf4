import Abydos.Fdt.Tokens
import Abydos.Lib.Preorder

namespace Abydos.Fdt

open Abydos.Lib

inductive Entry
  | nop
  | prop (nameoff : Nat) (name value : Bytes)
  deriving DecidableEq

def Entry.token : Entry → Token
  | .nop => .nop
  | .prop nameoff _ value => .prop nameoff value

/-- A node as it is written, after `lead` tags that mean nothing. -/
inductive Dt
  | node (lead : Nat) (name : Bytes) (entries : List Entry) (children : List Dt) (trail : Nat)

def nops (k : Nat) : List Token := List.replicate k .nop

mutual

def Dt.tokens : Dt → List Token
  | .node lead name entries children trail =>
    nops lead ++ .beginNode name :: (entries.map Entry.token ++
      (tokensOf children ++ (nops trail ++ [.endNode])))

def tokensOf : List Dt → List Token
  | [] => []
  | t :: ts => t.tokens ++ tokensOf ts

end

structure Place where
  offset : Nat
  depth : Nat
  up : Option Nat
  name : Bytes
  entries : List Entry

def Place.inner (n : Place) : Nat :=
  n.offset + (Token.beginNode n.name).size + (encode (n.entries.map Entry.token)).length

mutual

def Dt.places (o d : Nat) (up : Option Nat) : Dt → List Place
  | .node lead name entries children _ =>
    let n : Place := ⟨o + 4 * lead, d, up, name, entries⟩
    n :: placesOf n.inner (d + 1) (some n.offset) children

def placesOf (o d : Nat) (up : Option Nat) : List Dt → List Place
  | [] => []
  | t :: ts => t.places o d up ++ placesOf (o + (encode t.tokens).length) d up ts

end

def Dt.lead : Dt → Nat
  | .node lead _ _ _ _ => lead

def Dt.nodes (t : Dt) : List Place := t.places 0 0 none

section Shape

theorem length_encode_nops (k : Nat) : (encode (nops k)).length = 4 * k := by
  induction k with
  | zero => rfl
  | succ k ih =>
    rw [nops, List.replicate_succ, ← nops, length_encode_cons, ih]
    have : Token.nop.size = 4 := by decide
    omega

theorem Dt.length_encode (lead : Nat) (name : Bytes) (entries : List Entry) (children : List Dt)
    (trail : Nat) : (encode (Dt.node lead name entries children trail).tokens).length =
      4 * lead + ((Token.beginNode name).size + ((encode (entries.map Entry.token)).length +
        ((encode (tokensOf children)).length + (4 * trail + 4)))) := by
  simp only [Dt.tokens, encode_append, length_encode_cons, List.length_append, length_encode_nops]
  rfl

mutual

theorem Dt.places_bounds (o d : Nat) (up : Option Nat) (t : Dt) :
    ∀ n ∈ t.places o d up, o ≤ n.offset ∧ n.offset < o + (encode t.tokens).length ∧ d ≤ n.depth := by
  match t with
  | .node lead name entries children trail =>
    have hlen := Dt.length_encode lead name entries children trail
    have h4 := (Token.beginNode name).four_le_size
    intro n hn
    rcases List.mem_cons.mp hn with rfl | hn
    · dsimp only
      omega
    · have := placesOf_bounds _ _ _ children n hn
      dsimp only [Place.inner] at this
      omega

theorem placesOf_bounds (o d : Nat) (up : Option Nat) (ts : List Dt) :
    ∀ n ∈ placesOf o d up ts,
      o ≤ n.offset ∧ n.offset < o + (encode (tokensOf ts)).length ∧ d ≤ n.depth := by
  match ts with
  | [] => simp [placesOf]
  | t :: ts =>
    intro n hn
    rw [tokensOf, encode_append, List.length_append]
    rcases List.mem_append.mp hn with hn | hn
    · have := t.places_bounds _ _ _ n hn
      omega
    · have := placesOf_bounds _ _ _ ts n hn
      omega

end

mutual

theorem Dt.places_inOrder (o d : Nat) (up : Option Nat) (t : Dt) :
    (t.places o d up).Pairwise fun n m => n.offset < m.offset := by
  match t with
  | .node lead name entries children trail =>
    refine List.pairwise_cons.mpr ⟨fun n hn => ?_, placesOf_inOrder _ _ _ children⟩
    have := (placesOf_bounds _ _ _ children n hn).1
    have := (Token.beginNode name).four_le_size
    dsimp only [Place.inner] at *
    omega

theorem placesOf_inOrder (o d : Nat) (up : Option Nat) (ts : List Dt) :
    (placesOf o d up ts).Pairwise fun n m => n.offset < m.offset := by
  match ts with
  | [] => exact .nil
  | t :: ts =>
    refine List.pairwise_append.mpr ⟨t.places_inOrder _ _ _, placesOf_inOrder _ _ _ ts,
      fun n hn m hm => ?_⟩
    have := t.places_bounds _ _ _ n hn
    have := placesOf_bounds _ _ _ ts m hm
    omega

end

theorem placesOf_head (o d : Nat) (up : Option Nat) (ts : List Dt) :
    ∀ n ∈ (placesOf o d up ts).head?, n.depth = d := by
  match ts with
  | [] => simp [placesOf]
  | .node lead name entries children trail :: ts =>
    rintro n ⟨⟩
    rfl

mutual

theorem Dt.places_steps (o d : Nat) (up : Option Nat) (t : Dt) :
    Preorder.Steps Place.depth (t.places o d up) := by
  match t with
  | .node lead name entries children trail =>
    refine List.isChain_cons.mpr ⟨fun n hn => ?_, placesOf_steps _ _ _ children⟩
    exact (placesOf_head _ _ _ children n hn).le

theorem placesOf_steps (o d : Nat) (up : Option Nat) (ts : List Dt) :
    Preorder.Steps Place.depth (placesOf o d up ts) := by
  match ts with
  | [] => exact .nil
  | t :: ts =>
    refine List.isChain_append.mpr ⟨t.places_steps _ _ _, placesOf_steps _ _ _ ts,
      fun n hn m hm => ?_⟩
    have := (t.places_bounds _ _ _ n (List.mem_of_getLast? hn)).2.2
    have := placesOf_head _ _ _ ts m hm
    omega

end

mutual

theorem Dt.places_linked (o d : Nat) (up : Option Nat) (t : Dt) {before : List Place}
    (h : (Preorder.parent Place.depth d before).map Place.offset = up) :
    Preorder.Linked Place.depth Place.offset Place.up before (t.places o d up) := by
  match t with
  | .node lead name entries children trail =>
    have hroot : ∀ n : Place, n.depth + 1 = d + 1 →
        (Preorder.parent Place.depth (d + 1) (before ++ [n])).map Place.offset = some n.offset := by
      intro n hn
      rw [Preorder.parent_append_of_eq hn]
      rfl
    exact ⟨h.symm, placesOf_linked _ _ _ children (hroot _ rfl)⟩

theorem placesOf_linked (o d : Nat) (up : Option Nat) (ts : List Dt) {before : List Place}
    (h : (Preorder.parent Place.depth d before).map Place.offset = up) :
    Preorder.Linked Place.depth Place.offset Place.up before (placesOf o d up ts) := by
  match ts with
  | [] => trivial
  | t :: ts =>
    refine Preorder.linked_append.mpr ⟨t.places_linked _ _ _ h, placesOf_linked _ _ _ ts ?_⟩
    rw [Preorder.parent_append_of_ne fun n hn => ?_, h]
    have := (t.places_bounds _ _ _ n hn).2.2
    omega

end

mutual

theorem Dt.places_up_isSome (o d p : Nat) (t : Dt) : ∀ n ∈ t.places o d (some p), n.up.isSome := by
  match t with
  | .node lead name entries children trail =>
    intro n hn
    rcases List.mem_cons.mp hn with rfl | hn
    · rfl
    · exact placesOf_up_isSome _ _ _ children n hn

theorem placesOf_up_isSome (o d p : Nat) (ts : List Dt) :
    ∀ n ∈ placesOf o d (some p) ts, n.up.isSome := by
  match ts with
  | [] => simp [placesOf]
  | t :: ts =>
    intro n hn
    rcases List.mem_append.mp hn with hn | hn
    · exact t.places_up_isSome _ _ _ n hn
    · exact placesOf_up_isSome _ _ _ ts n hn

end

theorem Dt.exists_nodes (t : Dt) : ∃ root others, t.nodes = root :: others ∧
    root.offset = 4 * t.lead ∧ root.depth = 0 ∧ root.up = none ∧
      ∀ n ∈ others, 1 ≤ n.depth ∧ n.up.isSome := by
  match t with
  | .node lead name entries children trail =>
    refine ⟨_, _, rfl, Nat.zero_add _, rfl, rfl, fun n hn => ?_⟩
    exact ⟨(placesOf_bounds _ _ _ children n hn).2.2, placesOf_up_isSome _ _ _ children n hn⟩

theorem Dt.filter_up {t : Dt} {before post : List Place} {n : Place}
    (hn : t.nodes = before ++ n :: post) :
    t.nodes.filter (·.up = some n.offset) = Preorder.children Place.depth n.depth post := by
  have hlink : Preorder.Linked Place.depth Place.offset Place.up [] t.nodes :=
    t.places_linked 0 0 none rfl
  have horder : t.nodes.Pairwise fun n m => n.offset < m.offset := t.places_inOrder 0 0 none
  have hsteps : Preorder.Steps Place.depth t.nodes := t.places_steps 0 0 none
  rw [hn] at hlink horder hsteps ⊢
  exact hlink.filter_eq_children horder hsteps

end Shape

section Streams

def opens : List Token → Nat → Nat → List (Nat × Nat)
  | [], _, _ => []
  | .beginNode name :: ts, o, d => (o, d) :: opens ts (o + (Token.beginNode name).size) (d + 1)
  | .endNode :: ts, o, d => opens ts (o + Token.endNode.size) (d - 1)
  | .prop nameoff value :: ts, o, d => opens ts (o + (Token.prop nameoff value).size) d
  | .nop :: ts, o, d => opens ts (o + Token.nop.size) d
  | .finish :: _, _, _ => []

def Closes : List Token → Nat → Prop
  | .beginNode _ :: ts, d => Closes ts (d + 1)
  | .endNode :: ts, d + 1 => Closes ts d
  | .prop _ _ :: ts, d => Closes ts d
  | .nop :: ts, d => Closes ts d
  | .finish :: _, 0 => True
  | _, _ => False

def Place.key (n : Place) : Nat × Nat := (n.offset, n.depth)

variable {o d : Nat} {rest : List Token}

theorem opens_nops (k : Nat) : opens (nops k ++ rest) o d = opens rest (o + 4 * k) d := by
  induction k generalizing o with
  | zero => rfl
  | succ k ih =>
    have hsize : Token.nop.size = 4 := by decide
    rw [nops, List.replicate_succ, ← nops, List.cons_append, opens, ih, hsize,
      Nat.add_assoc, Nat.mul_succ, Nat.add_comm 4]

theorem closes_nops (k : Nat) : Closes (nops k ++ rest) d ↔ Closes rest d := by
  induction k with
  | zero => rfl
  | succ k ih =>
    rw [nops, List.replicate_succ, ← nops, List.cons_append, Closes, ih]

theorem opens_entries (es : List Entry) : opens (es.map Entry.token ++ rest) o d =
    opens rest (o + (encode (es.map Entry.token)).length) d := by
  induction es generalizing o with
  | nil => rfl
  | cons e es ih =>
    rw [List.map_cons, length_encode_cons, ← Nat.add_assoc]
    cases e <;> exact ih

theorem closes_entries (es : List Entry) :
    Closes (es.map Entry.token ++ rest) d ↔ Closes rest d := by
  induction es with
  | nil => rfl
  | cons e es ih => cases e <;> exact ih

mutual

theorem Dt.opens_tokens {o d : Nat} {rest : List Token} (up : Option Nat) (t : Dt) :
    opens (t.tokens ++ rest) o d =
      (t.places o d up).map Place.key ++ opens rest (o + (encode t.tokens).length) d := by
  match t with
  | .node lead name entries children trail =>
    rw [Dt.length_encode, Dt.tokens, Dt.places]
    simp only [List.append_assoc, List.cons_append, List.nil_append, opens_nops, opens,
      opens_entries, List.map_cons]
    rw [opens_tokensOf (some (o + 4 * lead)) children, opens_nops, opens]
    simp only [Place.inner, Place.key, Nat.add_sub_cancel, List.cons.injEq, true_and]
    congr 2
    have : Token.endNode.size = 4 := by decide
    omega

theorem opens_tokensOf {o d : Nat} {rest : List Token} (up : Option Nat) (ts : List Dt) :
    opens (tokensOf ts ++ rest) o d =
      (placesOf o d up ts).map Place.key ++ opens rest (o + (encode (tokensOf ts)).length) d := by
  match ts with
  | [] => rfl
  | t :: ts =>
    rw [tokensOf, placesOf, List.append_assoc, t.opens_tokens up, opens_tokensOf up ts,
      List.map_append, List.append_assoc, encode_append, List.length_append, Nat.add_assoc]

end

mutual

theorem Dt.closes_tokens {d : Nat} {rest : List Token} (t : Dt) :
    Closes (t.tokens ++ rest) d ↔ Closes rest d := by
  match t with
  | .node lead name entries children trail =>
    rw [Dt.tokens]
    simp only [List.append_assoc, List.cons_append, List.nil_append, closes_nops, Closes,
      closes_entries]
    rw [closes_tokensOf children, closes_nops, Closes]

theorem closes_tokensOf {d : Nat} {rest : List Token} (ts : List Dt) :
    Closes (tokensOf ts ++ rest) d ↔ Closes rest d := by
  match ts with
  | [] => rfl
  | t :: ts => rw [tokensOf, List.append_assoc, t.closes_tokens, closes_tokensOf ts]

end

theorem length_opens_le (ts : List Token) : (opens ts o d).length ≤ ts.length := by
  induction ts generalizing o d with
  | nil => exact Nat.le_refl 0
  | cons t ts ih =>
    cases t with
    | beginNode name => exact Nat.succ_le_succ ih
    | finish => exact Nat.zero_le _
    | endNode => exact ih.trans (Nat.le_succ _)
    | prop nameoff value => exact ih.trans (Nat.le_succ _)
    | nop => exact ih.trans (Nat.le_succ _)

theorem Dt.length_nodes_le (t : Dt) : t.nodes.length ≤ t.tokens.length := by
  have h : opens (t.tokens ++ []) 0 0 = _ := t.opens_tokens none
  have hle := length_opens_le (o := 0) (d := 0) (t.tokens ++ [])
  rw [h, List.append_nil, List.length_append, List.length_map] at hle
  exact (Nat.le_add_right _ _).trans hle

def NoProp (ts : List Token) : Prop :=
  ∃ k u us, ts = nops k ++ u :: us ∧ (u = .endNode ∨ ∃ name, u = .beginNode name)

theorem noProp_tokensOf (ts : List Dt) (trail : Nat) (rest : List Token) :
    NoProp (tokensOf ts ++ (nops trail ++ .endNode :: rest)) := by
  match ts with
  | [] => exact ⟨trail, .endNode, rest, rfl, .inl rfl⟩
  | .node lead name entries children trail' :: ts =>
    rw [tokensOf, Dt.tokens, List.append_assoc, List.append_assoc, List.cons_append]
    exact ⟨lead, .beginNode name, _, rfl, .inr ⟨name, rfl⟩⟩

end Streams

namespace Blob

variable {b : Blob}

/-- A node stands in the block at its place, and the nodes in `later` come after it. -/
def Sits (b : Blob) (n : Place) (later : List (Nat × Nat)) : Prop :=
  ∃ ts, b.Holds n.offset (.beginNode n.name :: (n.entries.map Entry.token ++ ts)) ∧ NoProp ts ∧
    Closes ts (n.depth + 1) ∧ opens ts n.inner (n.depth + 1) = later

def AllSit (b : Blob) : List Place → List (Nat × Nat) → Prop
  | [], _ => True
  | n :: ns, later => b.Sits n (ns.map Place.key ++ later) ∧ b.AllSit ns later

theorem allSit_append {ns ms : List Place} {later : List (Nat × Nat)} :
    b.AllSit (ns ++ ms) later ↔ b.AllSit ns (ms.map Place.key ++ later) ∧ b.AllSit ms later := by
  induction ns with
  | nil => simp [AllSit]
  | cons n ns ih => simp only [List.cons_append, AllSit, ih, List.map_append, List.append_assoc,
      and_assoc]

mutual

theorem allSit_places {o d : Nat} {rest : List Token} (up : Option Nat) (t : Dt)
    (h : b.Holds o (t.tokens ++ rest)) (hc : Closes rest d) :
    b.AllSit (t.places o d up) (opens rest (o + (encode t.tokens).length) d) := by
  match t with
  | .node lead name entries children trail =>
    rw [Dt.tokens] at h
    simp only [List.append_assoc, List.cons_append, List.nil_append] at h
    have hroot := h.drop
    rw [length_encode_nops] at hroot
    have hinner := hroot.tail.drop
    have hclose : Closes (nops trail ++ .endNode :: rest) (d + 1) := (closes_nops trail).mpr hc
    have hlater : ∀ o', opens (nops trail ++ .endNode :: rest) o' (d + 1) =
        opens rest (o' + (4 * trail + 4)) d := by
      intro o'
      rw [opens_nops, opens, Nat.add_sub_cancel, Nat.add_assoc]
      rfl
    have hsub := allSit_placesOf (some (o + 4 * lead)) children hinner hclose
    rw [hlater] at hsub
    rw [Dt.length_encode]
    simp only [← Nat.add_assoc] at hsub ⊢
    refine ⟨⟨_, hroot, noProp_tokensOf children trail rest, (closes_tokensOf children).mpr hclose,
      ?_⟩, hsub⟩
    rw [opens_tokensOf (some (o + 4 * lead)) children, hlater]
    simp only [Place.inner, ← Nat.add_assoc]

theorem allSit_placesOf {o d : Nat} {rest : List Token} (up : Option Nat) (ts : List Dt)
    (h : b.Holds o (tokensOf ts ++ rest)) (hc : Closes rest d) :
    b.AllSit (placesOf o d up ts) (opens rest (o + (encode (tokensOf ts)).length) d) := by
  match ts with
  | [] => trivial
  | t :: ts =>
    rw [tokensOf, List.append_assoc] at h
    have hfirst := allSit_places up t h ((closes_tokensOf ts).mpr hc)
    have hothers := allSit_placesOf up ts h.drop hc
    rw [opens_tokensOf up ts] at hfirst
    rw [Nat.add_assoc, ← List.length_append, ← encode_append] at hothers hfirst
    exact allSit_append.mpr ⟨hfirst, hothers⟩

end

theorem AllSit.sits {before post : List Place} {n : Place} {later : List (Nat × Nat)}
    (h : b.AllSit (before ++ n :: post) later) : b.Sits n (post.map Place.key ++ later) :=
  (allSit_append.mp h).2.1

end Blob

end Abydos.Fdt
