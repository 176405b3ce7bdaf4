import Abydos.Fdt.Nodes

namespace Abydos.Fdt

def Matches (name s : Bytes) : Prop := name = s ∨ atSign ∉ s ∧ s ++ [atSign] <+: name

instance (name s : Bytes) : Decidable (Matches name s) := inferInstanceAs (Decidable (_ ∨ _))

def Entry.prop? : Entry → Option (Bytes × Bytes)
  | .nop => none
  | .prop _ name value => some (name, value)

def Place.props (n : Place) : List (Bytes × Bytes) := n.entries.filterMap Entry.prop?

namespace Blob

variable {b : Blob} {p len o fuel : Nat} {s r name : Bytes}

section Strings

theorem takeWhile_string (hs : 0 ∉ s) : (s ++ 0 :: r).takeWhile (· ≠ 0) = s := by
  rw [List.takeWhile_append_of_pos, List.takeWhile_cons_of_neg (by simp), List.append_nil]
  intro c hc
  simpa using fun h0 : c = 0 => hs (h0 ▸ hc)

theorem length_of_drop (h : b.bytes.drop p = s ++ 0 :: r) : p + s.length < b.bytes.length := by
  have hlen := congrArg List.length h
  rw [List.length_drop, List.length_append, List.length_cons] at hlen
  omega

theorem strlen_eq (h : b.bytes.drop p = s ++ 0 :: r) (hs : 0 ∉ s) : b.strlen p = some s.length := by
  rw [strlen, h, takeWhile_string hs, if_pos (length_of_drop h)]

theorem memchr0_eq (h : b.bytes.drop p = s ++ 0 :: r) (hs : 0 ∉ s) (hlen : s.length < len) :
    b.memchr0 p len = some (some s.length) := by
  have htake : (s ++ 0 :: r).take len = s ++ 0 :: r.take (len - s.length - 1) := by
    rw [List.take_append, List.take_of_length_le hlen.le, List.take_cons (by omega)]
  rw [memchr0, h, htake, takeWhile_string hs, if_neg (by omega), if_pos (length_of_drop h)]

theorem slice_eq (h : b.bytes.drop p = s ++ r) (hlen : len ≤ s.length)
    (hp : p + len ≤ b.bytes.length) : b.slice p len = some (s.take len) := by
  rw [slice, if_pos hp, h, List.take_append_of_le_length hlen]

structure Stored (b : Blob) (nameoff : Nat) (name : Bytes) : Prop where
  bytes : name ++ [0] <+: b.bytes.drop (b.offDtStrings + nameoff)
  inside : b.offDtStrings + nameoff + name.length < b.totalsize
  strings : 0x11 ≤ b.version → nameoff + name.length < b.sizeDtStrings
  ok : 0 ∉ name

variable {nameoff : Nat}

theorem Stored.exists_drop (h : b.Stored nameoff name) :
    ∃ r, b.bytes.drop (b.offDtStrings + nameoff) = name ++ 0 :: r := by
  obtain ⟨r, hr⟩ := h.bytes
  exact ⟨r, by rw [← hr, List.append_assoc]; rfl⟩

theorem Stored.getString_eq (hacc : b.Accepted) (hmagic : b.magic = FDT_MAGIC)
    (h : b.Stored nameoff name) :
    b.getString nameoff = some (.ok (b.offDtStrings + nameoff, name.length)) := by
  obtain ⟨r, hr⟩ := h.exists_drop
  have hin := h.inside
  have hsmall := hacc.small
  have habs : uint ((nameoff : Int) + b.offDtStrings) = b.offDtStrings + nameoff := by
    unfold uint
    omega
  have hfind : ∀ len, name.length < len →
      b.memchr0 (b.offDtStrings + nameoff) len = some (some name.length) :=
    fun len hlen => memchr0_eq hr h.ok hlen
  rw [getString]
  dsimp only
  rw [habs, hacc.probe_eq, if_neg (by omega), if_neg (by omega), if_pos hmagic, if_neg (by omega)]
  split
  · rename_i hver
    have hstr := h.strings hver
    have hsize := b.getHeader_lt 8
    have hoff : uint (nameoff : Int) = nameoff := by
      unfold uint
      omega
    have hrest : uint ((b.sizeDtStrings : Int) - nameoff) = b.sizeDtStrings - nameoff := by
      unfold uint
      rw [← sizeDtStrings] at hsize
      omega
    rw [hoff, hrest, if_neg (by omega), hfind _ (by omega)]
    rfl
  · rw [hfind _ (by omega)]
    rfl

theorem Stored.stringEq_eq (hacc : b.Accepted) (hmagic : b.magic = FDT_MAGIC)
    (h : b.Stored nameoff name) (s : Bytes) : b.stringEq nameoff s = some (decide (name = s)) := by
  obtain ⟨r, hr⟩ := h.exists_drop
  have hlen := length_of_drop hr
  rw [stringEq, h.getString_eq hacc hmagic, Option.bind_eq_bind, Option.bind_some]
  dsimp only
  split
  · rename_i hne
    rw [decide_eq_false fun heq => hne (congrArg List.length heq)]
    rfl
  · rw [slice_eq hr (Nat.le_refl _) (by omega), List.take_length]
    rfl

end Strings

section Names

variable {n : Place} {later : List (Nat × Nat)}

theorem Sits.exists_name (h : b.Sits n later) :
    0 ∉ n.name ∧ ∃ r, b.bytes.drop (b.offDtStruct + n.offset + 4) = n.name ++ 0 :: r := by
  obtain ⟨ts, hhold, -⟩ := h
  obtain ⟨r, hr⟩ := hhold.exists_drop
  refine ⟨hhold.ok _ List.mem_cons_self, r, ?_⟩
  rw [← List.drop_drop, hr, Token.body, List.append_assoc, List.drop_left' (Token.length_be32 _),
    List.append_assoc]
  rfl

theorem Sits.getName_eq (hacc : b.Accepted) (hver : 0x10 ≤ b.version) (h : b.Sits n later) :
    b.getName n.offset = some (.ok (b.offDtStruct + n.offset + 4, n.name.length)) := by
  obtain ⟨hok, r, hr⟩ := h.exists_name
  obtain ⟨ts, hhold, -⟩ := h
  have hprobe := hacc.probe
  have hptr : ((b.offDtStruct : Int) + n.offset + 4).toNat = b.offDtStruct + n.offset + 4 := by
    omega
  rw [getName]
  dsimp only
  rw [if_neg (by omega), hhold.checkNodeOffset_eq hacc hver, Option.bind_eq_bind, Option.bind_some,
    if_neg (by omega), hptr, strlen_eq hr hok]
  exact if_neg (by omega)

theorem Sits.nodenameEq_eq (hacc : b.Accepted) (hver : 0x10 ≤ b.version) (h : b.Sits n later)
    (s : Bytes) : b.nodenameEq n.offset s = some (decide (Matches n.name s)) := by
  obtain ⟨hok, r, hr⟩ := h.exists_name
  have hlen := length_of_drop hr
  rw [nodenameEq, h.getName_eq hacc hver, Option.bind_eq_bind, Option.bind_some]
  dsimp only
  by_cases hpre : s <+: n.name
  · obtain ⟨u, hu⟩ := hpre
    rw [← hu, List.append_assoc] at hr
    rw [← hu, List.length_append] at hlen ⊢
    have hbyte : b.bytes.drop (b.offDtStruct + n.offset + 4 + s.length) = u ++ 0 :: r := by
      rw [← List.drop_drop, hr, List.drop_left]
    rw [if_neg (by omega), slice_eq hr (Nat.le_refl _) (by omega), List.take_length,
      Option.bind_eq_bind, Option.bind_some, if_neg (not_not.mpr rfl)]
    cases u with
    | nil =>
      rw [byte_eq hbyte, List.append_nil]
      simp [Matches]
    | cons c u =>
      have hc : c ≠ 0 := by
        rintro rfl
        exact hok (hu ▸ List.mem_append_right s List.mem_cons_self)
      have hmatch : Matches (s ++ c :: u) s ↔ atSign ∉ s ∧ atSign = c := by
        simp [Matches]
      have hall : (s.all fun x => x ≠ atSign) = decide (atSign ∉ s) := by
        rw [Bool.eq_iff_iff]
        simp only [List.all_eq_true, decide_eq_true_eq]
        exact ⟨fun hne hat => hne _ hat rfl, fun hat x hx heq => hat (heq ▸ hx)⟩
      rw [byte_eq hbyte, Option.bind_eq_bind, Option.bind_some, decide_eq_false hc, hall,
        Bool.false_or, decide_eq_decide.mpr hmatch, Bool.decide_and, decide_eq_decide.mpr eq_comm]
      rfl
  · have hno : ¬ Matches n.name s := by
      rintro (rfl | ⟨-, hat⟩)
      · exact hpre (List.prefix_refl _)
      · exact hpre ((List.prefix_append s _).trans hat)
    rw [decide_eq_false hno]
    split
    · rfl
    · rename_i hle
      have htake : n.name.take s.length ≠ s := fun heq => hpre (heq ▸ List.take_prefix ..)
      rw [slice_eq hr (Nat.not_lt.mp hle) (by omega), Option.bind_eq_bind, Option.bind_some,
        if_pos htake]
      rfl

end Names

section Lookup

variable {n : Place} {later : List (Nat × Nat)} {es : List Entry} {ts : List Token}

def seek : Nat → List Entry → Int
  | _, [] => -FDT_ERR_NOTFOUND
  | o, .nop :: es => seek (o + Token.nop.size) es
  | o, .prop _ _ _ :: _ => o

def locate (name : Bytes) : Nat → List Entry → Option (Nat × Bytes)
  | _, [] => none
  | o, .nop :: es => locate name (o + Token.nop.size) es
  | o, .prop nameoff name' value :: es =>
    if name' = name then some (o, value)
    else locate name (o + (Token.prop nameoff value).size) es

theorem locate_lookup (name : Bytes) (o : Nat) (es : List Entry) :
    (locate name o es).map Prod.snd = (es.filterMap Entry.prop?).lookup name := by
  induction es generalizing o with
  | nil => rfl
  | cons e es ih =>
    cases e with
    | nop => exact ih _
    | prop nameoff name' value =>
      have hprops : (Entry.prop nameoff name' value :: es).filterMap Entry.prop? =
          (name', value) :: es.filterMap Entry.prop? := List.filterMap_cons_some rfl
      rw [locate, hprops, List.lookup_cons]
      split
      · rename_i heq
        rw [heq, beq_self_eq_true]
        rfl
      · rename_i hne
        rw [beq_eq_false_iff_ne.mpr (Ne.symm hne)]
        exact ih _

theorem nextprop_nop (hacc : b.Accepted) (hver : 0x10 ≤ b.version) (h : b.Holds o (.nop :: ts)) :
    b.nextprop (fuel + 1) o = b.nextprop fuel ((o + Token.nop.size : Nat) : Int) := by
  rw [nextprop, h.nextTag_eq hacc hver, Option.bind_eq_bind, Option.bind_some]
  dsimp only
  rw [if_neg (by decide), if_neg (by decide), if_pos (by decide)]

theorem nextprop_prop (hacc : b.Accepted) (hver : 0x10 ≤ b.version) {nameoff : Nat} {value : Bytes}
    (h : b.Holds o (.prop nameoff value :: ts)) : b.nextprop (fuel + 1) o = some (o : Int) := by
  rw [nextprop, h.nextTag_eq hacc hver]
  rfl

theorem nextprop_none (hacc : b.Accepted) (hver : 0x10 ≤ b.version) (h : b.Holds o ts)
    (hno : NoProp ts) (hfuel : ts.length ≤ fuel) : b.nextprop fuel o = some (-FDT_ERR_NOTFOUND) := by
  obtain ⟨k, u, us, rfl, hu⟩ := hno
  induction k generalizing o fuel with
  | zero =>
    cases fuel with
    | zero => exact absurd hfuel (Nat.not_succ_le_zero _)
    | succ fuel =>
      have h' : b.Holds o (u :: us) := h
      rw [nextprop, h'.nextTag_eq hacc hver]
      rcases hu with rfl | ⟨name, rfl⟩ <;> rfl
  | succ k ih =>
    cases fuel with
    | zero => exact absurd hfuel (Nat.not_succ_le_zero _)
    | succ fuel =>
      have h' : b.Holds o (.nop :: (nops k ++ u :: us)) := h
      rw [nextprop_nop hacc hver h']
      exact ih h'.tail (Nat.le_of_succ_le_succ hfuel)

theorem Holds.nextprop_eq (hacc : b.Accepted) (hver : 0x10 ≤ b.version)
    (h : b.Holds o (es.map Entry.token ++ ts)) (hno : NoProp ts)
    (hfuel : (es.map Entry.token ++ ts).length ≤ fuel) : b.nextprop fuel o = some (seek o es) := by
  induction es generalizing o fuel with
  | nil => exact nextprop_none hacc hver h hno hfuel
  | cons e es ih =>
    cases fuel with
    | zero => exact absurd hfuel (Nat.not_succ_le_zero _)
    | succ fuel =>
      cases e with
      | nop =>
        rw [nextprop_nop hacc hver h]
        exact ih h.tail (Nat.le_of_succ_le_succ hfuel)
      | prop nameoff name value => exact nextprop_prop hacc hver h

theorem Holds.checkPropOffset_eq (hacc : b.Accepted) (hver : 0x10 ≤ b.version) {nameoff : Nat}
    {value : Bytes} (h : b.Holds o (.prop nameoff value :: ts)) :
    b.checkPropOffset o = some ((o + (Token.prop nameoff value).size : Nat) : Int) := by
  have hal := h.aligned
  rw [checkPropOffset, checkOffset, if_neg (by unfold FDT_TAGSIZE; omega), h.nextTag_eq hacc hver]
  rfl

def AllStored (b : Blob) (es : List Entry) : Prop :=
  ∀ nameoff name value, Entry.prop nameoff name value ∈ es → b.Stored nameoff name

theorem Holds.exists_prop {nameoff : Nat} {value : Bytes} (hacc : b.Accepted)
    (h : b.Holds o (.prop nameoff value :: ts)) :
    b.load (b.offDtStruct + o + 4) = some value.length ∧
      b.load (b.offDtStruct + o + 8) = some nameoff ∧ nameoff < 2 ^ 31 ∧
        ∃ r, b.bytes.drop (b.offDtStruct + o + 12) = value ++ r := by
  obtain ⟨r, hr⟩ := h.exists_drop
  have hok : nameoff < 2 ^ 31 := h.ok _ List.mem_cons_self
  have hin := h.inside
  have hsmall := hacc.small
  have hsize := (Token.prop nameoff value).size_eq
  have hbody := Token.length_prop nameoff value
  rw [length_encode_cons] at hin
  have h4 : b.bytes.drop (b.offDtStruct + o + 4) =
      be32 value.length ++ (be32 nameoff ++ (value ++ r)) := by
    rw [← List.drop_drop, hr, Token.body]
    simp only [List.append_assoc]
    exact List.drop_left' (Token.length_be32 _)
  have h8 : b.bytes.drop (b.offDtStruct + o + 8) = be32 nameoff ++ (value ++ r) := by
    rw [show b.offDtStruct + o + 8 = b.offDtStruct + o + 4 + 4 from rfl, ← List.drop_drop, h4]
    exact List.drop_left' (Token.length_be32 _)
  refine ⟨load_be32 (by omega) h4, load_be32 (by omega) h8, hok, r, ?_⟩
  rw [show b.offDtStruct + o + 12 = b.offDtStruct + o + 8 + 4 from rfl, ← List.drop_drop, h8]
  exact List.drop_left' (Token.length_be32 _)

theorem Holds.propertyLoop_eq (hacc : b.Accepted) (hver : 0x10 ≤ b.version)
    (hmagic : b.magic = FDT_MAGIC) (h : b.Holds o (es.map Entry.token ++ ts)) (hno : NoProp ts)
    (hst : b.AllStored es) (hfuel : es.length < fuel) : b.propertyLoop name fuel (seek o es) =
      some (match locate name o es with
        | none => .error (-FDT_ERR_NOTFOUND)
        | some q => .ok ((q.1 : Int), q.2.length)) := by
  induction es generalizing o fuel with
  | nil =>
    cases fuel with
    | zero => exact absurd hfuel (Nat.not_lt_zero _)
    | succ fuel => rfl
  | cons e es ih =>
    have hst' : b.AllStored es := fun nameoff name value hmem =>
      hst nameoff name value (List.mem_cons_of_mem e hmem)
    cases e with
    | nop => exact ih h.tail hst' (Nat.lt_of_succ_lt hfuel)
    | prop nameoff name' value =>
      cases fuel with
      | zero => exact absurd hfuel (Nat.not_lt_zero _)
      | succ fuel =>
        have h' : b.Holds o (.prop nameoff value :: (es.map Entry.token ++ ts)) := h
        obtain ⟨hlen, hname, hok, -⟩ := h'.exists_prop hacc
        have hptr : ((b.offDtStruct : Int) + o).toNat = b.offDtStruct + o := by omega
        have hint : int (nameoff : Int) = nameoff := int_eq (by omega) (by omega)
        have heq := (hst nameoff name' value List.mem_cons_self).stringEq_eq hacc hmagic name
        have hnext : b.nextPropertyOffset o =
            some (seek (o + (Token.prop nameoff value).size) es) := by
          rw [nextPropertyOffset, h'.checkPropOffset_eq hacc hver, Option.bind_eq_bind,
            Option.bind_some, if_neg (by omega)]
          exact h'.tail.nextprop_eq hacc hver hno (h'.tail.length_le_fuel hacc)
        rw [seek, propertyLoop, if_neg (by omega), h'.checkPropOffset_eq hacc hver,
          Option.bind_eq_bind, Option.bind_some, if_neg (by omega), hptr]
        dsimp only
        rw [hlen, hname, hnext, locate]
        change (b.stringEq (int nameoff) name >>= _) = _
        rw [hint, heq, Option.bind_eq_bind, Option.bind_some]
        simp only [decide_eq_true_eq]
        split
        · rfl
        · exact ih h'.tail hst' (Nat.lt_of_succ_lt_succ hfuel)

end Lookup

/-- The block holds a tree and the names of its properties. -/
structure Written (b : Blob) (t : Dt) : Prop extends b.Contains t where
  magic : b.magic = FDT_MAGIC
  stored : ∀ n ∈ t.nodes, b.AllStored n.entries

section Values

variable {t : Dt} {n : Place} {before post : List Place} {v : Bytes} {es : List Entry}
  {ts : List Token}

theorem Holds.locate_holds {q : Nat × Bytes} (h : b.Holds o (es.map Entry.token ++ ts))
    (hq : locate name o es = some q) : ∃ nameoff us, b.Holds q.1 (.prop nameoff q.2 :: us) := by
  induction es generalizing o with
  | nil => cases hq
  | cons e es ih =>
    cases e with
    | nop => exact ih h.tail hq
    | prop nameoff name' value =>
      rw [locate] at hq
      split at hq
      · cases hq
        exact ⟨nameoff, _, h⟩
      · exact ih h.tail hq

theorem Written.mem (hn : t.nodes = before ++ n :: post) : n ∈ t.nodes :=
  hn ▸ List.mem_append_right before List.mem_cons_self

theorem Written.getPropertyNamelen_eq (h : b.Written t) (hn : t.nodes = before ++ n :: post)
    (name : Bytes) : ∃ (o : Nat) (ts : List Token), b.Holds o (n.entries.map Entry.token ++ ts) ∧
      b.getPropertyNamelen n.offset name = some (match locate name o n.entries with
        | none => .error (-FDT_ERR_NOTFOUND)
        | some q => .ok ((q.1 : Int), q.2.length)) := by
  obtain ⟨ts, hhold, hno, -⟩ := h.sits hn
  have hnext := hhold.tail.nextprop_eq h.accepted h.version hno
    (hhold.tail.length_le_fuel h.accepted)
  have hfuel : n.entries.length < b.fuel := by
    have := hhold.length_le_fuel h.accepted
    rw [List.length_cons, List.length_append, List.length_map] at this
    omega
  refine ⟨_, ts, hhold.tail, ?_⟩
  rw [getPropertyNamelen, firstPropertyOffset, hhold.checkNodeOffset_eq h.accepted h.version,
    Option.bind_eq_bind, Option.bind_eq_bind, Option.bind_some, if_neg (by omega), hnext,
    Option.bind_some]
  exact hhold.tail.propertyLoop_eq h.accepted h.version h.magic hno (h.stored n (mem hn)) hfuel

theorem Written.getprop_none (h : b.Written t) (hn : t.nodes = before ++ n :: post)
    (hname : n.props.lookup name = none) :
    b.getprop n.offset name = some (.error (-FDT_ERR_NOTFOUND)) := by
  obtain ⟨o, ts, hhold, hget⟩ := h.getPropertyNamelen_eq hn name
  have hloc : locate name o n.entries = none := by
    rw [← Option.map_eq_none_iff, locate_lookup]
    exact hname
  rw [getprop, hget, hloc]
  rfl

theorem Written.getprop_some (h : b.Written t) (hn : t.nodes = before ++ n :: post)
    (hname : n.props.lookup name = some v) : ∃ p r,
      b.getprop n.offset name = some (.ok (p, v.length)) ∧ b.bytes.drop p = v ++ r ∧
        p + v.length ≤ b.totalsize := by
  obtain ⟨o, ts, hhold, hget⟩ := h.getPropertyNamelen_eq hn name
  have hloc := locate_lookup name o n.entries
  rw [show (n.entries.filterMap Entry.prop?).lookup name = some v from hname] at hloc
  obtain ⟨⟨o', v'⟩, hq, rfl⟩ := Option.map_eq_some_iff.mp hloc
  obtain ⟨nameoff, us, hprop⟩ := hhold.locate_holds hq
  obtain ⟨-, -, -, r, hr⟩ := hprop.exists_prop h.accepted
  have hptr : ((b.offDtStruct : Int) + o' + 12).toNat = b.offDtStruct + o' + 12 := by omega
  have hver := h.version
  refine ⟨b.offDtStruct + o' + 12, r, ?_, hr, ?_⟩
  · rw [getprop, hget, hq, Option.bind_eq_bind, Option.bind_some]
    dsimp only
    rw [hptr, if_neg (by omega)]
    rfl
  · have hin := hprop.inside
    have hsize := (Token.prop nameoff v').size_eq
    have hbody := Token.length_prop nameoff v'
    rw [length_encode_cons] at hin
    dsimp only at hin ⊢
    omega

end Values

end Blob

end Abydos.Fdt
