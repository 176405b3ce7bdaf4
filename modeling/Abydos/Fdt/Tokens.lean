import Abydos.Fdt.Inside

namespace Abydos.Fdt

open Abydos.Lib

def be32 (n : Nat) : Bytes :=
  [UInt8.ofNat (n / 2 ^ 24), UInt8.ofNat (n / 2 ^ 16), UInt8.ofNat (n / 2 ^ 8), UInt8.ofNat n]

def pad (n : Nat) : Bytes := List.replicate ((4 - n % 4) % 4) 0

inductive Token
  | beginNode (name : Bytes)
  | endNode
  | prop (nameoff : Nat) (value : Bytes)
  | nop
  | finish
  deriving DecidableEq

namespace Token

def tag : Token → Nat
  | .beginNode _ => FDT_BEGIN_NODE
  | .endNode => FDT_END_NODE
  | .prop _ _ => FDT_PROP
  | .nop => FDT_NOP
  | .finish => FDT_END

theorem tag_lt (t : Token) : t.tag < 2 ^ 32 := by
  cases t <;> simp [tag, FDT_BEGIN_NODE, FDT_END_NODE, FDT_PROP, FDT_NOP, FDT_END]

def body : Token → Bytes
  | .beginNode name => be32 FDT_BEGIN_NODE ++ (name ++ [0])
  | .prop nameoff value => be32 FDT_PROP ++ (be32 value.length ++ (be32 nameoff ++ value))
  | t => be32 t.tag

def bytes (t : Token) : Bytes := t.body ++ pad t.body.length

def size (t : Token) : Nat := t.bytes.length

def Ok : Token → Prop
  | .beginNode name => 0 ∉ name
  | .prop nameoff _ => nameoff < 2 ^ 31
  | _ => True

theorem size_eq (t : Token) : t.size = t.body.length + (4 - t.body.length % 4) % 4 := by
  rw [size, bytes, List.length_append, pad, List.length_replicate]

theorem size_mod (t : Token) : t.size % 4 = 0 := by
  rw [size_eq]
  omega

@[simp] theorem length_be32 (n : Nat) : (be32 n).length = 4 := rfl

theorem four_le_body (t : Token) : 4 ≤ t.body.length := by
  cases t <;> simp [body]

theorem four_le_size (t : Token) : 4 ≤ t.size := by
  rw [size_eq]
  exact t.four_le_body.trans (Nat.le_add_right _ _)

theorem length_prop (nameoff : Nat) (value : Bytes) :
    (Token.prop nameoff value).body.length = 12 + value.length := by
  simp only [body, List.length_append, length_be32]
  omega

theorem exists_body (t : Token) : ∃ r, t.body = be32 t.tag ++ r := by
  cases t with
  | beginNode name => exact ⟨_, rfl⟩
  | prop nameoff value => exact ⟨_, rfl⟩
  | endNode => exact ⟨[], rfl⟩
  | nop => exact ⟨[], rfl⟩
  | finish => exact ⟨[], rfl⟩

end Token

def encode (ts : List Token) : Bytes := ts.flatMap Token.bytes

@[simp] theorem encode_nil : encode [] = [] := rfl

theorem encode_cons (t : Token) (ts : List Token) : encode (t :: ts) = t.bytes ++ encode ts := rfl

theorem encode_append (ts us : List Token) : encode (ts ++ us) = encode ts ++ encode us :=
  List.flatMap_append

theorem length_encode_cons (t : Token) (ts : List Token) :
    (encode (t :: ts)).length = t.size + (encode ts).length := by
  rw [encode_cons, List.length_append]
  rfl

theorem length_le_encode (ts : List Token) : 4 * ts.length ≤ (encode ts).length := by
  induction ts with
  | nil => exact Nat.le_refl 0
  | cons t ts ih =>
    rw [length_encode_cons, List.length_cons]
    have := t.four_le_size
    omega

theorem cell_be32 {n : Nat} {r : Bytes} (hn : n < 2 ^ 32) :
    (cell (be32 n ++ r)).map BitVec.toNat = some n := by
  obtain ⟨x, hx⟩ := Option.isSome_iff_exists.mp
    (cell_isSome.mpr (show 4 ≤ (be32 n ++ r).length by simp))
  rw [hx, Option.map_some, cell_number hx]
  congr 1
  rw [List.take_left' (by rfl)]
  simp only [be32, number, UInt8.toNat_ofNat', List.length_cons, List.length_nil]
  omega

namespace Blob

variable {b : Blob} {o : Nat} {t : Token} {ts : List Token}

theorem load_be32 {p n : Nat} {r : Bytes} (hn : n < 2 ^ 32) (h : b.bytes.drop p = be32 n ++ r) :
    b.load p = some n := by
  rw [load, h, cell_be32 hn]

/-- The structure block holds the tokens from offset `o` on. -/
structure Holds (b : Blob) (o : Nat) (ts : List Token) : Prop where
  bytes : encode ts <+: b.bytes.drop (b.offDtStruct + o)
  inside : b.offDtStruct + o + (encode ts).length ≤ b.totalsize
  struct : 0x11 ≤ b.version → o + (encode ts).length ≤ b.sizeDtStruct
  aligned : o % 4 = 0
  ok : ∀ t ∈ ts, t.Ok

theorem Holds.tail (h : b.Holds o (t :: ts)) : b.Holds (o + t.size) ts where
  bytes := by
    obtain ⟨r, hr⟩ := h.bytes
    refine ⟨r, ?_⟩
    rw [encode_cons, List.append_assoc] at hr
    rw [← Nat.add_assoc, ← List.drop_drop, ← hr, Token.size, List.drop_left]
  inside := by
    have := h.inside
    rw [length_encode_cons] at this
    omega
  struct hv := by
    have := h.struct hv
    rw [length_encode_cons] at this
    omega
  aligned := by
    have := h.aligned
    have := t.size_mod
    omega
  ok u hu := h.ok u (List.mem_cons_of_mem t hu)

theorem Holds.drop {us : List Token} (h : b.Holds o (us ++ ts)) :
    b.Holds (o + (encode us).length) ts := by
  induction us generalizing o with
  | nil => exact h
  | cons t us ih =>
    have := ih h.tail
    rwa [Nat.add_assoc, ← length_encode_cons] at this

theorem Holds.exists_drop (h : b.Holds o (t :: ts)) :
    ∃ r, b.bytes.drop (b.offDtStruct + o) = t.body ++ r := by
  obtain ⟨r, hr⟩ := h.bytes
  refine ⟨pad t.body.length ++ (encode ts ++ r), ?_⟩
  rw [← hr, encode_cons, Token.bytes]
  simp only [List.append_assoc]

theorem offsetPtr_eq {len : Nat} (hsmall : b.totalsize < 2 ^ 31)
    (hT : b.offDtStruct + o + len ≤ b.totalsize)
    (hstruct : 0x11 ≤ b.version → o + len ≤ b.sizeDtStruct) :
    b.offsetPtr o len = some (b.offDtStruct + o) := by
  unfold offsetPtr uint
  dsimp only
  rw [if_neg (by omega), if_neg (by omega), if_neg (by omega)]
  congr 1

theorem Holds.offsetPtr_eq (hacc : b.Accepted) (h : b.Holds o (t :: ts)) (k len : Nat)
    (hk : k + len ≤ t.size) : b.offsetPtr ((o + k : Nat) : Int) len = some (b.offDtStruct + (o + k)) := by
  have hsmall := hacc.small
  have hin := h.inside
  have hst := h.struct
  rw [length_encode_cons] at hin hst
  exact Blob.offsetPtr_eq (by omega) (by omega) fun hv => by have := hst hv; omega

theorem byte_eq {p : Nat} {c : UInt8} {r : Bytes} (h : b.bytes.drop p = c :: r) :
    b.byte p = some c := by
  have h0 := congrArg (·[0]?) h
  simp only [List.getElem?_drop, List.getElem?_cons_zero, Nat.add_zero] at h0
  exact h0

theorem drop_succ {p : Nat} {c : UInt8} {r : Bytes} (h : b.bytes.drop p = c :: r) :
    b.bytes.drop (p + 1) = r := by
  rw [← List.drop_drop, h]
  rfl

theorem skipName_eq (hsmall : b.totalsize < 2 ^ 31 - 1) {name r : Bytes} {fuel : Nat}
    (hdrop : b.bytes.drop (b.offDtStruct + o) = name ++ 0 :: r) (hname : 0 ∉ name)
    (hT : b.offDtStruct + o + name.length + 1 ≤ b.totalsize)
    (hstruct : 0x11 ≤ b.version → o + name.length + 1 ≤ b.sizeDtStruct)
    (hfuel : name.length < fuel) :
    b.skipName fuel o = some (true, ((o + name.length + 1 : Nat) : Int)) := by
  have hptr : b.offsetPtr o 1 = some (b.offDtStruct + o) :=
    Blob.offsetPtr_eq (by omega) (by omega) fun hv => by have := hstruct hv; omega
  have hint : int ((o : Int) + 1) = ((o + 1 : Nat) : Int) := int_eq (by omega) (by omega)
  induction name generalizing o fuel with
  | nil =>
    cases fuel with
    | zero => exact absurd hfuel (Nat.not_lt_zero _)
    | succ fuel =>
      rw [skipName, hptr, hint]
      dsimp only
      rw [byte_eq hdrop]
      rfl
  | cons c name ih =>
    cases fuel with
    | zero => exact absurd hfuel (Nat.not_lt_zero _)
    | succ fuel =>
      rw [List.length_cons] at hT hstruct hfuel
      have hc : c ≠ 0 := fun h => hname (h ▸ List.mem_cons_self)
      rw [skipName, hptr, hint]
      dsimp only
      have hrest := ih (o := o + 1) (drop_succ hdrop) (fun h => hname (List.mem_cons_of_mem c h))
        (by omega) (fun hv => by have := hstruct hv; omega) (Nat.lt_of_succ_lt_succ hfuel)
        (Blob.offsetPtr_eq (by omega) (by omega) fun hv => by have := hstruct hv; omega)
        (int_eq (by omega) (by omega))
      rw [byte_eq hdrop, Option.bind_eq_bind, Option.bind_some, if_pos hc, hrest, List.length_cons,
        Nat.add_right_comm o 1, Nat.add_assoc o]

theorem Holds.tagalign_eq (hacc : b.Accepted) (h : b.Holds o (t :: ts)) :
    tagalign ((o + t.body.length : Nat) : Int) = ((o + t.size : Nat) : Int) := by
  have hin := h.inside
  have hsmall := hacc.small
  have hal := h.aligned
  rw [length_encode_cons, t.size_eq] at hin
  rw [t.size_eq]
  unfold tagalign
  rw [int_eq (by omega) (by omega)]
  omega

theorem Holds.finishTag_eq (hacc : b.Accepted) (h : b.Holds o (t :: ts)) :
    b.finishTag o t.tag ((o + t.body.length : Nat) : Int) = (t.tag, ((o + t.size : Nat) : Int)) := by
  have hin := h.inside
  have hsmall := hacc.small
  have hsize := t.size_eq
  rw [length_encode_cons] at hin
  have hlen : uint (((o + t.body.length : Nat) : Int) - o) = t.body.length := by
    unfold uint
    omega
  have hptr : b.offsetPtr o t.body.length = some (b.offDtStruct + o) :=
    h.offsetPtr_eq hacc 0 t.body.length (by omega)
  rw [finishTag, hlen, hptr, h.tagalign_eq hacc]
  rfl

theorem Holds.nodeTag_eq (hacc : b.Accepted) {name : Bytes}
    (h : b.Holds o (.beginNode name :: ts)) :
    b.nodeTag o ((o + 4 : Nat) : Int) =
      some (FDT_BEGIN_NODE, ((o + (Token.beginNode name).size : Nat) : Int)) := by
  have hin := h.inside
  have hstruct := h.struct
  have hsmall := hacc.small
  have hsize := (Token.beginNode name).size_eq
  rw [length_encode_cons] at hin hstruct
  obtain ⟨r, hr⟩ := h.exists_drop
  have hlen : (Token.beginNode name).body.length = 4 + name.length + 1 := by
    simp [Token.body, Nat.add_assoc]
  have hdrop : b.bytes.drop (b.offDtStruct + (o + 4)) = name ++ 0 :: r := by
    rw [← Nat.add_assoc, ← List.drop_drop, hr, Token.body, List.append_assoc,
      List.drop_left' (Token.length_be32 _), List.append_assoc]
    rfl
  have hname : b.skipName b.fuel ((o + 4 : Nat) : Int) =
      some (true, ((o + 4 + name.length + 1 : Nat) : Int)) := by
    refine skipName_eq hsmall hdrop (h.ok _ List.mem_cons_self) (by omega) (fun hv => ?_) ?_
    · have := hstruct hv
      omega
    · have := hacc.whole
      unfold fuel
      omega
  have hfinish := h.finishTag_eq hacc
  rw [hlen, ← Nat.add_assoc, ← Nat.add_assoc] at hfinish
  rw [nodeTag, hname]
  exact congrArg some hfinish

theorem Holds.propTag_eq (hacc : b.Accepted) (hver : 0x10 ≤ b.version) {nameoff : Nat} {value : Bytes}
    (h : b.Holds o (.prop nameoff value :: ts)) :
    b.propTag o ((o + 4 : Nat) : Int) =
      some (FDT_PROP, ((o + (Token.prop nameoff value).size : Nat) : Int)) := by
  have hin := h.inside
  have hsmall := hacc.small
  have hsize := (Token.prop nameoff value).size_eq
  rw [length_encode_cons] at hin
  obtain ⟨r, hr⟩ := h.exists_drop
  have hlen := Token.length_prop nameoff value
  have hdrop : b.bytes.drop (b.offDtStruct + (o + 4)) =
      be32 value.length ++ (be32 nameoff ++ (value ++ r)) := by
    rw [← Nat.add_assoc, ← List.drop_drop, hr, Token.body]
    simp only [List.append_assoc]
    exact List.drop_left' (Token.length_be32 _)
  have hend : b.propEnd ((o + 4 : Nat) : Int) value.length =
      ((o + (12 + value.length) : Nat) : Int) := by
    have hold : b.realign o value.length = 0 := if_neg fun hc => absurd hc.1 (by omega)
    rw [Nat.cast_add, Nat.cast_ofNat, propEnd_eq (by omega) (by omega), hold]
    omega
  have hfinish := h.finishTag_eq hacc
  have hsum : ¬ (INT_MAX ≤ uint (value.length + ((o + 4 : Nat) : Int)) ∨
      uint (value.length + ((o + 4 : Nat) : Int)) < uint ((o + 4 : Nat) : Int)) := by
    unfold uint INT_MAX
    omega
  rw [hlen] at hfinish
  rw [propTag, h.offsetPtr_eq hacc 4 4 (by omega)]
  change (b.load _ >>= _) = _
  rw [load_be32 (by omega) hdrop, Option.bind_eq_bind, Option.bind_some, if_neg hsum, hend]
  exact congrArg some hfinish

theorem Holds.nextTag_eq (hacc : b.Accepted) (hver : 0x10 ≤ b.version) (h : b.Holds o (t :: ts)) :
    b.nextTag o = some (t.tag, ((o + t.size : Nat) : Int)) := by
  have hin := h.inside
  have hsmall := hacc.small
  have h4 := t.four_le_size
  rw [length_encode_cons] at hin
  obtain ⟨r, hr⟩ := h.exists_drop
  obtain ⟨r', hr'⟩ := t.exists_body
  rw [hr', List.append_assoc] at hr
  have hptr : b.offsetPtr o FDT_TAGSIZE = some (b.offDtStruct + o) :=
    h.offsetPtr_eq hacc 0 4 t.four_le_size
  have hint : int ((o : Int) + FDT_TAGSIZE) = ((o + 4 : Nat) : Int) := by
    unfold FDT_TAGSIZE
    exact int_eq (by omega) (by omega)
  have hfinish := h.finishTag_eq hacc
  rw [nextTag, hptr]
  change (b.load _ >>= _) = _
  rw [load_be32 t.tag_lt hr, hint, Option.bind_eq_bind, Option.bind_some, skipTag]
  cases t with
  | beginNode name =>
    rw [if_pos (show (Token.beginNode name).tag = FDT_BEGIN_NODE from rfl)]
    exact h.nodeTag_eq hacc
  | prop nameoff value =>
    have hbegin : (Token.prop nameoff value).tag ≠ FDT_BEGIN_NODE :=
      show FDT_PROP ≠ FDT_BEGIN_NODE by decide
    rw [if_neg hbegin, if_pos (show (Token.prop nameoff value).tag = FDT_PROP from rfl)]
    exact h.propTag_eq hacc hver
  | endNode =>
    rw [if_neg (by decide), if_neg (by decide), if_pos (by decide)]
    exact congrArg some hfinish
  | nop =>
    rw [if_neg (by decide), if_neg (by decide), if_pos (by decide)]
    exact congrArg some hfinish
  | finish =>
    rw [if_neg (by decide), if_neg (by decide), if_pos (by decide)]
    exact congrArg some hfinish

end Blob

end Abydos.Fdt
