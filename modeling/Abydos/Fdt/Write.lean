import Abydos.Fdt.Props

namespace Abydos.Fdt

def Dt.stream (t : Dt) : List Token := t.tokens ++ (nops 0 ++ [.finish])

def Dt.header (t : Dt) (strings : Bytes) : List Nat :=
  let size := (encode t.stream).length
  [FDT_MAGIC, 56 + size + strings.length, 56, 56 + size, 40, 17, 16, 0, strings.length, size]

def Dt.layout (t : Dt) (strings : Bytes) : Bytes :=
  (t.header strings).flatMap be32 ++ (List.replicate 16 0 ++ (encode t.stream ++ strings))

theorem length_flatMap_be32 (l : List Nat) : (l.flatMap be32).length = 4 * l.length := by
  induction l with
  | nil => rfl
  | cons n l ih =>
    rw [List.flatMap_cons, List.length_append, ih, List.length_cons, Token.length_be32]
    omega

theorem length_header (t : Dt) (strings : Bytes) :
    ((t.header strings).flatMap be32).length = 40 := by
  rw [length_flatMap_be32]
  rfl

theorem length_layout (t : Dt) (strings : Bytes) :
    (t.layout strings).length = 56 + (encode t.stream).length + strings.length := by
  rw [Dt.layout, List.length_append, length_header]
  simp only [List.length_append, List.length_replicate]
  omega

def Dt.block (t : Dt) (strings : Bytes) : Blob where
  addr := 0
  bytes := t.layout strings
  header := by
    rw [length_layout]
    omega

def Entry.Named (strings : Bytes) : Entry → Prop
  | .nop => True
  | .prop nameoff name _ => 0 ∉ name ∧ name ++ [0] <+: strings.drop nameoff

instance (strings : Bytes) : (e : Entry) → Decidable (e.Named strings)
  | .nop => isTrue trivial
  | .prop nameoff name _ => inferInstanceAs (Decidable (0 ∉ name ∧ name ++ [0] <+: strings.drop nameoff))

instance : (t : Token) → Decidable t.Ok
  | .beginNode name => inferInstanceAs (Decidable (0 ∉ name))
  | .prop nameoff _ => inferInstanceAs (Decidable (nameoff < 2 ^ 31))
  | .endNode => isTrue trivial
  | .nop => isTrue trivial
  | .finish => isTrue trivial

structure Dt.Fits (t : Dt) (strings : Bytes) : Prop where
  first : t.lead = 0
  tokens : ∀ u ∈ t.tokens, u.Ok
  names : ∀ n ∈ t.nodes, ∀ e ∈ n.entries, e.Named strings
  small : 56 + (encode t.stream).length + strings.length < INT_MAX

theorem Dt.Fits.lt {t : Dt} {strings : Bytes} (h : t.Fits strings) :
    56 + (encode t.stream).length + strings.length < 2 ^ 31 - 1 := h.small

namespace Blob

variable {t : Dt} {strings : Bytes}

theorem getHeader_block {i n : Nat} (hi : (t.header strings)[i]? = some n) (hn : n < 2 ^ 32) :
    (t.block strings).getHeader i = n := by
  have hdrop : ∀ (l : List Nat) (r : Bytes) (i : Nat), l[i]? = some n →
      ∃ r', (l.flatMap be32 ++ r).drop (4 * i) = be32 n ++ r' := by
    intro l r i hi
    induction l generalizing i with
    | nil => cases hi
    | cons m l ih =>
      cases i with
      | zero =>
        cases hi
        exact ⟨l.flatMap be32 ++ r, by rw [Nat.mul_zero, List.drop_zero, List.flatMap_cons, List.append_assoc]⟩
      | succ i =>
        obtain ⟨r', hr'⟩ := ih i hi
        refine ⟨r', ?_⟩
        rw [List.flatMap_cons, List.append_assoc, Nat.mul_succ, Nat.add_comm, ← List.drop_drop,
          List.drop_left' (Token.length_be32 m), hr']
  obtain ⟨r, hr⟩ := hdrop _ (List.replicate 16 0 ++ (encode t.stream ++ strings)) i hi
  have hcell := cell_be32 (r := r) hn
  rw [← hr] at hcell
  obtain ⟨x, hx, hnat⟩ := Option.map_eq_some_iff.mp hcell
  have hbytes : (t.block strings).bytes = (t.header strings).flatMap be32 ++
      (List.replicate 16 0 ++ (encode t.stream ++ strings)) := rfl
  rw [getHeader, hbytes, hx]
  exact hnat

theorem accepted_block (h : t.Fits strings) : (t.block strings).Accepted := by
  have hsmall := h.lt
  have hmagic : (t.block strings).magic = FDT_MAGIC := getHeader_block rfl (by decide)
  have hsize : (t.block strings).totalsize = 56 + (encode t.stream).length + strings.length :=
    getHeader_block rfl (by omega)
  have hver : (t.block strings).version = 17 := getHeader_block rfl (by decide)
  have hcomp : (t.block strings).lastCompVersion = 16 := getHeader_block rfl (by decide)
  have haligned : (t.block strings).addr &&& 7#64 = 0 := show (0#64 &&& 7#64) = 0 by decide
  constructor
  · unfold roProbe
    dsimp only
    rw [if_neg (not_not.mpr haligned), if_pos hmagic, hver, hcomp, if_neg (by decide),
      if_neg (by decide), hsize, if_pos h.small]
    exact Int.natCast_nonneg _
  · rw [hsize, ← length_layout]
    exact Nat.le_refl _

theorem drop_block (t : Dt) (strings : Bytes) :
    (t.block strings).bytes.drop 56 = encode t.stream ++ strings := by
  have hzero : (List.replicate 16 (0 : UInt8)).length = 16 := List.length_replicate
  change ((t.header strings).flatMap be32 ++ _).drop (40 + 16) = _
  rw [← List.drop_drop, List.drop_left' (length_header t strings), List.drop_left' hzero]

theorem written_block (h : t.Fits strings) : (t.block strings).Written t := by
  have hsmall := h.lt
  have hsize : (t.block strings).totalsize = 56 + (encode t.stream).length + strings.length :=
    getHeader_block rfl (by omega)
  have hver : (t.block strings).version = 17 := getHeader_block rfl (by decide)
  have hstruct : (t.block strings).offDtStruct = 56 := getHeader_block rfl (by decide)
  have hoff : (t.block strings).offDtStrings = 56 + (encode t.stream).length :=
    getHeader_block rfl (by omega)
  have hlen : (t.block strings).sizeDtStruct = (encode t.stream).length :=
    getHeader_block rfl (by omega)
  have hstrings : (t.block strings).sizeDtStrings = strings.length := getHeader_block rfl (by omega)
  have hdrop := drop_block t strings
  refine ⟨⟨accepted_block h, by omega, h.first, 0, ?_⟩, getHeader_block rfl (by decide), ?_⟩
  · refine ⟨?_, ?_, fun _ => ?_, rfl, fun u hu => ?_⟩
    · rw [hstruct, Nat.add_zero, hdrop]
      exact List.prefix_append _ _
    · change _ + (encode t.stream).length ≤ _
      omega
    · change _ + (encode t.stream).length ≤ _
      omega
    · rcases List.mem_append.mp hu with hu | hu
      · exact h.tokens u hu
      · rw [List.mem_singleton.mp hu]
        trivial
  · intro n hn nameoff name value hmem
    obtain ⟨hok, hpre⟩ : 0 ∉ name ∧ name ++ [0] <+: strings.drop nameoff := h.names n hn _ hmem
    have hle := hpre.length_le
    rw [List.length_append, List.length_singleton, List.length_drop] at hle
    refine ⟨?_, by omega, fun _ => by omega, hok⟩
    rw [hoff, Nat.add_assoc, ← List.drop_drop, hdrop, ← List.drop_drop, List.drop_left]
    exact hpre

end Blob

def sample : Dt :=
  .node 0 [] [.prop 0 (raw "#address-cells") (be32 1)] [
    .node 0 (raw "aliases") [.prop 15 (raw "serial0") (raw "/soc/uart" ++ [0]),
      .prop 23 (raw "loop") (raw "loop" ++ [0])] [] 0,
    .node 1 (raw "soc") [.nop] [.node 0 (raw "uart@1000") [.prop 28 (raw "phandle") (be32 7)] [] 0] 1] 0

def sampleStrings : Bytes :=
  raw "#address-cells" ++ [0] ++ (raw "serial0" ++ [0] ++ (raw "loop" ++ [0] ++ (raw "phandle" ++ [0])))

theorem sample_fits : sample.Fits sampleStrings where
  first := rfl
  tokens := by decide +kernel
  names := by decide +kernel
  small := by decide +kernel

end Abydos.Fdt
