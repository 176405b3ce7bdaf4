import Abydos.Fdt.Blob
import Abydos.Lib.Partial

namespace Abydos.Fdt

open Abydos.Lib

theorem int_eq {x : Int} (hlo : -2 ^ 31 ≤ x) (hhi : x < 2 ^ 31) : int x = x := by
  unfold int
  omega

theorem int_range (x : Int) : -2 ^ 31 ≤ int x ∧ int x < 2 ^ 31 := by
  unfold int
  omega

theorem uint_lt (x : Int) : uint x < 2 ^ 32 := by
  unfold uint
  omega

theorem uint_eq {x : Int} (hlo : 0 ≤ x) (hhi : x < 2 ^ 32) : uint x = x.toNat := by
  unfold uint
  omega

namespace Blob

variable {b : Blob} {offset next : Int} {p len tag : Nat}

theorem getHeader_lt (b : Blob) (field : Nat) : b.getHeader field < 2 ^ 32 := BitVec.isLt _

theorem offDtStruct_lt (b : Blob) : b.offDtStruct < 2 ^ 32 := b.getHeader_lt 2

theorem totalsize_lt (b : Blob) : b.totalsize < 2 ^ 32 := b.getHeader_lt 1

/-- A header that `fdt_ro_probe_` accepts, on a block that is as long as it says. -/
structure Accepted (b : Blob) : Prop where
  probe : 0 ≤ b.roProbe
  whole : b.totalsize ≤ b.bytes.length

theorem roProbe_cases (b : Blob) :
    b.roProbe < 0 ∨ b.roProbe = b.totalsize ∧ b.totalsize < INT_MAX ∧
      (b.magic = FDT_MAGIC ∨ b.magic = FDT_SW_MAGIC) := by
  unfold roProbe FDT_ERR_TRUNCATED FDT_ERR_ALIGNMENT FDT_ERR_BADVERSION FDT_ERR_BADSTATE
    FDT_ERR_BADMAGIC
  dsimp only
  split_ifs <;> simp_all

theorem Accepted.small (h : b.Accepted) : b.totalsize < 2 ^ 31 - 1 := by
  rcases b.roProbe_cases with hneg | ⟨-, hsize, -⟩
  · exact absurd h.probe (by omega)
  · exact hsize

theorem Accepted.probe_eq (h : b.Accepted) : b.roProbe = b.totalsize := by
  rcases b.roProbe_cases with hneg | ⟨heq, -, -⟩
  · exact absurd h.probe (by omega)
  · exact heq

section Loads

theorem byte_returns (h : p < b.bytes.length) : Returns (b.byte p) fun _ => True :=
  ⟨b.bytes[p], List.getElem?_eq_getElem h, trivial⟩

theorem load_returns (h : p + 4 ≤ b.bytes.length) : Returns (b.load p) fun x => x < 2 ^ 32 := by
  obtain ⟨x, hx⟩ := Option.isSome_iff_exists.mp
    (cell_isSome.mpr (show 4 ≤ (b.bytes.drop p).length by rw [List.length_drop]; omega))
  exact ⟨x.toNat, by rw [load, hx]; rfl, x.isLt⟩

theorem slice_returns (h : p + len ≤ b.bytes.length) :
    Returns (b.slice p len) fun s => s.length = len := by
  refine .of_eq (if_pos h) ?_
  rw [List.length_take, List.length_drop]
  omega

theorem length_takeWhile_le {l : Bytes} {q : UInt8 → Bool} {i : Nat} {c : UInt8}
    (h : l[i]? = some c) (hc : q c = false) : (l.takeWhile q).length ≤ i := by
  induction l generalizing i with
  | nil => exact Nat.zero_le _
  | cons a l ih =>
    cases i with
    | zero =>
      cases h
      rw [List.takeWhile_cons_of_neg (by rw [hc]; decide)]
      exact Nat.le_refl 0
    | succ i =>
      have hl := ih (show l[i]? = some c from h)
      rw [List.takeWhile_cons]
      split
      · exact Nat.succ_le_succ hl
      · exact Nat.zero_le _

theorem strlen_returns {z : Nat} (hp : p ≤ z) (hz : b.bytes[z]? = some 0) :
    Returns (b.strlen p) fun n => p + n ≤ z := by
  have hzlen : z < b.bytes.length := (List.getElem?_eq_some_iff.mp hz).1
  have hget : (b.bytes.drop p)[z - p]? = some 0 := by
    rw [List.getElem?_drop, Nat.add_sub_cancel' hp, hz]
  have hshort := length_takeWhile_le (q := (· ≠ 0)) hget rfl
  exact .of_eq (if_pos (by omega)) (by omega)

theorem memchr0_returns (h : p + len ≤ b.bytes.length) :
    Returns (b.memchr0 p len) fun r => ∀ n ∈ r, n < len := by
  have hle : (((b.bytes.drop p).take len).takeWhile (· ≠ 0)).length ≤ len :=
    (List.takeWhile_prefix _).length_le.trans (List.length_take_le _ _)
  unfold memchr0
  dsimp only
  refine .ite (fun _ => .pure (by simp)) fun hne => ?_
  refine .of_eq (if_pos (by omega)) ?_
  rintro n ⟨⟩
  omega

end Loads

section Tags

theorem offsetPtr_some (ho : offset < 2 ^ 31) (hl : len < 2 ^ 32)
    (h : b.offsetPtr offset len = some p) :
    0 ≤ offset ∧ p = b.offDtStruct + offset.toNat ∧ p + len ≤ b.totalsize := by
  have hS := b.offDtStruct_lt
  have hT := b.totalsize_lt
  unfold offsetPtr uint at h
  dsimp only at h
  split at h
  · cases h
  · split at h
    · cases h
    · split at h
      · cases h
      · cases h
        omega

theorem skipName_returns (hacc : b.Accepted) {fuel : Nat} (h0 : 0 ≤ offset)
    (hT : offset ≤ b.totalsize) (hfuel : b.totalsize < offset + fuel) :
    Returns (b.skipName fuel offset) fun r => offset < r.2 ∧ r.2 ≤ b.totalsize + 1 ∧
      (r.1 = true → ∃ z : Nat, b.offDtStruct + offset ≤ z ∧ (z : Int) < b.offDtStruct + r.2 ∧
        b.bytes[z]? = some 0) := by
  have hsmall := hacc.small
  induction fuel generalizing offset with
  | zero => omega
  | succ fuel ih =>
    have hint : int (offset + 1) = offset + 1 := int_eq (by omega) (by omega)
    unfold skipName
    rw [hint]
    cases hp : b.offsetPtr offset 1 with
    | none => exact .pure ⟨by omega, by omega, by simp⟩
    | some p =>
      obtain ⟨-, hpeq, hpT⟩ := offsetPtr_some (by omega) (by decide) hp
      refine .bind (byte_returns (by have := hacc.whole; omega)) fun c hc _ => ?_
      refine .ite (fun _ => ?_) fun hzero => ?_
      · refine (ih (by omega) (by omega) (by omega)).mono fun r ⟨hlt, hle, hz⟩ => ?_
        refine ⟨by omega, hle, fun hfound => ?_⟩
        obtain ⟨z, hlo, hhi, hz⟩ := hz hfound
        exact ⟨z, by omega, hhi, hz⟩
      · refine .pure ⟨by dsimp only; omega, by dsimp only; omega, fun _ => ⟨p, ?_, ?_, ?_⟩⟩
        · omega
        · dsimp only
          omega
        · rw [show b.bytes[p]? = some c from hc, not_ne_iff.mp hzero]

structure TagInside (b : Blob) (offset : Int) (tag : Nat) (next : Int) : Prop where
  nonneg : 0 ≤ offset
  room : b.offDtStruct + offset + 4 ≤ b.totalsize
  moves : 0 ≤ next → offset + 4 ≤ next
  inside : next ≤ b.totalsize + 3 ∧ next < 2 ^ 31
  name : tag = FDT_BEGIN_NODE → ∃ z : Nat, b.offDtStruct + offset + 4 ≤ z ∧ b.bytes[z]? = some 0
  value : tag = FDT_PROP → ∃ len, b.load (b.offDtStruct + offset.toNat + 4) = some len ∧
    b.offDtStruct + offset + 12 + len ≤ b.totalsize ∧
      (b.version < 0x10 → 8 ≤ len → (offset + 12) % 8 ≠ 0 →
        b.offDtStruct + offset + 16 + len ≤ b.totalsize)

theorem tagalign_bounds {x : Int} (h0 : 0 ≤ x) (hx : x < 2 ^ 31) :
    (0 ≤ tagalign x → x ≤ tagalign x) ∧ tagalign x ≤ x + 3 ∧ tagalign x < 2 ^ 31 := by
  unfold tagalign int
  omega

def realign (b : Blob) (offset : Int) (len : Nat) : Nat :=
  if b.version < 0x10 ∧ 8 ≤ len ∧ (offset + 12) % 8 ≠ 0 then 4 else 0

theorem propEnd_distance (h0 : 0 ≤ offset) (hlen : offset + 4 + len < 2 ^ 31) :
    uint (b.propEnd (offset + 4) len - offset) = 12 + len + b.realign offset len := by
  have hmod : uint (int (offset + 4 + 8 + len) - len) % 8 ≠ 0 ↔ (offset + 12) % 8 ≠ 0 := by
    unfold uint int
    omega
  unfold propEnd realign
  simp only [hmod]
  split <;> unfold uint int <;> omega

theorem propEnd_eq (h0 : 0 ≤ offset) (hlen : offset + 12 + len + b.realign offset len < 2 ^ 31) :
    b.propEnd (offset + 4) len = offset + 12 + len + b.realign offset len := by
  have hdist : uint (b.propEnd (offset + 4) len - offset) = _ := propEnd_distance h0 (by omega)
  have hrange : -2 ^ 31 ≤ b.propEnd (offset + 4) len ∧ b.propEnd (offset + 4) len < 2 ^ 31 := by
    unfold propEnd
    dsimp only
    split <;> exact int_range _
  unfold uint at hdist
  omega

def TagRead (b : Blob) (offset : Int) (r : Nat × Int) : Prop :=
  r.1 = FDT_END ∧ r.2 < 0 ∨ b.TagInside offset r.1 r.2

theorem tagRead_bad : b.TagRead offset badTag := .inl ⟨rfl, by decide⟩

theorem finish_tagRead {stop : Int} (ho : offset < 2 ^ 31)
    (h : 0 ≤ offset → b.offDtStruct + offset + uint (stop - offset) ≤ b.totalsize →
      b.TagInside offset tag (tagalign stop)) :
    b.TagRead offset (b.finishTag offset tag stop) := by
  unfold finishTag
  split
  · exact tagRead_bad
  · rename_i hp
    obtain ⟨p, hp⟩ := Option.ne_none_iff_exists'.mp (mt Option.isNone_iff_eq_none.mpr hp)
    obtain ⟨h0, hpeq, hpT⟩ := offsetPtr_some ho (uint_lt _) hp
    exact .inr (h h0 (by omega))

theorem nodeTag_returns (hacc : b.Accepted) (h0 : 0 ≤ offset)
    (hT : b.offDtStruct + offset + 4 ≤ b.totalsize) :
    Returns (b.nodeTag offset (offset + 4)) (b.TagRead offset) := by
  have hsmall := hacc.small
  have hwhole := hacc.whole
  refine .bind (skipName_returns hacc (by omega) (by omega) ?_) fun r _ ⟨hlt, hle, hz⟩ => ?_
  · unfold fuel
    omega
  · obtain ⟨found, stop⟩ := r
    dsimp only at hlt hle hz
    refine .pure ?_
    cases found with
    | false => exact tagRead_bad
    | true =>
      refine finish_tagRead (by omega) fun _ hin => ?_
      rw [uint_eq (by omega) (by omega)] at hin
      have halign := tagalign_bounds (x := stop) (by omega) (by omega)
      refine ⟨h0, by omega, by omega, by omega, fun _ => ?_, fun hp => absurd hp (by decide)⟩
      obtain ⟨z, hlo, -, hz⟩ := hz rfl
      exact ⟨z, by omega, hz⟩

theorem propTag_returns (hacc : b.Accepted) (h0 : 0 ≤ offset)
    (hT : b.offDtStruct + offset + 4 ≤ b.totalsize) :
    Returns (b.propTag offset (offset + 4)) (b.TagRead offset) := by
  have hsmall := hacc.small
  have hwhole := hacc.whole
  unfold propTag
  cases hlenp : b.offsetPtr (offset + 4) 4 with
  | none => exact .pure tagRead_bad
  | some lenp =>
    obtain ⟨-, rfl, hT8⟩ := offsetPtr_some (by omega) (by decide) hlenp
    refine .bind (load_returns (by omega)) fun len hload hlen => .ite (fun _ => .pure tagRead_bad)
      fun hsum => .pure (finish_tagRead (by omega) fun _ hin => ?_)
    have hfit : offset + 4 + len < 2 ^ 31 := by
      unfold uint INT_MAX at hsum
      omega
    rw [propEnd_distance h0 hfit] at hin
    have hend : b.propEnd (offset + 4) len = _ := propEnd_eq h0 (by omega)
    have halign := tagalign_bounds (x := b.propEnd (offset + 4) len) (by omega) (by omega)
    refine ⟨h0, by omega, by omega, by omega, fun hb => absurd hb (by decide), fun _ =>
      ⟨len, ?_, by omega, fun hver h8 hmod => ?_⟩⟩
    · rw [← hload]
      congr 1
      omega
    · rw [realign, if_pos ⟨hver, h8, hmod⟩] at hin
      omega

theorem nextTag_returns (hacc : b.Accepted) (ho : offset < 2 ^ 31) :
    Returns (b.nextTag offset) (b.TagRead offset) := by
  have hsmall := hacc.small
  have hwhole := hacc.whole
  unfold nextTag
  cases htag : b.offsetPtr offset FDT_TAGSIZE with
  | none => exact .pure (.inl ⟨rfl, by decide⟩)
  | some tagp =>
    obtain ⟨h0, rfl, hT⟩ := offsetPtr_some ho (by decide) htag
    have hT4 : b.offDtStruct + offset.toNat + 4 ≤ b.totalsize := hT
    have hint : int (offset + FDT_TAGSIZE) = offset + 4 := int_eq (by unfold FDT_TAGSIZE; omega)
      (by unfold FDT_TAGSIZE; omega)
    refine .bind (load_returns (by omega)) fun tag _ _ => ?_
    rw [hint]
    refine .ite (fun hbegin => ?_) fun hbegin => .ite (fun hprop => ?_) fun hprop =>
      .ite (fun hother => ?_) fun _ => .pure tagRead_bad
    · exact nodeTag_returns hacc h0 (by omega)
    · exact propTag_returns hacc h0 (by omega)
    · refine .pure (finish_tagRead ho fun _ hin => ?_)
      have halign := tagalign_bounds (x := offset + 4) (by omega) (by omega)
      exact ⟨h0, by omega, by omega, by omega, fun hb => absurd hb hbegin, fun hp => absurd hp hprop⟩

end Tags

section Walk

def Onward (b : Blob) (offset next : Int) : Prop :=
  next < 0 ∨ offset + 4 ≤ next ∧ next ≤ b.totalsize + 3 ∧ next < 2 ^ 31

theorem Onward.lt (h : b.Onward offset next) : next < 2 ^ 31 := by
  unfold Onward at h
  omega

theorem Onward.trans {next' : Int} (h : b.Onward offset next) (h0 : 0 ≤ next)
    (h' : b.Onward next next') : b.Onward offset next' := by
  unfold Onward at h h' ⊢
  omega

theorem TagInside.onward (h : b.TagInside offset tag next) : b.Onward offset next := by
  have := h.moves
  have := h.inside
  unfold Onward
  omega

def Enough (b : Blob) (fuel : Nat) (offset : Int) : Prop :=
  0 < fuel ∧ (0 ≤ offset → 2 ≤ fuel ∧ b.totalsize + 8 ≤ offset + 4 * fuel)

theorem Enough.step {fuel : Nat} (h : b.Enough (fuel + 1) offset) (h0 : 0 ≤ offset)
    (hnext : b.Onward offset next) : b.Enough fuel next := by
  unfold Enough at h ⊢
  unfold Onward at hnext
  omega

theorem Accepted.enough (hacc : b.Accepted) (offset : Int) : b.Enough b.fuel offset := by
  have := hacc.whole
  have := b.header
  unfold Enough fuel
  omega

theorem checkOffset_returns (hacc : b.Accepted) (ho : offset < 2 ^ 31) (htag : tag ≠ FDT_END) :
    Returns (b.checkOffset tag offset) fun next => next < 0 ∨ b.TagInside offset tag next := by
  unfold checkOffset
  refine .ite (fun _ => .pure (.inl (by decide))) fun _ => ?_
  refine .bind (nextTag_returns hacc ho) fun r _ hr => ?_
  obtain ⟨tag', next⟩ := r
  dsimp only
  refine .pure ?_
  split
  · exact .inl (by decide)
  · rename_i heq
    rcases hr with ⟨hend, -⟩ | hin
    · exact absurd ((not_ne_iff.mp heq).symm.trans hend) htag
    · exact .inr (not_ne_iff.mp heq ▸ hin)

theorem nextNodeLoop_returns (hacc : b.Accepted) {fuel : Nat} {depth : Option Int}
    (ho : offset < 2 ^ 31) (hfuel : b.Enough fuel offset) :
    Returns (b.nextNodeLoop fuel offset depth) fun r =>
      r.1 < 0 ∨ 0 ≤ offset ∧ offset ≤ r.1 ∧ r.1 ≤ b.totalsize + 3 ∧ r.1 < 2 ^ 31 := by
  induction fuel generalizing offset depth with
  | zero => exact absurd hfuel.1 (Nat.lt_irrefl 0)
  | succ fuel ih =>
    unfold nextNodeLoop
    refine .bind (nextTag_returns hacc ho) fun r _ hr => ?_
    obtain ⟨tag, next⟩ := r
    -- one more turn ends where the rest of the loop does
    have hmore : ∀ depth', b.TagInside offset tag next →
        Returns (b.nextNodeLoop fuel next depth') fun r =>
          r.1 < 0 ∨ 0 ≤ offset ∧ offset ≤ r.1 ∧ r.1 ≤ b.totalsize + 3 ∧ r.1 < 2 ^ 31 := by
      intro depth' hin
      refine (ih hin.onward.lt (hfuel.step hin.nonneg hin.onward)).mono fun r hr => ?_
      have := hin.nonneg
      have := hin.moves
      omega
    dsimp only
    rcases hr with ⟨rfl, hneg⟩ | hin
    · refine .ite (fun h => absurd h (by decide)) fun _ => .ite (fun h => absurd h (by decide))
        fun _ => .ite (fun _ => ?_) fun h => absurd rfl h
      exact .ite (fun _ => .pure (.inl (show -FDT_ERR_NOTFOUND < 0 by decide))) fun _ =>
        .pure (.inl hneg)
    · have hoff : 0 ≤ offset ∧ offset ≤ b.totalsize + 3 := by
        have := hin.nonneg
        have := hin.room
        omega
      have hnext := hin.onward
      unfold Onward at hnext
      refine .ite (fun _ => .pure (.inr ⟨hoff.1, by omega⟩)) fun _ => .ite (fun _ => ?_) fun _ =>
        .ite (fun _ => ?_) fun _ => hmore _ hin
      · exact .ite (fun _ => .pure (by dsimp only; omega)) fun _ => hmore _ hin
      · exact .ite (fun _ => .pure (.inl (show -FDT_ERR_NOTFOUND < 0 by decide))) fun _ =>
          .pure (by dsimp only; omega)

theorem nextNode_returns (hacc : b.Accepted) {depth : Option Int} (ho : offset < 2 ^ 31) :
    Returns (b.nextNode offset depth) fun r =>
      r.1 < 0 ∨ (0 ≤ offset → b.Onward offset r.1) ∧ r.1 ≤ b.totalsize + 3 ∧ r.1 < 2 ^ 31 := by
  unfold nextNode
  refine .ite (fun h0 => ?_) fun hneg => ?_
  · refine .bind (checkOffset_returns hacc ho (by decide)) fun next _ hnext => ?_
    refine .ite (fun hlt => .pure (.inl hlt)) fun hge => ?_
    rcases hnext with hlt | hin
    · exact absurd hlt hge
    · refine (nextNodeLoop_returns hacc hin.onward.lt (hacc.enough _)).mono fun r hr => ?_
      have := hin.moves
      unfold Onward
      omega
  · exact (nextNodeLoop_returns hacc (by decide) (hacc.enough _)).mono fun r hr => by omega

theorem nextNode_onward (hacc : b.Accepted) {depth : Option Int} (ho : offset < 2 ^ 31)
    (h0 : 0 ≤ offset) : Returns (b.nextNode offset depth) fun r => b.Onward offset r.1 := by
  refine (nextNode_returns hacc ho).mono fun r hr => ?_
  rcases hr with hneg | ⟨hon, -⟩
  · exact .inl hneg
  · exact hon h0

theorem firstSubnode_returns (hacc : b.Accepted) (ho : offset < 2 ^ 31) :
    Returns (b.firstSubnode offset) fun r => r < 2 ^ 31 := by
  refine .bind (nextNode_returns hacc ho) fun r _ hr => .pure ?_
  split
  · decide
  · omega

theorem nextSubnodeLoop_returns (hacc : b.Accepted) {fuel : Nat} {depth : Int}
    (ho : offset < 2 ^ 31) (hfuel : b.Enough fuel offset) (h0 : 0 ≤ offset) :
    Returns (b.nextSubnodeLoop fuel offset depth) fun r => b.Onward offset r := by
  induction fuel generalizing offset depth with
  | zero => exact absurd hfuel.1 (Nat.lt_irrefl 0)
  | succ fuel ih =>
    unfold nextSubnodeLoop
    refine .bind (nextNode_onward hacc ho h0) fun r _ hon => ?_
    dsimp only
    refine .ite (fun _ => .pure (.inl (by decide))) fun hstop => .ite (fun _ => ?_) fun _ => .pure hon
    refine (ih hon.lt (hfuel.step h0 hon) (by omega)).mono fun r' hon' => ?_
    exact hon.trans (by omega) hon'

theorem eachSubnodeLoop_returns (hacc : b.Accepted) {fuel : Nat} (ho : offset < 2 ^ 31)
    (hfuel : b.Enough fuel offset) : Returns (b.eachSubnodeLoop fuel offset) fun _ => True := by
  induction fuel generalizing offset with
  | zero => exact absurd hfuel.1 (Nat.lt_irrefl 0)
  | succ fuel ih =>
    unfold eachSubnodeLoop
    refine .ite (fun _ => .pure trivial) fun hge => ?_
    have h0 : 0 ≤ offset := Int.not_lt.mp hge
    refine .bind (nextSubnodeLoop_returns hacc ho (hacc.enough _) h0) fun r _ hon => ?_
    exact .bind (ih hon.lt (hfuel.step h0 hon)) fun _ _ _ => .pure trivial

theorem eachSubnode_returns (hacc : b.Accepted) (ho : offset < 2 ^ 31) :
    Returns (b.eachSubnode offset) fun _ => True :=
  .bind (firstSubnode_returns hacc ho) fun _ _ hr => eachSubnodeLoop_returns hacc hr (hacc.enough _)

end Walk

section Strings

theorem getName_returns (hacc : b.Accepted) (ho : offset < 2 ^ 31) :
    Returns (b.getName offset) fun r => ∀ q ∈ r.toOption, q.1 + q.2 < b.bytes.length := by
  unfold getName
  refine .ite (fun _ => .pure (by simp [Except.toOption])) fun _ => ?_
  refine .bind (checkOffset_returns hacc ho (by decide)) fun next _ hnext => ?_
  refine .ite (fun _ => .pure (by simp [Except.toOption])) fun hge => ?_
  have hin := hnext.resolve_left hge
  obtain ⟨z, hlo, hz⟩ := hin.name rfl
  have hzlen : z < b.bytes.length := (List.getElem?_eq_some_iff.mp hz).1
  have h0 := hin.nonneg
  refine .bind (strlen_returns (by omega) hz) fun len _ hlen => .ite (fun _ => ?_) fun _ => .pure ?_
  · -- the name after the last slash is a part of the whole
    refine .bind (slice_returns (by omega)) fun name _ hname => .pure ?_
    have hleaf : (name.reverse.takeWhile (· ≠ slash)).length ≤ len := by
      rw [← hname, ← name.length_reverse]
      exact (List.takeWhile_prefix _).length_le
    split
    · simp [Except.toOption]
    · rintro q ⟨⟩
      dsimp only
      omega
  · rintro q ⟨⟩
    dsimp only
    omega

theorem nodenameEq_returns (hacc : b.Accepted) (ho : offset < 2 ^ 31) (name : Bytes) :
    Returns (b.nodenameEq offset name) fun _ => True := by
  unfold nodenameEq
  refine .bind (getName_returns hacc ho) fun r _ hr => ?_
  match r with
  | .error err => exact .pure trivial
  | .ok (p, olen) =>
    have hend : p + olen < b.bytes.length := hr (p, olen) rfl
    refine .ite (fun _ => .pure trivial) fun _ => ?_
    refine .bind (slice_returns (by omega)) fun _ _ _ => .ite (fun _ => .pure trivial) fun _ => ?_
    exact .bind (byte_returns (by omega)) fun _ _ _ => .pure trivial

theorem getString_returns (hacc : b.Accepted) (stroffset : Int) :
    Returns (b.getString stroffset) fun r => ∀ q ∈ r.toOption, q.1 + q.2 ≤ b.bytes.length := by
  have hwhole := hacc.whole
  have hsmall := hacc.small
  -- what is searched ends with the block
  have hfind : ∀ (len : Nat) (k : Option Nat → Read (Except Int (Nat × Nat))),
      uint (stroffset + b.offDtStrings) + len ≤ b.totalsize →
      k none = some (.error (-FDT_ERR_TRUNCATED)) →
      (∀ n, k (some n) = some (.ok (uint (stroffset + b.offDtStrings), n))) →
      Returns (b.memchr0 (uint (stroffset + b.offDtStrings)) len >>= k) fun r =>
        ∀ q ∈ r.toOption, q.1 + q.2 ≤ b.bytes.length := by
    intro len k hlen hnone hsome
    refine .bind (memchr0_returns (by omega)) fun r _ hr => ?_
    cases r with
    | none => exact .of_eq hnone (by simp [Except.toOption])
    | some n =>
      have hn := hr n rfl
      refine .of_eq (hsome n) ?_
      rintro q ⟨⟩
      dsimp only
      omega
  have hbad : ∀ err : Int, Returns (some (.error err))
      fun r : Except Int (Nat × Nat) => ∀ q ∈ r.toOption, q.1 + q.2 ≤ b.bytes.length :=
    fun err => .pure (by simp [Except.toOption])
  unfold getString
  rw [hacc.probe_eq]
  refine .ite (fun _ => hbad _) fun _ => .ite (fun _ => hbad _) fun hlt => .ite (fun _ => ?_) fun _ =>
    .ite (fun _ => ?_) fun _ => hbad _
  · exact .ite (fun _ => hbad _) fun _ => .ite
      (fun _ => .ite (fun _ => hbad _) fun _ => hfind _ _ (by omega) rfl fun _ => rfl)
      fun _ => hfind _ _ (by omega) rfl fun _ => rfl
  · exact .ite (fun _ => hbad _) fun _ => hfind _ _ (by omega) rfl fun _ => rfl

theorem stringEq_returns (hacc : b.Accepted) (stroffset : Int) (name : Bytes) :
    Returns (b.stringEq stroffset name) fun _ => True := by
  unfold stringEq
  refine .bind (getString_returns hacc stroffset) fun r _ hr => ?_
  match r with
  | .error err => exact .pure trivial
  | .ok (p, slen) =>
    have hend : p + slen ≤ b.bytes.length := hr (p, slen) rfl
    exact .ite (fun _ => .pure trivial) fun _ => .bind (slice_returns hend) fun _ _ _ => .pure trivial

end Strings

section Properties

theorem nextprop_returns (hacc : b.Accepted) {fuel : Nat} (ho : offset < 2 ^ 31)
    (hfuel : b.Enough fuel offset) : Returns (b.nextprop fuel offset) fun r =>
      r < 0 ∨ 0 ≤ offset ∧ offset ≤ r ∧ r ≤ b.totalsize + 3 ∧ r < 2 ^ 31 := by
  induction fuel generalizing offset with
  | zero => exact absurd hfuel.1 (Nat.lt_irrefl 0)
  | succ fuel ih =>
    unfold nextprop
    refine .bind (nextTag_returns hacc ho) fun r _ hr => ?_
    obtain ⟨tag, next⟩ := r
    dsimp only
    refine .ite (fun _ => .pure ?_) fun hend => ?_
    · split
      · exact .inl (by decide)
      · exact .inl (by omega)
    · have hin := hr.resolve_left fun h => hend h.1
      have h0 := hin.nonneg
      have hroom := hin.room
      refine .ite (fun _ => .pure (.inr ⟨h0, by omega⟩)) fun _ => .ite (fun _ => ?_) fun _ =>
        .pure (.inl (by decide))
      refine (ih hin.onward.lt (hfuel.step h0 hin.onward)).mono fun r hr => ?_
      have := hin.moves
      omega

theorem firstPropertyOffset_returns (hacc : b.Accepted) (ho : offset < 2 ^ 31) :
    Returns (b.firstPropertyOffset offset) fun r => r < 2 ^ 31 := by
  unfold firstPropertyOffset
  refine .bind (checkOffset_returns hacc ho (by decide)) fun next _ hnext => ?_
  refine .ite (fun hlt => .pure (by omega)) fun hge => ?_
  have hin := hnext.resolve_left hge
  exact (nextprop_returns hacc hin.onward.lt (hacc.enough _)).mono fun r hr => by omega

theorem nextPropertyOffset_returns (hacc : b.Accepted) (ho : offset < 2 ^ 31) :
    Returns (b.nextPropertyOffset offset) fun r => b.Onward offset r := by
  unfold nextPropertyOffset
  refine .bind (checkOffset_returns hacc ho (by decide)) fun next _ hnext => ?_
  refine .ite (fun hlt => .pure (.inl hlt)) fun hge => ?_
  have hin := hnext.resolve_left hge
  refine (nextprop_returns hacc hin.onward.lt (hacc.enough _)).mono fun r hr => ?_
  have := hin.moves
  unfold Onward
  omega

theorem propertyLoop_returns (hacc : b.Accepted) (name : Bytes) {fuel : Nat} (ho : offset < 2 ^ 31)
    (hfuel : b.Enough fuel offset) : Returns (b.propertyLoop name fuel offset) fun r =>
      ∀ q ∈ r.toOption, 0 ≤ q.1 ∧ b.offDtStruct + q.1 + 12 + q.2 ≤ b.totalsize ∧
        (b.version < 0x10 → 8 ≤ q.2 → (q.1 + 12) % 8 ≠ 0 →
          b.offDtStruct + q.1 + 16 + q.2 ≤ b.totalsize) := by
  have hwhole := hacc.whole
  induction fuel generalizing offset with
  | zero => exact absurd hfuel.1 (Nat.lt_irrefl 0)
  | succ fuel ih =>
    unfold propertyLoop
    refine .ite (fun _ => .pure (by simp [Except.toOption])) fun hge => ?_
    have h0 : 0 ≤ offset := by omega
    refine .bind (checkOffset_returns hacc ho (by decide)) fun next _ hnext => ?_
    refine .ite (fun _ => .pure (by simp [Except.toOption])) fun hge => ?_
    have hin := hnext.resolve_left hge
    obtain ⟨len, hload, hinside, hold⟩ := hin.value rfl
    have hprop : (b.offDtStruct + offset).toNat = b.offDtStruct + offset.toNat := by omega
    dsimp only
    rw [hprop]
    refine .bind (.of_eq hload rfl) fun len' _ (hlen : len = len') => ?_
    subst hlen
    refine .bind (load_returns (by omega)) fun nameoff _ _ => ?_
    refine .bind (stringEq_returns hacc _ name) fun found _ _ => .ite (fun _ => .pure ?_) fun _ => ?_
    · rintro q ⟨⟩
      exact ⟨h0, hinside, hold⟩
    · refine .bind (nextPropertyOffset_returns hacc ho) fun next' _ hon => ?_
      exact ih hon.lt (hfuel.step h0 hon)

theorem getPropertyNamelen_returns (hacc : b.Accepted) (ho : offset < 2 ^ 31) (name : Bytes) :
    Returns (b.getPropertyNamelen offset name) fun r =>
      ∀ q ∈ r.toOption, 0 ≤ q.1 ∧ b.offDtStruct + q.1 + 12 + q.2 ≤ b.totalsize ∧
        (b.version < 0x10 → 8 ≤ q.2 → (q.1 + 12) % 8 ≠ 0 →
          b.offDtStruct + q.1 + 16 + q.2 ≤ b.totalsize) := by
  unfold getPropertyNamelen
  exact .bind (firstPropertyOffset_returns hacc ho) fun first _ hfirst =>
    propertyLoop_returns hacc name hfirst (hacc.enough _)

theorem getProperty_returns (hacc : b.Accepted) (ho : offset < 2 ^ 31) (name : Bytes) :
    Returns (b.getProperty offset name) fun r => ∀ q ∈ r.toOption,
      0 ≤ q.1 ∧ b.offDtStruct + q.1 + 12 + q.2 ≤ b.totalsize := by
  unfold getProperty
  refine .ite (fun _ => .pure (by simp [Except.toOption])) fun _ => ?_
  exact (getPropertyNamelen_returns hacc ho name).mono fun r hr q hq =>
    ⟨(hr q hq).1, (hr q hq).2.1⟩

theorem getprop_returns (hacc : b.Accepted) (ho : offset < 2 ^ 31) (name : Bytes) :
    Returns (b.getprop offset name) fun r => ∀ q ∈ r.toOption, q.1 + q.2 ≤ b.totalsize := by
  unfold getprop
  refine .bind (getPropertyNamelen_returns hacc ho name) fun r _ hr => ?_
  match r with
  | .error err => exact .pure (by simp [Except.toOption])
  | .ok (poffset, len) =>
    obtain ⟨h0, hinside, hold⟩ := hr (poffset, len) rfl
    dsimp only at h0 hinside hold
    refine .pure ?_
    rintro q ⟨⟩
    dsimp only
    split
    · rename_i h
      have := hold h.1 h.2.2 h.2.1
      omega
    · omega

theorem getWord_returns (hacc : b.Accepted) (ho : offset < 2 ^ 31) (name : Bytes) :
    Returns (b.getWord offset name) fun _ => True := by
  unfold getWord
  refine .bind (getprop_returns hacc ho name) fun r _ hr => ?_
  match r with
  | .error err => exact .pure trivial
  | .ok (p, len) =>
    have hend : p + len ≤ b.totalsize := hr (p, len) rfl
    refine .ite (fun _ => .pure trivial) fun hlen => ?_
    exact .bind (load_returns (by have := hacc.whole; omega)) fun _ _ _ => .pure trivial

theorem getPhandle_returns (hacc : b.Accepted) (ho : offset < 2 ^ 31) :
    Returns (b.getPhandle offset) fun _ => True := by
  unfold getPhandle
  refine .bind (getWord_returns hacc ho _) fun r _ _ => ?_
  cases r with
  | some php => exact .pure trivial
  | none => exact .bind (getWord_returns hacc ho _) fun _ _ _ => .pure trivial

theorem cells_returns (hacc : b.Accepted) (ho : offset < 2 ^ 31) (name : Bytes) :
    Returns (b.cells offset name) fun _ => True := by
  unfold cells
  refine .bind (getprop_returns hacc ho name) fun r _ hr => ?_
  match r with
  | .error err => exact .pure trivial
  | .ok (p, len) =>
    have hend : p + len ≤ b.totalsize := hr (p, len) rfl
    refine .ite (fun _ => .pure trivial) fun hlen => ?_
    exact .bind (load_returns (by have := hacc.whole; omega)) fun _ _ _ => .pure trivial

end Properties

section Lookups

theorem subnodeOffsetLoop_returns (hacc : b.Accepted) (name : Bytes) {fuel : Nat} {depth : Int}
    (ho : offset < 2 ^ 31) (hfuel : b.Enough fuel offset) :
    Returns (b.subnodeOffsetLoop name fuel offset depth) fun r => r < 2 ^ 31 := by
  induction fuel generalizing offset depth with
  | zero => exact absurd hfuel.1 (Nat.lt_irrefl 0)
  | succ fuel ih =>
    unfold subnodeOffsetLoop
    refine .ite (fun _ => .pure (by decide)) fun _ => .ite (fun _ => .pure ho) fun hge => ?_
    have hfound : Returns (if depth = 1 then b.nodenameEq offset name else some false)
        fun _ => True := .ite (fun _ => nodenameEq_returns hacc ho name) fun _ => .pure trivial
    refine .bind hfound fun found _ _ => .ite (fun _ => .pure ho) fun _ => ?_
    refine .bind (nextNode_onward hacc ho (by omega)) fun r _ hon => ?_
    exact ih hon.lt (hfuel.step (by omega) hon)

theorem subnodeOffsetNamelen_returns (hacc : b.Accepted) (ho : offset < 2 ^ 31) (name : Bytes) :
    Returns (b.subnodeOffsetNamelen offset name) fun r => r < 2 ^ 31 :=
  .ite (fun h => absurd hacc.probe (by omega)) fun _ =>
    subnodeOffsetLoop_returns hacc name ho (hacc.enough _)

theorem pathLoop_returns (hacc : b.Accepted) {fuel : Nat} {path : Bytes} (ho : offset < 2 ^ 31)
    (hfuel : path.length < fuel) : Returns (b.pathLoop fuel offset path) fun r => r < 2 ^ 31 := by
  induction fuel generalizing offset path with
  | zero => omega
  | succ fuel ih =>
    unfold pathLoop
    cases hp : path.dropWhile (· = slash) with
    | nil => exact .pure ho
    | cons c p =>
      refine .bind (subnodeOffsetNamelen_returns hacc ho _) fun next _ hnext => ?_
      refine .ite (fun _ => .pure hnext) fun _ => ih hnext ?_
      -- the name that was looked up is not empty
      have hc : c ≠ slash := by
        have := List.head?_dropWhile_not (· = slash) path
        rw [hp] at this
        simpa using this
      have hlen := (List.dropWhile_suffix (l := path) (· = slash)).length_le
      rw [hp, List.length_cons] at hlen
      rw [List.dropWhile_cons_of_pos (by simpa using hc)]
      have := (List.dropWhile_suffix (l := p) (· ≠ slash)).length_le
      omega

theorem supernodeLoop_returns (hacc : b.Accepted) {nodeoffset supernodedepth depth super : Int}
    {fuel : Nat} (ho : offset < 2 ^ 31) (hfuel : b.Enough fuel offset) :
    Returns (b.supernodeLoop nodeoffset supernodedepth fuel offset depth super) fun _ => True := by
  induction fuel generalizing offset depth super with
  | zero => exact absurd hfuel.1 (Nat.lt_irrefl 0)
  | succ fuel ih =>
    unfold supernodeLoop
    refine .ite (fun hin => ?_) fun _ => .ite (fun _ => .pure trivial) fun _ =>
      .ite (fun _ => .pure trivial) fun _ => .pure trivial
    refine .ite (fun _ => .pure trivial) fun _ => ?_
    refine .bind (nextNode_onward hacc ho hin.1) fun r _ hon => ?_
    exact ih hon.lt (hfuel.step hin.1 hon)

theorem supernodeAtdepthOffset_returns (hacc : b.Accepted) (nodeoffset supernodedepth : Int) :
    Returns (b.supernodeAtdepthOffset nodeoffset supernodedepth) fun _ => True :=
  .ite (fun h => absurd hacc.probe (by omega)) fun _ => .ite (fun _ => .pure trivial) fun _ =>
    supernodeLoop_returns hacc (by decide) (hacc.enough _)

theorem parentOffset_returns (hacc : b.Accepted) (nodeoffset : Int) :
    Returns (b.parentOffset nodeoffset) fun _ => True := by
  have hdepth : Returns (b.nodeDepth nodeoffset) fun _ => True :=
    .bind (supernodeAtdepthOffset_returns hacc _ _) fun _ _ _ => .pure trivial
  unfold parentOffset
  refine .bind hdepth fun depth _ _ => .ite (fun _ => .pure trivial) fun _ => ?_
  exact .bind (supernodeAtdepthOffset_returns hacc _ _) fun _ _ _ => .pure trivial

theorem byPhandleLoop_returns (hacc : b.Accepted) (phandle : Nat) {fuel : Nat} (ho : offset < 2 ^ 31)
    (hfuel : b.Enough fuel offset) : Returns (b.byPhandleLoop phandle fuel offset) fun _ => True := by
  induction fuel generalizing offset with
  | zero => exact absurd hfuel.1 (Nat.lt_irrefl 0)
  | succ fuel ih =>
    unfold byPhandleLoop
    refine .ite (fun _ => .pure trivial) fun hge => ?_
    refine .bind (getPhandle_returns hacc ho) fun php _ _ => .ite (fun _ => .pure trivial) fun _ => ?_
    refine .bind (nextNode_onward hacc ho (by omega)) fun r _ hon => ?_
    exact ih hon.lt (hfuel.step (by omega) hon)

theorem nodeOffsetByPhandle_returns (hacc : b.Accepted) (phandle : BitVec 32) :
    Returns (b.nodeOffsetByPhandle phandle) fun _ => True := by
  unfold nodeOffsetByPhandle
  refine .ite (fun _ => .pure trivial) fun _ => .ite (fun _ => .pure trivial) fun _ => ?_
  refine .bind (nextNode_returns hacc (by decide)) fun r _ hr => ?_
  exact byPhandleLoop_returns hacc _ (by omega) (hacc.enough _)

end Lookups

section Reservations

variable {n : Nat}

theorem load64_returns (h : p + 8 ≤ b.bytes.length) : Returns (b.load64 p) fun _ => True := by
  have hcell : ∀ q, q + 4 ≤ b.bytes.length → Returns (cell (b.bytes.drop q)) fun _ => True := by
    intro q hq
    have hsome : (cell (b.bytes.drop q)).isSome := cell_isSome.mpr (by rw [List.length_drop]; omega)
    obtain ⟨x, hx⟩ := Option.isSome_iff_exists.mp hsome
    exact .of_eq hx trivial
  exact .bind (hcell p (by omega)) fun _ _ _ => .bind (hcell (p + 4) (by omega)) fun _ _ _ =>
    .pure trivial

theorem memRsv_some (h16 : 16 ≤ b.totalsize) (hn : n < 2 ^ 28) (h : b.memRsv n = some p) :
    p = b.offMemRsvmap + n * 16 ∧ p + 16 ≤ b.totalsize := by
  have hoff : b.offMemRsvmap < 2 ^ 32 := b.getHeader_lt 4
  have hsize := b.totalsize_lt
  have hmul : uint ((n : Int) * 16) = n * 16 := by
    unfold uint
    omega
  unfold memRsv at h
  dsimp only at h
  rw [hmul] at h
  split at h
  · cases h
  · rename_i hin
    cases h
    unfold uint at hin
    omega

theorem numMemRsvLoop_returns (hacc : b.Accepted) (h16 : 16 ≤ b.totalsize) {fuel : Nat}
    (hn : n * 16 ≤ b.totalsize) (hfuel : b.totalsize < n * 16 + fuel * 16) :
    Returns (b.numMemRsvLoop fuel n) fun r =>
      ∀ i : Nat, n ≤ i → (i : Int) < r → (b.getMemRsv i).isSome := by
  have hsmall := hacc.small
  have hwhole := hacc.whole
  induction fuel generalizing n with
  | zero => omega
  | succ fuel ih =>
    unfold numMemRsvLoop
    cases hrsv : b.memRsv n with
    | none =>
      refine .pure fun i _ hi => ?_
      have : -FDT_ERR_TRUNCATED < 0 := by decide
      omega
    | some q =>
      obtain ⟨hq, hin⟩ := memRsv_some h16 (by omega) hrsv
      have hthis : (b.getMemRsv n).isSome := by
        unfold getMemRsv
        rw [if_neg (by have := hacc.probe; omega), hrsv]
        exact (Returns.bind (load64_returns (p := q) (by omega)) fun _ _ _ =>
          Returns.bind (load64_returns (p := q + 8) (by omega)) fun _ _ _ =>
            Returns.pure (Q := fun _ => True) trivial).isSome
      refine .bind (load64_returns (by omega)) fun size _ _ => .ite (fun _ => .pure ?_) fun _ => ?_
      · intro i hge hlt
        omega
      · refine (ih (n := n + 1) (by omega) (by omega)).mono fun r hr i hge hlt => ?_
        rcases Nat.eq_or_lt_of_le hge with rfl | hgt
        · exact hthis
        · exact hr i hgt hlt

theorem numMemRsv_outside (hsize : b.totalsize < 16)
    (hout : b.bytes.length < b.offMemRsvmap + 12) : b.numMemRsv = none := by
  have hoff : b.offMemRsvmap < 2 ^ 32 := b.getHeader_lt 4
  have hrsv : b.memRsv 0 = some b.offMemRsvmap := by
    have hmul : uint (((0 : Nat) : Int) * 16) = 0 := rfl
    unfold memRsv
    rw [hmul, if_neg (by unfold uint; omega)]
    rfl
  have hload : b.load64 (b.offMemRsvmap + 8) = none := by
    have hnone : cell (b.bytes.drop (b.offMemRsvmap + 8)) = none := by
      rw [← Option.not_isSome_iff_eq_none, cell_isSome, List.length_drop]
      omega
    rw [load64, hnone]
    rfl
  rw [numMemRsv, fuel, numMemRsvLoop, hrsv]
  change (b.load64 (b.offMemRsvmap + 8) >>= _) = _
  rw [hload]
  rfl

end Reservations

/-- On a block whose header is accepted, no function reads outside it or fails to end, whatever the
block holds and whatever offset, name, path or handle is asked for.  A value that is found is all in
the block. -/
theorem reads_inside (hacc : b.Accepted) :
    (∀ offset : Int, offset < 2 ^ 31 → (b.getName offset).isSome ∧ (b.eachSubnode offset).isSome ∧
      (b.parentOffset offset).isSome ∧ (b.getPhandle offset).isSome ∧
      (b.addressCells offset).isSome ∧ (b.sizeCells offset).isSome ∧ ∀ name : Bytes,
        (b.subnodeOffsetNamelen offset name).isSome ∧
        (∃ r, b.getprop offset name = some r ∧ ∀ q ∈ r.toOption, q.1 + q.2 ≤ b.totalsize) ∧
        ∃ r, b.getProperty offset name = some r ∧ ∀ q ∈ r.toOption,
          0 ≤ q.1 ∧ b.offDtStruct + q.1 + 12 + q.2 ≤ b.totalsize) ∧
    (∀ path : Bytes, (b.absolutePath path).isSome) ∧
    (∀ phandle : BitVec 32, (b.nodeOffsetByPhandle phandle).isSome) ∧
    (16 ≤ b.totalsize → ∃ r, b.numMemRsv = some r ∧
      ∀ i : Nat, (i : Int) < r → (b.getMemRsv i).isSome) := by
  refine ⟨fun offset ho => ⟨(getName_returns hacc ho).isSome, (eachSubnode_returns hacc ho).isSome,
    (parentOffset_returns hacc offset).isSome, (getPhandle_returns hacc ho).isSome, ?_, ?_,
    fun name => ⟨(subnodeOffsetNamelen_returns hacc ho name).isSome, getprop_returns hacc ho name,
      getProperty_returns hacc ho name⟩⟩,
    fun path => ?_, fun phandle => (nodeOffsetByPhandle_returns hacc phandle).isSome, fun h16 => ?_⟩
  · exact (Returns.bind (cells_returns hacc ho _) fun _ _ _ =>
      Returns.pure (Q := fun _ => True) trivial).isSome
  · exact (Returns.bind (cells_returns hacc ho _) fun _ _ _ =>
      Returns.pure (Q := fun _ => True) trivial).isSome
  · exact (pathLoop_returns hacc (by decide) (Nat.lt_succ_self path.length)).isSome
  · have hwhole := hacc.whole
    have hfuel : b.totalsize < 0 * 16 + b.fuel * 16 := by
      unfold fuel
      omega
    have hrsv := numMemRsvLoop_returns hacc h16 (Nat.zero_le _) hfuel
    obtain ⟨r, hr, hall⟩ := hrsv
    exact ⟨r, hr, fun i hi => hall i (Nat.zero_le i) hi⟩

def unterminated : Blob where
  addr := 0x80200000
  bytes := [0xd0, 0x0d, 0xfe, 0xed, 0, 0, 0, 48, 0, 0, 0, 40, 0, 0, 0, 48, 0, 0, 0, 32, 0, 0, 0, 17,
    0, 0, 0, 16, 0, 0, 0, 0, 0, 0, 0, 0, 0, 0, 0, 8, 0, 0, 0, 1, 0x73, 0x6f, 0x63, 0x40]
  header := by decide

theorem accepted_unterminated : unterminated.Accepted := ⟨by decide, by decide⟩

theorem reads_inside_unterminated : unterminated.Accepted ∧
    ∃ r, unterminated.getprop 0 (raw "reg") = some r ∧
      ∀ q ∈ r.toOption, q.1 + q.2 ≤ unterminated.totalsize :=
  ⟨accepted_unterminated,
    (((reads_inside accepted_unterminated).1 0 (by decide)).2.2.2.2.2.2 (raw "reg")).2.1⟩

end Blob

end Abydos.Fdt
