import Abydos.Lib.Word
import Abydos.Vfs.Libcpio

namespace Abydos.Vfs

def ramOf (bytes : Str) : Ram := fun a => bytes[a.toNat]?

def pad (n : Nat) : Nat := (n + 3) / 4 * 4

structure Header (bytes : Str) (o : Nat) (ns fs : BitVec 64) : Prop where
  magic : CPIO_HEADER_MAGIC <+: bytes.drop o
  filesize : parseHexStr (ramOf bytes) (BitVec.ofNat 64 (o + 54)) 8 0 = .ok fs
  namesize : parseHexStr (ramOf bytes) (BitVec.ofNat 64 (o + 94)) 8 0 = .ok ns
  terminated : bytes[o + 109 + ns.toNat]? = some 0

def IsTrailer (bytes : Str) (o : Nat) (ns : BitVec 64) : Prop :=
  11 ≤ ns.toNat ∧ CPIO_FOOTER_MAGIC ++ [0] <+: bytes.drop (o + 110)

def dataOffset (o : Nat) (ns : BitVec 64) : Nat := pad (o + 110 + ns.toNat)

def nextOffset (o : Nat) (ns fs : BitVec 64) : Nat := pad (dataOffset o ns + fs.toNat)

/-- From offset `o` on there is one entry after the other, up to a trailer. -/
inductive Complete (bytes : Str) : Nat → Prop
  | trailer {o : Nat} {ns fs : BitVec 64} : Header bytes o ns fs → IsTrailer bytes o ns →
      Complete bytes o
  | entry {o : Nat} {ns fs : BitVec 64} : Header bytes o ns fs → ¬ IsTrailer bytes o ns →
      Complete bytes (nextOffset o ns fs) → Complete bytes o

variable {bytes : Str} {ram ram' : Ram} {o n : Nat} {a x : Addr}

theorem Ram.load_eq_ok : ram.load x = .ok b ↔ ram x = some b := by
  unfold Ram.load
  cases ram x <;> simp

theorem ofNat_succ (o : Nat) : BitVec.ofNat 64 (o + 1) = BitVec.ofNat 64 o + 1 :=
  BitVec.ofNat_add o 1

theorem load_ramOf (h : o < 2 ^ 64) :
    (ramOf bytes).load (BitVec.ofNat 64 o) = .ok b ↔ bytes[o]? = some b := by
  rw [Ram.load_eq_ok, ramOf, BitVec.toNat_ofNat, Nat.mod_eq_of_lt h]

theorem alignUp_toNat (x : BitVec 64) : (alignUp x CPIO_ALIGNMENT).toNat =
    (x.toNat + 3) % 2 ^ 64 / 4 * 4 := by
  have h : alignUp x CPIO_ALIGNMENT = (x + 3) &&& ~~~ BitVec.ofNat 64 (2 ^ 2 - 1) := by
    unfold alignUp CPIO_ALIGNMENT
    congr 1
    bv_omega
  rw [h, Lib.Word.toNat_and_high _ (by decide), BitVec.toNat_add]
  rfl

theorem alignUp_ofNat (n : Nat) :
    alignUp (BitVec.ofNat 64 n) CPIO_ALIGNMENT = BitVec.ofNat 64 (pad n) := by
  apply BitVec.eq_of_toNat_eq
  rw [alignUp_toNat, BitVec.toNat_ofNat, BitVec.toNat_ofNat]
  unfold pad
  omega

theorem alignUp_add (ha : 4 ∣ a.toNat) (x : BitVec 64) :
    alignUp (x + a) CPIO_ALIGNMENT = alignUp x CPIO_ALIGNMENT + a := by
  apply BitVec.eq_of_toNat_eq
  rw [alignUp_toNat, BitVec.toNat_add, BitVec.toNat_add, alignUp_toNat]
  have := x.isLt
  have := a.isLt
  omega

theorem hexDigit_lt (h : hexDigit c = some d) : d.toNat < 16 := by
  unfold hexDigit at h
  split at h
  · next hc =>
    cases h
    rw [BitVec.toNat_ofNat]
    have := UInt8.le_iff_toNat_le.mp hc.2
    simp at this
    omega
  · split at h
    · next hc =>
      cases h
      rw [BitVec.toNat_ofNat]
      have := UInt8.le_iff_toNat_le.mp hc.2
      simp at this
      omega
    · split at h
      · next hc =>
        cases h
        rw [BitVec.toNat_ofNat]
        have := UInt8.le_iff_toNat_le.mp hc.2
        simp at this
        omega
      · cases h

theorem bind_eq_ok {y : Except Trap α} {f : α → Except Trap β} :
    (y >>= f) = .ok b ↔ ∃ a, y = .ok a ∧ f a = .ok b := by
  cases y with
  | error e =>
    constructor
    · intro h
      cases h
    · rintro ⟨_, h, -⟩
      cases h
  | ok a =>
    constructor
    · exact fun h => ⟨a, rfl, h⟩
    · rintro ⟨_, h, hb⟩
      cases h
      exact hb

theorem bind_of_ok {y : Except Trap α} (h : y = .ok v) (f : α → Except Trap β) :
    (y >>= f) = f v := by
  rw [h]
  rfl

theorem parseHexStr_succ : parseHexStr ram x (k + 1) r = ram.load x >>= fun c =>
    match hexDigit c with
    | some d => parseHexStr ram (x + 1) k (r * 16 + d)
    | none => .ok (r * 16) := rfl

theorem parseHexStr_lt (h : parseHexStr ram x k r = .ok v) (hr : r.toNat < 16 ^ j)
    (hj : j + k ≤ 15) : v.toNat < 16 ^ (j + k) := by
  induction k generalizing x r j with
  | zero =>
    cases h
    exact hr
  | succ k ih =>
    have hpow : 16 ^ (j + 1) ≤ 16 ^ (j + (k + 1)) := Nat.pow_le_pow_right (by decide) (by omega)
    have hbig : 16 ^ (j + (k + 1)) ≤ 16 ^ 15 := Nat.pow_le_pow_right (by decide) hj
    have hsucc : (16 : Nat) ^ (j + 1) = 16 ^ j * 16 := Nat.pow_succ 16 j
    have hmul : (r * 16).toNat = r.toNat * 16 := by
      rw [BitVec.toNat_mul]
      exact Nat.mod_eq_of_lt (by simp; omega)
    rw [parseHexStr_succ] at h
    obtain ⟨c, -, h⟩ := bind_eq_ok.mp h
    cases hd : hexDigit c with
    | none =>
      simp only [hd] at h
      cases h
      omega
    | some d =>
      simp only [hd] at h
      have hlt := hexDigit_lt hd
      have hadd : (r * 16 + d).toNat = r.toNat * 16 + d.toNat := by
        rw [BitVec.toNat_add, hmul]
        exact Nat.mod_eq_of_lt (by omega)
      have hv := ih h (j := j + 1) (by omega) (by omega)
      rw [Nat.add_assoc, Nat.add_comm 1] at hv
      exact hv

def Moved (d : Addr) (ram ram' : Ram) : Prop := ∀ x b, ram x = some b → ram' (x + d) = some b

namespace Moved

variable {d : Addr}

theorem load (h : Moved d ram ram') (hx : ram.load x = .ok b) : ram'.load (x + d) = .ok b :=
  Ram.load_eq_ok.mpr (h x b (Ram.load_eq_ok.mp hx))

theorem succ (x d : Addr) : x + 1 + d = x + d + 1 := by bv_omega

theorem cpioStrncmp (h : Moved d ram ram') (hx : Vfs.cpioStrncmp ram x s m = .ok r) :
    Vfs.cpioStrncmp ram' (x + d) s m = .ok r := by
  induction m generalizing x s with
  | zero => cases s <;> exact hx
  | succ m ih =>
    cases s with
    | nil =>
      obtain ⟨c, hc, hr⟩ := bind_eq_ok.mp hx
      exact bind_eq_ok.mpr ⟨c, h.load hc, hr⟩
    | cons b s =>
      obtain ⟨c, hc, hr⟩ := bind_eq_ok.mp hx
      refine bind_eq_ok.mpr ⟨c, h.load hc, ?_⟩
      split at hr
      · next hne => rwa [if_pos hne]
      · next hne =>
        rw [if_neg hne]
        split at hr
        · next h0 => rwa [if_pos h0]
        · next h0 =>
          rw [if_neg h0, ← succ]
          exact ih hr

theorem parseHexStr (h : Moved d ram ram') (hx : Vfs.parseHexStr ram x k r = .ok v) :
    Vfs.parseHexStr ram' (x + d) k r = .ok v := by
  induction k generalizing x r with
  | zero => exact hx
  | succ k ih =>
    rw [parseHexStr_succ] at hx ⊢
    obtain ⟨c, hc, hr⟩ := bind_eq_ok.mp hx
    refine bind_eq_ok.mpr ⟨c, h.load hc, ?_⟩
    cases hd : hexDigit c with
    | none => simpa only [hd] using hr
    | some e =>
      simp only [hd] at hr ⊢
      rw [← succ]
      exact ih hr

theorem strlenLoop (h : Moved d ram ram') (hx : Vfs.strlenLoop ram y fuel x = .ok r) :
    Vfs.strlenLoop ram' (y + d) fuel (x + d) = .ok r := by
  induction fuel generalizing x with
  | zero => cases hx
  | succ fuel ih =>
    obtain ⟨c, hc, hr⟩ := bind_eq_ok.mp hx
    refine bind_eq_ok.mpr ⟨c, h.load hc, ?_⟩
    split at hr
    · next h0 =>
      have hsub : x + d - (y + d) = x - y := by bv_omega
      rw [if_pos h0, hsub]
      exact hr
    · next h0 =>
      rw [if_neg h0, ← succ]
      exact ih hr

end Moved

theorem cpioParseHeader_eq (ram : Ram) (a : Addr) (len : BitVec 64) : cpioParseHeader ram a len =
    if len < headerSize then .ok .invalid
    else cpioStrncmp ram a CPIO_HEADER_MAGIC 6 >>= fun m =>
      if m ≠ 0 then .ok .invalid
      else parseHexStr ram (a + filesizeOffset) 8 0 >>= fun fs =>
        parseHexStr ram (a + namesizeOffset) 8 0 >>= fun ns =>
          if len < headerSize + ns + fs then .ok .invalid
          else ram.load (a + headerSize + (ns - 1)) >>= fun c =>
            if c ≠ 0 then .ok .invalid
            else if 11 ≤ ns then cpioStrncmp ram (a + headerSize) CPIO_FOOTER_MAGIC 11 >>= fun t =>
              if t = 0 then .ok .eof
              else .ok (.entry ⟨a + headerSize, fs, alignUp (a + headerSize + ns) CPIO_ALIGNMENT,
                alignUp (alignUp (a + headerSize + ns) CPIO_ALIGNMENT + fs) CPIO_ALIGNMENT⟩)
            else .ok (.entry ⟨a + headerSize, fs, alignUp (a + headerSize + ns) CPIO_ALIGNMENT,
              alignUp (alignUp (a + headerSize + ns) CPIO_ALIGNMENT + fs) CPIO_ALIGNMENT⟩) := by
  rfl

def Parsed.move (d : Addr) : Parsed → Parsed
  | .entry e => .entry ⟨e.filename + d, e.filesize, e.data + d, e.next + d⟩
  | p => p

theorem Moved.cpioParseHeader (h : Moved d ram ram') (hd : 4 ∣ d.toNat)
    (hx : Vfs.cpioParseHeader ram x len = .ok p) :
    Vfs.cpioParseHeader ram' (x + d) len = .ok (p.move d) := by
  have hoff (y : Addr) : x + d + y = x + y + d := by ac_rfl
  rw [cpioParseHeader_eq] at hx ⊢
  simp only [hoff]
  split at hx
  · next hlen =>
    rw [if_pos hlen]
    cases hx
    rfl
  · next hlen =>
    rw [if_neg hlen]
    obtain ⟨t, ht, hx⟩ := bind_eq_ok.mp hx
    refine bind_eq_ok.mpr ⟨t, h.cpioStrncmp ht, ?_⟩
    split at hx
    · next hmagic =>
      rw [if_pos hmagic]
      cases hx
      rfl
    · next hmagic =>
      rw [if_neg hmagic]
      obtain ⟨fs, hfs, hx⟩ := bind_eq_ok.mp hx
      obtain ⟨ns, hns, hx⟩ := bind_eq_ok.mp hx
      refine bind_eq_ok.mpr ⟨fs, h.parseHexStr hfs, bind_eq_ok.mpr ⟨ns, h.parseHexStr hns, ?_⟩⟩
      have hname (y : Addr) : x + headerSize + d + y = x + headerSize + y + d := by ac_rfl
      have hdata (y : Addr) : y + d + fs = y + fs + d := by ac_rfl
      simp only [hname, alignUp_add hd, hdata]
      split at hx
      · next hroom =>
        rw [if_pos hroom]
        cases hx
        rfl
      · next hroom =>
        rw [if_neg hroom]
        obtain ⟨c, hc, hx⟩ := bind_eq_ok.mp hx
        refine bind_eq_ok.mpr ⟨c, h.load hc, ?_⟩
        split at hx
        · next h0 =>
          rw [if_pos h0]
          cases hx
          rfl
        · next h0 =>
          rw [if_neg h0]
          split at hx
          · next h11 =>
            rw [if_pos h11]
            obtain ⟨t, ht, hx⟩ := bind_eq_ok.mp hx
            refine bind_eq_ok.mpr ⟨t, h.cpioStrncmp ht, ?_⟩
            split at hx
            · next heof =>
              rw [if_pos heof]
              cases hx
              rfl
            · next heof =>
              rw [if_neg heof]
              cases hx
              rfl
          · next h11 =>
            rw [if_neg h11]
            cases hx
            rfl

theorem cpioLenNext_move (len x y d : BitVec 64) :
    cpioLenNext len (x + d) (y + d) = cpioLenNext len x y := by
  have hsub : y + d - (x + d) = y - x := by bv_omega
  unfold cpioLenNext
  rw [hsub]

theorem Moved.infoLoop (h : Moved d ram ram') (hd : 4 ∣ d.toNat)
    (hx : Vfs.infoLoop ram fuel x len info = .ok r) :
    Vfs.infoLoop ram' fuel (x + d) len info = .ok r := by
  induction fuel generalizing x len info with
  | zero => cases hx
  | succ fuel ih =>
    obtain ⟨p, hp, hx⟩ := bind_eq_ok.mp hx
    refine bind_eq_ok.mpr ⟨p.move d, h.cpioParseHeader hd hp, ?_⟩
    cases p with
    | invalid => exact hx
    | eof => exact hx
    | entry e =>
      obtain ⟨size, hsize, hx⟩ := bind_eq_ok.mp hx
      refine bind_eq_ok.mpr ⟨size, h.strlenLoop hsize, ?_⟩
      have hrest := ih hx
      rw [← cpioLenNext_move len x e.next d] at hrest
      exact hrest

theorem getFileLoop_moved (hd : 4 ∣ d.toNat)
    (hx : getFileLoop ram name fuel x len = .ok r) :
    ∃ r', (r' = (0, 0) ∨ r' = (r.1 + d, r.2)) ∧ ∀ ram', Moved d ram ram' →
      getFileLoop ram' name fuel (x + d) len = .ok r' := by
  induction fuel generalizing x len with
  | zero => cases hx
  | succ fuel ih =>
    obtain ⟨p, hp, hx⟩ := bind_eq_ok.mp hx
    cases p with
    | invalid =>
      exact ⟨(0, 0), Or.inl rfl, fun _ h => bind_eq_ok.mpr ⟨_, h.cpioParseHeader hd hp, rfl⟩⟩
    | eof =>
      exact ⟨(0, 0), Or.inl rfl, fun _ h => bind_eq_ok.mpr ⟨_, h.cpioParseHeader hd hp, rfl⟩⟩
    | entry e =>
      obtain ⟨t, ht, hx⟩ := bind_eq_ok.mp hx
      split at hx
      · next h0 =>
        cases hx
        refine ⟨_, Or.inr rfl, fun _ h => bind_eq_ok.mpr ⟨_, h.cpioParseHeader hd hp, ?_⟩⟩
        refine bind_eq_ok.mpr ⟨t, h.cpioStrncmp ht, ?_⟩
        rw [if_pos h0]
        rfl
      · next h0 =>
        obtain ⟨r', hr', hrest⟩ := ih hx
        refine ⟨r', hr', fun _ h => bind_eq_ok.mpr ⟨_, h.cpioParseHeader hd hp, ?_⟩⟩
        refine bind_eq_ok.mpr ⟨t, h.cpioStrncmp ht, ?_⟩
        rw [if_neg h0]
        have hnext := hrest _ h
        rw [← cpioLenNext_move len x e.next d] at hnext
        exact hnext

instance : Decidable (IsTrailer bytes o ns) := inferInstanceAs (Decidable (_ ∧ _))

theorem cons_prefix_drop {b : UInt8} {s : Str} :
    b :: s <+: bytes.drop o ↔ bytes[o]? = some b ∧ s <+: bytes.drop (o + 1) := by
  cases h : bytes[o]? with
  | none =>
    rw [List.drop_eq_nil_of_le (List.getElem?_eq_none_iff.mp h)]
    simp
  | some c =>
    obtain ⟨ho, hc⟩ := List.getElem?_eq_some_iff.mp h
    rw [List.drop_eq_getElem_cons ho, List.cons_prefix_cons, hc, Option.some_inj]
    exact and_congr_left fun _ => eq_comm

theorem cpioStrncmp_eq_zero (bytes : Str) (hs : 0 ∉ s) (hk : k ≤ 1)
    (ho : o + s.length < 2 ^ 64) :
    cpioStrncmp (ramOf bytes) (BitVec.ofNat 64 o) s (s.length + k) = .ok 0 ↔
      s ++ List.replicate k 0 <+: bytes.drop o := by
  induction s generalizing o with
  | nil =>
    obtain rfl | rfl : k = 0 ∨ k = 1 := by omega
    · exact iff_of_true rfl (List.nil_prefix)
    · refine bind_eq_ok.trans ?_
      simp only [load_ramOf (show o < 2 ^ 64 by simpa using ho)]
      rw [List.nil_append, List.replicate_one, cons_prefix_drop]
      constructor
      · rintro ⟨b, hb, hr⟩
        have hz : (b.toNat : Int) = 0 := Except.ok.inj hr
        obtain rfl : b = 0 := UInt8.toNat_inj.mp (by simpa using hz)
        exact ⟨hb, List.nil_prefix⟩
      · exact fun h => ⟨0, h.1, rfl⟩
  | cons c s ih =>
    rw [List.mem_cons, not_or] at hs
    rw [List.length_cons] at ho
    have hrest := ih hs.2 (o := o + 1) (by omega)
    rw [ofNat_succ] at hrest
    rw [List.cons_append, cons_prefix_drop, ← hrest, List.length_cons, Nat.add_right_comm]
    refine bind_eq_ok.trans ?_
    simp only [load_ramOf (show o < 2 ^ 64 by omega)]
    constructor
    · rintro ⟨b, hb, hr⟩
      split at hr
      · next hne =>
        have hz : (b.toNat : Int) - c.toNat = 0 := Except.ok.inj hr
        exact absurd (UInt8.toNat_inj.mp (by omega)) hne
      · next hne =>
        obtain rfl : b = c := not_not.mp hne
        rw [if_neg (Ne.symm hs.1)] at hr
        exact ⟨hb, hr⟩
    · rintro ⟨hb, hr⟩
      refine ⟨c, hb, ?_⟩
      rw [if_neg (not_not.mpr rfl), if_neg (Ne.symm hs.1)]
      exact hr

theorem getElem?_of_le (hq : bytes[q]? = some c) (ho : o ≤ q) : ∃ b, bytes[o]? = some b := by
  obtain ⟨h, -⟩ := List.getElem?_eq_some_iff.mp hq
  exact ⟨_, List.getElem?_eq_getElem (Nat.lt_of_le_of_lt ho h)⟩

theorem cpioStrncmp_ok (hq : bytes[q]? = some 0) (hlt : q < 2 ^ 64) (ho : o ≤ q) :
    ∃ r, cpioStrncmp (ramOf bytes) (BitVec.ofNat 64 o) s m = .ok r := by
  induction m generalizing o s with
  | zero => exact ⟨0, by cases s <;> rfl⟩
  | succ m ih =>
    obtain ⟨b, hb⟩ := getElem?_of_le hq ho
    have hload := (load_ramOf (Nat.lt_of_le_of_lt ho hlt)).mpr hb
    cases s with
    | nil => exact ⟨_, bind_eq_ok.mpr ⟨b, hload, rfl⟩⟩
    | cons c s =>
      by_cases hne : b ≠ c
      · exact ⟨_, bind_eq_ok.mpr ⟨b, hload, if_pos hne⟩⟩
      · by_cases h0 : b = 0
        · refine ⟨0, bind_eq_ok.mpr ⟨b, hload, ?_⟩⟩
          rw [if_neg hne, if_pos h0]
          rfl
        · have hoq : o ≠ q := by
            rintro rfl
            rw [hb] at hq
            exact h0 (Option.some.inj hq)
          obtain ⟨r, hr⟩ := ih (o := o + 1) (s := s) (by omega)
          refine ⟨r, bind_eq_ok.mpr ⟨b, hload, ?_⟩⟩
          rw [if_neg hne, if_neg h0, ← ofNat_succ]
          exact hr

theorem strlenLoop_ok (hq : bytes[q]? = some 0) (hlt : q < 2 ^ 64) (ho : o ≤ q)
    (hfuel : q - o < fuel) : ∃ r, strlenLoop (ramOf bytes) y fuel (BitVec.ofNat 64 o) = .ok r := by
  induction fuel generalizing o with
  | zero => omega
  | succ fuel ih =>
    obtain ⟨b, hb⟩ := getElem?_of_le hq ho
    have hload := (load_ramOf (Nat.lt_of_le_of_lt ho hlt)).mpr hb
    by_cases h0 : b = 0
    · exact ⟨_, bind_eq_ok.mpr ⟨b, hload, if_pos h0⟩⟩
    · have hoq : o ≠ q := by
        rintro rfl
        rw [hb] at hq
        exact h0 (Option.some.inj hq)
      obtain ⟨r, hr⟩ := ih (o := o + 1) (by omega) (by omega)
      refine ⟨r, bind_eq_ok.mpr ⟨b, hload, ?_⟩⟩
      rw [if_neg h0, ← ofNat_succ]
      exact hr

/-- An archive that leaves half of the addresses for its copy. -/
def Fits (bytes : Str) : Prop := bytes.length ≤ 2 ^ 63

theorem terminator_ofNat (o : Nat) (ns : BitVec 64) :
    BitVec.ofNat 64 o + headerSize + (ns - 1) = BitVec.ofNat 64 (o + 109 + ns.toNat) := by
  unfold headerSize
  bv_omega

theorem data_ofNat (o : Nat) (ns : BitVec 64) :
    alignUp (BitVec.ofNat 64 o + headerSize + ns) CPIO_ALIGNMENT =
      BitVec.ofNat 64 (dataOffset o ns) := by
  have h : BitVec.ofNat 64 o + headerSize + ns = BitVec.ofNat 64 (o + 110 + ns.toNat) := by
    unfold headerSize
    bv_omega
  rw [h, alignUp_ofNat]
  rfl

theorem next_ofNat (o : Nat) (ns fs : BitVec 64) :
    alignUp (BitVec.ofNat 64 (dataOffset o ns) + fs) CPIO_ALIGNMENT =
      BitVec.ofNat 64 (nextOffset o ns fs) := by
  have h : BitVec.ofNat 64 (dataOffset o ns) + fs =
      BitVec.ofNat 64 (dataOffset o ns + fs.toNat) := by
    bv_omega
  rw [h, alignUp_ofNat]
  rfl

namespace Header

theorem name_lt (h : Header bytes o ns fs) : o + 109 + ns.toNat < bytes.length :=
  (List.getElem?_eq_some_iff.mp h.terminated).1

theorem sizes_lt (h : Header bytes o ns fs) : ns.toNat < 2 ^ 32 ∧ fs.toNat < 2 ^ 32 :=
  ⟨parseHexStr_lt h.namesize (j := 0) (by decide) (by decide),
    parseHexStr_lt h.filesize (j := 0) (by decide) (by decide)⟩

theorem lt_next (h : Header bytes o ns fs) : o + 110 ≤ dataOffset o ns ∧
    dataOffset o ns + fs.toNat ≤ nextOffset o ns fs ∧ nextOffset o ns fs < o + 2 ^ 34 := by
  have := h.sizes_lt
  unfold nextOffset dataOffset pad
  omega

end Header

def entryAt (o : Nat) (ns fs : BitVec 64) : HeaderInfo :=
  ⟨BitVec.ofNat 64 (o + 110), fs, BitVec.ofNat 64 (dataOffset o ns),
    BitVec.ofNat 64 (nextOffset o ns fs)⟩

theorem trailer_iff (ho : o + 120 < 2 ^ 64) :
    cpioStrncmp (ramOf bytes) (BitVec.ofNat 64 o + headerSize) CPIO_FOOTER_MAGIC 11 = .ok 0 ↔
      CPIO_FOOTER_MAGIC ++ [0] <+: bytes.drop (o + 110) := by
  have hlen : o + 110 + CPIO_FOOTER_MAGIC.length < 2 ^ 64 := by
    simpa [CPIO_FOOTER_MAGIC] using ho
  have h := cpioStrncmp_eq_zero bytes (by decide) (le_refl 1) hlen
  rw [BitVec.ofNat_add] at h
  exact h

theorem magic_iff (ho : o + 6 < 2 ^ 64) :
    cpioStrncmp (ramOf bytes) (BitVec.ofNat 64 o) CPIO_HEADER_MAGIC 6 = .ok 0 ↔
      CPIO_HEADER_MAGIC <+: bytes.drop o := by
  have hlen : o + CPIO_HEADER_MAGIC.length < 2 ^ 64 := by
    simpa [CPIO_HEADER_MAGIC] using ho
  have h := cpioStrncmp_eq_zero bytes (by decide) (Nat.zero_le 1) hlen
  rw [List.replicate_zero, List.append_nil] at h
  exact h

def placed (a : Addr) (ns fs : BitVec 64) : HeaderInfo :=
  ⟨a + headerSize, fs, alignUp (a + headerSize + ns) CPIO_ALIGNMENT,
    alignUp (alignUp (a + headerSize + ns) CPIO_ALIGNMENT + fs) CPIO_ALIGNMENT⟩

theorem cpioParseHeader_accepts (h : cpioParseHeader ram a len = .ok p) (hp : p ≠ .invalid) :
    ∃ ns fs, cpioStrncmp ram a CPIO_HEADER_MAGIC 6 = .ok 0 ∧
      parseHexStr ram (a + filesizeOffset) 8 0 = .ok fs ∧
      parseHexStr ram (a + namesizeOffset) 8 0 = .ok ns ∧
      ram.load (a + headerSize + (ns - 1)) = .ok 0 ∧
      (p = .eof ∨ p = .entry (placed a ns fs)) := by
  have hinvalid {p : Parsed} (h : (.ok .invalid : Except Trap Parsed) = .ok p) : p = .invalid :=
    (Except.ok.inj h).symm
  rw [cpioParseHeader_eq] at h
  split at h
  · exact absurd (hinvalid h) hp
  obtain ⟨m, hm, h⟩ := bind_eq_ok.mp h
  split at h
  · exact absurd (hinvalid h) hp
  next hm0 =>
  obtain ⟨fs, hfs, h⟩ := bind_eq_ok.mp h
  obtain ⟨ns, hns, h⟩ := bind_eq_ok.mp h
  split at h
  · exact absurd (hinvalid h) hp
  obtain ⟨c, hc, h⟩ := bind_eq_ok.mp h
  split at h
  · exact absurd (hinvalid h) hp
  next hc0 =>
  obtain rfl : m = 0 := not_not.mp hm0
  obtain rfl : c = 0 := not_not.mp hc0
  refine ⟨ns, fs, hm, hfs, hns, hc, ?_⟩
  split at h
  · obtain ⟨t, -, h⟩ := bind_eq_ok.mp h
    split at h
    · exact Or.inl (Except.ok.inj h).symm
    · exact Or.inr (Except.ok.inj h).symm
  · exact Or.inr (Except.ok.inj h).symm

theorem cpioParseHeader_placed (h : cpioParseHeader ram a len = .ok (.entry e)) :
    ∃ ns fs, e = placed a ns fs ∧ fs.toNat < 2 ^ 32 := by
  obtain ⟨ns, fs, -, hfs, -, -, heq⟩ := cpioParseHeader_accepts h (by simp)
  have hlt : fs.toNat < 16 ^ (0 + 8) := parseHexStr_lt hfs (by decide) (by decide)
  rcases heq with heq | heq
  · cases heq
  · cases heq
    exact ⟨ns, fs, rfl, hlt⟩

theorem placed_data_dvd (a : Addr) (ns fs : BitVec 64) : 4 ∣ (placed a ns fs).data.toNat := by
  unfold placed
  rw [alignUp_toNat]
  exact Nat.dvd_mul_left _ _

theorem getFileLoop_placed (h : getFileLoop ram name fuel a len = .ok (file, size)) :
    (file = 0 ∧ size = 0) ∨ ∃ x ns, file = (placed x ns size).data ∧ size.toNat < 2 ^ 32 := by
  induction fuel generalizing a len with
  | zero => cases h
  | succ fuel ih =>
    obtain ⟨p, hp, h⟩ := bind_eq_ok.mp h
    cases p with
    | invalid =>
      cases h
      exact Or.inl ⟨rfl, rfl⟩
    | eof =>
      cases h
      exact Or.inl ⟨rfl, rfl⟩
    | entry e =>
      obtain ⟨t, -, h⟩ := bind_eq_ok.mp h
      split at h
      · cases h
        obtain ⟨ns, fs, rfl, hlt⟩ := cpioParseHeader_placed hp
        exact Or.inr ⟨a, ns, rfl, hlt⟩
      · exact ih h

theorem Header.parse_moved (h : Header bytes o ns fs) (hn : Fits bytes)
    (hm : Moved d (ramOf bytes) ram) (len : BitVec 64) :
    cpioParseHeader ram (BitVec.ofNat 64 o + d) len =
      if len < headerSize + ns + fs then .ok .invalid
      else if IsTrailer bytes o ns then .ok .eof
      else .ok (.entry (placed (BitVec.ofNat 64 o + d) ns fs)) := by
  have hlt := h.name_lt
  have hsizes := h.sizes_lt
  unfold Fits at hn
  have hoff (y : Addr) : BitVec.ofNat 64 o + d + y = BitVec.ofNat 64 o + y + d := by ac_rfl
  have hmagic := hm.cpioStrncmp ((magic_iff (by omega)).mpr h.magic)
  have hfs : Vfs.parseHexStr ram (BitVec.ofNat 64 o + d + filesizeOffset) 8 0 = .ok fs := by
    rw [hoff]
    apply hm.parseHexStr
    rw [← h.filesize, BitVec.ofNat_add]
    rfl
  have hns : Vfs.parseHexStr ram (BitVec.ofNat 64 o + d + namesizeOffset) 8 0 = .ok ns := by
    rw [hoff]
    apply hm.parseHexStr
    rw [← h.namesize, BitVec.ofNat_add]
    rfl
  have hterm : ram.load (BitVec.ofNat 64 o + d + headerSize + (ns - 1)) = .ok 0 := by
    have hload := (load_ramOf (show o + 109 + ns.toNat < 2 ^ 64 by omega)).mpr h.terminated
    rw [← terminator_ofNat] at hload
    rw [hoff, show BitVec.ofNat 64 o + headerSize + d + (ns - 1) =
      BitVec.ofNat 64 o + headerSize + (ns - 1) + d by ac_rfl]
    exact hm.load hload
  have hname : BitVec.ofNat 64 o + headerSize = BitVec.ofNat 64 (o + 110) := by
    rw [BitVec.ofNat_add]
    rfl
  have h11 : (11 : BitVec 64) ≤ ns ↔ 11 ≤ ns.toNat := BitVec.le_def
  rw [cpioParseHeader_eq]
  by_cases hroom : len < headerSize + ns + fs
  · rw [if_pos hroom]
    split
    · rfl
    · rw [bind_of_ok hmagic, if_neg (not_not.mpr rfl), bind_of_ok hfs, bind_of_ok hns,
        if_pos hroom]
  · have hshort : ¬ len < headerSize := by
      unfold headerSize at *
      bv_omega
    rw [if_neg hshort, bind_of_ok hmagic, if_neg (not_not.mpr rfl), bind_of_ok hfs,
      bind_of_ok hns, if_neg hroom, bind_of_ok hterm, if_neg (not_not.mpr rfl), if_neg hroom]
    by_cases hlong : 11 ≤ ns.toNat
    · obtain ⟨t, ht⟩ := cpioStrncmp_ok (s := CPIO_FOOTER_MAGIC) (m := 11) (o := o + 110)
        h.terminated (by omega) (by omega)
      have htrailer : t = 0 ↔ CPIO_FOOTER_MAGIC ++ [0] <+: bytes.drop (o + 110) := by
        rw [← trailer_iff (by omega), hname, ht, Except.ok.injEq]
      have hcmp := hm.cpioStrncmp ht
      rw [← hname, ← hoff] at hcmp
      rw [if_pos (h11.mpr hlong), bind_of_ok hcmp]
      by_cases h0 : t = 0
      · rw [if_pos h0, if_pos ⟨hlong, htrailer.mp h0⟩]
      · rw [if_neg h0, if_neg fun hi => h0 (htrailer.mpr hi.2)]
        rfl
    · rw [if_neg (mt h11.mp hlong), if_neg fun hi => hlong hi.1]
      rfl

theorem Header.parse (h : Header bytes o ns fs) (hn : Fits bytes) (len : BitVec 64) :
    cpioParseHeader (ramOf bytes) (BitVec.ofNat 64 o) len =
      if len < headerSize + ns + fs then .ok .invalid
      else if IsTrailer bytes o ns then .ok .eof else .ok (.entry (entryAt o ns fs)) := by
  have hself : Moved 0#64 (ramOf bytes) (ramOf bytes) := fun x b hx => by rwa [BitVec.add_zero]
  have hentry : placed (BitVec.ofNat 64 o) ns fs = entryAt o ns fs := by
    unfold placed entryAt
    rw [data_ofNat, next_ofNat, BitVec.ofNat_add]
    rfl
  have hp := h.parse_moved hn hself len
  rw [BitVec.add_zero, hentry] at hp
  exact hp

theorem Header.of_parse (ho : o < 2 ^ 63 + 2 ^ 34)
    (h : cpioParseHeader (ramOf bytes) (BitVec.ofNat 64 o) len = .ok p) (hp : p ≠ .invalid) :
    ∃ ns fs, Header bytes o ns fs := by
  obtain ⟨ns, fs, hmagic, hfs, hns, hterm, -⟩ := cpioParseHeader_accepts h hp
  have hlt : ns.toNat < 16 ^ (0 + 8) := parseHexStr_lt hns (by decide) (by decide)
  rw [terminator_ofNat, load_ramOf (by omega)] at hterm
  refine ⟨ns, fs, (magic_iff (by omega)).mp hmagic, ?_, ?_, hterm⟩
  · rw [BitVec.ofNat_add]
    exact hfs
  · rw [BitVec.ofNat_add]
    exact hns

namespace Complete

theorem zero_behind (h : Complete bytes o) : ∃ q, o + 110 ≤ q ∧ bytes[q]? = some 0 := by
  induction h with
  | trailer hh ht => exact ⟨_, by have := ht.1; omega, hh.terminated⟩
  | entry hh ht _ ih =>
    obtain ⟨q, hq, h0⟩ := ih
    have := hh.lt_next
    exact ⟨q, by omega, h0⟩

theorem lt_length (h : Complete bytes o) : o < bytes.length := by
  obtain ⟨q, hq, h0⟩ := h.zero_behind
  have := (List.getElem?_eq_some_iff.mp h0).1
  omega

theorem infoLoop_ok (h : Complete bytes o) (hn : Fits bytes) (hfuel : bytes.length ≤ o + fuel) :
    ∃ r, infoLoop (ramOf bytes) fuel (BitVec.ofNat 64 o) len info = .ok r := by
  induction h generalizing fuel len info with
  | trailer hh ht =>
    have hlt := hh.name_lt
    obtain ⟨fuel, rfl⟩ : ∃ k, fuel = k + 1 := ⟨fuel - 1, by omega⟩
    have hp := hh.parse hn len
    rw [if_pos ht] at hp
    split at hp
    · exact ⟨_, bind_eq_ok.mpr ⟨_, hp, rfl⟩⟩
    · exact ⟨_, bind_eq_ok.mpr ⟨_, hp, rfl⟩⟩
  | @entry o ns fs hh ht hnext ih =>
    have hlt := hh.name_lt
    have hge := hh.lt_next
    obtain ⟨fuel, rfl⟩ : ∃ k, fuel = k + 1 := ⟨fuel - 1, by omega⟩
    have hp := hh.parse hn len
    rw [if_neg ht] at hp
    split at hp
    · exact ⟨_, bind_eq_ok.mpr ⟨_, hp, rfl⟩⟩
    · obtain ⟨q, hq, h0⟩ := hnext.zero_behind
      have hqlt := (List.getElem?_eq_some_iff.mp h0).1
      unfold Fits at hn
      obtain ⟨size, hsize⟩ := strlenLoop_ok h0 (by omega) (show o + 110 ≤ q by omega)
        (show q - (o + 110) < 2 ^ 64 by omega)
      obtain ⟨r, hr⟩ := ih (show bytes.length ≤ nextOffset o ns fs + fuel by omega)
      exact ⟨r, bind_eq_ok.mpr ⟨_, hp, bind_eq_ok.mpr ⟨size, hsize, hr⟩⟩⟩

theorem getFileLoop_ok (h : Complete bytes o) (hn : Fits bytes) (hfuel : bytes.length ≤ o + fuel)
    (name : Str) (len : BitVec 64) : ∃ r,
      getFileLoop (ramOf bytes) name fuel (BitVec.ofNat 64 o) len = .ok r ∧
        r.1.toNat + r.2.toNat ≤ bytes.length := by
  induction h generalizing fuel len with
  | trailer hh ht =>
    have hlt := hh.name_lt
    obtain ⟨fuel, rfl⟩ : ∃ k, fuel = k + 1 := ⟨fuel - 1, by omega⟩
    have hp := hh.parse hn len
    rw [if_pos ht] at hp
    split at hp
    · exact ⟨(0, 0), bind_eq_ok.mpr ⟨_, hp, rfl⟩, Nat.zero_le _⟩
    · exact ⟨(0, 0), bind_eq_ok.mpr ⟨_, hp, rfl⟩, Nat.zero_le _⟩
  | @entry o ns fs hh ht hnext ih =>
    have hlt := hh.name_lt
    have hge := hh.lt_next
    obtain ⟨fuel, rfl⟩ : ∃ k, fuel = k + 1 := ⟨fuel - 1, by omega⟩
    have hp := hh.parse hn len
    rw [if_neg ht] at hp
    split at hp
    · exact ⟨(0, 0), bind_eq_ok.mpr ⟨_, hp, rfl⟩, Nat.zero_le _⟩
    · obtain ⟨q, hq, h0⟩ := hnext.zero_behind
      have hqlt := (List.getElem?_eq_some_iff.mp h0).1
      have hdata := hnext.lt_length
      unfold Fits at hn
      obtain ⟨t, ht⟩ := cpioStrncmp_ok (s := name) (m := 2 ^ 64 - 1) h0 (by omega)
        (show o + 110 ≤ q by omega)
      by_cases heq : t = 0
      · refine ⟨_, bind_eq_ok.mpr ⟨_, hp, bind_eq_ok.mpr ⟨t, ht, if_pos heq⟩⟩, ?_⟩
        show (BitVec.ofNat 64 (dataOffset o ns)).toNat + fs.toNat ≤ bytes.length
        rw [BitVec.toNat_ofNat]
        omega
      · obtain ⟨r, hr, hin⟩ := ih (show bytes.length ≤ nextOffset o ns fs + fuel by omega) _
        refine ⟨r, bind_eq_ok.mpr ⟨_, hp, bind_eq_ok.mpr ⟨t, ht, ?_⟩⟩, hin⟩
        rw [if_neg heq]
        exact hr

theorem of_infoLoop (hn : Fits bytes) (ho : o < 2 ^ 63 + 2 ^ 34)
    (h : infoLoop (ramOf bytes) fuel (BitVec.ofNat 64 o) len info = .ok (0, r)) :
    Complete bytes o := by
  induction fuel generalizing o len info with
  | zero => cases h
  | succ fuel ih =>
    obtain ⟨p, hp, h⟩ := bind_eq_ok.mp h
    have hne : p ≠ .invalid := by
      rintro rfl
      cases h
    obtain ⟨ns, fs, hh⟩ := Header.of_parse ho hp hne
    have hparse := hh.parse hn len
    rw [hp] at hparse
    split at hparse
    · exact absurd (Except.ok.inj hparse) hne
    · by_cases ht : IsTrailer bytes o ns
      · exact .trailer hh ht
      · rw [if_neg ht] at hparse
        obtain rfl := Except.ok.inj hparse
        obtain ⟨size, -, h⟩ := bind_eq_ok.mp h
        have hlt := hh.name_lt
        have hge := hh.lt_next
        unfold Fits at hn
        exact .entry hh ht (ih (by omega) h)

end Complete

end Abydos.Vfs
