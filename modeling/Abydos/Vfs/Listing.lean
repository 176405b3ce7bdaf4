import Abydos.Vfs.Confined

namespace Abydos.Vfs

structure Item where
  name : Str
  offset : Nat
  size : BitVec 64
  deriving DecidableEq

/-- From offset `o` on there are the entries of these files, padded from the start of the archive,
and a trailer. -/
inductive Listing (bytes : Str) : Nat → List Item → Prop
  | trailer {o : Nat} : Header bytes o 11 0 → IsTrailer bytes o 11 → Listing bytes o []
  | entry {o : Nat} {ns fs : BitVec 64} {name : Str} {items : List Item} : Header bytes o ns fs →
      ns.toNat = name.length + 1 → 0 ∉ name → name ++ [0] <+: bytes.drop (o + 110) →
      name ≠ CPIO_FOOTER_MAGIC → Listing bytes (nextOffset o ns fs) items →
      Listing bytes o (⟨name, dataOffset o ns, fs⟩ :: items)

def lookup (items : List Item) (name : Str) : Option Item := items.find? fun it => it.name = name

def Item.contents (bytes : Str) (it : Item) : Str := (bytes.drop it.offset).take it.size.toNat

variable {bytes name : Str} {items : List Item} {it : Item} {ram : Ram} {a d : Addr} {o : Nat}

theorem lookup_cons (it : Item) (items : List Item) (name : Str) :
    lookup (it :: items) name = if it.name = name then some it else lookup items name := by
  unfold lookup
  rw [List.find?_cons]
  split
  · next h => rw [if_pos (of_decide_eq_true h)]
  · next h => rw [if_neg (of_decide_eq_false h)]

theorem lookup_eq_some (h : lookup items name = some it) : it ∈ items ∧ it.name = name := by
  have hname := List.find?_some h
  exact ⟨List.mem_of_find?_eq_some h, of_decide_eq_true hname⟩

theorem exists_lookup (h : it ∈ items) : ∃ it', lookup items it.name = some it' := by
  cases hf : lookup items it.name with
  | some it' => exact ⟨it', rfl⟩
  | none => exact absurd (decide_eq_true rfl) (List.find?_eq_none.mp hf it h)

theorem takeWhile_of_terminated {s l : Str} (hs : 0 ∉ s) (h : s ++ [0] <+: l) :
    l.takeWhile (· ≠ 0) = s := by
  obtain ⟨t, rfl⟩ := h
  rw [List.append_assoc, List.takeWhile_append_of_pos]
  · simp
  · intro b hb
    exact decide_eq_true fun h0 => hs (h0 ▸ hb)

theorem eq_of_terminated {s t l : Str} (hs : 0 ∉ s) (ht : 0 ∉ t) (h : s ++ [0] <+: l)
    (h' : t ++ [0] <+: l) : s = t :=
  (takeWhile_of_terminated hs h).symm.trans (takeWhile_of_terminated ht h')

theorem cpioStrncmp_long {s : Str} (hm : s.length < m) :
    cpioStrncmp ram a s m = cpioStrncmp ram a s (s.length + 1) := by
  induction s generalizing a m with
  | nil =>
    obtain ⟨m, rfl⟩ : ∃ k, m = k + 1 := ⟨m - 1, by omega⟩
    rfl
  | cons b s ih =>
    obtain ⟨m, rfl⟩ : ∃ k, m = k + 1 := ⟨m - 1, by omega⟩
    rw [List.length_cons] at hm ⊢
    unfold cpioStrncmp
    rw [ih (Nat.lt_of_succ_lt_succ hm)]

namespace Listing

theorem complete (h : Listing bytes o items) : Complete bytes o := by
  induction h with
  | trailer hh ht => exact .trailer hh ht
  | entry hh hns h0 hname hne _ ih =>
    refine .entry hh (fun ht => hne ?_) ih
    exact eq_of_terminated h0 (by decide) hname ht.2

theorem offset_lt (h : Listing bytes o items) (hit : it ∈ items) :
    o + 110 ≤ it.offset ∧ it.offset + it.size.toNat < bytes.length := by
  induction h with
  | trailer => cases hit
  | entry hh _ _ _ _ hrest ih =>
    have hge := hh.lt_next
    rcases List.mem_cons.mp hit with rfl | hit
    · have hlt := hrest.complete.lt_length
      exact ⟨hge.1, by dsimp only; omega⟩
    · have := ih hit
      omega

theorem name_ok (h : Listing bytes o items) (hit : it ∈ items) :
    0 ∉ it.name ∧ it.name.length < bytes.length := by
  induction h with
  | trailer => cases hit
  | entry hh hns h0 _ _ _ ih =>
    rcases List.mem_cons.mp hit with rfl | hit
    · have := hh.name_lt
      exact ⟨h0, by dsimp only; omega⟩
    · exact ih hit

theorem size_lt (h : Listing bytes o items) (hit : it ∈ items) : it.size.toNat < 2 ^ 32 := by
  induction h with
  | trailer => cases hit
  | entry hh _ _ _ _ _ ih =>
    rcases List.mem_cons.mp hit with rfl | hit
    · exact hh.sizes_lt.2
    · exact ih hit

theorem eq_of_offset {it' : Item} (h : Listing bytes o items) (hit : it ∈ items)
    (hit' : it' ∈ items) (heq : it.offset = it'.offset) : it = it' := by
  induction h with
  | trailer => cases hit
  | entry hh _ _ _ _ hrest ih =>
    have hge := hh.lt_next
    rcases List.mem_cons.mp hit with rfl | hit
    · rcases List.mem_cons.mp hit' with rfl | hit'
      · rfl
      · have := (hrest.offset_lt hit').1
        dsimp only at heq
        omega
    · rcases List.mem_cons.mp hit' with rfl | hit'
      · have := (hrest.offset_lt hit).1
        dsimp only at heq
        omega
      · exact ih hit hit'

theorem nodup (h : Listing bytes o items) : items.Nodup := by
  induction h with
  | trailer => exact List.nodup_nil
  | entry hh _ _ _ _ hrest ih =>
    refine List.nodup_cons.mpr ⟨fun hmem => ?_, ih⟩
    have := (hrest.offset_lt hmem).1
    have := hh.lt_next
    dsimp only at *
    omega

end Listing

theorem Moved.copy (hm : Moved d (ramOf bytes) ram) (hn : Fits bytes)
    (h : o + n ≤ bytes.length) :
    ram.copy (BitVec.ofNat 64 o + d) n = .ok ((bytes.drop o).take n) := by
  induction n generalizing o with
  | zero => rfl
  | succ n ih =>
    have hlt : o < bytes.length := by omega
    unfold Fits at hn
    have hload := hm.load ((load_ramOf (show o < 2 ^ 64 by omega)).mpr
      (List.getElem?_eq_getElem hlt))
    have hrest := ih (o := o + 1) (by omega)
    rw [ofNat_succ, Moved.succ] at hrest
    rw [List.drop_eq_getElem_cons hlt, List.take_succ_cons]
    exact bind_eq_ok.mpr ⟨_, hload, bind_eq_ok.mpr ⟨_, hrest, rfl⟩⟩

theorem room_of_next {ns fs : BitVec 64} (hh : Header bytes o ns fs) (hn : Fits bytes)
    (hlt : nextOffset o ns fs ≤ bytes.length) :
    ¬ BitVec.ofNat 64 bytes.length < headerSize + ns + fs ∧
      cpioLenNext (BitVec.ofNat 64 bytes.length) (BitVec.ofNat 64 o)
        (BitVec.ofNat 64 (nextOffset o ns fs)) = BitVec.ofNat 64 bytes.length := by
  have hge := hh.lt_next
  have hsizes := hh.sizes_lt
  have hdata : o + 110 + ns.toNat ≤ dataOffset o ns := by
    unfold dataOffset pad
    omega
  unfold Fits at hn
  constructor
  · unfold headerSize
    bv_omega
  · unfold cpioLenNext
    rw [if_neg]
    bv_omega

section Parse

variable {ns fs : BitVec 64} (hn : Fits bytes)

include hn

theorem parse_trailer (hh : Header bytes o 11 0) (ht : IsTrailer bytes o 11) :
    cpioParseHeader (ramOf bytes) (BitVec.ofNat 64 o) (BitVec.ofNat 64 bytes.length) =
      .ok .eof := by
  have hlt := hh.name_lt
  rw [hh.parse hn, if_neg, if_pos ht]
  unfold Fits at hn
  unfold headerSize
  bv_omega

theorem parse_entry (hh : Header bytes o ns fs) (h0 : 0 ∉ name)
    (hpre : name ++ [0] <+: bytes.drop (o + 110)) (hne : name ≠ CPIO_FOOTER_MAGIC)
    (hlt : nextOffset o ns fs < bytes.length) :
    cpioParseHeader (ramOf bytes) (BitVec.ofNat 64 o) (BitVec.ofNat 64 bytes.length) =
      .ok (.entry (entryAt o ns fs)) := by
  have htrailer : ¬ IsTrailer bytes o ns := fun ht =>
    hne (eq_of_terminated h0 (by decide) hpre ht.2)
  rw [hh.parse hn, if_neg (room_of_next hh hn (Nat.le_of_lt hlt)).1, if_neg htrailer]

end Parse

def found (d : Addr) : Option Item → Addr × BitVec 64
  | some it => (BitVec.ofNat 64 it.offset + d, it.size)
  | none => (0, 0)

theorem Listing.getFileLoop_eq (h : Listing bytes o items) (hn : Fits bytes)
    (hm : Moved d (ramOf bytes) ram) (hd : 4 ∣ d.toNat) (hname : 0 ∉ name)
    (hlong : name.length ≤ 2 ^ 63) (hfuel : bytes.length ≤ o + fuel) :
    getFileLoop ram name fuel (BitVec.ofNat 64 o + d) (BitVec.ofNat 64 bytes.length) =
      .ok (found d (lookup items name)) := by
  induction h generalizing fuel with
  | trailer hh ht =>
    have hlt := hh.name_lt
    obtain ⟨fuel, rfl⟩ : ∃ k, fuel = k + 1 := ⟨fuel - 1, by omega⟩
    exact bind_eq_ok.mpr ⟨_, hm.cpioParseHeader hd (parse_trailer hn hh ht), rfl⟩
  | @entry o ns fs nm items hh hns h0 hpre hne hrest ih =>
    have hge := hh.lt_next
    have hlt := hrest.complete.lt_length
    obtain ⟨fuel, rfl⟩ : ∃ k, fuel = k + 1 := ⟨fuel - 1, by omega⟩
    have hp := parse_entry hn hh h0 hpre hne hlt
    have hlen := (room_of_next hh hn (Nat.le_of_lt hlt)).2
    have hbound := hh.name_lt
    have hfits := hn
    unfold Fits at hfits
    obtain ⟨t, ht⟩ := cpioStrncmp_ok (s := name) (m := 2 ^ 64 - 1) (o := o + 110) hh.terminated
      (by omega) (by omega)
    have hzero : t = 0 ↔ nm = name := by
      have hcmp := cpioStrncmp_eq_zero (o := o + 110) bytes hname (Nat.le_refl 1) (by omega)
      rw [← cpioStrncmp_long (m := 2 ^ 64 - 1) (by omega), ht, Except.ok.injEq] at hcmp
      rw [hcmp]
      constructor
      · exact fun h => eq_of_terminated h0 hname hpre h
      · rintro rfl
        exact hpre
    refine bind_eq_ok.mpr ⟨_, hm.cpioParseHeader hd hp, bind_eq_ok.mpr ⟨t, hm.cpioStrncmp ht, ?_⟩⟩
    by_cases heq : nm = name
    · rw [if_pos (hzero.mpr heq)]
      rw [lookup_cons, if_pos heq]
      rfl
    · rw [if_neg (fun h => heq (hzero.mp h))]
      rw [lookup_cons, if_neg heq]
      have hnext := ih (show bytes.length ≤ nextOffset o ns fs + fuel by omega)
      rw [← hlen, ← cpioLenNext_move _ _ _ d] at hnext
      exact hnext

theorem Listing.cpioGetFile_eq (h : Listing bytes 0 items) (hn : Fits bytes)
    (hin : Loaded ram a bytes) (ha : 4 ∣ a.toNat) (hname : 0 ∉ name)
    (hlong : name.length ≤ 2 ^ 63) :
    cpioGetFile ram a (BitVec.ofNat 64 bytes.length) name = .ok (found a (lookup items name)) := by
  have hfuel : bytes.length ≤ 0 + 2 ^ 64 := by
    unfold Fits at hn
    omega
  have hget := h.getFileLoop_eq hn hin.moved ha hname hlong hfuel
  rw [show BitVec.ofNat 64 0 + a = a from BitVec.zero_add a] at hget
  exact hget

theorem Listing.exec_fsOpen {w : World} {c : Cpiofs} {i : Fin MAX_FILES}
    (h : Listing bytes 0 items) (hn : Fits bytes) (hin : Loaded w.ram c.archive bytes)
    (ha : 4 ∣ c.archive.toNat) (hlen : c.archiveLen = BitVec.ofNat 64 bytes.length)
    (hname : 0 ∉ name) (hlong : name.length ≤ 2 ^ 63) (hfree : c.firstFree = some i) :
    (Cpiofs.fsOpen w name).exec c =
      match lookup items name with
      | some it => (.ok (i.val : Int),
          c.setFcb i ⟨true, BitVec.ofNat 64 it.offset + c.archive, it.size, 0⟩)
      | none => (.ok K_ENOENT, c) := by
  have hget := h.cpioGetFile_eq hn hin ha hname hlong
  rw [← hlen] at hget
  rw [Cpiofs.exec_fsOpen hget]
  cases hit : lookup items name with
  | none => rfl
  | some it =>
    have hoff := h.offset_lt (lookup_eq_some hit).1
    have hfits := hin.fits
    have hne : BitVec.ofNat 64 it.offset + c.archive ≠ 0 := by bv_omega
    dsimp only
    rw [if_neg hne, hfree]

theorem firstFree_new (mem : Addr) (len : BitVec 64) :
    ∃ i, (⟨mem, len, fun _ => {}⟩ : Cpiofs).firstFree = some i := by
  cases hf : (⟨mem, len, fun _ => {}⟩ : Cpiofs).firstFree with
  | some i => exact ⟨i, rfl⟩
  | none =>
    have h0 := List.find?_eq_none.mp hf ⟨0, by decide⟩ (List.mem_finRange _)
    exact absurd rfl h0

def ramFrom (a : Addr) (bytes : Str) : Ram := fun x => bytes[(x - a).toNat]?

theorem loaded_ramFrom (hfits : a.toNat + bytes.length ≤ 2 ^ 64) :
    Loaded (ramFrom a bytes) a bytes := by
  refine ⟨hfits, fun i b hb => ?_⟩
  obtain ⟨hlt, -⟩ := List.getElem?_eq_some_iff.mp hb
  have hi : (a + BitVec.ofNat 64 i - a).toNat = i := by
    rw [BitVec.add_comm, BitVec.add_sub_cancel, BitVec.toNat_ofNat]
    exact Nat.mod_eq_of_lt (by omega)
  unfold ramFrom
  rw [hi, hb]

theorem wholeArchive_listing : Listing wholeArchive 0 [⟨[0x61], 112, 12⟩] := by
  have hentry : Header wholeArchive 0 2 12 :=
    ⟨by decide +kernel, by decide +kernel, by decide +kernel, by decide +kernel⟩
  have htrailer : Header wholeArchive 124 11 0 :=
    ⟨by decide +kernel, by decide +kernel, by decide +kernel, by decide +kernel⟩
  exact .entry hentry rfl (by decide) (by decide +kernel) (by decide)
    (.trailer htrailer (by decide +kernel))

end Abydos.Vfs
