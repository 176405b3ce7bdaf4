import Abydos.Vfs.Archive
import Abydos.Vfs.Tables

namespace Abydos.Vfs

open Abydos.Lib

def Ram.within (ram : Ram) (a : Addr) (n : Nat) : Ram := fun x =>
  if (x - a).toNat < n then ram x else none

/-- A scan that comes to an end and reads only `[a, a + n)` on its way. -/
def Confined (ram : Ram) (a : Addr) (n : Nat) (scan : Ram → Except Trap α) : Prop :=
  ∃ r, scan (ram.within a n) = .ok r ∧ scan ram = .ok r

structure Loaded (ram : Ram) (a : Addr) (bytes : Str) : Prop where
  fits : a.toNat + bytes.length ≤ 2 ^ 64
  get : ∀ i b, bytes[i]? = some b → ram (a + BitVec.ofNat 64 i) = some b

/-- `open` reads only the archive and, when it succeeds, records a window of it. -/
def OpenConfined (w : World) (c : Cpiofs) (path : Str) : Prop :=
  ∃ rc c', (Cpiofs.fsOpen { w with ram := w.ram.within c.archive c.archiveLen.toNat } path).exec c =
      (.ok rc, c') ∧
    (Cpiofs.fsOpen w path).exec c = (.ok rc, c') ∧
    ∀ i : Fin MAX_FILES, rc = i.val → c.archive.toNat ≤ (c'.fcb i).file.toNat ∧
      (c'.fcb i).file.toNat + (c'.fcb i).size.toNat ≤ c.archive.toNat + c.archiveLen.toNat

namespace Loaded

variable {bytes : Str} {ram : Ram} {a : Addr} {w : World} {c : Cpiofs}

theorem moved (h : Loaded ram a bytes) : Moved a (ramOf bytes) ram := by
  intro x b hx
  have := h.get x.toNat b hx
  rwa [BitVec.ofNat_toNat, BitVec.setWidth_eq, BitVec.add_comm] at this

theorem moved_within (h : Loaded ram a bytes) :
    Moved a (ramOf bytes) (ram.within a bytes.length) := by
  intro x b hx
  obtain ⟨hlt, -⟩ := List.getElem?_eq_some_iff.mp hx
  unfold Ram.within
  rw [BitVec.add_sub_cancel, if_pos hlt]
  exact h.moved x b hx

theorem moved_back (h : Loaded ram a bytes) :
    Moved (-a) (ram.within a bytes.length) (ramOf bytes) := by
  intro y b hy
  unfold Ram.within at hy
  split at hy
  · next hlt =>
    rw [BitVec.sub_eq_add_neg] at hlt
    have hget := h.get _ _ (List.getElem?_eq_getElem hlt)
    have hback : a + BitVec.ofNat 64 (y + -a).toNat = y := by
      rw [BitVec.ofNat_toNat, BitVec.setWidth_eq]
      bv_omega
    rw [hback, hy] at hget
    exact (List.getElem?_eq_getElem hlt).trans hget.symm
  · cases hy

theorem copy (h : Loaded ram a bytes) : ram.copy a bytes.length = .ok bytes := by
  induction bytes generalizing a with
  | nil => rfl
  | cons b bytes ih =>
    have hfits := h.fits
    rw [List.length_cons] at hfits
    have hb : ram.load a = .ok b := by
      have := h.get 0 b rfl
      rw [BitVec.add_zero] at this
      exact Ram.load_eq_ok.mpr this
    cases bytes with
    | nil => exact bind_eq_ok.mpr ⟨b, hb, rfl⟩
    | cons b' bytes =>
      rw [List.length_cons] at hfits
      have hrest : Loaded ram (a + 1) (b' :: bytes) := by
        refine ⟨?_, fun i c hc => ?_⟩
        · rw [List.length_cons]
          bv_omega
        · have := h.get (i + 1) c hc
          rwa [ofNat_succ, BitVec.add_comm (BitVec.ofNat 64 i), ← BitVec.add_assoc] at this
      exact bind_eq_ok.mpr ⟨b, hb, bind_eq_ok.mpr ⟨_, ih hrest, rfl⟩⟩

theorem copy_len (h : Loaded ram a bytes) (hn : Fits bytes) :
    ram.copy a (BitVec.ofNat 64 bytes.length).toNat = .ok bytes := by
  rw [BitVec.toNat_ofNat, Nat.mod_eq_of_lt (by unfold Fits at hn; omega)]
  exact h.copy

theorem fill (hfits : a.toNat + bytes.length ≤ 2 ^ 64) : Loaded (ram.fill a bytes) a bytes := by
  refine ⟨hfits, fun i b hb => ?_⟩
  obtain ⟨hlt, -⟩ := List.getElem?_eq_some_iff.mp hb
  have hi : (a + BitVec.ofNat 64 i - a).toNat = i := by
    rw [BitVec.add_comm, BitVec.add_sub_cancel, BitVec.toNat_ofNat]
    exact Nat.mod_eq_of_lt (by omega)
  unfold Ram.fill
  rw [hi, if_pos hlt, hb]

theorem kept (hfits : a.toNat + bytes.length ≤ 2 ^ 64) (hw : ∀ i < bytes.length,
    w.ram (a + BitVec.ofNat 64 i) = ram.fill a bytes (a + BitVec.ofNat 64 i)) :
    Loaded w.ram a bytes := by
  have hfill : Loaded (ram.fill a bytes) a bytes := fill hfits
  refine ⟨hfits, fun i b hb => ?_⟩
  rw [hw i (List.getElem?_eq_some_iff.mp hb).1]
  exact hfill.get i b hb

theorem cpioInfo_confined (h : Loaded ram a bytes) (ha : 4 ∣ a.toNat) (hn : Fits bytes)
    (hc : Complete bytes 0) :
    Confined ram a bytes.length fun m => cpioInfo m a (BitVec.ofNat 64 bytes.length) := by
  unfold Fits at hn
  obtain ⟨r, hr⟩ : ∃ r, infoLoop (ramOf bytes) (2 ^ 64) (BitVec.ofNat 64 0)
      (BitVec.ofNat 64 bytes.length) {} = .ok r := hc.infoLoop_ok hn (by omega)
  have hin := h.moved_within.infoLoop ha hr
  have hram := h.moved.infoLoop ha hr
  rw [BitVec.ofNat_eq_ofNat, BitVec.zero_add] at hin hram
  exact ⟨r, hin, hram⟩

theorem complete_of_cpioInfo (h : Loaded ram a bytes) (ha : 4 ∣ a.toNat) (hn : Fits bytes)
    (hi : cpioInfo (ram.within a bytes.length) a len = .ok (0, info)) : Complete bytes 0 := by
  have ha' : 4 ∣ (-a).toNat := by
    rw [BitVec.toNat_neg]
    omega
  have h0 := h.moved_back.infoLoop ha' hi
  rw [← BitVec.sub_eq_add_neg, BitVec.sub_self] at h0
  exact Complete.of_infoLoop hn (by decide) h0

end Loaded

variable {bytes : Str} {ram ram' : Ram} {a mem : Addr} {w : World} {c : Cpiofs}

theorem Cpiofs.new_eq_some (h : Cpiofs.new ram a len mem = .ok (some (c, ram'))) :
    ∃ info bytes, cpioInfo ram a len = .ok (0, info) ∧ ram.copy a len.toNat = .ok bytes ∧
      c = ⟨mem, len, fun _ => {}⟩ ∧ ram' = ram.fill mem bytes := by
  obtain ⟨⟨rc, info⟩, hinfo, h⟩ := bind_eq_ok.mp h
  by_cases hrc : rc ≠ 0
  · have hnone := (if_pos hrc).symm.trans h
    cases hnone
  · obtain ⟨bytes, hcopy, h⟩ := bind_eq_ok.mp ((if_neg hrc).symm.trans h)
    obtain ⟨rfl, rfl⟩ := Prod.mk.inj (Option.some.inj (Except.ok.inj h))
    obtain rfl : rc = 0 := not_not.mp hrc
    exact ⟨info, bytes, hinfo, hcopy, rfl, rfl⟩

theorem Cpiofs.new_of_info (hinfo : cpioInfo ram a len = .ok (0, info))
    (hcopy : ram.copy a len.toNat = .ok bytes) :
    Cpiofs.new ram a len mem = .ok (some (⟨mem, len, fun _ => {}⟩, ram.fill mem bytes)) :=
  bind_eq_ok.mpr ⟨_, hinfo, bind_eq_ok.mpr ⟨bytes, hcopy, rfl⟩⟩

theorem Cpiofs.exec_fsOpen (hg : cpioGetFile w.ram c.archive c.archiveLen path = .ok (file, size)) :
    (Cpiofs.fsOpen w path).exec c =
      if file = 0 then (.ok K_ENOENT, c)
      else match c.firstFree with
        | some i => (.ok (i.val : Int), c.setFcb i ⟨true, file, size, 0⟩)
        | none => (.ok K_ENOMEM, c) := by
  unfold Cpiofs.fsOpen
  rw [Prog.exec_bind_ok (Prog.exec_get c), hg, Prog.exec_bind_ok (exec_liftExcept_ok _ c),
    Prog.exec_ite]
  cases hf : c.firstFree with
  | none => rfl
  | some i => rfl

theorem Cpiofs.exec_fsOpen_ok
    (hg : cpioGetFile w.ram c.archive c.archiveLen path = .ok (file, size)) :
    ∃ rc c', (Cpiofs.fsOpen w path).exec c = (.ok rc, c') := by
  rw [Cpiofs.exec_fsOpen hg]
  split
  · exact ⟨_, _, rfl⟩
  · cases c.firstFree <;> exact ⟨_, _, rfl⟩

theorem openConfined (h : Loaded w.ram c.archive bytes) (ha : 4 ∣ c.archive.toNat)
    (hn : Fits bytes) (hlen : c.archiveLen = BitVec.ofNat 64 bytes.length)
    (hc : Complete bytes 0) (path : Str) : OpenConfined w c path := by
  have hnat : c.archiveLen.toNat = bytes.length := by
    unfold Fits at hn
    rw [hlen, BitVec.toNat_ofNat]
    exact Nat.mod_eq_of_lt (by omega)
  obtain ⟨r, hr, hin⟩ := hc.getFileLoop_ok hn
    (show bytes.length ≤ 0 + 2 ^ 64 by unfold Fits at hn; omega) path c.archiveLen
  obtain ⟨⟨file, size⟩, hwhere, hmove⟩ := getFileLoop_moved ha hr
  have hzero : BitVec.ofNat 64 0 + c.archive = c.archive := BitVec.zero_add _
  have hg := hmove _ h.moved
  have hgin := hmove _ h.moved_within
  rw [hzero] at hg hgin
  rw [← hnat] at hgin
  have hrun := Cpiofs.exec_fsOpen hg
  have hrunin := Cpiofs.exec_fsOpen
    (w := { w with ram := w.ram.within c.archive c.archiveLen.toNat }) hgin
  obtain ⟨rc, c', hex⟩ := Cpiofs.exec_fsOpen_ok hg
  refine ⟨rc, c', hrunin.trans (hrun.symm.trans hex), hex, ?_⟩
  rintro i rfl
  obtain ⟨hneg, -⟩ | ⟨j, file', size', hj, -, ⟨hg', hfile⟩, rfl⟩ := Cpiofs.fsOpen_cases hex
  · omega
  · obtain rfl : i = j := Fin.ext (by omega)
    obtain ⟨rfl, rfl⟩ := Prod.mk.inj (Except.ok.inj (hg.symm.trans hg'))
    have hslot : (c.setFcb i ⟨true, file, size, 0⟩).fcb i = ⟨true, file, size, 0⟩ :=
      Function.update_self i _ c.fcb
    rw [hslot, hnat]
    have hfits := h.fits
    obtain h0 | hr := hwhere
    · exact absurd (Prod.mk.inj h0).1 hfile
    · obtain ⟨rfl, rfl⟩ := Prod.mk.inj hr
      unfold Fits at hn
      bv_omega

/-- An archive that the constructor accepts is scanned and read inside its bytes exactly when it
runs to a trailer of its own. -/
theorem archive_confined_iff (ha : 4 ∣ a.toNat) (hmem : 16 ∣ mem.toNat)
    (hin : Loaded ram a bytes) (hout : mem.toNat + bytes.length ≤ 2 ^ 64)
    (hdisj : a.toNat + bytes.length ≤ mem.toNat ∨ mem.toNat + bytes.length ≤ a.toNat)
    (hnew : Cpiofs.new ram a (BitVec.ofNat 64 bytes.length) mem = .ok (some (c, ram'))) :
    (Confined ram a bytes.length (fun m => cpioInfo m a (BitVec.ofNat 64 bytes.length)) ∧
      ∀ w : World, (∀ i < bytes.length, w.ram (mem + BitVec.ofNat 64 i) =
        ram' (mem + BitVec.ofNat 64 i)) →
        ∀ fcb path, OpenConfined w { c with fcb := fcb } path) ↔
    Complete bytes 0 := by
  have hn : Fits bytes := by
    have := hin.fits
    unfold Fits
    omega
  obtain ⟨info, bytes', hinfo, hcopy, rfl, rfl⟩ := Cpiofs.new_eq_some hnew
  rw [hin.copy_len hn] at hcopy
  obtain rfl := Except.ok.inj hcopy
  constructor
  · rintro ⟨⟨r, hwithin, hram⟩, -⟩
    obtain rfl : (0, info) = r := Except.ok.inj (hinfo.symm.trans hram)
    exact hin.complete_of_cpioInfo ha hn hwithin
  · intro hc
    refine ⟨hin.cpioInfo_confined ha hn hc, fun w hw fcb path => ?_⟩
    exact openConfined (.kept hout hw) (dvd_trans (by decide) hmem) hn rfl hc path

def archiveEntry (fs ns : UInt8) (name data : Str) : Str :=
  CPIO_HEADER_MAGIC ++ List.replicate 55 0x30 ++ [fs] ++ List.replicate 39 0x30 ++ [ns] ++
    List.replicate 8 0x30 ++ name ++ data

def entryA : Str := archiveEntry 0x43 0x32 [0x61, 0] (List.replicate 12 7)
def entryB : Str := archiveEntry 0x34 0x32 [0x62, 0] [1, 2, 3, 4]
def archiveTrailer : Str := archiveEntry 0x30 0x42 (CPIO_FOOTER_MAGIC ++ [0]) []

def repeated (bytes : Str) : Ram := fun x => bytes[x.toNat % 4096]?

theorem loaded_repeated (ha : 4096 ∣ a.toNat) (hn : bytes.length ≤ 4096) (rest : Str) :
    Loaded (repeated (bytes ++ rest)) a bytes := by
  have := a.isLt
  refine ⟨by omega, fun i b hb => ?_⟩
  obtain ⟨hi, -⟩ := List.getElem?_eq_some_iff.mp hb
  have hmod : (a + BitVec.ofNat 64 i).toNat % 4096 = i := by
    rw [BitVec.toNat_add, BitVec.toNat_ofNat]
    omega
  unfold repeated
  rw [hmod, List.getElem?_append_left hi]
  exact hb

def wholeArchive : Str := entryA ++ archiveTrailer

theorem archive_confined_iff_trailer : ∃ c ram',
    Cpiofs.new (repeated wholeArchive) 0x82200000 (BitVec.ofNat 64 wholeArchive.length) 0x80001000 =
      .ok (some (c, ram')) ∧
    Confined (repeated wholeArchive) 0x82200000 wholeArchive.length
      (fun m => cpioInfo m 0x82200000 (BitVec.ofNat 64 wholeArchive.length)) ∧
    ∀ w : World, (∀ i < wholeArchive.length, w.ram (0x80001000 + BitVec.ofNat 64 i) =
      ram' (0x80001000 + BitVec.ofNat 64 i)) →
      ∀ fcb path, OpenConfined w { c with fcb := fcb } path := by
  have hin : Loaded (repeated wholeArchive) 0x82200000 wholeArchive := by
    have h : Loaded (repeated (wholeArchive ++ [])) 0x82200000 wholeArchive :=
      loaded_repeated (by decide) (by decide +kernel) []
    rwa [List.append_nil] at h
  have hinfo : cpioInfo (repeated wholeArchive) 0x82200000 (BitVec.ofNat 64 wholeArchive.length) =
      .ok (0, ⟨1, 1⟩) := by
    decide +kernel
  have hn : Fits wholeArchive := by
    unfold Fits
    decide +kernel
  have hnew : Cpiofs.new (repeated wholeArchive) 0x82200000
      (BitVec.ofNat 64 wholeArchive.length) 0x80001000 = _ :=
    Cpiofs.new_of_info hinfo (hin.copy_len hn)
  have hscan : infoLoop (ramOf wholeArchive) 3 (BitVec.ofNat 64 0) 245 {} = .ok (0, ⟨1, 1⟩) := by
    decide +kernel
  have hc : Complete wholeArchive 0 := Complete.of_infoLoop hn (by decide) hscan
  exact ⟨_, _, hnew, (archive_confined_iff (by decide) (by decide) hin (by decide +kernel)
    (by decide +kernel) hnew).mpr hc⟩

def cutRam : Ram := repeated (entryA ++ (entryB ++ archiveTrailer))
def cutFs : Cpiofs := ⟨0x80001000, BitVec.ofNat 64 entryA.length, fun _ => {}⟩
def cutCopy : Ram := cutRam.fill 0x80001000 entryA
def cutWorld : World := ⟨cutCopy, fun _ _ => 0⟩

/-- The constructor accepts the archive, for its scan goes on behind it, and `open` then finds a
file behind the copy. -/
theorem archive_read_outside :
    Loaded cutRam 0x82200000 entryA ∧
    Cpiofs.new cutRam 0x82200000 (BitVec.ofNat 64 entryA.length) 0x80001000 =
      .ok (some (cutFs, cutCopy)) ∧
    ¬ Confined cutRam 0x82200000 entryA.length
      (fun m => cpioInfo m 0x82200000 (BitVec.ofNat 64 entryA.length)) ∧
    ∃ i c', (Cpiofs.fsOpen cutWorld [0x62]).exec cutFs = (.ok (i.val : Int), c') ∧
      cutFs.archive.toNat + cutFs.archiveLen.toNat < (c'.fcb i).file.toNat := by
  have hin : Loaded cutRam 0x82200000 entryA := loaded_repeated (by decide) (by decide +kernel) _
  have hn : Fits entryA := by
    unfold Fits
    decide +kernel
  have hinfo : cpioInfo cutRam 0x82200000 (BitVec.ofNat 64 entryA.length) = .ok (0, ⟨2, 1⟩) := by
    decide +kernel
  have hout : cpioInfo (cutRam.within 0x82200000 entryA.length) 0x82200000
      (BitVec.ofNat 64 entryA.length) = .error (.fault 0x8220007c) := by
    decide +kernel
  have hget : cpioGetFile cutWorld.ram cutFs.archive cutFs.archiveLen [0x62] =
      .ok (0x800010ec, 4) := by
    decide +kernel
  have hfree : cutFs.firstFree = some ⟨0, by decide⟩ := by decide +kernel
  have hopen := Cpiofs.exec_fsOpen hget
  rw [if_neg (by decide), hfree] at hopen
  refine ⟨hin, ?_, ?_, ⟨0, by decide⟩, _, hopen, ?_⟩
  · unfold cutFs cutCopy
    exact Cpiofs.new_of_info hinfo (hin.copy_len hn)
  · rintro ⟨r, hr, -⟩
    cases hout.symm.trans hr
  · decide +kernel

end Abydos.Vfs
