import Abydos.Vfs.Cursor
import Abydos.Vfs.Listing

namespace Abydos.Vfs

open Abydos.Lib

inductive Counted (ram : Ram) : Addr → BitVec 64 → List HeaderInfo → Prop
  | eof : cpioParseHeader ram header len = .ok .eof → Counted ram header len []
  | entry : cpioParseHeader ram header len = .ok (.entry e) →
      Counted ram e.next (cpioLenNext len header e.next) es → Counted ram header len (e :: es)

def CString (ram : Ram) (a : Addr) (s : Str) : Prop :=
  0 ∉ s ∧ ram.copy a (s.length + 1) = .ok (s ++ [0])

def Opens (w : World) (c : Cpiofs) (name : Str) (file : Addr) (size : BitVec 64) : Prop :=
  ∃ (i : Fin MAX_FILES) (c' : Cpiofs), (Cpiofs.fsOpen w name).exec c = (.ok (i.val : Int), c') ∧
    (c'.fcb i).file = file ∧ (c'.fcb i).size = size

/-- The constructor accepts the archive at `a`, and each name that it counts is found in the copy at
the same distance from the start, with the same size and bytes. -/
def ScansAgree (ram : Ram) (a : Addr) (len : BitVec 64) (mem : Addr) : Prop :=
  ∃ c ram' info es, Cpiofs.new ram a len mem = .ok (some (c, ram')) ∧
    cpioInfo ram a len = .ok (0, info) ∧ Counted ram a len es ∧
    info.fileCount = BitVec.ofNat 32 es.length ∧
    ∀ e ∈ es, ∃ name, CString ram e.filename name ∧
      ∀ w : World, (∀ i < len.toNat, w.ram (mem + BitVec.ofNat 64 i) =
        ram' (mem + BitVec.ofNat 64 i)) →
        Opens w c name (mem + (e.data - a)) e.filesize ∧
        ∃ data, w.ram.copy (mem + (e.data - a)) e.filesize.toNat = .ok data ∧
          ram.copy e.data e.filesize.toNat = .ok data

variable {bytes name : Str} {items : List Item} {it it' : Item} {ram : Ram} {a d mem : Addr}
  {o : Nat} {e : HeaderInfo} {es : List HeaderInfo} {w : World} {c : Cpiofs}

theorem Counted.unique (h : Counted ram a len es) (h' : Counted ram a len es') : es = es' := by
  induction h generalizing es' with
  | eof hp =>
    cases h' with
    | eof => rfl
    | entry hp' => cases hp.symm.trans hp'
  | entry hp _ ih =>
    cases h' with
    | eof hp' => cases hp.symm.trans hp'
    | entry hp' hrest =>
      cases hp.symm.trans hp'
      rw [ih hrest]

theorem CString.unique {s t : Str} (hs : CString ram a s) (ht : CString ram a t) : s = t := by
  have aux {s t : Str} (hs : CString ram a s) (ht : CString ram a t)
      (hle : s.length ≤ t.length) : s = t := by
    have htake := Ram.copy_take ht.2 (Nat.succ_le_succ hle)
    have heq := Except.ok.inj (hs.2.symm.trans htake)
    apply eq_of_terminated hs.1 ht.1 _ List.prefix_rfl
    rw [heq]
    exact List.take_prefix _ _
  rcases Nat.le_total s.length t.length with hle | hle
  · exact aux hs ht hle
  · exact (aux ht hs hle).symm

theorem Opens.unique (h : Opens w c name file size) (h' : Opens w c name file' size') :
    file = file' := by
  obtain ⟨i, c₁, hex, rfl, -⟩ := h
  obtain ⟨j, c₂, hex', rfl, -⟩ := h'
  obtain ⟨hrc, rfl⟩ := Prod.mk.inj (hex.symm.trans hex')
  rw [Fin.ext (Int.natCast_inj.mp (Except.ok.inj hrc))]

def Sees (ram : Ram) (d : Addr) (it : Item) (e : HeaderInfo) : Prop :=
  CString ram e.filename it.name ∧ e.data = BitVec.ofNat 64 it.offset + d ∧ e.filesize = it.size

theorem Listing.counted (h : Listing bytes o items) (hn : Fits bytes)
    (hm : Moved d (ramOf bytes) ram) (hd : 4 ∣ d.toNat) :
    ∃ es, Counted ram (BitVec.ofNat 64 o + d) (BitVec.ofNat 64 bytes.length) es ∧
      es.length = items.length ∧ (∀ e ∈ es, ∃ it ∈ items, Sees ram d it e) ∧
      ∀ it ∈ items, ∃ e ∈ es, Sees ram d it e := by
  induction h with
  | trailer hh ht =>
    refine ⟨[], .eof (hm.cpioParseHeader hd (parse_trailer hn hh ht)), rfl, ?_, ?_⟩ <;>
      exact fun _ h => absurd h List.not_mem_nil
  | @entry o ns fs name items hh hns h0 hpre hne hrest ih =>
    obtain ⟨es, hes, hlength, hleft, hright⟩ := ih
    have hlt := hrest.complete.lt_length
    have hp := hm.cpioParseHeader hd (parse_entry hn hh h0 hpre hne hlt)
    have hlen := (room_of_next hh hn (Nat.le_of_lt hlt)).2
    rw [← hlen, ← cpioLenNext_move _ _ _ d] at hes
    have hbound := hh.name_lt
    have hcopy := hm.copy hn (show o + 110 + (name.length + 1) ≤ bytes.length by omega)
    have htake : (bytes.drop (o + 110)).take (name ++ [0]).length = name ++ [0] :=
      (List.prefix_iff_eq_take.mp hpre).symm
    rw [List.length_append, List.length_singleton] at htake
    rw [htake] at hcopy
    have hsees : Sees ram d ⟨name, dataOffset o ns, fs⟩ ⟨BitVec.ofNat 64 (o + 110) + d, fs,
        BitVec.ofNat 64 (dataOffset o ns) + d, BitVec.ofNat 64 (nextOffset o ns fs) + d⟩ :=
      ⟨⟨h0, hcopy⟩, rfl, rfl⟩
    refine ⟨_ :: es, .entry hp hes, congrArg (· + 1) hlength, ?_, ?_⟩
    · refine List.forall_mem_cons.mpr ⟨⟨_, List.mem_cons_self, hsees⟩, fun e he => ?_⟩
      obtain ⟨it, hit, h⟩ := hleft e he
      exact ⟨it, List.mem_cons_of_mem _ hit, h⟩
    · refine List.forall_mem_cons.mpr ⟨⟨_, List.mem_cons_self, hsees⟩, fun it hit => ?_⟩
      obtain ⟨e, he, h⟩ := hright it hit
      exact ⟨e, List.mem_cons_of_mem _ he, h⟩

theorem Listing.infoLoop_eq (h : Listing bytes o items) (hn : Fits bytes)
    (hfuel : bytes.length ≤ o + fuel) (info : CpioInfo) :
    ∃ sz, infoLoop (ramOf bytes) fuel (BitVec.ofNat 64 o) (BitVec.ofNat 64 bytes.length) info =
      .ok (0, ⟨info.fileCount + BitVec.ofNat 32 items.length, sz⟩) := by
  induction h generalizing fuel info with
  | trailer hh ht =>
    have hlt := hh.name_lt
    obtain ⟨fuel, rfl⟩ : ∃ k, fuel = k + 1 := ⟨fuel - 1, by omega⟩
    refine ⟨info.maxPathSz, bind_eq_ok.mpr ⟨_, parse_trailer hn hh ht, ?_⟩⟩
    rw [List.length_nil, BitVec.add_zero]
    rfl
  | @entry o ns fs name items hh hns h0 hpre hne hrest ih =>
    have hlt := hrest.complete.lt_length
    have hge := hh.lt_next
    have hbound := hh.name_lt
    obtain ⟨fuel, rfl⟩ : ∃ k, fuel = k + 1 := ⟨fuel - 1, by omega⟩
    have hfits := hn
    unfold Fits at hfits
    obtain ⟨size, hsize⟩ := strlenLoop_ok (y := BitVec.ofNat 64 (o + 110)) hh.terminated
      (show o + 109 + ns.toNat < 2 ^ 64 by omega) (show o + 110 ≤ o + 109 + ns.toNat by omega)
      (show o + 109 + ns.toNat - (o + 110) < 2 ^ 64 by omega)
    obtain ⟨sz, hsz⟩ := ih (show bytes.length ≤ nextOffset o ns fs + fuel by omega)
      ⟨info.fileCount + 1, if info.maxPathSz < size then size else info.maxPathSz⟩
    rw [← (room_of_next hh hn (Nat.le_of_lt hlt)).2] at hsz
    refine ⟨sz, bind_eq_ok.mpr ⟨_, parse_entry hn hh h0 hpre hne hlt,
      bind_eq_ok.mpr ⟨size, hsize, hsz.trans ?_⟩⟩⟩
    rw [List.length_cons, Nat.add_comm, BitVec.ofNat_add, BitVec.add_assoc]
    rfl

theorem getFileLoop_aligned (h : getFileLoop ram name fuel a len = .ok (file, size)) :
    4 ∣ file.toNat := by
  rcases getFileLoop_placed h with ⟨rfl, -⟩ | ⟨x, ns, rfl, -⟩
  · decide
  · exact placed_data_dvd x ns size

theorem Opens.aligned (h : Opens w c name file size) : 4 ∣ file.toNat := by
  obtain ⟨i, c', hex, rfl, -⟩ := h
  obtain ⟨hneg, -⟩ | ⟨j, file, size, hj, -, ⟨hget, -⟩, rfl⟩ := Cpiofs.fsOpen_cases hex
  · omega
  · obtain rfl : i = j := Fin.ext (by omega)
    rw [Cpiofs.setFcb_fcb, if_pos rfl]
    exact getFileLoop_aligned hget

theorem Listing.scansAgree (hl : Listing bytes 0 items) (hn : Fits bytes)
    (hin : Loaded ram a bytes) (ha : 4 ∣ a.toNat) (hmem : 4 ∣ mem.toNat)
    (hout : mem.toNat + bytes.length ≤ 2 ^ 64) (hnames : (items.map Item.name).Nodup) :
    ScansAgree ram a (BitVec.ofNat 64 bytes.length) mem := by
  have hlen : (BitVec.ofNat 64 bytes.length).toNat = bytes.length := by
    unfold Fits at hn
    rw [BitVec.toNat_ofNat]
    exact Nat.mod_eq_of_lt (by omega)
  have hzero : BitVec.ofNat 64 0 + a = a := BitVec.zero_add a
  obtain ⟨sz, hinfo⟩ := hl.infoLoop_eq hn
    (show bytes.length ≤ 0 + 2 ^ 64 by unfold Fits at hn; omega) {}
  replace hinfo := hin.moved.infoLoop ha hinfo
  obtain ⟨es, hes, hlength, hsees, -⟩ := hl.counted hn hin.moved ha
  rw [hzero] at hinfo hes
  refine ⟨_, _, _, es, Cpiofs.new_of_info hinfo (hin.copy_len hn), hinfo, hes, ?_, ?_⟩
  · rw [hlength]
    exact BitVec.zero_add _
  intro e he
  obtain ⟨it, hit, hname, hdata, hsize⟩ := hsees e he
  refine ⟨it.name, hname, fun w hw => ?_⟩
  have hcopy : Loaded w.ram mem bytes := .kept hout (hlen ▸ hw)
  obtain ⟨hoff, hend⟩ := hl.offset_lt hit
  have hfind : lookup items it.name = some it := by
    obtain ⟨it', hit'⟩ := exists_lookup hit
    obtain ⟨hmem', heq⟩ := lookup_eq_some hit'
    rw [hit', List.inj_on_of_nodup_map hnames hmem' hit heq]
  have hwhere : mem + (e.data - a) = BitVec.ofNat 64 it.offset + mem := by
    rw [hdata, BitVec.add_sub_cancel, BitVec.add_comm]
  rw [hwhere, hsize]
  constructor
  · obtain ⟨i, hi⟩ := firstFree_new mem (BitVec.ofNat 64 bytes.length)
    have hex := hl.exec_fsOpen (c := ⟨mem, _, fun _ => {}⟩) hn hcopy hmem rfl (hl.name_ok hit).1
      (by have := (hl.name_ok hit).2; unfold Fits at hn; omega) hi
    rw [hfind] at hex
    refine ⟨i, _, hex, ?_⟩
    rw [Cpiofs.setFcb_fcb, if_pos rfl]
    exact ⟨rfl, rfl⟩
  · refine ⟨_, hcopy.moved.copy hn (Nat.le_of_lt hend), ?_⟩
    rw [hdata]
    exact hin.moved.copy hn (Nat.le_of_lt hend)

theorem ScansAgree.aligned (h : ScansAgree ram a (BitVec.ofNat 64 bytes.length) mem)
    (hl : Listing bytes 0 (it :: items)) (hn : Fits bytes) (hin : Loaded ram a bytes)
    (hmem : 4 ∣ mem.toNat) : 4 ∣ a.toNat := by
  obtain ⟨c, ram', info, es, hnew, -, hes, -, hall⟩ := h
  cases hl with
  | @entry _ ns fs name _ hh hns h0 hpre hne hrest =>
    have hlt := hrest.complete.lt_length
    have htrailer : ¬ IsTrailer bytes 0 ns := fun ht =>
      hne (eq_of_terminated h0 (by decide) hpre ht.2)
    have hp := hh.parse_moved hn hin.moved (BitVec.ofNat 64 bytes.length)
    rw [show BitVec.ofNat 64 0 + a = a from BitVec.zero_add a,
      if_neg (room_of_next hh hn (Nat.le_of_lt hlt)).1, if_neg htrailer] at hp
    cases hes with
    | eof hp' => cases hp.symm.trans hp'
    | entry hp' =>
      cases hp.symm.trans hp'
      obtain ⟨nm, -, hopen⟩ := hall _ List.mem_cons_self
      have hfile := (hopen ⟨ram', fun _ _ => 0⟩ (fun _ _ => rfl)).1.aligned
      have hdata := placed_data_dvd a ns fs
      have := a.isLt
      rw [BitVec.toNat_add, BitVec.toNat_sub] at hfile
      omega

theorem ScansAgree.nodup (h : ScansAgree ram a (BitVec.ofNat 64 bytes.length) mem)
    (hl : Listing bytes 0 items) (hn : Fits bytes) (hin : Loaded ram a bytes)
    (ha : 4 ∣ a.toNat) : (items.map Item.name).Nodup := by
  obtain ⟨c, ram', info, es, hnew, -, hes, -, hall⟩ := h
  obtain ⟨es', hes', -, -, hsees⟩ := hl.counted hn hin.moved ha
  rw [show BitVec.ofNat 64 0 + a = a from BitVec.zero_add a] at hes'
  obtain rfl := hes.unique hes'
  have hopen : ∀ it ∈ items, Opens ⟨ram', fun _ _ => 0⟩ c it.name
      (mem + BitVec.ofNat 64 it.offset) it.size := by
    intro it hit
    obtain ⟨e, he, hname, hdata, hsize⟩ := hsees it hit
    obtain ⟨nm, hnm, hw⟩ := hall e he
    have hop := (hw ⟨ram', fun _ _ => 0⟩ (fun _ _ => rfl)).1
    rw [hnm.unique hname, hdata, hsize, BitVec.add_sub_cancel] at hop
    exact hop
  refine (List.nodup_map_iff_inj_on hl.nodup).mpr fun x hx y hy heq => ?_
  have hy' := hopen y hy
  rw [← heq] at hy'
  have hsame := (hopen x hx).unique hy'
  have := hl.offset_lt hx
  have := hl.offset_lt hy
  unfold Fits at hn
  exact hl.eq_of_offset hx hy (by bv_omega)

theorem Listing.scansAgree_nil (hl : Listing bytes 0 []) (hn : Fits bytes)
    (hin : Loaded ram a bytes) : ScansAgree ram a (BitVec.ofNat 64 bytes.length) mem := by
  cases hl with
  | trailer hh ht =>
    have hlt := hh.name_lt
    have hp := hh.parse_moved hn hin.moved (BitVec.ofNat 64 bytes.length)
    rw [show BitVec.ofNat 64 0 + a = a from BitVec.zero_add a, if_pos ht, if_neg] at hp
    · have hinfo : cpioInfo ram a (BitVec.ofNat 64 bytes.length) = .ok (0, {}) :=
        bind_eq_ok.mpr ⟨_, hp, rfl⟩
      exact ⟨_, _, {}, [], Cpiofs.new_of_info hinfo (hin.copy_len hn), hinfo, .eof hp, rfl,
        fun e he => absurd he List.not_mem_nil⟩
    · unfold Fits at hn
      unfold headerSize
      bv_omega

/-- A well-formed archive is counted and opened alike exactly if it was loaded at a multiple of four
and no name comes twice, or if there is nothing in it. -/
theorem scans_agree_iff (hmem : 16 ∣ mem.toNat) (hin : Loaded ram a bytes)
    (hout : mem.toNat + bytes.length ≤ 2 ^ 64)
    (hdisj : a.toNat + bytes.length ≤ mem.toNat ∨ mem.toNat + bytes.length ≤ a.toNat)
    (hl : Listing bytes 0 items) :
    ScansAgree ram a (BitVec.ofNat 64 bytes.length) mem ↔
      items = [] ∨ (4 ∣ a.toNat ∧ (items.map Item.name).Nodup) := by
  have hn : Fits bytes := by
    have := hin.fits
    unfold Fits
    omega
  have hmem4 : 4 ∣ mem.toNat := dvd_trans (by decide) hmem
  constructor
  · intro h
    cases items with
    | nil => exact Or.inl rfl
    | cons it items =>
      have ha := h.aligned hl hn hin hmem4
      exact Or.inr ⟨ha, h.nodup hl hn hin ha⟩
  · rintro (rfl | ⟨ha, hnames⟩)
    · exact hl.scansAgree_nil hn hin
    · exact hl.scansAgree hn hin ha hmem4 hout hnames

theorem scans_agree_iff_aligned :
    ScansAgree (ramFrom 0x82200000 wholeArchive) 0x82200000 (BitVec.ofNat 64 wholeArchive.length)
      0x80001000 :=
  (scans_agree_iff (by decide) (loaded_ramFrom (by decide +kernel)) (by decide +kernel)
    (by decide +kernel) wholeArchive_listing).mpr (Or.inr ⟨by decide, by decide⟩)

theorem scan_rejects :
    Loaded (ramFrom 0x82200002 wholeArchive) 0x82200002 wholeArchive ∧
    Listing wholeArchive 0 [⟨[0x61], 112, 12⟩] ∧
    Cpiofs.new (ramFrom 0x82200002 wholeArchive) 0x82200002
      (BitVec.ofNat 64 wholeArchive.length) 0x80001000 = .ok none ∧
    ¬ ScansAgree (ramFrom 0x82200002 wholeArchive) 0x82200002
      (BitVec.ofNat 64 wholeArchive.length) 0x80001000 := by
  have hinfo : cpioInfo (ramFrom 0x82200002 wholeArchive) 0x82200002
      (BitVec.ofNat 64 wholeArchive.length) = .ok (-1, ⟨1, 1⟩) := by decide +kernel
  have hnew : Cpiofs.new (ramFrom 0x82200002 wholeArchive) 0x82200002
      (BitVec.ofNat 64 wholeArchive.length) 0x80001000 = .ok none :=
    bind_eq_ok.mpr ⟨_, hinfo, rfl⟩
  refine ⟨loaded_ramFrom (by decide +kernel), wholeArchive_listing, hnew, ?_⟩
  rintro ⟨c, ram', info, es, hsome, -⟩
  cases hnew.symm.trans hsome

end Abydos.Vfs
