import Abydos.Vfs.Cursor
import Abydos.Vfs.Listing
import Abydos.Vfs.Resolve

namespace Abydos.Vfs

open Abydos.Lib

def readBytes (w : World) (fd : Int) : List (BitVec 32) → VfsM Str
  | [] => return []
  | count :: counts => do
    let (_, data) ← vfsRead w fd count
    let rest ← readBytes w fd counts
    return data ++ rest

def Yields (w : World) (v : VirtualFS) (fd : Int) (contents : Str) : Prop :=
  ∀ counts : List (BitVec 32), (∀ count ∈ counts, 0 ≤ count.toInt) →
    ∃ v', (readBytes w fd counts).exec v =
      (.ok (contents.take (counts.map BitVec.toNat).sum), v')

/-- One `open` succeeds if and only if the other does, and the descriptors then yield the same
bytes. -/
def SameFile (w : World) (v : VirtualFS) (path : Str) (v' : VirtualFS) (path' : Str) : Prop :=
  ((∃ fd v₁, (vfsOpen w path).exec v = (.ok fd, v₁) ∧ 0 ≤ fd) ↔
    ∃ fd v₁, (vfsOpen w path').exec v' = (.ok fd, v₁) ∧ 0 ≤ fd) ∧
  ∀ fd v₁ fd' v₁', (vfsOpen w path).exec v = (.ok fd, v₁) → 0 ≤ fd →
    (vfsOpen w path').exec v' = (.ok fd', v₁') → 0 ≤ fd' →
    ∃ contents, Yields w v₁ fd contents ∧ Yields w v₁' fd' contents

/-- A `CPIOFS` with the archive is mounted at `m` and nothing else is, a slot of it is free, and the
next descriptor is a new one. -/
structure MountedAt (w : World) (bytes m : Str) (p : FsPtr) (v : VirtualFS) : Prop where
  only : v.fsMap = [(m, p)]
  loaded : Loaded w.ram (v.fs p).archive bytes
  aligned : 16 ∣ (v.fs p).archive.toNat
  length : (v.fs p).archiveLen = BitVec.ofNat 64 bytes.length
  slot : ∃ i, (v.fs p).firstFree = some i
  counter : 3 ≤ v.fdCounter.toInt
  unused : v.fdMap v.fdCounter.toInt = none

variable {w : World} {v v' : VirtualFS} {bytes m name contents : Str} {items : List Item}
  {it : Item} {p p' : FsPtr} {fd : Int} {i : Fin MAX_FILES}

theorem Yields.unique (h : Yields w v fd contents) (h' : Yields w v fd contents') :
    contents = contents' := by
  have hone : ∀ count ∈ List.replicate (max contents.length contents'.length) (1 : BitVec 32),
      0 ≤ count.toInt := by
    intro count hc
    rw [List.eq_of_mem_replicate hc]
    decide
  obtain ⟨v₁, hex⟩ := h _ hone
  obtain ⟨v₂, hex'⟩ := h' _ hone
  have heq := Except.ok.inj (Prod.mk.inj (hex.symm.trans hex')).1
  rw [List.map_replicate, List.sum_replicate_nat] at heq
  change contents.take (max contents.length contents'.length * 1) =
    contents'.take (max contents.length contents'.length * 1) at heq
  rwa [Nat.mul_one, List.take_of_length_le (Nat.le_max_left _ _),
    List.take_of_length_le (Nat.le_max_right _ _)] at heq

structure OpenAt (w : World) (v : VirtualFS) (fd : Int) (contents : Str) (k : Nat) : Prop where
  stdin : fd ≠ FILE_STDIN
  slot : ∃ (p : FsPtr) (i : Fin MAX_FILES) (f : Fcb), v.fdMap fd = some (p, (i.val : Int)) ∧
    (v.fs p).fcb i = f ∧ f.used = true ∧ f.InFile ∧ f.lpos.toNat = k ∧
    w.ram.copy f.file f.size.toNat = .ok contents

theorem toNat_signExtend {count : BitVec 32} (hc : 0 ≤ count.toInt) :
    (count.signExtend 64).toNat = count.toNat := by
  have hlt := count.isLt
  rw [BitVec.toInt_eq_toNat_cond] at hc
  have hmsb : count.msb = false := by
    rw [BitVec.msb_eq_false_iff_two_mul_lt]
    split at hc <;> omega
  rw [BitVec.signExtend_eq_setWidth_of_msb_false hmsb, BitVec.toNat_setWidth]
  omega

theorem exec_vfsRead (hstdin : fd ≠ FILE_STDIN) (hfd : v.fdMap fd = some (p, j))
    (hex : (Cpiofs.fsRead w j (count.signExtend 64)).exec (v.fs p) = (r, c)) :
    (vfsRead w fd count).exec v = (r, v.setFs p c) := by
  unfold vfsRead
  rw [if_neg hstdin, Prog.exec_bind_ok (Prog.exec_get v), hfd]
  exact exec_onFs hex

theorem OpenAt.read (h : OpenAt w v fd contents k) {count : BitVec 32} (hc : 0 ≤ count.toInt) :
    ∃ rc v', (vfsRead w fd count).exec v =
        (.ok (rc, (contents.drop k).take count.toNat), v') ∧
      OpenAt w v' fd contents (min (k + count.toNat) contents.length) := by
  obtain ⟨hstdin, p, i, f, hfd, rfl, hu, hin, rfl, hcopy⟩ := h
  have hlen := Ram.copy_length hcopy
  have hpos := BitVec.le_def.mp hin.pos
  have hsize := hin.size
  have hcount := toNat_signExtend hc
  have hlt := count.isLt
  obtain ⟨rc, c', hex, hfcb, -, -⟩ :=
    (readsExactly_iff hu hin hcopy (count.signExtend 64)).mpr (by omega)
  have hrem : ((v.fs p).fcb i).remaining (count.signExtend 64) =
      min count.toNat (((v.fs p).fcb i).size.toNat - ((v.fs p).fcb i).lpos.toNat) := by
    unfold Fcb.remaining
    rw [hcount]
  have hdata : (contents.drop ((v.fs p).fcb i).lpos.toNat).take
      (((v.fs p).fcb i).remaining (count.signExtend 64)) =
      (contents.drop ((v.fs p).fcb i).lpos.toNat).take count.toNat := by
    rw [hrem, ← hlen, ← List.length_drop]
    exact List.take_eq_take_min.symm
  rw [hdata] at hex
  refine ⟨rc, _, exec_vfsRead hstdin hfd hex, hstdin, p, i, _, hfd, rfl, ?_⟩
  rw [VirtualFS.setFs]
  dsimp only
  rw [Function.update_self, hfcb]
  refine ⟨hu, ⟨?_, hsize⟩, ?_, hcopy⟩
  · rw [BitVec.le_def]
    dsimp only
    rw [BitVec.toNat_add, BitVec.toNat_ofNat, hrem]
    omega
  · dsimp only
    rw [BitVec.toNat_add, BitVec.toNat_ofNat, hrem]
    omega

theorem OpenAt.reads (h : OpenAt w v fd contents k) (counts : List (BitVec 32))
    (hcounts : ∀ count ∈ counts, 0 ≤ count.toInt) :
    ∃ v', (readBytes w fd counts).exec v =
      (.ok ((contents.drop k).take (counts.map BitVec.toNat).sum), v') := by
  induction counts generalizing v k with
  | nil => exact ⟨v, rfl⟩
  | cons count counts ih =>
    obtain ⟨hc, hrest⟩ := List.forall_mem_cons.mp hcounts
    obtain ⟨rc, v₁, hex, h₁⟩ := h.read hc
    obtain ⟨v₂, hex₂⟩ := ih h₁ hrest
    refine ⟨v₂, (Prog.exec_bind_ok hex).trans ((Prog.exec_bind_ok hex₂).trans ?_)⟩
    rw [List.map_cons, List.sum_cons, List.take_add, List.drop_drop, ← List.drop_eq_drop_min]
    rfl

theorem MountedAt.dispatch (h : MountedAt w bytes m p v) (hm : m ≠ []) (name : Str) :
    v.dispatch (m ++ name) = some (p, name) := by
  unfold VirtualFS.dispatch
  rw [h.only]
  unfold resolve
  rw [if_pos ⟨List.isPrefixOf_iff_prefix.mpr (List.prefix_append m name),
    List.length_pos_iff.mpr hm⟩]
  unfold resolve
  dsimp only
  rw [List.drop_left]

def Item.fcb (it : Item) (archive : Addr) : Fcb :=
  ⟨true, BitVec.ofNat 64 it.offset + archive, it.size, 0⟩

theorem MountedAt.openAt (h : MountedAt w bytes m p v) (hl : Listing bytes 0 items) (hn : Fits bytes)
    (hit : it ∈ items) (i : Fin MAX_FILES) (next : BitVec 32) :
    OpenAt w { (v.setFs p ((v.fs p).setFcb i (it.fcb (v.fs p).archive))).insertFd v.fdCounter.toInt
      (p, (i.val : Int)) with fdCounter := next } v.fdCounter.toInt (it.contents bytes) 0 := by
  refine ⟨?_, p, i, it.fcb (v.fs p).archive, ?_, ?_, rfl, ?_, rfl, ?_⟩
  · have := h.counter
    unfold FILE_STDIN
    omega
  · refine (Function.update_self _ _ _).trans ?_
    change some ((v.fdMap v.fdCounter.toInt).getD (p, (i.val : Int))) = _
    rw [h.unused]
    rfl
  · change (Function.update v.fs p _ p).fcb i = _
    rw [Function.update_self, Cpiofs.setFcb_fcb, if_pos rfl]
  · exact ⟨BitVec.le_def.mpr (Nat.zero_le _), hl.size_lt hit⟩
  · exact h.loaded.moved.copy hn (Nat.le_of_lt (hl.offset_lt hit).2)

theorem MountedAt.exec_vfsOpen (h : MountedAt w bytes m p v) (hm : m ≠ []) (hl : Listing bytes 0 items)
    (hn : Fits bytes) (hname : 0 ∉ name) (hlong : name.length ≤ 2 ^ 63) :
    (lookup items name = none ∧ (vfsOpen w (m ++ name)).exec v = (.ok K_ENOENT, v)) ∨
    ∃ it v₁, lookup items name = some it ∧
      (vfsOpen w (m ++ name)).exec v = (.ok v.fdCounter.toInt, v₁) ∧
      Yields w v₁ v.fdCounter.toInt (it.contents bytes) := by
  obtain ⟨i, hi⟩ := h.slot
  have hex := hl.exec_fsOpen hn h.loaded (dvd_trans (by decide) h.aligned) h.length hname hlong hi
  rw [Vfs.exec_vfsOpen, h.dispatch hm]
  dsimp only
  unfold openIn
  cases hit : lookup items name with
  | none =>
    rw [hit] at hex
    rw [Prog.exec_bind_ok (exec_onFs hex), VirtualFS.setFs_self]
    exact Or.inl ⟨rfl, rfl⟩
  | some it =>
    rw [hit] at hex
    rw [Prog.exec_bind_ok (exec_onFs hex), if_pos (Int.natCast_nonneg _),
      Prog.exec_bind_ok (Prog.exec_get _), Prog.exec_bind_ok (Prog.exec_modify _ _)]
    refine Or.inr ⟨it, _, rfl, rfl, fun counts hc => ?_⟩
    exact (h.openAt hl hn (lookup_eq_some hit).1 i _).reads counts hc

/-- An archive serves a file wherever it is mounted exactly if it has the file a second time, with
the slash in front of its name that the mount point leaves over. -/
theorem mount_point_iff (hm : m ≠ []) (hl : Listing bytes 0 items) (hn : Fits bytes)
    (hv : MountedAt w bytes m p v) (hv' : MountedAt w bytes [slash] p' v')
    (hname : name ∈ items.map Item.name) :
    SameFile w v (m ++ slash :: name) v' (slash :: name) ↔
      (lookup items (slash :: name)).map (Item.contents bytes) =
        (lookup items name).map (Item.contents bytes) := by
  obtain ⟨it₀, hit₀, rfl⟩ := List.mem_map.mp hname
  obtain ⟨hzero, hlen⟩ := hl.name_ok hit₀
  have hslash : 0 ∉ slash :: it₀.name := by
    rw [List.mem_cons, not_or]
    exact ⟨by decide, hzero⟩
  have hfits := hn
  unfold Fits at hfits
  obtain ⟨it, hit⟩ := exists_lookup hit₀
  -- at the root, the name is asked for as it is
  obtain ⟨hnone, -⟩ | ⟨it₁, v₁', hit₁, hex', hyields'⟩ :=
    hv'.exec_vfsOpen (List.cons_ne_nil _ _) hl hn hzero (by omega)
  · cases hit.symm.trans hnone
  cases hit.symm.trans hit₁
  have hpos' : 0 ≤ v'.fdCounter.toInt := Int.le_trans (by decide) hv'.counter
  rw [List.singleton_append] at hex'
  rw [hit]
  obtain ⟨hnone, hex⟩ | ⟨it₂, v₁, hit₂, hex, hyields⟩ :=
    hv.exec_vfsOpen hm hl hn hslash (by rw [List.length_cons]; omega)
  · rw [hnone]
    refine iff_of_false ?_ (fun h => by cases h)
    rintro ⟨hiff, -⟩
    obtain ⟨fd, v₂, hex₂, hfd⟩ := hiff.mpr ⟨_, _, hex', hpos'⟩
    cases hex.symm.trans hex₂
    exact absurd hfd (by decide)
  · rw [hit₂, Option.map_some, Option.map_some, Option.some_inj]
    have hpos : 0 ≤ v.fdCounter.toInt := Int.le_trans (by decide) hv.counter
    constructor
    · rintro ⟨-, hsame⟩
      obtain ⟨contents, hy, hy'⟩ := hsame _ _ _ _ hex hpos hex' hpos'
      exact (hyields.unique hy).trans (hy'.unique hyields')
    · intro heq
      refine ⟨iff_of_true ⟨_, _, hex, hpos⟩ ⟨_, _, hex', hpos'⟩, ?_⟩
      rintro fd v₂ fd' v₂' h₂ - h₂' -
      cases hex.symm.trans h₂
      cases hex'.symm.trans h₂'
      exact ⟨_, hyields, heq ▸ hyields'⟩

def atMount (bytes m : Str) : VirtualFS :=
  ⟨[(m, 0)], fun _ => ⟨0x80001000, BitVec.ofNat 64 bytes.length, fun _ => {}⟩, fun _ => none, 3⟩

def worldOf (bytes : Str) : World := ⟨ramFrom 0x80001000 bytes, fun _ _ => 0⟩

theorem serves_atMount (hfits : bytes.length ≤ 4096) (m : Str) :
    MountedAt (worldOf bytes) bytes m 0 (atMount bytes m) where
  only := rfl
  loaded := loaded_ramFrom (by change 0x80001000 + bytes.length ≤ 2 ^ 64; omega)
  aligned := show 16 ∣ BitVec.toNat 0x80001000#64 by decide
  length := rfl
  slot := firstFree_new _ _
  counter := show 3 ≤ BitVec.toInt 3#32 by decide
  unused := rfl

def slashArchive : Str :=
  archiveEntry 0x34 0x32 [0x61, 0] [1, 2, 3, 4] ++
    archiveEntry 0x34 0x33 [0x2f, 0x61, 0, 0, 0, 0] [1, 2, 3, 4] ++ archiveTrailer

theorem slashArchive_listing :
    Listing slashArchive 0 [⟨[0x61], 112, 4⟩, ⟨[0x2f, 0x61], 232, 4⟩] := by
  have hfirst : Header slashArchive 0 2 4 :=
    ⟨by decide +kernel, by decide +kernel, by decide +kernel, by decide +kernel⟩
  have hsecond : Header slashArchive 116 3 4 :=
    ⟨by decide +kernel, by decide +kernel, by decide +kernel, by decide +kernel⟩
  have htrailer : Header slashArchive 236 11 0 :=
    ⟨by decide +kernel, by decide +kernel, by decide +kernel, by decide +kernel⟩
  exact .entry hfirst rfl (by decide) (by decide +kernel) (by decide)
    (.entry hsecond rfl (by decide) (by decide +kernel) (by decide)
      (.trailer htrailer (by decide +kernel)))

def xPath : Str := [0x2f, 0x78]

theorem mount_point_iff_slash : SameFile (worldOf slashArchive) (atMount slashArchive xPath)
    (xPath ++ [slash, 0x61]) (atMount slashArchive [slash]) [slash, 0x61] :=
  (mount_point_iff (by decide) slashArchive_listing (by unfold Fits; decide +kernel)
    (serves_atMount (by decide +kernel) _) (serves_atMount (by decide +kernel) _)
    (by decide)).mpr (by decide +kernel)

theorem open_below_mount :
    Listing wholeArchive 0 [⟨[0x61], 112, 12⟩] ∧
    ((vfsOpen (worldOf wholeArchive) (xPath ++ [slash, 0x61])).exec
      (atMount wholeArchive xPath)).1 = .ok K_ENOENT ∧
    ((vfsOpen (worldOf wholeArchive) [slash, 0x61]).exec
      (atMount wholeArchive [slash])).1 = .ok 3 ∧
    ¬ SameFile (worldOf wholeArchive) (atMount wholeArchive xPath) (xPath ++ [slash, 0x61])
      (atMount wholeArchive [slash]) [slash, 0x61] := by
  have hfail : ((vfsOpen (worldOf wholeArchive) (xPath ++ [slash, 0x61])).exec
      (atMount wholeArchive xPath)).1 = .ok K_ENOENT := by decide +kernel
  have hroot : ((vfsOpen (worldOf wholeArchive) [slash, 0x61]).exec
      (atMount wholeArchive [slash])).1 = .ok 3 := by decide +kernel
  refine ⟨wholeArchive_listing, hfail, hroot, ?_⟩
  rintro ⟨hiff, -⟩
  cases hex' : (vfsOpen (worldOf wholeArchive) [slash, 0x61]).exec
      (atMount wholeArchive [slash]) with
  | mk r v' =>
    rw [hex'] at hroot
    obtain rfl : r = .ok 3 := hroot
    obtain ⟨fd, v₁, hex, hfd⟩ := hiff.mpr ⟨3, v', hex', by decide⟩
    cases hfail.symm.trans (congrArg Prod.fst hex)
    exact absurd hfd (by decide)

end Abydos.Vfs
