import Abydos.Vfs.Lifetime
import Mathlib.Data.Finset.Max

namespace Abydos.Vfs

open Abydos.Lib

variable {W : Type} {w : World} {v : VirtualFS} {s : Filesystems W} {path : Str}
  {xs : List (Str × FsPtr)} {x y : Str × FsPtr} {P Q : Str → Prop}

def slash : UInt8 := 0x2f

def Ancestor (m path : Str) : Prop :=
  path = m ∨ ([slash] <:+ m ∧ m <+: path) ∨ m ++ [slash] <+: path

instance (m path : Str) : Decidable (Ancestor m path) := inferInstanceAs (Decidable (_ ∨ _ ∨ _))

theorem Ancestor.isPrefix (h : Ancestor m path) : m <+: path := by
  rcases h with rfl | ⟨-, h⟩ | h
  · exact List.prefix_rfl
  · exact h
  · exact (List.prefix_append m [slash]).trans h

def VirtualFS.dispatch (v : VirtualFS) (path : Str) : Option (FsPtr × Str) :=
  match resolve path v.fsMap (none, 0) with
  | (some p, maxLen) => some (p, path.drop maxLen)
  | (none, _) => none

def openIn (w : World) (p : FsPtr) (rest : Str) : VfsM Int := do
  let ret ← onFs p (Cpiofs.fsOpen w rest)
  if 0 ≤ ret then do
    let v ← get
    let fd := v.fdCounter.toInt
    modify fun v => { v.insertFd fd (p, ret) with fdCounter := v.fdCounter + 1 }
    return fd
  else
    return ret

theorem exec_vfsOpen (w : World) (v : VirtualFS) (path : Str) : (vfsOpen w path).exec v =
    match v.dispatch path with
    | some (p, rest) => (openIn w p rest).exec v
    | none => (.ok K_ENOENT, v) := by
  unfold vfsOpen VirtualFS.dispatch
  rw [Prog.exec_bind_ok (Prog.exec_get v)]
  dsimp only
  cases resolve path v.fsMap (none, 0) with
  | mk found maxLen =>
    cases found with
    | none => rfl
    | some p => rfl

theorem exists_longest [DecidablePred P] (hx : x ∈ xs) (hP : P x.1) : ∃ y, IsLongest P xs y := by
  obtain ⟨y, hy, hmax⟩ := (xs.toFinset.filter fun x => P x.1).exists_max_image
    (fun x => x.1.length) ⟨x, by simp [hx, hP]⟩
  simp only [Finset.mem_filter, List.mem_toFinset] at hy hmax
  exact ⟨y, hy.1, hy.2, fun z hz hPz => hmax z ⟨hz, hPz⟩⟩

theorem dispatch_cases (v : VirtualFS) (path : Str) :
    (v.dispatch path = none ∧ ∀ x ∈ v.fsMap, x.1 <+: path → x.1 = []) ∨
    ∃ x, IsLongest (· <+: path) v.fsMap x ∧ x.1 ≠ [] ∧
      v.dispatch path = some (x.2, path.drop x.1.length) := by
  unfold VirtualFS.dispatch
  rcases resolve_cases path v.fsMap (none, 0) with ⟨heq, hle⟩ | ⟨x, hx, hlt, heq⟩
  · rw [heq]
    exact Or.inl ⟨rfl, fun x hx hpre => List.length_eq_zero_iff.mp (Nat.le_zero.mp (hle x hx hpre))⟩
  · rw [heq]
    exact Or.inr ⟨x, hx, List.length_pos_iff.mp hlt, rfl⟩

/-- `open` goes to the filesystem at the longest mount point that is an ancestor of the path, and to
none if there is no such mount point. -/
structure FollowsDirectories (v : VirtualFS) (path : Str) : Prop where
  longest : ∀ x, IsLongest (Ancestor · path) v.fsMap x → ∃ rest, v.dispatch path = some (x.2, rest)
  none : (∀ x ∈ v.fsMap, ¬ Ancestor x.1 path) → v.dispatch path = none

theorem Mounts.points_key (m : Mounts W I) (hx : x ∈ m.points) (hy : y ∈ m.points)
    (h : x.1 = y.1) : x = y := by
  obtain ⟨d, hd⟩ := m.points_mem.mp hx
  obtain ⟨d', hd'⟩ := m.points_mem.mp hy
  rw [h, hd'] at hd
  exact Prod.ext h (congrArg Prod.fst (Option.some.inj hd)).symm

theorem Mounts.points_instance (m : Mounts W I) (hx : x ∈ m.points) (hy : y ∈ m.points)
    (h : x.2 = y.2) : x = y := by
  have hnodup : (m.points.map Prod.snd).Nodup := by
    have hd := m.distinct
    rw [List.map_append] at hd
    have hmap : m.points.map Prod.snd = (m.fsMap.entries.map Sigma.snd).map Prod.fst := by
      simp [Mounts.points]
    exact hmap ▸ hd.of_append_left
  exact List.inj_on_of_nodup_map hnodup hx hy h

theorem followsDirectories_of_none (habs : [slash] <+: path) (hnone : v.dispatch path = none)
    (hall : ∀ x ∈ v.fsMap, x.1 <+: path → x.1 = []) :
    FollowsDirectories v path ↔ ∀ x, ¬ IsLongest (· <+: path) v.fsMap x := by
  constructor
  · intro h x hx
    have hroot : Ancestor x.1 path := by
      rw [hall x hx.1 hx.2.1]
      exact Or.inr (Or.inr habs)
    obtain ⟨rest, hrest⟩ := h.longest x ⟨hx.1, hroot, fun y hy ha => hx.2.2 y hy ha.isPrefix⟩
    cases hnone.symm.trans hrest
  · intro h
    refine ⟨fun x hx => ?_, fun _ => hnone⟩
    refine absurd ⟨hx.1, hx.2.1.isPrefix, fun y hy hpre => ?_⟩ (h x)
    rw [hall y hy hpre]
    exact Nat.zero_le _

theorem followsDirectories_of_some (hkey : ∀ x ∈ v.fsMap, ∀ y ∈ v.fsMap, x.1 = y.1 → x = y)
    (hfs : ∀ x ∈ v.fsMap, ∀ y ∈ v.fsMap, x.2 = y.2 → x = y) (hx : IsLongest (· <+: path) v.fsMap x)
    (hsome : v.dispatch path = some (x.2, rest)) :
    FollowsDirectories v path ↔ Ancestor x.1 path := by
  constructor
  · intro h
    by_cases hex : ∃ y ∈ v.fsMap, Ancestor y.1 path
    · obtain ⟨y, hy, ha⟩ := hex
      obtain ⟨z, hz⟩ := exists_longest (P := (Ancestor · path)) hy ha
      obtain ⟨rest', hrest⟩ := h.longest z hz
      have heq : x.2 = z.2 := congrArg Prod.fst (Option.some.inj (hsome.symm.trans hrest))
      rw [hfs x hx.1 z hz.1 heq]
      exact hz.2.1
    · have hno := h.none fun y hy ha => hex ⟨y, hy, ha⟩
      cases hno.symm.trans hsome
  · intro ha
    refine ⟨fun y hy => ?_, fun hno => absurd ha (hno x hx.1)⟩
    have heq := hx.key_eq hy.1 hy.2.1.isPrefix (hy.2.2 x hx.1 ha)
    rw [hkey y hy.1 x hx.1 heq]
    exact ⟨rest, hsome⟩

theorem follows_directories_iff (s : Filesystems W) (habs : [slash] <+: path) :
    (∀ w, (vfsOpen w path).exec s.vfs = match s.vfs.dispatch path with
      | some (p, rest) => (openIn w p rest).exec s.vfs
      | none => (.ok K_ENOENT, s.vfs)) ∧
    (FollowsDirectories s.vfs path ↔
      ∀ x, IsLongest (· <+: path) s.mounts.points x → x.1 ≠ [] ∧ Ancestor x.1 path) := by
  refine ⟨fun w => exec_vfsOpen w s.vfs path, ?_⟩
  rcases dispatch_cases s.vfs path with ⟨hnone, hall⟩ | ⟨x, hx, hne, hsome⟩
  · rw [followsDirectories_of_none habs hnone hall]
    exact forall_congr' fun x => ⟨fun h hx => absurd hx h,
      fun h hx => absurd (hall x hx.1 hx.2.1) (h hx).1⟩
  · rw [followsDirectories_of_some (fun _ hx _ hy => s.mounts.points_key hx hy)
      (fun _ hx _ hy => s.mounts.points_instance hx hy) hx hsome]
    constructor
    · intro ha y hy
      rw [hx.key_eq hy.1 hy.2.1 (hy.2.2 x hx.1 hx.2.1)]
      exact ⟨hne, ha⟩
    · exact fun h => (h x hx).2

def devPath : Str := [0x2f, 0x64, 0x65, 0x76]

def rootAndDev : Filesystems Unit :=
  ((Script.runAll (FsCall.exec worldA) [mountA, .mounts (.mount devPath [] none)]).exec noFiles).2

theorem rootAndDev_points : rootAndDev.mounts.points = [(devPath, 1), ([slash], 0)] := by
  decide +kernel

theorem follows_directories_iff_dev :
    FollowsDirectories rootAndDev.vfs (devPath ++ [slash, 0x61]) := by
  refine (follows_directories_iff rootAndDev (by decide)).2.mpr fun x hx => ?_
  rw [rootAndDev_points] at hx
  have hmem := hx.1
  simp only [List.mem_cons, List.not_mem_nil, or_false] at hmem
  rcases hmem with rfl | rfl <;> decide

theorem dispatch_sibling :
    ((Script.runAll (FsCall.exec worldA) [mountA, .mounts (.mount devPath [] none)]).exec
      noFiles).1 = .ok [0, 0] ∧
    IsLongest (Ancestor · (devPath ++ [0x69, 0x63, 0x65])) rootAndDev.vfs.fsMap ([slash], 0) ∧
    rootAndDev.vfs.dispatch (devPath ++ [0x69, 0x63, 0x65]) = some (1, [0x69, 0x63, 0x65]) ∧
    ¬ FollowsDirectories rootAndDev.vfs (devPath ++ [0x69, 0x63, 0x65]) := by
  have hlongest : IsLongest (Ancestor · (devPath ++ [0x69, 0x63, 0x65])) rootAndDev.vfs.fsMap
      ([slash], 0) := by
    change IsLongest _ rootAndDev.mounts.points _
    rw [rootAndDev_points]
    decide
  have hdispatch : rootAndDev.vfs.dispatch (devPath ++ [0x69, 0x63, 0x65]) =
      some (1, [0x69, 0x63, 0x65]) := by decide +kernel
  refine ⟨by decide +kernel, hlongest, hdispatch, fun h => ?_⟩
  obtain ⟨rest, hrest⟩ := h.longest _ hlongest
  cases hdispatch.symm.trans hrest

end Abydos.Vfs
