import Abydos.Vfs.VirtualFS
import Mathlib.Data.List.AList

/-! `mount` and `umount` of `VirtualFS`.  An instance goes by the number of instances created before
it, so that one that has been deleted is never taken for a later one at the same address. -/

namespace Abydos.Vfs

open Abydos.Lib

abbrev Deleter (W : Type) := FsPtr → W → W

structure Factory (W I : Type) where
  name : Str
  newInstance : Str → W → (Int × I) × W
  deleteInstance : Deleter W

/-- `created` are the instances that came with `K_OK`, `deleted` those passed to their delete
function. -/
structure Mounts (W I : Type) where
  world : W
  factories : List (Factory W I)
  fsMap : AList fun _ : Str => FsPtr × Deleter W
  objects : FsPtr → I
  created : List (FsPtr × Deleter W)
  deleted : List (FsPtr × Deleter W)
  known : ∀ x ∈ fsMap.entries.map Sigma.snd ++ deleted, x.1 < created.length
  distinct : ((fsMap.entries.map Sigma.snd ++ deleted).map Prod.fst).Nodup

abbrev MountM (W I : Type) := Prog (Mounts W I) Trap

variable {W I : Type} {m m' : Mounts W I} {path : Str}

def Mounts.mounted (m : Mounts W I) : List (FsPtr × Deleter W) := m.fsMap.entries.map Sigma.snd

def Mounts.points (m : Mounts W I) : List (Str × FsPtr) := m.fsMap.entries.map fun e => (e.1, e.2.1)

theorem erase_perm {s : AList fun _ : Str => α} (h : s.lookup path = some x) :
    (s.entries.map Sigma.snd).Perm (x :: (s.erase path).entries.map Sigma.snd) := by
  have hmem : path ∈ s := AList.lookup_isSome.mp (by simp [h])
  obtain ⟨y, l₁, l₂, hnot, heq, herase⟩ := List.exists_of_kerase (AList.mem_keys.mp hmem)
  have hy : y = x := by
    rw [AList.lookup, heq, List.dlookup_append, List.dlookup_eq_none.mpr hnot] at h
    simpa using h
  have hrest : (s.erase path).entries = l₁ ++ l₂ := herase
  rw [hrest, heq, hy]
  simp

theorem insert_entries {s : AList fun _ : Str => α} (h : path ∉ s) (x : α) :
    (s.insert path x).entries.map Sigma.snd = x :: s.entries.map Sigma.snd := by
  rw [AList.entries_insert_of_notMem h]
  rfl

def insertNew (path : Str) (x : α) (s : AList fun _ : Str => α) : AList fun _ : Str => α :=
  if path ∈ s then s else s.insert path x

theorem insertNew_mem {s : AList fun _ : Str => α}
    (h : y ∈ (insertNew path x s).entries.map Sigma.snd) :
    y = x ∨ y ∈ s.entries.map Sigma.snd := by
  unfold insertNew at h
  split at h
  · exact Or.inr h
  · next hp =>
    rw [insert_entries hp] at h
    exact List.mem_cons.mp h

theorem Mounts.nodup_cons (m : Mounts W I) (d : Deleter W) :
    ((((m.created.length, d) :: m.mounted) ++ m.deleted).map Prod.fst).Nodup := by
  rw [List.cons_append, List.map_cons, List.nodup_cons]
  refine ⟨fun h => ?_, m.distinct⟩
  obtain ⟨x, hx, heq⟩ := List.mem_map.mp h
  exact absurd (m.known x hx) (by simp [heq])

def Mounts.install (m : Mounts W I) (path : Str) (d : Deleter W) (i : I) : Mounts W I :=
  { m with
    fsMap := insertNew path (m.created.length, d) m.fsMap
    objects := Function.update m.objects m.created.length i
    created := (m.created.length, d) :: m.created
    known := by
      intro x hx
      rw [List.length_cons]
      rcases List.mem_append.mp hx with hx | hx
      · rcases insertNew_mem hx with rfl | hx
        · exact Nat.lt_succ_self _
        · exact Nat.lt_succ_of_lt (m.known x (List.mem_append_left _ hx))
      · exact Nat.lt_succ_of_lt (m.known x (List.mem_append_right _ hx))
    distinct := by
      unfold insertNew
      split
      · exact m.distinct
      · next hp =>
        rw [insert_entries hp]
        exact m.nodup_cons d }

theorem Mounts.remove_perm (h : m.fsMap.lookup path = some x) :
    (m.mounted ++ m.deleted).Perm
      ((m.fsMap.erase path).entries.map Sigma.snd ++ (x :: m.deleted)) :=
  ((erase_perm h).append_right _).trans List.perm_middle.symm

def Mounts.remove (m : Mounts W I) (path : Str) (x : FsPtr × Deleter W)
    (h : m.fsMap.lookup path = some x) : Mounts W I :=
  { m with
    world := x.2 x.1 m.world
    fsMap := m.fsMap.erase path
    deleted := x :: m.deleted
    known := fun y hy => m.known y ((m.remove_perm h).mem_iff.mpr hy)
    distinct := ((m.remove_perm h).map Prod.fst).nodup_iff.mp m.distinct }

def Wanted (fsName : Option Str) (f : Factory W I) : Prop :=
  ∀ name, fsName = some name → f.name = name

instance (fsName : Option Str) (f : Factory W I) : Decidable (Wanted fsName f) :=
  match fsName with
  | none => isTrue fun _ h => by cases h
  | some name =>
    decidable_of_iff (f.name = name) ⟨fun h _ heq => Option.some.inj heq ▸ h, fun h => h _ rfl⟩

def mountLoop (path devicePath : Str) (fsName : Option Str) : List (Factory W I) → MountM W I Int
  | [] => return K_ENOTSUPP
  | f :: fs => do
    if Wanted fsName f then
      let m ← get
      match f.newInstance devicePath m.world with
      | ((ret, i), w) => do
        modify fun m => { m with world := w }
        if ret = K_OK then do
          modify fun m => m.install path f.deleteInstance i
          return 0
        else if ret ≠ K_ENOTSUPP then
          return ret
        else mountLoop path devicePath fsName fs
    else mountLoop path devicePath fsName fs

def mount (path devicePath : Str) (fsName : Option Str) : MountM W I Int := do
  let m ← get
  mountLoop path devicePath fsName m.factories

def umount (path : Str) : MountM W I Int := do
  let m ← get
  match h : m.fsMap.lookup path with
  | some x => do
    set (m.remove path x h)
    return 0
  | none => return K_ENOTSUPP

/-- No factory makes an instance: the first answer that is not `K_ENOTSUPP`, if there is one, is an
error. -/
def Refused (devicePath : Str) (fsName : Option Str) : List (Factory W I) → W → Prop
  | [], _ => True
  | f :: fs, w =>
    if Wanted fsName f then
      (f.newInstance devicePath w).1.1 ≠ K_OK ∧
        ((f.newInstance devicePath w).1.1 = K_ENOTSUPP →
          Refused devicePath fsName fs (f.newInstance devicePath w).2)
    else Refused devicePath fsName fs w

inductive Mounting (m : Mounts W I) (path : Str) : Int → Mounts W I → Prop
  | refused {rc : Int} (w : W) : rc ≠ 0 → Mounting m path rc { m with world := w }
  | installed (w : W) (d : Deleter W) (i : I) :
      Mounting m path 0 (Mounts.install { m with world := w } path d i)

theorem mountLoop_cases (path devicePath : Str) (fsName : Option Str) (fs : List (Factory W I))
    (m : Mounts W I) :
    ∃ rc m', (mountLoop path devicePath fsName fs).exec m = (.ok rc, m') ∧ Mounting m path rc m' ∧
      (rc ≠ 0 ↔ Refused devicePath fsName fs m.world) := by
  induction fs generalizing m with
  | nil => exact ⟨K_ENOTSUPP, m, rfl, .refused m.world (by decide), by simp [Refused, K_ENOTSUPP]⟩
  | cons f fs ih =>
    rw [mountLoop, Refused, Prog.exec_ite]
    by_cases hw : Wanted fsName f
    · rw [if_pos hw, if_pos hw, Prog.exec_bind_ok (Prog.exec_get m)]
      cases f.newInstance devicePath m.world with
      | mk r w =>
        obtain ⟨ret, i⟩ := r
        simp only
        rw [Prog.exec_bind_ok (Prog.exec_modify _ m), Prog.exec_ite, Prog.exec_ite]
        by_cases hok : ret = K_OK
        · refine ⟨0, _, by rw [if_pos hok]; rfl, .installed w f.deleteInstance i, ?_⟩
          simp [hok]
        · by_cases hsupp : ret = K_ENOTSUPP
          · obtain ⟨rc, m', hex, hm, hiff⟩ := ih { m with world := w }
            refine ⟨rc, m', ?_, ?_, ?_⟩
            · rw [if_neg hok, if_neg (not_not.mpr hsupp)]
              exact hex
            · cases hm with
              | refused w' hrc => exact .refused w' hrc
              | installed w' d i => exact .installed w' d i
            · rw [hiff]
              exact ⟨fun h => ⟨hok, fun _ => h⟩, fun h => h.2 hsupp⟩
          · refine ⟨ret, _, by rw [if_neg hok, if_pos hsupp]; rfl, .refused w hok, ?_⟩
            simp [hok, hsupp, show ret ≠ 0 from hok]
    · rw [if_neg hw, if_neg hw]
      exact ih m

theorem mount_cases (h : (mount path devicePath fsName).exec m = (.ok rc, m')) :
    Mounting m path rc m' ∧ (rc ≠ 0 ↔ Refused devicePath fsName m.factories m.world) := by
  obtain ⟨rc₁, m₁, hex, hm, hiff⟩ := mountLoop_cases path devicePath fsName m.factories m
  cases h.symm.trans ((Prog.exec_bind_ok (Prog.exec_get m)).trans hex)
  exact ⟨hm, hiff⟩

theorem umount_cases (h : (umount path).exec m = (.ok rc, m')) :
    (m' = m ∧ path ∉ m.fsMap) ∨ ∃ x hx, m' = m.remove path x hx := by
  unfold umount at h
  rw [Prog.exec_bind_ok (Prog.exec_get m)] at h
  split at h
  · next x hx =>
    cases h
    exact Or.inr ⟨x, hx, rfl⟩
  · next hx =>
    cases h
    exact Or.inl ⟨rfl, AList.lookup_eq_none.mp hx⟩

inductive MountCall
  | mount (path devicePath : Str) (fsName : Option Str)
  | umount (path : Str)

def MountCall.exec : MountCall → MountM W I Int
  | .mount path devicePath fsName => Vfs.mount path devicePath fsName
  | .umount path => Vfs.umount path

/-- The path has the instance, and what is opened below it, and below no longer mount point, is
opened there. -/
def Mounts.Serves (m : Mounts W I) (path : Str) (x : FsPtr × Deleter W) : Prop :=
  m.fsMap.lookup path = some x ∧ ∀ file, path <+: file →
    (∀ q ∈ m.points, q.1 <+: file → q.1.length ≤ path.length) →
      resolve file m.points (none, 0) = (some x.1, path.length)

/-- If `mount` returns zero there is a new instance, and it serves the path until it is unmounted;
otherwise the mount points are as they were. -/
def AllOrNothing (m : Mounts W I) (path devicePath : Str) (fsName : Option Str) : Prop :=
  ∀ rc m', (mount path devicePath fsName).exec m = (.ok rc, m') →
    (rc = 0 → ∃ x, m'.created = x :: m.created ∧
      ∀ calls rcs m'', .umount path ∉ calls →
        (Script.runAll MountCall.exec calls).exec m' = (.ok rcs, m'') → m''.Serves path x) ∧
    (rc ≠ 0 → m'.fsMap = m.fsMap)

def Mounts.Balanced (m : Mounts W I) : Prop := m.created.Perm (m.mounted ++ m.deleted)

section Resolve

variable {path : Str} {xs : List (Str × FsPtr)} {x y : Str × FsPtr} {P : Str → Prop}

def IsLongest (P : Str → Prop) (xs : List (Str × FsPtr)) (x : Str × FsPtr) : Prop :=
  x ∈ xs ∧ P x.1 ∧ ∀ y ∈ xs, P y.1 → y.1.length ≤ x.1.length

instance [DecidablePred P] : Decidable (IsLongest P xs x) := inferInstanceAs (Decidable (_ ∧ _ ∧ _))

theorem IsLongest.key_eq (hx : IsLongest (· <+: path) xs x) (hy : y ∈ xs) (hpre : y.1 <+: path)
    (hle : x.1.length ≤ y.1.length) : y.1 = x.1 :=
  (List.prefix_of_prefix_length_le hpre hx.2.1 (hx.2.2 y hy hpre)).eq_of_length
    (Nat.le_antisymm (hx.2.2 y hy hpre) hle)

theorem resolve_cases (path : Str) (xs : List (Str × FsPtr)) (r : Option FsPtr × Nat) :
    (resolve path xs r = r ∧ ∀ x ∈ xs, x.1 <+: path → x.1.length ≤ r.2) ∨
    ∃ x, IsLongest (· <+: path) xs x ∧ r.2 < x.1.length ∧
      resolve path xs r = (some x.2, x.1.length) := by
  induction xs generalizing r with
  | nil => exact Or.inl ⟨rfl, fun _ h => absurd h List.not_mem_nil⟩
  | cons y ys ih =>
    unfold resolve
    split
    · next hy =>
      have hpre := List.isPrefixOf_iff_prefix.mp hy.1
      refine Or.inr ?_
      rcases ih (some y.2, y.1.length) with ⟨heq, hle⟩ | ⟨x, ⟨hx, hxp, hmax⟩, hlt, heq⟩
      · exact ⟨y, ⟨List.mem_cons_self, hpre, List.forall_mem_cons.mpr ⟨fun _ => Nat.le_refl _, hle⟩⟩,
          hy.2, heq⟩
      · exact ⟨x, ⟨List.mem_cons_of_mem _ hx, hxp,
          List.forall_mem_cons.mpr ⟨fun _ => Nat.le_of_lt hlt, hmax⟩⟩, Nat.lt_trans hy.2 hlt, heq⟩
    · next hy =>
      have hle₀ (hpre : y.1 <+: path) : y.1.length ≤ r.2 :=
        Nat.not_lt.mp fun hlt => hy ⟨List.isPrefixOf_iff_prefix.mpr hpre, hlt⟩
      rcases ih r with ⟨heq, hle⟩ | ⟨x, ⟨hx, hxp, hmax⟩, hlt, heq⟩
      · exact Or.inl ⟨heq, List.forall_mem_cons.mpr ⟨hle₀, hle⟩⟩
      · exact Or.inr ⟨x, ⟨List.mem_cons_of_mem _ hx, hxp, List.forall_mem_cons.mpr
          ⟨fun hpre => Nat.le_trans (hle₀ hpre) (Nat.le_of_lt hlt), hmax⟩⟩, hlt, heq⟩

end Resolve

theorem insertNew_of_notMem {s : AList fun _ : Str => α} (h : path ∉ s) (x : α) :
    insertNew path x s = s.insert path x := if_neg h

theorem lookup_insertNew {s : AList fun _ : Str => α} (h : s.lookup path = some y) (q : Str)
    (x : α) : (insertNew q x s).lookup path = some y := by
  unfold insertNew
  split
  · exact h
  · next hq =>
    have hne : path ≠ q := by
      rintro rfl
      exact hq (AList.lookup_isSome.mp (by simp [h]))
    rw [AList.lookup_insert_ne hne, h]

theorem MountCall.lookup_of_exec (h : m.fsMap.lookup path = some x) (c : MountCall)
    (hc : c ≠ .umount path) (hex : (MountCall.exec c).exec m = (.ok rc, m')) :
    m'.fsMap.lookup path = some x := by
  cases c with
  | mount q devicePath fsName =>
    cases (mount_cases hex).1 with
    | refused w _ => exact h
    | installed w d i => exact lookup_insertNew h q _
  | umount q =>
    have hne : path ≠ q := fun heq => hc (heq ▸ rfl)
    rcases umount_cases hex with ⟨rfl, -⟩ | ⟨y, hy, rfl⟩
    · exact h
    · exact (AList.lookup_erase_ne hne).trans h

theorem lookup_of_run (h : m.fsMap.lookup path = some x) (hcalls : .umount path ∉ calls)
    (hrun : (Script.runAll MountCall.exec calls).exec m = (.ok rcs, m')) :
    m'.fsMap.lookup path = some x := by
  have hg : Script.GuardedAll MountCall.exec (fun _ c => c ≠ .umount path) calls m := by
    refine Script.GuardedAll.of_forall (fun c hc _ => ?_) m
    rintro rfl
    exact hcalls hc
  exact Script.runAll_invariant (I := fun m => m.fsMap.lookup path = some x) h hg hrun
    fun _ c _ _ h hc hex => MountCall.lookup_of_exec h c hc hex

theorem Mounts.points_mem (m : Mounts W I) {q : Str × FsPtr} :
    q ∈ m.points ↔ ∃ d, m.fsMap.lookup q.1 = some (q.2, d) := by
  simp only [Mounts.points, List.mem_map]
  constructor
  · rintro ⟨⟨k, x⟩, he, rfl⟩
    exact ⟨x.2, AList.mem_lookup_iff.mpr he⟩
  · rintro ⟨d, h⟩
    exact ⟨⟨q.1, (q.2, d)⟩, AList.mem_lookup_iff.mp h, rfl⟩

theorem Mounts.serves_of_lookup (h : m.fsMap.lookup path = some x) (hne : path ≠ []) :
    m.Serves path x := by
  refine ⟨h, fun file hp hmax => ?_⟩
  have hmem : (path, x.1) ∈ m.points := m.points_mem.mpr ⟨x.2, h⟩
  rcases resolve_cases file m.points (none, 0) with ⟨-, hle⟩ | ⟨y, hy, -, heq⟩
  · exact absurd (List.length_eq_zero_iff.mp (Nat.le_zero.mp (hle _ hmem hp))) hne
  · have hkey : path = y.1 := hy.key_eq hmem hp (hmax y hy.1 hy.2.1)
    obtain ⟨d, hd⟩ := m.points_mem.mp hy.1
    rw [← hkey, h] at hd
    rw [heq, ← hkey, Option.some.inj hd]

theorem Mounts.not_serves_empty (m : Mounts W I) (x : FsPtr × Deleter W) : ¬ m.Serves [] x := by
  intro h
  have hres := h.2 [] List.prefix_rfl fun q _ hq => hq.length_le
  rcases resolve_cases [] m.points (none, 0) with ⟨heq, -⟩ | ⟨y, hy, hlt, -⟩
  · rw [heq] at hres
    cases hres
  · exact absurd hlt (Nat.not_lt.mpr hy.2.1.length_le)

theorem allOrNothing_iff (m : Mounts W I) (path devicePath : Str) (fsName : Option Str) :
    AllOrNothing m path devicePath fsName ↔
      (path ≠ [] ∧ path ∉ m.fsMap) ∨ Refused devicePath fsName m.factories m.world := by
  obtain ⟨rc, m', hex, hm, hiff⟩ := mountLoop_cases path devicePath fsName m.factories m
  have hmount : (mount path devicePath fsName).exec m = (.ok rc, m') :=
    (Prog.exec_bind_ok (Prog.exec_get m)).trans hex
  have hall : AllOrNothing m path devicePath fsName ↔ (rc = 0 → ∃ x, m'.created = x :: m.created ∧
      ∀ calls rcs m'', .umount path ∉ calls →
        (Script.runAll MountCall.exec calls).exec m' = (.ok rcs, m'') → m''.Serves path x) ∧
      (rc ≠ 0 → m'.fsMap = m.fsMap) := by
    constructor
    · exact fun h => h rc m' hmount
    · intro h rc₁ m₁ hex₁
      cases hmount.symm.trans hex₁
      exact h
  rw [hall, ← hiff]
  cases hm with
  | refused w hrc => exact ⟨fun _ => Or.inr hrc, fun _ => ⟨fun h => absurd h hrc, fun _ => rfl⟩⟩
  | installed w d i =>
    constructor
    · rintro ⟨hok, -⟩
      obtain ⟨x, hx, hserves⟩ := hok rfl
      have hs := hserves [] [] _ List.not_mem_nil rfl
      have hx : (m.created.length, d) = x := (List.cons.inj hx).1
      refine Or.inl ⟨?_, fun hmem => ?_⟩
      · rintro rfl
        exact Mounts.not_serves_empty _ _ hs
      · have hlook : m.fsMap.lookup path = some x := by
          rw [← hs.1]
          exact congrArg _ (if_pos hmem).symm
        have hlt := m.known x (List.mem_append_left _
          (List.mem_map.mpr ⟨⟨path, x⟩, AList.mem_lookup_iff.mp hlook, rfl⟩))
        rw [← hx] at hlt
        exact absurd hlt (Nat.lt_irrefl _)
    · rintro (⟨hne, hnot⟩ | hrc)
      · refine ⟨fun _ => ⟨(m.created.length, d), rfl, fun calls rcs m'' hcalls hrun => ?_⟩,
          fun h => absurd rfl h⟩
        refine Mounts.serves_of_lookup (lookup_of_run ?_ hcalls hrun) hne
        exact (congrArg (AList.lookup path) (insertNew_of_notMem hnot _)).trans
          (AList.lookup_insert _)
      · exact absurd rfl hrc

def MountCall.Vacant (m : Mounts W I) : MountCall → Prop
  | .mount path devicePath fsName =>
    path ∉ m.fsMap ∨ Refused devicePath fsName m.factories m.world
  | .umount _ => True

theorem Mounts.Balanced.exec (h : m.Balanced) {c : MountCall} (hc : c.Vacant m)
    (hex : (MountCall.exec c).exec m = (.ok rc, m')) : m'.Balanced := by
  cases c with
  | mount path devicePath fsName =>
    obtain ⟨hm, hiff⟩ := mount_cases hex
    cases hm with
    | refused w _ => exact h
    | installed w d i =>
      have hnot : path ∉ m.fsMap := hc.resolve_right fun hr => absurd rfl (hiff.mpr hr)
      change List.Perm (_ :: m.created) ((insertNew path _ m.fsMap).entries.map Sigma.snd ++ _)
      rw [insertNew_of_notMem hnot, insert_entries hnot]
      exact h.cons _
  | umount path =>
    rcases umount_cases hex with ⟨rfl, -⟩ | ⟨x, hx, rfl⟩
    · exact h
    · exact h.trans (m.remove_perm hx)

theorem Mounts.balanced_of_created (h : m.created = []) : m.Balanced := by
  have hnil : m.mounted ++ m.deleted = [] := by
    rw [List.eq_nil_iff_forall_not_mem]
    intro x hx
    have hlt := m.known x hx
    rw [h] at hlt
    exact Nat.not_lt_zero _ hlt
  rw [Mounts.Balanced, hnil, h]

theorem Mounts.Balanced.run (h : m.Balanced)
    (hg : Script.GuardedAll MountCall.exec (fun m c => c.Vacant m) calls m)
    (hrun : (Script.runAll MountCall.exec calls).exec m = (.ok rcs, m')) : m'.Balanced :=
  Script.runAll_invariant h hg hrun fun _ _ _ _ hm hc hex => Mounts.Balanced.exec hm hc hex

theorem mount_all_or_nothing :
    (∀ (m : Mounts W I) (path devicePath : Str) (fsName : Option Str),
      AllOrNothing m path devicePath fsName ↔
        (path ≠ [] ∧ path ∉ m.fsMap) ∨ Refused devicePath fsName m.factories m.world) ∧
    ∀ (m m' : Mounts W I) (calls : List MountCall) (rcs : List Int), m.created = [] →
      Script.GuardedAll MountCall.exec (fun m c => c.Vacant m) calls m →
      (Script.runAll MountCall.exec calls).exec m = (.ok rcs, m') → m'.Balanced := by
  refine ⟨allOrNothing_iff, fun m m' calls rcs hm hg hrun => ?_⟩
  exact (Mounts.balanced_of_created hm).run hg hrun

def Mounts.start (world : W) (factories : List (Factory W I)) (objects : FsPtr → I) : Mounts W I :=
  ⟨world, factories, ∅, objects, [], [], by simp, by simp⟩

def anyFs : Factory Unit Unit := ⟨[], fun _ w => ((K_OK, ()), w), fun _ w => w⟩

def noMounts : Mounts Unit Unit := .start () [anyFs] fun _ => ()

def mountRoot : MountCall := .mount [0x2f] [] none

theorem mount_all_or_nothing_root :
    AllOrNothing noMounts [0x2f] [] none ∧
    ((Script.runAll MountCall.exec [mountRoot, .umount [0x2f], mountRoot]).exec
      noMounts).2.Balanced := by
  refine ⟨(mount_all_or_nothing.1 noMounts [0x2f] [] none).mpr (Or.inl (by decide)), ?_⟩
  refine mount_all_or_nothing.2 noMounts _ [mountRoot, .umount [0x2f], mountRoot] [0, 0, 0] rfl ?_
    rfl
  refine ⟨Or.inl (by decide), fun _ _ h₁ => ⟨trivial, fun _ _ h₂ => ⟨Or.inl ?_, ?_⟩⟩⟩
  swap
  · exact fun _ _ _ => trivial
  cases h₁
  cases h₂
  decide

theorem mount_over_mounted :
    ¬ AllOrNothing ((MountCall.exec mountRoot).exec noMounts).2 [0x2f] [] none ∧
    ¬ ((Script.runAll MountCall.exec [mountRoot, mountRoot]).exec noMounts).2.Balanced := by
  constructor
  · rw [allOrNothing_iff]
    rintro (⟨-, h⟩ | h)
    · exact h (by decide)
    · exact h.1 rfl
  · intro h
    exact absurd h.length_eq (by decide)

end Abydos.Vfs
