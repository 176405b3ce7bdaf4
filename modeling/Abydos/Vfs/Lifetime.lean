import Abydos.Vfs.Mount
import Abydos.Vfs.Tables

namespace Abydos.Vfs

open Abydos.Lib

structure Filesystems (W : Type) where
  mounts : Mounts W Cpiofs
  fdMap : Int → Option (FsPtr × Int)
  fdCounter : BitVec 32

variable {W : Type} {w : World} {s s' : Filesystems W}

def Filesystems.vfs (s : Filesystems W) : VirtualFS :=
  ⟨s.mounts.points, s.mounts.objects, s.fdMap, s.fdCounter⟩

def Filesystems.setVfs (s : Filesystems W) (v : VirtualFS) : Filesystems W :=
  ⟨{ s.mounts with objects := v.fs }, v.fdMap, v.fdCounter⟩

inductive FsCall
  | mounts (c : MountCall)
  | file (c : Call)

def FsCall.exec (w : World) : FsCall → Prog (Filesystems W) Trap Int
  | .mounts c => Prog.zoom Filesystems.mounts (fun s m => { s with mounts := m }) c.exec
  | .file c => Prog.zoom Filesystems.vfs Filesystems.setVfs (Call.exec w c)

def Mounts.Alive (m : Mounts W I) (p : FsPtr) : Prop :=
  (∃ path d, m.fsMap.lookup path = some (p, d)) ∧ p ∉ m.deleted.map Prod.fst

/-- Every descriptor refers to an instance that is alive. -/
def Filesystems.NoStale (s : Filesystems W) : Prop :=
  ∀ fd p i, s.fdMap fd = some (p, i) → s.mounts.Alive p

def FsCall.Unused (s : Filesystems W) : FsCall → Prop
  | .mounts (.umount path) =>
    ∀ p d, s.mounts.fsMap.lookup path = some (p, d) → ∀ fd i, s.fdMap fd ≠ some (p, i)
  | _ => True

theorem Mounts.alive_of_lookup {m : Mounts W I} (h : m.fsMap.lookup path = some (p, d)) :
    m.Alive p := by
  refine ⟨⟨path, d, h⟩, fun hdel => ?_⟩
  have hentry : (p, d) ∈ m.mounted :=
    List.mem_map.mpr ⟨⟨path, (p, d)⟩, AList.mem_lookup_iff.mp h, rfl⟩
  have hmem : p ∈ m.mounted.map Prod.fst := List.mem_map.mpr ⟨(p, d), hentry, rfl⟩
  have hnodup := m.distinct
  rw [List.map_append] at hnodup
  exact (List.disjoint_of_nodup_append hnodup) hmem hdel

theorem Mounts.Alive.of_exec {m m' : Mounts W I} (h : m.Alive p) {c : MountCall}
    (hc : ∀ path d, c = .umount path → m.fsMap.lookup path ≠ some (p, d))
    (hex : c.exec.exec m = (.ok rc, m')) : m'.Alive p := by
  obtain ⟨⟨path, d, hl⟩, -⟩ := h
  refine Mounts.alive_of_lookup (MountCall.lookup_of_exec hl c (fun heq => ?_) hex)
  exact hc path d heq hl

theorem Filesystems.NoStale.exec (h : s.NoStale) {c : FsCall} (hc : c.Unused s)
    (hex : (FsCall.exec w c).exec s = (.ok rc, s')) : s'.NoStale := by
  cases c with
  | mounts c =>
    rw [FsCall.exec] at hex
    obtain ⟨m, hm, rfl⟩ := Prog.exec_zoom_ok hex
    intro fd p i hfd
    refine (h fd p i hfd).of_exec (fun path d heq hl => ?_) hm
    subst heq
    exact hc p d hl fd i hfd
  | file c =>
    rw [FsCall.exec] at hex
    obtain ⟨v, hv, rfl⟩ := Prog.exec_zoom_ok hex
    intro fd p i hfd
    cases Call.change hv with
    | same => exact h fd p i hfd
    | @opened path mnt q j f hcall hmnt hfree hf hrc =>
      change Function.update s.fdMap rc ((s.fdMap rc).getD (q, (j.val : Int))) fd = _ at hfd
      rw [Function.update_apply] at hfd
      split at hfd
      · cases hold : s.fdMap rc with
        | some x =>
          rw [hold] at hfd
          exact h rc p i (hold.trans hfd)
        | none =>
          rw [hold] at hfd
          cases hfd
          obtain ⟨d, hl⟩ := s.mounts.points_mem.mp hmnt
          exact Mounts.alive_of_lookup hl
      · exact h fd p i hfd
    | @closed fd₁ q j hcall hmap hrc =>
      change Function.update s.fdMap fd₁ none fd = _ at hfd
      rw [Function.update_apply] at hfd
      split at hfd
      · cases hfd
      · exact h fd p i hfd
    | moved => exact h fd p i hfd

/-- If nothing is unmounted while it has open files, no descriptor outlives its filesystem. -/
theorem no_stale_descriptors {s₀ s : Filesystems W} (hs₀ : ∀ fd, s₀.fdMap fd = none)
    (hg : Script.GuardedAll (FsCall.exec w) (fun s c => c.Unused s) calls s₀)
    (hrun : (Script.runAll (FsCall.exec w) calls).exec s₀ = (.ok rcs, s)) : s.NoStale := by
  have hinit : s₀.NoStale := by
    intro fd p i hfd
    rw [hs₀] at hfd
    cases hfd
  exact Script.runAll_invariant hinit hg hrun fun _ _ _ _ hs hc hex =>
    Filesystems.NoStale.exec hs hc hex

def cpioFactory : Factory Unit Cpiofs :=
  ⟨[0x63], fun _ w => ((K_OK, ⟨4096, 114, fun _ => {}⟩), w), fun _ w => w⟩

def noFiles : Filesystems Unit :=
  ⟨.start () [cpioFactory] fun _ => ⟨0, 0, fun _ => {}⟩, fun _ => none, 3⟩

def mountA : FsCall := .mounts (.mount [0x2f] [] none)

def umountA : FsCall := .mounts (.umount [0x2f])

def openA : FsCall := .file (.openFile [0x2f, 0x61])

theorem no_stale_descriptors_remounted : ∃ s,
    (Script.runAll (FsCall.exec worldA) [mountA, umountA, mountA, openA]).exec noFiles =
      (.ok [0, 0, 0, 3], s) ∧ s.fdMap 3 = some (1, 0) ∧ s.mounts.Alive 1 := by
  have hrcs : ((Script.runAll (FsCall.exec worldA) [mountA, umountA, mountA, openA]).exec
      noFiles).1 = .ok [0, 0, 0, 3] := by decide +kernel
  have hfd : ((Script.runAll (FsCall.exec worldA) [mountA, umountA, mountA, openA]).exec
      noFiles).2.fdMap 3 = some (1, 0) := by decide +kernel
  have hg : Script.GuardedAll (FsCall.exec worldA) (fun s c => c.Unused s)
      [mountA, umountA, mountA, openA] noFiles := by
    refine ⟨trivial, fun _ _ h₁ => ⟨fun p d _ fd i hfd => ?_, fun _ _ _ => ?_⟩⟩
    · cases h₁
      cases hfd
    · exact ⟨trivial, fun _ _ _ => ⟨trivial, fun _ _ _ => trivial⟩⟩
  cases hrun : (Script.runAll (FsCall.exec worldA) [mountA, umountA, mountA, openA]).exec
      noFiles with
  | mk r s =>
    rw [hrun] at hrcs hfd
    subst hrcs
    exact ⟨s, rfl, hfd, no_stale_descriptors (fun _ => rfl) hg hrun 3 1 0 hfd⟩

theorem stale_descriptor :
    ((Script.runAll (FsCall.exec worldA) [mountA, openA, umountA]).exec noFiles).1 =
      .ok [0, 3, 0] ∧
    ¬ ((Script.runAll (FsCall.exec worldA) [mountA, openA, umountA]).exec noFiles).2.NoStale := by
  have hrcs : ((Script.runAll (FsCall.exec worldA) [mountA, openA, umountA]).exec noFiles).1 =
      .ok [0, 3, 0] := by decide +kernel
  have hfd : ((Script.runAll (FsCall.exec worldA) [mountA, openA, umountA]).exec
      noFiles).2.fdMap 3 = some (0, 0) := by decide +kernel
  have hdel : 0 ∈ ((Script.runAll (FsCall.exec worldA) [mountA, openA, umountA]).exec
      noFiles).2.mounts.deleted.map Prod.fst := by decide +kernel
  exact ⟨hrcs, fun h => (h 3 0 0 hfd).2 hdel⟩

end Abydos.Vfs
