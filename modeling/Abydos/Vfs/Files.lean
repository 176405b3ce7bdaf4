import Abydos.Vfs.Tables

namespace Abydos.Vfs

open Abydos.Lib

structure OpenFile where
  file : Addr
  size : BitVec 64
  pos : BitVec 64

abbrev FileTable := Int → Option OpenFile

abbrev Result := Int × List UInt8

def OpenFile.fcb (f : OpenFile) : Fcb := ⟨true, f.file, f.size, f.pos⟩

/-- A call, its result, and the table before and after it.  A read gives the bytes of the file at
the position of its descriptor. -/
inductive Legal (located : Str → Addr → BitVec 64 → Prop) (ram : Ram) (T : FileTable) :
    Call → Result → FileTable → Prop
  | opened {path : Str} {fd : Int} {file : Addr} {size : BitVec 64} : located path file size →
      T fd = none → 0 ≤ fd →
      Legal located ram T (.openFile path) (fd, []) (Function.update T fd (some ⟨file, size, 0⟩))
  | openFailed {path : Str} {rc : Int} : rc < 0 → Legal located ram T (.openFile path) (rc, []) T
  | closed {fd : Int} {f : OpenFile} : T fd = some f →
      Legal located ram T (.close fd) (K_OK, []) (Function.update T fd none)
  | closeFailed {fd rc : Int} : T fd = none → rc < 0 → Legal located ram T (.close fd) (rc, []) T
  | read {fd : Int} {f : OpenFile} {count : BitVec 32} {data : List UInt8} {n : BitVec 64} :
      T fd = some f → n = f.fcb.available (count.signExtend 64) →
      ram.copy (f.file + f.pos) n.toNat = .ok data →
      Legal located ram T (.read fd count) ((n.setWidth 32).toInt, data)
        (Function.update T fd (some { f with pos := f.pos + n }))
  | readStdin {count : BitVec 32} : Legal located ram T (.read FILE_STDIN count) (0, []) T
  | readFailed {fd : Int} {count : BitVec 32} : T fd = none →
      Legal located ram T (.read fd count) (K_ENOENT, []) T
  | written {fd rc : Int} {buf : Addr} {count : BitVec 32} :
      Legal located ram T (.write fd buf count) (rc, []) T
  | sought {fd whence : Int} {offset pos : BitVec 64} {f : OpenFile} : T fd = some f →
      Cpiofs.seek f.fcb offset whence = some pos →
      Legal located ram T (.lseek fd offset whence) (K_OK, [])
        (Function.update T fd (some { f with pos := pos }))
  | seekFailed {fd whence rc : Int} {offset : BitVec 64} : rc < 0 →
      Legal located ram T (.lseek fd offset whence) (rc, []) T

inductive LegalRun (located : Str → Addr → BitVec 64 → Prop) (ram : Ram) :
    List (Call × Result) → FileTable → Prop
  | nil : LegalRun located ram [] fun _ => none
  | cons {log : List (Call × Result)} {T T' : FileTable} {c : Call} {r : Result} :
      LegalRun located ram log T → Legal located ram T c r T' →
      LegalRun located ram ((c, r) :: log) T'

def Call.perform (w : World) : Call → VfsM Result
  | .read fd count => vfsRead w fd count
  | c => do return (← Call.exec w c, [])

inductive History (w : World) (v₀ : VirtualFS) : List (Call × Result) → VirtualFS → Prop
  | nil : History w v₀ [] v₀
  | cons {log : List (Call × Result)} {v v' : VirtualFS} {c : Call} {r : Result} :
      History w v₀ log v → (c.perform w).exec v = (.ok r, v') → History w v₀ ((c, r) :: log) v'

structure Shows (v : VirtualFS) (T : FileTable) : Prop where
  free {fd : Int} : v.fdMap fd = none → T fd = none
  taken {fd : Int} {p : FsPtr} {k : Int} : v.fdMap fd = some (p, k) →
    ∃ (i : Fin MAX_FILES) (f : OpenFile), k = i.val ∧ (v.fs p).fcb i = f.fcb ∧ T fd = some f

variable {w : World} {v v' : VirtualFS} {T : FileTable} {i : Fin MAX_FILES} {p : FsPtr}
  {f : OpenFile}

theorem Shows.moved (h : Shows v T) (hinj : ∀ {fd fd' x}, v.fdMap fd = some x →
    v.fdMap fd' = some x → fd = fd') (hfd : v.fdMap fd = some (p, (i.val : Int))) :
    Shows (v.setFs p ((v.fs p).setFcb i f.fcb)) (Function.update T fd (some f)) := by
  constructor
  · intro fd₁ hfree
    change v.fdMap fd₁ = none at hfree
    rw [Function.update_apply, if_neg]
    · exact h.free hfree
    · rintro rfl
      cases hfree.symm.trans hfd
  · intro fd₁ q k hmap
    change v.fdMap fd₁ = some (q, k) at hmap
    obtain ⟨j, g, rfl, hg, hT⟩ := h.taken hmap
    rw [Function.update_apply]
    split
    · next heq =>
      rw [heq, hfd] at hmap
      obtain ⟨rfl, rfl⟩ := slot_injective hmap
      exact ⟨i, f, rfl, by simp [fcb_setFs], rfl⟩
    · next hne =>
      refine ⟨j, g, rfl, ?_, hT⟩
      rw [fcb_setFs, if_neg]
      · exact hg
      · rintro ⟨rfl, rfl⟩
        exact hne (hinj hmap hfd)

theorem Shows.closed (h : Shows v T) (hinj : ∀ {fd fd' x}, v.fdMap fd = some x →
    v.fdMap fd' = some x → fd = fd') (hfd : v.fdMap fd = some (p, (i.val : Int))) :
    Shows ((v.setFs p ((v.fs p).setFcb i {})).eraseFd fd) (Function.update T fd none) := by
  constructor
  · intro fd₁ hfree
    change Function.update v.fdMap fd none fd₁ = none at hfree
    rw [Function.update_apply] at hfree ⊢
    split at hfree
    · next heq => rw [if_pos heq]
    · next hne =>
      rw [if_neg hne]
      exact h.free hfree
  · intro fd₁ q k hmap
    change Function.update v.fdMap fd none fd₁ = some (q, k) at hmap
    rw [Function.update_apply] at hmap ⊢
    split at hmap
    · cases hmap
    · next hne =>
      rw [if_neg hne]
      obtain ⟨j, g, rfl, hg, hT⟩ := h.taken hmap
      refine ⟨j, g, rfl, ?_, hT⟩
      change ((v.setFs p ((v.fs p).setFcb i {})).fs q).fcb j = _
      rw [fcb_setFs, if_neg]
      · exact hg
      · rintro ⟨rfl, rfl⟩
        exact hne (hinj hmap hfd)

theorem Shows.opened (h : Shows v T) (hnew : v.fdMap fd = none)
    (hfree : ((v.fs p).fcb i).used = false) :
    Shows { (v.setFs p ((v.fs p).setFcb i f.fcb)).insertFd fd (p, (i.val : Int)) with
      fdCounter := v.fdCounter + 1 } (Function.update T fd (some f)) := by
  have hmap : ∀ fd₁, Function.update v.fdMap fd ((v.fdMap fd).getD (p, (i.val : Int))) fd₁ =
      if fd₁ = fd then some (p, (i.val : Int)) else v.fdMap fd₁ := by
    intro fd₁
    rw [hnew, Function.update_apply]
    rfl
  constructor
  · intro fd₁ hnone
    rw [show VirtualFS.fdMap _ fd₁ = _ from hmap fd₁] at hnone
    rw [Function.update_apply]
    split at hnone
    · cases hnone
    · next hne =>
      rw [if_neg hne]
      exact h.free hnone
  · intro fd₁ q k hsome
    rw [show VirtualFS.fdMap _ fd₁ = _ from hmap fd₁] at hsome
    change ∃ j g, _ ∧ ((v.setFs p ((v.fs p).setFcb i f.fcb)).fs q).fcb j = _ ∧ _
    rw [Function.update_apply]
    split at hsome
    · next heq =>
      cases hsome
      exact ⟨i, f, rfl, by simp [fcb_setFs], if_pos heq⟩
    · next hne =>
      obtain ⟨j, g, rfl, hg, hT⟩ := h.taken hsome
      refine ⟨j, g, rfl, ?_, (if_neg hne).trans hT⟩
      rw [fcb_setFs, if_neg]
      · exact hg
      · rintro ⟨rfl, rfl⟩
        rw [hg] at hfree
        cases hfree

theorem Shows.slot (h : Shows v T) (hfd : v.fdMap fd = some (p, k)) :
    ∃ (i : Fin MAX_FILES) (f : OpenFile), k = i.val ∧ (v.fs p).slot k = some i ∧
      (v.fs p).fcb i = f.fcb ∧ T fd = some f := by
  obtain ⟨i, f, hk, hf, hT⟩ := h.taken hfd
  exact ⟨i, f, hk, Cpiofs.slot_eq_some.mpr ⟨hk, by rw [hf]; rfl⟩, hf, hT⟩

theorem Shows.none_of_slot (h : Shows v T)
    (hslot : ∀ p k, v.fdMap fd = some (p, k) → (v.fs p).slot k = none) : T fd = none := by
  cases hm : v.fdMap fd with
  | none => exact h.free hm
  | some x =>
    obtain ⟨i, f, -, hs, -⟩ := h.slot hm
    cases (hslot x.1 x.2 hm).symm.trans hs

theorem Shows.read (h : Shows v T) (hinj : ∀ {fd fd' x}, v.fdMap fd = some x →
    v.fdMap fd' = some x → fd = fd') (hx : (vfsRead w fd count).exec v = (.ok r, v')) :
    ∃ T', Legal located w.ram T (.read fd count) r T' ∧ Shows v' T' := by
  rcases vfsRead_cases hx with ⟨rfl, rfl, rfl⟩ | ⟨hm, rfl, rfl⟩ | ⟨p, k, c, hm, hread, rfl⟩
  · exact ⟨T, .readStdin, h⟩
  · exact ⟨T, .readFailed (h.free hm), h⟩
  · obtain ⟨i, f, rfl, hs, hf, hT⟩ := h.slot hm
    rcases Cpiofs.fsRead_cases hread with ⟨hnone, -⟩ | ⟨j, data, hj, -, hdata, rfl, rfl⟩
    · cases hnone.symm.trans hs
    · cases Fin.ext (Int.natCast_inj.mp hj)
      rw [hf] at hdata ⊢
      let f' : OpenFile := { f with pos := f.pos + f.fcb.available (count.signExtend 64) }
      exact ⟨_, .read hT rfl hdata, h.moved (f := f') hinj hm⟩

theorem Shows.perform (h : Shows v T) (hin : InStep n v) (hn : n < 2 ^ 31 - 3) (c : Call)
    (hx : (c.perform w).exec v = (.ok r, v')) :
    ∃ T', Legal (fun path file size => ∃ p, Located w v path p file size) w.ram T c r T' ∧
      Shows v' T' := by
  cases c with
  | read fd count => exact h.read hin.injective hx
  | openFile path =>
    obtain ⟨rc, v₁, hopen, hpure⟩ := exec_bind_inv hx
    cases hpure
    rcases vfsOpen_cases hopen with ⟨hneg, rfl⟩ | ⟨p, i, file, size, hloc, hfree, rfl, rfl⟩
    · exact ⟨T, .openFailed hneg, h⟩
    · have hnew := hin.fdMap_counter hn
      have hnonneg : 0 ≤ v.fdCounter.toInt := by
        rw [hin.fdCounter_toInt hn]
        omega
      exact ⟨_, .opened ⟨p, hloc⟩ (h.free hnew) hnonneg,
        h.opened (f := ⟨file, size, 0⟩) hnew hfree⟩
  | close fd =>
    obtain ⟨rc, v₁, hclose, hpure⟩ := exec_bind_inv hx
    cases hpure
    rcases vfsClose_cases hclose with ⟨hneg, rfl, hslot⟩ | ⟨p, i, hm, rfl, rfl⟩
    · exact ⟨T, .closeFailed (h.none_of_slot hslot) hneg, h⟩
    · obtain ⟨j, f, -, -, -, hT⟩ := h.slot hm
      exact ⟨_, .closed hT, h.closed hin.injective hm⟩
  | write fd buf count =>
    obtain ⟨rc, v₁, hwrite, hpure⟩ := exec_bind_inv hx
    cases hpure
    rw [vfsWrite_same hwrite]
    exact ⟨T, .written, h⟩
  | lseek fd offset whence =>
    obtain ⟨rc, v₁, hseek, hpure⟩ := exec_bind_inv hx
    cases hpure
    rcases vfsLseek_cases hseek with ⟨hneg, rfl⟩ | ⟨p, i, pos, hm, hpos, rfl, rfl⟩
    · exact ⟨T, .seekFailed hneg, h⟩
    · obtain ⟨j, f, hj, -, hf, hT⟩ := h.slot hm
      cases Fin.ext (Int.natCast_inj.mp hj)
      rw [hf] at hpos ⊢
      exact ⟨_, .sought hT hpos, h.moved (f := { f with pos := pos }) hin.injective hm⟩

theorem Call.exec_of_perform (c : Call) (hx : (c.perform w).exec v = (.ok r, v')) :
    (Call.exec w c).exec v = (.ok r.1, v') := by
  cases c with
  | read fd count => exact (Prog.exec_bind_ok hx).trans rfl
  | _ =>
    obtain ⟨rc, v₁, hexec, hpure⟩ := exec_bind_inv hx
    cases hpure
    exact hexec

theorem Located.of_change (hc : Change v c rc v') :
    Located w v' = Located w v := by
  have harch : ∀ {u : VirtualFS} {p : FsPtr} {i : Fin MAX_FILES} {f : Fcb}, u.fsMap = v.fsMap →
      (u.fs = (v.setFs p ((v.fs p).setFcb i f)).fs) → Located w u = Located w v := by
    intro u p i f hmap hfs
    funext path q file size
    have hq : (u.fs q).archive = (v.fs q).archive ∧ (u.fs q).archiveLen = (v.fs q).archiveLen := by
      rw [hfs]
      change (Function.update v.fs p _ q).archive = _ ∧
        (Function.update v.fs p _ q).archiveLen = _
      rw [Function.update_apply]
      split
      · next heq =>
        rw [heq]
        exact ⟨rfl, rfl⟩
      · exact ⟨rfl, rfl⟩
    rw [Located, Located, hmap, hq.1, hq.2]
  cases hc with
  | same => rfl
  | opened => exact harch rfl rfl
  | closed => exact harch rfl rfl
  | moved => exact harch rfl rfl

theorem opens_cons (c : Call) (r : Result) (log : List (Call × Result)) :
    opens (((c, r) :: log).map Prod.fst) (((c, r) :: log).map fun x => x.2.1) =
      opens (log.map Prod.fst) (log.map fun x => x.2.1) + if c.opened r.1 then 1 else 0 :=
  List.countP_cons

theorem VirtualFS.Fresh.shows (h : v.Fresh) : Shows v fun _ => none := by
  refine ⟨fun _ => rfl, fun {fd _ _} hfd => ?_⟩
  rw [h.fdMap fd] at hfd
  cases hfd

theorem History.legal {v₀ : VirtualFS} (hv₀ : v₀.Fresh) (h : History w v₀ log v)
    (hn : opens (log.map Prod.fst) (log.map fun x => x.2.1) < 2 ^ 31 - 3) :
    InStep (opens (log.map Prod.fst) (log.map fun x => x.2.1)) v ∧ Located w v = Located w v₀ ∧
    ∃ T, LegalRun (fun path file size => ∃ p, Located w v₀ path p file size) w.ram log T ∧
      Shows v T := by
  induction h with
  | nil => exact ⟨hv₀.inStep, rfl, _, .nil, hv₀.shows⟩
  | @cons log v v' c r _ hx ih =>
    rw [opens_cons] at hn ⊢
    obtain ⟨hin, hloc, T, hlegal, hshows⟩ := ih (by omega)
    have hchange := Call.change (Call.exec_of_perform c hx)
    obtain ⟨T', hT', hshows'⟩ := hshows.perform hin (by omega) c hx
    rw [hloc] at hT'
    exact ⟨hin.step (by omega) hchange, (Located.of_change hchange).trans hloc, T',
      hlegal.cons hT', hshows'⟩

end Abydos.Vfs
