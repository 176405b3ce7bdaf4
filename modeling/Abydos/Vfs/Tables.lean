import Abydos.Vfs.VirtualFS

namespace Abydos.Vfs

open Abydos.Lib

variable {w : World} {c c' : Cpiofs} {v v' : VirtualFS} {i : Fin MAX_FILES} {p : FsPtr}

theorem exec_liftExcept_ok (a : α) (s : S) :
    (liftExcept (.ok a) : Prog S Trap α).exec s = (.ok a, s) := rfl

theorem exec_liftExcept_error (e : Trap) (s : S) :
    (liftExcept (.error e) : Prog S Trap α).exec s = (.error e, s) := rfl

theorem VirtualFS.setFs_self (v : VirtualFS) (p : FsPtr) : v.setFs p (v.fs p) = v := by
  unfold VirtualFS.setFs
  rw [Function.update_eq_self]

theorem exec_onFs {x : Prog Cpiofs Trap α} (h : x.exec (v.fs p) = (r, c)) :
    (onFs p x).exec v = (r, v.setFs p c) := by
  refine (Prog.exec_bind_ok (Prog.exec_get v)).trans ?_
  rw [h]
  refine (Prog.exec_bind_ok (Prog.exec_modify _ v)).trans ?_
  cases r <;> rfl

theorem Cpiofs.firstFree_some (h : c.firstFree = some i) : (c.fcb i).used = false := by
  have := List.find?_some h
  simpa using this

theorem Cpiofs.slot_eq_some {fd : Int} :
    c.slot fd = some i ↔ fd = i.val ∧ (c.fcb i).used = true := by
  unfold Cpiofs.slot
  constructor
  · intro h
    split at h
    · next hfd =>
      split at h
      · next hu =>
        cases h
        exact ⟨(Int.toNat_of_nonneg hfd.1).symm, hu⟩
      · cases h
    · cases h
  · rintro ⟨rfl, hu⟩
    rw [dif_pos ⟨Int.natCast_nonneg _, by rw [Int.toNat_natCast]; exact i.isLt⟩]
    simp only [Int.toNat_natCast]
    rw [if_pos hu]

theorem Cpiofs.fsOpen_cases (h : (Cpiofs.fsOpen w path).exec c = (.ok rc, c')) :
    (rc < 0 ∧ c' = c) ∨ ∃ i file size, rc = (i.val : Int) ∧ (c.fcb i).used = false ∧
      (cpioGetFile w.ram c.archive c.archiveLen path = .ok (file, size) ∧ file ≠ 0) ∧
      c' = c.setFcb i ⟨true, file, size, 0⟩ := by
  unfold Cpiofs.fsOpen at h
  rw [Prog.exec_bind_ok (Prog.exec_get c)] at h
  cases hg : cpioGetFile w.ram c.archive c.archiveLen path with
  | error e =>
    rw [hg, Prog.exec_bind_error (exec_liftExcept_error e c)] at h
    cases h
  | ok r =>
    obtain ⟨file, size⟩ := r
    rw [hg, Prog.exec_bind_ok (exec_liftExcept_ok _ c), Prog.exec_ite] at h
    split at h
    · cases h
      exact Or.inl ⟨by decide, rfl⟩
    · next hfile =>
      cases hf : c.firstFree with
      | none =>
        simp only [hf] at h
        cases h
        exact Or.inl ⟨by decide, rfl⟩
      | some i =>
        simp only [hf] at h
        rw [Prog.exec_bind_ok (Prog.exec_modify _ c)] at h
        cases h
        exact Or.inr ⟨i, file, size, rfl, Cpiofs.firstFree_some hf, ⟨rfl, hfile⟩, rfl⟩

theorem Cpiofs.fsClose_cases (h : (Cpiofs.fsClose fd).exec c = (.ok rc, c')) :
    (rc = K_ENOENT ∧ c' = c ∧ c.slot fd = none) ∨
    ∃ i : Fin MAX_FILES, fd = i.val ∧ (c.fcb i).used = true ∧
      rc = K_OK ∧ c' = c.setFcb i {} := by
  unfold Cpiofs.fsClose at h
  rw [Prog.exec_bind_ok (Prog.exec_get c)] at h
  cases hs : c.slot fd with
  | none =>
    simp only [hs] at h
    cases h
    exact Or.inl ⟨rfl, rfl, rfl⟩
  | some i =>
    simp only [hs] at h
    rw [Prog.exec_bind_ok (Prog.exec_modify _ c)] at h
    cases h
    obtain ⟨hfd, hu⟩ := Cpiofs.slot_eq_some.mp hs
    exact Or.inr ⟨i, hfd, hu, rfl, rfl⟩

def Fcb.available (f : Fcb) (count : BitVec 64) : BitVec 64 :=
  if f.size < f.lpos + count then f.size - f.lpos else count

theorem Cpiofs.fsRead_cases (h : (Cpiofs.fsRead w fd count).exec c = (.ok res, c')) :
    (c.slot fd = none ∧ c' = c) ∨ ∃ (i : Fin MAX_FILES) (data : List UInt8), fd = i.val ∧
      (c.fcb i).used = true ∧ w.ram.copy ((c.fcb i).file + (c.fcb i).lpos)
        ((c.fcb i).available count).toNat = .ok data ∧
      res = ((((c.fcb i).available count).setWidth 32).toInt, data) ∧
      c' = c.setFcb i { c.fcb i with lpos := (c.fcb i).lpos + (c.fcb i).available count } := by
  unfold Cpiofs.fsRead at h
  rw [Prog.exec_bind_ok (Prog.exec_get c)] at h
  cases hs : c.slot fd with
  | none =>
    simp only [hs] at h
    cases h
    exact Or.inl ⟨rfl, rfl⟩
  | some i =>
    simp only [hs] at h
    obtain ⟨hfd, hu⟩ := Cpiofs.slot_eq_some.mp hs
    change ((liftExcept (w.ram.copy _ ((c.fcb i).available count).toNat) >>= _ :
      Prog _ _ _).exec c) =
      _ at h
    cases hd : w.ram.copy ((c.fcb i).file + (c.fcb i).lpos) ((c.fcb i).available count).toNat with
    | error e =>
      rw [hd, Prog.exec_bind_error (exec_liftExcept_error e c)] at h
      cases h
    | ok data =>
      rw [hd, Prog.exec_bind_ok (exec_liftExcept_ok data c),
        Prog.exec_bind_ok (Prog.exec_modify _ c)] at h
      cases h
      exact Or.inr ⟨i, data, hfd, hu, hd, rfl, rfl⟩

theorem Cpiofs.fsLseek_cases (h : (Cpiofs.fsLseek fd offset whence).exec c = (.ok rc, c')) :
    (rc < 0 ∧ c' = c) ∨ ∃ (i : Fin MAX_FILES) (pos : BitVec 64), fd = i.val ∧
      (c.fcb i).used = true ∧ Cpiofs.seek (c.fcb i) offset whence = some pos ∧ rc = K_OK ∧
      c' = c.setFcb i { c.fcb i with lpos := pos } := by
  unfold Cpiofs.fsLseek at h
  rw [Prog.exec_bind_ok (Prog.exec_get c)] at h
  cases hs : c.slot fd with
  | none =>
    simp only [hs] at h
    cases h
    exact Or.inl ⟨by decide, rfl⟩
  | some i =>
    obtain ⟨hfd, hu⟩ := Cpiofs.slot_eq_some.mp hs
    cases hp : Cpiofs.seek (c.fcb i) offset whence with
    | none =>
      simp only [hs, hp] at h
      cases h
      exact Or.inl ⟨by decide, rfl⟩
    | some pos =>
      simp only [hs, hp] at h
      rw [Prog.exec_bind_ok (Prog.exec_modify _ c)] at h
      cases h
      exact Or.inr ⟨i, pos, hfd, hu, hp, rfl, rfl⟩

theorem resolve_mem {r : Option FsPtr × Nat} (h : resolve path xs r = (some p, n)) :
    r.1 = some p ∨ ∃ m, (m, p) ∈ xs := by
  induction xs generalizing r with
  | nil =>
    cases h
    exact Or.inl rfl
  | cons x xs ih =>
    unfold resolve at h
    split at h
    · rcases ih h with heq | ⟨m, hm⟩
      · cases heq
        exact Or.inr ⟨x.1, List.mem_cons_self⟩
      · exact Or.inr ⟨m, List.mem_cons_of_mem _ hm⟩
    · rcases ih h with heq | ⟨m, hm⟩
      · exact Or.inl heq
      · exact Or.inr ⟨m, List.mem_cons_of_mem _ hm⟩

inductive Change (v : VirtualFS) (call : Call) (rc : Int) : VirtualFS → Prop
  | same : (∀ path, call = .openFile path → rc < 0) → Change v call rc v
  | opened {path mnt : Str} {p : FsPtr} {i : Fin MAX_FILES} {f : Fcb} : call = .openFile path →
      (mnt, p) ∈ v.fsMap → ((v.fs p).fcb i).used = false → f.used = true → rc = v.fdCounter.toInt →
      Change v call rc { (v.setFs p ((v.fs p).setFcb i f)).insertFd rc (p, (i.val : Int)) with
        fdCounter := v.fdCounter + 1 }
  | closed {fd : Int} {p : FsPtr} {i : Fin MAX_FILES} : call = .close fd →
      v.fdMap fd = some (p, (i.val : Int)) → rc = K_OK →
      Change v call rc ((v.setFs p ((v.fs p).setFcb i {})).eraseFd fd)
  | moved {fd : Int} {p : FsPtr} {i : Fin MAX_FILES} {f : Fcb} :
      v.fdMap fd = some (p, (i.val : Int)) →
      f.used = ((v.fs p).fcb i).used → (∀ path, call ≠ .openFile path) →
      (rc < 0 → ∃ n, call = .read fd n) → Change v call rc (v.setFs p ((v.fs p).setFcb i f))

theorem exec_onFs_ok {x : Prog Cpiofs Trap α} (h : (onFs p x).exec v = (.ok a, v')) :
    ∃ c, x.exec (v.fs p) = (.ok a, c) ∧ v' = v.setFs p c := by
  cases hx : x.exec (v.fs p) with
  | mk r c =>
    cases (exec_onFs hx).symm.trans h
    exact ⟨c, rfl, rfl⟩

theorem exec_bind_inv {x : Prog S E α} {f : α → Prog S E β}
    (h : (x >>= f).exec s = (.ok b, s')) :
    ∃ a s₁, x.exec s = (.ok a, s₁) ∧ (f a).exec s₁ = (.ok b, s') := by
  rw [Prog.exec_bind] at h
  split at h
  · next a s₁ hx => exact ⟨a, s₁, hx, h⟩
  · cases h

def Located (w : World) (v : VirtualFS) (path : Str) (p : FsPtr) (file : Addr) (size : BitVec 64) :
    Prop :=
  ∃ n, resolve path v.fsMap (none, 0) = (some p, n) ∧ file ≠ 0 ∧
    cpioGetFile w.ram (v.fs p).archive (v.fs p).archiveLen (path.drop n) = .ok (file, size)

theorem vfsOpen_cases (h : (vfsOpen w path).exec v = (.ok rc, v')) :
    (rc < 0 ∧ v' = v) ∨ ∃ p i file size, Located w v path p file size ∧
      ((v.fs p).fcb i).used = false ∧ rc = v.fdCounter.toInt ∧
      v' = { (v.setFs p ((v.fs p).setFcb i ⟨true, file, size, 0⟩)).insertFd rc
          (p, (i.val : Int)) with
        fdCounter := v.fdCounter + 1 } := by
  unfold vfsOpen at h
  rw [Prog.exec_bind_ok (Prog.exec_get v)] at h
  cases hr : resolve path v.fsMap (none, 0) with
  | mk q n =>
    rw [hr] at h
    cases q with
    | none =>
      cases h
      exact Or.inl ⟨by decide, rfl⟩
    | some p =>
      obtain ⟨ret, v₁, hon, hrest⟩ := exec_bind_inv h
      obtain ⟨c, hx, rfl⟩ := exec_onFs_ok hon
      rcases Cpiofs.fsOpen_cases hx with ⟨hneg, rfl⟩ | ⟨i, file, size, rfl, hfree, hfile, rfl⟩
      · rw [if_neg (Int.not_le.mpr hneg)] at hrest
        cases hrest
        rw [VirtualFS.setFs_self]
        exact Or.inl ⟨hneg, rfl⟩
      · rw [if_pos (Int.natCast_nonneg _), Prog.exec_bind_ok (Prog.exec_get _),
          Prog.exec_bind_ok (Prog.exec_modify _ _)] at hrest
        cases hrest
        exact Or.inr ⟨p, i, file, size, ⟨n, hr, hfile.2, hfile.1⟩, hfree, rfl, rfl⟩

theorem vfsClose_cases (h : (vfsClose fd).exec v = (.ok rc, v')) :
    (rc < 0 ∧ v' = v ∧ ∀ p k, v.fdMap fd = some (p, k) → (v.fs p).slot k = none) ∨
    ∃ p, ∃ i : Fin MAX_FILES, v.fdMap fd = some (p, (i.val : Int)) ∧ rc = K_OK ∧
      v' = (v.setFs p ((v.fs p).setFcb i {})).eraseFd fd := by
  unfold vfsClose at h
  rw [Prog.exec_bind_ok (Prog.exec_get v)] at h
  cases hm : v.fdMap fd with
  | none =>
    rw [hm] at h
    cases h
    exact Or.inl ⟨by decide, rfl, fun _ _ heq => by cases heq⟩
  | some x =>
    obtain ⟨p, k⟩ := x
    rw [hm] at h
    obtain ⟨ret, v₁, hon, hrest⟩ := exec_bind_inv h
    obtain ⟨c, hx, rfl⟩ := exec_onFs_ok hon
    rcases Cpiofs.fsClose_cases hx with ⟨rfl, rfl, hslot⟩ | ⟨i, rfl, -, rfl, rfl⟩
    · rw [if_neg (by decide)] at hrest
      cases hrest
      rw [VirtualFS.setFs_self]
      refine Or.inl ⟨by decide, rfl, fun _ _ heq => ?_⟩
      cases heq
      exact hslot
    · rw [if_pos rfl, Prog.exec_bind_ok (Prog.exec_modify _ _)] at hrest
      cases hrest
      exact Or.inr ⟨p, i, rfl, rfl, rfl⟩

theorem vfsRead_cases (h : (vfsRead w fd count).exec v = (.ok res, v')) :
    (fd = FILE_STDIN ∧ res = (0, []) ∧ v' = v) ∨
    (v.fdMap fd = none ∧ res = (K_ENOENT, []) ∧ v' = v) ∨
    ∃ p k c, v.fdMap fd = some (p, k) ∧
      (Cpiofs.fsRead w k (count.signExtend 64)).exec (v.fs p) = (.ok res, c) ∧
        v' = v.setFs p c := by
  unfold vfsRead at h
  rw [Prog.exec_ite] at h
  split at h
  · next hstdin =>
    cases h
    exact Or.inl ⟨hstdin, rfl, rfl⟩
  · rw [Prog.exec_bind_ok (Prog.exec_get v)] at h
    cases hm : v.fdMap fd with
    | none =>
      rw [hm] at h
      cases h
      exact Or.inr (Or.inl ⟨rfl, rfl, rfl⟩)
    | some x =>
      obtain ⟨p, k⟩ := x
      rw [hm] at h
      obtain ⟨c, hx, rfl⟩ := exec_onFs_ok h
      exact Or.inr (Or.inr ⟨p, k, c, rfl, hx, rfl⟩)

theorem vfsWrite_same (h : (vfsWrite w fd buf count).exec v = (.ok rc, v')) : v' = v := by
  unfold vfsWrite at h
  rw [Prog.exec_ite] at h
  split at h
  · cases h
    rfl
  · rw [Prog.exec_bind_ok (Prog.exec_get v)] at h
    cases hm : v.fdMap fd with
    | none =>
      rw [hm] at h
      cases h
      rfl
    | some x =>
      rw [hm] at h
      obtain ⟨c, hx, rfl⟩ := exec_onFs_ok h
      cases hx
      exact VirtualFS.setFs_self v x.1

theorem vfsLseek_cases (h : (vfsLseek fd offset whence).exec v = (.ok rc, v')) :
    (rc < 0 ∧ v' = v) ∨ ∃ p, ∃ (i : Fin MAX_FILES) (pos : BitVec 64),
      v.fdMap fd = some (p, (i.val : Int)) ∧
      Cpiofs.seek ((v.fs p).fcb i) offset whence = some pos ∧ rc = K_OK ∧
      v' = v.setFs p ((v.fs p).setFcb i { (v.fs p).fcb i with lpos := pos }) := by
  unfold vfsLseek at h
  rw [Prog.exec_ite] at h
  split at h
  · cases h
    exact Or.inl ⟨by decide, rfl⟩
  · rw [Prog.exec_bind_ok (Prog.exec_get v)] at h
    cases hm : v.fdMap fd with
    | none =>
      rw [hm] at h
      cases h
      exact Or.inl ⟨by decide, rfl⟩
    | some x =>
      obtain ⟨p, k⟩ := x
      rw [hm] at h
      obtain ⟨c, hx, rfl⟩ := exec_onFs_ok h
      rcases Cpiofs.fsLseek_cases hx with ⟨hneg, rfl⟩ | ⟨i, pos, rfl, -, hseek, rfl, rfl⟩
      · rw [VirtualFS.setFs_self]
        exact Or.inl ⟨hneg, rfl⟩
      · exact Or.inr ⟨p, i, pos, rfl, hseek, rfl, rfl⟩

theorem Call.change (h : (Call.exec w call).exec v = (.ok rc, v')) : Change v call rc v' := by
  cases call with
  | openFile path =>
    rcases vfsOpen_cases h with ⟨hneg, rfl⟩ | ⟨p, i, file, size, ⟨n, hr, -⟩, hfree, hrc, rfl⟩
    · exact .same fun _ _ => hneg
    · obtain ⟨mnt, hmnt⟩ := (resolve_mem hr).resolve_left fun heq => by cases heq
      exact .opened rfl hmnt hfree rfl hrc
  | close fd =>
    rcases vfsClose_cases h with ⟨-, rfl, -⟩ | ⟨p, i, hm, hrc, rfl⟩
    · exact .same fun _ heq => by cases heq
    · exact .closed rfl hm hrc
  | read fd count =>
    have hmap : (Call.exec w (.read fd count)).exec v =
        (vfsRead w fd count >>= fun r => pure r.1).exec v := rfl
    rw [hmap] at h
    obtain ⟨res, v₁, hread, hpure⟩ := exec_bind_inv h
    cases hpure
    rcases vfsRead_cases hread with ⟨-, -, rfl⟩ | ⟨-, -, rfl⟩ | ⟨p, k, c, hm, hx, rfl⟩
    · exact .same fun _ heq => by cases heq
    · exact .same fun _ heq => by cases heq
    · rcases Cpiofs.fsRead_cases hx with ⟨-, rfl⟩ | ⟨i, data, rfl, -, -, -, rfl⟩
      · rw [VirtualFS.setFs_self]
        exact .same fun _ heq => by cases heq
      · exact .moved hm rfl (fun _ heq => by cases heq) fun _ => ⟨count, rfl⟩
  | write fd buf count =>
    rw [vfsWrite_same h]
    exact .same fun _ heq => by cases heq
  | lseek fd offset whence =>
    rcases vfsLseek_cases h with ⟨-, rfl⟩ | ⟨p, i, pos, hm, -, hrc, rfl⟩
    · exact .same fun _ heq => by cases heq
    · refine .moved hm rfl (fun _ heq => by cases heq) fun hneg => ?_
      rw [hrc] at hneg
      exact absurd hneg (by decide)

def Call.opened : Call → Int → Bool
  | .openFile _, rc => 0 ≤ rc
  | _, _ => false

def opens (calls : List Call) (rcs : List Int) : Nat :=
  (calls.zip rcs).countP fun x => x.1.opened x.2

theorem Call.opened_eq_false {call : Call} (h : ∀ path, call = .openFile path → rc < 0) :
    call.opened rc = false := by
  cases call with
  | openFile path => exact decide_eq_false (Int.not_le.mpr (h path rfl))
  | _ => rfl

def VirtualFS.Mounted (v : VirtualFS) (p : FsPtr) : Prop := ∃ mnt, (mnt, p) ∈ v.fsMap

/-- After `n` opens: descriptors come from the counter, and each stands for a slot of its own; the
slots in use are those some descriptor stands for. -/
structure InStep (n : Nat) (v : VirtualFS) : Prop where
  counter : v.fdCounter = BitVec.ofNat 32 (3 + n)
  below {fd : Int} {x : FsPtr × Int} : v.fdMap fd = some x → fd < 3 + n
  injective {fd fd' : Int} {x : FsPtr × Int} :
    v.fdMap fd = some x → v.fdMap fd' = some x → fd = fd'
  used {p : FsPtr} (i : Fin MAX_FILES) : v.Mounted p →
    (((v.fs p).fcb i).used = true ↔ ∃ fd, v.fdMap fd = some (p, (i.val : Int)))

theorem fcb_setFs {f : Fcb} (q : FsPtr) (j : Fin MAX_FILES) :
    ((v.setFs p ((v.fs p).setFcb i f)).fs q).fcb j =
      if q = p ∧ j = i then f else (v.fs q).fcb j := by
  unfold VirtualFS.setFs Cpiofs.setFcb
  by_cases hq : q = p
  · subst hq
    by_cases hj : j = i <;> simp [hj]
  · simp [hq]

theorem slot_injective {p q : FsPtr} {i j : Fin MAX_FILES}
    (h : some (p, (i.val : Int)) = some (q, (j.val : Int))) : p = q ∧ i = j := by
  rw [Option.some.injEq, Prod.mk.injEq, Int.natCast_inj] at h
  exact ⟨h.1, Fin.ext h.2⟩

theorem InStep.fdCounter_toInt (h : InStep n v) (hn : n < 2 ^ 31 - 3) :
    v.fdCounter.toInt = 3 + n := by
  have hnat : v.fdCounter.toNat = 3 + n := by
    rw [h.counter, BitVec.toNat_ofNat]
    exact Nat.mod_eq_of_lt (by omega)
  rw [BitVec.toInt_eq_toNat_of_lt (by omega), hnat]
  push_cast
  rfl

theorem InStep.fdMap_counter (h : InStep n v) (hn : n < 2 ^ 31 - 3) :
    v.fdMap v.fdCounter.toInt = none := by
  rw [h.fdCounter_toInt hn]
  cases hm : v.fdMap (3 + n) with
  | none => rfl
  | some x => exact absurd (h.below hm) (Int.lt_irrefl _)

theorem InStep.opened {f : Fcb} (h : InStep n v) (hn : n < 2 ^ 31 - 3) (hp : v.Mounted p)
    (hfree : ((v.fs p).fcb i).used = false) (hf : f.used = true) (hrc : rc = v.fdCounter.toInt) :
    InStep (n + 1) { (v.setFs p ((v.fs p).setFcb i f)).insertFd rc (p, (i.val : Int)) with
      fdCounter := v.fdCounter + 1 } := by
  have hnone : v.fdMap rc = none := hrc ▸ h.fdMap_counter hn
  rw [h.fdCounter_toInt hn] at hrc
  have hmap : ∀ fd, Function.update v.fdMap rc ((v.fdMap rc).getD (p, (i.val : Int))) fd =
      if fd = rc then some (p, (i.val : Int)) else v.fdMap fd := by
    intro fd
    rw [hnone, Function.update_apply]
    rfl
  have hnew : ∀ fd, v.fdMap fd ≠ some (p, (i.val : Int)) := by
    intro fd hfd
    rw [(h.used i hp).mpr ⟨fd, hfd⟩] at hfree
    cases hfree
  refine ⟨?_, fun {fd x} hfd => ?_, fun {fd fd' x} hfd hfd' => ?_, fun {q} j hq => ?_⟩
  · change v.fdCounter + 1 = _
    rw [h.counter, ← Nat.add_assoc, BitVec.ofNat_add (3 + n) 1]
    rfl
  · rw [show (VirtualFS.fdMap _ fd) = _ from hmap fd] at hfd
    split at hfd
    · omega
    · have := h.below hfd
      omega
  · rw [show (VirtualFS.fdMap _ fd) = _ from hmap fd] at hfd
    rw [show (VirtualFS.fdMap _ fd') = _ from hmap fd'] at hfd'
    split at hfd <;> split at hfd'
    · next h₁ h₂ => rw [h₁, h₂]
    · exact absurd (hfd'.trans hfd.symm) (hnew fd')
    · exact absurd (hfd.trans hfd'.symm) (hnew fd)
    · exact h.injective hfd hfd'
  · change (((v.setFs p ((v.fs p).setFcb i f)).fs q).fcb j).used = true ↔ ∃ fd, _
    rw [fcb_setFs]
    split
    · next heq =>
      obtain ⟨rfl, rfl⟩ := heq
      exact ⟨fun _ => ⟨rc, (hmap rc).trans (if_pos rfl)⟩, fun _ => hf⟩
    · next hne =>
      rw [h.used j hq]
      constructor
      · rintro ⟨fd, hfd⟩
        refine ⟨fd, (hmap fd).trans ?_⟩
        rw [if_neg (fun heq => ?_), hfd]
        rw [heq, hnone] at hfd
        cases hfd
      · rintro ⟨fd, hfd⟩
        rw [show (VirtualFS.fdMap _ fd) = _ from hmap fd] at hfd
        split at hfd
        · obtain ⟨rfl, rfl⟩ := slot_injective hfd
          exact absurd ⟨rfl, rfl⟩ hne
        · exact ⟨fd, hfd⟩

theorem InStep.closed {fd : Int} (h : InStep n v) (hfd : v.fdMap fd = some (p, (i.val : Int))) :
    InStep n ((v.setFs p ((v.fs p).setFcb i {})).eraseFd fd) := by
  have hmap : ∀ fd₁, Function.update v.fdMap fd none fd₁ = if fd₁ = fd then none else v.fdMap fd₁ :=
    fun fd₁ => Function.update_apply v.fdMap fd none fd₁
  have hold : ∀ {fd₁ x}, Function.update v.fdMap fd none fd₁ = some x →
      fd₁ ≠ fd ∧ v.fdMap fd₁ = some x := by
    intro fd₁ x hx
    rw [hmap] at hx
    split at hx
    · cases hx
    · next hne => exact ⟨hne, hx⟩
  refine ⟨h.counter, fun hx => h.below (hold hx).2, fun hx hx' => ?_, fun {q} j hq => ?_⟩
  · exact h.injective (hold hx).2 (hold hx').2
  · change (((v.setFs p ((v.fs p).setFcb i {})).fs q).fcb j).used = true ↔ ∃ fd, _
    rw [fcb_setFs]
    split
    · next heq =>
      obtain ⟨rfl, rfl⟩ := heq
      refine ⟨fun hu => (by cases hu), fun ⟨fd₁, hx⟩ => ?_⟩
      exact absurd (h.injective (hold hx).2 hfd) (hold hx).1
    · next hne =>
      rw [h.used j hq]
      constructor
      · rintro ⟨fd₁, hx⟩
        refine ⟨fd₁, (hmap fd₁).trans ?_⟩
        rw [if_neg (fun heq => ?_), hx]
        rw [heq, hfd] at hx
        obtain ⟨rfl, rfl⟩ := slot_injective hx
        exact hne ⟨rfl, rfl⟩
      · rintro ⟨fd₁, hx⟩
        exact ⟨fd₁, (hold hx).2⟩

theorem used_setFs {f : Fcb} (hf : f.used = ((v.fs p).fcb i).used) (q : FsPtr)
    (j : Fin MAX_FILES) : (((v.setFs p ((v.fs p).setFcb i f)).fs q).fcb j).used =
      ((v.fs q).fcb j).used := by
  rw [fcb_setFs]
  split
  · next heq => rw [hf, heq.1, heq.2]
  · rfl

theorem InStep.moved {f : Fcb} (h : InStep n v) (hf : f.used = ((v.fs p).fcb i).used) :
    InStep n (v.setFs p ((v.fs p).setFcb i f)) := by
  refine ⟨h.counter, h.below, h.injective, fun {q} j hq => ?_⟩
  rw [used_setFs hf]
  exact h.used j hq

theorem InStep.step (h : InStep n v) (hn : n < 2 ^ 31 - 3) (hc : Change v call rc v') :
    InStep (n + if call.opened rc then 1 else 0) v' := by
  cases hc with
  | same hneg =>
    rw [Call.opened_eq_false hneg]
    exact h
  | opened hcall hmnt hfree hf hrc =>
    have hopened : call.opened rc = true := by
      have hnonneg : 0 ≤ rc := by
        rw [hrc, h.fdCounter_toInt hn]
        omega
      rw [hcall]
      exact decide_eq_true hnonneg
    rw [hopened]
    exact h.opened hn ⟨_, hmnt⟩ hfree hf hrc
  | closed hcall hfd _ =>
    rw [Call.opened_eq_false fun _ heq => by cases hcall.symm.trans heq]
    exact h.closed hfd
  | moved _ hf hnot _ =>
    rw [Call.opened_eq_false fun path heq => absurd heq (hnot path)]
    exact h.moved hf

theorem InStep.run (h : InStep n v)
    (hrun : (Script.runAll (Call.exec w) calls).exec v = (.ok rcs, v'))
    (hn : n + opens calls rcs < 2 ^ 31 - 3) : InStep (n + opens calls rcs) v' := by
  induction calls generalizing n v rcs with
  | nil =>
    cases hrun
    exact h
  | cons call calls ih =>
    obtain ⟨rc, rcs', v₁, rfl, hcall, hrest⟩ := Script.exec_runAll_inv hrun
    have hcount : opens (call :: calls) (rc :: rcs') =
        opens calls rcs' + if call.opened rc then 1 else 0 := List.countP_cons
    rw [hcount, Nat.add_comm (opens calls rcs'), ← Nat.add_assoc] at hn ⊢
    exact ih (h.step (by omega) (Call.change hcall)) hrest hn

structure VirtualFS.Fresh (v : VirtualFS) : Prop where
  counter : v.fdCounter = 3
  fdMap (fd : Int) : v.fdMap fd = none
  unused {p : FsPtr} (i : Fin MAX_FILES) : v.Mounted p → ((v.fs p).fcb i).used = false

theorem VirtualFS.Fresh.inStep (h : v.Fresh) : InStep 0 v := by
  have hno : ∀ {fd x}, v.fdMap fd ≠ some x := by
    intro fd x hx
    rw [h.fdMap] at hx
    cases hx
  refine ⟨h.counter, fun hx => absurd hx hno, fun hx => absurd hx hno, fun i hp => ?_⟩
  rw [h.unused i hp]
  exact ⟨fun hu => (by cases hu), fun ⟨_, hx⟩ => absurd hx hno⟩

theorem InStep.failed (h : InStep n v) (hn : n < 2 ^ 31 - 3) (hc : Change v call rc v')
    (hrc : rc < 0) : v'.fdMap = v.fdMap ∧
      (∀ p i, ((v'.fs p).fcb i).used = ((v.fs p).fcb i).used) ∧
      ((∀ fd count, call = .read fd count → v.fdMap fd = none) → v' = v) := by
  cases hc with
  | same _ => exact ⟨rfl, fun _ _ => rfl, fun _ => rfl⟩
  | opened _ _ _ _ heq =>
    rw [heq, h.fdCounter_toInt hn] at hrc
    omega
  | closed _ _ hok =>
    rw [hok] at hrc
    exact absurd hrc (by decide)
  | moved hfd hf _ hread =>
    refine ⟨rfl, used_setFs hf, fun hclosed => ?_⟩
    obtain ⟨count, hcall⟩ := hread hrc
    cases hfd.symm.trans (hclosed _ count hcall)

theorem tables_in_step {w : World} {v₀ v : VirtualFS} {calls : List Call} {rcs : List Int}
    (hv₀ : v₀.Fresh) (hrun : (Script.runAll (Call.exec w) calls).exec v₀ = (.ok rcs, v))
    (hopens : opens calls rcs < 2 ^ 31 - 3) :
    (∀ fd fd' x, v.fdMap fd = some x → v.fdMap fd' = some x → fd = fd') ∧
    (∀ p i, v.Mounted p →
      (((v.fs p).fcb i).used = true ↔ ∃ fd, v.fdMap fd = some (p, (i.val : Int)))) ∧
    ∀ call rc v', (Call.exec w call).exec v = (.ok rc, v') → rc < 0 →
      v'.fdMap = v.fdMap ∧ (∀ p i, ((v'.fs p).fcb i).used = ((v.fs p).fcb i).used) ∧
      ((∀ fd count, call = .read fd count → v.fdMap fd = none) → v' = v) := by
  rw [← Nat.zero_add (opens calls rcs)] at hopens
  have h := hv₀.inStep.run hrun hopens
  refine ⟨fun _ _ _ => h.injective, fun _ i hp => h.used i hp, fun call rc v' hcall hrc => ?_⟩
  exact h.failed hopens (Call.change hcall) hrc

def archiveA : Str :=
  CPIO_HEADER_MAGIC ++ List.replicate 55 0x30 ++ [0x32] ++ List.replicate 39 0x30 ++ [0x32] ++
    List.replicate 8 0x30 ++ [0x61, 0, 0x68, 0x69]

def worldA : World := ⟨fun a => archiveA[(a - 4096).toNat]?, fun _ count => count.toInt⟩

def mountedA : VirtualFS :=
  ⟨[([0x2f], 0)], fun _ => ⟨4096, 114, fun _ => {}⟩, fun _ => none, 3⟩

def cpiofsA : Cpiofs := mountedA.fs 0

def slotA : Fin MAX_FILES := ⟨0, by decide⟩

def callsA : List Call :=
  [.openFile [0x2f, 0x61], .read 3 5, .openFile [0x61], .openFile [0x2f, 0x61], .close 3]

theorem tables_in_step_archive : ∃ v,
    (Script.runAll (Call.exec worldA) callsA).exec mountedA = (.ok [3, 2, K_ENOENT, 4, K_OK], v) ∧
      (∃ fd, v.fdMap fd = some (0, 1)) ∧ ¬∃ fd, v.fdMap fd = some (0, 0) := by
  have hrcs : ((Script.runAll (Call.exec worldA) callsA).exec mountedA).1 =
      .ok [3, 2, K_ENOENT, 4, K_OK] := by decide +kernel
  have hslot₁ : (((((Script.runAll (Call.exec worldA) callsA).exec mountedA).2.fs 0).fcb
      ⟨1, by decide⟩).used = true) := by decide +kernel
  have hslot₀ : (((((Script.runAll (Call.exec worldA) callsA).exec mountedA).2.fs 0).fcb
      ⟨0, by decide⟩).used = false) := by decide +kernel
  have hmounted : ([0x2f], 0) ∈
      ((Script.runAll (Call.exec worldA) callsA).exec mountedA).2.fsMap := by decide +kernel
  have hfresh : mountedA.Fresh := ⟨rfl, fun _ => rfl, fun _ _ => rfl⟩
  cases hrun : (Script.runAll (Call.exec worldA) callsA).exec mountedA with
  | mk r v =>
    rw [hrun] at hrcs hslot₁ hslot₀ hmounted
    subst hrcs
    obtain ⟨-, hused, -⟩ := tables_in_step hfresh hrun (by decide)
    refine ⟨v, rfl, (hused 0 ⟨1, by decide⟩ ⟨_, hmounted⟩).mp hslot₁, fun hfd => ?_⟩
    have hused₀ := (hused 0 ⟨0, by decide⟩ ⟨_, hmounted⟩).mpr hfd
    rw [hslot₀] at hused₀
    cases hused₀

end Abydos.Vfs
