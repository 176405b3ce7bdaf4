import Abydos.Lib.Program
import Abydos.Mmu.Rv64
import Mathlib.Data.BitVec
import Mathlib.Data.List.Perm.Basic

namespace Abydos.Vmm

open Abydos.Lib

inductive Pending
  | NONE | MAP | UNMAP
  deriving DecidableEq, Repr

structure MapT where
  vaddr : BitVec 64
  paddr : BitVec 64
  size : BitVec 64
  prot : BitVec 32
  pending : Pending := .NONE
  deriving DecidableEq, Repr

/-- The virtual functions of `MMUBase` that a manager calls. -/
structure MMUBase (S E : Type) where
  map : (vaddr paddr size : BitVec 64) → (prot : BitVec 32) → Prog S E Int
  unmap : (vaddr size : BitVec 64) → Prog S E Int

structure VMemoryMgr (S : Type) where
  maps : List MapT
  mmu : S

def isGlobal (prot : BitVec 32) : Prop := prot &&& Mmu.PROT_G ≠ 0

instance : Decidable (isGlobal prot) := inferInstanceAs (Decidable (_ ≠ _))

def MapT.key (r : MapT) : BitVec 64 × BitVec 64 := (r.vaddr, r.size)

def markUnmap (key : BitVec 64 × BitVec 64) : List MapT → List MapT
  | [] => []
  | r :: rs =>
    if r.key = key then { r with pending := .UNMAP } :: rs else r :: markUnmap key rs

def MapT.call (M : MMUBase S E) (r : MapT) : Option (Prog S E Int) :=
  match r.pending with
  | .MAP => some (M.map r.vaddr r.paddr r.size r.prot)
  | .UNMAP => some (M.unmap r.vaddr r.size)
  | .NONE => none

def confirmLoop (M : MMUBase S E) : List MapT → Int → Prog S E (Int × List MapT)
  | [], rc => return (rc, [])
  | r :: rs, rc =>
    match r.call M with
    | none => do
      let (rc, rs) ← confirmLoop M rs rc
      return (rc, r :: rs)
    | some call => do
      let rc ← call
      if rc < 0 then return (rc, r :: rs)
      else do
        let (rc, rs) ← confirmLoop M rs rc
        return (rc, { r with pending := .NONE } :: rs)

structure Space (S : Type) where
  globalMaps : List MapT
  mgr : VMemoryMgr S

inductive Op
  | addMap (vaddr paddr size : BitVec 64) (prot : BitVec 32)
  | removeMap (vaddr size : BitVec 64) (prot : BitVec 32)
  | confirm
  deriving DecidableEq

def VMemoryMgr.new (globalMaps : List MapT) (mmu : S) : VMemoryMgr S := ⟨globalMaps, mmu⟩

def addMap (vaddr paddr size : BitVec 64) (prot : BitVec 32) (σ : Space S) : Space S :=
  let r : MapT := ⟨vaddr, paddr, size, prot, .MAP⟩
  { globalMaps := if isGlobal prot then σ.globalMaps ++ [r] else σ.globalMaps
    mgr := { σ.mgr with maps := σ.mgr.maps ++ [r] } }

def removeMap (vaddr size : BitVec 64) (prot : BitVec 32) (σ : Space S) : Space S :=
  if isGlobal prot then { σ with globalMaps := markUnmap (vaddr, size) σ.globalMaps }
  else { σ with mgr := { σ.mgr with maps := markUnmap (vaddr, size) σ.mgr.maps } }

def confirm (M : MMUBase S E) : Prog (VMemoryMgr S) E Int := do
  let (rc, maps) ← Prog.zoom VMemoryMgr.mmu (fun m mmu => { m with mmu })
    (confirmLoop M (← get).maps 0)
  modify fun m => { m with maps }
  return rc

/-- The void functions return nothing, which is a zero here. -/
def Op.exec (M : MMUBase S E) : Op → Prog (Space S) E Int
  | .addMap vaddr paddr size prot => do
    modify (Vmm.addMap vaddr paddr size prot)
    return 0
  | .removeMap vaddr size prot => do
    modify (Vmm.removeMap vaddr size prot)
    return 0
  | .confirm => Prog.zoom Space.mgr (fun σ mgr => { σ with mgr }) (Vmm.confirm M)

structure Mapping where
  vaddr : BitVec 64
  paddr : BitVec 64
  size : BitVec 64
  prot : BitVec 32
  deriving DecidableEq, Repr

def Mapping.key (x : Mapping) : BitVec 64 × BitVec 64 := (x.vaddr, x.size)

/-- The ranges have an address in common, or are one and the same. -/
def Overlaps (x y : Mapping) : Prop :=
  x.key = y.key ∨ x.vaddr.toNat < y.vaddr.toNat + y.size.toNat ∧
    y.vaddr.toNat < x.vaddr.toNat + x.size.toNat

instance : Decidable (Overlaps x y) := inferInstanceAs (Decidable (_ ∨ _))

def ideal : MMUBase (List Mapping) Empty where
  map vaddr paddr size prot := do
    if ∃ y ∈ (← get), Overlaps ⟨vaddr, paddr, size, prot⟩ y then return K_EALREADY
    else do
      modify (· ++ [⟨vaddr, paddr, size, prot⟩])
      return 0
  unmap vaddr size := do
    if ∃ y ∈ (← get), y.key = (vaddr, size) then do
      modify (·.filter (·.key ≠ (vaddr, size)))
      return 0
    else return K_EALREADY

def MapT.mapping (r : MapT) : Mapping := ⟨r.vaddr, r.paddr, r.size, r.prot⟩

@[simp] theorem MapT.key_mapping (r : MapT) : r.mapping.key = r.key := rfl

def MapT.settled (r : MapT) : MapT := { r with pending := .NONE }

section Confirm

variable {S E : Type} {M : MMUBase S E} {r : MapT} {rs rs' : List MapT} {s s₁ s' : S} {rc rc' : Int}
  {x : Prog S E Int}

theorem exec_confirmLoop_none (hcall : r.call M = none)
    (hrest : (confirmLoop M rs rc).exec s = (.ok (rc', rs'), s')) :
    (confirmLoop M (r :: rs) rc).exec s = (.ok (rc', r :: rs'), s') := by
  unfold confirmLoop
  rw [hcall]
  exact (Prog.exec_bind_ok hrest).trans rfl

theorem exec_confirmLoop_call (hcall : r.call M = some x) (hx : x.exec s = (.ok rc', s₁))
    (hrc : ¬ rc' < 0) (hrest : (confirmLoop M rs rc').exec s₁ = (.ok (rc'', rs'), s')) :
    (confirmLoop M (r :: rs) rc).exec s = (.ok (rc'', r.settled :: rs'), s') := by
  unfold confirmLoop
  rw [hcall]
  refine (Prog.exec_bind_ok hx).trans ?_
  rw [if_neg hrc]
  exact (Prog.exec_bind_ok hrest).trans rfl

theorem exec_confirmLoop_fail (hcall : r.call M = some x) (hx : x.exec s = (.ok rc', s'))
    (hrc : rc' < 0) : (confirmLoop M (r :: rs) rc).exec s = (.ok (rc', r :: rs), s') := by
  unfold confirmLoop
  rw [hcall]
  refine (Prog.exec_bind_ok hx).trans ?_
  rw [if_pos hrc]
  rfl

theorem exec_confirm {m : VMemoryMgr S}
    (h : (confirmLoop M m.maps 0).exec m.mmu = (.ok (rc, rs), s)) :
    (confirm M).exec m = (.ok rc, ⟨rs, s⟩) := by
  unfold confirm
  refine (Prog.exec_bind_ok (Prog.exec_get m)).trans ?_
  have hzoom : (Prog.zoom VMemoryMgr.mmu (fun m mmu => { m with mmu })
      (confirmLoop M m.maps 0)).exec m = (.ok (rc, rs), { m with mmu := s }) := by
    show ((confirmLoop M m.maps 0).exec m.mmu |>.1, _) = _
    rw [h]
  exact (Prog.exec_bind_ok hzoom).trans rfl

inductive Settles (M : MMUBase S E) : List MapT → S → S → Prop
  | nil {s : S} : Settles M [] s s
  | skip {r : MapT} {rs : List MapT} {s s' : S} : r.call M = none → Settles M rs s s' →
      Settles M (r :: rs) s s'
  | call {r : MapT} {rs : List MapT} {s s₁ s' : S} {x : Prog S E Int} : r.call M = some x →
      x.exec s = (.ok 0, s₁) → Settles M rs s₁ s' → Settles M (r :: rs) s s'

theorem call_eq_none : r.call M = none ↔ r.pending = .NONE := by
  unfold MapT.call
  cases r.pending <;> simp

theorem Settles.exec_append (h : Settles M rs s s₁)
    (hrest : (confirmLoop M rs' 0).exec s₁ = (.ok (rc, rs''), s')) :
    (confirmLoop M (rs ++ rs') 0).exec s = (.ok (rc, rs.map MapT.settled ++ rs''), s') := by
  induction h with
  | nil => exact hrest
  | @skip r rs s s₁ hcall _ ih =>
    have hsame : r.settled = r := by
      rw [MapT.settled, ← call_eq_none.mp hcall]
    rw [List.map_cons, hsame]
    exact exec_confirmLoop_none hcall (ih hrest)
  | call hcall hx _ ih => exact exec_confirmLoop_call hcall hx (by decide) (ih hrest)

theorem Settles.exec (h : Settles M rs s s') :
    (confirmLoop M rs 0).exec s = (.ok (0, rs.map MapT.settled), s') := by
  have hx := h.exec_append (show (confirmLoop M [] 0).exec s' = (.ok (0, []), s') from rfl)
  rwa [List.append_nil, List.append_nil] at hx

theorem Settles.append (h : Settles M rs s s₁) (h' : Settles M rs' s₁ s') :
    Settles M (rs ++ rs') s s' := by
  induction h with
  | nil => exact h'
  | skip hcall _ ih => exact .skip hcall (ih h')
  | call hcall hx _ ih => exact .call hcall hx (ih h')

theorem Settles.refl (h : ∀ r ∈ rs, r.pending = .NONE) (s : S) : Settles M rs s s := by
  induction rs with
  | nil => exact .nil
  | cons r rs ih =>
    exact .skip (call_eq_none.mpr (h r List.mem_cons_self))
      (ih fun q hq => h q (List.mem_cons_of_mem r hq))

end Confirm

section Ideal

variable {s : List Mapping}

theorem exec_ideal_map (h : ∀ y ∈ s, ¬ Overlaps ⟨v, p, n, prot⟩ y) :
    (ideal.map v p n prot).exec s = (.ok 0, s ++ [⟨v, p, n, prot⟩]) := by
  unfold ideal
  refine (Prog.exec_bind_ok (Prog.exec_get s)).trans ?_
  rw [if_neg]
  · rfl
  · rintro ⟨y, hy, hov⟩
    exact h y hy hov

theorem exec_ideal_map_fail (hy : y ∈ s) (h : Overlaps ⟨v, p, n, prot⟩ y) :
    (ideal.map v p n prot).exec s = (.ok K_EALREADY, s) := by
  unfold ideal
  refine (Prog.exec_bind_ok (Prog.exec_get s)).trans ?_
  rw [if_pos ⟨y, hy, h⟩]
  rfl

theorem exec_ideal_unmap (hy : y ∈ s) (h : y.key = (v, n)) :
    (ideal.unmap v n).exec s = (.ok 0, s.filter (·.key ≠ (v, n))) := by
  unfold ideal
  refine (Prog.exec_bind_ok (Prog.exec_get s)).trans ?_
  rw [if_pos ⟨y, hy, h⟩]
  rfl

theorem exec_ideal_unmap_fail (h : ∀ y ∈ s, y.key ≠ (v, n)) :
    (ideal.unmap v n).exec s = (.ok K_EALREADY, s) := by
  unfold ideal
  refine (Prog.exec_bind_ok (Prog.exec_get s)).trans ?_
  rw [if_neg]
  · rfl
  · rintro ⟨y, hy, hk⟩
    exact h y hy hk

end Ideal

end Abydos.Vmm
