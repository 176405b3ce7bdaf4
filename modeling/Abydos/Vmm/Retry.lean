import Abydos.Mmu.Atomic
import Abydos.Vmm.Manager

namespace Abydos.Vmm

open Abydos.Lib Abydos.Mmu

def rv64 (m : Mode) : MMUBase State Trap where
  map := m.map
  unmap := m.unmap

variable {m : Mode} {σ σ₀ σ₁ σ₂ : State} {v p s : Addr} {prot : BitVec 32} {rc : Int}

/-- The manager's `confirm` fails on a record, with the MMU before and after the call for it.  Once
what was mapped in the range before is unmapped, the next `confirm` gets past the record, and
returns zero if it gets past the later ones. -/
def Retriable (m : Mode) (r : MapT) (rc : Int) (σ₁ σ₂ : State) : Prop :=
  ∀ pre post σ₀, Settles (rv64 m) pre σ₀ σ₁ →
    ∃ rs, (confirm (rv64 m)).exec ⟨pre ++ r :: post, σ₀⟩ = (.ok rc, ⟨rs, σ₂⟩) ∧
      ∀ (calls : List Call) rcs σ₃, (∀ c ∈ calls, c.IsUnmap) →
        (Script.runAll (Call.exec m) calls).exec σ₂ = (.ok rcs, σ₃) →
        (∀ va, InRange r.vaddr r.size va → (σ₁.translate m va).isSome →
          σ₃.translate m va = none) →
        (Call.map r.vaddr r.paddr r.size r.prot).Guarded m Op.Free σ₃ →
        ∀ res σ₄, (m.map r.vaddr r.paddr r.size r.prot).exec σ₃ = (res, σ₄) →
          res ≠ .error .noMemory → ∀ σ₅, Settles (rv64 m) post σ₄ σ₅ →
            (confirm (rv64 m)).exec ⟨rs, σ₃⟩ = (.ok 0, ⟨rs.map MapT.settled, σ₅⟩)

theorem retriable (hg : Good m σ₂) (hargs : MapArgs v p s prot) (hhalf : m.InHalf v s)
    (h : (m.map v p s prot).exec σ₁ = (.ok rc, σ₂)) (hrc : rc < 0)
    (hsame : ∀ va, σ₂.translate m va = σ₁.translate m va) :
    Retriable m ⟨v, p, s, prot, .MAP⟩ rc σ₁ σ₂ := by
  intro pre post σ₀ hpre
  have hfail : (confirmLoop (rv64 m) (⟨v, p, s, prot, .MAP⟩ :: post) 0).exec σ₁ =
      (.ok (rc, ⟨v, p, s, prot, .MAP⟩ :: post), σ₂) := exec_confirmLoop_fail rfl h hrc
  refine ⟨_, exec_confirm (m := ⟨_, σ₀⟩) (hpre.exec_append hfail), ?_⟩
  intro calls rcs σ₃ hall hrun hgone hfree res σ₄ hmap hmem σ₅ hpost
  obtain ⟨hg₃, hshrink⟩ := unmaps_shrink hg hall hrun
  have hclear : ∀ va, InRange v s va → σ₃.translate m va = none := by
    intro va hva
    cases ht : σ₁.translate m va with
    | none => exact hshrink va ((hsame va).trans ht)
    | some t => exact hgone va hva (Option.isSome_iff_exists.mpr ⟨t, ht⟩)
  cases map_clear hg₃ hargs hhalf hfree hclear hmap hmem
  have hdone : Settles (rv64 m) (pre.map MapT.settled) σ₃ σ₃ := by
    refine Settles.refl (fun r hr => ?_) σ₃
    obtain ⟨r', -, rfl⟩ := List.mem_map.mp hr
    rfl
  exact exec_confirm (m := ⟨_, σ₃⟩) (hdone.append (.call rfl hmap hpost)).exec

/-- After calls whose block steps are all free, a `map` of which this holds too and that returns an
error leaves every translation as it was, and can be retried, exactly if it stops first. -/
theorem failed_map_iff {asid : BitVec 16} {variant : Int} (hb : Boot σ)
    (hnew : (m.new asid variant).exec σ = (.ok (), σ₀)) (calls : List Call)
    (hg : Script.GuardedAll (Call.exec m) (Call.Guarded m Op.Free) calls σ₀)
    (hrun : (Script.runAll (Call.exec m) calls).exec σ₀ = (.ok rcs, σ₁))
    (hfree : (Call.map v p s prot).Guarded m Op.Free σ₁)
    (h : (m.map v p s prot).exec σ₁ = (.ok rc, σ₂)) (hrc : rc ≠ 0) :
    ((∀ va, σ₂.translate m va = σ₁.translate m va) ∧
      (MapArgs v p s prot → m.InHalf v s → Retriable m ⟨v, p, s, prot, .MAP⟩ rc σ₁ σ₂)) ↔
    m.StopsFirst σ₁ v p s prot := by
  have hgood : Good m σ₁ := (hb.good hnew).runAll hg hrun
  have hgood₂ : Good m σ₂ := hgood.call hfree h
  have hiff := map_unchanged_iff hgood hfree h hrc
  refine ⟨fun hprop => hiff.mp hprop.1, fun hstop => ⟨hiff.mpr hstop, fun hargs hhalf => ?_⟩⟩
  refine retriable hgood₂ hargs hhalf h ?_ (hiff.mpr hstop)
  rw [Mode.map_eq hargs] at h
  rcases (run_grows hgood hargs.accepted (Call.free_map hargs hfree) h).1 with rfl | rfl
  · exact absurd rfl hrc
  · decide

def held : State :=
  ((Script.runAll (Call.exec .sv39) [.map 0 0x40000000 0x40000000 3]).exec
    ((State.boot [0x1000, 0x2000]).fresh .sv39 0 0 0x1000)).2

theorem failed_map_iff_gigabyte :
    let σ₂ := ((Mode.sv39.map 0 0x80000000 0x40000000 1).exec held).2
    ((Mode.sv39.map 0 0x80000000 0x40000000 1).exec held).1 = .ok K_EALREADY ∧
    (∀ va, σ₂.translate .sv39 va = held.translate .sv39 va) ∧
    Retriable .sv39 ⟨0, 0x80000000, 0x40000000, 1, .MAP⟩ K_EALREADY held σ₂ := by
  intro σ₂
  have hb := State.boot_boot [0x1000, 0x2000] (by decide) (by decide)
  have hnew := exec_new (m := .sv39) (σ := State.boot [0x1000, 0x2000]) (t := 0x1000)
    (by decide) rfl 0 0
  have hrun : (Script.runAll (Call.exec .sv39) [.map 0 0x40000000 0x40000000 3]).exec
      ((State.boot [0x1000, 0x2000]).fresh .sv39 0 0 0x1000) = (.ok [0], held) :=
    Prod.ext (by decide +kernel) rfl
  have hfail : ((Mode.sv39.map 0 0x80000000 0x40000000 1).exec held).1 = .ok K_EALREADY := by
    decide +kernel
  have hargs : MapArgs 0 0x80000000 0x40000000 1 := by decide
  have hstop : Mode.sv39.StopsFirst held 0 0x80000000 0x40000000 1 := by
    obtain ⟨b, hpick⟩ : ∃ b, Mode.sv39.pick 0x40000000 0 0x80000000 = some b :=
      Mode.pick_isSome (by decide) (by decide) (by decide)
    refine Or.inr ⟨b, hpick, 0, ?_, by decide +kernel⟩
    rw [(Mode.pick_eq_some hpick).1]
  have hprop := (failed_map_iff hb hnew [.map 0 0x40000000 0x40000000 3]
    ⟨Call.free_rooted (by decide) (by decide) (by decide) _, fun _ _ _ => trivial⟩ hrun
    (Call.free_rooted (by decide) (by decide) (by decide) held) (Prod.ext hfail rfl)
    (by decide)).mpr hstop
  exact ⟨hfail, hprop.1, hprop.2 hargs (by decide)⟩

/-- SV39.  The second of two gigabytes is in use: the first is mapped all the same, and stands in
the way of the next `confirm`. -/
theorem failed_map_half :
    let boot := (State.boot [0x1000, 0x2000]).fresh .sv39 0 0 0x1000
    let second := ((Mode.sv39.map 0x40000000 0x40000000 0x40000000 3).exec boot).2
    let failed := (confirm (rv64 .sv39)).exec ⟨[⟨0, 0x80000000, 0x80000000, 3, .MAP⟩], second⟩
    let cleared := (Mode.sv39.unmap 0x40000000 0x40000000).exec failed.2.mmu
    (failed.1 = .ok K_EALREADY ∧ second.translate .sv39 0 = none ∧
      (failed.2.mmu.translate .sv39 0).isSome) ∧
    (cleared.1 = .ok 0 ∧
      ((confirm (rv64 .sv39)).exec ⟨failed.2.maps, cleared.2⟩).1 = .ok K_EALREADY) := by
  decide +kernel

end Abydos.Vmm
