import Abydos.Boot.Handshake

namespace Abydos.Boot

open Abydos.Lib.Interleave

variable {M : Machine} {h i j k : Hart} {e : Event} {l l' : Local} {m m' : Mem}
  {loc : Hart → Local} {c : Config Hart Local Mem}

def Pc.givingUp : Pc → Option Hart
  | .giveUp i _ => some i
  | _ => none

/-- The boot hart gives up on a hart only while it has not been admitted. -/
def InTime (_ : Hart) (_ : Event) (l : Local) (m : Mem) : Prop :=
  ∀ i ∈ l.pc.givingUp, m.admitted i = false

instance : Decidable (InTime h e l m) := inferInstanceAs (Decidable (∀ i ∈ l.pc.givingUp, _))

def Barred (M : Machine) (k : Hart) (m : Mem) : Prop :=
  m.gaveUp k = true → k ≠ M.boot ∧ m.admitted k = false ∧ m.k_hart_state k ≠ 1

theorem Barred.hartMove (hb : Barred M k m) (hm : HartMove M h l m l' m') : Barred M k m' := by
  intro hg
  have hold : m.gaveUp k = true := by cases hm <;> exact hg
  obtain ⟨hk, hadm, hstate⟩ := hb hold
  refine ⟨hk, ?_, ?_⟩
  · cases hm with
    | accept hpc hs =>
      have hkh : k ≠ h := by
        rintro rfl
        exact hstate hs
      rw [Mem.setAdmitted_admitted, if_neg hkh]
      exact hadm
    | noTimer hpc =>
      rw [Mem.setAdmitted_admitted]
      split
      · rfl
      · exact hadm
    | _ => exact hadm
  · cases hm with
    | failed hpc | ready hpc | afterStore hpc =>
      rw [Mem.setState_state]
      split
      · decide
      · exact hstate
    | _ => exact hstate

theorem Barred.bootMove (hb : Barred M k m) (ho : BootOk M m l) (ht : InTime h e l m)
    (hm : BootMove M l m l' m') : Barred M k m' := by
  intro hg
  have hphase := ho.phase
  unfold Phase at hphase
  cases hm with
  | giveUp hpc =>
    rw [hpc] at hphase
    have hadm := ht _ (congrArg Pc.givingUp hpc)
    rw [Mem.abandon_gaveUp] at hg
    split at hg
    · next hki =>
      rw [hki, Mem.abandon_state, if_pos rfl]
      exact ⟨hphase.1, hadm, by decide⟩
    · next hki =>
      rw [Mem.abandon_state, if_neg hki]
      exact hb hg
  | preset hpc =>
    rw [hpc] at hphase
    obtain ⟨hk, hadm, hstate⟩ := hb hg
    refine ⟨hk, hadm, ?_⟩
    rw [Mem.setState_state]
    split
    · next hki =>
      have hun := (hphase.2.current hphase.1).2.2.1.2
      rw [← hki, show m.gaveUp k = true from hg] at hun
      cases hun
    · exact hstate
  | reset hpc =>
    obtain ⟨hk, hadm, hstate⟩ := hb hg
    refine ⟨hk, hadm, ?_⟩
    rw [Mem.setState_state]
    split
    · decide
    · exact hstate
  | markBoot hpc =>
    obtain ⟨hk, hadm, hstate⟩ := hb hg
    refine ⟨hk, hadm, ?_⟩
    rw [Mem.setState_state, if_neg hk]
    exact hstate
  | _ => exact hb hg

theorem Barred.step (hok : ∀ k, Ok M k (loc k) m) (hb : Barred M k m) (ht : InTime j e (loc j) m)
    (hs : step M j e (loc j) m = some (l, m')) : Barred M k m' := by
  rcases step_cases hs with hm | hm
  · exact hb.hartMove hm
  · by_cases hj : j = M.boot
    · rw [hj] at hm ht
      exact hb.bootMove (ok_boot hok) ht hm
    · exact (not_bootMove hok hj hm).elim

theorem given_up_never_runs (hr : (harts M).Reaches InTime (init M) c)
    (hg : c.mem.gaveUp k = true) : (c.loc k).entered = false ∧ (c.loc k).pc ≠ .main := by
  have hinv := ok_and_invariant (B := fun k _ m => Barred M k m) hr (fun k => nofun)
    fun hok hB hG hs => ⟨(hB _).step hok hG hs, fun k _ => (hB k).step hok hG hs⟩
  obtain ⟨hk, hadm, -⟩ := (hinv k).2 hg
  obtain ⟨hentered, hpassed⟩ := (ok_hart (fun k => (hinv k).1) hk).admitted hadm
  refine ⟨hentered, fun hmain => ?_⟩
  rw [hmain] at hpassed
  cases hpassed

def twoHarts : Machine := ⟨0, [0, 1], by decide⟩

def impatient : List (Hart × Event) :=
  List.replicate 5 (0, .go) ++ [(0, .timeout), (0, .go), (0, .go)]

theorem given_up_never_runs_late : ∃ c, (harts twoHarts).Reaches InTime (init twoHarts) c ∧
    c.mem.gaveUp 1 = true ∧ (c.loc 1).pc = .exit ∧
    (c.loc 1).entered = false ∧ (c.loc 1).pc ≠ .main := by
  have hrun : ((harts twoHarts).guardedRun InTime (impatient ++ [(1, .go), (1, .go)])
      (init twoHarts)).map (fun c => (c.mem.gaveUp 1, (c.loc 1).pc)) = some (true, .exit) := by
    decide +kernel
  obtain ⟨c, hc, heq⟩ := Option.map_eq_some_iff.mp hrun
  obtain ⟨hgave, hpc⟩ := Prod.mk.inj heq
  have hr := Threads.Reaches.guardedRun .refl hc
  exact ⟨c, hr, hgave, hpc, given_up_never_runs hr hgave⟩

/-- Hart 1 has made its test when the boot hart resets its state, and goes on. -/
theorem given_up_runs : ∃ c, (harts twoHarts).run
      (List.replicate 5 (0, .go) ++ [(1, .go), (1, .go), (0, .timeout), (0, .go), (0, .go),
        (1, .go), (1, .go), (0, .go), (0, .go), (0, .go), (1, .go)]) (init twoHarts) = some c ∧
    c.mem.gaveUp 1 = true ∧ (c.loc 1).entered = true ∧ (c.loc 1).pc = .main := by
  have hrun : ((harts twoHarts).run
      (List.replicate 5 (0, .go) ++ [(1, .go), (1, .go), (0, .timeout), (0, .go), (0, .go),
        (1, .go), (1, .go), (0, .go), (0, .go), (0, .go), (1, .go)]) (init twoHarts)).map
      (fun c => (c.mem.gaveUp 1, (c.loc 1).entered, (c.loc 1).pc)) = some (true, true, .main) := by
    decide +kernel
  obtain ⟨c, hc, heq⟩ := Option.map_eq_some_iff.mp hrun
  obtain ⟨hgave, heq⟩ := Prod.mk.inj heq
  obtain ⟨hentered, hpc⟩ := Prod.mk.inj heq
  exact ⟨c, hc, hgave, hentered, hpc⟩

/-- Where `setTimer` has failed on the boot hart, which then leaves `k_pre_main` with a `hartid`
that is still zero, it is hart 0, or hart 0 is none of the harts to wait for. -/
def TimerKept (M : Machine) (h : Hart) (_ : Event) (l : Local) (m : Mem) : Prop :=
  h = M.boot → l.pc = .failed → M.boot = 0 ∨ m.ok 0 = false

instance : Decidable (TimerKept M h e l m) := inferInstanceAs (Decidable (_ → _))

@[simp] def Pc.unnamed : Pc → Bool
  | .bootHarts | .nextHart _ | .preset .. | .start .. | .reset .. | .wait .. | .verdict ..
  | .giveUp .. | .markBoot | .multicore | .check | .timer | .failed => true
  | _ => false

def Skips (M : Machine) (m : Mem) (l : Local) : Prop :=
  if l.pc.unnamed then l.hartid = 0 else l.hartid = M.boot ∨ m.ok l.hartid = false

theorem HartMove.ok (hm : HartMove M h l m l' m') : m'.ok = m.ok := by
  cases hm <;> rfl

theorem Skips.hartMove (hs : Skips M m l) (ho : BootOk M m l) (ht : TimerKept M M.boot e l m)
    (hm : HartMove M M.boot l m l' m') : Skips M m' l' := by
  have hphase := ho.phase
  unfold Phase at hphase
  unfold Skips at hs ⊢
  have hleave : M.leave M.boot = .stageTest := if_pos rfl
  rw [hm.ok]
  cases hm with
  | failed hpc =>
    rw [hpc] at hs
    have hzero : l.hartid = 0 := hs
    rw [hleave]
    change l.hartid = M.boot ∨ m.ok l.hartid = false
    rw [hzero]
    exact (ht rfl hpc).imp Eq.symm id
  | _ => simp_all

theorem Skips.bootMove (hs : Skips M m l) (hm : BootMove M l m l' m') : Skips M m' l' := by
  unfold Skips at hs ⊢
  cases hm <;> simp_all

theorem skips_step (hok : ∀ k, Ok M k (loc k) m) (hs : Skips M m (loc M.boot))
    (ht : TimerKept M j e (loc j) m) (hstep : step M j e (loc j) m = some (l, m')) :
    (j = M.boot → Skips M m' l) ∧ (j ≠ M.boot → Skips M m' (loc M.boot)) := by
  constructor
  · rintro rfl
    rcases step_cases hstep with hm | hm
    · exact hs.hartMove (ok_boot hok) ht hm
    · exact hs.bootMove hm
  · intro hj
    rcases step_cases hstep with hm | hm
    · unfold Skips at hs ⊢
      rw [hm.ok]
      exact hs
    · exact (not_bootMove hok hj hm).elim

def bootSecond (boot other : Hart) : List (Hart × Event) :=
  List.replicate 5 (boot, .go) ++ List.replicate 4 (other, .go) ++ List.replicate 6 (boot, .go)

def secondBoots : Machine := ⟨1, [1, 0], by decide⟩

def timerFails : List (Hart × Event) :=
  bootSecond 1 0 ++ [(0, .go), (1, .fail)] ++ List.replicate 319 (1, .go)

end Abydos.Boot
