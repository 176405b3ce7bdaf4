import Abydos.Boot.Harts

namespace Abydos.Boot

open Abydos.Lib.Interleave

variable {M : Machine} {h j k : Hart} {e : Event} {l l' : Local} {m m' : Mem} {loc : Hart → Local}

@[simp] theorem Mem.setState_state (m : Mem) (i j : Hart) (v : Int) :
    (m.setState i v).k_hart_state j = if j = i then v else m.k_hart_state j :=
  Function.update_apply ..

@[simp] theorem Mem.setHsm_hsm (m : Mem) (i j : Hart) (s : Hsm) :
    (m.setHsm i s).hsm j = if j = i then s else m.hsm j :=
  Function.update_apply ..

@[simp] theorem Mem.setAdmitted_admitted (m : Mem) (i j : Hart) (b : Bool) :
    (m.setAdmitted i b).admitted j = if j = i then b else m.admitted j :=
  Function.update_apply ..

@[simp] theorem Mem.report_ok (m : Mem) (i j : Hart) :
    (m.report i).ok j = if j = i then true else m.ok j :=
  Function.update_apply ..

@[simp] theorem Mem.abandon_gaveUp (m : Mem) (i j : Hart) :
    (m.abandon i).gaveUp j = if j = i then true else m.gaveUp j :=
  Function.update_apply ..

@[simp] theorem Mem.abandon_state (m : Mem) (i j : Hart) :
    (m.abandon i).k_hart_state j = if j = i then 0 else m.k_hart_state j :=
  Function.update_apply ..

@[simp] theorem Mem.setState_hsm : (m.setState i v).hsm = m.hsm := rfl
@[simp] theorem Mem.setState_ok : (m.setState i v).ok = m.ok := rfl
@[simp] theorem Mem.setState_gaveUp : (m.setState i v).gaveUp = m.gaveUp := rfl
@[simp] theorem Mem.setState_admitted : (m.setState i v).admitted = m.admitted := rfl
@[simp] theorem Mem.setState_stage : (m.setState i v).k_stage = m.k_stage := rfl
@[simp] theorem Mem.setHsm_state : (m.setHsm i s).k_hart_state = m.k_hart_state := rfl
@[simp] theorem Mem.setHsm_ok : (m.setHsm i s).ok = m.ok := rfl
@[simp] theorem Mem.setHsm_gaveUp : (m.setHsm i s).gaveUp = m.gaveUp := rfl
@[simp] theorem Mem.setHsm_admitted : (m.setHsm i s).admitted = m.admitted := rfl
@[simp] theorem Mem.setHsm_stage : (m.setHsm i s).k_stage = m.k_stage := rfl
@[simp] theorem Mem.setAdmitted_state : (m.setAdmitted i b).k_hart_state = m.k_hart_state := rfl
@[simp] theorem Mem.setAdmitted_hsm : (m.setAdmitted i b).hsm = m.hsm := rfl
@[simp] theorem Mem.setAdmitted_ok : (m.setAdmitted i b).ok = m.ok := rfl
@[simp] theorem Mem.setAdmitted_gaveUp : (m.setAdmitted i b).gaveUp = m.gaveUp := rfl
@[simp] theorem Mem.setAdmitted_stage : (m.setAdmitted i b).k_stage = m.k_stage := rfl
@[simp] theorem Mem.report_stage : (m.report i).k_stage = m.k_stage := rfl
@[simp] theorem Mem.abandon_stage : (m.abandon i).k_stage = m.k_stage := rfl

@[simp] def Pc.inside : Pc → Bool
  | .spin | .main | .afterTest | .afterStore => true
  | _ => false

@[simp] def Pc.named : Pc → Bool
  | .ready | .spin | .main | .afterTest | .afterStore => true
  | _ => false

@[simp] def Pc.passed : Pc → Bool
  | .timer | .ready | .spin | .main | .afterTest | .afterStore => true
  | _ => false

@[simp] def Pc.early : Pc → Bool
  | .check | .timer | .failed | .ready | .spin => true
  | _ => false

@[simp] def Pc.hart : Pc → Bool
  | .off | .check | .timer | .failed | .ready | .spin | .main | .afterTest | .afterStore | .exit =>
    true
  | _ => false

theorem Machine.leave_of_ne (hk : k ≠ M.boot) : M.leave k = .exit := if_neg hk

structure HartOk (m : Mem) (k : Hart) (l : Local) : Prop where
  own : l.pc.hart = true
  off : l.pc = .off ↔ m.hsm k ≠ .running
  starting : m.hsm k = .starting → m.admitted k = false
  hartid : l.pc.named = true → l.hartid = k
  le : m.k_hart_state k ≤ 3
  two : m.k_hart_state k = 2 → l.pc.inside = true
  three : m.k_hart_state k = 3 → l.left = true ∧ m.hsm k ≠ .starting ∧
    (l.pc = .afterTest ∨ l.pc = .exit ∨ l.pc = .off)
  early : l.pc.early = true → l.entered = false
  admitted : m.admitted k = false → l.entered = false ∧ l.pc.passed = false

theorem HartOk.step (hk : k ≠ M.boot) (ho : HartOk m k l) (hm : HartMove M k l m l' m') :
    HartOk m' k l' := by
  obtain ⟨own, off, starting, hartid, le, two, three, early, admitted⟩ := ho
  have hleave := Machine.leave_of_ne hk
  cases hm with
  | _ => constructor <;> simp_all

/-- What another hart leaves to `k`: the boot hart may set its state or start it. -/
structure Apart (k : Hart) (m m' : Mem) : Prop where
  hsm : m'.hsm k = m.hsm k ∨
    m.hsm k = .stopped ∧ m'.hsm k = .starting ∧ m'.k_hart_state k < 2 ∧ m.admitted k = false
  state : m'.k_hart_state k = m.k_hart_state k ∨ m'.k_hart_state k < 2
  admitted : m'.admitted k = m.admitted k

theorem HartOk.apart (ho : HartOk m k l) (ha : Apart k m m') : HartOk m' k l := by
  obtain ⟨own, off, starting, hartid, le, two, three, early, admitted⟩ := ho
  obtain ⟨hh, hs, hadm⟩ := ha
  constructor
  · exact own
  · rcases hh with hh | ⟨hold, hnew, -⟩
    · rw [hh]
      exact off
    · rw [hnew, off, hold]
      simp
  · rcases hh with hh | ⟨-, -, -, hnot⟩
    · rw [hh, hadm]
      exact starting
    · exact fun _ => hadm.trans hnot
  · exact hartid
  · omega
  · intro h2
    exact two (by omega)
  · intro h3
    obtain ⟨hleft, hnot, hpc⟩ := three (by omega)
    refine ⟨hleft, ?_, hpc⟩
    rcases hh with hh | ⟨-, -, hlt, -⟩
    · rwa [hh]
    · omega
  · exact early
  · rw [hadm]
    exact admitted

structure Foreign (h : Hart) (m m' : Mem) : Prop where
  apart : ∀ k, k ≠ h → m'.hsm k = m.hsm k ∧ m'.k_hart_state k = m.k_hart_state k ∧
    m'.admitted k = m.admitted k
  stage : m'.k_stage = m.k_stage
  ok : m'.ok = m.ok
  gaveUp : m'.gaveUp = m.gaveUp
  busy : m.hsm h ≠ .stopped
  two : 2 ≤ m.k_hart_state h → 2 ≤ m'.k_hart_state h
  three : m.k_hart_state h = 3 → m'.k_hart_state h = 3

theorem HartMove.others (hm : HartMove M h l m l' m') (hid : l.pc = .afterStore → l.hartid = h)
    (hk : k ≠ h) : m'.hsm k = m.hsm k ∧ m'.k_hart_state k = m.k_hart_state k ∧
      m'.admitted k = m.admitted k := by
  cases hm with
  | afterStore hpc => simp [hid hpc, hk]
  | _ => simp [hk]

theorem HartOk.foreign (ho : HartOk m h l) (hm : HartMove M h l m l' m') : Foreign h m m' where
  apart k hk := hm.others (fun hpc => ho.hartid (by rw [hpc]; rfl)) hk
  stage := by cases hm <;> rfl
  ok := by cases hm <;> rfl
  gaveUp := by cases hm <;> rfl
  busy := by
    obtain ⟨own, off, starting, hartid, le, two, three, early, admitted⟩ := ho
    cases hm <;> simp_all
  two := by
    have htwo := ho.two
    have hid := ho.hartid
    cases hm <;> simp_all
  three := by
    have hthree := ho.three
    cases hm <;> simp_all

theorem Foreign.toApart (hf : Foreign h m m') (hk : k ≠ h) : Apart k m m' := by
  obtain ⟨hhsm, hstate, hadm⟩ := hf.apart k hk
  exact ⟨Or.inl hhsm, Or.inl hstate, hadm⟩

def Idle (m : Mem) (i : Hart) : Prop :=
  m.hsm i = .stopped ∧ m.admitted i = false ∧ m.k_hart_state i < 2

def Unjudged (m : Mem) (i : Hart) : Prop := m.ok i = false ∧ m.gaveUp i = false

def Waiting (M : Machine) (m : Mem) (is : List Hart) : Prop :=
  is.Nodup ∧ ∀ i ∈ is, Unjudged m i ∧ (i ≠ M.boot → Idle m i)

def Current (M : Machine) (m : Mem) (i : Hart) (is : List Hart) : Prop :=
  i ≠ M.boot ∧ i ∉ is ∧ Unjudged m i ∧ Waiting M m is

def Scanned (m : Mem) (l : Local) (n : Nat) : Prop :=
  ∀ j : Hart, j.val < n → j ≠ l.hartid → m.ok j = true → m.k_hart_state j = 3

def Phase (M : Machine) (m : Mem) (l : Local) : Prop :=
  match l.pc with
  | .bootHarts => Waiting M m M.cpus
  | .nextHart is => Waiting M m is
  | .preset i is | .start i is => i ≠ M.boot ∧ Waiting M m (i :: is)
  | .reset i is | .wait i is | .verdict i is | .giveUp i is => Current M m i is
  | .markBoot => True
  | .multicore => m.k_hart_state M.boot = 1
  | .check => m.k_stage = .K_MULTICORE ∧ m.k_hart_state M.boot = 1
  | .timer | .failed | .stageTest => m.k_stage = .K_MULTICORE
  | .ready | .spin | .main | .afterTest | .afterStore =>
    m.k_stage = .K_MULTICORE ∧ l.hartid = M.boot
  | .scan n => Scanned m l n
  | .scan1 i | .scan2 i => Scanned m l i
  | .scan3 i | .scan0 i => Scanned m l (i.val + 1)
  | .clearup | .cleanup => Scanned m l K_CONFIG_MAX_PROCESSORS
  | .off | .exit => False

structure BootOk (M : Machine) (m : Mem) (l : Local) : Prop where
  ok : ∀ i, m.ok i = true → i ≠ M.boot ∧ 2 ≤ m.k_hart_state i
  stage : m.k_stage = .K_CLEARUP → l.pc = .cleanup
  phase : Phase M m l

theorem Waiting.foreign (hw : Waiting M m is) (hf : Foreign h m m') (hh : h ≠ M.boot) :
    Waiting M m' is := by
  refine ⟨hw.1, fun i hi => ?_⟩
  obtain ⟨hu, hidle⟩ := hw.2 i hi
  refine ⟨?_, fun hb => ?_⟩
  · unfold Unjudged
    rw [hf.ok, hf.gaveUp]
    exact hu
  · have hne : i ≠ h := by
      rintro rfl
      exact hf.busy (hidle hb).1
    obtain ⟨hhsm, hstate, hadm⟩ := hf.apart i hne
    unfold Idle
    rw [hhsm, hstate, hadm]
    exact hidle hb

theorem Current.foreign (hc : Current M m i is) (hf : Foreign h m m') (hh : h ≠ M.boot) :
    Current M m' i is := by
  obtain ⟨hb, hi, hu, hw⟩ := hc
  refine ⟨hb, hi, ?_, hw.foreign hf hh⟩
  unfold Unjudged
  rw [hf.ok, hf.gaveUp]
  exact hu

theorem Scanned.foreign (hs : Scanned m l n) (hf : Foreign h m m') : Scanned m' l n := by
  intro j hj hne hok
  rw [hf.ok] at hok
  have h3 := hs j hj hne hok
  by_cases hjh : j = h
  · rw [hjh] at h3 ⊢
    exact hf.three h3
  · rw [(hf.apart j hjh).2.1]
    exact h3

theorem BootOk.foreign (hb : BootOk M m l) (hf : Foreign h m m') (hh : h ≠ M.boot) :
    BootOk M m' l := by
  obtain ⟨hok, hstage, hphase⟩ := hb
  have hboot := (hf.apart M.boot hh.symm).2.1
  refine ⟨fun i hi => ?_, ?_, ?_⟩
  · rw [hf.ok] at hi
    obtain ⟨hne, h2⟩ := hok i hi
    refine ⟨hne, ?_⟩
    by_cases hih : i = h
    · rw [hih] at h2 ⊢
      exact hf.two h2
    · rw [(hf.apart i hih).2.1]
      exact h2
  · rw [hf.stage]
    exact hstage
  · unfold Phase at hphase ⊢
    cases hpc : l.pc with
    | bootHarts | nextHart =>
      rw [hpc] at hphase
      exact Waiting.foreign hphase hf hh
    | preset | start =>
      rw [hpc] at hphase
      exact ⟨hphase.1, hphase.2.foreign hf hh⟩
    | reset | wait | verdict | giveUp =>
      rw [hpc] at hphase
      exact Current.foreign hphase hf hh
    | multicore =>
      rw [hpc] at hphase
      exact hboot.trans hphase
    | check =>
      rw [hpc] at hphase
      exact ⟨hf.stage.trans hphase.1, hboot.trans hphase.2⟩
    | timer | failed | stageTest =>
      rw [hpc] at hphase
      exact hf.stage.trans hphase
    | ready | spin | main | afterTest | afterStore =>
      rw [hpc] at hphase
      exact ⟨hf.stage.trans hphase.1, hphase.2⟩
    | scan | scan1 | scan2 | scan3 | scan0 | clearup | cleanup =>
      rw [hpc] at hphase
      exact Scanned.foreign hphase hf
    | markBoot => trivial
    | off | exit =>
      rw [hpc] at hphase
      exact hphase

theorem BootOk.hartMove (hb : BootOk M m l) (hm : HartMove M M.boot l m l' m') :
    BootOk M m' l' := by
  obtain ⟨hok, hstage, hphase⟩ := hb
  have hleave : M.leave M.boot = .stageTest := if_pos rfl
  cases hm with
  | _ => constructor <;> simp_all [Phase]

namespace Waiting

variable {i : Hart} {is : List Hart}

theorem tail (hw : Waiting M m (i :: is)) : Waiting M m is :=
  ⟨(List.nodup_cons.mp hw.1).2, fun j hj => hw.2 j (List.mem_cons_of_mem i hj)⟩

theorem current (hw : Waiting M m (i :: is)) (hi : i ≠ M.boot) : Current M m i is :=
  ⟨hi, (List.nodup_cons.mp hw.1).1, (hw.2 i List.mem_cons_self).1, hw.tail⟩

theorem setState (hw : Waiting M m is) (hv : v < 2) : Waiting M (m.setState i v) is := by
  refine ⟨hw.1, fun j hj => ⟨(hw.2 j hj).1, fun hb => ?_⟩⟩
  obtain ⟨hstop, hadm, hlt⟩ := (hw.2 j hj).2 hb
  refine ⟨hstop, hadm, ?_⟩
  rw [Mem.setState_state]
  split
  · exact hv
  · exact hlt

theorem setHsm (hw : Waiting M m is) (hi : i ∉ is) : Waiting M (m.setHsm i s) is := by
  refine ⟨hw.1, fun j hj => ⟨(hw.2 j hj).1, fun hb => ?_⟩⟩
  obtain ⟨hstop, hadm, hlt⟩ := (hw.2 j hj).2 hb
  refine ⟨?_, hadm, hlt⟩
  rw [Mem.setHsm_hsm, if_neg (ne_of_mem_of_not_mem hj hi)]
  exact hstop

theorem report (hw : Waiting M m is) (hi : i ∉ is) : Waiting M (m.report i) is := by
  refine ⟨hw.1, fun j hj => ⟨?_, (hw.2 j hj).2⟩⟩
  obtain ⟨hok, hgave⟩ := (hw.2 j hj).1
  refine ⟨?_, hgave⟩
  rw [Mem.report_ok, if_neg (ne_of_mem_of_not_mem hj hi)]
  exact hok

theorem abandon (hw : Waiting M m is) (hi : i ∉ is) : Waiting M (m.abandon i) is := by
  refine ⟨hw.1, fun j hj => ⟨?_, fun hb => ((hw.setState (by decide)).2 j hj).2 hb⟩⟩
  obtain ⟨hok, hgave⟩ := (hw.2 j hj).1
  refine ⟨hok, ?_⟩
  rw [Mem.abandon_gaveUp, if_neg (ne_of_mem_of_not_mem hj hi)]
  exact hgave

end Waiting

theorem Scanned.succ {i : Hart} (hs : Scanned m l i)
    (hi : i ≠ l.hartid → m.ok i = true → m.k_hart_state i = 3) : Scanned m l (i.val + 1) := by
  intro j hj hne hok
  by_cases hji : j = i
  · rw [hji] at hne hok ⊢
    exact hi hne hok
  · have hval : j.val ≠ i.val := fun h => hji (Fin.ext h)
    exact hs j (by omega) hne hok

theorem BootOk.phase_bootMove (hb : BootOk M m l) (hle : ∀ i, i ≠ M.boot → m.k_hart_state i ≤ 3)
    (hm : BootMove M l m l' m') : Phase M m' l' := by
  obtain ⟨hok, -, hphase⟩ := hb
  unfold Phase at hphase
  cases hm with
  | bootHarts hpc =>
    rw [hpc] at hphase
    exact hphase
  | noMore hpc => exact trivial
  | select hpc hi =>
    rw [hpc] at hphase
    exact ⟨hi, hphase⟩
  | skip hpc =>
    rw [hpc] at hphase
    exact Waiting.tail hphase
  | preset hpc =>
    rw [hpc] at hphase
    exact ⟨hphase.1, hphase.2.setState (by decide)⟩
  | start hpc =>
    rw [hpc] at hphase
    obtain ⟨hi, hmem, hu, hw⟩ := hphase.2.current hphase.1
    exact ⟨hi, hmem, hu, hw.setHsm hmem⟩
  | noStart hpc =>
    rw [hpc] at hphase
    exact hphase.2.current hphase.1
  | reset hpc =>
    rw [hpc] at hphase
    exact Waiting.setState hphase.2.2.2 (by decide)
  | wait hpc =>
    unfold Phase
    rw [hpc] at hphase ⊢
    exact hphase
  | waited hpc | late hpc =>
    rw [hpc] at hphase
    exact hphase
  | report hpc h2 =>
    rw [hpc] at hphase
    exact Waiting.report hphase.2.2.2 hphase.2.1
  | giveUp hpc =>
    rw [hpc] at hphase
    exact Waiting.abandon hphase.2.2.2 hphase.2.1
  | markBoot hpc => exact Function.update_self ..
  | multicore hpc =>
    rw [hpc] at hphase
    exact ⟨rfl, hphase⟩
  | stageTest hpc hs => exact fun j hj => absurd hj (Nat.not_lt_zero _)
  | single hpc hs =>
    rw [hpc] at hphase
    exact absurd hphase hs
  | own hn hpc heq =>
    rw [hpc] at hphase
    exact Scanned.succ (i := ⟨_, hn⟩) hphase fun hne => absurd heq hne
  | look hn hpc =>
    rw [hpc] at hphase
    exact hphase
  | scanned hpc hn =>
    rw [hpc] at hphase
    exact fun j hj => hphase j (Nat.lt_of_lt_of_le hj hn)
  | again1 hpc | again2 hpc => exact fun j hj => absurd hj (Nat.not_lt_zero _)
  | scan1 hpc =>
    rw [hpc] at hphase
    exact hphase
  | scan2 hpc hne =>
    rw [hpc] at hphase
    refine Scanned.succ hphase fun _ hi => ?_
    -- a hart that has been reported is in state 2 or 3
    have h2 := hok _ hi
    have h3 := hle _ h2.1
    have hnot : m.k_hart_state _ ≠ 2 := hne
    show m.k_hart_state _ = 3
    omega
  | scan3 hpc | next3 hpc | next0 hpc | clearup hpc =>
    rw [hpc] at hphase
    exact hphase

theorem BootOk.ok_bootMove (hb : BootOk M m l) (hm : BootMove M l m l' m') :
    ∀ i, m'.ok i = true → i ≠ M.boot ∧ 2 ≤ m'.k_hart_state i := by
  obtain ⟨hok, -, hphase⟩ := hb
  -- the boot hart sets no state of a hart that it has reported
  have hset (i : Hart) (v : Int) (hi : m.ok i = false) (j : Hart) (hj : m.ok j = true) :
      j ≠ M.boot ∧ 2 ≤ (m.setState i v).k_hart_state j := by
    have hji : j ≠ i := by
      rintro rfl
      rw [hi] at hj
      cases hj
    rw [Mem.setState_state, if_neg hji]
    exact hok j hj
  unfold Phase at hphase
  cases hm with
  | preset hpc =>
    rw [hpc] at hphase
    exact hset _ 1 (hphase.2.current hphase.1).2.2.1.1
  | reset hpc =>
    rw [hpc] at hphase
    exact hset _ 0 hphase.2.2.1.1
  | giveUp hpc =>
    rw [hpc] at hphase
    exact hset _ 0 hphase.2.2.1.1
  | report hpc h2 =>
    rw [hpc] at hphase
    intro j hj
    rw [Mem.report_ok] at hj
    split at hj
    · next hji =>
      rw [hji]
      exact ⟨hphase.1, h2⟩
    · exact hok j hj
  | markBoot hpc =>
    refine hset _ 1 (Bool.eq_false_iff.mpr fun h => ?_)
    exact (hok _ h).1 rfl
  | _ => exact hok

theorem BootOk.bootMove (hb : BootOk M m l) (hle : ∀ i, i ≠ M.boot → m.k_hart_state i ≤ 3)
    (hm : BootMove M l m l' m') : BootOk M m' l' := by
  refine ⟨hb.ok_bootMove hm, ?_, hb.phase_bootMove hle hm⟩
  have hstage := hb.stage
  cases hm <;> simp_all

theorem BootOk.apart_bootMove (hb : BootOk M m l) (hm : BootMove M l m l' m') : Apart k m m' := by
  have hset (i : Hart) (v : Int) (hv : v < 2) : Apart k m (m.setState i v) := by
    refine ⟨Or.inl rfl, ?_, rfl⟩
    rw [Mem.setState_state]
    split
    · exact Or.inr hv
    · exact Or.inl rfl
  cases hm with
  | preset hpc => exact hset _ 1 (by decide)
  | reset hpc => exact hset _ 0 (by decide)
  | markBoot hpc => exact hset _ 1 (by decide)
  | giveUp hpc =>
    obtain ⟨hhsm, hstate, hadm⟩ := hset _ 0 (by decide)
    exact ⟨hhsm, hstate, hadm⟩
  | @start i is hpc =>
    have hphase := hb.phase
    unfold Phase at hphase
    rw [hpc] at hphase
    refine ⟨?_, Or.inl rfl, rfl⟩
    rw [Mem.setHsm_hsm]
    split
    · next hki =>
      obtain ⟨hstop, hadm, hlt⟩ := (hphase.2.2 i List.mem_cons_self).2 hphase.1
      rw [hki]
      exact Or.inr ⟨hstop, rfl, hlt, hadm⟩
    · exact Or.inl rfl
  | _ => exact ⟨Or.inl rfl, Or.inl rfl, rfl⟩

theorem BootOk.apart_hartMove (hb : BootOk M m l) (hk : k ≠ M.boot)
    (hm : HartMove M M.boot l m l' m') : Apart k m m' := by
  have hid : l.pc = .afterStore → l.hartid = M.boot := by
    intro hpc
    have hphase := hb.phase
    unfold Phase at hphase
    rw [hpc] at hphase
    exact hphase.2
  obtain ⟨hhsm, hstate, hadm⟩ := hm.others hid hk
  exact ⟨Or.inl hhsm, Or.inl hstate, hadm⟩

def Ok (M : Machine) (k : Hart) (l : Local) (m : Mem) : Prop :=
  if k = M.boot then BootOk M m l else HartOk m k l

theorem ok_boot (h : ∀ k, Ok M k (loc k) m) : BootOk M m (loc M.boot) := by
  have := h M.boot
  rwa [Ok, if_pos rfl] at this

theorem ok_hart (h : ∀ k, Ok M k (loc k) m) (hk : k ≠ M.boot) : HartOk m k (loc k) := by
  have := h k
  rwa [Ok, if_neg hk] at this

theorem BootMove.not_hart (hm : BootMove M l m l' m') : l.pc.hart = false := by
  cases hm <;> simp_all

theorem not_bootMove (h : ∀ k, Ok M k (loc k) m) (hj : j ≠ M.boot)
    (hm : BootMove M (loc j) m l m') : False := by
  have hown := (ok_hart h hj).own
  rw [hm.not_hart] at hown
  cases hown

theorem ok_step (h : ∀ k, Ok M k (loc k) m)
    (hs : step M j e (loc j) m = some (l, m')) : Ok M j l m' ∧ ∀ k, k ≠ j → Ok M k (loc k) m' := by
  have hboot := ok_boot h
  by_cases hj : j = M.boot
  · rw [hj] at hs ⊢
    rw [Ok, if_pos rfl]
    rcases step_cases hs with hm | hm
    · refine ⟨hboot.hartMove hm, fun k hk => ?_⟩
      rw [Ok, if_neg hk]
      exact (ok_hart h hk).apart (hboot.apart_hartMove hk hm)
    · refine ⟨hboot.bootMove (fun i hi => (ok_hart h hi).le) hm, fun k hk => ?_⟩
      rw [Ok, if_neg hk]
      exact (ok_hart h hk).apart (hboot.apart_bootMove hm)
  · have hown := ok_hart h hj
    rcases step_cases hs with hm | hm
    · have hf := hown.foreign hm
      rw [Ok, if_neg hj]
      refine ⟨hown.step hj hm, fun k hk => ?_⟩
      by_cases hkb : k = M.boot
      · rw [hkb, Ok, if_pos rfl]
        exact hboot.foreign hf hj
      · rw [Ok, if_neg hkb]
        exact (ok_hart h hkb).apart (hf.toApart hk)
    · exact (not_bootMove h hj hm).elim

theorem ok_init (k : Hart) : Ok M k ((init M).loc k) (init M).mem := by
  unfold Ok
  split
  · next hk =>
    rw [hk]
    constructor
    · simp [init]
    · simp [init]
    · show Phase M (init M).mem { pc := if M.boot = M.boot then .bootHarts else .off }
      rw [if_pos rfl]
      refine ⟨M.nodup, fun i _ => ⟨⟨rfl, rfl⟩, fun hb => ⟨if_neg hb, rfl, by simp [init]⟩⟩⟩
  · next hk => constructor <;> simp [init, hk]

theorem ok_and_invariant {G : Hart → Event → Local → Mem → Prop} {B : Hart → Local → Mem → Prop}
    {c : Config Hart Local Mem} (hr : (harts M).Reaches G (init M) c)
    (hinit : ∀ k, B k ((init M).loc k) (init M).mem)
    (hstep : ∀ {loc : Hart → Local} {m : Mem} {j : Hart} {e : Event} {l : Local} {m' : Mem},
      (∀ k, Ok M k (loc k) m) → (∀ k, B k (loc k) m) → G j e (loc j) m →
      step M j e (loc j) m = some (l, m') → B j l m' ∧ ∀ k, k ≠ j → B k (loc k) m') :
    ∀ k, Ok M k (c.loc k) c.mem ∧ B k (c.loc k) c.mem := by
  refine hr.invariant (A := fun k l m => Ok M k l m ∧ B k l m) ?_ fun k => ⟨ok_init k, hinit k⟩
  intro c hA j e l m hG hs
  have hok : ∀ k, Ok M k (c.loc k) c.mem := fun k => (hA k).1
  obtain ⟨hown, hother⟩ := ok_step hok hs
  obtain ⟨hB, hBother⟩ := hstep hok (fun k => (hA k).2) hG hs
  exact ⟨⟨hown, hB⟩, fun k hk => ⟨hother k hk, hBother k hk⟩⟩

end Abydos.Boot
