import Abydos.Defs
import Abydos.Lib.Interleave
import Mathlib.Algebra.GroupWithZero.Nat
import Mathlib.Data.Fin.Basic

/-! `k_boot_harts` and `k_before_cleanup` of the boot hart, and `k_pre_main`, `k_main` and
`k_after_main` of every hart, one access to `k_hart_state` or `k_stage` at a time. -/

namespace Abydos.Boot

open Abydos.Lib.Interleave

instance : NeZero K_CONFIG_MAX_PROCESSORS := ⟨by decide⟩

abbrev Hart := Fin K_CONFIG_MAX_PROCESSORS

structure Machine where
  boot : Hart
  cpus : List Hart
  nodup : cpus.Nodup

inductive Hsm
  | stopped | starting | running
  deriving DecidableEq, Repr

/-- `ok` and `gaveUp` are the harts that `k_boot_harts` has reported, `admitted` those that have
found state 1 and have not failed since. -/
structure Mem where
  k_stage : Stage
  k_hart_state : Hart → Int
  hsm : Hart → Hsm
  ok : Hart → Bool
  gaveUp : Hart → Bool
  admitted : Hart → Bool

inductive Pc
  | off
  | bootHarts
  | nextHart (is : List Hart)
  | preset (i : Hart) (is : List Hart)
  | start (i : Hart) (is : List Hart)
  | reset (i : Hart) (is : List Hart)
  | wait (i : Hart) (is : List Hart)
  | verdict (i : Hart) (is : List Hart)
  | giveUp (i : Hart) (is : List Hart)
  | markBoot
  | multicore
  | check
  | timer
  | failed
  | ready
  | spin
  | main
  | afterTest
  | afterStore
  | exit
  | stageTest
  | scan (n : Nat)
  | scan1 (i : Hart)
  | scan2 (i : Hart)
  | scan3 (i : Hart)
  | scan0 (i : Hart)
  | clearup
  | cleanup
  deriving DecidableEq, Repr

/-- `hartid` is the thread-local variable.  `entered` says that `k_pre_main` has returned 0, `left`
that `k_after_main` has stored 3 or that `k_pre_main` has failed. -/
structure Local where
  pc : Pc
  hartid : Hart := 0
  entered : Bool := false
  left : Bool := false
  deriving DecidableEq, Repr

/-- The next access, a call of the firmware that fails, or the end of the three seconds. -/
inductive Event
  | go | fail | timeout
  deriving DecidableEq, Repr

def Mem.setState (m : Mem) (i : Hart) (v : Int) : Mem :=
  { m with k_hart_state := Function.update m.k_hart_state i v }

def Mem.setHsm (m : Mem) (i : Hart) (s : Hsm) : Mem :=
  { m with hsm := Function.update m.hsm i s }

def Mem.setAdmitted (m : Mem) (i : Hart) (b : Bool) : Mem :=
  { m with admitted := Function.update m.admitted i b }

def Mem.report (m : Mem) (i : Hart) : Mem := { m with ok := Function.update m.ok i true }

def Mem.abandon (m : Mem) (i : Hart) : Mem :=
  { m.setState i 0 with gaveUp := Function.update m.gaveUp i true }

def Machine.leave (M : Machine) (h : Hart) : Pc := if h = M.boot then .stageTest else .exit

def step (M : Machine) (h : Hart) (e : Event) (l : Local) (m : Mem) : Option (Local × Mem) :=
  match l.pc, e with
  | .off, .go =>
    if m.hsm h = .starting then
      some ({ l with pc := .check, hartid := 0 }, m.setHsm h .running)
    else none
  | .bootHarts, .go =>
    some ({ l with pc := .nextHart M.cpus }, { m with k_stage := .K_BOOT_HARTS })
  | .nextHart [], .go => some ({ l with pc := .markBoot }, m)
  | .nextHart (i :: is), .go =>
    if i ≠ M.boot ∧ m.hsm i = .stopped then some ({ l with pc := .preset i is }, m)
    else some ({ l with pc := .nextHart is }, m)
  | .nextHart (_ :: is), .fail => some ({ l with pc := .nextHart is }, m)
  | .preset i is, .go => some ({ l with pc := .start i is }, m.setState i 1)
  | .start i is, .go => some ({ l with pc := .wait i is }, m.setHsm i .starting)
  | .start i is, .fail => some ({ l with pc := .reset i is }, m)
  | .reset i is, .go => some ({ l with pc := .nextHart is }, m.setState i 0)
  | .wait i is, .go =>
    if m.k_hart_state i < 2 then some (l, m) else some ({ l with pc := .verdict i is }, m)
  | .wait i is, .timeout => some ({ l with pc := .verdict i is }, m)
  | .verdict i is, .go =>
    if 2 ≤ m.k_hart_state i then some ({ l with pc := .nextHart is }, m.report i)
    else some ({ l with pc := .giveUp i is }, m)
  | .giveUp i is, .go => some ({ l with pc := .nextHart is }, m.abandon i)
  | .markBoot, .go => some ({ l with pc := .multicore }, m.setState M.boot 1)
  | .multicore, .go => some ({ l with pc := .check }, { m with k_stage := .K_MULTICORE })
  | .check, .go =>
    if m.k_hart_state h ≠ 1 then some ({ l with pc := M.leave h, left := true }, m)
    else some ({ l with pc := .timer }, m.setAdmitted h true)
  | .timer, .go => some ({ l with pc := .ready, hartid := h }, m)
  | .timer, .fail => some ({ l with pc := .failed }, m.setAdmitted h false)
  | .failed, .go => some ({ l with pc := M.leave h, left := true }, m.setState h 3)
  | .ready, .go => some ({ l with pc := .spin }, m.setState h 2)
  | .spin, .go =>
    if m.k_stage ≠ .K_MULTICORE then some (l, m)
    else some ({ l with pc := .main, entered := true }, m)
  | .main, .go => some ({ l with pc := .afterTest }, m)
  | .afterTest, .go =>
    if m.k_hart_state l.hartid ≠ 3 then some ({ l with pc := .afterStore }, m)
    else some ({ l with pc := M.leave h }, m)
  | .afterStore, .go => some ({ l with pc := .afterTest, left := true }, m.setState l.hartid 3)
  | .exit, .go => some ({ l with pc := .off }, m.setHsm h .stopped)
  | .stageTest, .go =>
    if m.k_stage = .K_MULTICORE then some ({ l with pc := .scan 0 }, m)
    else some ({ l with pc := .clearup }, m)
  | .scan n, .go =>
    if hn : n < K_CONFIG_MAX_PROCESSORS then
      if ⟨n, hn⟩ = l.hartid then some ({ l with pc := .scan (n + 1) }, m)
      else some ({ l with pc := .scan1 ⟨n, hn⟩ }, m)
    else some ({ l with pc := .clearup }, m)
  | .scan1 i, .go =>
    if m.k_hart_state i = 1 then some ({ l with pc := .scan 0 }, m)
    else some ({ l with pc := .scan2 i }, m)
  | .scan2 i, .go =>
    if m.k_hart_state i = 2 then some ({ l with pc := .scan 0 }, m)
    else some ({ l with pc := .scan3 i }, m)
  | .scan3 i, .go =>
    if m.k_hart_state i = 3 then some ({ l with pc := .scan (i.val + 1) }, m)
    else some ({ l with pc := .scan0 i }, m)
  | .scan0 i, .go => some ({ l with pc := .scan (i.val + 1) }, m)
  | .clearup, .go => some ({ l with pc := .cleanup }, { m with k_stage := .K_CLEARUP })
  | _, _ => none

def harts (M : Machine) : Threads Hart Event Local Mem where
  step := step M

def init (M : Machine) : Config Hart Local Mem where
  loc h := { pc := if h = M.boot then .bootHarts else .off }
  mem :=
    { k_stage := .K_BOOT_PERIP
      k_hart_state := fun _ => 0
      hsm := fun h => if h = M.boot then .running else .stopped
      ok := fun _ => false
      gaveUp := fun _ => false
      admitted := fun _ => false }

inductive HartMove (M : Machine) (h : Hart) (l : Local) (m : Mem) : Local → Mem → Prop
  | begin : l.pc = .off → m.hsm h = .starting →
      HartMove M h l m { l with pc := .check, hartid := 0 } (m.setHsm h .running)
  | unwanted : l.pc = .check → m.k_hart_state h ≠ 1 →
      HartMove M h l m { l with pc := M.leave h, left := true } m
  | accept : l.pc = .check → m.k_hart_state h = 1 →
      HartMove M h l m { l with pc := .timer } (m.setAdmitted h true)
  | timer : l.pc = .timer → HartMove M h l m { l with pc := .ready, hartid := h } m
  | noTimer : l.pc = .timer → HartMove M h l m { l with pc := .failed } (m.setAdmitted h false)
  | failed : l.pc = .failed →
      HartMove M h l m { l with pc := M.leave h, left := true } (m.setState h 3)
  | ready : l.pc = .ready → HartMove M h l m { l with pc := .spin } (m.setState h 2)
  | spin : l.pc = .spin → HartMove M h l m l m
  | enter : l.pc = .spin → HartMove M h l m { l with pc := .main, entered := true } m
  | main : l.pc = .main → HartMove M h l m { l with pc := .afterTest } m
  | afterTest : l.pc = .afterTest → m.k_hart_state l.hartid ≠ 3 →
      HartMove M h l m { l with pc := .afterStore } m
  | leave : l.pc = .afterTest → m.k_hart_state l.hartid = 3 →
      HartMove M h l m { l with pc := M.leave h } m
  | afterStore : l.pc = .afterStore →
      HartMove M h l m { l with pc := .afterTest, left := true } (m.setState l.hartid 3)
  | exit : l.pc = .exit → HartMove M h l m { l with pc := .off } (m.setHsm h .stopped)

inductive BootMove (M : Machine) (l : Local) (m : Mem) : Local → Mem → Prop
  | bootHarts : l.pc = .bootHarts →
      BootMove M l m { l with pc := .nextHart M.cpus } { m with k_stage := .K_BOOT_HARTS }
  | noMore : l.pc = .nextHart [] → BootMove M l m { l with pc := .markBoot } m
  | select {i : Hart} {is : List Hart} : l.pc = .nextHart (i :: is) → i ≠ M.boot →
      BootMove M l m { l with pc := .preset i is } m
  | skip {i : Hart} {is : List Hart} : l.pc = .nextHart (i :: is) →
      BootMove M l m { l with pc := .nextHart is } m
  | preset {i : Hart} {is : List Hart} : l.pc = .preset i is →
      BootMove M l m { l with pc := .start i is } (m.setState i 1)
  | start {i : Hart} {is : List Hart} : l.pc = .start i is →
      BootMove M l m { l with pc := .wait i is } (m.setHsm i .starting)
  | noStart {i : Hart} {is : List Hart} : l.pc = .start i is →
      BootMove M l m { l with pc := .reset i is } m
  | reset {i : Hart} {is : List Hart} : l.pc = .reset i is →
      BootMove M l m { l with pc := .nextHart is } (m.setState i 0)
  | wait {i : Hart} {is : List Hart} : l.pc = .wait i is → BootMove M l m l m
  | waited {i : Hart} {is : List Hart} : l.pc = .wait i is →
      BootMove M l m { l with pc := .verdict i is } m
  | report {i : Hart} {is : List Hart} : l.pc = .verdict i is → 2 ≤ m.k_hart_state i →
      BootMove M l m { l with pc := .nextHart is } (m.report i)
  | late {i : Hart} {is : List Hart} : l.pc = .verdict i is →
      BootMove M l m { l with pc := .giveUp i is } m
  | giveUp {i : Hart} {is : List Hart} : l.pc = .giveUp i is →
      BootMove M l m { l with pc := .nextHart is } (m.abandon i)
  | markBoot : l.pc = .markBoot →
      BootMove M l m { l with pc := .multicore } (m.setState M.boot 1)
  | multicore : l.pc = .multicore →
      BootMove M l m { l with pc := .check } { m with k_stage := .K_MULTICORE }
  | stageTest : l.pc = .stageTest → m.k_stage = .K_MULTICORE →
      BootMove M l m { l with pc := .scan 0 } m
  | single : l.pc = .stageTest → m.k_stage ≠ .K_MULTICORE →
      BootMove M l m { l with pc := .clearup } m
  | own {n : Nat} (hn : n < K_CONFIG_MAX_PROCESSORS) : l.pc = .scan n → ⟨n, hn⟩ = l.hartid →
      BootMove M l m { l with pc := .scan (n + 1) } m
  | look {n : Nat} (hn : n < K_CONFIG_MAX_PROCESSORS) : l.pc = .scan n →
      BootMove M l m { l with pc := .scan1 ⟨n, hn⟩ } m
  | scanned {n : Nat} : l.pc = .scan n → K_CONFIG_MAX_PROCESSORS ≤ n →
      BootMove M l m { l with pc := .clearup } m
  | again1 {i : Hart} : l.pc = .scan1 i → BootMove M l m { l with pc := .scan 0 } m
  | again2 {i : Hart} : l.pc = .scan2 i → BootMove M l m { l with pc := .scan 0 } m
  | scan1 {i : Hart} : l.pc = .scan1 i → BootMove M l m { l with pc := .scan2 i } m
  | scan2 {i : Hart} : l.pc = .scan2 i → m.k_hart_state i ≠ 2 →
      BootMove M l m { l with pc := .scan3 i } m
  | scan3 {i : Hart} : l.pc = .scan3 i → BootMove M l m { l with pc := .scan0 i } m
  | next3 {i : Hart} : l.pc = .scan3 i → BootMove M l m { l with pc := .scan (i.val + 1) } m
  | next0 {i : Hart} : l.pc = .scan0 i → BootMove M l m { l with pc := .scan (i.val + 1) } m
  | clearup : l.pc = .clearup →
      BootMove M l m { l with pc := .cleanup } { m with k_stage := .K_CLEARUP }

variable {M : Machine} {h : Hart} {e : Event} {l l' : Local} {m m' : Mem}

theorem step_cases (hs : step M h e l m = some (l', m')) :
    HartMove M h l m l' m' ∨ BootMove M l m l' m' := by
  unfold step at hs
  split at hs
  · next hpc =>
    split at hs
    · next hc =>
      cases hs
      exact Or.inl (.begin hpc hc)
    · cases hs
  · next hpc =>
    cases hs
    exact Or.inr (.bootHarts hpc)
  · next hpc =>
    cases hs
    exact Or.inr (.noMore hpc)
  · next hpc =>
    split at hs
    · next hc =>
      cases hs
      exact Or.inr (.select hpc hc.1)
    · cases hs
      exact Or.inr (.skip hpc)
  · next hpc =>
    cases hs
    exact Or.inr (.skip hpc)
  · next hpc =>
    cases hs
    exact Or.inr (.preset hpc)
  · next hpc =>
    cases hs
    exact Or.inr (.start hpc)
  · next hpc =>
    cases hs
    exact Or.inr (.noStart hpc)
  · next hpc =>
    cases hs
    exact Or.inr (.reset hpc)
  · next hpc =>
    split at hs
    · cases hs
      exact Or.inr (.wait hpc)
    · cases hs
      exact Or.inr (.waited hpc)
  · next hpc =>
    cases hs
    exact Or.inr (.waited hpc)
  · next hpc =>
    split at hs
    · next hc =>
      cases hs
      exact Or.inr (.report hpc hc)
    · cases hs
      exact Or.inr (.late hpc)
  · next hpc =>
    cases hs
    exact Or.inr (.giveUp hpc)
  · next hpc =>
    cases hs
    exact Or.inr (.markBoot hpc)
  · next hpc =>
    cases hs
    exact Or.inr (.multicore hpc)
  · next hpc =>
    split at hs
    · next hc =>
      cases hs
      exact Or.inl (.unwanted hpc hc)
    · next hc =>
      cases hs
      exact Or.inl (.accept hpc (not_not.mp hc))
  · next hpc =>
    cases hs
    exact Or.inl (.timer hpc)
  · next hpc =>
    cases hs
    exact Or.inl (.noTimer hpc)
  · next hpc =>
    cases hs
    exact Or.inl (.failed hpc)
  · next hpc =>
    cases hs
    exact Or.inl (.ready hpc)
  · next hpc =>
    split at hs
    · cases hs
      exact Or.inl (.spin hpc)
    · cases hs
      exact Or.inl (.enter hpc)
  · next hpc =>
    cases hs
    exact Or.inl (.main hpc)
  · next hpc =>
    split at hs
    · next hc =>
      cases hs
      exact Or.inl (.afterTest hpc hc)
    · next hc =>
      cases hs
      exact Or.inl (.leave hpc (not_not.mp hc))
  · next hpc =>
    cases hs
    exact Or.inl (.afterStore hpc)
  · next hpc =>
    cases hs
    exact Or.inl (.exit hpc)
  · next hpc =>
    split at hs
    · next hc =>
      cases hs
      exact Or.inr (.stageTest hpc hc)
    · next hc =>
      cases hs
      exact Or.inr (.single hpc hc)
  · next hpc =>
    split at hs
    · next hn =>
      split at hs
      · next hc =>
        cases hs
        exact Or.inr (.own hn hpc hc)
      · cases hs
        exact Or.inr (.look hn hpc)
    · next hn =>
      cases hs
      exact Or.inr (.scanned hpc (Nat.le_of_not_lt hn))
  · next hpc =>
    split at hs
    · cases hs
      exact Or.inr (.again1 hpc)
    · cases hs
      exact Or.inr (.scan1 hpc)
  · next hpc =>
    split at hs
    · cases hs
      exact Or.inr (.again2 hpc)
    · next hc =>
      cases hs
      exact Or.inr (.scan2 hpc hc)
  · next hpc =>
    split at hs
    · cases hs
      exact Or.inr (.next3 hpc)
    · cases hs
      exact Or.inr (.scan3 hpc)
  · next hpc =>
    cases hs
    exact Or.inr (.next0 hpc)
  · next hpc =>
    cases hs
    exact Or.inr (.clearup hpc)
  · cases hs

end Abydos.Boot
