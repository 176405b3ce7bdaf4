import Abydos.Defs
import Abydos.Lib.Interleave
import Mathlib.Data.BitVec

/-! `struct __lock` of `k_lock.h` with the `__retarget_lock_*` functions of `libc_hooks.cpp`, one
atomic access at a time.  All calls on one object are of one flavour. -/

namespace Abydos.Lock

open Abydos.Lib.Interleave

structure HartIds (H : Type) where
  hartid : H → Int
  injective : Function.Injective hartid
  nonneg : ∀ h, 0 ≤ hartid h

namespace Retarget

structure LockObj where
  owner : Int
  recursive_count : BitVec 32
  deriving DecidableEq, Repr

/-- The next access of a hart; the first ones belong to `lock` and to the `try_acquire` functions
alike. -/
inductive Pc
  | idle
  | test (attempt : Bool)
  | inc
  | exchange (attempt : Bool) (null_owner : Int)
  | set
  | unlockTest
  | unlockDec
  | unlockFree
  deriving DecidableEq, Repr

/-- `held` counts the acquisitions that have returned and have not been released. -/
structure Local where
  pc : Pc
  held : Nat
  deriving DecidableEq, Repr

inductive Event
  | acquire (attempt : Bool)
  | release
  | access (spurious : Bool)
  deriving DecidableEq, Repr

def step (k_stage : Stage) (recursive : Bool) (hartid : Int) (e : Event) (l : Local) (m : LockObj) :
    Option (Local × LockObj) :=
  match e, l.pc with
  | .acquire attempt, .idle =>
    if k_stage ≠ .K_MULTICORE then some ({ l with held := l.held + 1 }, m)
    else if recursive then some ({ l with pc := .test attempt }, m)
    else some ({ l with pc := .exchange attempt (-1) }, m)
  | .access _, .test attempt =>
    if m.owner = hartid then some ({ l with pc := .inc }, m)
    else some ({ l with pc := .exchange attempt (-1) }, m)
  | .access _, .inc =>
    some (⟨.idle, l.held + 1⟩, { m with recursive_count := m.recursive_count + 1 })
  | .access spurious, .exchange attempt null_owner =>
    if m.owner = null_owner ∧ spurious = false then
      some ({ l with pc := .set }, { m with owner := hartid })
    else if attempt then some ({ l with pc := .idle }, m)
    else some ({ l with pc := .exchange attempt (-1) }, m)
  | .access _, .set => some (⟨.idle, l.held + 1⟩, { m with recursive_count := 1 })
  | .release, .idle =>
    -- a hart releases only what it has acquired
    if l.held = 0 then none
    else if k_stage ≠ .K_MULTICORE then some ({ l with held := l.held - 1 }, m)
    else some ({ l with pc := .unlockTest }, m)
  | .access _, .unlockTest =>
    if m.owner = hartid then
      some ({ l with pc := if recursive then .unlockDec else .unlockFree }, m)
    else some (⟨.idle, l.held - 1⟩, m)
  | .access _, .unlockDec =>
    if m.recursive_count - 1 = 0 then
      some ({ l with pc := .unlockFree }, { m with recursive_count := m.recursive_count - 1 })
    else some (⟨.idle, l.held - 1⟩, { m with recursive_count := m.recursive_count - 1 })
  | .access _, .unlockFree => some (⟨.idle, l.held - 1⟩, { m with owner := -1 })
  | _, _ => none

def harts (k_stage : Stage) (recursive : Bool) (I : HartIds H) : Threads H Event Local LockObj where
  step h := step k_stage recursive (I.hartid h)

def init (H : Type) : Config H Local LockObj := ⟨fun _ => ⟨.idle, 0⟩, ⟨-1, 0⟩⟩

def Roomy (e : Event) (l : Local) : Prop :=
  match e with
  | .acquire _ => l.held + 1 < 2 ^ 31
  | _ => True

instance (e : Event) (l : Local) : Decidable (Roomy e l) := by
  cases e <;> unfold Roomy <;> infer_instance

def Counted (recursive : Bool) (m : LockObj) (n : Nat) : Prop :=
  if recursive then 1 ≤ n ∧ n < 2 ^ 31 ∧ m.recursive_count = BitVec.ofNat 32 n else n = 1

inductive Ok (recursive : Bool) (hartid : Int) (m : LockObj) : Local → Prop
  | away : m.owner ≠ hartid → Ok recursive hartid m ⟨.idle, 0⟩
  | holding {n : Nat} : m.owner = hartid → Counted recursive m n → Ok recursive hartid m ⟨.idle, n⟩
  | testAway {t : Bool} : m.owner ≠ hartid → Ok recursive hartid m ⟨.test t, 0⟩
  | testHolding {t : Bool} {n : Nat} : m.owner = hartid → recursive = true →
      Counted recursive m n → n + 1 < 2 ^ 31 → Ok recursive hartid m ⟨.test t, n⟩
  | inc {n : Nat} : m.owner = hartid → recursive = true → Counted recursive m n →
      n + 1 < 2 ^ 31 → Ok recursive hartid m ⟨.inc, n⟩
  | exchangeAway {t : Bool} : m.owner ≠ hartid → Ok recursive hartid m ⟨.exchange t (-1), 0⟩
  | exchangeHolding {t : Bool} {n : Nat} : m.owner = hartid → Counted recursive m n →
      Ok recursive hartid m ⟨.exchange t (-1), n⟩
  | won : m.owner = hartid → Ok recursive hartid m ⟨.set, 0⟩
  | unlockTest {n : Nat} : m.owner = hartid → Counted recursive m n →
      Ok recursive hartid m ⟨.unlockTest, n⟩
  | unlockDec {n : Nat} : m.owner = hartid → recursive = true → Counted recursive m n →
      Ok recursive hartid m ⟨.unlockDec, n⟩
  | unlockFree : m.owner = hartid → Ok recursive hartid m ⟨.unlockFree, 1⟩

inductive Effect (id : Int) (l : Local) (m : LockObj) (l' : Local) (m' : LockObj) : Prop
  | keep : m' = m → l'.held = l.held → Effect id l m l' m'
  | mine : m.owner = id → m'.owner = id → 1 ≤ l'.held → Effect id l m l' m'
  | take : m.owner = -1 → m'.owner = id → l'.held = l.held → Effect id l m l' m'
  | free : m.owner = id → m'.owner = -1 → l.held = 1 → l'.held = 0 → Effect id l m l' m'

variable {H : Type} {I : HartIds H} {recursive : Bool} {id : Int} {m m' : LockObj} {l l' : Local}

theorem Counted.inc (hr : recursive = true) (hc : Counted recursive m n) (hn : n + 1 < 2 ^ 31) :
    Counted recursive { m with recursive_count := m.recursive_count + 1 } (n + 1) := by
  rw [Counted, if_pos hr] at hc ⊢
  refine ⟨Nat.succ_pos n, hn, ?_⟩
  rw [hc.2.2, BitVec.ofNat_add]
  rfl

theorem Counted.dec (hr : recursive = true) (hc : Counted recursive m n) :
    (m.recursive_count - 1 = 0 ↔ n = 1) ∧ (n ≠ 1 →
      Counted recursive { m with recursive_count := m.recursive_count - 1 } (n - 1)) := by
  rw [Counted, if_pos hr] at hc
  obtain ⟨hpos, hlt, hcount⟩ := hc
  have hsub : m.recursive_count - 1 = BitVec.ofNat 32 (n - 1) := by
    rw [hcount]
    apply BitVec.eq_of_toNat_eq
    simp only [BitVec.toNat_sub, BitVec.toNat_ofNat, BitVec.ofNat_eq_ofNat]
    omega
  refine ⟨?_, fun hne => ?_⟩
  · rw [hsub]
    constructor
    · intro h
      have := congrArg BitVec.toNat h
      simp only [BitVec.toNat_ofNat, BitVec.ofNat_eq_ofNat] at this
      omega
    · rintro rfl
      rfl
  · rw [Counted, if_pos hr]
    exact ⟨by omega, by omega, hsub⟩

theorem Counted.one (m : LockObj) : Counted recursive { m with recursive_count := 1 } 1 := by
  unfold Counted
  split
  · exact ⟨Nat.le_refl 1, by decide, rfl⟩
  · rfl

theorem Counted.pos (hc : Counted recursive m n) : 1 ≤ n := by
  unfold Counted at hc
  split at hc
  · exact hc.1
  · exact Nat.le_of_eq hc.symm

theorem Ok.congr (hown : m'.owner = id ↔ m.owner = id)
    (hcount : m.owner = id → m'.recursive_count = m.recursive_count) (hA : Ok recursive id m l) :
    Ok recursive id m' l := by
  have hc {n : Nat} (ho : m.owner = id) (hn : Counted recursive m n) : Counted recursive m' n := by
    unfold Counted at hn ⊢
    rwa [hcount ho]
  cases hA with
  | away h => exact .away (mt hown.mp h)
  | holding h hn => exact .holding (hown.mpr h) (hc h hn)
  | testAway h => exact .testAway (mt hown.mp h)
  | testHolding h hr hn hlt => exact .testHolding (hown.mpr h) hr (hc h hn) hlt
  | inc h hr hn hlt => exact .inc (hown.mpr h) hr (hc h hn) hlt
  | exchangeAway h => exact .exchangeAway (mt hown.mp h)
  | exchangeHolding h hn => exact .exchangeHolding (hown.mpr h) (hc h hn)
  | won h => exact .won (hown.mpr h)
  | unlockTest h hn => exact .unlockTest (hown.mpr h) (hc h hn)
  | unlockDec h hr hn => exact .unlockDec (hown.mpr h) hr (hc h hn)
  | unlockFree h => exact .unlockFree (hown.mpr h)

theorem Ok.other {k : Local} (hA : Ok recursive id' m k) (hne : id ≠ id') (hpos : 0 ≤ id')
    (he : Effect id l m l' m') : Ok recursive id' m' k := by
  have hnull : (-1 : Int) ≠ id' := by omega
  cases he with
  | keep h _ => exact h ▸ hA
  | mine h h' _ =>
    exact hA.congr (by rw [h, h']) (fun ho => absurd (h.symm.trans ho) hne)
  | take h h' _ =>
    refine hA.congr ?_ (fun ho => absurd (h.symm.trans ho) hnull)
    rw [h, h']
    exact ⟨fun ho => absurd ho hne, fun ho => absurd ho hnull⟩
  | free h h' _ _ =>
    refine hA.congr ?_ (fun ho => absurd (h.symm.trans ho) hne)
    rw [h, h']
    exact ⟨fun ho => absurd ho hnull, fun ho => absurd ho hne⟩

theorem acquire_effect (hs : step .K_MULTICORE recursive id (.acquire t) l m = some (l', m')) :
    Effect id l m l' m' := by
  obtain ⟨pc, n⟩ := l
  cases pc with
  | idle => cases recursive <;> cases hs <;> exact .keep rfl rfl
  | _ => cases hs

theorem Ok.acquire (hA : Ok recursive id m l) (hlt : l.held + 1 < 2 ^ 31)
    (hs : step .K_MULTICORE recursive id (.acquire t) l m = some (l', m')) :
    Ok recursive id m' l' := by
  cases recursive with
  | true =>
    cases hA with
    | away h =>
      cases hs
      exact .testAway h
    | holding h hn =>
      cases hs
      exact .testHolding h rfl hn hlt
    | _ => cases hs
  | false =>
    cases hA with
    | away h =>
      cases hs
      exact .exchangeAway h
    | holding h hn =>
      cases hs
      exact .exchangeHolding h hn
    | _ => cases hs

theorem Ok.release (hA : Ok recursive id m l)
    (hs : step .K_MULTICORE recursive id .release l m = some (l', m')) :
    Ok recursive id m' l' ∧ Effect id l m l' m' := by
  cases hA with
  | away h => cases hs
  | @holding n h hn =>
    have h0 : n ≠ 0 := Nat.ne_of_gt hn.pos
    simp only [step, h0, if_false, ne_eq, not_true_eq_false, Option.some.injEq, Prod.mk.injEq] at hs
    obtain ⟨rfl, rfl⟩ := hs
    exact ⟨.unlockTest h hn, .keep rfl rfl⟩
  | _ => cases hs

theorem Ok.access (hA : Ok recursive id m l) (hpos : 0 ≤ id)
    (hs : step .K_MULTICORE recursive id (.access b) l m = some (l', m')) :
    Ok recursive id m' l' ∧ Effect id l m l' m' := by
  have hnull : (-1 : Int) ≠ id := by omega
  cases hA with
  | away h => cases hs
  | holding h hn => cases hs
  | testAway h =>
    simp only [step, h, if_false, Option.some.injEq, Prod.mk.injEq] at hs
    obtain ⟨rfl, rfl⟩ := hs
    exact ⟨.exchangeAway h, .keep rfl rfl⟩
  | testHolding h hr hn hlt =>
    simp only [step, h, if_true, Option.some.injEq, Prod.mk.injEq] at hs
    obtain ⟨rfl, rfl⟩ := hs
    exact ⟨.inc h hr hn hlt, .keep rfl rfl⟩
  | inc h hr hn hlt =>
    cases hs
    exact ⟨.holding h (hn.inc hr hlt), .mine h h (Nat.succ_pos _)⟩
  | @exchangeAway t h =>
    simp only [step] at hs
    split at hs
    · next hx =>
      cases hs
      exact ⟨.won rfl, .take hx.1 rfl rfl⟩
    · cases t <;> cases hs
      · exact ⟨.exchangeAway h, .keep rfl rfl⟩
      · exact ⟨.away h, .keep rfl rfl⟩
  | @exchangeHolding t n h hn =>
    have hx : ¬ (m.owner = -1 ∧ b = false) := fun hx => hnull (hx.1.symm.trans h)
    simp only [step, hx, if_false] at hs
    cases t <;> cases hs
    · exact ⟨.exchangeHolding h hn, .keep rfl rfl⟩
    · exact ⟨.holding h hn, .keep rfl rfl⟩
  | won h =>
    cases hs
    exact ⟨.holding h (Counted.one m), .mine h h (Nat.succ_pos _)⟩
  | unlockTest h hn =>
    simp only [step, h, if_true, Option.some.injEq, Prod.mk.injEq] at hs
    obtain ⟨rfl, rfl⟩ := hs
    refine ⟨?_, .keep rfl rfl⟩
    cases recursive with
    | true => exact .unlockDec h rfl hn
    | false =>
      cases hn
      exact .unlockFree h
  | @unlockDec n h hr hn =>
    obtain ⟨hzero, hdec⟩ := hn.dec hr
    simp only [step] at hs
    split at hs
    · next hx =>
      cases hs
      cases hzero.mp hx
      exact ⟨.unlockFree h, .mine h h (Nat.le_refl 1)⟩
    · next hx =>
      cases hs
      have hc := hdec (mt hzero.mpr hx)
      exact ⟨.holding h hc, .mine h h hc.pos⟩
  | unlockFree h =>
    cases hs
    exact ⟨.away hnull, .free h rfl rfl rfl⟩

theorem Ok.effect (hA : Ok recursive id m l) (hpos : 0 ≤ id)
    (hs : step .K_MULTICORE recursive id e l m = some (l', m')) : Effect id l m l' m' := by
  cases e with
  | acquire t => exact acquire_effect hs
  | release => exact (hA.release hs).2
  | access b => exact (hA.access hpos hs).2

theorem Ok.step (hA : Ok recursive id m l) (hpos : 0 ≤ id) (hG : Roomy e l)
    (hs : Retarget.step .K_MULTICORE recursive id e l m = some (l', m')) :
    Ok recursive id m' l' := by
  cases e with
  | acquire t => exact hA.acquire hG hs
  | release => exact (hA.release hs).1
  | access b => exact (hA.access hpos hs).1

theorem ok_of_reaches [DecidableEq H]
    (hr : (harts .K_MULTICORE recursive I).Reaches (fun _ e l _ => Roomy e l) (init H) c) (h : H) :
    Ok recursive (I.hartid h) c.mem (c.loc h) := by
  refine Threads.Reaches.invariant (A := fun h l m => Ok recursive (I.hartid h) m l) ?_ ?_ hr h
  · intro c hA h e l m hG hs
    refine ⟨(hA h).step (I.nonneg h) hG hs, fun k hk => ?_⟩
    refine (hA k).other ?_ (I.nonneg k) ((hA h).effect (I.nonneg h) hs)
    exact fun heq => hk (I.injective heq).symm
  · intro k
    refine .away ?_
    have := I.nonneg k
    change (-1 : Int) ≠ _
    omega

theorem Ok.owner_iff (hA : Ok recursive id m l) : m.owner = id ↔ 1 ≤ l.held ∨ l.pc = .set := by
  cases hA with
  | away h => simp [h]
  | holding h hn => simp [h, hn.pos]
  | testAway h => simp [h]
  | testHolding h _ hn _ => simp [h, hn.pos]
  | inc h _ hn _ => simp [h, hn.pos]
  | exchangeAway h => simp [h]
  | exchangeHolding h hn => simp [h, hn.pos]
  | won h => simp [h]
  | unlockTest h hn => simp [h, hn.pos]
  | unlockDec h _ hn => simp [h, hn.pos]
  | unlockFree h => simp [h]

theorem Ok.count (hA : Ok recursive id m l) (hr : recursive = true) (hpc : l.pc = .idle)
    (hpos : 1 ≤ l.held) : m.recursive_count.toInt = l.held := by
  cases hA with
  | away h => cases hpos
  | @holding n h hn =>
    rw [Counted, if_pos hr] at hn
    rw [hn.2.2, BitVec.toInt_ofNat']
    simp only [Int.bmod]
    omega
  | _ => cases hpc

theorem Effect.freed_iff (he : Effect id l m l' m') (hpos : 0 ≤ id) :
    (m.owner ≠ -1 ∧ m'.owner = -1) ↔ (l.held = 1 ∧ l'.held = 0) := by
  cases he with
  | keep h h' =>
    rw [h, h']
    omega
  | mine h h' hn => omega
  | take h h' hn => omega
  | free h h' hn hn' => omega

/-- As long as the acquisitions of a hart can be counted in an `int`: at most one hart holds the
lock, the owner is who holds it or has just won it, the count is right, and the lock becomes free
with the release that matches the outermost acquisition. -/
theorem lock_correct [DecidableEq H]
    (hr : (harts .K_MULTICORE recursive I).Reaches (fun _ e l _ => Roomy e l) (init H) c) :
    (∀ h h', 1 ≤ (c.loc h).held → 1 ≤ (c.loc h').held → h = h') ∧
    (∀ h, c.mem.owner = I.hartid h ↔ 1 ≤ (c.loc h).held ∨ (c.loc h).pc = .set) ∧
    (recursive = true → ∀ h, (c.loc h).pc = .idle → 1 ≤ (c.loc h).held →
      c.mem.recursive_count.toInt = (c.loc h).held) ∧
    ∀ h e c', (harts .K_MULTICORE recursive I).next c h e = some c' →
      ((c.mem.owner ≠ -1 ∧ c'.mem.owner = -1) ↔ ((c.loc h).held = 1 ∧ (c'.loc h).held = 0)) := by
  have hA := ok_of_reaches hr
  refine ⟨fun h h' h1 h2 => ?_, fun h => (hA h).owner_iff, fun hrec h => (hA h).count hrec, ?_⟩
  · have ho := (hA h).owner_iff.mpr (Or.inl h1)
    have ho' := (hA h').owner_iff.mpr (Or.inl h2)
    exact I.injective (ho.symm.trans ho')
  · intro h e c' hs
    obtain ⟨l, m, hs₁, rfl⟩ := Threads.next_eq_some.mp hs
    change _ ↔ _ ∧ (Function.update c.loc h l h).held = 0
    rw [Function.update_self]
    exact ((hA h).effect (I.nonneg h) hs₁).freed_iff (I.nonneg h)

def twoHarts : HartIds Bool where
  hartid h := if h then 1 else 0
  injective := by decide
  nonneg := by decide

def nested : List (Bool × Event) :=
  (false, .acquire false) :: List.replicate 3 (false, .access false) ++
    (true, .acquire false) :: List.replicate 2 (true, .access false) ++
    (false, .acquire false) :: List.replicate 2 (false, .access false)

theorem lock_correct_nested :
    ∃ c, (harts .K_MULTICORE true twoHarts).Reaches (fun _ e l _ => Roomy e l) (init Bool) c ∧
      (c.loc false).held = 2 ∧ (c.loc true).pc = .exchange false (-1) ∧ (c.loc true).held = 0 ∧
      c.mem.recursive_count.toInt = 2 ∧
      ∀ e c', (harts .K_MULTICORE true twoHarts).next c false e = some c' → c'.mem.owner ≠ -1 := by
  have hrun : ((harts .K_MULTICORE true twoHarts).guardedRun (fun _ e l _ => Roomy e l) nested
      (init Bool)).map (fun c => (c.loc false, (c.loc true).pc, c.mem.owner)) =
      some (⟨.idle, 2⟩, .exchange false (-1), 0) := by
    decide +kernel
  obtain ⟨c, hc, heq⟩ := Option.map_eq_some_iff.mp hrun
  obtain ⟨hfirst, hsecond⟩ := Prod.mk.inj heq
  obtain ⟨hsecond, howner⟩ := Prod.mk.inj hsecond
  have hr := Threads.Reaches.guardedRun .refl hc
  obtain ⟨hexcl, -, hcount, hfree⟩ := lock_correct hr
  refine ⟨c, hr, by rw [hfirst], hsecond, ?_, ?_, fun e c' hnext hnull => ?_⟩
  · by_contra hheld
    have := hexcl true false (Nat.one_le_iff_ne_zero.mpr hheld) (by simp [hfirst])
    cases this
  · rw [hcount rfl false (by rw [hfirst]) (by simp [hfirst]), hfirst]
    rfl
  · have := ((hfree false e c' hnext).mp ⟨by rw [howner]; decide, hnull⟩).1
    simp [hfirst] at this

def oneHart : HartIds Unit where
  hartid _ := 0
  injective _ _ _ := rfl
  nonneg _ := Int.le_refl 0

def heldTimes (n : Nat) : Config Unit Local LockObj := ⟨fun _ => ⟨.idle, n⟩, ⟨0, BitVec.ofNat 32 n⟩⟩

theorem heldTimes_succ (n : Nat) :
    (harts .K_MULTICORE true oneHart).run
      [((), .acquire false), ((), .access false), ((), .access false)] (heldTimes (n + 1)) =
    some (heldTimes (n + 2)) := by
  unfold heldTimes
  rw [BitVec.ofNat_add (n + 1) 1]
  rfl

theorem heldTimes_reached (n : Nat) :
    (harts .K_MULTICORE true oneHart).Reaches (fun _ _ _ _ => True) (init Unit)
      (heldTimes (n + 1)) := by
  induction n with
  | zero =>
    have hrun : (harts .K_MULTICORE true oneHart).run
        [((), .acquire false), ((), .access false), ((), .access false), ((), .access false)]
        (init Unit) = some (heldTimes 1) := rfl
    exact Threads.ReachesWhen.refl.run (fun _ _ _ => trivial) hrun
  | succ n ih =>
    exact ih.run (fun _ _ _ => trivial) (heldTimes_succ n)

theorem lock_count_wraps :
    ∃ c, (harts .K_MULTICORE true oneHart).Reaches (fun _ _ _ _ => True) (init Unit) c ∧
      (c.loc ()).pc = .idle ∧ (c.loc ()).held = 2 ^ 31 ∧
      c.mem.recursive_count.toInt ≠ (c.loc ()).held :=
  ⟨_, heldTimes_reached (2 ^ 31 - 1), rfl, rfl, by decide⟩

end Retarget

end Abydos.Lock
