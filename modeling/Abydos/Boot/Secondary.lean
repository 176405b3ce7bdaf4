import Abydos.Boot.Handover

namespace Abydos.Secondary

open Abydos.Lib Abydos.Lib.Interleave Abydos.Mmu
open Abydos.Boot (Area)
open Abydos.Preloader (Image Loaded Direct Window direct translate load amoadd setMmu ofWord)
open Abydos.Handover (Kernel Mapped satpWord)

/-- What the harts share from the start: the image with the address of `_start_hart`, the stacks,
and the word that `getSATP` gives, which is in `satp` of the boot hart. -/
structure System where
  I : Image
  start_hart : Addr
  area : Area
  satp : BitVec 64
  thead : Bool

inductive Pc
  | next (todo : List (BitVec 32))
  | putSatp (i : BitVec 32) (todo : List (BitVec 32))
  | startHart (i : BitVec 32) (todo : List (BitVec 32))
  | stopped
  | entryHart (a1 : Addr)
  | test (satp s1 : BitVec 64)
  | testHigh (satp s1 : BitVec 64)
  | jump (satp s1 : BitVec 64)
  | loadSatp (satp pc s1 : BitVec 64)
  | running (satp pc s1 : BitVec 64)
  | fault
  deriving DecidableEq

structure Shared where
  mem : Mem
  started : BitVec 32 → Option Addr

def storeTo (thead : Bool) (mem : Mem) (satp : BitVec 64) (va : Addr) (x : BitVec 64) :
    Option Mem :=
  match translate thead mem satp va with
  | some t => if t.w then some (Function.update mem t.pa (ofWord x)) else none
  | none => none

/-- The boot hart is `none`.  `ok` is the answer of the firmware: the hart is stopped, or it has
been started. -/
def step (S : System) : Option (BitVec 32) → Bool → Pc → Shared → Option (Pc × Shared)
  | _, _, .next [], _ => none
  | _, ok, .next (i :: todo), m =>
    if ok then
      match storeTo S.thead m.mem S.satp (S.area.hartstack i - 8) S.start_hart with
      | some mem => some (.putSatp i todo, { m with mem })
      | none => some (.fault, m)
    else some (.next todo, m)
  | _, _, .putSatp i todo, m =>
    match storeTo S.thead m.mem S.satp (S.area.hartstack i - 16) S.satp with
    | some mem => some (.startHart i todo, { m with mem })
    | none => some (.fault, m)
  | _, ok, .startHart i todo, m =>
    some (.next todo, if ok then
      { m with started := Function.update m.started i (some (S.area.hartstack i)) } else m)
  | some i, _, .stopped, m =>
    match m.started i with
    | some a1 => some (.entryHart a1, m)
    | none => none
  | none, _, .stopped, _ => none
  | _, _, .entryHart a1, m => some (.test (setMmu S.I.startup_pgtbl) a1, m)
  | _, _, .test satp s1, m =>
    match amoadd S.thead m.mem satp S.I.mmutest 1 with
    | some mem => some (.testHigh satp s1, { m with mem })
    | none => some (.fault, m)
  | _, _, .testHigh satp s1, m =>
    match amoadd S.thead m.mem satp (S.I.mmutest ||| (0xFFFFFFC0#64 <<< 32)) 1 with
    | some mem => some (.jump satp s1, { m with mem })
    | none => some (.fault, m)
  | _, _, .jump satp s1, m =>
    match load S.thead m.mem satp (s1 - 8) with
    | some pc => some (.loadSatp satp pc s1, m)
    | none => some (.fault, m)
  | _, _, .loadSatp satp pc s1, m =>
    match load S.thead m.mem satp (s1 - 16) with
    | some word => some (.running word pc s1, m)
    | none => some (.fault, m)
  | _, _, .running _ _ _, _ => none
  | _, _, .fault, m => some (.fault, m)

def harts (S : System) : Threads (Option (BitVec 32)) Bool Pc Shared where
  step := step S

def init (mem : Mem) (todo : List (BitVec 32)) : Config (Option (BitVec 32)) Pc Shared where
  loc
    | none => .next todo
    | some _ => .stopped
  mem := ⟨mem, fun _ => none⟩

def System.slot (S : System) (i : BitVec 32) (d : Addr) : Nat :=
  (S.area.hartstack i - d).toNat % 2 ^ 32

/-- The stacks of these harts are among the kernel's addresses, and the two words on top of them are
neither in a table nor anywhere else that a hart writes to. -/
structure Placed (S : System) (tables : List Nat) (ids : List (BitVec 32)) : Prop where
  kernel : ∀ i ∈ ids, Kernel (S.area.hartstack i - 8) ∧ Kernel (S.area.hartstack i - 16)
  startup : ∀ i ∈ ids, ¬ InPage S.I.startup_pgtbl.toNat (S.slot i 8) ∧
    ¬ InPage S.I.startup_pgtbl.toNat (S.slot i 16)
  tables : ∀ p ∈ tables, ¬ InPage p S.I.mmutest.toNat ∧
    ∀ i ∈ ids, ¬ InPage p (S.slot i 8) ∧ ¬ InPage p (S.slot i 16)
  mmutest : ∀ i ∈ ids, S.I.mmutest.toNat ≠ S.slot i 8 ∧ S.I.mmutest.toNat ≠ S.slot i 16
  apart : ∀ i ∈ ids, ∀ j ∈ ids, S.slot i 8 ≠ S.slot j 16

variable {S : System} {σ : State} {ids : List (BitVec 32)} {pgtbl : Fin 4 → BitVec 64}
  {mem mem' : Mem} {i : BitVec 32} {va : Addr} {m : Mode}

inductive Writes (S : System) (ids : List (BitVec 32)) : Nat → BitVec 64 → Prop
  | mmutest (x : BitVec 64) : Writes S ids S.I.mmutest.toNat x
  | start {i : BitVec 32} : i ∈ ids → Writes S ids (S.slot i 8) S.start_hart
  | satp {i : BitVec 32} : i ∈ ids → Writes S ids (S.slot i 16) S.satp

structure Intact (S : System) (σ : State) (pgtbl : Fin 4 → BitVec 64) (mem : Mem) : Prop where
  startup : Loaded S.I pgtbl mem
  tables : ∀ p ∈ σ.tables, ∀ x, InPage p x → mem x = σ.mem x

theorem Intact.write (h : Intact S σ pgtbl mem) (hp : Placed S σ.tables ids)
    (hw : Writes S ids a x) : Intact S σ pgtbl (Function.update mem a (ofWord x)) where
  startup := by
    refine Handover.Loaded.congr h.startup fun y hy => Function.update_of_ne ?_ _ _
    rintro rfl
    cases hw with
    | mmutest => exact S.I.mmutest_apart hy
    | start hi => exact (hp.startup _ hi).1 hy
    | satp hi => exact (hp.startup _ hi).2 hy
  tables p hpt y hy := by
    rw [← h.tables p hpt y hy]
    refine Function.update_of_ne ?_ _ _
    rintro rfl
    cases hw with
    | mmutest => exact (hp.tables p hpt).1 hy
    | start hi => exact ((hp.tables p hpt).2 _ hi).1 hy
    | satp hi => exact ((hp.tables p hpt).2 _ hi).2 hy

def Ready (S : System) (i : BitVec 32) (mem : Mem) : Prop :=
  (mem (S.slot i 8)).word = S.start_hart ∧ (mem (S.slot i 16)).word = S.satp

theorem start_write (hp : Placed S σ.tables ids) (hi : i ∈ ids) (hw : Writes S ids a x)
    (h : (mem (S.slot i 8)).word = S.start_hart) :
    (Function.update mem a (ofWord x) (S.slot i 8)).word = S.start_hart := by
  by_cases ha : S.slot i 8 = a
  · rw [ha, Function.update_self, Preloader.word_ofWord]
    cases hw with
    | mmutest => exact absurd ha.symm (hp.mmutest i hi).1
    | start => rfl
    | satp hj => exact absurd ha (hp.apart i hi _ hj)
  · rwa [Function.update_of_ne ha]

theorem satp_write (hp : Placed S σ.tables ids) (hi : i ∈ ids) (hw : Writes S ids a x)
    (h : (mem (S.slot i 16)).word = S.satp) :
    (Function.update mem a (ofWord x) (S.slot i 16)).word = S.satp := by
  by_cases ha : S.slot i 16 = a
  · rw [ha, Function.update_self, Preloader.word_ofWord]
    cases hw with
    | mmutest => exact absurd ha.symm (hp.mmutest i hi).2
    | start hj => exact absurd ha.symm (hp.apart _ hj i hi)
    | satp => rfl
  · rwa [Function.update_of_ne ha]

section Tables

variable {variant : Int} {mem₀ : Mem} {pages : List Nat}

theorem Intact.kernel (h : Intact S σ pgtbl mem) (hm : Mapped m variant mem₀ pages σ) (va : Addr) :
    translate σ.thead mem (satpWord σ.satp) va = if Kernel va then some (direct va) else none := by
  have hover := (Handover.translate_satpWord (σ := σ.over mem σ.pool) hm.mode va).2
  refine hover.trans ?_
  rw [over_translate hm.exact_both.good.wf h.tables, hm.exact_both.translate]
  exact Handover.inForce_both hm.exact_both.sorted va

end Tables

def HartOk (S : System) (i : BitVec 32) (started : BitVec 32 → Option Addr) : Pc → Prop
  | .stopped => True
  | .entryHart a1 => (started i).isSome ∧ a1 = S.area.hartstack i
  | .test satp s1 | .testHigh satp s1 | .jump satp s1 =>
    (started i).isSome ∧ satp = setMmu S.I.startup_pgtbl ∧ s1 = S.area.hartstack i
  | .loadSatp satp pc s1 =>
    (started i).isSome ∧ satp = setMmu S.I.startup_pgtbl ∧ pc = S.start_hart ∧
      s1 = S.area.hartstack i
  | .running satp pc s1 => satp = S.satp ∧ pc = S.start_hart ∧ s1 = S.area.hartstack i
  | _ => False

def BootOk (S : System) (ids : List (BitVec 32)) (mem : Mem) : Pc → Prop
  | .next todo => todo ⊆ ids
  | .putSatp i todo => i ∈ ids ∧ todo ⊆ ids ∧ (mem (S.slot i 8)).word = S.start_hart
  | .startHart i todo => i ∈ ids ∧ todo ⊆ ids ∧ Ready S i mem
  | _ => False

def Quiet (S : System) (ids : List (BitVec 32)) (mem mem' : Mem) : Prop :=
  mem' = mem ∨ ∃ a x, Writes S ids a x ∧ mem' = Function.update mem a (ofWord x)

theorem Quiet.intact (hq : Quiet S ids mem mem') (h : Intact S σ pgtbl mem)
    (hp : Placed S σ.tables ids) : Intact S σ pgtbl mem' := by
  rcases hq with rfl | ⟨a, x, hw, rfl⟩
  · exact h
  · exact h.write hp hw

theorem Quiet.start (hq : Quiet S ids mem mem') (hp : Placed S σ.tables ids) (hi : i ∈ ids)
    (h : (mem (S.slot i 8)).word = S.start_hart) : (mem' (S.slot i 8)).word = S.start_hart := by
  rcases hq with rfl | ⟨a, x, hw, rfl⟩
  · exact h
  · exact start_write hp hi hw h

theorem Quiet.ready (hq : Quiet S ids mem mem') (hp : Placed S σ.tables ids) (hi : i ∈ ids)
    (h : Ready S i mem) : Ready S i mem' := by
  refine ⟨hq.start hp hi h.1, ?_⟩
  rcases hq with rfl | ⟨a, x, hw, rfl⟩
  · exact h.2
  · exact satp_write hp hi hw h.2

theorem Quiet.bootOk (hq : Quiet S ids mem mem') (hp : Placed S σ.tables ids)
    (h : BootOk S ids mem pc) : BootOk S ids mem' pc := by
  cases pc with
  | putSatp i todo => exact ⟨h.1, h.2.1, hq.start hp h.1 h.2.2⟩
  | startHart i todo => exact ⟨h.1, h.2.1, hq.ready hp h.1 h.2.2⟩
  | _ => exact h

theorem HartOk.mono {started started' : BitVec 32 → Option Addr}
    (hmono : (started i).isSome → (started' i).isSome) (h : HartOk S i started pc) :
    HartOk S i started' pc := by
  cases pc with
  | entryHart a1 => exact ⟨hmono h.1, h.2⟩
  | test satp s1 => exact ⟨hmono h.1, h.2⟩
  | testHigh satp s1 => exact ⟨hmono h.1, h.2⟩
  | jump satp s1 => exact ⟨hmono h.1, h.2⟩
  | loadSatp satp pc s1 => exact ⟨hmono h.1, h.2⟩
  | _ => exact h

structure Inv (S : System) (σ : State) (pgtbl : Fin 4 → BitVec 64) (ids : List (BitVec 32))
    (c : Config (Option (BitVec 32)) Pc Shared) : Prop where
  intact : Intact S σ pgtbl c.mem.mem
  boot : BootOk S ids c.mem.mem (c.loc none)
  hart : ∀ i, HartOk S i c.mem.started (c.loc (some i))
  started : ∀ i a, c.mem.started i = some a →
    a = S.area.hartstack i ∧ i ∈ ids ∧ Ready S i c.mem.mem

section Steps

variable {variant : Int} {mem₀ : Mem} {pages : List Nat} {pc pc' : Pc} {s s' : Shared} {ok : Bool}
  (hm : Mapped m variant mem₀ pages σ) (hd : Direct σ.thead pgtbl) (hp : Placed S σ.tables ids)
  (hthead : S.thead = σ.thead) (hsatp : S.satp = satpWord σ.satp)

include hm hthead hsatp

theorem storeTo_kernel (h : Intact S σ pgtbl mem) (hva : Kernel va) (x : BitVec 64) :
    storeTo S.thead mem S.satp va x =
      some (Function.update mem (va.toNat % 2 ^ 32) (ofWord x)) := by
  unfold storeTo
  rw [hthead, hsatp, h.kernel hm, if_pos hva]
  rfl

include hp

theorem boot_step (h : Intact S σ pgtbl s.mem) (hb : BootOk S ids s.mem pc)
    (hs : step S none ok pc s = some (pc', s')) :
    BootOk S ids s'.mem pc' ∧ Quiet S ids s.mem s'.mem ∧
      (s'.started = s.started ∨ ∃ i ∈ ids, Ready S i s'.mem ∧
        s'.started = Function.update s.started i (some (S.area.hartstack i))) := by
  cases pc with
  | next todo =>
    cases todo with
    | nil => cases hs
    | cons i todo =>
      have hi : i ∈ ids := hb List.mem_cons_self
      have htodo : todo ⊆ ids := fun x hx => hb (List.mem_cons_of_mem i hx)
      cases ok with
      | false =>
        cases hs
        exact ⟨htodo, Or.inl rfl, Or.inl rfl⟩
      | true =>
        have hst := storeTo_kernel hm hthead hsatp h (hp.kernel i hi).1 S.start_hart
        simp only [step, hst, if_true] at hs
        cases hs
        refine ⟨⟨hi, htodo, ?_⟩, Or.inr ⟨_, _, .start hi, rfl⟩, Or.inl rfl⟩
        change (Function.update s.mem (S.slot i 8) (ofWord S.start_hart) (S.slot i 8)).word = _
        rw [Function.update_self, Preloader.word_ofWord]
  | putSatp i todo =>
    obtain ⟨hi, htodo, hstart⟩ := hb
    have hst := storeTo_kernel hm hthead hsatp h (hp.kernel i hi).2 S.satp
    simp only [step, hst] at hs
    cases hs
    have hq : Quiet S ids s.mem
        (Function.update s.mem ((S.area.hartstack i - 16).toNat % 2 ^ 32) (ofWord S.satp)) :=
      Or.inr ⟨_, _, .satp hi, rfl⟩
    refine ⟨⟨hi, htodo, hq.start hp hi hstart, ?_⟩, hq, Or.inl rfl⟩
    change (Function.update s.mem (S.slot i 16) (ofWord S.satp) (S.slot i 16)).word = _
    rw [Function.update_self, Preloader.word_ofWord]
  | startHart i todo =>
    obtain ⟨hi, htodo, hready⟩ := hb
    cases ok with
    | false =>
      cases hs
      exact ⟨htodo, Or.inl rfl, Or.inl rfl⟩
    | true =>
      cases hs
      exact ⟨htodo, Or.inl rfl, Or.inr ⟨i, hi, hready, rfl⟩⟩
  | _ => exact hb.elim

omit hm hsatp

include hd

theorem hart_step (h : Intact S σ pgtbl s.mem) (hh : HartOk S i s.started pc)
    (hst : ∀ a, s.started i = some a → a = S.area.hartstack i ∧ i ∈ ids ∧ Ready S i s.mem)
    (hs : step S (some i) ok pc s = some (pc', s')) :
    HartOk S i s'.started pc' ∧ Quiet S ids s.mem s'.mem ∧ s'.started = s.started := by
  have hin : InPage S.I.startup_pgtbl.toNat S.I.startup_pgtbl.toNat := ⟨Nat.le_refl _, by omega⟩
  cases pc with
  | stopped =>
    cases hx : s.started i with
    | none => simp [step, hx] at hs
    | some a1 =>
      simp only [step, hx] at hs
      cases hs
      exact ⟨⟨by rw [hx]; rfl, (hst a1 hx).1⟩, Or.inl rfl, rfl⟩
  | entryHart a1 =>
    cases hs
    exact ⟨⟨hh.1, rfl, hh.2⟩, Or.inl rfl, rfl⟩
  | test satp s1 =>
    obtain ⟨hsome, rfl, rfl⟩ := hh
    obtain ⟨w, hw⟩ := Preloader.amoadd_test h.startup hd hin 1
    rw [← hthead] at hw
    simp only [step, hw] at hs
    cases hs
    exact ⟨⟨hsome, rfl, rfl⟩, Or.inr ⟨_, w, .mmutest w, rfl⟩, rfl⟩
  | testHigh satp s1 =>
    obtain ⟨hsome, rfl, rfl⟩ := hh
    obtain ⟨w, hw⟩ := Preloader.amoadd_testHigh h.startup hd hin 1
    rw [← hthead] at hw
    simp only [step, hw] at hs
    cases hs
    exact ⟨⟨hsome, rfl, rfl⟩, Or.inr ⟨_, w, .mmutest w, rfl⟩, rfl⟩
  | jump satp s1 =>
    obtain ⟨hsome, rfl, rfl⟩ := hh
    obtain ⟨a, ha⟩ := Option.isSome_iff_exists.mp hsome
    obtain ⟨-, hi, hready⟩ := hst a ha
    have hl := Preloader.load_window h.startup hd hin (Or.inr (hp.kernel i hi).1)
    rw [← hthead] at hl
    simp only [step, hl] at hs
    cases hs
    exact ⟨⟨hsome, rfl, hready.1, rfl⟩, Or.inl rfl, rfl⟩
  | loadSatp satp pc s1 =>
    obtain ⟨hsome, rfl, hpc, rfl⟩ := hh
    obtain ⟨a, ha⟩ := Option.isSome_iff_exists.mp hsome
    obtain ⟨-, hi, hready⟩ := hst a ha
    have hl := Preloader.load_window h.startup hd hin (Or.inr (hp.kernel i hi).2)
    rw [← hthead] at hl
    simp only [step, hl] at hs
    cases hs
    exact ⟨⟨hready.2, hpc, rfl⟩, Or.inl rfl, rfl⟩
  | running satp pc s1 => cases hs
  | _ => exact hh.elim

include hm hsatp

theorem Inv.step {c : Config (Option (BitVec 32)) Pc Shared} {h : Option (BitVec 32)}
    (hinv : Inv S σ pgtbl ids c) (hs : Secondary.step S h ok (c.loc h) c.mem = some (pc', s')) :
    Inv S σ pgtbl ids ⟨Function.update c.loc h pc', s'⟩ := by
  cases h with
  | none =>
    obtain ⟨hb, hq, hstarted⟩ := boot_step hm hp hthead hsatp hinv.intact hinv.boot hs
    have hmono : ∀ i, (c.mem.started i).isSome → (s'.started i).isSome := by
      intro i hi
      rcases hstarted with heq | ⟨j, -, -, heq⟩
      · rwa [heq]
      · rw [heq, Function.update_apply]
        split
        · rfl
        · exact hi
    refine ⟨hq.intact hinv.intact hp, ?_, fun i => ?_, fun i a ha => ?_⟩
    · change BootOk S ids s'.mem (Function.update c.loc none pc' none)
      rwa [Function.update_self]
    · change HartOk S i s'.started (Function.update c.loc none pc' (some i))
      rw [Function.update_of_ne (by nofun)]
      exact (hinv.hart i).mono (hmono i)
    · change s'.started i = some a at ha
      rcases hstarted with heq | ⟨j, hj, hready, heq⟩
      · rw [heq] at ha
        obtain ⟨ha', hi, hr⟩ := hinv.started i a ha
        exact ⟨ha', hi, hq.ready hp hi hr⟩
      · rw [heq, Function.update_apply] at ha
        split at ha
        · next hij =>
          subst hij
          cases ha
          exact ⟨rfl, hj, hready⟩
        · obtain ⟨ha', hi, hr⟩ := hinv.started i a ha
          exact ⟨ha', hi, hq.ready hp hi hr⟩
  | some j =>
    obtain ⟨hok, hq, heq⟩ := hart_step hd hp hthead hinv.intact (hinv.hart j) (hinv.started j) hs
    refine ⟨hq.intact hinv.intact hp, ?_, fun i => ?_, fun i a ha => ?_⟩
    · change BootOk S ids s'.mem (Function.update c.loc (some j) pc' none)
      rw [Function.update_of_ne (by nofun)]
      exact hq.bootOk hp hinv.boot
    · change HartOk S i s'.started (Function.update c.loc (some j) pc' (some i))
      by_cases hij : i = j
      · subst hij
        rwa [Function.update_self]
      · rw [Function.update_of_ne (by simpa using hij), heq]
        exact hinv.hart i
    · change s'.started i = some a at ha
      rw [heq] at ha
      obtain ⟨ha', hi, hr⟩ := hinv.started i a ha
      exact ⟨ha', hi, hq.ready hp hi hr⟩

theorem Inv.of_reaches {c₀ c : Config (Option (BitVec 32)) Pc Shared}
    (h₀ : Inv S σ pgtbl ids c₀) (hr : (harts S).ReachesWhen (fun _ _ _ => True) c₀ c) :
    Inv S σ pgtbl ids c :=
  hr.invariant (fun _ _ _ _ _ h _ hs => h.step hm hd hp hthead hsatp hs) h₀

omit hm hd hp hthead hsatp

def Pc.togo : Pc → Nat
  | .stopped => 6
  | .entryHart _ => 5
  | .test _ _ => 4
  | .testHigh _ _ => 3
  | .jump _ _ => 2
  | .loadSatp _ _ _ => 1
  | _ => 0

theorem hart_enabled (hh : HartOk S i s.started pc) (hsome : (s.started i).isSome)
    (hrun : ∀ satp x s1, pc ≠ .running satp x s1) :
    ∃ pc' s', step S (some i) true pc s = some (pc', s') ∧ (pc' = .fault ∨ pc'.togo < pc.togo) := by
  obtain ⟨a, ha⟩ := Option.isSome_iff_exists.mp hsome
  cases pc with
  | stopped => exact ⟨.entryHart a, s, by simp [step, ha], Or.inr (Nat.lt_succ_self 5)⟩
  | entryHart a1 => exact ⟨_, _, rfl, Or.inr (Nat.lt_succ_self 4)⟩
  | test satp s1 =>
    cases hx : amoadd S.thead s.mem satp S.I.mmutest 1 with
    | none => exact ⟨.fault, s, by simp only [step, hx], Or.inl rfl⟩
    | some mem =>
      exact ⟨.testHigh satp s1, { s with mem }, by simp only [step, hx],
        Or.inr (Nat.lt_succ_self 3)⟩
  | testHigh satp s1 =>
    cases hx : amoadd S.thead s.mem satp (S.I.mmutest ||| (0xFFFFFFC0#64 <<< 32)) 1 with
    | none => exact ⟨.fault, s, by simp only [step, hx], Or.inl rfl⟩
    | some mem =>
      exact ⟨.jump satp s1, { s with mem }, by simp only [step, hx], Or.inr (Nat.lt_succ_self 2)⟩
  | jump satp s1 =>
    cases hx : load S.thead s.mem satp (s1 - 8) with
    | none => exact ⟨.fault, s, by simp only [step, hx], Or.inl rfl⟩
    | some x => exact ⟨.loadSatp satp x s1, s, by simp only [step, hx], Or.inr (Nat.lt_succ_self 1)⟩
  | loadSatp satp x s1 =>
    cases hx : load S.thead s.mem satp (s1 - 16) with
    | none => exact ⟨.fault, s, by simp only [step, hx], Or.inl rfl⟩
    | some word => exact ⟨.running word x s1, s, by simp only [step, hx], Or.inr Nat.one_pos⟩
  | running satp x s1 => exact absurd rfl (hrun satp x s1)
  | _ => exact hh.elim

include hm hd hp hthead hsatp

theorem Inv.enters {c : Config (Option (BitVec 32)) Pc Shared} (hinv : Inv S σ pgtbl ids c)
    (hsome : (c.mem.started i).isSome) :
    ∃ es c', (∀ e ∈ es, e.1 = some i) ∧ (harts S).run es c = some c' ∧
      ∃ satp x s1, c'.loc (some i) = .running satp x s1 := by
  refine Threads.run_to_goal (P := fun c => Inv S σ pgtbl ids c ∧ (c.mem.started i).isSome)
    (some i) Pc.togo ?_ ⟨hinv, hsome⟩
  rintro c ⟨hinv, hsome⟩ hdone
  obtain ⟨pc', s', hs, hlt⟩ := hart_enabled (hinv.hart i) hsome
    fun satp x s1 hx => hdone ⟨satp, x, s1, hx⟩
  obtain ⟨hok, -, heq⟩ := hart_step hd hp hthead hinv.intact (hinv.hart i) (hinv.started i) hs
  have hlt : pc'.togo < (c.loc (some i)).togo := by
    rcases hlt with rfl | hlt
    · exact hok.elim
    · exact hlt
  exact ⟨true, pc', s', hs, ⟨hinv.step hm hd hp hthead hsatp hs, heq ▸ hsome⟩, hlt⟩

omit hm hd hp hthead hsatp in
theorem next_boot {c : Config (Option (BitVec 32)) Pc Shared}
    (hs : step S none true (c.loc none) c.mem = some (pc', s')) :
    ∃ c', (harts S).next c none true = some c' ∧ c'.loc none = pc' ∧ c'.mem = s' :=
  ⟨⟨Function.update c.loc none pc', s'⟩, Threads.next_eq_some.mpr ⟨pc', s', hs, rfl⟩,
    Function.update_self none pc' c.loc, rfl⟩

theorem Inv.starts {c : Config (Option (BitVec 32)) Pc Shared} {todo : List (BitVec 32)}
    (hinv : Inv S σ pgtbl ids c) (hloc : c.loc none = .next (i :: todo)) :
    ∃ c', (harts S).run (List.replicate 3 (none, true)) c = some c' ∧
      (c'.mem.started i).isSome := by
  have hb := hinv.boot
  rw [hloc] at hb
  have hi : i ∈ ids := hb List.mem_cons_self
  have hst₁ := storeTo_kernel hm hthead hsatp hinv.intact (hp.kernel i hi).1 S.start_hart
  obtain ⟨c₁, hnext₁, hloc₁, -⟩ := next_boot (S := S) (c := c) (by
    rw [hloc]
    simp only [Secondary.step, hst₁, if_true]
    rfl)
  have hinv₁ := hinv.of_reaches hm hd hp hthead hsatp (.step .refl trivial hnext₁)
  have hst₂ := storeTo_kernel hm hthead hsatp hinv₁.intact (hp.kernel i hi).2 S.satp
  obtain ⟨c₂, hnext₂, hloc₂, -⟩ := next_boot (S := S) (c := c₁) (by
    rw [hloc₁]
    simp only [Secondary.step, hst₂]
    rfl)
  obtain ⟨c₃, hnext₃, -, hmem₃⟩ := next_boot (S := S) (c := c₂) (by
    rw [hloc₂]
    rfl)
  refine ⟨c₃, ?_, ?_⟩
  · simp only [List.replicate, Threads.run, hnext₁, hnext₂, hnext₃, Option.bind_some]
  · rw [hmem₃]
    change (Function.update c₂.mem.started i (some (S.area.hartstack i)) i).isSome = true
    rw [Function.update_self]
    rfl

end Steps

/-- The MMU has been set up, and the pages of the startup table and of the kernel's table are as
they were then.  However the boot hart and the harts that it starts are interleaved, and whatever
the firmware answers, none of them faults, and a hart in the kernel has its own stack and runs at
`_start_hart` under the kernel's table.  The next hart is started if the firmware agrees, and a hart
that was started gets into the kernel. -/
theorem harts_enter {mem : Mem} {pages : List Nat} {vid : BitVec 64} {s : Vmm.Space State}
    {todo : List (BitVec 32)} {c : Config (Option (BitVec 32)) Pc Shared}
    (hok : ∀ p ∈ pages, PageOk p) (hnd : pages.Nodup) (hheap : S.I.startup_pgtbl.toNat ∉ pages)
    (hl : Loaded S.I pgtbl mem) (hd : Direct S.thead pgtbl)
    (hset : (Handover.mapLower4G m (Handover.mmuVariant vid)).exec (Handover.blank mem pages) =
      (.ok 0, s))
    (hthead : S.thead = decide (vid = 0x5B7)) (hsatp : S.satp = satpWord s.mgr.mmu.satp)
    (hp : Placed S s.mgr.mmu.tables todo)
    (hstartup : ∀ x, InPage S.I.startup_pgtbl.toNat x → mem' x = s.mgr.mmu.mem x)
    (htables : ∀ p ∈ s.mgr.mmu.tables, ∀ x, InPage p x → mem' x = s.mgr.mmu.mem x)
    (hr : (harts S).ReachesWhen (fun _ _ _ => True) (init mem' todo) c) :
    (∀ h, c.loc h ≠ .fault) ∧
    (∀ i satp x s1, c.loc (some i) = .running satp x s1 →
      satp = S.satp ∧ x = S.start_hart ∧ s1 = S.area.hartstack i ∧
        ∀ va, translate S.thead c.mem.mem satp va =
          if Kernel va then some (direct va) else none) ∧
    (∀ i rest, c.loc none = .next (i :: rest) → ∃ c',
      (harts S).run (List.replicate 3 (none, true)) c = some c' ∧ (c'.mem.started i).isSome) ∧
    ∀ i, (c.mem.started i).isSome → ∃ es c', (∀ e ∈ es, e.1 = some i) ∧
      (harts S).run es c = some c' ∧ ∃ satp x s1, c'.loc (some i) = .running satp x s1 := by
  have hm : Mapped m (Handover.mmuVariant vid) mem pages s.mgr.mmu := by
    rcases Handover.mapLower4G_exec (m := m) mem hok hnd (Handover.mmuVariant vid) with
      ⟨s₁, hex⟩ | ⟨s₁, hex, hm⟩
    · cases hset.symm.trans hex
    · cases hset.symm.trans hex
      exact hm
  have hσ : S.thead = s.mgr.mmu.thead :=
    hthead.trans (Handover.thead_mmuVariant hm.variant_eq).symm
  rw [hσ] at hd
  have hloaded : Loaded S.I pgtbl mem' := by
    refine Handover.Loaded.congr hl fun x hx => (hstartup x hx).trans (hm.outside x ?_)
    intro p hpp hpx
    exact hheap (InPage.eq (hok p hpp).1 S.I.aligned hpx hx ▸ hpp)
  have h₀ : Inv S s.mgr.mmu pgtbl todo (init mem' todo) :=
    ⟨⟨hloaded, htables⟩, List.Subset.refl todo, fun _ => trivial, nofun⟩
  have hinv := h₀.of_reaches hm hd hp hσ hsatp hr
  refine ⟨fun h hf => ?_, fun i satp x s1 hx => ?_, fun i rest hloc => ?_, fun i hi => ?_⟩
  · cases h with
    | none =>
      have hb := hinv.boot
      rw [hf] at hb
      exact hb
    | some i =>
      have hh := hinv.hart i
      rw [hf] at hh
      exact hh
  · have hh := hinv.hart i
    rw [hx] at hh
    obtain ⟨rfl, rfl, rfl⟩ := hh
    refine ⟨rfl, rfl, rfl, fun va => ?_⟩
    rw [hσ, hsatp]
    exact hinv.intact.kernel hm va
  · exact hinv.starts hm hd hp hσ hsatp hloc
  · exact hinv.enters hm hd hp hσ hsatp hi

def sampleMem : Mem :=
  (Preloader.stores (Preloader.sample.startup_pgtbl + 1024) Preloader.defaultPgtbl).foldl
    Preloader.store Preloader.sampleMem

def sampleVmm : Vmm.Space State :=
  ((Handover.mapLower4G .sv39 (Handover.mmuVariant 0)).exec (Handover.blank sampleMem [0x1000])).2

def sample : System where
  I := Preloader.sample
  start_hart := 0xFFFFFFC080204000
  area := Boot.startArea
  satp := satpWord sampleVmm.mgr.mmu.satp
  thead := false

theorem sampleVmm_eq : (Handover.mapLower4G .sv39 (Handover.mmuVariant 0)).exec
    (Handover.blank sampleMem [0x1000]) = (.ok 0, sampleVmm) := by
  refine Prod.ext ?_ rfl
  decide +kernel

theorem sample_hartstack : sample.area.hartstack 1 = 0xFFFFFFC0801FE000 := by
  rw [← BitVec.toNat_inj]
  exact Boot.hartstack_toNat (A := Boot.startArea) (by decide) (by decide)

theorem sample_placed : Placed sample sampleVmm.mgr.mmu.tables [1] := by
  have htables : sampleVmm.mgr.mmu.tables = [0x1000] := by decide +kernel
  have hstart : sample.slot 1 8 = 0x801FDFF8 := by
    unfold System.slot
    rw [sample_hartstack]
    decide
  have hsatp : sample.slot 1 16 = 0x801FDFF0 := by
    unfold System.slot
    rw [sample_hartstack]
    decide
  rw [htables]
  constructor <;> simp only [List.forall_mem_singleton, sample_hartstack, hstart, hsatp] <;> decide

theorem harts_enter_one : ∃ c es c', (harts sample).run (List.replicate 3 (none, true))
      (init sampleVmm.mgr.mmu.mem [1]) = some c ∧
    (∀ e ∈ es, e.1 = some 1) ∧ (harts sample).run es c = some c' ∧
    ∃ satp x s1, c'.loc (some 1) = .running satp x s1 := by
  have hpages : ∀ p ∈ [0x1000], PageOk p := by decide
  have hheap : sample.I.startup_pgtbl.toNat ∉ [0x1000] := by decide
  have hloaded : Loaded sample.I Preloader.defaultPgtbl sampleMem :=
    Preloader.loaded_stores Preloader.sampleMem_zero
  have hd : Direct sample.thead Preloader.defaultPgtbl := by decide
  have hsatp : sample.satp = satpWord sampleVmm.mgr.mmu.satp := by simp only [sample]
  have henter {c : Config (Option (BitVec 32)) Pc Shared}
      (hr : (harts sample).ReachesWhen (fun _ _ _ => True) (init sampleVmm.mgr.mmu.mem [1]) c) :=
    harts_enter (S := sample) hpages (List.nodup_singleton _) hheap hloaded hd sampleVmm_eq
      (by decide) hsatp sample_placed (fun _ _ => rfl) (fun _ _ _ _ => rfl) hr
  obtain ⟨c, hc, hsome⟩ := (henter .refl).2.2.1 1 [] rfl
  obtain ⟨es, c', hes, hrun, hend⟩ :=
    (henter (Threads.ReachesWhen.refl.run (fun _ _ _ => trivial) hc)).2.2.2 1 hsome
  exact ⟨c, es, c', hc, hes, hrun, hend⟩

end Abydos.Secondary
