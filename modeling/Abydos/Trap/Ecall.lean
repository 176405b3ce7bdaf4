import Abydos.Trap.Timer

namespace Abydos.Trap

open Abydos.Lib.Riscv

variable {w : Env Sym} {h h' : Hart} {P : Image Sym} {printf : Print → Hart → Hart}
  {leave : Hart → Hart}

structure Advanced (h h' : Hart) : Prop extends Called 31 h h' where
  pc : h'.mem.slot (h.x .sp) 31 = h.mem.slot (h.x .sp) 31 + 4

theorem Called.mono (hc : Called n h h') (hle : m ≤ n) : Called m h h' :=
  ⟨hc.saved, hc.sepc, hc.sscratch, fun k hk => hc.slot k (Nat.lt_of_lt_of_le hk hle)⟩

theorem Called.advanced {h₁ : Hart} (hc : Called SAVE_SPACE h h₁) (ha : Advanced h₁ h') :
    Advanced h h' := by
  refine ⟨(hc.mono (by decide)).trans ha.toCalled, ?_⟩
  have hpc := ha.pc
  rw [hc.saved .sp rfl, hc.slot 31 (by decide)] at hpc
  exact hpc

theorem Called.syscallPrintf (hp : ∀ p, Obeys (SAVE_SPACE * REG_SIZE) (printf p)) (uctx : Word)
    (hc : Called SAVE_SPACE h h') : Called SAVE_SPACE h (syscallPrintf printf uctx h') := by
  unfold Trap.syscallPrintf
  split
  · exact (hc.trans (Obeys.called (hp _) _)).trans (Obeys.called (hp _) _)
  · exact hc

theorem k_esr_ecall_advanced (hp : ∀ p, Obeys (SAVE_SPACE * REG_SIZE) (printf p))
    (hl : Obeys (SAVE_SPACE * REG_SIZE) leave) (ha0 : h.x .a0 = h.x .sp) :
    Advanced h (k_esr_ecall printf leave h) := by
  simp only [k_esr_ecall, ha0]
  have h1 : Called SAVE_SPACE h _ :=
    (Obeys.called (hp (.ecall (h.csr .sepc))) h).syscallPrintf hp (h.x .sp)
  generalize Trap.syscallPrintf printf (h.x .sp) (printf (.ecall (h.csr .sepc)) h) = h₁ at h1 ⊢
  have h2 := Obeys.called hl
    { h₁ with mem := h₁.mem.sd (h.x .sp + BitVec.ofNat 64 (8 * 31)) (h₁.mem.slot (h.x .sp) 31 + 4) }
  have hslot (k : Nat) (hk : k < SAVE_SPACE) := h2.slot k hk
  simp only [h1.saved .sp rfl] at hslot
  refine ⟨⟨fun r hr => (h2.saved r hr).trans (h1.saved r hr), h2.sepc.trans h1.sepc,
    h2.sscratch.trans h1.sscratch, fun k hk => ?_⟩, ?_⟩
  · have hk' : k < SAVE_SPACE := Nat.lt_trans hk (by decide)
    rw [hslot k hk', Mem.slot_sd _ _ _ (Nat.lt_trans hk (by decide)) (by decide),
      if_neg (Nat.ne_of_lt hk), h1.slot k hk']
  · rw [hslot 31 (by decide), Mem.slot_sd _ _ _ (by decide) (by decide), if_pos rfl,
      h1.slot 31 (by decide)]

def fullRegs : List (Reg × Nat) := normalRegs ++ additionalRegs

theorem fullRegs_layout : Layout fullRegs :=
  ⟨by decide, by decide, by decide, by decide⟩

theorem switch_scause (h : Hart) : (switch h).csr .scause = h.csr .scause := by
  unfold switch
  split
  · rfl
  · simp [swap]

def saveTop : List (Op Sym) := [save 0 (.sp, 30), .csrr .tp .sepc, save 0 (.tp, 31)]

theorem execs_saveTop_slot (h : Hart) (hk : k < SAVE_SPACE) :
    (execs w saveTop h).mem.slot (h.x .sp) k =
      if k = 31 then h.csr .sepc else if k = 30 then h.x .sp else h.mem.slot (h.x .sp) k := by
  have hmem : (execs w saveTop h).mem = (h.mem.sd (h.x .sp + BitVec.ofNat 64 (8 * 30)) (h.x .sp)).sd
      (h.x .sp + BitVec.ofNat 64 (8 * 31)) (h.csr .sepc) := by
    simp [saveTop, execs, Op.exec, save]
  have hk' : k < 2 ^ 60 := Nat.lt_trans hk (by decide)
  rw [hmem, Mem.slot_sd _ _ _ hk' (by decide), Mem.slot_sd _ _ _ hk' (by decide)]

theorem execs_saveTop_x (h : Hart) (hr : r ≠ .tp) : (execs w saveTop h).x r = h.x r := by
  simp [saveTop, execs, Op.exec, save, hr]

structure FullFramed (h h' : Hart) : Prop extends Framed fullRegs h h' where
  link : ∀ k < 3, h'.mem.slot (h.x .sp - frameSize) k = h.mem.slot (h.x .sp - frameSize) k
  self : h'.mem.slot (h.x .sp - frameSize) 30 = h.x .sp - frameSize
  pc : h'.mem.slot (h.x .sp - frameSize) 31 = h.csr .sepc
  ra : h'.x .ra = h.x .ra

theorem saveFull_ends (h : Hart) :
    Ends w ((openFrame :: fullRegs.map (save 0)).map Instr.op ++
      (saveTop.map Instr.op ++ assemble saveRecalcPtrs)) h (FullFramed h) := by
  have hra := execs_open_x (w := w) fullRegs_layout h (r := .ra) (by decide)
  obtain ⟨hfr, hspared⟩ := execs_open (w := w) fullRegs_layout h
  generalize hh₁ : execs w (openFrame :: fullRegs.map (save 0)) h = h₁ at hra hfr hspared
  have hslot (k : Nat) (hk : k < SAVE_SPACE) := execs_saveTop_slot (w := w) h₁ hk
  rw [hfr.sp, hfr.csr] at hslot
  refine Ends.seq (R := (· = h₁)) (.ops hh₁) ?_
  rintro h₁ rfl
  refine Ends.seq (R := (· = execs w saveTop h₁)) (.ops rfl) ?_
  rintro _ rfl
  refine (recalcPtrs_ends _).mono ?_
  rintro _ rfl
  have hframed : Framed fullRegs h (execs w saveTop h₁) := by
    refine ⟨?_, hfr.csr, fun p hp => ?_, fun r hr hs => ?_⟩
    · rw [execs_saveTop_x _ (by decide), hfr.sp]
    · have hlt : p.2 < 30 := (show ∀ p ∈ fullRegs, p.2 < 30 by decide) p hp
      rw [hslot p.2 (Nat.lt_trans hlt (by decide)), if_neg (by omega), if_neg (by omega),
        hfr.slot p hp]
    · rw [execs_saveTop_x, hfr.saved r hr hs]
      rintro rfl
      cases hs
  refine ⟨hframed.recalc, fun k hk => ?_, ?_, ?_, ?_⟩
  · have hnot : k ∉ fullRegs.map Prod.snd := by
      intro hmem
      have := (show ∀ k ∈ fullRegs.map Prod.snd, 3 ≤ k by decide) k hmem
      omega
    have hk' : k < SAVE_SPACE := Nat.lt_trans hk (by decide)
    refine (hslot k hk').trans ?_
    rw [if_neg (by omega), if_neg (by omega), hspared k hk' hnot]
  · exact hslot 30 (by decide)
  · exact hslot 31 (by decide)
  · unfold recalcPtrs
    rw [setPtrs_x, if_neg (by decide), if_neg (by decide), execs_saveTop_x _ (by decide), hra]

theorem FullFramed.framed {g h₁ h₂ : Hart} (hlink : Saved linkRegs (g.x .sp - frameSize) g h₁)
    (hx : ∀ r, r ∉ linkRegs.map Prod.fst → h.x r = g.x r) (hcsr : h.csr = g.csr)
    (hmem : h.mem = h₁.mem) (hfull : FullFramed h h₂) : Framed SaveMode.ADDITIONAL.regs g h₂ := by
  have hsp : h.x .sp = g.x .sp := hx _ (by decide)
  refine ⟨?_, hfull.csr.trans hcsr, fun p hp => ?_, fun r hr hs => ?_⟩
  · rw [hfull.sp, hsp]
  · have hp : p ∈ linkRegs ++ fullRegs := hp
    rcases List.mem_append.mp hp with hp | hp
    · have hlt : p.2 < 3 := (show ∀ p ∈ linkRegs, p.2 < 3 by decide) p hp
      have hslot := hfull.link p.2 hlt
      rw [hsp, hmem, hlink.slot p hp] at hslot
      exact hslot
    · have hnot : p.1 ∉ linkRegs.map Prod.fst :=
        (show ∀ p ∈ fullRegs, p.1 ∉ linkRegs.map Prod.fst by decide) p hp
      have hslot := hfull.slot p hp
      rw [hsp, hx _ hnot] at hslot
      exact hslot
  · rw [hfull.saved r hr hs, hx]
    exact (show ∀ r, r.calleeSaved = true → r ∉ linkRegs.map Prod.fst by
      intro r; cases r <;> decide) r hs

section Run

variable (hP : P.code = assemble k_exception_entry)

include hP

theorem has_of_drop (hc : cs <+: (assemble k_exception_entry).drop i) : P.Has i cs := by
  unfold Image.Has
  rw [hP]
  exact hc

theorem dispatch_runs (hn : n < 16) (hc : h.csr .scause = BitVec.ofNat 64 n) :
    P.Runs w 6 h (14 + 4 * n)
      (setPtrs h (P.addr (14 + 4 * n)) (BitVec.ofNat 64 n <<< 4)) := by
  have hcode : P.Has 6 [.op (.csrr .gp .scause), .bltz .gp 71, .op (.li .tp 16), .bge .gp .tp 69,
      .lla .tp 4, .op (.slli .gp .gp 4), .op (.add .tp .tp .gp), .jr .tp] :=
    has_of_drop hP (by decide +kernel)
  obtain ⟨hlt, hge, hshift⟩ : (BitVec.ofNat 64 n).slt 0 = false ∧
      (BitVec.ofNat 64 n).slt 16 = true ∧
        BitVec.ofNat 64 n <<< 4 = BitVec.ofNat 64 (4 * (4 * n)) := by
    clear hc
    revert n
    decide
  have h1 : P.Runs w 6 h 7 (setPtrs h (h.x .tp) (BitVec.ofNat 64 n)) := by
    refine .cast (.next (d := 1) hcode.head rfl) ?_
    rw [← set_gp, ← hc]
    rfl
  have h2 : P.Runs w 7 (setPtrs h (h.x .tp) (BitVec.ofNat 64 n)) 8 _ :=
    .skipped (d := 71) (e := 1) hcode.tail.head rfl (Bool.not_eq_true _ ▸ hlt)
  have h3 : P.Runs w 8 (setPtrs h (h.x .tp) (BitVec.ofNat 64 n)) 9
      (setPtrs h 16 (BitVec.ofNat 64 n)) :=
    .cast (.next (d := 1) hcode.tail.tail.head rfl) (setPtrs_tp _ _ _ _)
  have h4 : P.Runs w 9 (setPtrs h 16 (BitVec.ofNat 64 n)) 10 _ :=
    .taken (d := 1) (e := 69) hcode.tail.tail.tail.head rfl hge
  have hcode' : P.Has 10 _ := hcode.tail.tail.tail.tail
  have h5 : P.Runs w 10 (setPtrs h 16 (BitVec.ofNat 64 n)) 11
      (setPtrs h (P.addr 14) (BitVec.ofNat 64 n)) := by
    refine .cast (.next (d := 1) hcode'.head rfl) ?_
    rw [jump_addr, setPtrs_tp]
  have h6 : P.Runs w 11 (setPtrs h (P.addr 14) (BitVec.ofNat 64 n)) 12
      (setPtrs h (P.addr 14) (BitVec.ofNat 64 n <<< 4)) :=
    .cast (.next (d := 1) hcode'.tail.head rfl) (setPtrs_gp _ _ _ _)
  have h7 : P.Runs w 12 (setPtrs h (P.addr 14) (BitVec.ofNat 64 n <<< 4)) 13
      (setPtrs h (P.addr (14 + 4 * n)) (BitVec.ofNat 64 n <<< 4)) := by
    refine .cast (.next (d := 1) hcode'.tail.tail.head rfl) ?_
    refine (setPtrs_tp _ _ _ _).trans ?_
    rw [← jump_addr, hshift]
    rfl
  have h8 : P.Runs w 13 (setPtrs h (P.addr (14 + 4 * n)) (BitVec.ofNat 64 n <<< 4)) (14 + 4 * n)
      (setPtrs h (P.addr (14 + 4 * n)) (BitVec.ofNat 64 n <<< 4)) :=
    .single hcode'.tail.tail.tail.head rfl
  exact h1.trans (h2.trans (h3.trans (h4.trans (h5.trans (h6.trans (h7.trans h8))))))

theorem early_runs (h : Hart) : ∃ h₁, P.Runs w 0 h 6 h₁ ∧
    Saved linkRegs ((switch h).x .sp - frameSize) (switch h) h₁ := by
  have hsw : P.Has 0 (assemble switchSp) := has_of_drop hP (by decide +kernel)
  have hst : P.Has 3 ((linkRegs.map (save (-frameSize))).map Instr.op) :=
    has_of_drop hP (by decide +kernel)
  obtain ⟨_, h1, rfl⟩ := switch_ends (w := w) h P 0 hsw
  refine ⟨_, h1.trans (.ops hst _), ?_⟩
  rw [BitVec.sub_eq_add_neg]
  exact execs_save (by decide) (by decide) _ _

theorem save_runs (hc : h.csr .scause = 8) : ∃ h₁, P.Runs w 0 h 47 h₁ ∧
    Framed SaveMode.ADDITIONAL.regs (switch h) h₁ ∧
    h₁.mem.slot (h₁.x .sp) 30 = kernelSp h - frameSize ∧
    h₁.mem.slot (h₁.x .sp) 31 = h.csr .sepc := by
  have hjal : P.Has 46 [.jal 66] := has_of_drop hP (by decide +kernel)
  have hfull : P.Has 112 ((openFrame :: fullRegs.map (save 0)).map Instr.op ++
      (saveTop.map Instr.op ++ assemble saveRecalcPtrs) ++ [.ret]) :=
    has_of_drop hP (by decide +kernel)
  obtain ⟨h₁, h1, hsaved⟩ := early_runs (w := w) hP h
  have hcause : h₁.csr .scause = BitVec.ofNat 64 8 := by
    rw [hsaved.csr, switch_scause, hc]
    rfl
  have h2 := dispatch_runs (w := w) hP (by decide) hcause
  generalize hh₂ : setPtrs h₁ (P.addr (14 + 4 * 8)) (BitVec.ofNat 64 8 <<< 4) = h₂ at h2
  have h3 : P.Runs w 46 h₂ 112 (h₂.set .ra (P.addr 47)) := by
    rw [← jump_addr P 46 1]
    exact .next (d := 66) hjal.head rfl
  obtain ⟨h₃, h4, hfr⟩ := saveFull_ends (w := w) (h₂.set .ra (P.addr 47)) P 112 hfull.left
  have hret (pc : Word) : Instr.step w pc h₃ .ret = some (P.addr 47, h₃) := by
    simp only [Instr.step]
    rw [hfr.ra, Hart.set_x, if_pos rfl]
  have h5 := Image.Runs.single hfull.right.head (hret _)
  have hx (r : Reg) (hr : r ∉ linkRegs.map Prod.fst) :
      (h₂.set .ra (P.addr 47)).x r = (switch h).x r := by
    obtain ⟨hra, hgp, htp⟩ : r ≠ .ra ∧ r ≠ .gp ∧ r ≠ .tp := by
      simpa [linkRegs] using hr
    rw [Hart.set_x, if_neg hra, ← hh₂, setPtrs_x, if_neg hgp, if_neg htp, hsaved.x]
  have hcsr : (h₂.set .ra (P.addr 47)).csr = (switch h).csr := by
    rw [Hart.set_csr, ← hh₂]
    exact hsaved.csr
  have hmem : (h₂.set .ra (P.addr 47)).mem = h₁.mem := by
    rw [Hart.set_mem, ← hh₂]
    rfl
  refine ⟨h₃, h1.trans (h2.trans (h3.trans (h4.trans h5))), hfr.framed hsaved hx hcsr hmem, ?_, ?_⟩
  · rw [hfr.sp, hfr.self, hx _ (by decide), switch_sp]
  · rw [hfr.sp, hfr.pc, hcsr, switch_sepc]

theorem ecall_returns (hcall : w.call .k_esr_ecall = k_esr_ecall printf leave)
    (hp : ∀ p, Obeys (SAVE_SPACE * REG_SIZE) (printf p)) (hl : Obeys (SAVE_SPACE * REG_SIZE) leave)
    (hc : h.csr .scause = 8) : ∃ h₁, P.Returns w h (switch h₁) ∧
      Reloaded (h.csr .sepc + 4) (kernelSp h - frameSize) (switch h) h₁ := by
  have hcode : P.Has 47 ([.op (.mv .a0 .sp), .call .k_esr_ecall] ++ [.j 128]) :=
    has_of_drop hP (by decide +kernel)
  have hrest : P.Has 177 (assemble (restoreContext .ADDITIONAL) ++ assemble switchSp ++ [.sret]) :=
    has_of_drop hP (by decide +kernel)
  obtain ⟨h₁, h1, hfr, hsp, hpc⟩ := save_runs (w := w) hP hc
  have hends : Ends w [.op (.mv .a0 .sp), .call .k_esr_ecall] h₁ (Advanced h₁) := by
    refine call_ends fun h₂ ha0 hcd => ?_
    rw [hcall]
    exact hcd.advanced (k_esr_ecall_advanced hp hl ha0)
  obtain ⟨h₂, h2, hadv⟩ := hends P 47 hcode.left
  have h3 : P.Runs w 49 h₂ 177 h₂ := .next (d := 128) hcode.right.head rfl
  obtain ⟨h₄, h4, h₃, ⟨hun, hsepc, hss⟩, rfl⟩ :=
    ((restoreAdditional_ends (w := w) h₂).seq (Q := fun h' => ∃ h₃, _ ∧ h' = switch h₃)
      fun h₃ hR => (switch_ends h₃).mono fun _ heq => ⟨h₃, hR, heq⟩) P 177 hrest.left
  refine ⟨h₃, (h1.trans (h2.trans (h3.trans h4))).returns hrest.right.head,
    hfr.restored hadv.toCalled hun (by decide) (SaveMode.covers _), ?_, ?_⟩
  · rw [hsepc, hadv.saved .sp rfl, hadv.pc, hpc]
  · rw [hss, hadv.saved .sp rfl, hadv.slot 30 (by decide), hsp]

def resumed (h : Hart) : Hart := h.setCsr .sepc (h.csr .sepc + 4)

omit hP in
theorem switch_resumed_x (h : Hart) (r : Reg) : (switch (resumed h)).x r = (switch h).x r := by
  have hss : (resumed h).csr .sscratch = h.csr .sscratch := by simp [resumed]
  unfold switch
  rw [hss]
  split
  · rfl
  · simp [swap, resumed]

def Resumes (P : Image Sym) (w : Env Sym) (h : Hart) : Prop :=
  ∃ h', P.Returns w h h' ∧ Same (resumed h) h'

structure AtEcall (h : Hart) : Prop where
  scause : h.csr .scause = 8
  sp : h.x .sp ≠ 0

theorem resumes_iff (hcall : w.call .k_esr_ecall = k_esr_ecall printf leave)
    (hp : ∀ p, Obeys (SAVE_SPACE * REG_SIZE) (printf p)) (hl : Obeys (SAVE_SPACE * REG_SIZE) leave)
    (hat : AtEcall h) (hk : h.csr .sscratch ≠ 0) :
    Resumes P w h ↔ h.x .sp = h.csr .sscratch - frameSize := by
  obtain ⟨h₁, hr, hrel⟩ := ecall_returns hP hcall hp hl hat.scause
  have hrel' : Reloaded (h.csr .sepc + 4) (kernelSp h - frameSize) (switch (resumed h)) h₁ :=
    ⟨fun r => (hrel.x r).trans (switch_resumed_x h r).symm, hrel.sepc, hrel.sscratch⟩
  have hss : (resumed h).csr .sscratch = h.csr .sscratch := by simp [resumed]
  have hpc : (resumed h).csr .sepc = h.csr .sepc + 4 := by simp [resumed]
  have huser : userSp (resumed h) = h.x .sp := by
    unfold userSp
    rw [hss, if_neg hk]
    rfl
  have hkernel : kernelSp h = h.csr .sscratch := if_neg hk
  have hiff := hrel'.same_iff (Or.inr hat.sp)
  rw [hpc, huser, hkernel] at hiff
  constructor
  · rintro ⟨h', hr', hs⟩
    rw [← hr.unique hr'] at hs
    exact (hiff.mp hs).2.symm
  · intro heq
    exact ⟨_, hr, hiff.mpr ⟨rfl, heq.symm⟩⟩

/-- The system call after this one; the user's code in between cannot reach `sscratch`. -/
def Follows (P : Image Sym) (w : Env Sym) (h h₁ : Hart) : Prop :=
  ∃ h', P.Returns w h h' ∧ h₁.csr .sscratch = h'.csr .sscratch ∧ AtEcall h₁

/-- Successive system calls return as they should exactly if the user's stack pointer is always
the address of the frame. -/
theorem ecalls_resume_iff (hcall : w.call .k_esr_ecall = k_esr_ecall printf leave)
    (hp : ∀ p, Obeys (SAVE_SPACE * REG_SIZE) (printf p)) (hl : Obeys (SAVE_SPACE * REG_SIZE) leave)
    (hat : AtEcall h) (hk : h.csr .sscratch = ksp) (hk0 : ksp ≠ 0) (hs : List Hart)
    (hchain : List.IsChain (Follows P w) (h :: hs)) :
    (∀ g ∈ h :: hs, g.csr .sscratch = ksp ∧ Resumes P w g) ↔
      ∀ g ∈ h :: hs, g.x .sp = ksp - frameSize := by
  induction hs generalizing h with
  | nil =>
    have hiff := resumes_iff hP hcall hp hl hat (hk ▸ hk0)
    rw [hk] at hiff
    simp [hk, hiff]
  | cons g hs ih =>
    have hiff := resumes_iff hP hcall hp hl hat (hk ▸ hk0)
    rw [hk] at hiff
    obtain ⟨⟨h', hr, hss, hat'⟩, hrest⟩ := List.isChain_cons_cons.mp hchain
    -- what the first call left in `sscratch` is what the second one finds
    have hnext (hres : Resumes P w h) : g.csr .sscratch = ksp := by
      obtain ⟨h'', hr', hsame⟩ := hres
      rw [← hr.unique hr'] at hsame
      rw [hss, hsame.sscratch, ← hk]
      simp [resumed]
    constructor
    · intro hall a ha
      obtain ⟨-, hres⟩ := hall h List.mem_cons_self
      rcases List.mem_cons.mp ha with rfl | ha
      · exact hiff.mp hres
      · exact (ih hat' (hnext hres) hrest).mp (fun b hb => hall b (List.mem_cons_of_mem _ hb)) a ha
    · intro hall a ha
      have hres := hiff.mpr (hall h List.mem_cons_self)
      rcases List.mem_cons.mp ha with rfl | ha
      · exact ⟨hk, hres⟩
      · exact (ih hat' (hnext hres) hrest).mpr (fun b hb => hall b (List.mem_cons_of_mem _ hb)) a ha

end Run

def exceptionImage : Image Sym :=
  ⟨0xFFFFFFC080200000, assemble k_exception_entry, by decide +kernel⟩

def silent : Env Sym where
  addr _ := 0
  call s h := if s = .k_esr_ecall then k_esr_ecall (fun _ h => h) (fun h => h) h else h

def ecallHart (usp : Word) : Hart where
  x r := if r = .sp then usp else 0
  csr c := match c with
    | .sepc => 0x4000
    | .sscratch => 0x9000
    | .scause => 8
  mem _ := 0

def ecallAgain : Hart := (resumed (ecallHart 0x8F00)).set .a0 1

theorem ecallAgain_follows : Follows exceptionImage silent (ecallHart 0x8F00) ecallAgain := by
  obtain ⟨h', hr, hsame⟩ := (resumes_iff (P := exceptionImage) (w := silent) rfl rfl
    (fun _ => Obeys.id _) (Obeys.id _) (h := ecallHart 0x8F00) ⟨rfl, by decide⟩
    (by decide)).mpr (by decide)
  exact ⟨h', hr, hsame.sscratch.symm, rfl, by decide⟩

theorem ecalls_resume_twice :
    ((ecallHart 0x8F00).csr .sscratch = 0x9000 ∧
      Resumes exceptionImage silent (ecallHart 0x8F00)) ∧
    ecallAgain.csr .sscratch = 0x9000 ∧ Resumes exceptionImage silent ecallAgain := by
  have hall := (ecalls_resume_iff rfl rfl (fun _ => Obeys.id _) (Obeys.id _) ⟨rfl, by decide⟩ rfl
    (by decide) [ecallAgain]
    (List.isChain_cons_cons.mpr ⟨ecallAgain_follows, .singleton _⟩)).mpr (by decide)
  rw [List.forall_mem_cons, List.forall_mem_singleton] at hall
  exact hall

theorem ecall_not_resumed : ¬ Resumes exceptionImage silent (ecallHart 0x7000) := by
  rw [resumes_iff rfl rfl (fun _ => Obeys.id _) (Obeys.id _) ⟨rfl, by decide⟩ (by decide)]
  decide

end Abydos.Trap
