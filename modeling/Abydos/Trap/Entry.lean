import Abydos.Trap.Macros

namespace Abydos.Trap

open Abydos.Lib.Riscv

variable {w : Env Sym} {h h' h'' : Hart} {mode : SaveMode} {func : Sym} {P : Image Sym}

/-- The interrupted code cannot tell the difference. -/
structure Same (h h' : Hart) : Prop where
  x : ∀ r, h'.x r = h.x r
  sepc : h'.csr .sepc = h.csr .sepc
  sscratch : h'.csr .sscratch = h.csr .sscratch

theorem Same.switch (hs : Same h h') : Same (switch h) (switch h') := by
  unfold Trap.switch
  rw [hs.sscratch]
  split
  · exact hs
  · refine ⟨fun r => ?_, ?_, ?_⟩
    · simp only [swap, Hart.set_x, Hart.setCsr_x, hs.x, hs.sscratch]
    · simp only [swap, Hart.set_csr, Hart.setCsr_csr, hs.sepc, reduceCtorEq, if_false]
    · simp only [swap, Hart.set_csr, Hart.setCsr_csr, hs.x, if_true]

theorem switch_switch_same_iff (h : Hart) :
    Same h (switch (switch h)) ↔ h.csr .sscratch = 0 ∨ h.x .sp ≠ 0 := by
  have hss : (swap h).csr .sscratch = h.x .sp := by simp [swap]
  by_cases h0 : h.csr .sscratch = 0
  · have heq : switch h = h := if_pos h0
    rw [heq, heq]
    exact ⟨fun _ => Or.inl h0, fun _ => ⟨fun _ => rfl, rfl, rfl⟩⟩
  · have heq : switch h = swap h := if_neg h0
    rw [heq]
    by_cases hsp : h.x .sp = 0
    · have heq' : switch (swap h) = swap h := if_pos (hss.trans hsp)
      rw [heq']
      constructor
      · intro hs
        exact absurd ((hs.sscratch.symm.trans hss).trans hsp) h0
      · rintro (h1 | h1)
        · exact absurd h1 h0
        · exact absurd hsp h1
    · have heq' : switch (swap h) = swap (swap h) := if_neg (fun he => hsp (hss.symm.trans he))
      rw [heq', swap_swap]
      exact ⟨fun _ => Or.inr hsp, fun _ => ⟨fun _ => rfl, rfl, rfl⟩⟩

structure Framed (t : List (Reg × Nat)) (h h' : Hart) : Prop where
  sp : h'.x .sp = h.x .sp - frameSize
  csr : h'.csr = h.csr
  slot : ∀ p ∈ t, h'.mem.slot (h.x .sp - frameSize) p.2 = h.x p.1
  saved : ∀ r, r ≠ .sp → r.calleeSaved = true → h'.x r = h.x r

def Spared (t : List (Reg × Nat)) (h h' : Hart) : Prop :=
  ∀ k < SAVE_SPACE, k ∉ t.map Prod.snd →
    h'.mem.slot (h.x .sp - frameSize) k = h.mem.slot (h.x .sp - frameSize) k

structure Layout (t : List (Reg × Nat)) : Prop where
  lt : ∀ p ∈ t, p.2 < 2 ^ 60
  slots : (t.map Prod.snd).Nodup
  regs : (t.map Prod.fst).Nodup
  sp : .sp ∉ t.map Prod.fst

theorem SaveMode.layout (mode : SaveMode) : Layout mode.regs := by
  cases mode with
  | NORMAL => exact ⟨by decide, by decide, by decide, by decide⟩
  | ADDITIONAL => exact ⟨by decide, by decide, by decide, by decide⟩

theorem Framed.recalc (hfr : Framed t h h') : Framed t h (recalcPtrs w h') := by
  refine ⟨hfr.sp, hfr.csr, hfr.slot, fun r hsp hr => ?_⟩
  unfold recalcPtrs
  rw [setPtrs_x, if_neg, if_neg]
  · exact hfr.saved r hsp hr
  · rintro rfl
    cases hr
  · rintro rfl
    cases hr

theorem openFrame_sp (h : Hart) : (openFrame.exec w h).x .sp = h.x .sp - frameSize := by
  rw [BitVec.sub_eq_add_neg]
  exact (Hart.set_x _ _ _ _).trans (if_pos rfl)

theorem openFrame_x (h : Hart) (hr : r ≠ .sp) : (openFrame.exec w h).x r = h.x r :=
  (Hart.set_x _ _ _ _).trans (if_neg hr)

theorem execs_open_x (ht : Layout t) (h : Hart) (hr : r ≠ .sp) :
    (execs w (openFrame :: t.map (save 0)) h).x r = h.x r := by
  rw [execs_cons, (execs_save ht.lt ht.slots 0 _).x, openFrame_x h hr]

theorem execs_open (ht : Layout t) (h : Hart) :
    Framed t h (execs w (openFrame :: t.map (save 0)) h) ∧
      Spared t h (execs w (openFrame :: t.map (save 0)) h) := by
  have hsaved := execs_save (w := w) ht.lt ht.slots 0 (openFrame.exec w h)
  rw [openFrame_sp, show h.x .sp - frameSize + 0 = _ from BitVec.add_zero _] at hsaved
  refine ⟨⟨(congrFun hsaved.x _).trans (openFrame_sp h), hsaved.csr, fun p hp => ?_,
    fun r hr _ => execs_open_x ht h hr⟩, ?_⟩
  · refine (hsaved.slot p hp).trans (openFrame_x h ?_)
    rintro heq
    exact ht.sp (heq ▸ List.mem_map_of_mem hp)
  · exact fun k hk hkt => hsaved.other k (Nat.lt_trans hk (by decide)) hkt

theorem saveContext_ends (mode : SaveMode) (h : Hart) : Ends w (assemble (saveContext mode)) h
    fun h' => Framed mode.regs h h' ∧ Spared mode.regs h h' := by
  unfold saveContext ops
  rw [assemble_append (closed_op _), assemble_op]
  refine Ends.seq (R := fun h' => Framed mode.regs h h' ∧ Spared mode.regs h h')
    (.ops (execs_open mode.layout h)) fun h' hfr => ?_
  refine (recalcPtrs_ends h').mono ?_
  rintro _ rfl
  exact ⟨hfr.1.recalc, hfr.2⟩

structure Called (n : Nat) (h h' : Hart) : Prop where
  saved : ∀ r, r.calleeSaved = true → h'.x r = h.x r
  sepc : h'.csr .sepc = h.csr .sepc
  sscratch : h'.csr .sscratch = h.csr .sscratch
  slot : ∀ k < n, h'.mem.slot (h.x .sp) k = h.mem.slot (h.x .sp) k

theorem Obeys.called {f : Hart → Hart} (hf : Obeys (SAVE_SPACE * REG_SIZE) f) (h : Hart) :
    Called SAVE_SPACE h (f h) :=
  ⟨hf.saved h, hf.sepc h, hf.sscratch h, fun k hk => hf.slot h (by
    unfold SAVE_SPACE at hk
    unfold SAVE_SPACE REG_SIZE
    omega)⟩

theorem Called.trans (h1 : Called n h h') (h2 : Called n h' h'') : Called n h h'' := by
  refine ⟨fun r hr => (h2.saved r hr).trans (h1.saved r hr), h2.sepc.trans h1.sepc,
    h2.sscratch.trans h1.sscratch, fun k hk => ?_⟩
  have h3 := h2.slot k hk
  rw [h1.saved .sp rfl] at h3
  exact h3.trans (h1.slot k hk)

theorem Called.set (h : Hart) (hr : r.calleeSaved = false) (v : Word) : Called n h (h.set r v) := by
  refine ⟨fun r' hr' => ?_, rfl, rfl, fun _ _ => rfl⟩
  rw [Hart.set_x, if_neg]
  rintro rfl
  cases hr.symm.trans hr'

theorem call_ends {Q : Hart → Prop}
    (hf : ∀ h₁, h₁.x .a0 = h₁.x .sp → Called SAVE_SPACE h h₁ → Q (w.call func h₁)) :
    Ends w [.op (.mv .a0 .sp), .call func] h Q := by
  change Ends w ([.op (.mv .a0 .sp)] ++ [.call func]) h Q
  refine Ends.seq (R := (· = h.set .a0 (h.x .sp))) (Ends.op rfl) ?_
  rintro _ rfl
  refine Ends.call fun a => hf _ ?_ ((Called.set h rfl _).trans (Called.set _ rfl a))
  simp

theorem call_obeys (hf : Obeys (SAVE_SPACE * REG_SIZE) (w.call func)) (h : Hart) :
    Ends w [.op (.mv .a0 .sp), .call func] h (Called SAVE_SPACE h) :=
  call_ends fun h₁ _ hc => hc.trans (Obeys.called hf h₁)

structure Unframed (t : List (Reg × Nat)) (h h' : Hart) : Prop where
  sp : h'.x .sp = h.x .sp + frameSize
  slot : ∀ p ∈ t, h'.x p.1 = h.mem.slot (h.x .sp) p.2
  reg : ∀ r ∉ t.map Prod.fst, r ≠ .sp → h'.x r = h.x r

theorem execs_close (ht : Layout t) (h : Hart) :
    Unframed t h (execs w (t.map restore ++ [closeFrame]) h) ∧
      (execs w (t.map restore ++ [closeFrame]) h).csr = h.csr := by
  obtain ⟨hcsr, -, hreg, hother⟩ := execs_restore (w := w) ht.sp ht.regs h
  rw [execs_append]
  have hset (r : Reg) (hr : r ≠ .sp) : (execs w [closeFrame] (execs w (t.map restore) h)).x r =
      (execs w (t.map restore) h).x r := (Hart.set_x _ _ _ _).trans (if_neg hr)
  refine ⟨⟨?_, fun p hp => ?_, fun r hr hsp => ?_⟩, hcsr⟩
  · refine (Hart.set_x _ _ _ _).trans ((if_pos rfl).trans ?_)
    rw [hother _ ht.sp]
  · refine (hset _ ?_).trans (hreg p hp)
    intro heq
    exact ht.sp (heq ▸ List.mem_map_of_mem hp)
  · exact (hset r hsp).trans (hother r hr)

theorem restoreNormal_ends (h : Hart) : Ends w (assemble (restoreContext .NORMAL)) h
    fun h' => Unframed SaveMode.NORMAL.regs h h' ∧ h'.csr = h.csr := by
  have heq : assemble (restoreContext .NORMAL) =
      (SaveMode.NORMAL.regs.map restore ++ [closeFrame]).map Instr.op := rfl
  rw [heq]
  exact .ops (execs_close SaveMode.NORMAL.layout h)

theorem restoreAdditional_ends (h : Hart) : Ends w (assemble (restoreContext .ADDITIONAL)) h
    fun h' => Unframed SaveMode.ADDITIONAL.regs h h' ∧
      h'.csr .sepc = h.mem.slot (h.x .sp) 31 ∧ h'.csr .sscratch = h.mem.slot (h.x .sp) 30 := by
  let head : List (Op Sym) :=
    [restore (.tp, 31), .csrw .sepc .tp, restore (.tp, 30), .csrw .sscratch .tp]
  have heq : assemble (restoreContext .ADDITIONAL) =
      head.map Instr.op ++ (SaveMode.ADDITIONAL.regs.map restore ++ [closeFrame]).map Instr.op :=
    rfl
  rw [heq]
  refine Ends.seq (R := (· = execs w head h)) (.ops rfl) ?_
  rintro _ rfl
  obtain ⟨hun, hcsr⟩ := execs_close (w := w) SaveMode.ADDITIONAL.layout (execs w head h)
  have hx (r : Reg) (hr : r ≠ .tp) : (execs w head h).x r = h.x r := by
    simp [head, execs, Op.exec, restore, hr]
  have hmem : (execs w head h).mem = h.mem := rfl
  refine .ops ⟨⟨?_, fun p hp => ?_, fun r hr hsp => ?_⟩, ?_, ?_⟩
  · rw [hun.sp, hx _ (by decide)]
  · rw [hun.slot p hp, hmem, hx _ (by decide)]
  · rw [hun.reg r hr hsp, hx]
    rintro rfl
    exact hr (by decide)
  · rw [hcsr]
    simp [head, execs, Op.exec, restore, Mem.slot]
  · rw [hcsr]
    simp [head, execs, Op.exec, restore, Mem.slot]

theorem Framed.restored {h₁ h₂ h₃ : Hart} (h1 : Framed t h h₁) (h2 : Called n h₁ h₂)
    (h3 : Unframed t h₂ h₃) (hlt : ∀ p ∈ t, p.2 < n)
    (hall : ∀ r, r = .sp ∨ r ∈ t.map Prod.fst ∨ r.calleeSaved = true) (r : Reg) :
    h₃.x r = h.x r := by
  have hsp : h₂.x .sp = h.x .sp - frameSize := (h2.saved .sp rfl).trans h1.sp
  by_cases hr : r = .sp
  · rw [hr, h3.sp, hsp, BitVec.sub_add_cancel]
  by_cases hmem : r ∈ t.map Prod.fst
  · obtain ⟨p, hp, rfl⟩ := List.mem_map.mp hmem
    have hslot := h2.slot p.2 (hlt p hp)
    rw [h1.sp, h1.slot p hp] at hslot
    rw [h3.slot p hp, hsp, hslot]
  · have hsaved : r.calleeSaved = true := (hall r).resolve_left hr |>.resolve_left hmem
    rw [h3.reg r hmem hr, h2.saved r hsaved, h1.saved r hr hsaved]

theorem SaveMode.slot_lt (mode : SaveMode) : ∀ p ∈ mode.regs, p.2 < SAVE_SPACE := by
  cases mode <;> decide

theorem SaveMode.covers (mode : SaveMode) (r : Reg) :
    r = .sp ∨ r ∈ mode.regs.map Prod.fst ∨ r.calleeSaved = true := by
  cases mode <;> cases r <;> decide

def isrBody (mode : SaveMode) (func : Sym) : List (Instr Sym) :=
  assemble (saveContext mode) ++
    ([.op (.mv .a0 .sp), .call func] ++ assemble (restoreContext mode))

theorem isrEntry_ends {R : Hart → Prop} (hb : Ends w (isrBody mode func) (switch h) R) :
    Ends w (assemble switchSp ++ (isrBody mode func ++ assemble switchSp)) h
      fun h' => ∃ h₁, R h₁ ∧ h' = switch h₁ := by
  refine Ends.seq (switch_ends h) ?_
  rintro _ rfl
  refine Ends.seq hb fun h₁ hR => ?_
  refine (switch_ends h₁).mono ?_
  rintro _ rfl
  exact ⟨h₁, hR, rfl⟩

theorem closed_saveContext (mode : SaveMode) : closed (saveContext mode) = true := by
  cases mode <;> decide +kernel

theorem closed_restoreContext (mode : SaveMode) : closed (restoreContext mode) = true := by
  cases mode <;> decide +kernel

theorem assemble_isrEntry (mode : SaveMode) (func : Sym) : assemble (isrEntryImpl mode func) =
    assemble switchSp ++ (isrBody mode func ++ assemble switchSp) ++ [.sret] := by
  unfold isrEntryImpl isrBody
  simp only [List.append_assoc]
  rw [assemble_append (by decide), assemble_append (closed_saveContext mode),
    assemble_append rfl, assemble_append (closed_restoreContext mode),
    assemble_append (by decide)]
  rfl

theorem isrEntry_returns {R : Hart → Prop} (hP : P.code = assemble (isrEntryImpl mode func))
    (hb : Ends w (isrBody mode func) (switch h) R) :
    ∃ h₁, R h₁ ∧ P.Returns w h (switch h₁) := by
  have hc : P.Has 0 (assemble switchSp ++ (isrBody mode func ++ assemble switchSp) ++ [.sret]) := by
    rw [← assemble_isrEntry, ← hP]
    exact List.prefix_rfl
  obtain ⟨h', hr, h₁, hR, rfl⟩ := (isrEntry_ends hb).returns hc
  exact ⟨h₁, hR, hr⟩

theorem normalBody_ends (hf : Obeys (SAVE_SPACE * REG_SIZE) (w.call func)) (h : Hart) :
    Ends w (isrBody .NORMAL func) h (Same h) := by
  refine Ends.seq (saveContext_ends .NORMAL h) fun h₁ ⟨h1, _⟩ => ?_
  refine Ends.seq (call_obeys hf h₁) fun h₂ h2 => ?_
  refine (restoreNormal_ends h₂).mono ?_
  rintro h₃ ⟨h3, hcsr⟩
  refine ⟨h1.restored h2 h3 (SaveMode.slot_lt _) (SaveMode.covers _), ?_, ?_⟩
  · rw [hcsr, h2.sepc, h1.csr]
  · rw [hcsr, h2.sscratch, h1.csr]

theorem same_iff_of_returns (hr : P.Returns w h h') :
    (∃ h'', P.Returns w h h'' ∧ Same h h'') ↔ Same h h' := by
  constructor
  · rintro ⟨h'', hr', hs⟩
    exact hr.unique hr' ▸ hs
  · exact fun hs => ⟨h', hr, hs⟩

theorem Same.trans (h1 : Same h h') (h2 : Same h' h'') : Same h h'' :=
  ⟨fun r => (h2.x r).trans (h1.x r), h2.sepc.trans h1.sepc, h2.sscratch.trans h1.sscratch⟩

theorem Same.symm (hs : Same h h') : Same h' h :=
  ⟨fun r => (hs.x r).symm, hs.sepc.symm, hs.sscratch.symm⟩

theorem normal_returns (hP : P.code = assemble (isrEntryImpl .NORMAL func))
    (hf : Obeys (SAVE_SPACE * REG_SIZE) (w.call func)) (h : Hart) :
    ∃ h', P.Returns w h h' ∧ Same (switch (switch h)) h' := by
  obtain ⟨h₁, hs, hr⟩ := isrEntry_returns hP (normalBody_ends hf (switch h))
  exact ⟨_, hr, hs.switch⟩

/-- An interrupt through a `NORMAL` entry is invisible exactly if it does not come from U-mode with
a stack pointer of zero. -/
theorem normal_transparent_iff
    (he : (entry, func) ∈ [(k_softirq_entry, Sym.k_isr_softirq), (k_extirq_entry, .k_isr_extirq)])
    (hP : P.code = assemble entry) (hf : Obeys (SAVE_SPACE * REG_SIZE) (w.call func)) (h : Hart) :
    (∃ h', P.Returns w h h' ∧ Same h h') ↔ h.csr .sscratch = 0 ∨ h.x .sp ≠ 0 := by
  have hentry : entry = isrEntryImpl .NORMAL func := by
    rcases List.mem_cons.mp he with he | he
    · cases he
      rfl
    · cases List.mem_singleton.mp he
      rfl
  rw [hentry] at hP
  obtain ⟨h', hr, hs⟩ := normal_returns hP hf h
  rw [same_iff_of_returns hr, ← switch_switch_same_iff]
  exact ⟨fun hs' => hs'.trans hs.symm, fun hs' => hs'.trans hs⟩

def idle : Env Sym := ⟨fun _ => 0, fun _ h => h⟩

def softirqImage : Image Sym := ⟨0xFFFFFFC080200000, assemble k_softirq_entry, by decide⟩

def userHart (usp ksp : Word) : Hart where
  x r := if r = .sp then usp else 0
  csr c := if c = .sscratch then ksp else 0
  mem _ := 0

theorem normal_transparent_user :
    ∃ h', softirqImage.Returns idle (userHart 0x7000 0x9000) h' ∧
      Same (userHart 0x7000 0x9000) h' :=
  (normal_transparent_iff List.mem_cons_self rfl (Obeys.id _) _).mpr (Or.inr (by decide))

theorem normal_not_transparent :
    ¬ ∃ h', softirqImage.Returns idle (userHart 0 0x9000) h' ∧ Same (userHart 0 0x9000) h' := by
  obtain ⟨h', hr, hs⟩ :=
    normal_returns (w := idle) (P := softirqImage) rfl (Obeys.id _) (userHart 0 0x9000)
  rw [same_iff_of_returns hr]
  intro hs'
  exact absurd ((switch_switch_same_iff _).mp (hs'.trans hs.symm)) (by decide)

end Abydos.Trap
