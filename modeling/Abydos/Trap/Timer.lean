import Abydos.Trap.Entry

namespace Abydos.Trap

open Abydos.Lib.Riscv

variable {w : Env Sym} {h h' h₁ : Hart} {func : Sym} {P : Image Sym}

def kernelSp (h : Hart) : Word := if h.csr .sscratch = 0 then h.x .sp else h.csr .sscratch

def userSp (h : Hart) : Word := if h.csr .sscratch = 0 then 0 else h.x .sp

theorem switch_sp (h : Hart) : (switch h).x .sp = kernelSp h := by
  unfold switch kernelSp
  split
  · rfl
  · simp [swap]

theorem switch_sscratch (h : Hart) : (switch h).csr .sscratch = userSp h := by
  unfold switch userSp
  split
  · next h0 => exact h0
  · simp [swap]

theorem switch_sepc (h : Hart) : (switch h).csr .sepc = h.csr .sepc := by
  unfold switch
  split
  · rfl
  · simp [swap]

theorem switch_mem (h : Hart) : (switch h).mem = h.mem := by
  unfold switch
  split <;> rfl

structure Reloaded (pc sp : Word) (h h' : Hart) : Prop where
  x : ∀ r, h'.x r = h.x r
  sepc : h'.csr .sepc = pc
  sscratch : h'.csr .sscratch = sp

theorem Reloaded.same_iff (hr : Reloaded pc sp (switch h) h')
    (hsp : h.csr .sscratch = 0 ∨ h.x .sp ≠ 0) :
    Same h (switch h') ↔ pc = h.csr .sepc ∧ sp = userSp h := by
  constructor
  · intro hs
    refine ⟨?_, ?_⟩
    · rw [← hs.sepc, switch_sepc, hr.sepc]
    · have h1 := hs.x .sp
      have h2 := hs.sscratch
      rw [switch_sp] at h1
      rw [switch_sscratch] at h2
      unfold kernelSp at h1
      unfold userSp at h2 ⊢
      rw [hr.sscratch, hr.x, switch_sp] at h1 h2
      unfold kernelSp at h1 h2
      grind
  · rintro ⟨hpc, hss⟩
    have hsame : Same (switch h) h' :=
      ⟨hr.x, by rw [hr.sepc, switch_sepc, hpc], by rw [hr.sscratch, switch_sscratch, hss]⟩
    exact ((switch_switch_same_iff h).mpr hsp).trans hsame.switch

theorem slot_eq_ld (m : Mem) (k : Word) (n : Nat) (hn : n < SAVE_SPACE) :
    m.slot (k - frameSize) n = m.ld (k - BitVec.ofNat 64 (REG_SIZE * (SAVE_SPACE - n))) := by
  unfold Mem.slot
  congr 1
  apply BitVec.eq_of_toNat_eq
  have := k.isLt
  unfold SAVE_SPACE at hn
  unfold frameSize SAVE_SPACE REG_SIZE
  simp only [BitVec.toNat_add, BitVec.toNat_sub, BitVec.toNat_ofNat]
  omega

theorem additionalBody_ends (hf : Obeys (SAVE_SPACE * REG_SIZE) (w.call func)) (h : Hart) :
    Ends w (isrBody .ADDITIONAL func) h
      (Reloaded (h.mem.ld (h.x .sp - 8)) (h.mem.ld (h.x .sp - 16)) h) := by
  refine Ends.seq (saveContext_ends .ADDITIONAL h) fun h₁ ⟨h1, hsp₁⟩ => ?_
  refine Ends.seq (call_obeys hf h₁) fun h₂ h2 => ?_
  refine (restoreAdditional_ends h₂).mono ?_
  rintro h₃ ⟨h3, hpc, hsp⟩
  have hslot (n : Nat) (hn : n < SAVE_SPACE) (hnot : n ∉ SaveMode.ADDITIONAL.regs.map Prod.snd) :
      h₂.mem.slot (h₂.x .sp) n =
        h.mem.ld (h.x .sp - BitVec.ofNat 64 (REG_SIZE * (SAVE_SPACE - n))) := by
    rw [h2.saved .sp rfl, h2.slot n hn, h1.sp, hsp₁ n hn hnot, slot_eq_ld _ _ _ hn]
  refine ⟨h1.restored h2 h3 (SaveMode.slot_lt _) (SaveMode.covers _), ?_, ?_⟩
  · rw [hpc, hslot 31 (by decide) (by decide)]
    rfl
  · rw [hsp, hslot 30 (by decide) (by decide)]
    rfl

theorem timer_returns (hP : P.code = assemble k_timer_entry)
    (hf : Obeys (SAVE_SPACE * REG_SIZE) (w.call .k_isr_timer)) (h : Hart) :
    ∃ h₁, P.Returns w h (switch h₁) ∧
      Reloaded (h.mem.ld (kernelSp h - 8)) (h.mem.ld (kernelSp h - 16)) (switch h) h₁ := by
  obtain ⟨h₁, hrel, hr⟩ := isrEntry_returns hP (additionalBody_ends hf (switch h))
  rw [switch_mem, switch_sp] at hrel
  exact ⟨h₁, hr, hrel⟩

/-- A timer interrupt is invisible exactly if the stale words that the entry takes for the saved
`sepc` and `sscratch` happen to hold them. -/
theorem timer_transparent_iff (hP : P.code = assemble k_timer_entry)
    (hf : Obeys (SAVE_SPACE * REG_SIZE) (w.call .k_isr_timer)) (h : Hart)
    (hsp : h.csr .sscratch = 0 ∨ h.x .sp ≠ 0) :
    (∃ h', P.Returns w h h' ∧ Same h h') ↔
      h.mem.ld (kernelSp h - 8) = h.csr .sepc ∧ h.mem.ld (kernelSp h - 16) = userSp h := by
  obtain ⟨h₁, hr, hrel⟩ := timer_returns hP hf h
  rw [same_iff_of_returns hr, hrel.same_iff hsp]

def timerImage : Image Sym := ⟨0xFFFFFFC080200000, assemble k_timer_entry, by decide +kernel⟩

def luckyHart : Hart where
  x r := if r = .sp then 0x7000 else 0
  csr c := match c with
    | .sepc => 0x4000
    | .sscratch => 0x9000
    | .scause => 0
  mem := (Mem.sd (fun _ => 0) (0x9000 - 8) 0x4000).sd (0x9000 - 16) 0x7000

theorem timer_transparent_lucky :
    ∃ h', timerImage.Returns idle luckyHart h' ∧ Same luckyHart h' :=
  (timer_transparent_iff rfl (Obeys.id _) luckyHart (Or.inr (by decide))).mpr (by decide +kernel)

theorem timer_not_transparent :
    ¬ ∃ h', timerImage.Returns idle (userHart 0x7000 0x9000) h' ∧
      Same (userHart 0x7000 0x9000) h' := by
  obtain ⟨h₁, hr, hrel⟩ :=
    timer_returns (w := idle) (P := timerImage) rfl (Obeys.id _) (userHart 0x7000 0x9000)
  rw [same_iff_of_returns hr, hrel.same_iff (Or.inr (by decide))]
  decide +kernel

end Abydos.Trap
