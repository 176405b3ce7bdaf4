import Abydos.Lib.Riscv

namespace Abydos.Lib.Riscv

variable {w : Env S} {h h' : Hart}

@[simp] theorem Hart.set_x (h : Hart) (r r' : Reg) (v : Word) :
    (h.set r v).x r' = if r' = r then v else h.x r' :=
  Function.update_apply h.x r v r'

@[simp] theorem Hart.set_csr (h : Hart) (r : Reg) (v : Word) : (h.set r v).csr = h.csr := rfl

@[simp] theorem Hart.set_mem (h : Hart) (r : Reg) (v : Word) : (h.set r v).mem = h.mem := rfl

@[simp] theorem Hart.setCsr_x (h : Hart) (c : Csr) (v : Word) : (h.setCsr c v).x = h.x := rfl

@[simp] theorem Hart.setCsr_csr (h : Hart) (c c' : Csr) (v : Word) :
    (h.setCsr c v).csr c' = if c' = c then v else h.csr c' :=
  Function.update_apply h.csr c v c'

@[simp] theorem Hart.setCsr_mem (h : Hart) (c : Csr) (v : Word) : (h.setCsr c v).mem = h.mem := rfl

theorem Hart.set_set (h : Hart) (r : Reg) (v u : Word) : (h.set r v).set r u = h.set r u := by
  unfold Hart.set
  rw [Function.update_idem]

theorem Hart.set_comm (h : Hart) {r r' : Reg} (hne : r ≠ r') (v u : Word) :
    (h.set r v).set r' u = (h.set r' u).set r v := by
  unfold Hart.set
  rw [Function.update_comm hne]

theorem execs_cons (o : Op S) (os : List (Op S)) (h : Hart) :
    execs w (o :: os) h = execs w os (o.exec w h) := rfl

theorem execs_append (os os' : List (Op S)) (h : Hart) :
    execs w (os ++ os') h = execs w os' (execs w os h) := List.foldl_append

def save (off : Word) (p : Reg × Nat) : Op S := .sd p.1 (off + BitVec.ofNat 64 (8 * p.2)) .sp

def restore (p : Reg × Nat) : Op S := .ld p.1 (BitVec.ofNat 64 (8 * p.2)) .sp

structure Saved (t : List (Reg × Nat)) (fp : Word) (h h' : Hart) : Prop where
  x : h'.x = h.x
  csr : h'.csr = h.csr
  slot : ∀ p ∈ t, h'.mem.slot fp p.2 = h.x p.1
  other : ∀ k < 2 ^ 60, k ∉ t.map Prod.snd → h'.mem.slot fp k = h.mem.slot fp k

theorem execs_save {t : List (Reg × Nat)} (hlt : ∀ p ∈ t, p.2 < 2 ^ 60)
    (hnd : (t.map Prod.snd).Nodup) (off : Word) (h : Hart) :
    Saved t (h.x .sp + off) h (execs w (t.map (save off)) h) := by
  induction t generalizing h with
  | nil => exact ⟨rfl, rfl, fun p hp => absurd hp List.not_mem_nil, fun _ _ _ => rfl⟩
  | cons p t ih =>
    obtain ⟨hnot, hnd⟩ := List.nodup_cons.mp hnd
    have hp := hlt p List.mem_cons_self
    obtain ⟨hx, hcsr, hslot, hother⟩ :=
      ih (fun q hq => hlt q (List.mem_cons_of_mem _ hq)) hnd ((save off p : Op S).exec w h)
    have hsd (k : Nat) (hk : k < 2 ^ 60) : ((save off p : Op S).exec w h).mem.slot
        (h.x .sp + off) k = if k = p.2 then h.x p.1 else h.mem.slot (h.x .sp + off) k := by
      simp only [save, Op.exec]
      rw [← BitVec.add_assoc, Mem.slot_sd _ _ _ hk hp]
    refine ⟨hx, hcsr, fun q hq => ?_, fun k hk hkt => ?_⟩
    · rcases List.mem_cons.mp hq with rfl | hq
      · exact (hother _ hp hnot).trans ((hsd _ hp).trans (if_pos rfl))
      · exact hslot q hq
    · obtain ⟨hne, hkt⟩ := not_or.mp (mt List.mem_cons.mpr hkt)
      exact (hother k hk hkt).trans ((hsd k hk).trans (if_neg hne))

structure Loaded (t : List (Reg × Nat)) (h h' : Hart) : Prop where
  csr : h'.csr = h.csr
  mem : h'.mem = h.mem
  reg : ∀ p ∈ t, h'.x p.1 = h.mem.slot (h.x .sp) p.2
  other : ∀ r ∉ t.map Prod.fst, h'.x r = h.x r

theorem execs_restore {t : List (Reg × Nat)} (hsp : .sp ∉ t.map Prod.fst)
    (hnd : (t.map Prod.fst).Nodup) (h : Hart) : Loaded t h (execs w (t.map restore) h) := by
  induction t generalizing h with
  | nil => exact ⟨rfl, rfl, fun p hp => absurd hp List.not_mem_nil, fun _ _ => rfl⟩
  | cons p t ih =>
    obtain ⟨hnot, hnd⟩ := List.nodup_cons.mp hnd
    obtain ⟨hne, hsp⟩ := not_or.mp (mt List.mem_cons.mpr hsp)
    obtain ⟨hcsr, hmem, hreg, hother⟩ := ih hsp hnd ((restore p : Op S).exec w h)
    have hfp : ((restore p : Op S).exec w h).x .sp = h.x .sp :=
      (Hart.set_x _ _ _ _).trans (if_neg hne)
    refine ⟨hcsr, hmem, fun q hq => ?_, fun r hr => ?_⟩
    · rcases List.mem_cons.mp hq with rfl | hq
      · refine (hother _ hnot).trans ?_
        exact (Hart.set_x _ _ _ _).trans (if_pos rfl)
      · refine (hreg q hq).trans ?_
        rw [hfp]
        rfl
    · obtain ⟨hr1, hr2⟩ := not_or.mp (mt List.mem_cons.mpr hr)
      refine (hother r hr2).trans ?_
      exact (Hart.set_x _ _ _ _).trans (if_neg hr1)

def Reg.calleeSaved : Reg → Bool
  | .sp | .s0 | .s1 | .s2 | .s3 | .s4 | .s5 | .s6 | .s7 | .s8 | .s9 | .s10 | .s11 => true
  | _ => false

/-- A call that keeps the calling convention, leaves `sepc` and `sscratch` alone and stays below
the `n` bytes at the stack pointer. -/
structure Obeys (n : Nat) (f : Hart → Hart) : Prop where
  saved : ∀ h r, r.calleeSaved = true → (f h).x r = h.x r
  sepc : ∀ h, (f h).csr .sepc = h.csr .sepc
  sscratch : ∀ h, (f h).csr .sscratch = h.csr .sscratch
  frame : ∀ h k, k < n →
    (f h).mem (h.x .sp + BitVec.ofNat 64 k) = h.mem (h.x .sp + BitVec.ofNat 64 k)

theorem Obeys.slot {f : Hart → Hart} (hf : Obeys n f) (h : Hart) (hk : 8 * k + 8 ≤ n) :
    (f h).mem.slot (h.x .sp) k = h.mem.slot (h.x .sp) k := by
  apply Mem.ld_congr
  intro i hi
  rw [BitVec.add_assoc, ← BitVec.ofNat_add]
  exact hf.frame h (8 * k + i) (by omega)

theorem Obeys.id (n : Nat) : Obeys n fun h => h :=
  ⟨fun _ _ _ => rfl, fun _ => rfl, fun _ => rfl, fun _ _ _ => rfl⟩

end Abydos.Lib.Riscv
