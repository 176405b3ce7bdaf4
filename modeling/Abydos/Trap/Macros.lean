import Abydos.Trap.Isr

namespace Abydos.Trap

open Abydos.Lib.Riscv

variable {w : Env Sym} {h h' : Hart} {mode : SaveMode}

def swap (h : Hart) : Hart := (h.setCsr .sscratch (h.x .sp)).set .sp (h.csr .sscratch)

def switch (h : Hart) : Hart := if h.csr .sscratch = 0 then h else swap h

theorem swap_swap (h : Hart) : swap (swap h) = h := by
  unfold swap
  ext r
  · by_cases hr : r = .sp <;> simp [hr]
  · by_cases hr : r = .sscratch <;> simp [hr]
  · simp

theorem switch_ends (h : Hart) : Ends w (assemble switchSp) h (· = switch h) := by
  have heq : assemble switchSp =
      [Instr.op (.csrrw .sp .sscratch .sp)] ++ [.bnez .sp 2, .op (.csrrw .sp .sscratch .sp)] := rfl
  have hsp : (swap h).x .sp = h.csr .sscratch := by simp [swap]
  rw [heq]
  refine Ends.seq (R := (· = swap h)) (Ends.op rfl) ?_
  rintro _ rfl
  refine (Ends.bnez_skip _ _ _).mono ?_
  rintro _ rfl
  rw [hsp]
  unfold switch
  by_cases h0 : h.csr .sscratch = 0
  · rw [if_pos h0, if_neg (not_not.mpr h0)]
    exact swap_swap h
  · rw [if_neg h0, if_pos h0]

def stackTop (sp : Word) : Word :=
  (if stackMask &&& sp = 0 then sp.sshiftRight K_CONFIG_STACK_SIZE_N
    else sp.sshiftRight K_CONFIG_STACK_SIZE_N + 1) <<< K_CONFIG_STACK_SIZE_N

def setPtrs (h : Hart) (tp gp : Word) : Hart := (h.set .tp tp).set .gp gp

theorem setPtrs_tp (h : Hart) (v u v' : Word) : (setPtrs h v u).set .tp v' = setPtrs h v' u := by
  unfold setPtrs
  rw [Hart.set_comm _ (by decide), Hart.set_set]

theorem setPtrs_gp (h : Hart) (v u u' : Word) : (setPtrs h v u).set .gp u' = setPtrs h v u' :=
  Hart.set_set _ _ _ _

theorem set_gp (h : Hart) (u : Word) : h.set .gp u = setPtrs h (h.x .tp) u := by
  unfold setPtrs Hart.set
  rw [Function.update_eq_self]

theorem setPtrs_x (h : Hart) (v u : Word) (r : Reg) :
    (setPtrs h v u).x r = if r = .gp then u else if r = .tp then v else h.x r := by
  unfold setPtrs
  rw [Hart.set_x, Hart.set_x]

def recalcPtrs (w : Env Sym) (h : Hart) : Hart :=
  setPtrs h (stackTop (h.x .sp) - w.addr ._tls_len) (w.addr .__global_pointer)

theorem recalcPtrs_ends (h : Hart) :
    Ends w (assemble saveRecalcPtrs) h (· = recalcPtrs w h) := by
  let head : List (Op Sym) :=
    [.mv .tp .sp, .li .gp stackMask, .and .gp .gp .sp, .srai .tp .tp K_CONFIG_STACK_SIZE_N]
  let rest : List (Op Sym) :=
    [.slli .tp .tp K_CONFIG_STACK_SIZE_N, .la .gp ._tls_len, .sub .tp .tp .gp,
      .la .gp .__global_pointer]
  have heq : assemble saveRecalcPtrs = head.map Instr.op ++
      ([.beqz .gp 2, .op (.addi .tp .tp 1)] ++ rest.map Instr.op) := rfl
  let n := (h.x .sp).sshiftRight K_CONFIG_STACK_SIZE_N
  have hhead : execs w head h = setPtrs h n (stackMask &&& h.x .sp) := by
    simp only [head, execs, List.foldl_cons, List.foldl_nil, Op.exec]
    change (((setPtrs h (h.x .sp) stackMask).set .gp _).set .tp _) = _
    rw [setPtrs_gp, setPtrs_tp]
    rfl
  have hrest (v u : Word) : execs w rest (setPtrs h v u) =
      setPtrs h (v <<< K_CONFIG_STACK_SIZE_N - w.addr ._tls_len) (w.addr .__global_pointer) := by
    simp only [rest, execs, List.foldl_cons, List.foldl_nil, Op.exec, setPtrs_gp, setPtrs_tp,
      setPtrs_x, reduceCtorEq, if_true, if_false]
  rw [heq]
  refine Ends.seq (R := (· = setPtrs h n (stackMask &&& h.x .sp))) (Ends.ops hhead) ?_
  rintro _ rfl
  refine Ends.seq (Ends.beqz_skip _ _ _) ?_
  rintro _ rfl
  apply Ends.ops
  unfold recalcPtrs stackTop
  simp only [setPtrs_x, if_true]
  split
  · exact hrest _ _
  · simp only [Op.exec, setPtrs_tp, setPtrs_x, reduceCtorEq, if_true, if_false]
    exact hrest _ _

end Abydos.Trap
