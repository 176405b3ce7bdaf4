import Abydos.Defs
import Abydos.Lib.Frame

/-! The trap entries of `k_isr.cpp`, line by line.  Every instruction takes four bytes, so that an
entry of the jump table takes sixteen, as its comment says. -/

namespace Abydos.Trap

open Abydos.Lib.Riscv

inductive Sym
  | k_isr_softirq | k_isr_timer | k_isr_extirq
  | k_other_exception | k_esr_break | k_esr_ecall
  | _start_hang | _tls_len | __global_pointer
  deriving DecidableEq, Repr

abbrev Asm := List (Line Sym)

def ops (os : List (Op Sym)) : Asm := os.map fun o => .ins (.op o)

def K_CONFIG_STACK_SIZE : Nat := 2 ^ K_CONFIG_STACK_SIZE_N
def K_CONFIG_KERNEL_STACK_SIZE : Nat := K_CONFIG_MAX_PROCESSORS * K_CONFIG_STACK_SIZE

def REG_SIZE : Nat := 8
def SAVE_SPACE : Nat := 32

def frameSize : Word := BitVec.ofNat 64 (SAVE_SPACE * REG_SIZE)

def switchSp : Asm :=
  [.ins (.op (.csrrw .sp .sscratch .sp)),
   -- zero was in `sscratch`: the trap is from S-mode
   .ins (.bnez .sp 1),
   .ins (.op (.csrrw .sp .sscratch .sp)),
   .label 1]

def linkRegs : List (Reg × Nat) := [(.ra, 0), (.gp, 1), (.tp, 2)]

def normalRegs : List (Reg × Nat) :=
  [(.t0, 3), (.t1, 4), (.t2, 5), (.t3, 6), (.t4, 7), (.t5, 8), (.t6, 9),
   (.a0, 10), (.a1, 11), (.a2, 12), (.a3, 13), (.a4, 14), (.a5, 15), (.a6, 16), (.a7, 17)]

def additionalRegs : List (Reg × Nat) :=
  [(.s0, 18), (.s1, 19), (.s2, 20), (.s3, 21), (.s4, 22), (.s5, 23), (.s6, 24), (.s7, 25),
   (.s8, 26), (.s9, 27), (.s10, 28), (.s11, 29)]

def openFrame : Op Sym := .addi .sp .sp (-frameSize)

def closeFrame : Op Sym := .addi .sp .sp frameSize

def stackMask : Word := BitVec.ofNat 64 (K_CONFIG_KERNEL_STACK_SIZE - 1)

def saveRecalcPtrs : Asm :=
  ops [.mv .tp .sp,
    .li .gp stackMask,
    .and .gp .gp .sp,
    .srai .tp .tp K_CONFIG_STACK_SIZE_N] ++
  [.ins (.beqz .gp 1), .ins (.op (.addi .tp .tp 1)), .label 1] ++
  ops [.slli .tp .tp K_CONFIG_STACK_SIZE_N,
    .la .gp ._tls_len,
    .sub .tp .tp .gp,
    .la .gp .__global_pointer]

inductive SaveMode
  | NORMAL | ADDITIONAL

def SaveMode.regs : SaveMode → List (Reg × Nat)
  | .NORMAL => linkRegs ++ normalRegs
  | .ADDITIONAL => linkRegs ++ normalRegs ++ additionalRegs

def saveContext (mode : SaveMode) : Asm :=
  ops (openFrame :: mode.regs.map (save 0)) ++ saveRecalcPtrs

/-- `ADDITIONAL` also takes `sepc` from slot 31 and `sscratch` from slot 30. -/
def restoreContext : SaveMode → Asm
  | .NORMAL => ops (SaveMode.NORMAL.regs.map restore ++ [closeFrame])
  | .ADDITIONAL =>
    ops ([restore (.tp, 31), .csrw .sepc .tp, restore (.tp, 30), .csrw .sscratch .tp] ++
      SaveMode.ADDITIONAL.regs.map restore ++ [closeFrame])

def isrEntryImpl (mode : SaveMode) (func : Sym) : Asm :=
  switchSp ++ saveContext mode ++ [.ins (.op (.mv .a0 .sp)), .ins (.call func)] ++
    restoreContext mode ++ switchSp ++ [.ins .sret]

def k_softirq_entry : Asm := isrEntryImpl .NORMAL .k_isr_softirq
def k_timer_entry : Asm := isrEntryImpl .ADDITIONAL .k_isr_timer
def k_extirq_entry : Asm := isrEntryImpl .NORMAL .k_isr_extirq

def excJumpHelper (func : Sym) : Asm :=
  [.ins (.jal 4), .ins (.op (.mv .a0 .sp)), .ins (.call func), .ins (.j 10)]

def excJumpHelper2 (func : Sym) : Asm :=
  [.ins (.jal 5), .ins (.op (.mv .a0 .sp)), .ins (.call func), .ins (.j 11)]

def excEarly (op : Reg → Word → Reg → Op Sym) : Asm :=
  ops [op .ra (-BitVec.ofNat 64 ((SAVE_SPACE - 0) * REG_SIZE)) .sp,
    op .gp (-BitVec.ofNat 64 ((SAVE_SPACE - 1) * REG_SIZE)) .sp,
    op .tp (-BitVec.ofNat 64 ((SAVE_SPACE - 2) * REG_SIZE)) .sp]

def excDispatch : Asm :=
  [.ins (.op (.csrr .gp .scause)),
   -- an interrupt
   .ins (.bltz .gp 3),
   .ins (.op (.li .tp 16)),
   .ins (.bge .gp .tp 2),
   .ins (.lla .tp 1),
   .ins (.op (.slli .gp .gp 4)),
   .ins (.op (.add .tp .tp .gp)),
   .ins (.jr .tp)]

def excTable : Asm :=
  [.label 1] ++
  excJumpHelper .k_other_exception ++ excJumpHelper .k_other_exception ++
  excJumpHelper .k_other_exception ++ excJumpHelper .k_esr_break ++
  excJumpHelper .k_other_exception ++ excJumpHelper .k_other_exception ++
  excJumpHelper .k_other_exception ++ excJumpHelper .k_other_exception ++
  excJumpHelper2 .k_esr_ecall ++ excJumpHelper .k_other_exception ++
  excJumpHelper .k_other_exception ++ excJumpHelper .k_other_exception ++
  excJumpHelper .k_other_exception ++ excJumpHelper .k_other_exception ++
  excJumpHelper .k_other_exception ++ excJumpHelper .k_other_exception

def excNoHandler : Asm :=
  [.label 2, .label 3] ++ excEarly .ld ++ switchSp ++ [.ins (.tail ._start_hang)]

def excSave : Asm :=
  [.label 4] ++ ops (openFrame :: normalRegs.map (save 0)) ++ saveRecalcPtrs ++ [.ins .ret]

def excSaveFull : Asm :=
  [.label 5] ++ ops (openFrame :: (normalRegs ++ additionalRegs).map (save 0)) ++
  ops [save 0 (.sp, 30), .csrr .tp .sepc, save 0 (.tp, 31)] ++ saveRecalcPtrs ++ [.ins .ret]

def k_exception_entry : Asm :=
  switchSp ++ excEarly .sd ++ excDispatch ++ excTable ++ excNoHandler ++ excSave ++ excSaveFull ++
  [.label 10] ++ restoreContext .NORMAL ++ switchSp ++ [.ins .sret] ++
  [.label 11] ++ restoreContext .ADDITIONAL ++ switchSp ++ [.ins .sret]

def SYSCALL_PRINTF : Word := 0xFF

inductive Print
  | ecall (sepc : Word)
  | umode
  | user (fmt x y z : Word)

def syscallPrintf (printf : Print → Hart → Hart) (uctx : Word) (h : Hart) : Hart :=
  if h.mem.slot uctx 10 = SYSCALL_PRINTF then
    let h := printf .umode h
    printf (.user (h.mem.slot uctx 11) (h.mem.slot uctx 12) (h.mem.slot uctx 13)
      (h.mem.slot uctx 14)) h
  else h

/-- `k_esr_ecall`, with `printf` and what the compiled code does to registers and stack of its own
left open. -/
def k_esr_ecall (printf : Print → Hart → Hart) (leave : Hart → Hart) (h : Hart) : Hart :=
  let uctx := h.x .a0
  let h := syscallPrintf printf uctx (printf (.ecall (h.csr .sepc)) h)
  leave { h with mem := h.mem.sd (uctx + BitVec.ofNat 64 (8 * 31)) (h.mem.slot uctx 31 + 4) }

end Abydos.Trap
