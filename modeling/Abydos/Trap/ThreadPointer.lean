import Abydos.Boot.Stacks
import Abydos.Lib.Word
import Abydos.Trap.Macros

namespace Abydos.Trap

open Abydos.Lib Abydos.Lib.Riscv

inductive TlsSym
  | _tbss_start | _tbss_end | _tdata_start | _tdata_end
  deriving DecidableEq

/-- What the linker makes of `.tbss` and `.tdata`.  There are variables without an initial value, and
the image does not reach up to the end of the addresses. -/
structure TlsLayout where
  addr : TlsSym → Word
  tbss : (addr ._tbss_start).toInt < (addr ._tbss_end).toInt
  tdata : (addr ._tdata_start).toInt ≤ (addr ._tdata_end).toInt
  room : ∀ s, (addr s).toInt + 8 < 2 ^ 63

namespace TlsLayout

variable (L : TlsLayout)

def tbssLen : Word := L.addr ._tbss_end - L.addr ._tbss_start

def tdataLen : Word := L.addr ._tdata_end - L.addr ._tdata_start

def _tls_len : Word := L.tbssLen + L.tdataLen

def env : Env TlsSym := ⟨L.addr, fun _ h => h⟩

end TlsLayout

def loopLt (rs rt : Reg) (body : Hart → Hart) : Nat → Hart → Option Hart
  | 0, _ => none
  | fuel + 1, h =>
    if ((body h).x rs).slt ((body h).x rt) then loopLt rs rt body fuel (body h) else some (body h)

def words : Nat := 2 ^ 61

def tbssZero (L : TlsLayout) (h : Hart) : Hart :=
  execs L.env [.addi .a3 .a3 8, .addi .a4 .a4 8] { h with mem := h.mem.sd (h.x .a3) 0 }

def processTbss (L : TlsLayout) (h : Hart) : Option Hart :=
  let h := execs L.env [.la .a4 ._tbss_start, .la .a5 ._tbss_end] h
  if h.x .a4 = h.x .a5 then some h
  else
    let h := execs L.env [.sub .a2 .a5 .a4, .sub .sp .sp .a2, .mv .tp .sp, .mv .a3 .tp] h
    loopLt .a4 .a5 (tbssZero L) words h

def tdataCopy (L : TlsLayout) (h : Hart) : Hart :=
  execs L.env [.ld .a2 0 .a3, .sd .a2 0 .a5, .addi .a3 .a3 8, .addi .a5 .a5 8] h

def processTdata (L : TlsLayout) (h : Hart) : Option Hart :=
  let h := execs L.env [.la .a3 ._tdata_start, .la .a2 ._tdata_end] h
  if h.x .a3 = h.x .a2 then some h
  else
    let h := execs L.env
      [.sub .a2 .a2 .a3, .sub .sp .sp .a2, .mv .tp .sp, .la .a4 ._tdata_end, .mv .a5 .tp] h
    loopLt .a3 .a4 (tdataCopy L) words h

/-- `sie` and `sip`, which it clears first, are not part of the state. -/
def setupHart (L : TlsLayout) (h : Hart) : Option Hart := do
  let h ← processTbss L (h.set .sp (h.x .a1))
  let h ← processTdata L h
  return h.setCsr .sscratch 0

variable {L : TlsLayout} {h : Hart} {sp T : Word} {rs rt : Reg} {body : Hart → Hart} {fuel : Nat}

theorem loopLt_returns {I : Hart → Prop} (hstep : ∀ h, (body h).x rs = h.x rs + 8)
    (hkeep : ∀ h, (body h).x rt = h.x rt) (hbody : ∀ h, I h → I (body h)) (hI : I h)
    (hroom : (h.x rt).toInt + 8 < 2 ^ 63) (hle : (h.x rs).toInt ≤ (h.x rt).toInt)
    (hfuel : (h.x rt).toInt - (h.x rs).toInt < 8 * fuel) :
    ∃ h', loopLt rs rt body fuel h = some h' ∧ I h' := by
  induction fuel generalizing h with
  | zero => omega
  | succ fuel ih =>
    have hnext : ((body h).x rs).toInt = (h.x rs).toInt + 8 := by
      have hx := BitVec.toInt_eq_toNat_cond (h.x rs)
      have hy := BitVec.toInt_eq_toNat_cond (h.x rs + 8)
      rw [BitVec.toNat_add, show (8 : Word).toNat = 8 from rfl] at hy
      rw [hstep]
      omega
    unfold loopLt
    split
    · next hlt =>
      have hlt' := BitVec.slt_iff_toInt_lt.mp hlt
      refine ih (hbody h hI) ?_ (Int.le_of_lt hlt') ?_
      · rw [hkeep]
        exact hroom
      · rw [hkeep, hnext]
        omega
    · exact ⟨_, rfl, hbody h hI⟩

theorem words_enough (x y : Word) : x.toInt - y.toInt < 8 * (words : Nat) := by
  have := BitVec.toInt_lt (x := x)
  have := BitVec.le_toInt y
  unfold words
  omega

theorem processTbss_returns (L : TlsLayout) (h : Hart) : ∃ h', processTbss L h = some h' ∧
    h'.x .sp = h.x .sp - L.tbssLen ∧ h'.x .tp = h.x .sp - L.tbssLen := by
  have hne : L.addr ._tbss_start ≠ L.addr ._tbss_end := by
    intro heq
    exact absurd L.tbss (by rw [heq]; exact Int.lt_irrefl _)
  unfold processTbss
  simp only [execs, List.foldl_cons, List.foldl_nil, Op.exec, TlsLayout.env, Hart.set_x,
    reduceCtorEq, if_true, if_false]
  rw [if_neg hne]
  refine loopLt_returns (I := fun h' => h'.x .sp = h.x .sp - L.tbssLen ∧
    h'.x .tp = h.x .sp - L.tbssLen) (fun _ => ?_) (fun _ => ?_) (fun _ hI => ?_) ?_ ?_ ?_
      (words_enough _ _)
  · simp [tbssZero, execs, Op.exec]
  · simp [tbssZero, execs, Op.exec]
  · simpa [tbssZero, execs, Op.exec] using hI
  · simp [TlsLayout.tbssLen]
  · simpa using L.room ._tbss_end
  · simpa using Int.le_of_lt L.tbss

theorem processTdata_returns (L : TlsLayout) (htp : h.x .tp = h.x .sp) :
    ∃ h', processTdata L h = some h' ∧ h'.x .tp = h.x .sp - L.tdataLen := by
  unfold processTdata
  simp only [execs, List.foldl_cons, List.foldl_nil, Op.exec, TlsLayout.env, Hart.set_x,
    reduceCtorEq, if_true, if_false]
  split
  · next heq =>
    refine ⟨_, rfl, ?_⟩
    simp [TlsLayout.tdataLen, heq, htp]
  · refine loopLt_returns (I := fun h' => h'.x .tp = h.x .sp - L.tdataLen) (fun _ => ?_)
      (fun _ => ?_) (fun _ hI => ?_) ?_ ?_ ?_ (words_enough _ _)
    · simp [tdataCopy, execs, Op.exec]
    · simp [tdataCopy, execs, Op.exec]
    · simpa [tdataCopy, execs, Op.exec] using hI
    · simp [TlsLayout.tdataLen]
    · simpa using L.room ._tdata_end
    · simpa using L.tdata

theorem setupHart_returns (L : TlsLayout) (h : Hart) :
    ∃ h', setupHart L h = some h' ∧ h'.x .tp = h.x .a1 - L._tls_len := by
  obtain ⟨h₁, hbss, hsp, htp⟩ := processTbss_returns L (h.set .sp (h.x .a1))
  obtain ⟨h₂, hdata, htp₂⟩ := processTdata_returns L (htp.trans hsp.symm)
  refine ⟨h₂.setCsr .sscratch 0, ?_, ?_⟩
  · unfold setupHart
    rw [hbss, Option.bind_eq_bind, Option.bind_some, hdata]
    rfl
  · rw [Hart.setCsr_x, htp₂, hsp, sub_sub]
    rfl

theorem sshiftRight_shiftLeft (x : BitVec w) (n : Nat) :
    x.sshiftRight n <<< n = x >>> n <<< n := by
  apply BitVec.eq_of_getLsbD_eq
  intro i hi
  simp only [BitVec.getLsbD_shiftLeft, BitVec.getLsbD_sshiftRight, BitVec.getLsbD_ushiftRight]
  by_cases hn : i < n
  · simp [hn]
  · have hlt : n + (i - n) < w := by omega
    have hlt' : ¬ w ≤ i - n := by omega
    simp [hi, hlt, hlt']

theorem toNat_floor (x : Word) :
    (x.sshiftRight K_CONFIG_STACK_SIZE_N <<< K_CONFIG_STACK_SIZE_N).toNat =
      x.toNat / 8192 * 8192 := by
  have hlt : x.toNat / 8192 * 8192 < 2 ^ 64 := by omega
  rw [sshiftRight_shiftLeft, BitVec.toNat_shiftLeft, BitVec.toNat_ushiftRight, Nat.shiftLeft_eq,
    Nat.shiftRight_eq_div_pow]
  exact Nat.mod_eq_of_lt hlt

theorem stackTop_eq_iff (hlo : T.toNat ≤ sp.toNat + 8192) (hhi : sp.toNat < T.toNat) :
    stackTop sp = T ↔
      8192 ∣ T.toNat ∧ ¬ (sp.toNat + 8192 = T.toNat ∧ 2 ^ 19 ∣ sp.toNat) := by
  have hmask : stackMask &&& sp = 0 ↔ 2 ^ 19 ∣ sp.toNat := by
    rw [BitVec.and_comm]
    exact Word.and_low_eq_zero (k := 19) sp (by decide)
  have hT := T.isLt
  unfold stackTop
  split
  · next h0 =>
    rw [← BitVec.toNat_inj, toNat_floor]
    rw [hmask] at h0
    omega
  · next h0 =>
    rw [hmask] at h0
    rw [← BitVec.toNat_inj, BitVec.shiftLeft_eq_mul_twoPow, BitVec.add_mul,
      ← BitVec.shiftLeft_eq_mul_twoPow, BitVec.toNat_add, toNat_floor]
    have htwo : (1 * BitVec.twoPow 64 K_CONFIG_STACK_SIZE_N : Word).toNat = 8192 := by decide
    rw [htwo]
    omega

variable {P : Boot.Platform} {A : Boot.Area} {i : BitVec 32}

theorem offset_dvd (i : BitVec 32) :
    8192 ∣ ((i * Boot.K_CONFIG_STACK_SIZE).signExtend 64).toNat := by
  have hmul : 8192 ∣ (i * Boot.K_CONFIG_STACK_SIZE).toNat := by
    rw [BitVec.toNat_mul, show Boot.K_CONFIG_STACK_SIZE.toNat = 8192 from rfl]
    omega
  rw [BitVec.toNat_signExtend, BitVec.toNat_setWidth]
  split <;> omega

theorem hartstack_dvd (A : Boot.Area) (i : BitVec 32) :
    8192 ∣ (A.hartstack i).toNat ↔ 8192 ∣ A.base.toNat := by
  have hoff := offset_dvd i
  have hlt := ((i * Boot.K_CONFIG_STACK_SIZE).signExtend 64).isLt
  unfold Boot.Area.hartstack
  rw [BitVec.toNat_sub]
  omega

/-- The stacks are in the start area, or the block for them is aligned to their size. -/
def StacksAligned (P : Boot.Platform) : Prop :=
  P.boot_stack_size < 512 * 1024 ∨
    ∀ b, P.alignedMalloc P.boot_stack_size = some b → 8192 ∣ b.addr.toNat

theorem stackArea_dvd (hA : P.stackArea = .ok A) : 8192 ∣ A.base.toNat ↔ StacksAligned P := by
  unfold Boot.Platform.stackArea at hA
  unfold StacksAligned
  split at hA
  · next hsmall =>
    cases hA
    exact ⟨fun _ => Or.inl hsmall, fun _ => by decide⟩
  · next hlarge =>
    cases hb : P.alignedMalloc P.boot_stack_size with
    | none =>
      simp only [hb] at hA
      cases hA
    | some b =>
      simp only [hb] at hA
      cases hA
      have hsize : 8192 ∣ P.boot_stack_size.toNat := by
        unfold Boot.Platform.boot_stack_size
        rw [BitVec.toNat_mul, show (Boot.K_CONFIG_STACK_SIZE.signExtend 64).toNat = 8192 from rfl]
        omega
      have hbase : 8192 ∣ (b.addr + P.boot_stack_size).toNat ↔ 8192 ∣ b.addr.toNat := by
        rw [BitVec.toNat_add]
        omega
      rw [hbase]
      constructor
      · rintro h
        refine Or.inr fun b' hb' => ?_
        cases hb'
        exact h
      · rintro (h | h)
        · exact absurd h hlarge
        · exact h b rfl

/-- `_setup_hart` installs what the trap macro is to find again, and the macro does find it exactly if
the stacks are aligned to their size and the stack pointer is not at the bottom of the last stack of
a group of 64. -/
theorem thread_pointer_iff (hA : P.stackArea = .ok A) (i : BitVec 32) (L : TlsLayout)
    {w : Env Sym} (hw : w.addr ._tls_len = L._tls_len) {h t : Hart}
    (ha1 : h.x .a1 = A.hartstack i) (hlo : (A.hartstack i).toNat ≤ (t.x .sp).toNat + 8192)
    (hhi : (t.x .sp).toNat < (A.hartstack i).toNat) :
    ∃ h', setupHart L h = some h' ∧ h'.x .tp = A.hartstack i - L._tls_len ∧
      Ends w (assemble saveRecalcPtrs) t fun t' => t'.x .tp = h'.x .tp ↔
        StacksAligned P ∧
          ¬ ((t.x .sp).toNat + 8192 = (A.hartstack i).toNat ∧ 2 ^ 19 ∣ (t.x .sp).toNat) := by
  obtain ⟨h', hset, htp⟩ := setupHart_returns L h
  rw [ha1] at htp
  refine ⟨h', hset, htp, (recalcPtrs_ends t).mono ?_⟩
  rintro _ rfl
  have hrecalc : (recalcPtrs w t).x .tp = stackTop (t.x .sp) - L._tls_len := by
    rw [recalcPtrs, setPtrs_x, hw]
    rfl
  rw [hrecalc, htp, sub_left_inj, stackTop_eq_iff hlo hhi, hartstack_dvd, stackArea_dvd hA]

def kernelTls : TlsLayout where
  addr
    | ._tbss_end => 0xFFFFFFC080300200
    | _ => 0xFFFFFFC080300000
  tbss := by decide
  tdata := by decide
  room s := by cases s <;> decide

def kernelEnv : Env Sym := ⟨fun _ => kernelTls._tls_len, fun _ h => h⟩

def hartAt (v : Word) : Hart := ⟨fun _ => v, fun _ => 0, fun _ => 0⟩

theorem thread_pointer_iff_near :
    ∃ h', setupHart kernelTls (hartAt (Boot.startArea.hartstack 1)) = some h' ∧
      Ends kernelEnv (assemble saveRecalcPtrs) (hartAt (Boot.startArea.hartstack 1 - 256))
        fun t' => t'.x .tp = h'.x .tp := by
  obtain ⟨h', hset, -, hends⟩ := thread_pointer_iff (P := Boot.nearCpus) (A := Boot.startArea)
    (by decide) 1 kernelTls (w := kernelEnv) rfl (h := hartAt (Boot.startArea.hartstack 1))
    (t := hartAt (Boot.startArea.hartstack 1 - 256)) rfl (by decide) (by decide)
  exact ⟨h', hset, hends.mono fun t' h => h.mpr ⟨Or.inl (by decide), by decide⟩⟩

def lastCpu : Boot.Platform := Boot.twoCpus 63 (by decide)

def manyCpus : Boot.Platform where
  nodes := (List.range 64).map fun k => Boot.cpuNode (BitVec.ofNat 64 k)
  driver := ⟨(List.range 64).map fun k => Boot.cpu (BitVec.ofNat 64 k), 64⟩
  probed := by decide +kernel
  distinct := by decide +kernel
  boot := 0
  sbi := ⟨fun _ => Boot.SBI_HSM_STATE_STOPPED, fun _ => 0⟩
  alignedMalloc size :=
    if h : size.toNat < 2 ^ 32 then some ⟨0x90001000, by decide, by change 0x90001000 + _ < _; omega⟩
    else none

def heapArea : Boot.Area := ⟨0x90081000, 0x80000⟩

theorem recalc_differs (hsp : stackTop sp ≠ T) :
    ∃ h', setupHart kernelTls (hartAt T) = some h' ∧ h'.x .tp = T - kernelTls._tls_len ∧
      Ends kernelEnv (assemble saveRecalcPtrs) (hartAt sp) fun t' => t'.x .tp ≠ h'.x .tp := by
  obtain ⟨h', hset, htp⟩ := setupHart_returns kernelTls (hartAt T)
  refine ⟨h', hset, htp, (recalcPtrs_ends (hartAt sp)).mono ?_⟩
  rintro _ rfl heq
  rw [htp] at heq
  exact hsp (sub_left_inj.mp heq)

/-- The bottom of the stack of hart 63, and a place in a stack that is not aligned to its size. -/
theorem thread_pointer_lost :
    (lastCpu.stackArea = .ok Boot.startArea ∧ 63 ∈ lastCpu.harts ∧
      ∃ h', setupHart kernelTls (hartAt (Boot.startArea.hartstack 63)) = some h' ∧
        h'.x .tp = Boot.startArea.hartstack 63 - kernelTls._tls_len ∧
        Ends kernelEnv (assemble saveRecalcPtrs) (hartAt (Boot.startArea.hartstack 63 - 8192))
          fun t' => t'.x .tp ≠ h'.x .tp) ∧
    (manyCpus.stackArea = .ok heapArea ∧ 1 ∈ manyCpus.harts ∧
      ∃ h', setupHart kernelTls (hartAt (heapArea.hartstack 1)) = some h' ∧
        h'.x .tp = heapArea.hartstack 1 - kernelTls._tls_len ∧
        Ends kernelEnv (assemble saveRecalcPtrs) (hartAt (heapArea.hartstack 1 - 256))
          fun t' => t'.x .tp ≠ h'.x .tp) :=
  ⟨⟨by decide, by decide, recalc_differs (by decide)⟩,
    by decide +kernel, by decide +kernel, recalc_differs (by decide)⟩

end Abydos.Trap
