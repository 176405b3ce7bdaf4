import Mathlib.Logic.Relation
import Mathlib.Logic.Function.Basic
import Mathlib.Data.List.Basic
import Mathlib.Algebra.Group.Nat.Defs

namespace Abydos.Lib.Riscv

open Relation

abbrev Word := BitVec 64

inductive Reg
  | ra | sp | gp | tp
  | t0 | t1 | t2 | t3 | t4 | t5 | t6
  | s0 | s1 | s2 | s3 | s4 | s5 | s6 | s7 | s8 | s9 | s10 | s11
  | a0 | a1 | a2 | a3 | a4 | a5 | a6 | a7
  deriving DecidableEq, Repr

inductive Csr
  | sepc | sscratch | scause
  deriving DecidableEq, Repr

abbrev Mem := Word → BitVec 8

def Mem.ld (m : Mem) (a : Word) : Word :=
  m (a + 7#64) ++ m (a + 6#64) ++ m (a + 5#64) ++ m (a + 4#64) ++ m (a + 3#64) ++ m (a + 2#64) ++
    m (a + 1#64) ++ m a

def Mem.sd (m : Mem) (a v : Word) : Mem :=
  fun b => if (b - a).toNat < 8 then v.extractLsb' (8 * (b - a).toNat) 8 else m b

@[ext]
structure Hart where
  x : Reg → Word
  csr : Csr → Word
  mem : Mem

def Hart.set (h : Hart) (r : Reg) (v : Word) : Hart :=
  { h with x := Function.update h.x r v }

def Hart.setCsr (h : Hart) (c : Csr) (v : Word) : Hart :=
  { h with csr := Function.update h.csr c v }

inductive Op (S : Type)
  | li (rd : Reg) (v : Word)
  | mv (rd rs : Reg)
  | addi (rd rs : Reg) (i : Word)
  | add (rd rs rt : Reg)
  | sub (rd rs rt : Reg)
  | and (rd rs rt : Reg)
  | slli (rd rs : Reg) (n : Nat)
  | srai (rd rs : Reg) (n : Nat)
  | la (rd : Reg) (s : S)
  | ld (rd : Reg) (i : Word) (rs : Reg)
  | sd (rt : Reg) (i : Word) (rs : Reg)
  | csrr (rd : Reg) (c : Csr)
  | csrw (c : Csr) (rs : Reg)
  | csrrw (rd : Reg) (c : Csr) (rs : Reg)
  deriving DecidableEq

/-- The world outside the code: addresses of symbols, and what a call to one does until it
returns. -/
structure Env (S : Type) where
  addr : S → Word
  call : S → Hart → Hart

def Op.exec (w : Env S) : Op S → Hart → Hart
  | .li rd v, h => h.set rd v
  | .mv rd rs, h => h.set rd (h.x rs)
  | .addi rd rs i, h => h.set rd (h.x rs + i)
  | .add rd rs rt, h => h.set rd (h.x rs + h.x rt)
  | .sub rd rs rt, h => h.set rd (h.x rs - h.x rt)
  | .and rd rs rt, h => h.set rd (h.x rs &&& h.x rt)
  | .slli rd rs n, h => h.set rd (h.x rs <<< n)
  | .srai rd rs n, h => h.set rd ((h.x rs).sshiftRight n)
  | .la rd s, h => h.set rd (w.addr s)
  | .ld rd i rs, h => h.set rd (h.mem.ld (h.x rs + i))
  | .sd rt i rs, h => { h with mem := h.mem.sd (h.x rs + i) (h.x rt) }
  | .csrr rd c, h => h.set rd (h.csr c)
  | .csrw c rs, h => h.setCsr c (h.x rs)
  | .csrrw rd c rs, h => (h.setCsr c (h.x rs)).set rd (h.csr c)

def execs (w : Env S) (os : List (Op S)) (h : Hart) : Hart :=
  os.foldl (fun h o => o.exec w h) h

/-- The operand of a jump is a label in the source and a number of instructions after assembly. -/
inductive Instr (S : Type)
  | op (o : Op S)
  | lla (rd : Reg) (l : Nat)
  | bnez (rs : Reg) (l : Nat)
  | beqz (rs : Reg) (l : Nat)
  | bltz (rs : Reg) (l : Nat)
  | bge (rs rt : Reg) (l : Nat)
  | j (l : Nat)
  | jal (l : Nat)
  | jr (rs : Reg)
  | ret
  | call (s : S)
  | tail (s : S)
  | sret
  deriving DecidableEq

inductive Line (S : Type)
  | label (n : Nat)
  | ins (i : Instr S)

def Instr.resolve (f : Nat → Nat) : Instr S → Instr S
  | .lla rd l => .lla rd (f l)
  | .bnez rs l => .bnez rs (f l)
  | .beqz rs l => .beqz rs (f l)
  | .bltz rs l => .bltz rs (f l)
  | .bge rs rt l => .bge rs rt (f l)
  | .j l => .j (f l)
  | .jal l => .jal (f l)
  | i => i

def distance (n : Nat) : List (Line S) → Nat
  | [] => 0
  | .label k :: ls => if k = n then 0 else distance n ls
  | .ins _ :: ls => distance n ls + 1

def assemble : List (Line S) → List (Instr S)
  | [] => []
  | .label _ :: ls => assemble ls
  | .ins i :: ls => i.resolve (fun n => distance n ls + 1) :: assemble ls

structure Image (S : Type) where
  base : Word
  code : List (Instr S)
  small : code.length < 2 ^ 62

def Image.addr (P : Image S) (i : Nat) : Word := P.base + BitVec.ofNat 64 (4 * i)

def Image.fetch (P : Image S) (pc : Word) : Option (Instr S) :=
  if (pc - P.base).toNat % 4 = 0 then P.code[(pc - P.base).toNat / 4]? else none

def jump (pc : Word) (d : Nat) : Word := pc + BitVec.ofNat 64 (4 * d)

def Instr.step (w : Env S) (pc : Word) (h : Hart) : Instr S → Option (Word × Hart)
  | .op o => some (jump pc 1, o.exec w h)
  | .lla rd d => some (jump pc 1, h.set rd (jump pc d))
  | .bnez rs d => some (if h.x rs ≠ 0 then jump pc d else jump pc 1, h)
  | .beqz rs d => some (if h.x rs = 0 then jump pc d else jump pc 1, h)
  | .bltz rs d => some (if (h.x rs).slt 0 then jump pc d else jump pc 1, h)
  | .bge rs rt d => some (if (h.x rs).slt (h.x rt) then jump pc 1 else jump pc d, h)
  | .j d => some (jump pc d, h)
  | .jal d => some (jump pc d, h.set .ra (jump pc 1))
  | .jr rs => some (h.x rs, h)
  | .ret => some (h.x .ra, h)
  | .call s => some (jump pc 1, w.call s (h.set .ra (jump pc 1)))
  | .tail _ => none
  | .sret => none

def Image.step (P : Image S) (w : Env S) (c : Word × Hart) : Option (Word × Hart) :=
  (P.fetch c.1).bind (Instr.step w c.1 c.2)

def Image.Runs (P : Image S) (w : Env S) (i : Nat) (h : Hart) (j : Nat) (h' : Hart) : Prop :=
  ReflTransGen (fun c c' => P.step w c = some c') (P.addr i, h) (P.addr j, h')

def Image.Returns (P : Image S) (w : Env S) (h h' : Hart) : Prop :=
  ∃ pc, ReflTransGen (fun c c' => P.step w c = some c') (P.addr 0, h) (pc, h') ∧
    P.fetch pc = some .sret

def Instr.labels : Instr S → List Nat
  | .lla _ l | .bnez _ l | .beqz _ l | .bltz _ l | .bge _ _ l | .j l | .jal l => [l]
  | _ => []

def defines (n : Nat) : List (Line S) → Bool
  | [] => false
  | .label k :: ls => k = n || defines n ls
  | .ins _ :: ls => defines n ls

def closed : List (Line S) → Bool
  | [] => true
  | .label _ :: ls => closed ls
  | .ins i :: ls => i.labels.all (defines · ls) && closed ls

theorem distance_append {ls : List (Line S)} (h : defines n ls = true) (ms : List (Line S)) :
    distance n (ls ++ ms) = distance n ls := by
  induction ls with
  | nil => cases h
  | cons l ls ih =>
    cases l with
    | label k =>
      simp only [List.cons_append, distance]
      split
      · rfl
      · next hk =>
        simp only [defines, hk, decide_false, Bool.false_or] at h
        exact ih h
    | ins i =>
      simp only [List.cons_append, distance]
      rw [ih h]

theorem Instr.resolve_congr {f g : Nat → Nat} {i : Instr S} (h : ∀ n ∈ i.labels, f n = g n) :
    i.resolve f = i.resolve g := by
  cases i <;> simp_all [Instr.resolve, Instr.labels]

theorem assemble_append {ls : List (Line S)} (h : closed ls = true) (ms : List (Line S)) :
    assemble (ls ++ ms) = assemble ls ++ assemble ms := by
  induction ls with
  | nil => rfl
  | cons l ls ih =>
    cases l with
    | label k => exact ih h
    | ins i =>
      obtain ⟨hl, hc⟩ := (Bool.and_eq_true _ _).mp h
      simp only [List.cons_append, assemble]
      rw [ih hc]
      congr 1
      apply Instr.resolve_congr
      intro n hn
      rw [distance_append (List.all_eq_true.mp hl n hn)]

theorem assemble_op (os : List (Op S)) :
    assemble (os.map fun o => .ins (.op o)) = os.map Instr.op := by
  induction os with
  | nil => rfl
  | cons o os ih => exact congrArg (Instr.op o :: ·) ih

theorem closed_op (os : List (Op S)) : closed (os.map fun o => .ins (.op o)) = true := by
  induction os with
  | nil => rfl
  | cons o os ih => exact ih

theorem Mem.sd_of_lt (m : Mem) (a v : Word) (k : Nat) (hk : k < 8) :
    m.sd a v (a + BitVec.ofNat 64 k) = v.extractLsb' (8 * k) 8 := by
  have hoff : (a + BitVec.ofNat 64 k - a).toNat = k := by
    rw [BitVec.toNat_sub, BitVec.toNat_add, BitVec.toNat_ofNat]
    omega
  unfold Mem.sd
  rw [hoff, if_pos hk]

theorem Mem.ld_sd (m : Mem) (a v : Word) : (m.sd a v).ld a = v := by
  have h0 : m.sd a v a = v.extractLsb' 0 8 := by
    simpa using m.sd_of_lt a v 0 (by decide)
  unfold Mem.ld
  rw [h0, m.sd_of_lt a v 1 (by decide), m.sd_of_lt a v 2 (by decide), m.sd_of_lt a v 3 (by decide),
    m.sd_of_lt a v 4 (by decide), m.sd_of_lt a v 5 (by decide), m.sd_of_lt a v 6 (by decide),
    m.sd_of_lt a v 7 (by decide)]
  apply BitVec.eq_of_getLsbD_eq
  intro i hi
  simp only [BitVec.getLsbD_append, BitVec.getLsbD_extractLsb']
  grind

theorem Mem.ld_congr {m m' : Mem} {a : Word}
    (h : ∀ k < 8, m' (a + BitVec.ofNat 64 k) = m (a + BitVec.ofNat 64 k)) : m'.ld a = m.ld a := by
  have h0 : m' a = m a := by simpa using h 0 (by decide)
  unfold Mem.ld
  rw [h0, h 1 (by decide), h 2 (by decide), h 3 (by decide), h 4 (by decide), h 5 (by decide),
    h 6 (by decide), h 7 (by decide)]

def Mem.slot (m : Mem) (fp : Word) (k : Nat) : Word := m.ld (fp + BitVec.ofNat 64 (8 * k))

theorem Mem.slot_sd (m : Mem) (fp v : Word) (hj : j < 2 ^ 60) (hk : k < 2 ^ 60) :
    (m.sd (fp + BitVec.ofNat 64 (8 * k)) v).slot fp j = if j = k then v else m.slot fp j := by
  split
  · next h =>
    rw [h]
    exact Mem.ld_sd _ _ _
  · next h =>
    apply Mem.ld_congr
    intro n hn
    unfold Mem.sd
    rw [if_neg]
    have := fp.isLt
    simp only [BitVec.toNat_sub, BitVec.toNat_add, BitVec.toNat_ofNat]
    omega

section Run

variable {P : Image S} {w : Env S} {h h' h'' : Hart}

theorem jump_addr (P : Image S) (i d : Nat) : jump (P.addr i) d = P.addr (i + d) := by
  unfold jump Image.addr
  rw [Nat.mul_add, BitVec.ofNat_add, BitVec.add_assoc]

theorem Image.fetch_addr (P : Image S) (hi : i < 2 ^ 62) : P.fetch (P.addr i) = P.code[i]? := by
  have hoff : (P.addr i - P.base).toNat = 4 * i := by
    unfold Image.addr
    rw [BitVec.toNat_sub, BitVec.toNat_add, BitVec.toNat_ofNat]
    omega
  unfold Image.fetch
  rw [hoff, if_pos (Nat.mul_mod_right 4 i), Nat.mul_div_cancel_left i (by decide)]

theorem Image.fetch_code (hc : P.code[i]? = some c) : P.fetch (P.addr i) = some c := by
  obtain ⟨hi, -⟩ := List.getElem?_eq_some_iff.mp hc
  rw [P.fetch_addr (Nat.lt_trans hi P.small), hc]

namespace Image.Runs

theorem refl : P.Runs w i h i h := ReflTransGen.refl

theorem trans (h1 : P.Runs w i h j h') (h2 : P.Runs w j h' k h'') : P.Runs w i h k h'' :=
  ReflTransGen.trans h1 h2

theorem single (hc : P.code[i]? = some c) (hs : c.step w (P.addr i) h = some (P.addr j, h')) :
    P.Runs w i h j h' := by
  apply ReflTransGen.single
  unfold Image.step
  rw [Image.fetch_code hc]
  exact hs

theorem next (hc : P.code[i]? = some c)
    (hs : c.step w (P.addr i) h = some (jump (P.addr i) d, h')) :
    P.Runs w i h (i + d) h' := by
  rw [jump_addr] at hs
  exact single hc hs

theorem cast (hr : P.Runs w i h j h') (heq : h' = h'') : P.Runs w i h j h'' := heq ▸ hr

theorem taken {b : Prop} [Decidable b] (hc : P.code[i]? = some c)
    (hs : c.step w (P.addr i) h = some (if b then jump (P.addr i) d else jump (P.addr i) e, h))
    (hb : b) : P.Runs w i h (i + d) h := by
  rw [if_pos hb] at hs
  exact next hc hs

theorem skipped {b : Prop} [Decidable b] (hc : P.code[i]? = some c)
    (hs : c.step w (P.addr i) h = some (if b then jump (P.addr i) d else jump (P.addr i) e, h))
    (hb : ¬ b) : P.Runs w i h (i + e) h := by
  rw [if_neg hb] at hs
  exact next hc hs

end Image.Runs

def Image.Has (P : Image S) (i : Nat) (cs : List (Instr S)) : Prop := cs <+: P.code.drop i

theorem Image.Has.head (hc : P.Has i (c :: cs)) : P.code[i]? = some c := by
  obtain ⟨rest, heq⟩ := hc
  have h0 := congrArg (fun l => l[0]?) heq
  simpa using h0.symm

theorem Image.Has.left (hc : P.Has i (cs ++ ds)) : P.Has i cs :=
  (List.prefix_append cs ds).trans hc

theorem Image.Has.right (hc : P.Has i (cs ++ ds)) : P.Has (i + cs.length) ds := by
  obtain ⟨rest, heq⟩ := hc
  refine ⟨rest, ?_⟩
  rw [← List.drop_drop, ← heq, List.append_assoc, List.drop_left]

theorem Image.Has.tail (hc : P.Has i (c :: cs)) : P.Has (i + 1) cs :=
  Image.Has.right (show P.Has i ([c] ++ cs) from hc)

theorem Image.Runs.ops (hc : P.Has i (os.map Instr.op)) (h : Hart) :
    P.Runs w i h (i + os.length) (execs w os h) := by
  induction os generalizing i h with
  | nil => exact .refl
  | cons o os ih =>
    have h1 : P.Runs w i h (i + 1) (o.exec w h) := .next hc.head rfl
    have h2 := ih hc.tail (o.exec w h)
    rw [Nat.add_assoc, Nat.add_comm 1] at h2
    exact h1.trans h2

/-- Wherever these instructions stand, they run from `h` to their end in a state with `Q`. -/
def Ends (w : Env S) (cs : List (Instr S)) (h : Hart) (Q : Hart → Prop) : Prop :=
  ∀ (P : Image S) (i : Nat), P.Has i cs → ∃ h', P.Runs w i h (i + cs.length) h' ∧ Q h'

theorem Ends.seq {Q R : Hart → Prop} (h1 : Ends w cs h R) (h2 : ∀ h', R h' → Ends w ds h' Q) :
    Ends w (cs ++ ds) h Q := by
  intro P i hc
  obtain ⟨h', hr, hR⟩ := h1 P i hc.left
  obtain ⟨h'', hr', hQ⟩ := h2 h' hR P _ hc.right
  rw [Nat.add_assoc, ← List.length_append] at hr'
  exact ⟨h'', hr.trans hr', hQ⟩

theorem Ends.mono {Q R : Hart → Prop} (h1 : Ends w cs h R) (h2 : ∀ h', R h' → Q h') :
    Ends w cs h Q := by
  intro P i hc
  obtain ⟨h', hr, hR⟩ := h1 P i hc
  exact ⟨h', hr, h2 h' hR⟩

theorem Ends.ops {Q : Hart → Prop} (hQ : Q (execs w os h)) : Ends w (os.map Instr.op) h Q := by
  intro P i hc
  rw [List.length_map]
  exact ⟨_, .ops hc h, hQ⟩

theorem Ends.op {Q : Hart → Prop} (hQ : Q (o.exec w h)) : Ends w [.op o] h Q := by
  intro P i hc
  exact ⟨_, .next hc.head rfl, hQ⟩

theorem Ends.call {Q : Hart → Prop} (hQ : ∀ a, Q (w.call s (h.set .ra a))) :
    Ends w [.call s] h Q := by
  intro P i hc
  exact ⟨_, .next hc.head rfl, hQ _⟩

theorem Ends.bnez_skip (rs : Reg) (o : Op S) (h : Hart) :
    Ends w [.bnez rs 2, .op o] h (· = if h.x rs ≠ 0 then h else o.exec w h) := by
  intro P i hc
  split
  · next h0 => exact ⟨h, .taken (d := 2) hc.head rfl h0, rfl⟩
  · next h0 =>
    have h1 : P.Runs w i h (i + 1) h := .skipped (d := 2) hc.head rfl h0
    have h2 : P.Runs w (i + 1) h (i + 2) (o.exec w h) := .next (d := 1) hc.tail.head rfl
    exact ⟨_, h1.trans h2, rfl⟩

theorem Ends.beqz_skip (rs : Reg) (o : Op S) (h : Hart) :
    Ends w [.beqz rs 2, .op o] h (· = if h.x rs = 0 then h else o.exec w h) := by
  intro P i hc
  split
  · next h0 => exact ⟨h, .taken (d := 2) hc.head rfl h0, rfl⟩
  · next h0 =>
    have h1 : P.Runs w i h (i + 1) h := .skipped (d := 2) hc.head rfl h0
    have h2 : P.Runs w (i + 1) h (i + 2) (o.exec w h) := .next (d := 1) hc.tail.head rfl
    exact ⟨_, h1.trans h2, rfl⟩

theorem Image.Runs.returns (hr : P.Runs w 0 h i h') (hc : P.code[i]? = some .sret) :
    P.Returns w h h' :=
  ⟨P.addr i, hr, Image.fetch_code hc⟩

theorem Ends.returns {Q : Hart → Prop} (h1 : Ends w cs h Q) (hc : P.Has 0 (cs ++ [.sret])) :
    ∃ h', P.Returns w h h' ∧ Q h' := by
  obtain ⟨h', hr, hQ⟩ := h1 P 0 hc.left
  exact ⟨h', hr.returns hc.right.head, hQ⟩

theorem Image.step_sret (hc : P.fetch pc = some .sret) (h : Hart) : P.step w (pc, h) = none := by
  unfold Image.step
  rw [hc]
  rfl

theorem Image.Returns.unique (h1 : P.Returns w h h') (h2 : P.Returns w h h'') : h' = h'' := by
  obtain ⟨pc, hr, hc⟩ := h1
  obtain ⟨pc', hr', hc'⟩ := h2
  have hu : Relator.RightUnique (fun c c' => P.step w c = some c') := by
    intro a b c hb hc
    exact Option.some.inj (hb.symm.trans hc)
  have hstop {pc pc' : Word} {h h' : Hart} (hc : P.fetch pc = some .sret)
      (hr : ReflTransGen (fun c c' => P.step w c = some c') (pc, h) (pc', h')) : h = h' := by
    rcases hr.cases_head with heq | ⟨c, hs, -⟩
    · exact congrArg Prod.snd heq
    · cases (Image.step_sret hc h).symm.trans hs
  rcases ReflTransGen.total_of_right_unique hu hr hr' with hle | hle
  · exact hstop hc hle
  · exact (hstop hc' hle).symm

end Run

end Abydos.Lib.Riscv
