import Abydos.Fdt.Helper
import Abydos.Lib.Word

namespace Abydos.Uart

open Abydos.Fdt Abydos.Lib

def UART_RBR_OFFSET : BitVec 32 := 0
def UART_DLL_OFFSET : BitVec 32 := 0
def UART_IER_OFFSET : BitVec 32 := 1
def UART_DLM_OFFSET : BitVec 32 := 1
def UART_FCR_OFFSET : BitVec 32 := 2
def UART_LCR_OFFSET : BitVec 32 := 3
def UART_MCR_OFFSET : BitVec 32 := 4
def UART_LSR_OFFSET : BitVec 32 := 5
def UART_SCR_OFFSET : BitVec 32 := 7

def defaultFreq : BitVec 32 := 0
def defaultBaud : BitVec 32 := 115200
def defaultRegShift : BitVec 32 := 0
def defaultRegWidth : BitVec 32 := 1
def defaultRegOffset : BitVec 32 := 0

structure Uart8250 where
  base : BitVec 64
  freq : BitVec 32
  baud : BitVec 32
  regWidth : BitVec 32
  regShift : BitVec 32
  opened : Bool

def Uart8250.bytes (u : Uart8250) : Nat :=
  if u.regWidth = 1 then 1 else if u.regWidth = 2 then 2 else 4

def Uart8250.regAddr (u : Uart8250) (num : BitVec 32) : BitVec 64 :=
  u.base + (num <<< (u.regShift.toNat % 32)).setWidth 64

structure Access where
  num : BitVec 32
  addr : BitVec 64
  bytes : Nat
  val : Option (BitVec 32)
  deriving DecidableEq

def getReg (u : Uart8250) (num : BitVec 32) : Access := ⟨num, u.regAddr num, u.bytes, none⟩

def setReg (u : Uart8250) (num val : BitVec 32) : Access := ⟨num, u.regAddr num, u.bytes, some val⟩

def cellProp (t : Tree) (node : Int) (name : String) (default : BitVec 32) : BitVec 32 :=
  match t.getprop node name with
  | some val => if 0 < val.length then peek t node name 0 else default
  | none => default

inductive Fault
  | divisionByZero
  deriving DecidableEq

/-- `bdiv`: products and sum are of 32 bits, and 16 bits of the quotient are kept. -/
def divisor (freq baud : BitVec 32) : Except Fault (BitVec 16) :=
  if baud ≠ 0 then
    if 16 * baud = 0 then .error .divisionByZero
    else .ok (((freq + 8 * baud) / (16 * baud)).setWidth 16)
  else .ok 0

def setup (u : Uart8250) (bdiv : BitVec 16) : List Access :=
  [setReg u UART_IER_OFFSET 0x00, setReg u UART_LCR_OFFSET 0x80] ++
    (if bdiv ≠ 0 then
      [setReg u UART_DLL_OFFSET (bdiv.setWidth 32 &&& 0xff),
        setReg u UART_DLM_OFFSET (bdiv.setWidth 32 >>> 8 &&& 0xff)]
    else []) ++
    [setReg u UART_LCR_OFFSET 0x03, setReg u UART_FCR_OFFSET 0x01, setReg u UART_MCR_OFFSET 0x00,
      getReg u UART_LSR_OFFSET, getReg u UART_RBR_OFFSET, setReg u UART_SCR_OFFSET 0x00]

structure Drv where
  hdl : List (Int × Uart8250)
  hdlCount : Int
  accesses : List Access

def describe (t : Tree) (node : Int) (base : BitVec 64) : Uart8250 where
  base := base + (cellProp t node "reg-offset" defaultRegOffset).setWidth 64 + 0xFFFFFFC000000000
  freq := cellProp t node "clock-frequency" defaultFreq
  baud := cellProp t node "current-speed" defaultBaud
  regShift := cellProp t node "reg-shift" defaultRegShift
  regWidth := cellProp t node "reg-io-width" defaultRegWidth
  opened := false

/-- `base` and `regsize` are what the variables of these names hold before anything is stored. -/
def addDevice (t : Tree) (node : Int) (base regsize : BitVec 64) (d : Drv) :
    Except Fault (Int × Drv) := do
  let (rc, o) := (getNodeAddrSize t node 0 true true).run ⟨[], some base, some regsize⟩
  let base := o.addr.getD base
  let regsize := o.size.getD regsize
  if rc < 0 ∨ base = 0 ∨ regsize = 0 then return (K_ENODEV, d)
  else do
    let u := describe t node base
    let bdiv ← divisor u.freq u.baud
    return (d.hdlCount + 1, ⟨d.hdl ++ [(d.hdlCount + 1, u)], d.hdlCount + 1,
      d.accesses ++ setup u bdiv⟩)

/-- The part of the device that holds the divisor: while the access bit of the line control register
is set, the first two registers are its bytes. -/
structure Latch where
  dlab : Bool
  dll : BitVec 8
  dlm : BitVec 8

def Latch.access (l : Latch) (a : Access) : Latch :=
  match a.val with
  | none => l
  | some val =>
    if a.num = UART_LCR_OFFSET then { l with dlab := val.getLsbD 7 }
    else if l.dlab ∧ a.num = UART_DLL_OFFSET then { l with dll := val.setWidth 8 }
    else if l.dlab ∧ a.num = UART_DLM_OFFSET then { l with dlm := val.setWidth 8 }
    else l

def Latch.divisor (l : Latch) : BitVec 16 := l.dlm ++ l.dll

def roundHalfUp (x d : Nat) : Nat := (2 * x + d) / (2 * d)

def DivisorRight (t : Tree) (node : Int) (base regsize : BitVec 64) (f b : Nat) : Prop :=
  ∀ d : Drv, ∃ rc d' as, addDevice t node base regsize d = .ok (rc, d') ∧
    d'.accesses = d.accesses ++ as ∧
    (0 < b → ∀ dll dlm, ((as.foldl Latch.access ⟨false, dll, dlm⟩).divisor) =
      if roundHalfUp f (16 * b) ≠ 0 ∧ roundHalfUp f (16 * b) < 2 ^ 16 then
        BitVec.ofNat 16 (roundHalfUp f (16 * b))
      else dlm ++ dll)

def DivisorSafe (f b : Nat) : Prop :=
  b = 0 ∨
  b < 2 ^ 28 ∧ f + 8 * b < 2 ^ 32 ∧
    ((f + 8 * b) / (16 * b) < 2 ^ 16 ∨ 2 ^ 16 ∣ (f + 8 * b) / (16 * b)) ∨
  b < 2 ^ 28 ∧ 2 ^ 32 ≤ f + 8 * b ∧ 2 ^ 16 ≤ (f + 8 * b) / (16 * b) ∨
  2 ^ 28 ≤ b ∧ b % 2 ^ 28 ≠ 0 ∧
    (f + 8 * b) % 2 ^ 32 / (16 * (b % 2 ^ 28)) % 2 ^ 16 = if 8 * b ≤ f then 1 else 0

instance : Decidable (DivisorSafe f b) := inferInstanceAs (Decidable (_ ∨ _))

def Located (t : Tree) (node : Int) (base regsize : BitVec 64) : Prop :=
  let r := (getNodeAddrSize t node 0 true true).run ⟨[], some base, some regsize⟩
  0 ≤ r.1 ∧ r.2.addr.getD base ≠ 0 ∧ r.2.size.getD regsize ≠ 0

instance : Decidable (Located t node base regsize) := inferInstanceAs (Decidable (_ ∧ _))

section Latch

variable {u : Uart8250} {bdiv : BitVec 16} {dll dlm : BitVec 8}

theorem bytes_append (bdiv : BitVec 16) :
    (bdiv.setWidth 32 >>> 8 &&& 0xff).setWidth 8 ++ (bdiv.setWidth 32 &&& 0xff).setWidth 8 =
      bdiv := by
  have hlow : ∀ x : BitVec 32, ((x &&& 0xff).setWidth 8).toNat = x.toNat % 2 ^ 8 := by
    intro x
    rw [BitVec.toNat_setWidth, show (0xff : BitVec 32) = BitVec.ofNat 32 (2 ^ 8 - 1) from rfl,
      Word.toNat_and_low x (by decide), Nat.mod_mod]
  refine BitVec.eq_of_toNat_eq ?_
  rw [Word.toNat_append, hlow, hlow, BitVec.toNat_ushiftRight, BitVec.toNat_setWidth,
    Nat.shiftRight_eq_div_pow]
  have hlt := bdiv.isLt
  omega

theorem latch_setup (u : Uart8250) (bdiv : BitVec 16) (dll dlm : BitVec 8) :
    ((setup u bdiv).foldl Latch.access ⟨false, dll, dlm⟩).divisor =
      if bdiv ≠ 0 then bdiv else dlm ++ dll := by
  unfold setup
  by_cases h : bdiv ≠ 0
  · rw [if_pos h, if_pos h]
    exact bytes_append bdiv
  · rw [if_neg h, if_neg h]
    rfl

def intended (f b : Nat) : Nat :=
  if roundHalfUp f (16 * b) < 2 ^ 16 then roundHalfUp f (16 * b) else 0

theorem intended_lt (f b : Nat) : intended f b < 2 ^ 16 := by
  unfold intended
  split
  · assumption
  · decide

theorem programmed_eq (f b : Nat) (x : BitVec 16) :
    (if roundHalfUp f (16 * b) ≠ 0 ∧ roundHalfUp f (16 * b) < 2 ^ 16 then
      BitVec.ofNat 16 (roundHalfUp f (16 * b)) else x) =
    if intended f b ≠ 0 then BitVec.ofNat 16 (intended f b) else x := by
  unfold intended
  by_cases hq : roundHalfUp f (16 * b) < 2 ^ 16
  · simp only [if_pos hq, and_iff_left hq]
  · rw [if_neg hq, if_neg fun h => hq h.2, if_neg fun h => h rfl]

theorem latch_iff (u : Uart8250) (bdiv : BitVec 16) (f b : Nat) :
    (∀ dll dlm, ((setup u bdiv).foldl Latch.access ⟨false, dll, dlm⟩).divisor =
      if roundHalfUp f (16 * b) ≠ 0 ∧ roundHalfUp f (16 * b) < 2 ^ 16 then
        BitVec.ofNat 16 (roundHalfUp f (16 * b))
      else dlm ++ dll) ↔ bdiv.toNat = intended f b := by
  simp only [latch_setup, programmed_eq]
  constructor
  · intro h
    have hleft : (if bdiv ≠ 0 then bdiv else 0) = bdiv := by
      split
      · rfl
      · rename_i hz
        exact (not_not.mp hz).symm
    have hright : (if intended f b ≠ 0 then BitVec.ofNat 16 (intended f b) else 0) =
        BitVec.ofNat 16 (intended f b) := by
      split
      · rfl
      · rename_i hz
        rw [not_not.mp hz]
        rfl
    have h0 := (hleft.symm.trans (h 0 0)).trans hright
    rw [h0, BitVec.toNat_ofNat, Nat.mod_eq_of_lt (intended_lt f b)]
  · intro h dll dlm
    have hb : bdiv = BitVec.ofNat 16 (intended f b) := by
      rw [← h, BitVec.ofNat_toNat, BitVec.setWidth_eq]
    have hz : bdiv ≠ 0 ↔ intended f b ≠ 0 := by
      rw [← h, not_iff_not, ← BitVec.toNat_inj]
      rfl
    exact if_congr hz hb rfl

end Latch

section Arithmetic

variable {f b : Nat}

theorem roundHalfUp_eq (f b : Nat) : roundHalfUp f (16 * b) = (f + 8 * b) / (16 * b) := by
  rw [roundHalfUp, show 2 * f + 16 * b = 2 * (f + 8 * b) by ring,
    Nat.mul_div_mul_left _ _ (by decide)]

def computed (f b : Nat) : Nat := (f + 8 * b) % 2 ^ 32 / (16 * b % 2 ^ 32) % 2 ^ 16

theorem computed_small (hb : b < 2 ^ 28) (hf : f + 8 * b < 2 ^ 32) :
    computed f b = (f + 8 * b) / (16 * b) % 2 ^ 16 := by
  rw [computed, Nat.mod_eq_of_lt hf, Nat.mod_eq_of_lt (show 16 * b < 2 ^ 32 by omega)]

theorem computed_wrapped (hb : b < 2 ^ 28) (hf : f < 2 ^ 32) (hw : 2 ^ 32 ≤ f + 8 * b) :
    computed f b = 0 := by
  rw [computed, Nat.mod_eq_of_lt (show 16 * b < 2 ^ 32 by omega), Nat.div_eq_of_lt (by omega)]
  rfl

theorem computed_large (f b : Nat) :
    computed f b = (f + 8 * b) % 2 ^ 32 / (16 * (b % 2 ^ 28)) % 2 ^ 16 := by
  rw [computed, show 16 * b % 2 ^ 32 = 16 * (b % 2 ^ 28) by omega]

theorem quotient_large (hf : f < 2 ^ 32) (hb : 2 ^ 28 ≤ b) :
    (f + 8 * b) / (16 * b) = if 8 * b ≤ f then 1 else 0 := by
  split
  · exact Nat.div_eq_of_lt_le (by omega) (by omega)
  · exact Nat.div_eq_of_lt (by omega)

theorem divisorSafe_iff (hf : f < 2 ^ 32) : DivisorSafe f b ↔
    b = 0 ∨ 16 * b % 2 ^ 32 ≠ 0 ∧ computed f b = intended f b := by
  rw [intended, roundHalfUp_eq, DivisorSafe]
  rcases Nat.eq_zero_or_pos b with hb | hb
  · exact iff_of_true (.inl hb) (.inl hb)
  by_cases hlarge : b < 2 ^ 28
  · by_cases hw : f + 8 * b < 2 ^ 32
    · rw [computed_small hlarge hw]
      generalize (f + 8 * b) / (16 * b) = q
      by_cases hq : q < 2 ^ 16
      · rw [if_pos hq]
        omega
      · rw [if_neg hq]
        omega
    · have hq : 0 < (f + 8 * b) / (16 * b) := Nat.div_pos (by omega) (by omega)
      rw [computed_wrapped hlarge hf (Nat.not_lt.mp hw)]
      generalize (f + 8 * b) / (16 * b) = q at hq ⊢
      by_cases hfit : q < 2 ^ 16
      · rw [if_pos hfit]
        omega
      · rw [if_neg hfit]
        omega
  · rw [computed_large, quotient_large hf (Nat.not_lt.mp hlarge)]
    generalize (f + 8 * b) % 2 ^ 32 / (16 * (b % 2 ^ 28)) = q
    by_cases hle : 8 * b ≤ f
    · simp only [if_pos hle, if_pos (show 1 < 2 ^ 16 by decide)]
      omega
    · simp only [if_neg hle, if_pos (show 0 < 2 ^ 16 by decide)]
      omega

end Arithmetic

section Device

variable {t : Tree} {node : Int} {base regsize : BitVec 64} {freq baud : BitVec 32}

theorem cellProp_word {name : String} {x : BitVec 32} (h : t.word node name = some x)
    (default : BitVec 32) : cellProp t node name default = x := by
  unfold Tree.word at h
  cases hv : t.getprop node name with
  | none =>
    rw [hv] at h
    cases h
  | some v =>
    rw [hv] at h
    dsimp only at h
    split at h
    · rename_i hlen
      rw [cellProp, hv]
      dsimp only
      rw [if_pos (by omega), peek, hv, Option.bind_some, h, Option.getD_some]
    · cases h

theorem divisor_eq (freq baud : BitVec 32) : divisor freq baud =
    if baud.toNat = 0 then .ok 0
    else if 16 * baud.toNat % 2 ^ 32 = 0 then .error .divisionByZero
    else .ok (BitVec.ofNat 16 (computed freq.toNat baud.toNat)) := by
  have hbaud : baud ≠ 0 ↔ ¬ baud.toNat = 0 := by
    rw [not_iff_not, ← BitVec.toNat_inj]
    rfl
  have hden : (16 * baud).toNat = 16 * baud.toNat % 2 ^ 32 := BitVec.toNat_mul ..
  have hzero : 16 * baud = 0 ↔ 16 * baud.toNat % 2 ^ 32 = 0 := by
    rw [← BitVec.toNat_inj, hden]
    rfl
  have hnum : (freq + 8 * baud).toNat = (freq.toNat + 8 * baud.toNat) % 2 ^ 32 := by
    rw [BitVec.toNat_add, BitVec.toNat_mul]
    exact Nat.add_mod_mod ..
  have hquot : ((freq + 8 * baud) / (16 * baud)).setWidth 16 =
      BitVec.ofNat 16 (computed freq.toNat baud.toNat) := by
    refine BitVec.eq_of_toNat_eq ?_
    rw [BitVec.toNat_setWidth, BitVec.toNat_udiv, hnum, hden, BitVec.toNat_ofNat, computed,
      Nat.mod_mod]
  rw [divisor, hquot]
  simp only [hbaud, hzero, ite_not]

theorem addDevice_located (h : Located t node base regsize)
    (hfreq : t.word node "clock-frequency" = some freq)
    (hbaud : t.word node "current-speed" = some baud) :
    ∃ u : Uart8250, ∀ d, addDevice t node base regsize d = (divisor freq baud).bind fun bdiv =>
      .ok (d.hdlCount + 1, ⟨d.hdl ++ [(d.hdlCount + 1, u)], d.hdlCount + 1,
        d.accesses ++ setup u bdiv⟩) := by
  unfold Located at h
  unfold addDevice
  generalize (getNodeAddrSize t node 0 true true).run ⟨[], some base, some regsize⟩ = r at h ⊢
  obtain ⟨rc, o⟩ := r
  obtain ⟨hrc, hbase, hsize⟩ := h
  have hgo : ¬ (rc < 0 ∨ o.addr.getD base = 0 ∨ o.size.getD regsize = 0) :=
    not_or.mpr ⟨Int.not_lt.mpr hrc, not_or.mpr ⟨hbase, hsize⟩⟩
  refine ⟨describe t node (o.addr.getD base), fun d => ?_⟩
  dsimp only
  rw [if_neg hgo, show (describe t node (o.addr.getD base)).freq = freq from cellProp_word hfreq _,
    show (describe t node (o.addr.getD base)).baud = baud from cellProp_word hbaud _]
  rfl

theorem divisor_right_iff (h : Located t node base regsize)
    (hfreq : t.word node "clock-frequency" = some freq)
    (hbaud : t.word node "current-speed" = some baud) :
    DivisorRight t node base regsize freq.toNat baud.toNat ↔
      DivisorSafe freq.toNat baud.toNat := by
  obtain ⟨u, hdev⟩ := addDevice_located h hfreq hbaud
  rw [divisorSafe_iff freq.isLt]
  unfold DivisorRight
  simp only [hdev, divisor_eq]
  by_cases hb : baud.toNat = 0
  · rw [if_pos hb]
    exact iff_of_true (fun d => ⟨_, _, _, rfl, rfl, fun hpos => absurd hb (Nat.ne_of_gt hpos)⟩)
      (.inl hb)
  rw [if_neg hb, or_iff_right hb]
  by_cases hden : 16 * baud.toNat % 2 ^ 32 = 0
  · rw [if_pos hden]
    refine iff_of_false (fun hall => ?_) fun hc => hc.1 hden
    obtain ⟨_, _, _, hok, -⟩ := hall ⟨[], 0, []⟩
    cases hok
  rw [if_neg hden, and_iff_right hden]
  have hcomp : (BitVec.ofNat 16 (computed freq.toNat baud.toNat)).toNat =
      computed freq.toNat baud.toNat := by
    rw [BitVec.toNat_ofNat, computed, Nat.mod_mod]
  have hlatch := latch_iff u (BitVec.ofNat 16 (computed freq.toNat baud.toNat)) freq.toNat
    baud.toNat
  rw [hcomp] at hlatch
  rw [← hlatch]
  constructor
  · intro hall
    obtain ⟨rc, d', as, hok, has, hright⟩ := hall ⟨[], 0, []⟩
    cases hok
    rw [List.append_cancel_left_eq] at has
    rw [has]
    exact hright (Nat.pos_of_ne_zero hb)
  · intro hright d
    exact ⟨_, _, _, rfl, rfl, fun _ => hright⟩

end Device

def serial (clock speed : Bytes) (hc : clock.length < 2 ^ 31) (hs : speed.length < 2 ^ 31) : Tree where
  nodes := [⟨0, "", none, [("#address-cells", [0, 0, 0, 1]), ("#size-cells", [0, 0, 0, 1])]⟩,
    ⟨8, "serial@10000000", some 0, [("reg", [0x10, 0, 0, 0, 0, 0, 1, 0]),
      ("clock-frequency", clock), ("current-speed", speed)]⟩]
  inOrder := by simp
  above := by simp
  short := by
    simp only [List.forall_mem_cons]
    exact ⟨⟨by decide, by decide, nofun⟩, ⟨by decide, hc, hs, nofun⟩, nofun⟩
  memRsv := []
  beyond := fun _ _ _ => 0

def ordinary : Tree := serial [0, 0x38, 0x40, 0] [0, 1, 0xc2, 0] (by decide) (by decide)

theorem divisor_right_115200 : DivisorRight ordinary 8 0 0 3686400 115200 ∧
    roundHalfUp 3686400 (16 * 115200) = 2 := by
  have hloc : Located ordinary 8 0 0 := by decide +kernel
  have hfreq : ordinary.word 8 "clock-frequency" = some 3686400 := by decide +kernel
  have hbaud : ordinary.word 8 "current-speed" = some 115200 := by decide +kernel
  exact ⟨(divisor_right_iff hloc hfreq hbaud).mpr (by decide), by decide⟩

def fast : Tree := serial [0, 0x38, 0x40, 0] [0x10, 0, 0, 0] (by decide) (by decide)

theorem divisor_by_zero :
    (∀ d, addDevice fast 8 0 0 d = .error .divisionByZero) ∧
    ¬ DivisorRight fast 8 0 0 3686400 0x10000000 := by
  have hloc : Located fast 8 0 0 := by decide +kernel
  have hfreq : fast.word 8 "clock-frequency" = some 3686400 := by decide +kernel
  have hbaud : fast.word 8 "current-speed" = some 0x10000000 := by decide +kernel
  have hdev : ∀ d, addDevice fast 8 0 0 d = .error .divisionByZero := by
    obtain ⟨u, hdev⟩ := addDevice_located hloc hfreq hbaud
    intro d
    rw [hdev, show divisor 3686400 0x10000000 = .error .divisionByZero by decide]
    rfl
  refine ⟨hdev, fun h => ?_⟩
  obtain ⟨rc, d', as, hok, -⟩ := h ⟨[], 0, []⟩
  cases (hdev _).symm.trans hok

end Abydos.Uart
