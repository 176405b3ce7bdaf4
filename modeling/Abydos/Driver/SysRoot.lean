import Abydos.Driver.Manager
import Abydos.Fdt.Helper
import Abydos.Lib.Numeral

namespace Abydos.SysRoot

open Abydos.Fdt Abydos.Lib
open Abydos.Driver (Str DrvPtr DriverBase DriverManager DriverM getDriverByProbe DRV_CAP_THIS)

def str (s : String) : Str := s.toList.map fun c => UInt8.ofNat c.toNat

def comma : UInt8 := 0x2c

def K_CONFIG_DEFAULT_SCHEDULER : Str := str "scheduler-rr"

structure GenericRoot where
  _compatible : Str := []
  _model : Str := []
  _stdout_path : Str := []
  _bootargs : Str := []
  _initrd_path : Str := []
  _scheduler : Option DrvPtr := none

structure State (W : Type) where
  root : GenericRoot
  drivers : DriverManager W

abbrev RootM (W : Type) := StateM (State W)

/-- The string that a property begins with.  Without an end in the property it goes on in the memory
after it, with `after`. -/
def cString (after : Str) (v : Bytes) : Str :=
  v.takeWhile (· ≠ 0) ++ if 0 ∈ v then [] else after

def find (s pat : Str) (pos : Nat) : Option Nat :=
  (List.range' pos (s.length + 1 - pos)).find? fun i => pat.isPrefixOf (s.drop i)

def toStr (x : BitVec 64) : Str := Numeral.write 10 x.toNat

/-- A number of one or two cells; nothing is stored for any other length. -/
def cellsValue (v : Bytes) : BitVec 64 :=
  if v.length = 4 then ((cellAt v 0).getD 0).setWidth 64
  else if v.length = 8 then (cellAt v 0).getD 0 ++ (cellAt v 1).getD 0
  else 0

def sysmemBase : BitVec 64 := 0xFFFFFFC000000000

section Functions

variable {W : Type} (t : Tree) (after : Int → String → Str) (driver : DrvPtr → DriverBase W)
  (_drvlist : List DrvPtr) (this : DrvPtr)

def stringProp (node : Int) (name : String) : Option Str :=
  (t.getprop node name).map (cString (after node name))

def initrdPath (chosen : Int) : Option Str :=
  match t.getprop chosen "linux,initrd-start" with
  | none => none
  | some v =>
    let s := cellsValue v
    let e := ((t.getprop chosen "linux,initrd-end").map cellsValue).getD 0
    if s ≠ 0 ∧ e ≠ 0 ∧ s < e then
      let s := s ||| sysmemBase
      let e := e ||| sysmemBase
      some (toStr s ++ comma :: toStr (e - s))
    else none

def schedulerName (_bootargs : Str) : Option Str :=
  match find _bootargs (str "-use-scheduler-") 0 with
  | none => none
  | some st =>
    let st := st + 15
    match find _bootargs (str " ") st with
    | none => some (_bootargs.drop st)
    | some fin => if st < fin then some ((_bootargs.drop st).take (fin - st)) else none

def setRoot (f : GenericRoot → GenericRoot) : RootM W Unit :=
  modify fun s => { s with root := f s.root }

def ofDrivers (x : DriverM W α) : RootM W α := fun s =>
  let (a, drivers) := x.run s.drivers
  (a, { s with drivers })

def useScheduler (name : Str) : RootM W Bool := do
  match ← ofDrivers (getDriverByProbe driver name (str "sys,scheduler") _drvlist) with
  | none => return false
  | some drv => do
    setRoot fun r => { r with _scheduler := some drv }
    return true

def bootargs (chosen : Int) : RootM W Unit :=
  match stringProp t after chosen "bootargs" with
  | none => return
  | some args => do
    setRoot fun r => { r with _bootargs := args }
    match schedulerName args with
    | none => return
    | some name => do
      let _ ← useScheduler driver _drvlist (str "scheduler-" ++ name)

def fallback : RootM W Bool := do
  let s ← get
  if s.root._scheduler = none then useScheduler driver _drvlist K_CONFIG_DEFAULT_SCHEDULER
  else return true

def markInstalled (node : Int) : RootM W Int := do
  match t.getName node with
  | none => return -1
  | some _ => do
    modify fun s => { s with drivers := { s.drivers with
      _devhdl := s.drivers._devhdl.insert node.toNat ⟨this, DRV_CAP_THIS, 0⟩ } }
    return 0

def chosen : Int := t.subnodeOffset 0 "chosen"

def addDevice (node : Int) : RootM W Int := do
  if node = 0 then
    setRoot fun r => { r with
      _compatible := (stringProp t after node "compatible").getD (str "Generic")
      _model := (stringProp t after node "model").getD (str "Generic") }
    let rc := chosen t
    if rc ≥ 0 then
      setRoot fun r => { r with
        _stdout_path := (stringProp t after rc "stdout-path").getD r._stdout_path
        _initrd_path := (initrdPath t rc).getD r._initrd_path }
      bootargs t after driver _drvlist rc
      if ← fallback driver _drvlist then
        let _ ← markInstalled t this rc
        return 0
      else return K_EINVAL
    else return K_ENODEV
  else return K_ENODEV

end Functions

section Frame

variable {W : Type} {t : Tree} {after : Int → String → Str} {driver : DrvPtr → DriverBase W}
  {_drvlist : List DrvPtr} {this : DrvPtr}

theorem run_setRoot (f : GenericRoot → GenericRoot) (s : State W) :
    (setRoot f).run s = ((), { s with root := f s.root }) := rfl

def KeepsInitrd (x : RootM W α) : Prop :=
  ∀ s, (x.run s).2.root._initrd_path = s.root._initrd_path

namespace KeepsInitrd

theorem pure (a : α) : KeepsInitrd (pure a : RootM W α) := fun _ => rfl

theorem bind {x : RootM W α} {f : α → RootM W β} (hx : KeepsInitrd x)
    (hf : ∀ a, KeepsInitrd (f a)) : KeepsInitrd (x >>= f) := by
  intro s
  rw [run_bind (rfl : x.run s = ((x.run s).1, (x.run s).2)), hf]
  exact hx s

theorem useScheduler (name : Str) : KeepsInitrd (useScheduler driver _drvlist name) := by
  refine bind (fun _ => rfl) fun drv => ?_
  cases drv with
  | none => exact pure false
  | some drv => exact bind (fun _ => rfl) fun _ => pure true

theorem bootargs (node : Int) : KeepsInitrd (bootargs t after driver _drvlist node) := by
  unfold SysRoot.bootargs
  split
  · exact pure ()
  · refine bind (fun _ => rfl) fun _ => ?_
    split
    · exact pure ()
    · exact bind (useScheduler _) fun _ => pure ()

theorem fallback : KeepsInitrd (fallback driver _drvlist) := by
  refine bind (fun _ => rfl) fun s => ?_
  split
  · exact useScheduler _
  · exact pure true

theorem markInstalled (node : Int) : KeepsInitrd (markInstalled t this node : RootM W Int) := by
  unfold SysRoot.markInstalled
  split
  · exact pure (-1)
  · exact bind (fun _ => rfl) fun _ => pure 0

end KeepsInitrd

theorem addDevice_initrd (h : 0 ≤ chosen t) (s : State W) :
    ((addDevice t after driver _drvlist this 0).run s).2.root._initrd_path =
      (initrdPath t (chosen t)).getD s.root._initrd_path := by
  have hrest : KeepsInitrd (do
      bootargs t after driver _drvlist (chosen t)
      if ← fallback driver _drvlist then
        let _ ← markInstalled t this (chosen t)
        return (0 : Int)
      else return K_EINVAL : RootM W Int) := by
    refine .bind (.bootargs _) fun _ => .bind .fallback fun ok => ?_
    cases ok with
    | false => exact .pure _
    | true => exact .bind (.markInstalled _) fun _ => .pure 0
  rw [addDevice, if_pos rfl, run_bind (run_setRoot _ s)]
  dsimp only
  rw [if_pos h, run_bind (run_setRoot _ _), hrest]

end Frame

theorem cellsValue_number {v : Bytes} (h : v.length = 4 ∨ v.length = 8) :
    (cellsValue v).toNat = number v := by
  have hlen : 4 * (0 + 1) ≤ v.length := by omega
  obtain ⟨x, hx⟩ := Option.isSome_iff_exists.mp (cellAt_isSome.mpr hlen)
  have hcell : x.toNat = number (v.take 4) := cell_number hx
  unfold cellsValue
  rw [hx]
  rcases h with h | h
  · rw [List.take_of_length_le (Nat.le_of_eq h)] at hcell
    rw [if_pos h, Option.getD_some, BitVec.toNat_setWidth_of_le (by decide), hcell]
  · have hlen' : 4 * (1 + 1) ≤ v.length := by omega
    obtain ⟨y, hy⟩ := Option.isSome_iff_exists.mp (cellAt_isSome.mpr hlen')
    have hrest : y.toNat = number (v.drop 4) := by
      rw [cell_number hy, List.take_of_length_le (by rw [List.length_drop]; omega)]
    have hsplit := number_append (v.take 4) (v.drop 4)
    rw [List.take_append_drop, List.length_drop, h] at hsplit
    rw [if_neg (by omega), if_pos h, hy, Option.getD_some, Option.getD_some, Word.toNat_append,
      hcell, hrest, hsplit]

end Abydos.SysRoot
