import Mathlib.Logic.Function.Basic

namespace Abydos.Driver

abbrev Str := List UInt8

def DRV_CAP_THIS : Int := 1
def DRV_CAP_COVER : Int := 2

inductive DevType
  | NONE | SYS | PERIP | CHAR | BLOCK
  deriving DecidableEq

def DevType.val : DevType → Nat
  | .NONE => 0
  | .SYS => 1
  | .PERIP => 0x80
  | .CHAR => 0x81
  | .BLOCK => 0x82

inductive Node
  | mk (offset : Nat) (name compatible : Option Str) (subnodes : List Node)

structure Place where
  offset : Nat
  name : Option Str
  above : List Nat

mutual

def Node.places (above : List Nat) : Node → List Place
  | .mk offset name _ subnodes => ⟨offset, name, above⟩ :: placesOf (offset :: above) subnodes

def placesOf (above : List Nat) : List Node → List Place
  | [] => []
  | n :: ns => n.places above ++ placesOf above ns

end

structure Fdt where
  root : Node
  distinct : ((root.places []).map Place.offset).Nodup

def Fdt.places (fdt : Fdt) : List Place := fdt.root.places []

def Fdt.getName (fdt : Fdt) (node : Nat) : Option Str :=
  (fdt.places.find? fun pl => pl.offset = node).bind Place.name

abbrev DrvPtr := Nat

structure Entry where
  drv : DrvPtr
  cap : Int
  handler : Int
  deriving DecidableEq

abbrev Devhdl := Nat → Option Entry

/-- `insert` leaves a key that is there alone. -/
def Devhdl.insert (h : Devhdl) (node : Nat) (e : Entry) : Devhdl :=
  Function.update h node (some ((h node).getD e))

def markInstalled (fdt : Fdt) (node : Nat) (handler : Int) (drv : DrvPtr) (cap : Int)
    (h : Devhdl) : Int × Devhdl :=
  match fdt.getName node with
  | none => (-1, h)
  | some _ => (0, h.insert node ⟨drv, cap, handler⟩)

structure Mark where
  node : Nat
  handler : Int
  drv : DrvPtr

def Mark.apply (fdt : Fdt) (h : Devhdl) (mark : Mark) : Devhdl :=
  (markInstalled fdt mark.node mark.handler mark.drv DRV_CAP_THIS h).2

/-- A driver, over the state `W` of all that is not `DriverManager`'s.  Its methods may read the
table of devices; `addDevice` changes it by marking nodes at most. -/
structure DriverBase (W : Type) where
  getDeviceType : DevType
  probe : Str → Str → Devhdl → W → Int × W
  addDevice : Fdt → Nat → Devhdl → W → Int × Devhdl × W
  marks : ∀ fdt node h w,
    ∃ ms : List Mark, (addDevice fdt node h w).2.1 = ms.foldl (Mark.apply fdt) h

inductive Event
  | tried (node : Nat) (ret : Int)
  | offered (drv : DrvPtr) (node : Nat) (h : Devhdl)
  | added (drv : DrvPtr) (node : Nat) (h : Devhdl)

structure DriverManager (W : Type) where
  _devhdl : Devhdl
  world : W
  log : List Event

abbrev DriverM (W : Type) := StateM (DriverManager W)

variable {W : Type} (fdt : Fdt) (driver : DrvPtr → DriverBase W) (_drvlist : List DrvPtr)

def record (e : Event) : DriverM W Unit := modify fun s => { s with log := s.log ++ [e] }

def offer (type : DevType) (node : Nat) (name compatible : Str) (p : DrvPtr) : DriverM W Int := do
  let dt := (driver p).getDeviceType
  if (type = .PERIP ∧ type.val < dt.val) ∨ (type = .NONE ∧ type.val < dt.val) ∨ type = dt then
    let s ← get
    record (.offered p node s._devhdl)
    let (rc, world) := (driver p).probe name compatible s._devhdl s.world
    modify fun s => { s with world }
    return rc
  else
    return 0

def findIf (type : DevType) (node : Nat) (name compatible : Str) :
    List DrvPtr → DriverM W (Option (DrvPtr × Int))
  | [] => return none
  | p :: ps => do
    let rc ← offer driver type node name compatible p
    if 0 < rc then return some (p, rc) else findIf type node name compatible ps

def getDriverByProbe (name compatible : Str) : List DrvPtr → DriverM W (Option DrvPtr)
  | [] => return none
  | p :: ps => do
    let s ← get
    let (rc, world) := (driver p).probe name compatible s._devhdl s.world
    modify fun s => { s with world }
    if 0 < rc then return some p else getDriverByProbe name compatible ps

def _try (type : DevType) (node : Nat) (name compatible : Option Str) : DriverM W Int := do
  let s ← get
  match s._devhdl node with
  | some e => return e.cap
  | none =>
    match name with
    | none => return -1
    | some nodeName => do
      match ← findIf driver type node nodeName (compatible.getD []) _drvlist with
      | none => return 0
      | some (drv, rc) => do
        let s ← get
        record (.added drv node s._devhdl)
        let (hdl, h, world) := (driver drv).addDevice fdt node s._devhdl s.world
        modify fun s => { s with _devhdl := h, world }
        if 0 ≤ hdl then
          modify fun s => { s with _devhdl := s._devhdl.insert node ⟨drv, rc, hdl⟩ }
        return rc

mutual

def probe (type : DevType) : Node → DriverM W Int
  | .mk offset name compatible subnodes => do
    let tret ← _try fdt driver _drvlist type offset name compatible
    record (.tried offset tret)
    if tret < 0 then return -1
    else if 1 < tret then return 0
    else do
      probeSubnodes type subnodes
      return 0

/-- The loop over the subnodes is one behind: what it is at is probed when there is a next one, and
the last after the loop. -/
def probeSubnodes (type : DevType) : List Node → DriverM W Unit
  | [] => return
  | [prev] => do
    let _ ← probe type prev
  | prev :: child :: children => do
    let _ ← probe type prev
    probeSubnodes type (child :: children)

end

def passes : List DevType → DriverManager W → DriverManager W
  | [], s => s
  | type :: types, s => passes types ((probe fdt driver _drvlist type fdt.root).run s).2

end Abydos.Driver
