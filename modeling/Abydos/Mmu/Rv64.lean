import Abydos.Defs
import Abydos.Lib.Program
import Abydos.Mmu.Pte

/-! The class `RV64MMU<sz>` over physical memory.  Memory holds one `pte_t` per word address; the
kernel reaches it through the direct map at `K_VADDR_BASE`, and any other address traps. -/

namespace Abydos.Mmu

open Abydos.Lib

inductive Mode
  | sv39 | sv48 | sv57
  deriving DecidableEq

def PROT_R : BitVec 32 := 1
def PROT_W : BitVec 32 := 2
def PROT_X : BitVec 32 := 4
def PROT_U : BitVec 32 := 8
def PROT_G : BitVec 32 := 16
def PROT_IO : BitVec 32 := 32

def VARIANT_THEAD_C906 : Int := 1

def K_VADDR_BASE : Addr := 0xFFFFFFC000000000#64

def vpn0 (va : Addr) : BitVec 9 := va.extractLsb' 12 9
def vpn1 (va : Addr) : BitVec 9 := va.extractLsb' 21 9
def vpn2 (va : Addr) : BitVec 9 := va.extractLsb' 30 9
def vpn3 (va : Addr) : BitVec 9 := va.extractLsb' 39 9
def vpn4 (va : Addr) : BitVec 9 := va.extractLsb' 48 9

namespace Mode

def sz : Mode → Nat
  | .sv39 => 39
  | .sv48 => 48
  | .sv57 => 57

def mmutype : Mode → Nat
  | .sv39 => 8
  | .sv48 => 9
  | .sv57 => 10

def getMaxLevel : Mode → Nat
  | .sv39 => 2
  | .sv48 => 3
  | .sv57 => 4

def getVPN : Mode → Nat → Addr → BitVec 9
  | .sv39, 0, va => vpn2 va
  | .sv48, 0, va => vpn3 va
  | .sv57, 0, va => vpn4 va
  | .sv39, 1, va => vpn1 va
  | .sv48, 1, va => vpn2 va
  | .sv57, 1, va => vpn3 va
  | .sv39, 2, va => vpn0 va
  | .sv48, 2, va => vpn1 va
  | .sv57, 2, va => vpn2 va
  | .sv48, 3, va => vpn0 va
  | .sv57, 3, va => vpn1 va
  | .sv57, 4, va => vpn0 va
  | _, _, _ => 0

def calcLevel (m : Mode) (blocksz : Nat) : Int :=
  let fromTop (level : Int) : Int :=
    if level + m.getMaxLevel < 0 then K_EINVAL else level + m.getMaxLevel
  match blocksz with
  | 12 => fromTop 0
  | 21 => fromTop (-1)
  | 30 => fromTop (-2)
  | 39 => fromTop (-3)
  | 48 => fromTop (-4)
  | _ => K_EINVAL

/-- The size of the block the loop of `map` maps next, `none` at its final
`return K_EINVALID_ADDR`. -/
def mapSplit (m : Mode) (vaddr size vcaddr pcaddr : Addr) : Option Nat :=
  if m.sz ≥ 57 ∧ vcaddr &&& 0xFFFFFFFFFFFF = 0 ∧ pcaddr &&& 0xFFFFFFFFFFFF = 0 ∧
      size - (vcaddr - vaddr) ≥ 1#64 <<< 48 then some 48
  else if m.sz ≥ 48 ∧ vcaddr &&& 0x7FFFFFFFFF = 0 ∧ pcaddr &&& 0x7FFFFFFFFF = 0 ∧
      size - (vcaddr - vaddr) ≥ 1#64 <<< 39 then some 39
  else if vcaddr &&& 0x3FFFFFFF = 0 ∧ pcaddr &&& 0x3FFFFFFF = 0 ∧
      size - (vcaddr - vaddr) ≥ 1#64 <<< 30 then some 30
  else if vcaddr &&& 0x1FFFFF = 0 ∧ pcaddr &&& 0x1FFFFF = 0 ∧
      size - (vcaddr - vaddr) ≥ 1#64 <<< 21 then some 21
  else if vcaddr &&& 0xFFF = 0 ∧ pcaddr &&& 0xFFF = 0 ∧
      size - (vcaddr - vaddr) ≥ 1#64 <<< 12 then some 12
  else none

def unmapSplit (m : Mode) (vaddr size vcaddr : Addr) : Option Nat :=
  if m.sz ≥ 57 ∧ vcaddr &&& 0xFFFFFFFFFFFF = 0 ∧ size - (vcaddr - vaddr) ≥ 1#64 <<< 48 then some 48
  else if m.sz ≥ 48 ∧ vcaddr &&& 0x7FFFFFFFFF = 0 ∧
      size - (vcaddr - vaddr) ≥ 1#64 <<< 39 then some 39
  else if vcaddr &&& 0x3FFFFFFF = 0 ∧ size - (vcaddr - vaddr) ≥ 1#64 <<< 30 then some 30
  else if vcaddr &&& 0x1FFFFF = 0 ∧ size - (vcaddr - vaddr) ≥ 1#64 <<< 21 then some 21
  else if vcaddr &&& 0xFFF = 0 ∧ size - (vcaddr - vaddr) ≥ 1#64 <<< 12 then some 12
  else none

end Mode

structure Satp where
  ppn : BitVec 44 := 0
  asid : BitVec 16 := 0
  mode : BitVec 4 := 0
  deriving DecidableEq

abbrev Mem := Nat → Pte

structure Access where
  mem : Mem
  tables : List Nat
  addr : Addr

/-- An `RV64MMU` object together with physical memory and the heap.  `pool` lists the pages
`memalign` will return; `tables` (the physical pages it has returned) and `log` are history. -/
structure State where
  mem : Mem
  pool : List Addr
  ptes : Addr := 0
  variant : Int := 0
  satp : Satp := {}
  tables : List Nat := []
  log : List Access := []

inductive Trap
  | fault (addr : Addr)
  | noMemory
  | diverges
  deriving DecidableEq

abbrev MmuM := Prog State Trap

def toPhys (a : Addr) : Option Nat :=
  if K_VADDR_BASE ≤ a then some (a - K_VADDR_BASE).toNat else none

def record (a : Addr) : MmuM Unit :=
  modify fun σ => { σ with log := ⟨σ.mem, σ.tables, a⟩ :: σ.log }

def load (a : Addr) : MmuM Pte := do
  record a
  match toPhys a with
  | none => throw (.fault a)
  | some p => return (← get).mem p

def store (a : Addr) (e : Pte) : MmuM Unit := do
  record a
  match toPhys a with
  | none => throw (.fault a)
  | some p => modify fun σ => { σ with mem := Function.update σ.mem p e }

def modifyPTE (a : Addr) (f : Pte → Pte) : MmuM Unit := do
  store a (f (← load a))

def alignedMalloc : MmuM Addr := do
  match (← get).pool with
  | [] => throw .noMemory
  | a :: pool =>
    modify fun σ => { σ with pool, tables := (a - K_VADDR_BASE).toNat :: σ.tables }
    return a

def zeroPage (p : Nat) (mem : Mem) : Mem :=
  fun a => if p ≤ a ∧ a < p + 4096 then {} else mem a

def memset (a : Addr) : MmuM Unit := do
  match toPhys a with
  | none => throw (.fault a)
  | some p => modify fun σ => { σ with mem := zeroPage p σ.mem }

def entry (base : Addr) (poff : BitVec 9) : Addr := base + 8 * poff.setWidth 64

def Pte.link (table : Addr) (e : Pte) : Pte :=
  Pte.fit { e.ppn (table &&& ~~~ 0xFFFFFFC000000000#64) with
    v := true, r := false, w := false, x := false }

def Pte.leaf (variant : Int) (paddr : Addr) (prot : BitVec 32) (e : Pte) : Pte :=
  let e := Pte.fit (Pte.ppn { e with
    v := true
    r := prot &&& PROT_R ≠ 0
    w := prot &&& PROT_W ≠ 0
    x := prot &&& PROT_X ≠ 0
    u := prot &&& PROT_U ≠ 0
    g := prot &&& PROT_G ≠ 0
    d := prot &&& PROT_W ≠ 0
    a := prot &&& PROT_R ≠ 0 } paddr)
  if variant = VARIANT_THEAD_C906 ∧ prot &&& PROT_IO = 0 then { e with reserved := 0x180 } else e

def Pte.clear (e : Pte) : Pte := Pte.fit (Pte.ppn { e with v := false } 0)

namespace Mode

variable (m : Mode)

def new (asid : BitVec 16) (variant : Int) : MmuM Unit := do
  let ptes ← alignedMalloc
  memset ptes
  let root := ptes &&& ~~~ 0xFFFFFFC000000000#64
  modify fun σ => { σ with
    ptes, variant
    satp := { mode := BitVec.ofNat 4 m.mmutype, asid
              ppn := if root &&& 4095 ≠ 0 then σ.satp.ppn else (root >>> 12).setWidth 44 } }

def createPTE : Nat → Addr → MmuM Addr
  | 0, vaddr => return entry (← get).ptes (m.getVPN 0 vaddr)
  | level + 1, vaddr => do
    let poff := m.getVPN (level + 1) vaddr
    let parent ← createPTE level vaddr
    let base := (← load parent).paddr
    if base ≠ 0 then
      return entry (base + 0xFFFFFFC000000000#64) poff
    else
      let thisPTE ← alignedMalloc
      memset thisPTE
      modifyPTE parent (Pte.link thisPTE)
      return entry thisPTE poff

def getPTE : Nat → Addr → MmuM Addr
  | 0, vaddr => return entry (← get).ptes (m.getVPN 0 vaddr)
  | level + 1, vaddr => do
    let parent ← getPTE level vaddr
    -- unlike `createPTE`, the direct-map offset is not added here
    return entry (← load parent).paddr (m.getVPN (level + 1) vaddr)

def mapBlock (blocksz : Nat) (vaddr paddr : Addr) (prot : BitVec 32) : MmuM Int := do
  let level := m.calcLevel blocksz
  if level < 0 then
    return level
  else
    let pte ← m.createPTE level.toNat vaddr
    if (← load pte).v then
      return K_EALREADY
    else
      let variant := (← get).variant
      modifyPTE pte (Pte.leaf variant paddr prot)
      return 0

def unmapBlock (blocksz : Nat) (vaddr : Addr) : MmuM Int := do
  let level := m.calcLevel blocksz
  if level < 0 then
    return level
  else
    let pte ← m.getPTE level.toNat vaddr
    if (← load pte).v then
      modifyPTE pte Pte.clear
      return 0
    else
      return K_EALREADY

def mapLoop (vaddr size : Addr) (prot : BitVec 32) : Nat → Addr → Addr → Int → MmuM Int
  | 0, _, _, _ => throw .diverges
  | fuel + 1, vcaddr, pcaddr, rc =>
    if vcaddr < vaddr + size then
      if rc ≠ 0 then
        return rc
      else
        match m.mapSplit vaddr size vcaddr pcaddr with
        | some blocksz => do
          let rc ← m.mapBlock blocksz vcaddr pcaddr prot
          mapLoop vaddr size prot fuel (vcaddr + 1#64 <<< blocksz) (pcaddr + 1#64 <<< blocksz) rc
        | none => return K_EINVALID_ADDR
    else
      return rc

def map (vaddr paddr size : Addr) (prot : BitVec 32) : MmuM Int :=
  if vaddr &&& 0xFFF ≠ 0 ∨ paddr &&& 0xFFF ≠ 0 ∨ size &&& 0xFFF ≠ 0 then
    return K_EINVAL
  else if size = 0 then
    return 0
  else if vaddr + size < vaddr ∨ paddr + size < paddr then
    return K_EINVALID_ADDR
  else
    let prott := prot &&& (PROT_R ||| PROT_W ||| PROT_X)
    if prott = 0b000 ∨ prott = 0b010 ∨ prott = 0b110 then
      return K_ENOSPC
    else
      m.mapLoop vaddr size prot (size.toNat / 4096 + 1) vaddr paddr 0

def unmapLoop (vaddr size : Addr) : Nat → Addr → Int → MmuM Int
  | 0, _, _ => throw .diverges
  | fuel + 1, vcaddr, rc =>
    if vcaddr < vaddr + size then
      if rc ≠ 0 then
        return rc
      else
        match m.unmapSplit vaddr size vcaddr with
        | some blocksz => do
          let rc ← m.unmapBlock blocksz vcaddr
          unmapLoop vaddr size fuel (vcaddr + 1#64 <<< blocksz) rc
        | none => return K_EINVALID_ADDR
    else
      return rc

def unmap (vaddr size : Addr) : MmuM Int :=
  if vaddr &&& 0xFFF ≠ 0 ∨ size &&& 0xFFF ≠ 0 then
    return K_EINVAL
  else if size = 0 then
    return 0
  else if vaddr + size < vaddr then
    return K_EINVALID_ADDR
  else
    m.unmapLoop vaddr size (size.toNat / 4096 + 1) vaddr 0

end Mode

end Abydos.Mmu
