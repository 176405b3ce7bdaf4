import Abydos.Fdt.Libfdt

/-! A flattened device tree in memory, as `fdt.c`, `fdt_ro.c` and `fdt_addresses.c` read it with no
assumption enabled (`FDT_ASSUME_MASK` is 0). -/

namespace Abydos.Fdt

def FDT_ERR_BADPATH : Int := 5
def FDT_ERR_BADSTATE : Int := 7
def FDT_ERR_TRUNCATED : Int := 8
def FDT_ERR_BADMAGIC : Int := 9
def FDT_ERR_BADVERSION : Int := 10
def FDT_ERR_BADSTRUCTURE : Int := 11
def FDT_ERR_INTERNAL : Int := 13
def FDT_ERR_ALIGNMENT : Int := 19

def FDT_MAGIC : Nat := 0xd00dfeed
def FDT_SW_MAGIC : Nat := 0xffffffff - FDT_MAGIC
def FDT_FIRST_SUPPORTED_VERSION : Nat := 0x02
def FDT_LAST_SUPPORTED_VERSION : Nat := 0x11

def FDT_BEGIN_NODE : Nat := 0x1
def FDT_END_NODE : Nat := 0x2
def FDT_PROP : Nat := 0x3
def FDT_NOP : Nat := 0x4
def FDT_END : Nat := 0x9

def FDT_TAGSIZE : Nat := 4

def INT_MAX : Nat := 2 ^ 31 - 1

def int (x : Int) : Int := (x + 2 ^ 31) % 2 ^ 32 - 2 ^ 31

def uint (x : Int) : Nat := (x % 2 ^ 32).toNat

def raw (s : String) : Bytes := s.toList.map fun c => UInt8.ofNat c.toNat

def slash : UInt8 := 0x2f
def atSign : UInt8 := 0x40

/-- `FDT_TAGALIGN`: the mask clears two bits, which rounds down. -/
def tagalign (offset : Int) : Int := int ((offset + 3) / 4 * 4)

/-- The block of memory that a device tree is in.  It has room for a header; pointers are offsets from
its first byte. -/
structure Blob where
  addr : BitVec 64
  bytes : Bytes
  header : 40 ≤ bytes.length

/-- The outcome of code that reads the block: `none` is a read outside it. -/
abbrev Read := Option

namespace Blob

variable (b : Blob)

def byte (p : Nat) : Read UInt8 := b.bytes[p]?

def load (p : Nat) : Read Nat := (cell (b.bytes.drop p)).map BitVec.toNat

def load64 (p : Nat) : Read (BitVec 64) := do
  let hi ← cell (b.bytes.drop p)
  let lo ← cell (b.bytes.drop (p + 4))
  return hi ++ lo

def strlen (p : Nat) : Read Nat :=
  let s := (b.bytes.drop p).takeWhile (· ≠ 0)
  if p + s.length < b.bytes.length then some s.length else none

/-- `memchr(p, 0, len)`: a read outside is one that is needed to decide. -/
def memchr0 (p len : Nat) : Read (Option Nat) :=
  let s := ((b.bytes.drop p).take len).takeWhile (· ≠ 0)
  if s.length = len then some none
  else if p + s.length < b.bytes.length then some (some s.length)
  else none

def slice (p len : Nat) : Read Bytes :=
  if p + len ≤ b.bytes.length then some ((b.bytes.drop p).take len) else none

def getHeader (field : Nat) : Nat := ((cell (b.bytes.drop (4 * field))).getD 0).toNat

def magic : Nat := b.getHeader 0
def totalsize : Nat := b.getHeader 1
def offDtStruct : Nat := b.getHeader 2
def offDtStrings : Nat := b.getHeader 3
def offMemRsvmap : Nat := b.getHeader 4
def version : Nat := b.getHeader 5
def lastCompVersion : Nat := b.getHeader 6
def sizeDtStrings : Nat := b.getHeader 8
def sizeDtStruct : Nat := b.getHeader 9

def roProbe : Int :=
  let checked : Int := if b.totalsize < INT_MAX then b.totalsize else -FDT_ERR_TRUNCATED
  if b.addr &&& 7#64 ≠ 0 then -FDT_ERR_ALIGNMENT
  else if b.magic = FDT_MAGIC then
    if b.version < FDT_FIRST_SUPPORTED_VERSION then -FDT_ERR_BADVERSION
    else if FDT_LAST_SUPPORTED_VERSION < b.lastCompVersion then -FDT_ERR_BADVERSION
    else checked
  else if b.magic = FDT_SW_MAGIC then
    if b.sizeDtStruct = 0 then -FDT_ERR_BADSTATE else checked
  else -FDT_ERR_BADMAGIC

def offsetPtr (offset : Int) (len : Nat) : Option Nat :=
  let uoffset := uint offset
  let absoffset := uint (offset + b.offDtStruct)
  if offset < 0 then none
  else if absoffset < uoffset ∨ uint (absoffset + len) < absoffset ∨
      b.totalsize < uint (absoffset + len) then none
  else if 0x11 ≤ b.version ∧
      (uint (uoffset + len) < uoffset ∨ b.sizeDtStruct < uint (offset + len)) then none
  else some (b.offDtStruct + offset.toNat)

/-- A loop that moves on through the block ends within as many turns. -/
def fuel : Nat := b.bytes.length + 1

def skipName : Nat → Int → Read (Bool × Int)
  | 0, _ => none
  | fuel + 1, offset =>
    match b.offsetPtr offset 1 with
    | none => some (false, int (offset + 1))
    | some p => do
      if (← b.byte p) ≠ 0 then skipName fuel (int (offset + 1))
      else return (true, int (offset + 1))

def propEnd (offset : Int) (len : Nat) : Int :=
  let offset' := int (offset + 8 + len)
  if b.version < 0x10 ∧ 8 ≤ len ∧ uint (offset' - len) % 8 ≠ 0 then int (offset' + 4) else offset'

def badTag : Nat × Int := (FDT_END, -FDT_ERR_BADSTRUCTURE)

def finishTag (startoffset : Int) (tag : Nat) (offset : Int) : Nat × Int :=
  if (b.offsetPtr startoffset (uint (offset - startoffset))).isNone then badTag
  else (tag, tagalign offset)

def nodeTag (startoffset offset : Int) : Read (Nat × Int) := do
  let (p, offset) ← b.skipName b.fuel offset
  return if p then b.finishTag startoffset FDT_BEGIN_NODE offset else badTag

def propTag (startoffset offset : Int) : Read (Nat × Int) :=
  match b.offsetPtr offset 4 with
  | none => some badTag
  | some lenp => do
    let len ← b.load lenp
    if INT_MAX ≤ uint (len + offset) ∨ uint (len + offset) < uint offset then return badTag
    else return b.finishTag startoffset FDT_PROP (b.propEnd offset len)

def skipTag (startoffset offset : Int) (tag : Nat) : Read (Nat × Int) :=
  if tag = FDT_BEGIN_NODE then b.nodeTag startoffset offset
  else if tag = FDT_PROP then b.propTag startoffset offset
  else if tag = FDT_END ∨ tag = FDT_END_NODE ∨ tag = FDT_NOP then
    some (b.finishTag startoffset tag offset)
  else some badTag

/-- The tag, and what is stored through `nextoffset`. -/
def nextTag (startoffset : Int) : Read (Nat × Int) :=
  match b.offsetPtr startoffset FDT_TAGSIZE with
  | none => some (FDT_END, -FDT_ERR_TRUNCATED)
  | some tagp => do b.skipTag startoffset (int (startoffset + FDT_TAGSIZE)) (← b.load tagp)

def checkOffset (tag : Nat) (offset : Int) : Read Int :=
  if offset < 0 ∨ offset % FDT_TAGSIZE ≠ 0 then some (-FDT_ERR_BADOFFSET)
  else do
    let (tag', next) ← b.nextTag offset
    return if tag' ≠ tag then -FDT_ERR_BADOFFSET else next

def checkNodeOffset : Int → Read Int := b.checkOffset FDT_BEGIN_NODE

def checkPropOffset : Int → Read Int := b.checkOffset FDT_PROP

def nextNodeLoop : Nat → Int → Option Int → Read (Int × Option Int)
  | 0, _, _ => none
  | fuel + 1, offset, depth => do
    let (tag, nextoffset) ← b.nextTag offset
    if tag = FDT_BEGIN_NODE then return (offset, depth.map (· + 1))
    else if tag = FDT_END_NODE then
      let depth := depth.map (· - 1)
      if ∃ d ∈ depth, d < 0 then return (nextoffset, depth)
      else nextNodeLoop fuel nextoffset depth
    else if tag = FDT_END then
      if 0 ≤ nextoffset ∨ nextoffset = -FDT_ERR_TRUNCATED ∧ depth = none then
        return (-FDT_ERR_NOTFOUND, depth)
      else return (nextoffset, depth)
    else nextNodeLoop fuel nextoffset depth

def nextNode (offset : Int) (depth : Option Int) : Read (Int × Option Int) := do
  if 0 ≤ offset then
    let nextoffset ← b.checkNodeOffset offset
    if nextoffset < 0 then return (nextoffset, depth)
    else b.nextNodeLoop b.fuel nextoffset depth
  else b.nextNodeLoop b.fuel 0 depth

def firstSubnode (offset : Int) : Read Int := do
  let (offset, depth) ← b.nextNode offset (some 0)
  return if offset < 0 ∨ depth ≠ some 1 then -FDT_ERR_NOTFOUND else offset

def nextSubnodeLoop : Nat → Int → Int → Read Int
  | 0, _, _ => none
  | fuel + 1, offset, depth => do
    let (offset, depth') ← b.nextNode offset (some depth)
    let depth := depth'.getD 0
    if offset < 0 ∨ depth < 1 then return -FDT_ERR_NOTFOUND
    else if 1 < depth then nextSubnodeLoop fuel offset depth
    else return offset

def nextSubnode (offset : Int) : Read Int := b.nextSubnodeLoop b.fuel offset 1

def eachSubnodeLoop : Nat → Int → Read (List Int)
  | 0, _ => none
  | fuel + 1, node =>
    if node < 0 then some []
    else do return node :: (← eachSubnodeLoop fuel (← b.nextSubnode node))

def eachSubnode (parent : Int) : Read (List Int) := do
  b.eachSubnodeLoop b.fuel (← b.firstSubnode parent)

def getName (nodeoffset : Int) : Read (Except Int (Nat × Nat)) := do
  let err := b.roProbe
  if err < 0 then return .error err
  else
    let err ← b.checkNodeOffset nodeoffset
    if err < 0 then return .error err
    else
      let nameptr := (b.offDtStruct + nodeoffset + 4).toNat
      let len ← b.strlen nameptr
      if b.version < 0x10 then
        let name ← b.slice nameptr len
        let leaf := (name.reverse.takeWhile (· ≠ slash)).length
        return if leaf = len then .error (-FDT_ERR_BADSTRUCTURE)
          else .ok (nameptr + (len - leaf), leaf)
      else return .ok (nameptr, len)

def nodenameEq (offset : Int) (s : Bytes) : Read Bool := do
  match ← b.getName offset with
  | .error _ => return false
  | .ok (p, olen) =>
    if olen < s.length then return false
    else
      let name ← b.slice p s.length
      if name ≠ s then return false
      else
        let c ← b.byte (p + s.length)
        return c = 0 || (s.all (· ≠ atSign) && c = atSign)

def getString (stroffset : Int) : Read (Except Int (Nat × Nat)) := do
  let totalsize := b.roProbe
  let absoffset := uint (stroffset + b.offDtStrings)
  let find (len : Nat) : Read (Except Int (Nat × Nat)) := do
    match ← b.memchr0 absoffset len with
    | none => return .error (-FDT_ERR_TRUNCATED)
    | some n => return .ok (absoffset, n)
  let bad : Read (Except Int (Nat × Nat)) := some (.error (-FDT_ERR_BADOFFSET))
  if totalsize < 0 then return .error totalsize
  else if totalsize ≤ absoffset then bad
  else
    let len := (totalsize - absoffset).toNat
    if b.magic = FDT_MAGIC then
      if stroffset < 0 then bad
      else if 17 ≤ b.version then
        if b.sizeDtStrings ≤ uint stroffset then bad
        else find (min len (uint (b.sizeDtStrings - stroffset)))
      else find len
    else if b.magic = FDT_SW_MAGIC then
      if 0 ≤ stroffset ∨ b.sizeDtStrings < uint (-stroffset) then bad
      else find (min len (uint (-stroffset)))
    else return .error (-FDT_ERR_INTERNAL)

def stringEq (stroffset : Int) (s : Bytes) : Read Bool := do
  match ← b.getString stroffset with
  | .error _ => return false
  | .ok (p, slen) => if slen ≠ s.length then return false else return (← b.slice p slen) = s

def nextprop : Nat → Int → Read Int
  | 0, _ => none
  | fuel + 1, offset => do
    let (tag, nextoffset) ← b.nextTag offset
    if tag = FDT_END then return if 0 ≤ nextoffset then -FDT_ERR_BADSTRUCTURE else nextoffset
    else if tag = FDT_PROP then return offset
    else if tag = FDT_NOP then nextprop fuel nextoffset
    else return -FDT_ERR_NOTFOUND

def firstPropertyOffset (nodeoffset : Int) : Read Int := do
  let offset ← b.checkNodeOffset nodeoffset
  if offset < 0 then return offset else b.nextprop b.fuel offset

def nextPropertyOffset (offset : Int) : Read Int := do
  let offset ← b.checkPropOffset offset
  if offset < 0 then return offset else b.nextprop b.fuel offset

def propertyLoop (name : Bytes) : Nat → Int → Read (Except Int (Int × Nat))
  | 0, _ => none
  | fuel + 1, offset =>
    if offset < 0 then some (.error offset)
    else do
      let err ← b.checkPropOffset offset
      if err < 0 then return .error (-FDT_ERR_INTERNAL)
      else
        let prop := (b.offDtStruct + offset).toNat
        let len ← b.load (prop + 4)
        let nameoff ← b.load (prop + 8)
        if ← b.stringEq (int nameoff) name then return .ok (offset, len)
        else propertyLoop name fuel (← b.nextPropertyOffset offset)

def getPropertyNamelen (nodeoffset : Int) (name : Bytes) : Read (Except Int (Int × Nat)) := do
  b.propertyLoop name b.fuel (← b.firstPropertyOffset nodeoffset)

def getProperty (nodeoffset : Int) (name : Bytes) : Read (Except Int (Int × Nat)) :=
  if b.version < 0x10 then some (.error (-FDT_ERR_BADVERSION))
  else b.getPropertyNamelen nodeoffset name

def getprop (nodeoffset : Int) (name : Bytes) : Read (Except Int (Nat × Nat)) := do
  match ← b.getPropertyNamelen nodeoffset name with
  | .error err => return .error err
  | .ok (poffset, len) =>
    let data := (b.offDtStruct + poffset + 12).toNat
    return .ok (if b.version < 0x10 ∧ (poffset + 12) % 8 ≠ 0 ∧ 8 ≤ len then data + 4 else data, len)

def getWord (nodeoffset : Int) (name : Bytes) : Read (Option Nat) := do
  match ← b.getprop nodeoffset name with
  | .error _ => return none
  | .ok (p, len) => if len ≠ 4 then return none else return some (← b.load p)

def getPhandle (nodeoffset : Int) : Read Nat := do
  match ← b.getWord nodeoffset (raw "phandle") with
  | some php => return php
  | none => return (← b.getWord nodeoffset (raw "linux,phandle")).getD 0

def subnodeOffsetLoop (name : Bytes) : Nat → Int → Int → Read Int
  | 0, _, _ => none
  | fuel + 1, offset, depth =>
    if depth < 0 then some (-FDT_ERR_NOTFOUND)
    else if offset < 0 then some offset
    else do
      if ← (if depth = 1 then b.nodenameEq offset name else some false) then return offset
      else
        let (offset, depth) ← b.nextNode offset (some depth)
        subnodeOffsetLoop name fuel offset (depth.getD 0)

def subnodeOffsetNamelen (offset : Int) (name : Bytes) : Read Int :=
  if b.roProbe < 0 then some b.roProbe else b.subnodeOffsetLoop name b.fuel offset 0

def pathLoop : Nat → Int → Bytes → Read Int
  | 0, _, _ => none
  | fuel + 1, offset, p =>
    match p.dropWhile (· = slash) with
    | [] => some offset
    | c :: p => do
      let name := (c :: p).takeWhile (· ≠ slash)
      let offset ← b.subnodeOffsetNamelen offset name
      if offset < 0 then return offset
      else pathLoop fuel offset ((c :: p).dropWhile (· ≠ slash))

def absolutePath (path : Bytes) : Read Int := b.pathLoop (path.length + 1) 0 path

def getAlias (name : Bytes) : Read (Option Nat) := do
  let aliasoffset ← b.absolutePath (raw "/aliases")
  if aliasoffset < 0 then return none
  else
    match ← b.getprop aliasoffset name with
    | .error _ => return none
    | .ok (p, _) => return some p

/-- `fdt_path_offset`.  An alias is resolved by a recursive call, so running out of `depth` is a stack
that grows without bound. -/
def pathOffset : Nat → Bytes → Read Int
  | 0, _ => none
  | depth + 1, path => do
    if b.roProbe < 0 then return b.roProbe
    else if path.head? = some slash then b.absolutePath path
    else
      let name := path.takeWhile (· ≠ slash)
      match ← b.getAlias name with
      | none => return -FDT_ERR_BADPATH
      | some p =>
        let target ← b.slice p (← b.strlen p)
        let offset ← pathOffset depth target
        b.pathLoop (path.length + 1) offset (path.dropWhile (· ≠ slash))

def supernodeLoop (nodeoffset supernodedepth : Int) : Nat → Int → Int → Int → Read (Int × Int)
  | 0, _, _, _ => none
  | fuel + 1, offset, depth, supernodeoffset =>
    if 0 ≤ offset ∧ offset ≤ nodeoffset then
      let supernodeoffset := if depth = supernodedepth then offset else supernodeoffset
      if offset = nodeoffset then
        some (if depth < supernodedepth then -FDT_ERR_NOTFOUND else supernodeoffset, depth)
      else do
        let (offset, depth) ← b.nextNode offset (some depth)
        supernodeLoop nodeoffset supernodedepth fuel offset (depth.getD 0) supernodeoffset
    else if offset = -FDT_ERR_NOTFOUND ∨ 0 ≤ offset then some (-FDT_ERR_BADOFFSET, depth)
    else if offset = -FDT_ERR_BADOFFSET then some (-FDT_ERR_BADSTRUCTURE, depth)
    else some (offset, depth)

def supernodeAtdepthOffset (nodeoffset supernodedepth : Int) : Read (Int × Int) :=
  if b.roProbe < 0 then some (b.roProbe, 0)
  else if supernodedepth < 0 then some (-FDT_ERR_NOTFOUND, 0)
  else b.supernodeLoop nodeoffset supernodedepth b.fuel 0 0 (-FDT_ERR_INTERNAL)

def nodeDepth (nodeoffset : Int) : Read Int := do
  let (err, nodedepth) ← b.supernodeAtdepthOffset nodeoffset 0
  return if err = 0 then nodedepth else if err < 0 then err else -FDT_ERR_INTERNAL

def parentOffset (nodeoffset : Int) : Read Int := do
  let nodedepth ← b.nodeDepth nodeoffset
  if nodedepth < 0 then return nodedepth
  else return (← b.supernodeAtdepthOffset nodeoffset (nodedepth - 1)).1

def byPhandleLoop (phandle : Nat) : Nat → Int → Read Int
  | 0, _ => none
  | fuel + 1, offset =>
    if offset < 0 then some offset
    else do
      if (← b.getPhandle offset) = phandle then return offset
      else byPhandleLoop phandle fuel (← b.nextNode offset none).1

def nodeOffsetByPhandle (phandle : BitVec 32) : Read Int := do
  if phandle = 0 ∨ phandle = BitVec.allOnes 32 then return -FDT_ERR_BADPHANDLE
  else if b.roProbe < 0 then return b.roProbe
  else b.byPhandleLoop phandle.toNat b.fuel (← b.nextNode (-1) none).1

def cells (nodeoffset : Int) (name : Bytes) : Read Int := do
  match ← b.getprop nodeoffset name with
  | .error err => return err
  | .ok (c, len) =>
    if len ≠ 4 then return -FDT_ERR_BADNCELLS
    else
      let val ← b.load c
      return if FDT_MAX_NCELLS < val then -FDT_ERR_BADNCELLS else val

def addressCells (nodeoffset : Int) : Read Int := do
  let val ← b.cells nodeoffset (raw "#address-cells")
  return if val = 0 then -FDT_ERR_BADNCELLS else if val = -FDT_ERR_NOTFOUND then 2 else val

def sizeCells (nodeoffset : Int) : Read Int := do
  let val ← b.cells nodeoffset (raw "#size-cells")
  return if val = -FDT_ERR_NOTFOUND then 1 else val

/-- The place of a memory reservation; the size of an entry is subtracted as a `size_t`. -/
def memRsv (n : Nat) : Option Nat :=
  let absoffset := uint (b.offMemRsvmap + uint (n * 16))
  if absoffset < b.offMemRsvmap ∨ (b.totalsize + (2 ^ 64 - 16)) % 2 ^ 64 < absoffset then none
  else some (b.offMemRsvmap + n * 16)

def getMemRsv (n : Nat) : Read (Except Int (BitVec 64 × BitVec 64)) := do
  if b.roProbe < 0 then return .error b.roProbe
  else
    match b.memRsv n with
    | none => return .error (-FDT_ERR_BADOFFSET)
    | some re => return .ok (← b.load64 re, ← b.load64 (re + 8))

def numMemRsvLoop : Nat → Nat → Read Int
  | 0, _ => none
  | fuel + 1, i =>
    match b.memRsv i with
    | none => some (-FDT_ERR_TRUNCATED)
    | some re => do
      if (← b.load64 (re + 8)) = 0 then return i else numMemRsvLoop fuel (i + 1)

def numMemRsv : Read Int := b.numMemRsvLoop b.fuel 0

end Blob

end Abydos.Fdt
