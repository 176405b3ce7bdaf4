import Mathlib.Data.List.Basic
import Mathlib.Data.UInt

namespace Abydos.Vfs

abbrev Addr := BitVec 64

abbrev Str := List UInt8

/-- Memory; `none` where nothing may be read. -/
abbrev Ram := Addr → Option UInt8

inductive Trap
  | fault (a : Addr)
  | diverges
  deriving DecidableEq, Repr

def Ram.load (ram : Ram) (a : Addr) : Except Trap UInt8 :=
  match ram a with
  | some b => .ok b
  | none => .error (.fault a)

def Ram.copy (ram : Ram) (a : Addr) : Nat → Except Trap (List UInt8)
  | 0 => .ok []
  | n + 1 => do
    let b ← ram.load a
    let bs ← ram.copy (a + 1) n
    return b :: bs

def Ram.fill (ram : Ram) (a : Addr) (bytes : List UInt8) : Ram := fun x =>
  if (x - a).toNat < bytes.length then bytes[(x - a).toNat]? else ram x

def alignUp (n align : BitVec 64) : BitVec 64 := (n + align - 1) &&& ~~~(align - 1)

def hexDigit (c : UInt8) : Option (BitVec 64) :=
  if 0x30 ≤ c ∧ c ≤ 0x39 then some (BitVec.ofNat 64 (c.toNat - 0x30))
  else if 0x61 ≤ c ∧ c ≤ 0x66 then some (BitVec.ofNat 64 (c.toNat - 0x61 + 10))
  else if 0x41 ≤ c ∧ c ≤ 0x46 then some (BitVec.ofNat 64 (c.toNat - 0x41 + 10))
  else none

/-- The number has been shifted for a digit before it turns out that there is none. -/
def parseHexStr (ram : Ram) (s : Addr) : Nat → BitVec 64 → Except Trap (BitVec 64)
  | 0, r => return r
  | n + 1, r => do
    match hexDigit (← ram.load s) with
    | some d => parseHexStr ram (s + 1) n (r * 16 + d)
    | none => return r * 16

def cpioStrncmp (ram : Ram) (a : Addr) : Str → Nat → Except Trap Int
  | _, 0 => return 0
  | [], _ + 1 => return (← ram.load a).toNat
  | b :: bs, n + 1 => do
    let x ← ram.load a
    if x ≠ b then return (x.toNat : Int) - b.toNat
    else if x = 0 then return 0
    else cpioStrncmp ram (a + 1) bs n

def cpioLenNext (len prev next : BitVec 64) : BitVec 64 := if len < next - prev then 0 else len

structure HeaderInfo where
  filename : Addr
  filesize : BitVec 64
  data : Addr
  next : Addr

inductive Parsed
  | invalid
  | eof
  | entry (info : HeaderInfo)

def CPIO_HEADER_MAGIC : Str := [0x30, 0x37, 0x30, 0x37, 0x30, 0x31]
def CPIO_FOOTER_MAGIC : Str := [0x54, 0x52, 0x41, 0x49, 0x4C, 0x45, 0x52, 0x21, 0x21, 0x21]
def CPIO_ALIGNMENT : BitVec 64 := 4

def headerSize : BitVec 64 := 110
def filesizeOffset : BitVec 64 := 54
def namesizeOffset : BitVec 64 := 94

def cpioParseHeader (ram : Ram) (archive : Addr) (len : BitVec 64) : Except Trap Parsed := do
  if len < headerSize then return .invalid
  if (← cpioStrncmp ram archive CPIO_HEADER_MAGIC 6) ≠ 0 then return .invalid
  let filesize ← parseHexStr ram (archive + filesizeOffset) 8 0
  let filenameLength ← parseHexStr ram (archive + namesizeOffset) 8 0
  if len < headerSize + filenameLength + filesize then return .invalid
  let filename := archive + headerSize
  if (← ram.load (filename + (filenameLength - 1))) ≠ 0 then return .invalid
  if 11 ≤ filenameLength then
    if (← cpioStrncmp ram filename CPIO_FOOTER_MAGIC 11) = 0 then return .eof
  let data := alignUp (archive + headerSize + filenameLength) CPIO_ALIGNMENT
  return .entry ⟨filename, filesize, data, alignUp (data + filesize) CPIO_ALIGNMENT⟩

def getFileLoop (ram : Ram) (name : Str) : Nat → Addr → BitVec 64 → Except Trap (Addr × BitVec 64)
  | 0, _, _ => .error .diverges
  | fuel + 1, header, len => do
    match ← cpioParseHeader ram header len with
    | .entry info =>
      if (← cpioStrncmp ram info.filename name (2 ^ 64 - 1)) = 0 then
        return (info.data, info.filesize)
      else getFileLoop ram name fuel info.next (cpioLenNext len header info.next)
    | _ => return (0, 0)

/-- After as many rounds as there are addresses a header comes up again, with the same length left,
and the loop never ends. -/
def cpioGetFile (ram : Ram) (archive : Addr) (len : BitVec 64) (name : Str) :
    Except Trap (Addr × BitVec 64) :=
  getFileLoop ram name (2 ^ 64) archive len

def strlenLoop (ram : Ram) (str : Addr) : Nat → Addr → Except Trap (BitVec 32)
  | 0, _ => .error .diverges
  | fuel + 1, s => do
    if (← ram.load s) = 0 then return (s - str).setWidth 32 else strlenLoop ram str fuel (s + 1)

def cpioStrlen (ram : Ram) (str : Addr) : Except Trap (BitVec 32) := strlenLoop ram str (2 ^ 64) str

structure CpioInfo where
  fileCount : BitVec 32 := 0
  maxPathSz : BitVec 32 := 0
  deriving DecidableEq

def infoLoop (ram : Ram) : Nat → Addr → BitVec 64 → CpioInfo → Except Trap (Int × CpioInfo)
  | 0, _, _, _ => .error .diverges
  | fuel + 1, header, len, info => do
    match ← cpioParseHeader ram header len with
    | .invalid => return (-1, info)
    | .eof => return (0, info)
    | .entry e =>
      let size ← cpioStrlen ram e.filename
      infoLoop ram fuel e.next (cpioLenNext len header e.next)
        ⟨info.fileCount + 1, if info.maxPathSz < size then size else info.maxPathSz⟩

def cpioInfo (ram : Ram) (archive : Addr) (len : BitVec 64) : Except Trap (Int × CpioInfo) :=
  infoLoop ram (2 ^ 64) archive len {}

end Abydos.Vfs
