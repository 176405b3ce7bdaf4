import Abydos.Defs
import Abydos.Lib.Script
import Abydos.Vfs.Libcpio

namespace Abydos.Vfs

open Abydos.Lib

def MAX_FILES : Nat := 1024

structure Fcb where
  used : Bool := false
  file : Addr := 0
  size : BitVec 64 := 0
  lpos : BitVec 64 := 0
  deriving DecidableEq

structure Cpiofs where
  archive : Addr
  archiveLen : BitVec 64
  fcb : Fin MAX_FILES → Fcb

/-- What the calls use of the rest of the kernel: readable memory, and `_write_stdout`. -/
structure World where
  ram : Ram
  writeStdout : Addr → BitVec 32 → Int

def liftExcept (x : Except Trap α) : Prog S Trap α :=
  match x with
  | .ok a => pure a
  | .error e => throw e

namespace Cpiofs

def setFcb (c : Cpiofs) (i : Fin MAX_FILES) (f : Fcb) : Cpiofs :=
  { c with fcb := Function.update c.fcb i f }

theorem setFcb_fcb (c : Cpiofs) (i j : Fin MAX_FILES) (f : Fcb) :
    (c.setFcb i f).fcb j = if j = i then f else c.fcb j :=
  Function.update_apply c.fcb i f j

def firstFree (c : Cpiofs) : Option (Fin MAX_FILES) :=
  (List.finRange MAX_FILES).find? fun i => !(c.fcb i).used

def slot (c : Cpiofs) (fd : Int) : Option (Fin MAX_FILES) :=
  if h : 0 ≤ fd ∧ fd.toNat < MAX_FILES then
    if (c.fcb ⟨fd.toNat, h.2⟩).used then some ⟨fd.toNat, h.2⟩ else none
  else none

/-- The constructor, with `mem` for what `new[]` returns; `none` is the exception it throws.  The
second component is memory with the copy. -/
def new (ram : Ram) (archive : Addr) (len : BitVec 64) (mem : Addr) :
    Except Trap (Option (Cpiofs × Ram)) := do
  let (rc, _) ← cpioInfo ram archive len
  if rc ≠ 0 then
    return none
  else
    let bytes ← ram.copy archive len.toNat
    return some (⟨mem, len, fun _ => {}⟩, ram.fill mem bytes)

def fsOpen (w : World) (path : Str) : Prog Cpiofs Trap Int := do
  let c ← get
  let (file, size) ← liftExcept (cpioGetFile w.ram c.archive c.archiveLen path)
  if file = 0 then
    return K_ENOENT
  else
    match c.firstFree with
    | some i => do
      modify fun c => c.setFcb i ⟨true, file, size, 0⟩
      return i.val
    | none => return K_ENOMEM

def fsClose (fd : Int) : Prog Cpiofs Trap Int := do
  let c ← get
  match c.slot fd with
  | some i => do
    modify fun c => c.setFcb i {}
    return K_OK
  | none => return K_ENOENT

def fsRead (w : World) (fd : Int) (count : BitVec 64) : Prog Cpiofs Trap (Int × List UInt8) := do
  let c ← get
  match c.slot fd with
  | some i => do
    let f := c.fcb i
    let count := if f.size < f.lpos + count then f.size - f.lpos else count
    let data ← liftExcept (w.ram.copy (f.file + f.lpos) count.toNat)
    modify fun c => c.setFcb i { f with lpos := f.lpos + count }
    return ((count.setWidth 32).toInt, data)
  | none => return (K_ENOENT, [])

def fsWrite : Prog Cpiofs Trap Int := return -1

def SEEK_SET : Int := 0
def SEEK_CUR : Int := 1
def SEEK_END : Int := 2

/-- Where a seek goes, if it is accepted; `lpos` is unsigned, so the first test for `SEEK_CUR` is
never true. -/
def seek (f : Fcb) (offset : BitVec 64) (whence : Int) : Option (BitVec 64) :=
  if whence = SEEK_SET then
    if offset.slt 0 then none
    else if f.size.slt offset then none
    else some offset
  else if whence = SEEK_CUR then
    if f.lpos + offset < 0 then none
    else if f.size < f.lpos + offset then none
    else some (f.lpos + offset)
  else if whence = SEEK_END then
    if (0 : BitVec 64).slt offset then none
    else if offset.slt (-f.size) then none
    else some (f.size + offset)
  else none

def fsLseek (fd : Int) (offset : BitVec 64) (whence : Int) : Prog Cpiofs Trap Int := do
  let c ← get
  match c.slot fd with
  | some i =>
    match seek (c.fcb i) offset whence with
    | some pos => do
      modify fun c => c.setFcb i { c.fcb i with lpos := pos }
      return K_OK
    | none => return K_EINVAL
  | none => return K_ENOENT

end Cpiofs

abbrev FsPtr := Nat

structure VirtualFS where
  fsMap : List (Str × FsPtr)
  fs : FsPtr → Cpiofs
  fdMap : Int → Option (FsPtr × Int)
  fdCounter : BitVec 32

abbrev VfsM := Prog VirtualFS Trap

def VirtualFS.setFs (v : VirtualFS) (p : FsPtr) (c : Cpiofs) : VirtualFS :=
  { v with fs := Function.update v.fs p c }

def onFs (p : FsPtr) (x : Prog Cpiofs Trap α) : VfsM α := do
  let v ← get
  match x.exec (v.fs p) with
  | (r, c) => do
    modify fun v => v.setFs p c
    liftExcept r

def resolve (path : Str) : List (Str × FsPtr) → Option FsPtr × Nat → Option FsPtr × Nat
  | [], r => r
  | x :: xs, r =>
    if x.1.isPrefixOf path ∧ r.2 < x.1.length then resolve path xs (some x.2, x.1.length)
    else resolve path xs r

def VirtualFS.insertFd (v : VirtualFS) (fd : Int) (x : FsPtr × Int) : VirtualFS :=
  { v with fdMap := Function.update v.fdMap fd ((v.fdMap fd).getD x) }

def VirtualFS.eraseFd (v : VirtualFS) (fd : Int) : VirtualFS :=
  { v with fdMap := Function.update v.fdMap fd none }

def FILE_STDIN : Int := 0
def FILE_STDOUT : Int := 1
def FILE_STDERR : Int := 2

def vfsOpen (w : World) (path : Str) : VfsM Int := do
  let v ← get
  match resolve path v.fsMap (none, 0) with
  | (some p, maxLen) => do
    let ret ← onFs p (Cpiofs.fsOpen w (path.drop maxLen))
    if 0 ≤ ret then do
      let v ← get
      let fd := v.fdCounter.toInt
      modify fun v => { v.insertFd fd (p, ret) with fdCounter := v.fdCounter + 1 }
      return fd
    else
      return ret
  | (none, _) => return K_ENOENT

def vfsClose (fd : Int) : VfsM Int := do
  let v ← get
  match v.fdMap fd with
  | some (p, i) => do
    let ret ← onFs p (Cpiofs.fsClose i)
    if ret = K_OK then do
      modify fun v => v.eraseFd fd
      return ret
    else
      return ret
  | none => return K_ENOENT

def vfsRead (w : World) (fd : Int) (count : BitVec 32) : VfsM (Int × List UInt8) := do
  if fd = FILE_STDIN then
    return (0, [])
  else
    let v ← get
    match v.fdMap fd with
    | some (p, i) => onFs p (Cpiofs.fsRead w i (count.signExtend 64))
    | none => return (K_ENOENT, [])

def vfsWrite (w : World) (fd : Int) (buf : Addr) (count : BitVec 32) : VfsM Int := do
  if fd = FILE_STDOUT then
    return w.writeStdout buf count
  else
    let v ← get
    match v.fdMap fd with
    | some (p, _) => onFs p Cpiofs.fsWrite
    | none => return K_ENOENT

def vfsLseek (fd : Int) (offset : BitVec 64) (whence : Int) : VfsM Int := do
  if fd = FILE_STDIN ∨ fd = FILE_STDOUT ∨ fd = FILE_STDERR then
    return K_ENOTSUPP
  else
    let v ← get
    match v.fdMap fd with
    | some (p, i) => onFs p (Cpiofs.fsLseek i offset whence)
    | none => return K_ENOENT

inductive Call
  | openFile (path : Str)
  | close (fd : Int)
  | read (fd : Int) (count : BitVec 32)
  | write (fd : Int) (buf : Addr) (count : BitVec 32)
  | lseek (fd : Int) (offset : BitVec 64) (whence : Int)
  deriving DecidableEq

def Call.exec (w : World) : Call → VfsM Int
  | .openFile path => vfsOpen w path
  | .close fd => vfsClose fd
  | .read fd count => Prod.fst <$> vfsRead w fd count
  | .write fd buf count => vfsWrite w fd buf count
  | .lseek fd offset whence => vfsLseek fd offset whence

end Abydos.Vfs
