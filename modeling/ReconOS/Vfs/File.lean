import Mathlib.Logic.Function.Basic

/-! Files on the mounted volume as a program has them: what open asks of a file's mode, and what
reading, writing, seeking and closing a descriptor then do. -/
namespace ReconOS.Vfs

def vfsPathMax : Nat := 128
def vfsFileMax : Nat := 0x40000
def createMaxBytes : Nat := 0x10000
def processFdsMax : Nat := 32
def u64Size : Nat := 0x10000000000000000
def i64Size : Int := 0x8000000000000000
def sysEinval : Int := -3
def uidKernel : Nat := 0

/-! ## Permission -/

/-- The flags of an open, by the bit. -/
def openRead : Nat := 0
def openWrite : Nat := 1
def openCreate : Nat := 2
def openReplace : Nat := 3

/-- What is asked for, by the bit. -/
def accessRead : Nat := 0
def accessWrite : Nat := 1
def accessExec : Nat := 2

/-- A file on the volume. -/
structure Node where
  mode : Nat
  owner : Nat
  group : Nat
  contents : List Nat
  deriving DecidableEq, Repr

/-- Whoever is running, and whether it holds `CAP_FILE_OVERRIDE`. -/
structure Process where
  uid : Nat
  gid : Nat
  fileOverride : Bool
  deriving DecidableEq, Repr

/-- The three bits of the first class that matches. -/
def classBits (uid gid mode owner group : Nat) : Nat :=
  if uid = owner then mode >>> 6 % 8
  else if gid = group then mode >>> 3 % 8
  else mode % 8

/-- `identity_may_as`. -/
def identityMayAs (uid gid mode owner group want : Nat) : Bool :=
  if want = 0 then true
  else if uid = uidKernel then true
  else
    let bits := classBits uid gid mode owner group
    (!want.testBit accessRead || bits.testBit 2) && (!want.testBit accessWrite || bits.testBit 1) &&
      (!want.testBit accessExec || bits.testBit 0)

/-- `identity_may`. -/
def identityMay (p : Process) (n : Node) (want : Nat) : Bool :=
  p.fileOverride || identityMayAs p.uid p.gid n.mode n.owner n.group want

/-- `identity_want_from_open`. -/
def identityWantFromOpen (flags : Nat) : Nat :=
  (if flags.testBit openRead then 1 else 0) + (if flags.testBit openWrite then 2 else 0)

/-- A file's mode, owner and group let a process read it. -/
def Node.GrantsRead (n : Node) (p : Process) : Prop :=
  (classBits p.uid p.gid n.mode n.owner n.group).testBit 2 = true

/-- And write it. -/
def Node.GrantsWrite (n : Node) (p : Process) : Prop :=
  (classBits p.uid p.gid n.mode n.owner n.group).testBit 1 = true

instance (n : Node) (p : Process) : Decidable (n.GrantsRead p) := inferInstanceAs (Decidable (_ = _))
instance (n : Node) (p : Process) : Decidable (n.GrantsWrite p) := inferInstanceAs (Decidable (_ = _))

/-! ## Open files -/

/-- The bytes of a path. -/
abbrev Path := List Nat

/-- A byte, and the file it was read from, if it was. -/
structure Cell where
  byte : Nat
  origin : Option Path
  deriving DecidableEq, Repr

/-- `struct file` and its `struct disk_file`. The buffer is `VFS_FILE_MAX` long. -/
structure DiskFile where
  path : Path
  flags : Nat
  pos : Nat
  existed : Bool
  data : Nat → Cell
  len : Nat
  mode : Nat
  dirty : Bool

/-- What a descriptor names: a file on the volume, or something that is not on it. -/
inductive Descriptor where
  | other
  | disk (f : DiskFile)

/-- The files of the volume, by the paths that lead to them, and a process's descriptors. -/
structure State where
  volume : Path → Option Node
  fds : Nat → Option Descriptor

/-- What an open meets: whether the volume answers `rootfs_owner_of`, for the dossier and then for
the check, whether there is memory, and whether the volume reads. -/
structure Around where
  named : Bool
  known : Bool
  room : Bool
  reads : Bool

/-- The buffer a file's contents are read into. -/
def fillFrom (path : Path) (contents : List Nat) : Nat → Cell := fun k =>
  match contents[k]? with
  | some byte => ⟨byte, some path⟩
  | none => ⟨0, none⟩

/-- The check that `reconfs_open` makes. -/
def checked (p : Process) (n : Option Node) (flags : Nat) (known : Bool) : Bool :=
  flags.testBit openCreate ||
    match n with
    | some n => !known || identityMay p n (identityWantFromOpen flags)
    | none => true

/-- `reconfs_open`. -/
def reconfsOpen (p : Process) (s : State) (path : Path) (flags mode : Nat) (a : Around) :
    Option DiskFile :=
  let existed := a.named && (s.volume path).isSome
  if vfsPathMax ≤ path.length then none
  else if flags.testBit openReplace ∧ ¬existed then none
  else if checked p (s.volume path) flags a.known = false then none
  else if a.room = false then none
  else if flags.testBit openCreate then
    some ⟨path, flags, 0, existed, fun _ => ⟨0, none⟩, 0, mode, true⟩
  else
    match s.volume path with
    | none => none
    | some n =>
      if a.reads = false ∨ vfsFileMax < n.contents.length then none
      else some ⟨path, flags, 0, existed, fillFrom path n.contents, n.contents.length, n.mode, false⟩

/-- `disk_read`: the bytes, and the file read on from. -/
def DiskFile.read (f : DiskFile) (len : Nat) : List Cell × DiskFile :=
  if f.len ≤ f.pos then ([], f)
  else
    let n := min len (f.len - f.pos)
    ((List.range n).map fun k => f.data (f.pos + k), { f with pos := f.pos + n })

/-- `disk_write`. -/
def DiskFile.write (f : DiskFile) (bytes : List Nat) : DiskFile :=
  if vfsFileMax < f.pos ∨ vfsFileMax - f.pos < bytes.length then f
  else
    { f with
      data := fun k =>
        if f.pos ≤ k ∧ k < f.pos + bytes.length then ⟨(bytes[k - f.pos]?).getD 0, none⟩ else f.data k
      pos := f.pos + bytes.length
      len := max f.len (f.pos + bytes.length)
      dirty := true }

/-- Where a seek is measured from. -/
inductive From where
  | start
  | here
  | «end»
  deriving DecidableEq, Repr

def DiskFile.base (f : DiskFile) : From → Int
  | .start => 0
  | .here => f.pos
  | .end => f.len

/-- `SEEK_START`, `SEEK_HERE` and `SEEK_END`. -/
def origin : Nat → Option From
  | 0 => some .start
  | 1 => some .here
  | 2 => some .end
  | _ => none

/-- `disk_seek`, in the arithmetic of an `i64`: what it returns, and the file. -/
def diskSeek (f : DiskFile) (offset : Int) (from_ : Nat) : Int × DiskFile :=
  match origin from_ with
  | none => (sysEinval, f)
  | some o =>
    let base := (f.base o).bmod u64Size
    let at_ := (base + offset).bmod u64Size
    if offset < (-base).bmod u64Size then (sysEinval, f)
    else if vfsFileMax < at_ then (sysEinval, f)
    else (at_, { f with pos := (at_ % u64Size).toNat })

def DiskFile.contents (f : DiskFile) : List Nat := (List.range f.len).map fun k => (f.data k).byte

namespace State

variable (s : State)

/-- `rootfs_replace_file`, which the volume may refuse. -/
def replaceFile (path : Path) (contents : List Nat) (commits : Bool) : State :=
  match s.volume path with
  | some n =>
    if commits then { s with volume := Function.update s.volume path (some { n with contents := contents }) }
    else s
  | none => s

/-- `rootfs_create_file`, which the volume may refuse. What it makes is the kernel's. -/
def createFile (path : Path) (mode : Nat) (contents : List Nat) (commits : Bool) : State :=
  match s.volume path with
  | some _ => s
  | none =>
    if commits then
      { s with volume := Function.update s.volume path (some ⟨mode, uidKernel, uidKernel, contents⟩) }
    else s

/-- `disk_close`. -/
def diskClose (f : DiskFile) (commits : Bool) : State :=
  if f.dirty = false then s
  else if f.flags.testBit openReplace then s.replaceFile f.path f.contents commits
  else s.createFile f.path f.mode f.contents commits

def setFd (fd : Nat) (d : Option Descriptor) : State := { s with fds := Function.update s.fds fd d }

/-- The lowest free number. -/
def freeFd : Option Nat := (List.range processFdsMax).find? fun fd => (s.fds fd).isNone

/-- `fd_get`, of a file on the volume. -/
def diskAt (fd : Nat) : Option DiskFile :=
  if processFdsMax ≤ fd then none
  else
    match s.fds fd with
    | some (.disk f) => some f
    | some .other | none => none

end State

/-- A program's call, and what the volume does with it. -/
inductive Move where
  | open (path : Path) (flags mode : Nat) (a : Around) (commits : Bool)
  | read (fd len : Nat)
  | write (fd : Nat) (bytes : List Nat)
  | seek (fd : Nat) (offset : Int64) (from_ : Nat)
  | create (path : Path) (mode : Nat) (bytes : List Nat) (commits : Bool)
  | close (fd : Nat) (commits : Bool)

/-- A call, and the bytes it gives the program. -/
def step (p : Process) (s : State) : Move → State × List Cell
  | .open path flags mode a commits =>
    if flags.testBit openRead = false ∧ flags.testBit openWrite = false then (s, [])
    else
      match reconfsOpen p s path flags mode a with
      | none => (s, [])
      | some f =>
        match s.freeFd with
        | some fd => (s.setFd fd (some (.disk f)), [])
        | none => (s.diskClose f commits, [])
  | .read fd len =>
    match s.diskAt fd with
    | some f => (s.setFd fd (some (.disk (f.read len).2)), (f.read len).1)
    | none => (s, [])
  | .write fd bytes =>
    match s.diskAt fd with
    | some f => (s.setFd fd (some (.disk (f.write bytes))), [])
    | none => (s, [])
  | .seek fd offset from_ =>
    match s.diskAt fd with
    | some f => (s.setFd fd (some (.disk (diskSeek f offset.toInt from_).2)), [])
    | none => (s, [])
  | .create path mode bytes commits =>
    if createMaxBytes < bytes.length then (s, []) else (s.createFile path mode bytes commits, [])
  | .close fd commits =>
    if processFdsMax ≤ fd then (s, [])
    else
      match s.fds fd with
      | some (.disk f) => ((s.setFd fd none).diskClose f commits, [])
      | some .other | none => (s.setFd fd none, [])

end ReconOS.Vfs
