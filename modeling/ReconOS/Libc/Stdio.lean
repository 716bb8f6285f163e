import ReconOS.Lib.Refine
import Mathlib.Data.BitVec

/-! A stream opened for reading: the buffer between the caller and the descriptor. -/
namespace ReconOS.Libc

abbrev Byte := BitVec 8

def bufferSize : Nat := 4096

/-! ## The kernel's side -/

/-- A file: its bytes, and the positions the kernel lets a seek go to. -/
structure File where
  content : List Byte
  reaches : Int → Bool
  reaches_nonneg : ∀ t, reaches t = true → 0 ≤ t

/-- Where the next read starts, and how many reads there have been. -/
structure Descriptor where
  offset : Nat
  reads : Nat
  deriving DecidableEq

inductive Whence where
  | seekSet | seekCur | seekEnd | other
  deriving DecidableEq

/-- `recon_sys_read`. Short of the end it gives at least one byte; how many more it may give is the
kernel's choice, `short n` in read number `n`. -/
def sysRead (file : File) (short : Nat → Nat) (d : Descriptor) (count : Nat) :
    List Byte × Descriptor :=
  let got := (file.content.drop d.offset).take (min count (short d.reads + 1))
  (got, ⟨d.offset + got.length, d.reads + 1⟩)

/-- `recon_sys_seek`, when it is not refused. -/
def sysSeek (file : File) (d : Descriptor) (offset : Int) (origin : Whence) : Option Descriptor :=
  let go (target : Int) :=
    if file.reaches target then some { d with offset := target.toNat } else none
  match origin with
  | .seekSet => go offset
  | .seekCur => go (d.offset + offset)
  | .seekEnd => go (file.content.length + offset)
  | .other => none

/-! ## The stream -/

/-- `struct recon_stream`, opened for reading. `buffer` is its first `used` bytes. -/
structure Stream where
  fd : Descriptor
  buffer : List Byte
  at' : Nat
  position : Int
  pushedBack : Option Byte
  eof : Bool

/-- As `fopen` leaves it. -/
def opened : Stream := ⟨⟨0, 0⟩, [], 0, 0, none, false⟩

section
variable (file : File) (short : Nat → Nat)

/-- How many bytes are available, 0 at the end. -/
def fill (f : Stream) : Stream × Nat :=
  if f.at' < f.buffer.length then (f, f.buffer.length - f.at')
  else
    let r := sysRead file short f.fd bufferSize
    if r.1.length = 0 then ({ f with at' := 0, buffer := [], fd := r.2, eof := true }, 0)
    else ({ f with at' := 0, buffer := r.1, fd := r.2 }, r.1.length)

/-- The loop of `fread` while `need` bytes are wanted. Each turn takes one at least, so `need`
turns are enough. -/
def freadLoop : Nat → Stream → Nat → Stream × List Byte
  | 0, f, _ => (f, [])
  | turns + 1, f, need =>
    if need = 0 then (f, [])
    else
      let r := fill file short f
      if r.2 = 0 then (r.1, [])
      else
        let take := min need r.2
        let rest := freadLoop turns { r.1 with at' := r.1.at' + take } (need - take)
        (rest.1, (r.1.buffer.drop r.1.at').take take ++ rest.2)

/-- The bytes stored, and the whole items among them. -/
def fread (f : Stream) (size count : Nat) : Stream × List Byte × Nat :=
  if size = 0 ∨ count = 0 then (f, [], 0)
  else
    let total := size * count
    let back := f.pushedBack.toList
    let r := freadLoop file short total { f with pushedBack := none } (total - back.length)
    let bytes := back ++ r.2
    ({ r.1 with position := r.1.position + bytes.length }, bytes, bytes.length / size)

def fgetc (f : Stream) : Stream × Option Byte :=
  match f.pushedBack with
  | some back => ({ f with pushedBack := none, position := f.position + 1 }, some back)
  | none =>
    let r := fill file short f
    if r.2 = 0 then (r.1, none)
    else
      ({ r.1 with at' := r.1.at' + 1, position := r.1.position + 1 },
        some (r.1.buffer.getD r.1.at' 0))

def ungetc (f : Stream) (c : Int) : Stream × Option Byte :=
  if c < 0 then (f, none)
  else if f.pushedBack.isSome then (f, none)
  else
    ({ f with pushedBack := some (BitVec.ofInt 8 c), eof := false, position := f.position - 1 },
      some (BitVec.ofInt 8 c))

def newline : Byte := 10

/-- The loop of `fgets`, for at most so many characters. -/
def fgetsLoop : Nat → Stream → Stream × List Byte
  | 0, f => (f, [])
  | n + 1, f =>
    let r := fill file short f
    if r.2 = 0 then (r.1, [])
    else
      let c := r.1.buffer.getD r.1.at' 0
      let f := { r.1 with at' := r.1.at' + 1, position := r.1.position + 1 }
      if c = newline then (f, [c])
      else
        let rest := fgetsLoop n f
        (rest.1, c :: rest.2)

def fgets (f : Stream) (room : Int) : Stream × Option (List Byte) :=
  if room ≤ 0 then (f, none)
  else
    let r := fgetsLoop file short (room - 1).toNat f
    (r.1, if r.2 = [] then none else some r.2)

def ftell (f : Stream) : Int := f.position

/-- Where a seek asks the kernel to go: from the caller's position an absolute one is asked for. -/
def seekTarget (f : Stream) (offset : Int) (origin : Whence) : Int × Whence :=
  if origin = .seekCur then (f.position + offset, .seekSet) else (offset, origin)

def fseek (f : Stream) (offset : Int) (origin : Whence) : Stream × Bool :=
  let target := (seekTarget f offset origin).1
  let origin := (seekTarget f offset origin).2
  let f := { f with at' := 0, buffer := [], eof := false, pushedBack := none }
  match sysSeek file f.fd target origin with
  | none => (f, false)
  | some d =>
    if origin = .seekSet then ({ f with fd := d, position := target }, true)
    else
      match sysSeek file d 0 .seekCur with
      | none => ({ f with fd := d, position := 0 }, true)
      | some d => ({ f with fd := d, position := d.offset }, true)

def rewind (f : Stream) : Stream :=
  { (fseek file f 0 .seekSet).1 with eof := false, pushedBack := none }

end

/-! ## Calls -/

/-- A call of a program. The caller of `fread` has `size * count` bytes of memory to read into. -/
inductive ReadCall where
  | fgetc
  | fread (size count : Nat) (fits : size * count < 2 ^ 64)
  | fgets (room : Int)
  | ungetc (c : Int)
  | fseek (offset : Int) (origin : Whence)
  | rewind
  | ftell

inductive Answer where
  | char (c : Option Byte)
  | items (bytes : List Byte) (count : Nat)
  | line (text : Option (List Byte))
  | status (ok : Bool)
  | position (p : Int)
  | done
  deriving DecidableEq

/-- The stream, as a machine that answers calls. -/
def buffered (file : File) (short : Nat → Nat) : Lib.Machine Stream ReadCall Answer where
  step f
    | .fgetc => let r := fgetc file short f; (r.1, .char r.2)
    | .fread size count _ => let r := fread file short f size count; (r.1, .items r.2.1 r.2.2)
    | .fgets room => let r := fgets file short f room; (r.1, .line r.2)
    | .ungetc c => let r := ungetc f c; (r.1, .char r.2)
    | .fseek offset origin => let r := fseek file f offset origin; (r.1, .status r.2)
    | .rewind => (rewind file f, .done)
    | .ftell => (f, .position (ftell f))

/-! ## The reference stream -/

/-- A stream with no buffer: the offset of the next byte of the file, and the character pushed
back. -/
structure Ref where
  off : Nat
  pushed : Option Byte

/-- Everything still to be read, the character pushed back first. -/
def Ref.ahead (file : File) (r : Ref) : List Byte := r.pushed.toList ++ file.content.drop r.off

/-- The first `n` characters ahead are read. -/
def Ref.advance (r : Ref) (n : Nat) : Ref :=
  if n = 0 then r else ⟨r.off + (n - r.pushed.toList.length), none⟩

def Ref.position (r : Ref) : Int := r.off - r.pushed.toList.length

/-- At most `n` characters, up to the first newline and with it. -/
def takeLine : Nat → List Byte → List Byte
  | 0, _ => []
  | _ + 1, [] => []
  | n + 1, c :: rest => if c = newline then [c] else c :: takeLine n rest

/-- Where a seek asks to go, if that is somewhere. -/
def Ref.target (file : File) (r : Ref) (offset : Int) : Whence → Option Int
  | .seekSet => some offset
  | .seekCur => some (r.position + offset)
  | .seekEnd => some (file.content.length + offset)
  | .other => none

/-- A seek that is refused changes nothing; any other throws the pushback away. -/
def Ref.seek (file : File) (r : Ref) (offset : Int) (origin : Whence) : Ref × Bool :=
  match (r.target file offset origin).filter file.reaches with
  | none => (r, false)
  | some t => (⟨t.toNat, none⟩, true)

def unbuffered (file : File) : Lib.Machine Ref ReadCall Answer where
  step r
    | .fgetc =>
      let bytes := (r.ahead file).take 1
      (r.advance bytes.length, .char bytes.head?)
    | .fread size count _ =>
      if size = 0 ∨ count = 0 then (r, .items [] 0)
      else
        let bytes := (r.ahead file).take (size * count)
        (r.advance bytes.length, .items bytes (bytes.length / size))
    | .fgets room =>
      let bytes := takeLine (room - 1).toNat (r.ahead file)
      (r.advance bytes.length, .line (if bytes = [] then none else some bytes))
    | .ungetc c =>
      if c < 0 ∨ r.pushed.isSome then (r, .char none)
      else (⟨r.off, some (BitVec.ofInt 8 c)⟩, .char (some (BitVec.ofInt 8 c)))
    | .fseek offset origin => let s := r.seek file offset origin; (s.1, .status s.2)
    | .rewind => ((r.seek file 0 .seekSet).1, .done)
    | .ftell => (r, .position r.position)

end ReconOS.Libc
