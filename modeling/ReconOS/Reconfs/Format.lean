import ReconOS.Lib.Prog
import ReconOS.Lib.Disk
import Mathlib.Algebra.Order.Ring.Nat

/-! The on-disk format of ReconFS: its constants, its structures, and what a block reads as. -/
namespace ReconOS.Reconfs

def blockMin : Nat := 4096
def blockMax : Nat := 65536
def reconfsMagic : Nat := 0x3153466E6F636552
def inodeMagic : Nat := 0x316F6E496E636552
def reconfsVersion : Nat := 1
def superA : Nat := 0
def ownerVoid : Nat := 0
def ownerArchive : Nat := 1
def dossierRoot : Nat := 2
def dossierFirst : Nat := 3
def nameMax : Nat := 255
def labelMax : Nat := 64
def typeFile : Nat := 1
def typeDir : Nat := 2
def directCount : Nat := 12
def foldAscii : Nat := 1
def pathMax : Nat := 32

/-- `sizeof(struct reconfs_dirent)`, the header before the name. -/
def direntMin : Nat := 16

/-- `sizeof(struct reconfs_inode)`, the header before the contents. -/
def inodeHeader : Nat := 232

/-- Where superblock B lives, in blocks. -/
def superB (blockSize : Nat) : Nat := blockMax / blockSize

def firstDataBlock (blockSize : Nat) : Nat := superB blockSize + 1

/-- `RECONFS_INLINE_MAX_FOR`: how much of a small object lives inside its inode. -/
def inlineMax (blockSize : Nat) : Nat := blockSize - inodeHeader

/-- `RECONFS_PER_INDEX_FOR` and `RECONFS_PER_LEAF_FOR`, one expression for both. -/
def perIndexFor (blockSize : Nat) : Nat := blockSize / 8

inductive Status where
  | io | range | device | checksum | corrupt | notReconfs | nomem | readOnly | tooLarge | tooSmall
  | nospace | blockSize | retry | name | notFound | notDir | alreadyExists | dirFull | notFile
  | notEmpty | tooDeep | notMounted
  deriving DecidableEq, Repr

/-- How a call ends without success: with a status, or with a division by zero, which the
hardware traps. -/
inductive Stop where
  | status (st : Status)
  | fault
  deriving DecidableEq, Repr

abbrev Name := List UInt8

/-- The part of a superblock that is read before its checksum can be. -/
structure Header where
  magic : Nat
  version : Nat
  blockSize : Nat
  deriving DecidableEq, Repr

/-- The part of a superblock that is believed only under its checksum. -/
structure SuperBody where
  epoch : Nat
  totalBlocks : Nat
  rootInode : Nat
  tableRoot : Nat
  tableDepth : Nat
  nextDossier : Nat
  blocksUsed : Nat
  label : Name
  fold : Nat
  seekIsFree : Bool
  discardSupported : Bool
  transferHint : Nat
  deriving DecidableEq, Repr

structure Super extends Header, SuperBody
  deriving DecidableEq, Repr

/-- A directory entry. `name` holds its `name_len` bytes. -/
structure Dirent where
  inode : Nat
  recLen : Nat
  type : Nat
  name : Name
  deriving DecidableEq, Repr

/-- A stretch of bytes, as file contents and as the entries met by walking it from its start in
steps of `rec_len`. -/
structure Area where
  bytes : Nat → UInt8
  entries : List Dirent

def Area.zero : Area := ⟨fun _ => 0, []⟩

/-- An inode, with what follows its header in `data`: the first `inlineMax` bytes of it are the
block's, whatever `inlineLen` says. -/
structure Inode where
  magic : Nat
  dossier : Nat
  parent : Nat
  type : Nat
  mode : Nat
  uid : Nat
  gid : Nat
  size : Nat
  btime : Nat
  mtime : Nat
  ctime : Nat
  links : Nat
  flags : Nat
  inlineLen : Nat
  direct : Nat → Nat
  indirect : Nat
  doubleIndirect : Nat
  tripleIndirect : Nat
  data : Area

/-- The twelve direct pointers. -/
def Inode.directs (i : Inode) : List Nat := (List.range directCount).map i.direct

/-- A zeroed inode. -/
def Inode.zero : Inode :=
  { magic := 0, dossier := 0, parent := 0, type := 0, mode := 0, uid := 0, gid := 0, size := 0
    btime := 0, mtime := 0, ctime := 0, links := 0, flags := 0, inlineLen := 0
    direct := fun _ => 0, indirect := 0, doubleIndirect := 0, tripleIndirect := 0
    data := Area.zero }

/-- A block, as what each of the program's reads makes of its bytes. `body n` is the superblock
over `n` bytes and `inode` the inode, `none` where that checksum does not match; `slots` are its
64-bit words. Every image of bytes is such a family of blocks. -/
structure Block where
  header : Header
  body : Nat → Option SuperBody
  inode : Option Inode
  slots : Nat → Nat
  area : Area

def Block.zero : Block :=
  ⟨⟨0, 0, 0⟩, fun _ => none, none, fun _ => 0, Area.zero⟩

/-- The superblock read over `n` bytes under its checksum. -/
def Block.super (b : Block) (n : Nat) : Option Super :=
  (b.body n).map fun r => ⟨b.header, r⟩

/-! The blocks the program writes, each read back only as what it was written as. -/

def Block.ofSuper (blockSize : Nat) (s : Super) : Block :=
  { Block.zero with
    header := s.toHeader
    body := fun n => if n = blockSize then some s.toSuperBody else none }

def Block.ofInode (i : Inode) : Block := { Block.zero with inode := some i }

def Block.ofSlots (f : Nat → Nat) : Block := { Block.zero with slots := f }

@[simp] theorem super_ofSuper (blockSize : Nat) (s : Super) :
    (Block.ofSuper blockSize s).super blockSize = some s := by
  simp [Block.super, Block.ofSuper]

@[simp] theorem inode_ofInode (i : Inode) : (Block.ofInode i).inode = some i := rfl

@[simp] theorem slots_ofSlots (f : Nat → Nat) : (Block.ofSlots f).slots = f := rfl

end ReconOS.Reconfs
