import ReconOS.Reconfs.Txn

/-! Names: directories as entry streams, looked up in and given up for a new copy. -/
namespace ReconOS.Reconfs

/-! ## Entries -/

def fold (c : UInt8) : UInt8 := if 65 ≤ c ∧ c ≤ 90 then c - 65 + 97 else c

/-- The stored name against a C string, without ASCII case. -/
def nameEq (stored want : Name) : Bool := stored.map fold == want.map fold

def dot : Name := [46]
def dotDot : Name := [46, 46]
def slash : UInt8 := 47

/-- A multiple of eight. -/
def entrySize (nameLen : Nat) : Nat := (direntMin + nameLen + 7) / 8 * 8

/-- The bytes a stream of entries takes. -/
def streamLen (es : List Dirent) : Nat := (es.map Dirent.recLen).sum

/-- The entry that names an object. -/
def newEntry (inode type : Nat) (name : Name) : Dirent :=
  { inode := inode, recLen := entrySize name.length, type := type, name := name }

/-- The entries of one block, up to its padding; `none` if one does not fit the block, or the
buffer. `off` and `got` are the bytes passed and the bytes already in the buffer. -/
def takeBlock (cap len : Nat) : Nat → Nat → List Dirent → Option (List Dirent)
  | _, _, [] => some []
  | off, got, de :: rest =>
    if len < off + direntMin then some []
    else if de.recLen = 0 then some []
    else if de.recLen < direntMin ∨ len < off + de.recLen ∨ de.recLen < de.name.length + direntMin
      then none
    else if cap < got + de.recLen then none
    else (takeBlock cap len (off + de.recLen) (got + de.recLen) rest).map (de :: ·)

def entriesCapacity (fs : Fs) : Nat := directCount * fs.blockSize

/-- The entries in the direct blocks, joined. -/
def readDirect (fs : Fs) : List Nat → List Dirent → M (List Dirent)
  | [], got => pure got
  | blk :: blks, got =>
    if blk = 0 then
      readDirect fs blks got
    else do
      let area ← readArea fs blk
      let es ← orErr (takeBlock (entriesCapacity fs) fs.blockSize 0 (streamLen got) area.entries)
        .corrupt
      readDirect fs blks (got ++ es)

def readEntries (fs : Fs) (dir : Inode) : M (List Dirent) := do
  buffer fs.dev
  if dir.inlineLen ≠ 0 then
    orErr (takeBlock (entriesCapacity fs) dir.inlineLen 0 0 dir.data.entries) .corrupt
  else
    buffer fs.dev
    readDirect fs dir.directs []

/-- The first entry in use with the name. -/
def findName (es : List Dirent) (name : Name) : Option Dirent :=
  es.find? fun de => de.inode != 0 && nameEq de.name name

def lookup (fs : Fs) (dirBlock : Nat) (name : Name) : M Nat := do
  need (name ≠ []) .name
  buffer fs.dev
  let dir ← readInode fs dirBlock
  need (dir.magic = inodeMagic ∧ dir.type = typeDir) .notDir
  let es ← readEntries fs dir
  let de ← orErr (findName es name) .notFound
  pure de.inode

/-! ## A new copy -/

/-- Pointers as the direct array holds them. -/
def pointers (blks : List Nat) : Nat → Nat := fun i => blks.getD i 0

/-- Release the direct blocks of an out-of-line object, and nothing of an inline one. -/
def freeDirect (fs : Fs) (i : Inode) : M Unit :=
  Prog.each i.directs fun blk => if blk = 0 then pure () else txnFree fs blk

/-- A directory's header with nothing in it, rewritten at `now`. -/
def Inode.rewritten (old : Inode) (size now : Nat) : Inode :=
  { old with
    direct := fun _ => 0, indirect := 0, inlineLen := 0, size := size, mtime := now, ctime := now
    data := Area.zero }

/-- Release the copy of a directory that a new one replaces. -/
def releaseDir (fs : Fs) (oldBlock : Nat) (old : Inode) : M Unit := do
  Prog.when (old.inlineLen = 0) (freeDirect fs old)
  txnFree fs oldBlock

/-- The inode of an object just created. -/
def createdInode (dossier parent type mode now : Nat) : Inode :=
  { Inode.zero with
    magic := inodeMagic, dossier := dossier, parent := parent, type := type, mode := mode
    size := 0, links := 1, btime := now, mtime := now, ctime := now, inlineLen := 0 }

end ReconOS.Reconfs
