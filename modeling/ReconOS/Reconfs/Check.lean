import ReconOS.Reconfs.Dir

/-! The checker: a walk down from the root and a sweep over the owner table, compared. -/
namespace ReconOS.Reconfs

def checkMaxBlocks : Nat := 2 ^ 22

/-- How deep the directory tree may be walked. -/
def checkMaxDepth : Nat := 64

/-- What the checker has recorded, `struct walk` and `struct reconfs_check_result`: the owner the
walk gave each block, zero for none, and what it has counted. -/
structure Walk where
  owner : Nat → Nat
  blocksSeenForward : Nat
  blocksSeenReverse : Nat
  inodes : Nat
  disagreements : Nat
  firstDisagreement : Option (String × Nat)

def Walk.start : Walk := ⟨fun _ => 0, 0, 0, 0, 0, none⟩

structure CheckSt where
  st : St
  walk : Walk

abbrev W := Prog CheckSt Stop

/-- A step of the volume's code, which leaves the record alone. -/
def onVolume {α : Type} (m : M α) : W α := fun s =>
  match m s.st with
  | (r, t) => (r, { s with st := t })

def Walk.disagree (w : Walk) (why : String) (blk : Nat) : Walk :=
  { w with
    disagreements := w.disagreements + 1
    firstDisagreement := if w.disagreements = 0 then some (why, blk) else w.firstDisagreement }

/-- `w.by[blk] = owner`, counted. -/
def Walk.mark (w : Walk) (blk owner : Nat) : Walk :=
  { w with
    owner := Function.update w.owner blk owner, blocksSeenForward := w.blocksSeenForward + 1 }

/-- Record that `owner` reaches `blk`. -/
def Walk.claim (w : Walk) (fs : Fs) (blk owner : Nat) (what : String) : Walk :=
  if blk < superB fs.blockSize ∨ fs.totalBlocks ≤ blk then
    w.disagree "a pointer left the volume" blk
  else if w.owner blk ≠ 0 then
    w.disagree what blk
  else
    w.mark blk owner

def onWalk (f : Walk → Walk) : W Unit := Prog.modify fun s => { s with walk := f s.walk }

/-- A disagreement the check does not go on from. -/
def giveUp {α : Type} (why : String) (blk : Nat) (st : Status) : W α := do
  onWalk fun w => w.disagree why blk
  Prog.fail (.status st)

/-- Claim every pointer in use of a list. -/
def Walk.claimAll (w : Walk) (fs : Fs) (blks : List Nat) (owner : Nat) (what : String) : Walk :=
  blks.foldl (fun w blk => if blk = 0 then w else w.claim fs blk owner what) w

/-- A file's index block, and the blocks it names. -/
def walkIndirect (fs : Fs) (ino : Inode) : W Unit := do
  onVolume (buffer fs.dev)
  onWalk fun w => w.claim fs ino.indirect ino.dossier "an indirect block is reachable twice"
  let slots ← onVolume (readSlots fs ino.indirect)
  onWalk fun w => w.claimAll fs ((List.range fs.perIndex).map slots) ino.dossier
    "a data block is reachable twice"

def walkFile (fs : Fs) (ino : Inode) : W Unit := do
  onWalk fun w => w.claimAll fs ino.directs ino.dossier "a data block is reachable twice"
  Prog.when (ino.indirect ≠ 0) (walkIndirect fs ino)
  Prog.when (ino.doubleIndirect ≠ 0 ∨ ino.tripleIndirect ≠ 0)
    (onWalk fun w => w.disagree "a file uses indirection this version cannot write" 0)

/-- The entries of one directory block, in order, up to its padding. -/
def walkDirBlock (walk : Nat → W Unit) (dirBlk len : Nat) : Nat → List Dirent → W Unit
  | _, [] => pure ()
  | off, de :: rest =>
    if len < off + direntMin then pure ()
    else if de.recLen = 0 then pure ()
    else if de.recLen < direntMin ∨ len < off + de.recLen ∨ de.recLen < de.name.length + direntMin
      then giveUp "a directory entry does not fit its block" dirBlk .corrupt
    else do
      Prog.when (de.inode ≠ 0) (walk de.inode)
      walkDirBlock walk dirBlk len (off + de.recLen) rest

/-- The direct blocks of a directory, each claimed, read and walked. -/
def walkDirBlocks (fs : Fs) (dirBlk dossier : Nat) (walk : Nat → W Unit) : List Nat → W Unit
  | [] => pure ()
  | blk :: blks =>
    if blk = 0 then
      walkDirBlocks fs dirBlk dossier walk blks
    else do
      onWalk fun w => w.claim fs blk dossier "a directory block is reachable twice"
      let area ← onVolume (readArea fs blk)
      walkDirBlock walk dirBlk fs.blockSize 0 area.entries
      walkDirBlocks fs dirBlk dossier walk blks

/-- Read an inode, noting one that does not read. -/
def walkRead (fs : Fs) (blk : Nat) : W Inode := do
  match ← onVolume (statusOf (readInode fs blk)) with
  | .ok ino => pure ino
  | .error e =>
    onWalk fun w => w.disagree "an inode did not read" blk
    Prog.fail e

/-- The entries met from byte `off` of an inode's contents on. `room` bytes of them are in its buffer:
an entry whose header is not wholly inside is read from the memory after it, which holds `past`. -/
def met (room : Nat) (past : List Dirent) : Nat → List Dirent → List Dirent
  | off, [] => if room < off + direntMin then past else []
  | off, de :: rest =>
    if room < off + direntMin then past else de :: met room past (off + de.recLen) rest

/-- What the memory after the buffer of each inode holds, by the inode's block. Nothing checks
`inline_len` against the buffer. -/
abbrev Beyond := Nat → List Dirent

/-- What an inode holds: the entries of a directory, each walked, or a file's blocks. -/
def walkInside (fs : Fs) (past : Beyond) (blk : Nat) (ino : Inode) (walk : Nat → W Unit) : W Unit :=
  if ino.type = typeDir then
    if ino.inlineLen ≠ 0 then
      walkDirBlock walk blk ino.inlineLen 0
        (met (inlineMax fs.blockSize) (past blk) 0 ino.data.entries)
    else do
      onVolume (buffer fs.dev)
      walkDirBlocks fs blk ino.dossier walk ino.directs
  else if ino.type = typeFile then
    Prog.when (ino.inlineLen = 0) (walkFile fs ino)
  else
    giveUp "an inode has a type this format does not define" blk .corrupt

/-- `walk_inode`, with `left` levels to go before the tree is too deep. -/
def walkInode (fs : Fs) (past : Beyond) : Nat → Nat → Nat → Nat → W Unit
  | 0, blk, _, _ => giveUp "the directory tree is deeper than 64" blk .corrupt
  | left + 1, blk, expectParent, owner => do
    onWalk fun w => w.claim fs blk owner "an inode is reachable by two paths"
    onVolume (buffer fs.dev)
    let ino ← walkRead fs blk
    if ino.magic ≠ inodeMagic then
      giveUp "a directory entry points at something that is not an inode" blk .corrupt
    else if ino.dossier = 0 then
      giveUp "an inode has no dossier number" blk .corrupt
    else do
      Prog.when (ino.parent ≠ expectParent)
        (onWalk fun w => w.disagree "an inode's parent is not the directory that names it" blk)
      onWalk fun w => { w with inodes := w.inodes + 1 }
      walkInside fs past blk ino fun child => walkInode fs past left child ino.dossier ino.dossier

/-- Claim below every slot in use. -/
def claimKids (claim : Nat → W Unit) (slots : Nat → Nat) : List Nat → W Unit
  | [] => pure ()
  | i :: is =>
    if slots i = 0 then
      claimKids claim slots is
    else do
      claim (slots i)
      claimKids claim slots is

/-- One block of the table. -/
def claimNode (fs : Fs) (node : Nat) : W Unit := do
  let s ← Prog.get
  if fs.totalBlocks ≤ node then
    giveUp "the owner table leaves the volume" node .corrupt
  else if s.walk.owner node ≠ 0 then
    giveUp "an owner table block is reachable twice" node .corrupt
  else
    onWalk fun w => w.mark node ownerArchive

/-- The table's own blocks, from `node` down. -/
def claimTable (fs : Fs) : Nat → Nat → W Unit
  | 0, node => claimNode fs node
  | depth + 1, node => do
    claimNode fs node
    onVolume (buffer fs.dev)
    let slots ← onVolume (readSlots fs node)
    claimKids (claimTable fs depth) slots (List.range fs.perIndex)

/-- One owner compared with what the walk recorded. -/
def Walk.compare (w : Walk) (b actual : Nat) : Walk :=
  let w := if actual ≠ ownerVoid then { w with blocksSeenReverse := w.blocksSeenReverse + 1 } else w
  if actual = w.owner b then w
  else if actual = ownerVoid then w.disagree "reachable from the root but not allocated" b
  else if w.owner b = 0 then w.disagree "allocated but not reachable from the root" b
  else w.disagree "allocated to one object and reachable from another" b

/-- The leaf of block `b`: read at its first block, and `leaf` after. -/
def sweepLeaf (fs : Fs) (b : Nat) (leaf : Nat → Nat) : W (Nat → Nat) :=
  if b % fs.perLeaf = 0 then onVolume (readLeaf fs (b / fs.perLeaf)) else pure leaf

/-- `left` more blocks from `b` on; `leaf` is the leaf last read. -/
def sweepAndCompare (fs : Fs) : Nat → Nat → (Nat → Nat) → W Unit
  | 0, _, _ => pure ()
  | left + 1, b, leaf => do
    let leaf ← sweepLeaf fs b leaf
    onWalk fun w => w.compare b (leaf (b % fs.perLeaf))
    sweepAndCompare fs left (b + 1) leaf

/-- Both superblocks and the run reserved between them. -/
def Walk.reserve (w : Walk) (n : Nat) : Walk :=
  (List.range n).foldl (fun w b => w.mark b ownerArchive) w

def checkRun (fs : Fs) (past : Beyond) : W Unit := do
  onWalk fun w => w.reserve (min (firstDataBlock fs.blockSize) fs.totalBlocks)
  claimTable fs fs.tableDepth fs.tableRoot
  walkInode fs past (checkMaxDepth + 1) fs.rootInode 0 ownerArchive
  onVolume (buffer fs.dev)
  sweepAndCompare fs fs.totalBlocks 0 fun _ => 0

def checkMounted (fs : Fs) (past : Beyond) : W Unit := do
  onVolume (need (fs.mounted = true) .notReconfs)
  onVolume (need (fs.totalBlocks ≤ checkMaxBlocks) .nomem)
  onVolume (buffer fs.dev)
  checkRun fs past

/-- `reconfs_check`: how it ended, and the result it filled in. -/
def check (fs : Fs) (past : Beyond) (s : St) : Except Stop Unit × Walk :=
  match checkMounted fs past ⟨s, .start⟩ with
  | (r, t) => (r, t.walk)

end ReconOS.Reconfs
