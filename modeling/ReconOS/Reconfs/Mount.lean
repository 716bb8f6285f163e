import ReconOS.Reconfs.Volume

/-! Reading the format and making one: the owner table, `reconfs_mount` and `reconfs_format`. -/
namespace ReconOS.Reconfs

/-! ## The owner table -/

/-- The span of leaves below a node `depth` levels up, in 64 bits. -/
def spanOf (perIndex depth : Nat) : Nat := perIndex ^ depth % 2 ^ 64

/-- From `node`, `depth` levels above the leaves, to the leaf numbered `index` below it. `span`
is the number of leaves below `node`. -/
def walkTable (fs : Fs) : Nat → Nat → Nat → Nat → M Nat
  | 0, _, node, _ => pure node
  | depth + 1, span, node, index => do
    let slots ← readSlots fs node
    let below := span / fs.perIndex
    Prog.ensure (below ≠ 0) .fault
    need (index / below < fs.perIndex) .corrupt
    let child := slots (index / below)
    need (child ≠ 0) .corrupt
    walkTable fs depth below child (index % below)

/-- The block of the leaf that holds `blk`'s owner. -/
def tableLeaf (fs : Fs) (blk : Nat) : M Nat :=
  walkTable fs fs.tableDepth (spanOf fs.perIndex fs.tableDepth) fs.tableRoot (blk / fs.perLeaf)

def readLeaf (fs : Fs) (leafIndex : Nat) : M (Nat → Nat) := do
  need (leafIndex * fs.perLeaf < fs.totalBlocks) .range
  let leaf ← tableLeaf fs (leafIndex * fs.perLeaf)
  readSlots fs leaf

def ownerOf (fs : Fs) (blk : Nat) : M Nat := do
  need (blk < fs.totalBlocks) .range
  let leaf ← tableLeaf fs blk
  let entries ← readSlots fs leaf
  pure (entries (blk % fs.perLeaf))

def setOwner (fs : Fs) (blk owner : Nat) : M Unit := do
  need (blk < fs.totalBlocks) .range
  let leaf ← tableLeaf fs blk
  let entries ← readSlots fs leaf
  writeBlock fs leaf (.ofSlots (Function.update entries (blk % fs.perLeaf) owner))

/-! ## Mounting -/

def superOk (s : Super) (deviceBlocksMin : Nat) : Bool :=
  s.magic == reconfsMagic && s.version == reconfsVersion && blockSizeOk s.blockSize &&
  s.fold == foldAscii && s.totalBlocks != 0 &&
  decide (firstDataBlock s.blockSize ≤ s.rootInode) && decide (s.rootInode < s.totalBlocks) &&
  decide (firstDataBlock s.blockSize ≤ s.tableRoot) && decide (s.tableRoot < s.totalBlocks) &&
  decide (s.totalBlocks ≤ deviceBlocksMin)

/-- The block size a superblock at byte `addr` says it has, before anything is verified. -/
def probe (dev : BlockDevice) (spb addr : Nat) : M (Option Nat) := do
  match ← blockRead dev (addr / dev.blockSize) spb with
  | none => pure none
  | some b =>
    if b.header.magic = reconfsMagic ∧ b.header.version = reconfsVersion ∧
        blockSizeOk b.header.blockSize = true then
      pure (some b.header.blockSize)
    else
      pure none

/-- A superblock worth considering: it reads, it validates, and it is of the chosen size. -/
def candidate (fs : Fs) (addr : Nat) : M (Option Super) := do
  match ← statusOf (readSuper fs addr) with
  | .error _ => pure none
  | .ok s =>
    if superOk s fs.totalBlocks = true ∧ s.blockSize = fs.blockSize then pure (some s) else pure none

/-- The higher epoch wins, and the first of two equals. -/
def believe : Option Super → Option Super → Option (Super × Bool)
  | none, none => none
  | some a, none => some (a, false)
  | none, some b => some (b, true)
  | some a, some b => if b.epoch ≤ a.epoch then some (a, false) else some (b, true)

/-- The volume as it stands before a superblock has been chosen. -/
def unread (dev : BlockDevice) (blockSize spb : Nat) : Fs :=
  { dev := dev
    super :=
      { magic := 0, version := 0, blockSize := 0, epoch := 0, totalBlocks := 0, rootInode := 0
        tableRoot := 0, tableDepth := 0, nextDossier := 0, blocksUsed := 0, label := []
        fold := 0, seekIsFree := false, discardSupported := false, transferHint := 0 }
    liveSuper := 0
    blockSize := blockSize
    perIndex := perIndexFor blockSize
    perLeaf := perIndexFor blockSize
    totalBlocks := dev.blockCount / spb
    tableRoot := 0
    tableDepth := 0
    rootInode := 0
    mounted := false }

/-- The volume a chosen superblock describes. -/
def Fs.under (fs : Fs) (s : Super) (live : Nat) : Fs :=
  { fs with
    super := s, liveSuper := live, totalBlocks := s.totalBlocks, tableRoot := s.tableRoot
    tableDepth := s.tableDepth, rootInode := s.rootInode, mounted := true }

/-- The block size either superblock says the volume has, A's first. -/
def probeSize (dev : BlockDevice) (spb : Nat) : M (Option Nat) := do
  match ← probe dev spb 0 with
  | some bs => pure (some bs)
  | none => probe dev spb blockMax

/-- The newer of the superblocks that are worth considering. -/
def chooseSuper (fs : Fs) : M Fs := do
  let a ← candidate fs superA
  let b ← candidate fs (superB fs.blockSize)
  let s ← orErr (believe a b) .notReconfs
  pure (fs.under s.1 (if s.2 then superB fs.blockSize else superA))

def mount (dev : BlockDevice) : M Fs := do
  buffer dev
  let spb ← orErr (sectorsPerBlock dev blockMin) .device
  let chosen ← probeSize dev spb
  let bs ← orErr chosen .notReconfs
  let spb ← orErr (sectorsPerBlock dev bs) .blockSize
  let index ← kzalloc dev
  let leaf ← kzalloc dev
  let cand ← kzalloc dev
  need (index = true ∧ leaf = true ∧ cand = true) .nomem
  chooseSuper (unread dev bs spb)

/-! ## Making one -/

def chooseBlockSize (bytes : Nat) : Nat :=
  let tib := 1024 * 1024 * 1024 * 1024
  if bytes < 2 * tib then 4096 else if bytes < 16 * tib then 16384 else 65536

/-- The block size asked for, or one chosen by the size of the device. -/
def formatSize (dev : BlockDevice) (blockSize : Nat) : Nat :=
  if blockSize = 0 then chooseBlockSize (dev.blockCount * dev.blockSize % 2 ^ 64) else blockSize

/-- How many of `n` things of `per` a node are needed. -/
def ceilDiv (n per : Nat) : Nat := (n + per - 1) / per

/-- How many leaves a table has, in 64 bits: where the sum wraps there are none. -/
def leavesFor (totalBlocks perLeaf : Nat) : Nat := (totalBlocks + perLeaf - 1) % 2 ^ 64 / perLeaf

/-- The least depth from `depth` on whose span reaches `leaves`, in at most `fuel` steps. -/
def depthLoop (leaves perIndex : Nat) : Nat → Nat → Nat → Nat
  | 0, _, depth => depth
  | fuel + 1, span, depth =>
    if span < leaves then depthLoop leaves perIndex fuel (span * perIndex) (depth + 1) else depth

/-- `reconfs_depth_for`. The span at least doubles, so 64 steps reach any 64-bit count. -/
def depthFor (totalBlocks perLeaf perIndex : Nat) : Nat :=
  depthLoop (leavesFor totalBlocks perLeaf) perIndex 64 1 0

/-- The blocks of `depth` index levels over a level of `level` blocks. The leaves are too few for the
sums here to wrap. -/
def indexBlocks (perIndex : Nat) : Nat → Nat → Nat
  | 0, _ => 0
  | depth + 1, level => ceilDiv level perIndex + indexBlocks perIndex depth (ceilDiv level perIndex)

def blocksForTable (totalBlocks depth perLeaf perIndex : Nat) : Nat :=
  leavesFor totalBlocks perLeaf + indexBlocks perIndex depth (leavesFor totalBlocks perLeaf)

/-- One index block over a level of `count` blocks from `start`. -/
def levelSlots (perIndex start count k : Nat) : Nat → Nat := fun j =>
  if j < perIndex ∧ k * perIndex + j < count then start + (k * perIndex + j) else 0

/-- The index levels, bottom up; the block of the top one. -/
def writeIndex (fs : Fs) : Nat → Nat → Nat → M Nat
  | 0, start, _ => pure start
  | depth + 1, start, count => do
    let above := ceilDiv count fs.perIndex
    Prog.each (List.range above) fun k =>
      writeBlock fs (start + count + k) (.ofSlots (levelSlots fs.perIndex start count k))
    writeIndex fs depth (start + count) above

def rootDirectory (now : Nat) : Inode :=
  { Inode.zero with
    magic := inodeMagic, dossier := dossierRoot, parent := 0, type := typeDir, mode := 0o755
    size := 0, links := 1, btime := now, mtime := now, ctime := now, inlineLen := 0 }

/-- The superblock of a volume just made. -/
def firstSuper (dev : BlockDevice) (label : Option Name) (fs : Fs) (used : Nat) : Super :=
  { magic := reconfsMagic, version := reconfsVersion, blockSize := fs.blockSize, epoch := 1
    totalBlocks := fs.totalBlocks, rootInode := firstDataBlock fs.blockSize
    tableRoot := fs.tableRoot, tableDepth := fs.tableDepth, nextDossier := dossierFirst
    blocksUsed := used, fold := foldAscii, seekIsFree := dev.seekIsFree
    discardSupported := dev.discardSupported, transferHint := dev.transferHint
    label := (label.getD [82, 101, 99, 111, 110, 70, 83]).take (labelMax - 1) }

/-- A flush that the format cannot go on without. -/
def flushed (dev : BlockDevice) : M Unit := do
  let done ← blockFlush dev
  need (done = true) .io

/-- The first block of the table. -/
def firstTable (blockSize : Nat) : Nat := firstDataBlock blockSize + 1

/-- Room to work in. -/
def formatBuffers (dev : BlockDevice) : M Unit := do
  let sb ← kzalloc dev
  let root ← kzalloc dev
  let zero ← kzalloc dev
  let index ← kzalloc dev
  let leaf ← kzalloc dev
  need (sb = true ∧ root = true ∧ zero = true ∧ index = true ∧ leaf = true) .nomem

/-- The owner table, bottom up, claiming the first `used` blocks; the volume it belongs to. -/
def makeTable (fs : Fs) (depth used : Nat) : M Fs := do
  let first := firstTable fs.blockSize
  let leaves := leavesFor fs.totalBlocks fs.perLeaf
  Prog.each (List.range leaves) fun i => writeBlock fs (first + i) (.ofSlots fun _ => 0)
  let tableRoot ← writeIndex fs depth first leaves
  let fs := { fs with tableRoot := tableRoot, tableDepth := depth }
  Prog.each (List.range used) fun i => setOwner fs i ownerArchive
  pure fs

/-- The commit: everything before is on the medium before either superblock names it. -/
def formatCommit (fs : Fs) (s : Super) : M Unit := do
  flushed fs.dev
  writeBlock fs superA (.ofSuper fs.blockSize s)
  flushed fs.dev
  writeBlock fs (superB fs.blockSize) (.ofSuper fs.blockSize s)
  flushed fs.dev

def format (dev : BlockDevice) (label : Option Name) (blockSize : Nat) : M Unit := do
  need (dev.readOnly = false) .readOnly
  let bs := formatSize dev blockSize
  need (blockSizeOk bs = true) .blockSize
  let spb ← orErr (sectorsPerBlock dev bs) .blockSize
  let fs := unread dev bs spb
  let depth := depthFor fs.totalBlocks fs.perLeaf fs.perIndex
  let used := firstTable bs + blocksForTable fs.totalBlocks depth fs.perLeaf fs.perIndex
  need (used < fs.totalBlocks) .tooSmall
  formatBuffers dev
  let fs ← makeTable fs depth used
  let now ← timeMonotonicNs dev
  writeBlock fs (firstDataBlock bs) (.ofInode (rootDirectory now))
  formatCommit fs (firstSuper dev label fs used)

end ReconOS.Reconfs
