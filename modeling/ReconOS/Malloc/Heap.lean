import ReconOS.Lib.Dll

/-! The C library's allocator. A region from the page source is tiled by blocks, each a header of two
words and a payload; the free ones are listed by size. -/
namespace ReconOS.Malloc

def align : Nat := 16
def header : Nat := 16
def minBlock : Nat := 32
def regionHeader : Nat := 32
def regionBytes : Nat := 1024 * 1024
def largeBlock : Nat := regionBytes / 4
def nbins : Nat := 32

/-- `size_t` arithmetic is modulo this. -/
def sizeLimit : Nat := 2 ^ 64

/-- More nodes than a list in memory can have. -/
def longest : Nat := 2 ^ 64

/-- Where memory comes from. What `take` answers may depend on how often the source was called and
on what it has lent; a range comes back with `giveBack`, where there is one. -/
structure Source where
  take : Nat → List (Nat × Nat) → Nat → Nat
  giveBack : Option (Nat → Bool)

/-- The allocator and the memory it works in. `called` and `lent` are the source's own account: the
calls made of it, and the ranges it has out. -/
structure Heap where
  mem : Mem
  bins : Nat → Nat
  regions : Nat
  takenBytes : Nat
  liveBytes : Nat
  liveBlocks : Nat
  regionCount : Nat
  takes : Nat
  gives : Nat
  refusals : Nat
  called : Nat
  lent : List (Nat × Nat)

/-- The allocator before its first call. -/
def fresh (mem : Mem) : Heap :=
  { mem, bins := fun _ => 0, regions := 0, takenBytes := 0, liveBytes := 0, liveBlocks := 0,
    regionCount := 0, takes := 0, gives := 0, refusals := 0, called := 0, lent := [] }

/-! ## Sizes -/

def alignUp (n : Nat) : Nat := (n + (align - 1)) % sizeLimit / align * align

/-- The block a request needs, or nothing where the addition wrapped. -/
def wantFor (bytes : Nat) : Option Nat :=
  let want := alignUp ((bytes + header) % sizeLimit)
  if want < bytes then none else some (max want minBlock)

def binLoop : Nat → Nat → Nat → Nat
  | 0, _, i => i
  | room + 1, v, i => if 1 < v then binLoop room (v / 2) (i + 1) else i

def binOf (whole : Nat) : Nat := binLoop (nbins - 1) (whole / minBlock) 0

namespace Heap

/-! ## Blocks

The head of a block is its size, a multiple of sixteen, with `THIS_USED` in bit 0 and `PREV_USED` in
bit 1. -/

def load (h : Heap) (a : Nat) : Nat := h.mem.load a

def store (h : Heap) (a v : Nat) : Heap := { h with mem := h.mem.store a v }

def head (h : Heap) (b : Nat) : Nat := h.load (b + 8)

def sizeOf (h : Heap) (b : Nat) : Nat := h.head b / align * align

def used (h : Heap) (b : Nat) : Bool := h.head b % 2 == 1

def prevUsed (h : Heap) (b : Nat) : Bool := h.head b / 2 % 2 == 1

def setSize (h : Heap) (b bytes : Nat) : Heap := h.store (b + 8) (bytes + h.head b % align)

def setUsed (h : Heap) (b : Nat) : Heap := h.store (b + 8) (h.head b / 2 * 2 + 1)

def clearUsed (h : Heap) (b : Nat) : Heap := h.store (b + 8) (h.head b / 2 * 2)

def setPrevUsed (h : Heap) (b : Nat) : Heap := h.store (b + 8) (h.head b / 4 * 4 + 2 + h.head b % 2)

def clearPrevUsed (h : Heap) (b : Nat) : Heap := h.store (b + 8) (h.head b / 4 * 4 + h.head b % 2)

def nextBlock (h : Heap) (b : Nat) : Nat := b + h.sizeOf b

def prevBlock (h : Heap) (b : Nat) : Nat := b - h.load b

def writeFooter (h : Heap) (b : Nat) : Heap := h.store (h.nextBlock b) (h.sizeOf b)

/-! ## Free lists -/

/-- A free block's links are the first two words of its payload. -/
def binInsert (h : Heap) (b : Nat) : Heap :=
  let k := binOf (h.sizeOf b)
  { h with mem := h.mem.pushFront header (h.bins k) b, bins := Function.update h.bins k b }

def binRemove (h : Heap) (b : Nat) : Heap :=
  let k := binOf (h.sizeOf b)
  let out := h.mem.unlink header (h.bins k) b
  { h with mem := out.1, bins := Function.update h.bins k out.2 }

/-! ## Regions

A region's header is four words: next, prev, bytes, whole. -/

def bytesOf (h : Heap) (r : Nat) : Nat := h.load (r + 16)

def wholeOf (h : Heap) (r : Nat) : Bool := h.load (r + 24) != 0

/-- The first block and the sentinel of a new region. -/
def layBlock (h : Heap) (r ask : Nat) : Heap :=
  let b := r + regionHeader
  let h := h.store b 0
  let h := h.store (b + 8) ((ask + sizeLimit - regionHeader - header) % sizeLimit + 2)
  let fence := h.nextBlock b
  let h := h.store fence 0
  let h := h.store (fence + 8) 1
  h.writeFooter b

def layRegion (h : Heap) (r ask : Nat) (whole : Bool) : Heap :=
  let h := { h with
    takes := h.takes + 1, takenBytes := h.takenBytes + ask, regionCount := h.regionCount + 1 }
  let h := h.store (r + 16) ask
  let h := h.store (r + 24) whole.toNat
  let h := { h with mem := h.mem.pushFront 0 h.regions r, regions := r }
  let h := h.layBlock r ask
  if whole = true then h else h.binInsert (r + regionHeader)

/-- How much to ask for; the first sum can wrap. -/
def askFor (want : Nat) (whole : Bool) : Nat :=
  let need := (regionHeader + want + header) % sizeLimit
  let ask := if whole = true then alignUp need else regionBytes
  if ask < need then alignUp need else ask

def takeRegion (src : Source) (want : Nat) (whole : Bool) (h : Heap) : Nat × Heap :=
  let ask := askFor want whole
  let r := src.take h.called h.lent ask
  let h := { h with called := h.called + 1 }
  if r = 0 then (0, { h with refusals := h.refusals + 1 })
  else (r, { h with lent := (r, ask) :: h.lent }.layRegion r ask whole)

/-- Hand a range back; only a source that took it has it again. -/
def giveBack (src : Source) (r bytes : Nat) (h : Heap) : Heap :=
  match src.giveBack with
  | none => h
  | some back =>
    if back h.called = true then
      { h with called := h.called + 1, gives := h.gives + 1, lent := h.lent.erase (r, bytes) }
    else { h with called := h.called + 1 }

def dropRegion (src : Source) (r : Nat) (h : Heap) : Heap :=
  let out := h.mem.unlink 0 h.regions r
  let h := { h with mem := out.1, regions := out.2 }
  let h := { h with
    takenBytes := h.takenBytes - h.bytesOf r, regionCount := h.regionCount - 1 }
  h.giveBack src r (h.bytesOf r)

def regionFrom (h : Heap) (b : Nat) : Nat → Nat → Nat
  | 0, _ => 0
  | fuel + 1, r =>
    if r = 0 then 0
    else if r ≤ b ∧ b < r + h.bytesOf r then r
    else regionFrom h b fuel (h.load r)

/-- The region a block belongs to, or zero. -/
def regionOf (h : Heap) (b : Nat) : Nat := h.regionFrom b longest h.regions

/-! ## Carving -/

def split (h : Heap) (b want : Nat) : Heap :=
  let rest := h.sizeOf b - want
  if rest < minBlock then h
  else
    let h := h.setSize b want
    let tail := h.nextBlock b
    let h := h.store (tail + 8) (rest + 2)
    let h := h.writeFooter tail
    h.binInsert tail

def fitFrom (h : Heap) (want : Nat) : Nat → Nat → Nat
  | 0, _ => 0
  | fuel + 1, b =>
    if b = 0 then 0
    else if want ≤ h.sizeOf b then b
    else fitFrom h want fuel (h.load (b + header))

/-- The first block of the first list that has one, of the `n` lists from `k` on. -/
def firstFrom (h : Heap) : Nat → Nat → Nat
  | 0, _ => 0
  | n + 1, k => if h.bins k ≠ 0 then h.bins k else firstFrom h n (k + 1)

def findFit (h : Heap) (want : Nat) : Nat :=
  let k := binOf want
  let b := h.fitFrom want longest (h.bins k)
  if b ≠ 0 then b else h.firstFrom (nbins - (k + 1)) (k + 1)

/-- Coalesce a freed block with the one after it. -/
def mergeAfter (h : Heap) (b : Nat) : Heap :=
  let after := h.nextBlock b
  if h.sizeOf after ≠ 0 ∧ h.used after = false then
    let h := h.binRemove after
    h.setSize b (h.sizeOf b + h.sizeOf after)
  else h

/-- Coalesce a freed block with the one before it; where it starts now comes back. -/
def mergeBefore (h : Heap) (b : Nat) : Nat × Heap :=
  if h.prevUsed b = false then
    let before := h.prevBlock b
    let h := h.binRemove before
    (before, h.setSize before (h.sizeOf before + h.sizeOf b))
  else (b, h)

/-- Mark a block free and coalesce it on both sides; where it starts now comes back. -/
def coalesce (h : Heap) (b : Nat) : Nat × Heap :=
  let h := h.clearUsed b
  let h := h.mergeAfter b
  let (b, h) := h.mergeBefore b
  let h := h.writeFooter b
  (b, h.clearPrevUsed (h.nextBlock b))

def releaseBlock (src : Source) (b r : Nat) (h : Heap) : Heap :=
  let (b, h) := h.coalesce b
  if h.sizeOf b + regionHeader + header = h.bytesOf r then h.dropRegion src r
  else h.binInsert b

/-! ## The four functions -/

/-- Mark a block handed out. -/
def handOut (h : Heap) (b : Nat) : Nat × Heap :=
  let h := h.setUsed b
  let h := h.setPrevUsed (h.nextBlock b)
  (b + header,
    { h with liveBytes := h.liveBytes + (h.sizeOf b - header), liveBlocks := h.liveBlocks + 1 })

def carve (h : Heap) (b want : Nat) : Nat × Heap := ((h.binRemove b).split b want).handOut b

def mallocLarge (src : Source) (want : Nat) (h : Heap) : Nat × Heap :=
  let (r, h) := h.takeRegion src want true
  if r = 0 then (0, h) else h.handOut (r + regionHeader)

def mallocSmall (src : Source) (want : Nat) (h : Heap) : Nat × Heap :=
  let b := h.findFit want
  if b ≠ 0 then h.carve b want
  else
    let (r, h) := h.takeRegion src want false
    if r = 0 then (0, h)
    else
      let b := h.findFit want
      if b = 0 then (0, h) else h.carve b want

def malloc (src : Source) (bytes : Nat) (h : Heap) : Nat × Heap :=
  match wantFor bytes with
  | none => (0, h)
  | some want => if largeBlock ≤ want then h.mallocLarge src want else h.mallocSmall src want

def free (src : Source) (p : Nat) (h : Heap) : Heap :=
  if p = 0 then h
  else
    let b := p - header
    let r := h.regionOf b
    if r = 0 then h
    else
      let h : Heap := { h with
        liveBytes := h.liveBytes - (h.sizeOf b - header), liveBlocks := h.liveBlocks - 1 }
      if h.wholeOf r = true then h.dropRegion src r else h.releaseBlock src b r

def calloc (src : Source) (count each : Nat) (h : Heap) : Nat × Heap :=
  let total := count * each % sizeLimit
  if each ≠ 0 ∧ total / each ≠ count then (0, h)
  else
    let (p, h) := h.malloc src total
    if p ≠ 0 then (p, { h with mem := h.mem.fill p total 0 }) else (p, h)

/-- Give up the end of a block in use, where it can stand as a block of its own. -/
def shrink (src : Source) (b want r : Nat) (h : Heap) : Heap :=
  let before := h.sizeOf b
  if minBlock ≤ before - want then
    let h := h.setSize b want
    let tail := h.nextBlock b
    let h := h.store (tail + 8) (before - want + 3)
    let h := { h with liveBytes := h.liveBytes - (before - want) }
    h.releaseBlock src tail r
  else h

/-- Take in the free block after a block in use. -/
def growInto (h : Heap) (b : Nat) : Heap :=
  let had := h.sizeOf b - header
  let after := h.nextBlock b
  let h := h.binRemove after
  let h := h.setSize b (h.sizeOf b + h.sizeOf after)
  let h := h.setPrevUsed (h.nextBlock b)
  { h with liveBytes := h.liveBytes + (h.sizeOf b - header - had) }

/-- A new block with what the old one held, and the old one freed. -/
def moveTo (src : Source) (p bytes : Nat) (h : Heap) : Nat × Heap :=
  let had := h.sizeOf (p - header) - header
  let (q, h) := h.malloc src bytes
  if q = 0 then (0, h)
  else (q, { h with mem := h.mem.copy q p (min had bytes) }.free src p)

def resize (src : Source) (p bytes want r : Nat) (h : Heap) : Nat × Heap :=
  let b := p - header
  let after := h.nextBlock b
  if want ≤ h.sizeOf b ∧ h.wholeOf r = false then (p, h.shrink src b want r)
  else if want ≤ h.sizeOf b ∧ h.wholeOf r = true ∧ largeBlock ≤ want then (p, h)
  else if h.wholeOf r = false ∧ h.sizeOf after ≠ 0 ∧ h.used after = false ∧
      want ≤ h.sizeOf b + h.sizeOf after then
    (p, (h.growInto b).shrink src b want r)
  else h.moveTo src p bytes

def realloc (src : Source) (p bytes : Nat) (h : Heap) : Nat × Heap :=
  if p = 0 then h.malloc src bytes
  else if bytes = 0 then (0, h.free src p)
  else
    let r := h.regionOf (p - header)
    if r = 0 then (0, h)
    else
      match wantFor bytes with
      | none => (0, h)
      | some want => h.resize src p bytes want r

/-! ## The audit -/

/-- What an audit has counted: disagreements, payload bytes in use, blocks in use. -/
structure Tally where
  bad : Nat
  live : Nat
  blocks : Nat

def Tally.note (t : Tally) (c : Prop) [Decidable c] : Tally :=
  if c then { t with bad := t.bad + 1 } else t

/-- The blocks of a region from `b` on, `span` bytes into it; how far they reach comes back. -/
def auditBlocks (h : Heap) (bytes : Nat) :
    Nat → (b span : Nat) → (prevUsed : Bool) → Tally → Nat × Tally
  | 0, _, span, _, t => (span, t)
  | fuel + 1, b, span, prevUsed, t =>
    let size := h.sizeOf b
    if size = 0 then (span, t)
    else
      let t := t.note (size % align ≠ 0)
      let t := t.note (size < minBlock)
      let t := t.note (h.prevUsed b ≠ prevUsed)
      let t := if h.used b = true then
          { t with live := t.live + (size - header), blocks := t.blocks + 1 }
        else (t.note (h.load (b + size) ≠ size)).note (prevUsed = false)
      if bytes < span + size then (span + size, { t with bad := t.bad + 1 })
      else auditBlocks h bytes fuel (b + size) (span + size) (h.used b) t

def auditRegion (h : Heap) (r : Nat) (t : Tally) : Tally :=
  let t := t.note ((r + regionHeader) % align ≠ 0)
  let (span, t) :=
    h.auditBlocks (h.bytesOf r) (h.bytesOf r + 1) (r + regionHeader) regionHeader true t
  t.note (span + header ≠ h.bytesOf r)

def auditFrom (h : Heap) : Nat → Nat → Tally → Tally
  | 0, _, t => t
  | fuel + 1, r, t => if r = 0 then t else auditFrom h fuel (h.load r) (h.auditRegion r t)

/-- How many disagreements a walk of every block finds. -/
def audit (h : Heap) : Nat :=
  let t := h.auditFrom longest h.regions ⟨0, 0, 0⟩
  let t := t.note (t.live ≠ h.liveBytes)
  (t.note (t.blocks ≠ h.liveBlocks)).bad

end Heap

end ReconOS.Malloc
