import ReconOS.Gpt.Plan

/-! Writing a plan's partitions to the table of a disk. -/
namespace ReconOS.Gpt

/-! ## Identifiers -/

def mix (x : Nat) : Nat :=
  let x := x ^^^ (x >>> 33)
  let x := x * 0xFF51AFD7ED558CCD % u64Size
  let x := x ^^^ (x >>> 33)
  let x := x * 0xC4CEB9FE1A85EC53 % u64Size
  x ^^^ (x >>> 33)

/-- What `make_guid` mixes: the disk's name, how many identifiers there were before, and what the
clock says at each. -/
structure Guids where
  name : List UInt8
  counter : Nat
  clock : Nat → Nat

def nameHash (name : List UInt8) : Nat :=
  name.foldl (fun h b => (h ^^^ b.toNat) * 0x100000001B3 % u64Size) 0xCBF29CE484222325

/-- `make_guid`, and what it leaves of the counter. -/
def makeGuid (g : Guids) (d : Disk) : List UInt8 × Guids :=
  let counter := g.counter + 1
  let a := mix (nameHash g.name ^^^ (d.blockCount * 0x9E3779B97F4A7C15 % u64Size))
  let b := mix (g.clock counter ^^^ (counter * 0xD6E8FEB86659FD93 % u64Size))
  let out := Bytes.ofNumber 8 a ++ Bytes.ofNumber 8 b
  let out := out.modify 7 fun x => (x &&& 0x0F) ||| 0x40
  let out := out.modify 8 fun x => (x &&& 0x3F) ||| 0x80
  (out, { g with counter := counter })

/-! ## The table in memory -/

structure Table where
  entryCount : Nat
  entrySize : Nat
  firstUsable : Nat
  lastUsable : Nat
  entryLba : Nat
  diskGuid : List UInt8
  entries : Bytes

/-- What the heap gives `install_write_gpt`: what it gives `load_table`, a block, and what is in
memory past the entries. -/
structure WriteHeap where
  load : Heap
  sector : Bool
  past : Bytes

def loadTable (heap : WriteHeap) (g : Guids) (d : Disk) (fresh : Bool) :
    Except Verdict (Table × Guids) :=
  if fresh then
    if heap.load.entries = false then .error .io
    else
      let (guid, g) := makeGuid g d
      .ok (⟨128, 128, 34, (d.blockCount + u64Size - 34) % u64Size, 2, guid,
        fun i => if i < 128 * 128 then 0 else heap.past i⟩, g)
  else if heap.load.sector = false then .error .io
  else if ¬d.CanRead 1 1 then .error .io
  else
    let sector := d.sector heap.load.beyond 1
    let h := TableHeader.of sector
    if h.count = 0 ∨ 128 < h.count ∨ h.size < 128 ∨ d.blockSize < h.size then
      .error .noTableReadable
    else if heap.load.entries = false then .error .io
    else if ¬d.CanRead h.entryLba (h.sectors d.blockSize) then .error .io
    else
      .ok (⟨h.count, h.size, h.firstUsable, h.lastUsable, h.entryLba, sector.slice 56 16,
        fun i => if i < h.count * h.size then d.bytes h.entryLba i else heap.past i⟩, g)

/-- The first entry with a zero type. -/
def freeSlot (entries : Bytes) (count size : Nat) : Option Nat :=
  (List.range count).find? fun i => entries.allZero (i * size) 16

/-- A partition to be made. -/
structure Part where
  type : List UInt8
  extent : Extent
  name : List UInt8
  deriving DecidableEq, Repr

/-- The name's bytes, each the low one of two. -/
def wide (name : List UInt8) : List UInt8 := (name.take 35).flatMap fun c => [c, 0]

def fillEntry (entries : Bytes) (e : Nat) (guid : List UInt8) (part : Part) : Bytes :=
  let entries := ((entries.clear e 128).copy e part.type).copy (e + 16) guid
  let entries := entries.put64 (e + 32) part.extent.first
  let entries := entries.put64 (e + 40)
    ((part.extent.first + part.extent.count + u64Size - 1) % u64Size)
  entries.copy (e + 56) (wide part.name)

def typeReconos : List UInt8 :=
  [0x52, 0x65, 0x63, 0x6f, 0x6e, 0x4f, 0x53, 0x00, 0x53, 0x79, 0x73, 0x74, 0x65, 0x6d, 0x00, 0x01]

def typeBiosBoot : List UInt8 :=
  [0x48, 0x61, 0x68, 0x21, 0x49, 0x64, 0x6F, 0x6E, 0x74, 0x4E, 0x65, 0x65, 0x64, 0x45, 0x46, 0x49]

/-- What a plan adds to the table, in the order it is added. -/
def Plan.parts (plan : Plan) : List Part :=
  (if plan.biosBoot.count ≠ 0 then [⟨typeBiosBoot, plan.biosBoot, "BIOS boot".toUTF8.toList⟩] else []) ++
    (if plan.reuseEsp then [] else [⟨espType, plan.esp, "ReconOS Boot".toUTF8.toList⟩]) ++
    [⟨typeReconos, plan.system, "ReconOS System".toUTF8.toList⟩,
      ⟨typeReconos, plan.programs, "ReconOS Programs".toUTF8.toList⟩]

def fillParts (d : Disk) (count size : Nat) (entries : Bytes) (g : Guids) :
    List Part → Except Verdict Bytes
  | [] => .ok entries
  | part :: rest =>
    match freeSlot entries count size with
    | none => .error .tooManySlices
    | some i =>
      let (guid, g) := makeGuid g d
      fillParts d count size (fillEntry entries (i * size) guid part) g rest

/-! ## Writing -/

/-- `build_header`, but for the checksum. -/
def headerFields (t : Table) (myLba altLba entryLba entriesCrc : Nat) : Bytes :=
  let sector := Bytes.zeros.copy 0 [0x45, 0x46, 0x49, 0x20, 0x50, 0x41, 0x52, 0x54]
  let sector := (sector.put32 8 0x10000).put32 12 92
  let sector := (sector.put64 24 myLba).put64 32 altLba
  let sector := (sector.put64 40 t.firstUsable).put64 48 t.lastUsable
  let sector := (sector.copy 56 t.diskGuid).put64 72 entryLba
  ((sector.put32 80 t.entryCount).put32 84 t.entrySize).put32 88 entriesCrc

def buildHeader (t : Table) (myLba altLba entryLba entriesCrc : Nat) : Bytes :=
  let sector := headerFields t myLba altLba entryLba entriesCrc
  sector.put32 16 (crc32 ((sector.put32 16 0).slice 0 92))

def protectiveMbr (blocks : Nat) : Bytes :=
  let span := blocks - 1
  let sector := (Bytes.zeros.copy 450 [0xEE]).put32 454 1
  let sector := sector.put32 458 (if 0xFFFFFFFF < span then 0xFFFFFFFF else span)
  ((sector.copy 447 [0x00, 0x02, 0x00]).copy 451 [0xFF, 0xFF, 0xFF]).copy 510 [0x55, 0xAA]

/-- A request made of a device. -/
inductive Step where
  | write (lba count : Nat) (data : Bytes)
  | flush

def Table.sectors (t : Table) (blockSize : Nat) : Nat :=
  let per := blockSize / t.entrySize
  (t.entryCount + per - 1) / per

def Table.entriesCrc (t : Table) : Nat := crc32 (t.entries.slice 0 (t.entryCount * t.entrySize))

/-- Where the backup array goes. -/
def Table.backupEntryLba (t : Table) (d : Disk) : Nat :=
  (d.blockCount + u64Size - 1 - t.sectors d.blockSize) % u64Size

/-- The writes and flushes of `install_write_gpt`, of a table with the partitions filled in. -/
def Table.steps (t : Table) (d : Disk) (fresh : Bool) : List Step :=
  let sectors := t.sectors d.blockSize
  (if fresh then [.write 0 1 (protectiveMbr d.blockCount)] else []) ++
    [.write t.entryLba sectors t.entries,
      .write 1 1 (buildHeader t 1 (d.blockCount - 1) t.entryLba t.entriesCrc),
      .flush,
      .write (t.backupEntryLba d) sectors t.entries,
      .write (d.blockCount - 1) 1
        (buildHeader t (d.blockCount - 1) 1 (t.backupEntryLba d) t.entriesCrc),
      .flush]

/-- `install_write_gpt`, up to the first write: the table it would write. -/
def newTable (heap : WriteHeap) (g : Guids) (d : Disk) (plan : Plan) : Except Verdict Table :=
  match loadTable heap g d plan.freshTable with
  | .error v => .error v
  | .ok (t, g) =>
    if heap.sector = false then .error .io
    else
      match fillParts d t.entryCount t.entrySize t.entries g plan.parts with
      | .error v => .error v
      | .ok entries => .ok { t with entries := entries }

/-! ## The device -/

/-- How the device answers a request; of a write that failed, it may have stored anything. -/
inductive Answer where
  | done
  | failed (left : Nat → Bytes)

def Disk.write (d : Disk) (lba count : Nat) (data : Bytes) : Disk :=
  { d with
    block := fun b =>
      if lba ≤ b ∧ b < lba + count then fun i => data ((b - lba) * d.blockSize + i) else d.block b }

/-- What a failed write leaves. -/
def Disk.leave (d : Disk) (lba count : Nat) (left : Nat → Bytes) : Disk :=
  { d with block := fun b => if lba ≤ b ∧ b < lba + count then left b else d.block b }

/-- The requests in order, the device answering the `k`-th, until one fails. -/
def perform (ask : Nat → Answer) : (k : Nat) → Disk → List Step → Verdict × Disk
  | _, d, [] => (.ok, d)
  | k, d, .write lba count data :: rest =>
    if ¬d.InRange lba count then (.io, d)
    else
      match ask k with
      | .done => perform ask (k + 1) (d.write lba count data) rest
      | .failed left => (.io, d.leave lba count left)
  | k, d, .flush :: rest =>
    match ask k with
    | .done => perform ask (k + 1) d rest
    | .failed _ => (.io, d)

/-- `install_write_gpt`. `claim` says whether `block_claim_raw` grants the disk. -/
def installWriteGpt (claim : Bool) (heap : WriteHeap) (g : Guids) (ask : Nat → Answer) (d : Disk)
    (plan : Plan) : Verdict × Disk :=
  if plan.verdict ≠ .ok then (plan.verdict, d)
  else if claim = false then (.io, d)
  else
    match newTable heap g d plan with
    | .error v => (v, d)
    | .ok t => perform ask 0 d (t.steps d plan.freshTable)

end ReconOS.Gpt
