import Mathlib.Data.Nat.Bitwise

/-! Bytes in memory, the numbers in them, and their checksum. -/
namespace ReconOS.Gpt

def u32Size : Nat := 0x100000000
def u64Size : Nat := 0x10000000000000000

/-- Bytes from an address on. -/
abbrev Bytes := Nat → UInt8

namespace Bytes

def zeros : Bytes := fun _ => 0

variable (p : Bytes)

def le16 (o : Nat) : Nat := (p o).toNat + 0x100 * (p (o + 1)).toNat

def le32 (o : Nat) : Nat := p.le16 o + 0x10000 * p.le16 (o + 2)

def le64 (o : Nat) : Nat := p.le32 o + u32Size * p.le32 (o + 4)

def slice (o n : Nat) : List UInt8 := (List.range n).map fun i => p (o + i)

/-- `kmemcpy` of a list of bytes to offset `o`. -/
def copy (o : Nat) (l : List UInt8) : Bytes :=
  fun i => if o ≤ i then (l[i - o]?).getD (p i) else p i

/-- `kmemset` with zero. -/
def clear (o n : Nat) : Bytes := fun i => if o ≤ i ∧ i < o + n then 0 else p i

/-- The `n` low bytes of a number, the lowest first. -/
def ofNumber : Nat → Nat → List UInt8
  | 0, _ => []
  | n + 1, v => UInt8.ofNat v :: ofNumber n (v / 0x100)

def put32 (o v : Nat) : Bytes := p.copy o (ofNumber 4 v)

def put64 (o v : Nat) : Bytes := p.copy o (ofNumber 8 v)

def allZero (o n : Nat) : Bool := (p.slice o n).all (· == 0)

end Bytes

/-! ## The checksum -/

def poly : Nat := 0xEDB88320

def crcBit (running : Nat) : Nat :=
  if running % 2 = 1 then (running / 2) ^^^ poly else running / 2

def crcByte (running : Nat) (b : UInt8) : Nat :=
  crcBit (crcBit (crcBit (crcBit (crcBit (crcBit (crcBit (crcBit (running ^^^ b.toNat))))))))

def crc32Update (running : Nat) (data : List UInt8) : Nat := data.foldl crcByte running

def crc32Init : Nat := 0xFFFFFFFF

def crc32Final (running : Nat) : Nat := running ^^^ 0xFFFFFFFF

def crc32 (data : List UInt8) : Nat := crc32Final (crc32Update crc32Init data)

example : crc32 ("123456789".toUTF8.toList) = 0xCBF43926 := by decide +kernel

/-! Reading what is on a disk: the partition tables, and the slices registered from them. -/

def pageSize : Nat := 4096
def blockMaxSlices : Nat := 16
def mbrTableOffset : Nat := 446
def mbrEntrySize : Nat := 16
def mbrSignatureOffset : Nat := 510
def mbrTypeEmpty : Nat := 0
def mbrTypeProtective : Nat := 0xEE
def gptSignature0 : Nat := 0x20494645
def gptSignature1 : Nat := 0x54524150
def gptMaxEntries : Nat := 512
def gptMaxEntrySize : Nat := 512

/-- What is behind a block device: its blocks, byte by byte, and those that cannot be read. Its
length in bytes is a 64-bit number. -/
structure Disk where
  present : Bool
  blockSize : Nat
  blockCount : Nat
  block : Nat → Bytes
  bad : Nat → Bool
  sizePos : 0 < blockSize
  bytesFit : blockCount * blockSize < u64Size

namespace Disk

variable (d : Disk)

theorem count_lt : d.blockCount < u64Size :=
  Nat.lt_of_le_of_lt (Nat.le_mul_of_pos_right _ d.sizePos) d.bytesFit

/-- `check_range`. -/
def InRange (lba count : Nat) : Prop :=
  d.present = true ∧ (count = 0 ∨ lba < d.blockCount ∧ count ≤ d.blockCount - lba)

instance (lba count : Nat) : Decidable (d.InRange lba count) :=
  inferInstanceAs (Decidable (_ ∧ (_ ∨ _ ∧ _)))

/-- `block_read` gives `BLOCK_OK`. -/
def CanRead (lba count : Nat) : Prop := d.InRange lba count ∧ ∀ i < count, d.bad (lba + i) = false

instance (lba count : Nat) : Decidable (d.CanRead lba count) :=
  inferInstanceAs (Decidable (_ ∧ ∀ i < count, _))

/-- What `block_read` leaves in memory, from a block on. -/
def bytes (lba : Nat) : Bytes := fun i => d.block (lba + i / d.blockSize) (i % d.blockSize)

/-- What reading one block leaves in a page that held `junk`. -/
def sector (junk : Bytes) (lba : Nat) : Bytes :=
  fun i => if i < d.blockSize then d.block lba i else junk i

def last : Nat := d.blockCount - 1

end Disk

inductive Scheme where
  | none
  | gpt
  | mbr
  | unreadable
  deriving DecidableEq, Repr

/-- A partition registered: `slice_index`, `first_lba`, `block_count` and `scheme`. -/
structure Slice where
  index : Nat
  first : Nat
  count : Nat
  scheme : Scheme
  deriving DecidableEq, Repr

/-- A block device, with the slices registered under it and the room left for more devices. -/
structure Device where
  disk : Disk
  parent : Bool
  scheme : Scheme
  slices : List Slice
  room : Nat

/-- A page from `pmm_alloc_page`, with what it holds, and whether `pmm_alloc_pages` gives so many. -/
structure Memory where
  page : Option Bytes
  pages : Nat → Bool

/-- `block_register_slice`. -/
def Device.registerSlice (dev : Device) (index first count : Nat) (scheme : Scheme) :
    Option Device :=
  if count = 0 then none
  else if blockMaxSlices ≤ dev.slices.length then none
  else if dev.disk.blockCount ≤ first ∨ dev.disk.blockCount - first < count then none
  else if dev.room = 0 then none
  else some { dev with
    slices := dev.slices ++ [⟨index, first, count, scheme⟩]
    room := dev.room - 1 }

/-! ## MBR -/

def isExtended (type : Nat) : Bool := type = 0x05 ∨ type = 0x0F ∨ type = 0x85

/-- An entry of the table in a boot record: its type, start and count. -/
def mbrEntry (block : Bytes) (i : Nat) : Nat × Nat × Nat :=
  let e := mbrTableOffset + i * mbrEntrySize
  ((block (e + 4)).toNat, block.le32 (e + 8), block.le32 (e + 12))

/-- `walk_extended`, with `guard` links left to follow. -/
def walkExtended (junk : Bytes) (containerLba containerCount : Nat) :
    (guard : Nat) → (link index : Nat) → Device → Device
  | 0, _, _, dev => dev
  | guard + 1, link, index, dev =>
    if link < containerLba ∨ containerCount ≤ link - containerLba then dev
    else if ¬dev.disk.CanRead link 1 then dev
    else
      let block := dev.disk.sector junk link
      if block.le16 mbrSignatureOffset ≠ 0xAA55 then dev
      else
        let (type, start, count) := mbrEntry block 0
        let (nextType, nextStart, _) := mbrEntry block 1
        let next := containerLba + nextStart
        let onward (index : Nat) (dev : Device) :=
          if ¬isExtended nextType then dev
          else if next ≤ link then dev
          else walkExtended junk containerLba containerCount guard next index dev
        if type ≠ mbrTypeEmpty ∧ count ≠ 0 then
          match dev.registerSlice index (link + start) count .mbr with
          | none => dev
          | some dev => onward ((index + 1) % 0x100) dev
        else onward index dev

/-- The primaries, in table order. -/
def registerPrimaries (block : Bytes) (dev : Device) : List Nat → Device
  | [] => dev
  | i :: rest =>
    let (type, start, count) := mbrEntry block i
    if type = mbrTypeEmpty ∨ count = 0 then registerPrimaries block dev rest
    else if isExtended type then registerPrimaries block dev rest
    else registerPrimaries block ((dev.registerSlice (i + 1) start count .mbr).getD dev) rest

/-- `read_mbr`; nothing, where it returns false. -/
def readMbr (junk : Bytes) (dev : Device) : Option Device :=
  if ¬dev.disk.CanRead 0 1 then none
  else
    let block := dev.disk.sector junk 0
    if block.le16 mbrSignatureOffset ≠ 0xAA55 then none
    else
      let primaries := registerPrimaries block dev (List.range 4)
      match (List.range 4).find? fun i => isExtended (mbrEntry block i).1 with
      | none => some primaries
      | some i =>
        let (_, start, count) := mbrEntry block i
        some (walkExtended junk start count (blockMaxSlices + 8) start 5 primaries)

def hasProtectiveEntry (block : Bytes) : Bool :=
  (List.range 4).any fun i => (mbrEntry block i).1 = mbrTypeProtective

/-! ## GPT -/

/-- Where a header says that the entries are. -/
structure Header where
  entriesLba : Nat
  count : Nat
  stride : Nat
  entriesCrc : Nat
  deriving DecidableEq, Repr

def Header.of (hdr : Bytes) : Header := ⟨hdr.le64 72, hdr.le32 80, hdr.le32 84, hdr.le32 88⟩

/-- The checksum of a header of `size` bytes, its own checksum read as zero. -/
def headerCrc (hdr : Bytes) (size : Nat) : Nat :=
  crc32Final (crc32Update (crc32Update (crc32Update crc32Init (hdr.slice 0 16)) [0, 0, 0, 0])
    (hdr.slice 20 (size - 20)))

def headerOk (hdr : Bytes) (blockSize at' : Nat) : Option Header :=
  if hdr.le32 0 ≠ gptSignature0 ∨ hdr.le32 4 ≠ gptSignature1 then none
  else if hdr.le32 12 < 92 ∨ blockSize < hdr.le32 12 then none
  else if hdr.le64 24 ≠ at' then none
  else if headerCrc hdr (hdr.le32 12) ≠ hdr.le32 16 then none
  else
    let h := Header.of hdr
    if h.stride < 128 ∨ gptMaxEntrySize < h.stride then none
    else if h.count = 0 ∨ gptMaxEntries < h.count then none
    else some h

/-- The header that `read_gpt` goes by, and the block it is in. -/
def readHeader (junk : Bytes) (d : Disk) : Option (Nat × Header) :=
  let primary := if d.CanRead 1 1 then headerOk (d.sector junk 1) d.blockSize 1 else none
  match primary with
  | some h => some (1, h)
  | none =>
    if d.blockCount ≠ 0 ∧ d.CanRead d.last 1 then
      (headerOk (d.sector junk d.last) d.blockSize d.last).map fun h => (d.last, h)
    else none

namespace Header

variable (h : Header)

def entryBytes : Nat := h.count * h.stride

def entryBlocks (blockSize : Nat) : Nat := (h.entryBytes + blockSize - 1) / blockSize

end Header

/-- An entry of a table: whether it is used, and the blocks it names, both ends in. -/
structure Entry where
  used : Bool
  first : Nat
  last : Nat
  deriving DecidableEq, Repr

def entryAt (entries : Bytes) (stride i : Nat) : Entry :=
  let e := i * stride
  ⟨!entries.allZero e 16, entries.le64 (e + 32), entries.le64 (e + 40)⟩

/-- The loop of `read_gpt` over the entries. -/
def registerEntries (entries : Bytes) (stride : Nat) (dev : Device) : List Nat → Device
  | [] => dev
  | i :: rest =>
    let e := entryAt entries stride i
    if ¬e.used then registerEntries entries stride dev rest
    else if e.last < e.first then registerEntries entries stride dev rest
    else
      match dev.registerSlice ((i + 1) % 0x100) e.first ((e.last - e.first + 1) % u64Size) .gpt with
      | none => dev
      | some dev => registerEntries entries stride dev rest

/-- The entries of a header can be read, and are the ones it was written with. -/
def EntriesOk (mem : Memory) (d : Disk) (h : Header) : Prop :=
  (h.entriesLba < d.blockCount ∧ h.entryBlocks d.blockSize ≤ d.blockCount - h.entriesLba) ∧
  mem.pages ((h.entryBytes + pageSize - 1) / pageSize) = true ∧
  d.CanRead h.entriesLba (h.entryBlocks d.blockSize) ∧
  crc32 ((d.bytes h.entriesLba).slice 0 h.entryBytes) = h.entriesCrc

instance (mem : Memory) (d : Disk) (h : Header) : Decidable (EntriesOk mem d h) :=
  inferInstanceAs (Decidable ((_ ∧ _) ∧ _ ∧ _ ∧ _))

/-- `read_gpt`; nothing, where it returns false. -/
def readGpt (mem : Memory) (junk : Bytes) (dev : Device) : Option Device :=
  match readHeader junk dev.disk with
  | none => none
  | some (_, h) =>
    if ¬EntriesOk mem dev.disk h then none
    else some (registerEntries (dev.disk.bytes h.entriesLba) h.stride dev (List.range h.count))

/-! ## The scan -/

/-- `partition_scan`. -/
def partitionScan (mem : Memory) (dev : Device) : Device :=
  if ¬dev.disk.present ∨ dev.parent then dev
  else
    let dev := { dev with scheme := .none }
    if pageSize < dev.disk.blockSize ∨ dev.disk.blockCount < 2 then dev
    else
      match mem.page with
      | none => dev
      | some junk =>
        if ¬dev.disk.CanRead 0 1 then dev
        else
          let block := dev.disk.sector junk 0
          if block.le16 mbrSignatureOffset ≠ 0xAA55 then dev
          else if hasProtectiveEntry block then
            match readGpt mem junk dev with
            | some dev => { dev with scheme := .gpt }
            | none => { dev with scheme := .unreadable }
          else
            match readGpt mem junk dev with
            | some dev => { dev with scheme := .gpt }
            | none =>
              match readMbr junk dev with
              | some dev => { dev with scheme := if dev.slices ≠ [] then .mbr else .none }
              | none => dev

end ReconOS.Gpt
