import ReconOS.Gpt.Scan
import ReconOS.Lib.Prog

/-! A FAT32 volume: what is read of it to mount it, its sectors, and its allocation tables. -/
namespace ReconOS.Fat32
open Gpt

def clusterFree : Nat := 0
def clusterEoc : Nat := 0x0FFFFFF8
/-- The top four bits of an entry are no part of its number. -/
def clusterNumbers : Nat := 0x10000000
def clusterFirst : Nat := 2
def fat16MaxClusters : Nat := 65524

inductive Status where
  | io
  | notFat
  | wrongType
  | fatsDiffer
  | notFound
  | name
  | tooLarge
  | corrupt
  | nomem
  | unsupported
  | tooSmall
  deriving DecidableEq

/-- Why there is no value: an error, or a loop that has not ended yet. -/
inductive Stop where
  | failed (s : Status)
  | hung
  deriving DecidableEq

/-- The device and the heap: what stands in memory behind a block, and each request in turn, whether
it is met. -/
structure Machine where
  blockSize : Nat
  blockCount : Nat
  beyond : Bytes
  heap : Nat → Bool
  moves : Nat → Bool
  sizeFits : blockSize < u32Size
  countFits : blockCount < u64Size

/-- What the blocks hold, the reads that were asked for, and how many requests there were. -/
structure World where
  block : Nat → Bytes
  reads : List (Nat × Nat)
  moved : Nat
  asked : Nat

abbrev Op := Prog World Stop

def fail {α : Type} (s : Status) : Op α := Prog.fail (.failed s)

def hang {α : Type} : Op α := Prog.fail .hung

namespace Machine

variable (m : Machine)

/-- `check_range`. -/
def InRange (lba count : Nat) : Prop :=
  count = 0 ∨ lba < m.blockCount ∧ count ≤ m.blockCount - lba

instance (lba count : Nat) : Decidable (m.InRange lba count) :=
  inferInstanceAs (Decidable (_ ∨ _ ∧ _))

def bytes (w : World) (lba : Nat) : Bytes :=
  fun i => w.block (lba + i / m.blockSize) (i % m.blockSize)

def kzalloc : Op Bool := fun w => (.ok (m.heap w.asked), { w with asked := w.asked + 1 })

def blockRead (lba count : Nat) : Op Bytes := fun w =>
  let w' := { w with reads := w.reads ++ [(lba, count)], moved := w.moved + 1 }
  if m.InRange lba count ∧ m.moves w.moved = true then (.ok (m.bytes w lba), w')
  else (.error (.failed .io), w')

end Machine

/-- `struct fat32`, but for the device. -/
structure Volume where
  bytesPerSector : Nat
  sectorsPerCluster : Nat
  bytesPerCluster : Nat
  fatStart : Nat
  fatSectors : Nat
  fatCount : Nat
  dataStart : Nat
  dataClusters : Nat
  rootCluster : Nat
  devSectorSize : Nat
  deriving DecidableEq

variable (m : Machine) (v : Volume)

/-- How many blocks a sector is. -/
def Volume.per : Nat := v.bytesPerSector / v.devSectorSize

def readSectors (sector count : Nat) : Op Bytes :=
  m.blockRead (sector * v.bytesPerSector / v.devSectorSize) (count * v.per)

def Volume.clusterToSector (cluster : Nat) : Nat :=
  v.dataStart + (cluster - clusterFirst) * v.sectorsPerCluster

def Volume.ClusterOk (cluster : Nat) : Prop :=
  clusterFirst ≤ cluster ∧ cluster < v.dataClusters + clusterFirst

instance (cluster : Nat) : Decidable (v.ClusterOk cluster) := inferInstanceAs (Decidable (_ ∧ _))

/-- `fat_sector`: both tables, which have to agree. -/
def fatSector (index : Nat) : Op Bytes := do
  let primary ← readSectors m v (v.fatStart + index) 1
  if v.fatCount < 2 then pure primary
  else
    let shadow ← readSectors m v (v.fatStart + v.fatSectors + index) 1
    if ∀ i < v.bytesPerSector, primary i = shadow i then pure primary else fail .fatsDiffer

/-- How many entries a sector of the table has. -/
def Volume.perSector : Nat := v.bytesPerSector / 4

def nextCluster (cluster : Nat) : Op Nat :=
  if ¬v.ClusterOk cluster then fail .corrupt
  else if v.fatSectors ≤ cluster / v.perSector then fail .corrupt
  else do
    let a ← m.kzalloc
    let b ← m.kzalloc
    if (a && b) = true then
      let table ← fatSector m v (cluster / v.perSector)
      pure (table.le32 (cluster % v.perSector * 4) % clusterNumbers)
    else fail .nomem

/-! ## Mounting -/

/-- What the boot sector has of the geometry. -/
structure Boot where
  signature : Nat
  bytesPerSector : Nat
  sectorsPerCluster : Nat
  fatCount : Nat
  fatStart : Nat
  rootEntries : Nat
  fatSz : Nat
  totSec : Nat
  rootCluster : Nat
  deriving DecidableEq

/-- The fields of a boot sector, the newer ones where the older are zero. -/
def Boot.of (sector : Bytes) : Boot :=
  let fatSz16 := sector.le16 22
  let tot16 := sector.le16 19
  { signature := sector.le16 510
    bytesPerSector := sector.le16 11
    sectorsPerCluster := (sector 13).toNat
    fatCount := (sector 16).toNat
    fatStart := sector.le16 14
    rootEntries := sector.le16 17
    fatSz := if fatSz16 ≠ 0 then fatSz16 else sector.le32 36
    totSec := if tot16 ≠ 0 then tot16 else sector.le32 32
    rootCluster := sector.le32 44 % clusterNumbers }

/-- One bit is set, or none. -/
def OneBit (n : Nat) : Prop := n &&& (n - 1) = 0

instance (n : Nat) : Decidable (OneBit n) := inferInstanceAs (Decidable (_ = _))

/-- What tells a volume from a sector that ends in the signature. -/
def Boot.Sane (b : Boot) : Prop :=
  512 ≤ b.bytesPerSector ∧ b.bytesPerSector ≤ 4096 ∧ OneBit b.bytesPerSector ∧
    b.sectorsPerCluster ≠ 0 ∧ OneBit b.sectorsPerCluster ∧
    b.fatCount ≠ 0 ∧ b.fatCount ≤ 2 ∧ b.fatStart ≠ 0 ∧ b.fatSz ≠ 0 ∧ b.totSec ≠ 0

instance (b : Boot) : Decidable b.Sane :=
  inferInstanceAs (Decidable (_ ∧ _ ∧ _ ∧ _ ∧ _ ∧ _ ∧ _ ∧ _ ∧ _ ∧ _))

def Boot.dataStart (b : Boot) : Nat :=
  b.fatStart + b.fatCount * b.fatSz +
    (b.rootEntries * 32 + (b.bytesPerSector - 1)) / b.bytesPerSector

/-- The volume a boot sector is of. -/
def Boot.volume (b : Boot) (devSectorSize : Nat) : Volume where
  bytesPerSector := b.bytesPerSector
  sectorsPerCluster := b.sectorsPerCluster
  bytesPerCluster := b.bytesPerSector * b.sectorsPerCluster
  fatStart := b.fatStart
  fatSectors := b.fatSz
  fatCount := b.fatCount
  dataStart := b.dataStart
  dataClusters := (b.totSec - b.dataStart) / b.sectorsPerCluster
  rootCluster := b.rootCluster
  devSectorSize := devSectorSize

/-- What is found wrong with a boot sector, the first of it. -/
def Boot.fault (b : Boot) (blockSize blockCount : Nat) : Option Status :=
  if b.signature ≠ 0xAA55 then some .notFat
  else if ¬b.Sane then some .notFat
  else if b.bytesPerSector < blockSize ∨ b.bytesPerSector % blockSize ≠ 0 then some .unsupported
  else if b.totSec ≤ b.dataStart then some .notFat
  -- The device knows how long it is.
  else if blockCount * blockSize % u64Size < b.totSec * b.bytesPerSector then some .notFat
  else
    let v := b.volume blockSize
    -- The count of clusters is the type; there is a string that says it, and is not read.
    if v.dataClusters ≤ fat16MaxClusters then some .wrongType
    else if ¬v.ClusterOk v.rootCluster then some .notFat
    else none

/-- A block in a buffer of its own size. -/
def Machine.sector (data : Bytes) : Bytes :=
  fun i => if i < m.blockSize then data i else m.beyond i

def mountBoot (boot : Boot) : Op Volume :=
  match boot.fault m.blockSize m.blockCount with
  | some s => fail s
  | none => pure (boot.volume m.blockSize)

/-- `fat32_mount`. -/
def mount : Op Volume := do
  let room ← m.kzalloc
  if room = true then
    let data ← m.blockRead 0 1
    mountBoot m (Boot.of (m.sector data))
  else fail .nomem

/-! ## What a mounted volume is -/

/-- What the checks leave of a geometry. -/
structure Volume.Geometry : Prop where
  sectorLarge : 512 ≤ v.bytesPerSector
  sectorSmall : v.bytesPerSector ≤ 4096
  sectorBit : OneBit v.bytesPerSector
  clusterSome : 0 < v.sectorsPerCluster
  clusterBytes : v.bytesPerCluster = v.bytesPerSector * v.sectorsPerCluster
  copies : 0 < v.fatCount ∧ v.fatCount ≤ 2
  blocks : v.bytesPerSector % v.devSectorSize = 0
  startSome : 0 < v.fatStart
  sectorsSome : 0 < v.fatSectors
  tablesFirst : v.fatStart + v.fatCount * v.fatSectors ≤ v.dataStart
  dataFits : v.dataStart + v.dataClusters * v.sectorsPerCluster < u32Size
  clustersMany : fat16MaxClusters < v.dataClusters
  rootOk : v.ClusterOk v.rootCluster

variable {m v}

theorem le16_lt (p : Bytes) (o : Nat) : p.le16 o < 0x10000 := by
  have := (p o).toNat_lt
  have := (p (o + 1)).toNat_lt
  unfold Bytes.le16
  omega

theorem le32_lt (p : Bytes) (o : Nat) : p.le32 o < u32Size := by
  have := le16_lt p o
  have := le16_lt p (o + 2)
  unfold Bytes.le32 u32Size
  omega

theorem Boot.totSec_lt (sector : Bytes) : (Boot.of sector).totSec < u32Size := by
  have long := le32_lt sector 32
  have short := le16_lt sector 19
  unfold Boot.of
  dsimp only
  split
  · unfold u32Size
    omega
  · exact long

theorem guard_none {c : Prop} [Decidable c] {s : Status} {rest : Option Status} :
    (if c then some s else rest) = none ↔ ¬c ∧ rest = none := by
  by_cases is : c
  · simp [is]
  · simp [is]

/-- A boot sector with nothing wrong is of a volume whose parts follow one another. -/
theorem Boot.geometry {b : Boot} {blockSize blockCount : Nat} (small : b.totSec < u32Size)
    (fine : b.fault blockSize blockCount = none) : (b.volume blockSize).Geometry := by
  simp only [Boot.fault, guard_none, not_not] at fine
  obtain ⟨_, sane, blocks, first, _, many, root, _⟩ := fine
  obtain ⟨large, small', bit, some, _, copies, two, start, table, _⟩ := sane
  have cut : (b.totSec - b.dataStart) / b.sectorsPerCluster * b.sectorsPerCluster ≤
      b.totSec - b.dataStart := Nat.div_mul_le_self _ _
  constructor
  case sectorLarge => exact large
  case sectorSmall => exact small'
  case sectorBit => exact bit
  case clusterSome => exact Nat.pos_of_ne_zero some
  case clusterBytes => rfl
  case copies => exact ⟨Nat.pos_of_ne_zero copies, two⟩
  case blocks => exact Classical.byContradiction fun not => blocks (.inr not)
  case startSome => exact Nat.pos_of_ne_zero start
  case sectorsSome => exact Nat.pos_of_ne_zero table
  case tablesFirst => exact Nat.le_add_right _ _
  case dataFits =>
    change b.dataStart + (b.totSec - b.dataStart) / b.sectorsPerCluster * b.sectorsPerCluster < _
    omega
  case clustersMany => exact Nat.lt_of_not_le many
  case rootOk => exact root

/-- A volume that is mounted is a boot sector's, with nothing wrong in it. -/
theorem mount_ok {w w' : World} (is : mount m w = (.ok v, w')) :
    ∃ boot : Boot, boot.totSec < u32Size ∧ boot.fault m.blockSize m.blockCount = none ∧
      v = boot.volume m.blockSize := by
  unfold mount at is
  obtain ⟨room, w₁, _, is⟩ := Prog.bind_eq_ok.mp is
  split at is
  case isFalse => cases is
  case isTrue =>
    obtain ⟨data, w₂, _, is⟩ := Prog.bind_eq_ok.mp is
    unfold mountBoot at is
    cases fault : (Boot.of (m.sector data)).fault m.blockSize m.blockCount with
    | some s =>
      rw [fault] at is
      cases is
    | none =>
      rw [fault] at is
      cases is
      exact ⟨_, Boot.totSec_lt _, fault, rfl⟩

theorem mount_geometry {w w' : World} (is : mount m w = (.ok v, w')) : v.Geometry := by
  obtain ⟨boot, small, fine, rfl⟩ := mount_ok is
  exact Boot.geometry small fine

end ReconOS.Fat32
