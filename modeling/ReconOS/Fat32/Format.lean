import ReconOS.Fat32.Directory

/-! Laying a volume down: how large its clusters and tables are, what is written where, and the
count of what is free. -/
namespace ReconOS.Fat32

open Gpt Lib Prog

def reservedSectors : Nat := 32
def backupBootSector : Nat := 6
def fsinfoSector : Nat := 1
def zeroChunkBytes : Nat := 0x40000

/-! ## Sizes -/

def clustersFor (sectors : Nat) : Nat :=
  if sectors ≤ 532480 then 1
  else if sectors ≤ 16777216 then 8
  else if sectors ≤ 33554432 then 16
  else if sectors ≤ 67108864 then 32
  else 64

/-- What the reserved sectors leave, as a 64-bit number. -/
def usable (total : Nat) : Nat := (total + (u64Size - reservedSectors)) % u64Size

/-- How many sectors of the volume a sector of the table is for, and the two tables' own. -/
def denom (perCluster bytesPerSector : Nat) : Nat := bytesPerSector / 4 * perCluster + 2

def fatSizeFor (total perCluster bytesPerSector : Nat) : Nat :=
  (usable total + denom perCluster bytesPerSector - 1) % u64Size /
    denom perCluster bytesPerSector % u32Size

structure Layout where
  spc : Nat
  fatSectors : Nat
  clusters : Nat
  deriving DecidableEq

def layoutOf (total bps spc : Nat) : Layout where
  spc := spc
  fatSectors := fatSizeFor total spc bps
  clusters :=
    (usable total + (u64Size - fatSizeFor total spc bps * 2)) % u64Size / spc

/-- Smaller and smaller clusters, until there are enough; so many tries are enough. -/
def layout (total bps : Nat) : (tries : Nat) → (spc : Nat) → Option Layout
  | 0, _ => none
  | tries + 1, spc =>
    let l := layoutOf total bps spc
    if fat16MaxClusters < l.clusters then some l
    else if 64 ≤ spc then none
    else if spc = 1 then none
    else layout total bps tries (spc / 2)

/-! ## What is written -/

variable (m : Machine)

def blockWrite (lba count : Nat) (buf : Bytes) : Op Unit := fun w =>
  let w' := { w with moved := w.moved + 1 }
  if m.InRange lba count ∧ m.moves w.moved = true then
    (.ok (), { w' with
      block := fun l => if lba ≤ l ∧ l < lba + count then
        fun i => buf ((l - lba) * m.blockSize + i) else w.block l })
  else (.error (.failed .io), w')

def blockFlush : Op Unit := fun w =>
  let w' := { w with moved := w.moved + 1 }
  if m.moves w.moved = true then (.ok (), w') else (.error (.failed .io), w')

def put16 (p : Bytes) (o v : Nat) : Bytes := p.copy o (Bytes.ofNumber 2 v)

/-- The label's characters, blanks where it has none. -/
def labelBytes (label : Option Bytes) : List UInt8 :=
  (List.range 11).map fun i =>
    match label with
    | some l => if l i ≠ 0 then l i else 0x20
    | none => 0x20

def bootSector (total bps : Nat) (l : Layout) (label : Option Bytes) : Bytes :=
  let buf := Bytes.zeros.copy 0 [0xEB, 0x58, 0x90]
  let buf := buf.copy 3 [0x52, 0x45, 0x43, 0x4F, 0x4E, 0x4F, 0x53, 0x20]
  let buf := put16 buf 11 bps
  let buf := buf.copy 13 [UInt8.ofNat l.spc]
  let buf := put16 buf 14 reservedSectors
  let buf := buf.copy 16 [2]
  let buf := put16 buf 17 0
  let buf := put16 buf 19 0
  let buf := buf.copy 21 [0xF8]
  let buf := put16 buf 22 0
  let buf := put16 buf 24 63
  let buf := put16 buf 26 255
  let buf := buf.put32 28 0
  let buf := buf.put32 32 (if 0xFFFFFFFF < total then 0xFFFFFFFF else total)
  let buf := buf.put32 36 l.fatSectors
  let buf := put16 buf 40 0
  let buf := put16 buf 42 0
  let buf := buf.put32 44 clusterFirst
  let buf := put16 buf 48 fsinfoSector
  let buf := put16 buf 50 backupBootSector
  let buf := buf.copy 64 [0x80]
  let buf := buf.copy 66 [0x29]
  let buf := buf.put32 67 0x5245434F
  let buf := buf.copy 71 (labelBytes label)
  let buf := buf.copy 82 [0x46, 0x41, 0x54, 0x33, 0x32, 0x20, 0x20, 0x20]
  buf.copy 510 [0x55, 0xAA]

def fsInfo : Bytes :=
  let buf := Bytes.zeros.put32 0 0x41615252
  let buf := buf.put32 484 0x61417272
  let buf := buf.put32 488 0xFFFFFFFF
  let buf := buf.put32 492 0xFFFFFFFF
  buf.put32 508 0xAA550000

/-- The first sector of a table: the media entry, the mark, and the root, which ends at once. -/
def tableHead : Bytes :=
  let buf := Bytes.zeros.put32 0 0x0FFFFFF8
  let buf := buf.put32 4 0xFFFFFFFF
  buf.put32 8 0x0FFFFFFF

/-- A buffer written over and over from `s` on, so many blocks of it at a time. -/
def writeFill (data : Bytes) (chunk lba stop : Nat) : (fuel : Nat) → (s : Nat) → Op Unit
  | 0, _ => hang
  | fuel + 1, s =>
    if stop ≤ s then pure ()
    else do
      blockWrite m (lba + s) (min (stop - s) chunk) data
      writeFill data chunk lba stop fuel (s + min (stop - s) chunk)

/-- How many blocks are cleared at a time: those of the chunk, where there is one. -/
def zeroSectors (zeros : Bool) : Nat := if zeros = true then zeroChunkBytes / m.blockSize else 1

def writeTable (fuel : Nat) (zeros : Bool) (fatSectors i : Nat) : Op Unit := do
  blockWrite m (reservedSectors + i * fatSectors) 1 tableHead
  -- With no chunk the buffer is written that still has the first sector in it.
  writeFill m (if zeros = true then Bytes.zeros else tableHead) (zeroSectors m zeros)
    (reservedSectors + i * fatSectors) fatSectors fuel 1

def writeVolume (fuel : Nat) (zeros : Bool) (l : Layout) (label : Option Bytes) : Op Unit := do
  blockWrite m 0 1 (bootSector m.blockCount m.blockSize l label)
  blockWrite m backupBootSector 1 (bootSector m.blockCount m.blockSize l label)
  blockWrite m fsinfoSector 1 fsInfo
  blockWrite m (backupBootSector + fsinfoSector) 1 fsInfo
  writeTable m fuel zeros l.fatSectors 0
  writeTable m fuel zeros l.fatSectors 1
  writeFill m Bytes.zeros (zeroSectors m zeros) (reservedSectors + l.fatSectors * 2) l.spc fuel 0
  blockFlush m

/-- `fat32_format`. -/
def format (fuel : Nat) (label : Option Bytes) : Op Unit :=
  if m.blockSize < 512 ∨ ¬OneBit m.blockSize then fail .unsupported
  else
    match layout m.blockCount m.blockSize 7 (clustersFor m.blockCount) with
    | none => fail .tooSmall
    | some l =>
      if 0x0FFFFFF6 < l.clusters + clusterFirst then fail .tooLarge
      else do
        let room ← m.kzalloc
        if room = true then
          let zeros ← m.kzalloc
          writeVolume m fuel zeros l label
        else fail .nomem

/-! ## What is free -/

/-- One of a table sector's entries that are clusters, and free. -/
def FreeAt (v : Volume) (table : Bytes) (first i : Nat) : Prop :=
  clusterFirst ≤ first + i ∧ first + i < v.dataClusters + clusterFirst ∧
    table.le32 (i * 4) % clusterNumbers = clusterFree

instance (v : Volume) (table : Bytes) (first i : Nat) : Decidable (FreeAt v table first i) :=
  inferInstanceAs (Decidable (_ ∧ _ ∧ _))

/-- The sectors of the table, until they are all counted or past the last cluster. -/
def countFree (v : Volume) : (left : Nat) → (sector free : Nat) → Op Nat
  | 0, _, free => pure free
  | left + 1, sector, free =>
    let first := sector * v.perSector
    if v.dataClusters + clusterFirst ≤ first then pure free
    else do
      let table ← fatSector m v sector
      countFree v left (sector + 1)
        (free + (List.range v.perSector).countP fun i => FreeAt v table first i)

/-- `fat32_free_clusters`. -/
def freeClusters (v : Volume) : Op Nat := do
  let a ← m.kzalloc
  let b ← m.kzalloc
  if (a && b) = true then countFree m v v.fatSectors 0 0 else fail .nomem

end ReconOS.Fat32

/-! The sizes a volume is laid down with: they add up, and the table is as long as its own rule has
it. -/
namespace ReconOS.Fat32

open Gpt

variable {total bps : Nat} {l : Layout}

/-- What is true of the layout of a volume that can be made. -/
structure Sizes (total bps : Nat) (l : Layout) : Prop where
  spc : l.spc = clustersFor total
  fat : l.fatSectors = fatSizeFor total (clustersFor total) bps
  parts : reservedSectors + l.fatSectors * 2 + l.clusters * l.spc ≤ total
  last : total < reservedSectors + l.fatSectors * 2 + (l.clusters + 1) * l.spc
  many : fat16MaxClusters < l.clusters
  few : l.clusters < 0x10000000
  ceil : total - reservedSectors ≤ l.fatSectors * denom l.spc bps
  least : l.fatSectors * denom l.spc bps < total - reservedSectors + denom l.spc bps

theorem clustersFor_cases (total : Nat) :
    total ≤ 532480 ∧ clustersFor total = 1 ∨
      532480 < total ∧ total ≤ 16777216 ∧ clustersFor total = 8 ∨
      16777216 < total ∧ total ≤ 33554432 ∧ clustersFor total = 16 ∨
      33554432 < total ∧ total ≤ 67108864 ∧ clustersFor total = 32 ∨
      67108864 < total ∧ clustersFor total = 64 := by
  unfold clustersFor
  repeat' split
  all_goals omega

theorem clustersFor_range (total : Nat) : 0 < clustersFor total ∧ clustersFor total ≤ 64 := by
  have := clustersFor_cases total
  omega

theorem usable_eq (large : reservedSectors ≤ total) (fits : total < u64Size) :
    usable total = total - reservedSectors := by
  unfold usable reservedSectors u64Size at *
  omega

theorem denom_le (bpsFits : bps < u32Size) : denom (clustersFor total) bps ≤ 0x1000000002 := by
  have := (clustersFor_range total).2
  have := Nat.mul_le_mul (Nat.div_le_div_right bpsFits.le : bps / 4 ≤ u32Size / 4) this
  unfold denom
  unfold u32Size at this
  omega

theorem denom_ge (bpsLarge : 512 ≤ bps) (spc : Nat) : 128 * spc + 2 ≤ denom spc bps := by
  have := Nat.mul_le_mul_right spc (Nat.div_le_div_right bpsLarge : 512 / 4 ≤ bps / 4)
  unfold denom
  omega

/-- The table where nothing is too large for its numbers. -/
theorem fatSizeFor_eq (bpsFits : bps < u32Size) (small : usable total < 0x10000000000) :
    fatSizeFor total (clustersFor total) bps =
      (usable total + denom (clustersFor total) bps - 1) / denom (clustersFor total) bps %
        u32Size := by
  have := @denom_le total bps bpsFits
  unfold fatSizeFor
  rw [Nat.mod_eq_of_lt (a := usable total + _ - 1)]
  unfold u64Size
  omega

theorem fatSizeFor_le (bpsLarge : 512 ≤ bps) (bpsFits : bps < u32Size)
    (small : usable total < 0x10000000000) :
    fatSizeFor total (clustersFor total) bps ≤
      usable total / (128 * clustersFor total + 2) + 1 := by
  have pos : 0 < denom (clustersFor total) bps := by
    have := denom_ge bpsLarge (clustersFor total)
    omega
  rw [fatSizeFor_eq bpsFits small]
  calc (usable total + denom (clustersFor total) bps - 1) / denom (clustersFor total) bps % u32Size
      ≤ (usable total + denom (clustersFor total) bps - 1) / denom (clustersFor total) bps :=
        Nat.mod_le _ _
    _ ≤ (usable total + denom (clustersFor total) bps) / denom (clustersFor total) bps :=
        Nat.div_le_div_right (Nat.sub_le _ _)
    _ = usable total / denom (clustersFor total) bps + 1 := Nat.add_div_right _ pos
    _ ≤ usable total / (128 * clustersFor total + 2) + 1 :=
        Nat.succ_le_succ (Nat.div_le_div_left (denom_ge bpsLarge _) (Nat.succ_pos _))

theorem fatSizeFor_lt (total spc bps : Nat) : fatSizeFor total spc bps < u32Size :=
  Nat.mod_lt _ (by decide)

/-- A device of more than 260 MB has enough clusters at the first size tried. -/
theorem first_size_enough (bpsLarge : 512 ≤ bps) (bpsFits : bps < u32Size) (fits : total < u64Size)
    (large : 532480 < total) :
    fat16MaxClusters < (layoutOf total bps (clustersFor total)).clusters := by
  have usableIs := usable_eq (by unfold reservedSectors; omega) fits
  have fat := fatSizeFor_lt total (clustersFor total) bps
  have small := @fatSizeFor_le total bps bpsLarge bpsFits
  unfold layoutOf
  dsimp only
  generalize fatSizeFor total (clustersFor total) bps = fat at *
  unfold reservedSectors at usableIs
  unfold u64Size at *
  unfold u32Size at fat
  unfold fat16MaxClusters
  rcases clustersFor_cases total with ⟨_, is⟩ | ⟨_, _, is⟩ | ⟨_, _, is⟩ | ⟨_, _, is⟩ | ⟨_, is⟩
  all_goals rw [is] at small ⊢
  all_goals omega

/-- The clusters are never halved. -/
theorem layout_eq (bpsLarge : 512 ≤ bps) (bpsFits : bps < u32Size) (fits : total < u64Size)
    (is : layout total bps 7 (clustersFor total) = some l) :
    l = layoutOf total bps (clustersFor total) ∧ fat16MaxClusters < l.clusters := by
  unfold layout at is
  dsimp only at is
  split at is
  case isTrue many =>
    cases is
    exact ⟨rfl, many⟩
  case isFalse few =>
    have small : total ≤ 532480 := Nat.le_of_not_lt fun large =>
      few (first_size_enough bpsLarge bpsFits fits large)
    have one : clustersFor total = 1 := by
      unfold clustersFor
      rw [if_pos small]
    rw [one, if_neg (by decide), if_pos rfl] at is
    cases is

/-- With no more clusters than there are numbers for, nothing has gone round. -/
theorem usable_small (few : (layoutOf total bps (clustersFor total)).clusters + clusterFirst ≤
    0x0FFFFFF6) (fits : total < u64Size) :
    reservedSectors ≤ total ∧ usable total < 0x1000000000 ∧
      fatSizeFor total (clustersFor total) bps * 2 ≤ usable total := by
  have fat := fatSizeFor_lt total (clustersFor total) bps
  unfold layoutOf at few
  dsimp only at few
  generalize fatSizeFor total (clustersFor total) bps = fat at *
  unfold usable at *
  unfold reservedSectors clusterFirst u64Size u32Size at *
  rcases clustersFor_cases total with ⟨_, is⟩ | ⟨_, _, is⟩ | ⟨_, _, is⟩ | ⟨_, _, is⟩ | ⟨_, is⟩
  all_goals rw [is] at few
  all_goals omega

theorem sizes_of_layout (bpsLarge : 512 ≤ bps) (bpsFits : bps < u32Size) (fits : total < u64Size)
    (is : layout total bps 7 (clustersFor total) = some l)
    (few : l.clusters + clusterFirst ≤ 0x0FFFFFF6) : Sizes total bps l := by
  obtain ⟨rfl, many⟩ := layout_eq bpsLarge bpsFits fits is
  obtain ⟨large, short', tables⟩ := usable_small few fits
  have small : usable total < 0x10000000000 := Nat.lt_trans short' (by decide)
  have some := (clustersFor_range total).1
  have usableIs := usable_eq large fits
  have width := denom_ge bpsLarge (clustersFor total)
  have fatIs := fatSizeFor_eq bpsFits small
  have fatLe := fatSizeFor_le bpsLarge bpsFits small
  have clusters : (layoutOf total bps (clustersFor total)).clusters =
      (usable total - fatSizeFor total (clustersFor total) bps * 2) / clustersFor total := by
    have within : (usable total + (u64Size - fatSizeFor total (clustersFor total) bps * 2)) %
        u64Size = usable total - fatSizeFor total (clustersFor total) bps * 2 := by
      unfold u64Size
      omega
    rw [← within]
    rfl
  have whole := Nat.div_add_mod
    (usable total - fatSizeFor total (clustersFor total) bps * 2) (clustersFor total)
  have rest := Nat.mod_lt (usable total - fatSizeFor total (clustersFor total) bps * 2) some
  rw [← clusters, Nat.mul_comm] at whole
  -- The table's rule is a division rounded up.
  have short : fatSizeFor total (clustersFor total) bps =
      (usable total + denom (clustersFor total) bps - 1) / denom (clustersFor total) bps := by
    have quotient : usable total / (128 * clustersFor total + 2) ≤ usable total / 130 :=
      Nat.div_le_div_left (by omega) (by decide)
    have up : (usable total + denom (clustersFor total) bps - 1) / denom (clustersFor total) bps ≤
        usable total / 130 + 1 := by
      calc _ ≤ (usable total + denom (clustersFor total) bps) / denom (clustersFor total) bps :=
            Nat.div_le_div_right (Nat.sub_le _ _)
        _ = usable total / denom (clustersFor total) bps + 1 := Nat.add_div_right _ (by omega)
        _ ≤ usable total / 130 + 1 :=
            Nat.succ_le_succ (Nat.div_le_div_left (by omega) (by decide))
    rw [fatIs, Nat.mod_eq_of_lt]
    unfold u32Size
    omega
  have up := Nat.div_add_mod (usable total + denom (clustersFor total) bps - 1)
    (denom (clustersFor total) bps)
  have rest' := Nat.mod_lt (usable total + denom (clustersFor total) bps - 1)
    (Nat.lt_of_lt_of_le (by omega) width : 0 < denom (clustersFor total) bps)
  rw [← short, Nat.mul_comm] at up
  constructor
  case spc => rfl
  case fat => rfl
  case parts =>
    change reservedSectors + fatSizeFor total (clustersFor total) bps * 2 +
      (layoutOf total bps (clustersFor total)).clusters * clustersFor total ≤ total
    omega
  case last =>
    change total < reservedSectors + fatSizeFor total (clustersFor total) bps * 2 +
      ((layoutOf total bps (clustersFor total)).clusters + 1) * clustersFor total
    rw [Nat.succ_mul]
    omega
  case many => exact many
  case few =>
    unfold clusterFirst at few
    omega
  case ceil =>
    change total - reservedSectors ≤ fatSizeFor total (clustersFor total) bps *
      denom (clustersFor total) bps
    omega
  case least =>
    change fatSizeFor total (clustersFor total) bps * denom (clustersFor total) bps <
      total - reservedSectors + denom (clustersFor total) bps
    omega

/-- There is a table, and it is short enough for its number. -/
theorem Sizes.table (sizes : Sizes total bps l) (bpsLarge : 512 ≤ bps) :
    0 < l.fatSectors ∧ l.fatSectors < 0x8000010 := by
  obtain ⟨some, small⟩ := clustersFor_range total
  have width := denom_ge bpsLarge l.spc
  rw [← sizes.spc] at some small
  have parts := sizes.parts
  have last := sizes.last
  have many := sizes.many
  have least := sizes.least
  have ceil := sizes.ceil
  unfold fat16MaxClusters at many
  have data := Nat.le_mul_of_pos_right l.clusters some
  have more : (l.clusters + 1) * l.spc ≤ 0x10000000 * 64 := Nat.mul_le_mul sizes.few small
  have pos : 0 < l.fatSectors := by
    apply Nat.pos_of_ne_zero
    intro none
    rw [none, Nat.zero_mul] at ceil
    omega
  refine ⟨pos, ?_⟩
  obtain ⟨n, is⟩ : ∃ n, l.fatSectors = n + 1 := ⟨l.fatSectors - 1, by omega⟩
  have rows := Nat.mul_le_mul_left n (by omega : 130 ≤ denom l.spc bps)
  rw [is, Nat.succ_mul] at least
  unfold reservedSectors at *
  omega

end ReconOS.Fat32
