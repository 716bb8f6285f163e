import ReconOS.Fat32.Volume
import ReconOS.Lib.Text

/-! What a directory holds, record by record, and what is read of a file. A loop goes round as often
as it is allowed to, and is `hung` where it would go on. -/
namespace ReconOS.Fat32
open Gpt Lib

def dirSize : Nat := 32
def entryFree : UInt8 := 0x00
def entryDeleted : UInt8 := 0xE5
def attrVolumeId : Nat := 0x08
def attrDirectory : Nat := 0x10
def attrLongName : Nat := 0x0F
def attrLongMask : Nat := 0x3F
def unitsMax : Nat := 260
def fatNameMax : Nat := 768
def longMax : Nat := 20
def runMax : Nat := 13

/-! ## Names -/

def fatAliasChecksum (name : List UInt8) : UInt8 :=
  name.foldl (fun sum b => (if sum &&& 1 ≠ 0 then (0x80 : UInt8) else 0) + (sum >>> 1) + b) 0

/-- Where the thirteen units stand in a fragment: `lfn_runs`. -/
def lfnOffsets : List Nat := [1, 3, 5, 7, 9, 14, 16, 18, 20, 22, 24, 28, 30]

/-- One character as UTF-8. -/
def utf8Of (c : Nat) : List UInt8 :=
  if c < 0x80 then [UInt8.ofNat c]
  else if c < 0x800 then [UInt8.ofNat (0xC0 + c / 0x40), UInt8.ofNat (0x80 + c % 0x40)]
  else if c < 0x10000 then
    [UInt8.ofNat (0xE0 + c / 0x1000), UInt8.ofNat (0x80 + c / 0x40 % 0x40),
      UInt8.ofNat (0x80 + c % 0x40)]
  else
    [UInt8.ofNat (0xF0 + c / 0x40000), UInt8.ofNat (0x80 + c / 0x1000 % 0x40),
      UInt8.ofNat (0x80 + c / 0x40 % 0x40), UInt8.ofNat (0x80 + c % 0x40)]

/-- A character put out, where there is room for it and the end mark. -/
def putOut (max : Nat) (out : List UInt8) (c : Nat) : Option (List UInt8) :=
  if out.length + (utf8Of c).length < max then some (out ++ utf8Of c) else none

def High (c : Nat) : Prop := 0xD800 ≤ c ∧ c ≤ 0xDBFF

def Low (c : Nat) : Prop := 0xDC00 ≤ c ∧ c ≤ 0xDFFF

instance (c : Nat) : Decidable (High c) := inferInstanceAs (Decidable (_ ∧ _))

instance (c : Nat) : Decidable (Low c) := inferInstanceAs (Decidable (_ ∧ _))

/-- `utf16_to_utf8`, after what it has put out. -/
def utf16ToUtf8 (max : Nat) (out : List UInt8) : List Nat → Option (List UInt8)
  | [] => some out
  | [c] => if High c ∨ Low c then none else putOut max out c
  | c :: lo :: rest =>
    if High c then
      if ¬Low lo then none
      else (putOut max out (0x10000 + (c - 0xD800) * 0x400 + (lo - 0xDC00))).bind fun out =>
        utf16ToUtf8 max out rest
    else if Low c then none
    else (putOut max out c).bind fun out => utf16ToUtf8 max out (lo :: rest)

def lower (c : UInt8) : UInt8 := if 0x41 ≤ c ∧ c ≤ 0x5A then c + 0x20 else c

/-- The characters of a string that an array of `char` has: those before the first zero. -/
def cstring (chars : List UInt8) : List UInt8 := chars.takeWhile (· ≠ 0)

/-- `alias_of`. -/
def aliasOf (rec : Bytes) : List UInt8 :=
  let lowerBase := (rec 12).toNat / 0x08 % 2 = 1
  let lowerExt := (rec 12).toNat / 0x10 % 2 = 1
  let base := (rec.slice 0 8).takeWhile (· ≠ 0x20)
  let base := match base with
    | [] => []
    | first :: rest => (if first = 0x05 then 0xE5 else first) :: rest
  let base := if lowerBase then base.map lower else base
  let ext := (rec.slice 8 3).takeWhile (· ≠ 0x20)
  let ext := if lowerExt then ext.map lower else ext
  cstring (if rec 8 ≠ 0x20 then base ++ 0x2E :: ext else base)

def fold (c : UInt8) : UInt8 := if 0x61 ≤ c ∧ c ≤ 0x7A then c - 0x20 else c

def nameEq (a b : List UInt8) : Bool := (cstring a).map fold = (cstring b).map fold

/-! ## Records -/

/-- `struct fat32_entry`. -/
structure Entry where
  name : List UInt8
  aliasName : List UInt8
  firstCluster : Nat
  size : Nat
  attr : Nat
  isDir : Bool
  deriving DecidableEq

/-- The fragments of a long name gathered so far. -/
structure Long where
  units : Nat → Nat
  held : Nat
  wantSum : UInt8
  hasLong : Bool

def Long.none : Long := ⟨fun _ => 0, 0, 0, false⟩

/-- The units of a fragment put where its number says, as far as there are places. -/
def gather (rec : Bytes) (base : Nat) (units : Nat → Nat) : Nat → Nat :=
  fun i =>
    if base ≤ i ∧ i < unitsMax then
      match lfnOffsets[i - base]? with
      | some o => rec.le16 o
      | .none => units i
    else units i

/-- What one record comes to. -/
inductive Reading where
  | ended
  | passed (long : Long)
  | entry (e : Entry)

/-- An entry's long name, where it has one that is its own, or its alias. -/
def longName (long : Long) (rec : Bytes) : List UInt8 :=
  if long.hasLong ∧ fatAliasChecksum (rec.slice 0 11) = long.wantSum then
    let units := ((List.range long.held).map long.units).takeWhile fun u => u ≠ 0 ∧ u ≠ 0xFFFF
    (utf16ToUtf8 fatNameMax [] units).getD (aliasOf rec)
  else aliasOf rec

def entryOf (long : Long) (rec : Bytes) : Entry where
  name := longName long rec
  aliasName := aliasOf rec
  firstCluster := (rec.le16 20 * 0x10000 + rec.le16 26) % clusterNumbers
  size := rec.le32 28
  attr := (rec 11).toNat
  isDir := (rec 11).toNat / attrDirectory % 2 = 1

/-- A fragment: the one that is last in the name comes first, and begins a new one. -/
def fragment (long : Long) (rec : Bytes) : Long :=
  let seq := (rec 0).toNat % 0x20
  let base := (seq - 1) * runMax
  if seq = 0 ∨ longMax < seq then { long with hasLong := false, held := 0 }
  else if (rec 0).toNat / 0x40 % 2 = 1 then
    { units := gather rec base fun _ => 0
      held := min (seq * runMax) unitsMax
      wantSum := rec 13
      hasLong := true }
  else if long.hasLong = false ∨ rec 13 ≠ long.wantSum then
    { long with hasLong := false, held := 0 }
  else { long with units := gather rec base long.units }

/-- The body of `next_entry`'s loop. -/
def readRecord (long : Long) (rec : Bytes) : Reading :=
  if rec 0 = entryFree then .ended
  else if rec 0 = entryDeleted then .passed { long with hasLong := false, held := 0 }
  else if (rec 11).toNat &&& attrLongMask = attrLongName then .passed (fragment long rec)
  else if (rec 11).toNat / attrVolumeId % 2 = 1 then
    .passed { long with hasLong := false, held := 0 }
  else .entry (entryOf long rec)

/-! ## Walking a directory -/

structure DirWalk where
  cluster : Nat
  buf : Bytes
  offset : Nat
  loaded : Bool
  guard : Nat

variable (m : Machine) (v : Volume)

def walkBegin (cluster : Nat) : Op DirWalk := do
  let room ← m.kzalloc
  if room = true then
    pure ⟨if cluster ≠ 0 then cluster else v.rootCluster, Bytes.zeros, 0, false, 0⟩
  else fail .nomem

/-- A cluster's contents, where it is one of the volume's. -/
def loadCluster (cluster : Nat) : Op Bytes :=
  if ¬v.ClusterOk cluster then fail .corrupt
  else readSectors m v (v.clusterToSector cluster) v.sectorsPerCluster

/-- The walk with its cluster in the buffer. -/
def walkLoad (w : DirWalk) : Op DirWalk :=
  if w.loaded = true then pure w
  else do
    let buf ← loadCluster m v w.cluster
    pure { w with buf := buf, loaded := true, offset := 0 }

/-- `walk_next`: the next record, and where that leaves the walk. -/
def walkNext : (fuel : Nat) → DirWalk → Op (Bytes × DirWalk)
  | 0, _ => hang
  | fuel + 1, w => do
    let w ← walkLoad m v w
    if w.offset + dirSize ≤ v.bytesPerCluster then
      pure (fun i => w.buf (w.offset + i), { w with offset := w.offset + dirSize })
    else do
      let next ← nextCluster m v w.cluster
      if clusterEoc ≤ next then fail .notFound
      else if v.dataClusters < w.guard + 1 then fail .corrupt
      else walkNext fuel { w with cluster := next, loaded := false, guard := w.guard + 1 }

/-- `next_entry`. -/
def nextEntry : (fuel : Nat) → Long → DirWalk → Op (Entry × DirWalk)
  | 0, _, _ => hang
  | fuel + 1, long, w => do
    let (rec, w) ← walkNext m v (fuel + 1) w
    match readRecord long rec with
    | .ended => fail .notFound
    | .passed long => nextEntry fuel long w
    | .entry e => pure (e, w)

/-- The entry that so many are passed by for. -/
def skipEntries (fuel : Nat) : Nat → DirWalk → Op Entry
  | 0, w => do
    let (e, _) ← nextEntry m v fuel .none w
    pure e
  | index + 1, w => do
    let (_, w) ← nextEntry m v fuel .none w
    skipEntries fuel index w

/-- `fat32_readdir`. -/
def readdir (fuel dirCluster index : Nat) : Op Entry := do
  let w ← walkBegin m v dirCluster
  skipEntries m v fuel index w

def findEntry (name : List UInt8) : (fuel : Nat) → DirWalk → Op Entry
  | 0, _ => hang
  | fuel + 1, w => do
    let (e, w) ← nextEntry m v (fuel + 1) .none w
    if nameEq e.name name || nameEq e.aliasName name then pure e else findEntry name fuel w

/-- `fat32_lookup`. -/
def lookup (fuel dirCluster : Nat) (name : List UInt8) : Op Entry :=
  if name = [] then fail .name
  else do
    let w ← walkBegin m v dirCluster
    findEntry m v name fuel w

def slash : UInt8 := 0x2F

/-- The parts of a path, each in the directory before it. -/
def walkParts (fuel : Nat) : Nat → List (List UInt8) → Op Entry
  | _, [] => fail .name
  | dir, part :: rest =>
    if fatNameMax ≤ part.length then fail .name
    else do
      let e ← lookup m v fuel dir part
      match rest with
      | [] => pure e
      | rest => if e.isDir = true then walkParts fuel e.firstCluster rest else fail .notFound

/-- `fat32_walk`. -/
def walk (fuel : Nat) (path : List UInt8) : Op Entry :=
  walkParts m v fuel v.rootCluster (Text.tokens slash path)

/-! ## Reading a file -/

/-- The clusters of a file, until there is no more to take. -/
def readClusters : (fuel : Nat) → (left cluster guard : Nat) → List UInt8 → Op (List UInt8)
  | 0, _, _, _, _ => hang
  | fuel + 1, left, cluster, guard, out =>
    if left = 0 then pure out
    else do
      let take := min left v.bytesPerCluster
      let buf ← loadCluster m v cluster
      let out := out ++ buf.slice 0 take
      if left - take = 0 then pure out
      else do
        let next ← nextCluster m v cluster
        if clusterEoc ≤ next then fail .corrupt
        else if v.dataClusters < guard + 1 then fail .corrupt
        else readClusters fuel (left - take) next (guard + 1) out

/-- `fat32_read_file`: what is written to `out`, and `got`. -/
def readFile (fuel : Nat) (e : Entry) (max : Nat) : Op (List UInt8 × Nat) :=
  if e.isDir = true then fail .notFound
  else if max < e.size then fail .tooLarge
  else if e.size = 0 then pure ([], 0)
  else do
    let room ← m.kzalloc
    if room = true then
      let out ← readClusters m v fuel e.size e.firstCluster 0 []
      pure (out, e.size)
    else fail .nomem

end ReconOS.Fat32
