import ReconOS.Gpt.Scan

/-! Deciding what an install would do. -/
namespace ReconOS.Gpt

def installAlignBlocks : Nat := 2048
def installEspCreate : Nat := 256 * 2048
def installBiosBoot : Nat := 1 * 2048
def installSystemMin : Nat := 2048 * 2048
def installProgramsMin : Nat := 1024 * 2048
def installSystemShare : Nat := 4
def installSystemCap : Nat := 65536 * 2048
def maxEntries : Nat := 128

inductive Verdict where
  | ok
  | noTableReadable
  | notGpt
  | noRoomSystem
  | noRoomPrograms
  | noRoomEsp
  | espTooFull
  | tooManySlices
  | io
  deriving DecidableEq, Repr

/-- `struct block_extent`, and `struct gap`. -/
structure Extent where
  first : Nat
  count : Nat
  deriving DecidableEq, Repr

def Extent.empty : Extent := ⟨0, 0⟩

/-- What `kzalloc` gives a caller that reads a table: room for a block, and for the entries; and
what is in memory past its room. -/
structure Heap where
  sector : Bool
  entries : Bool
  beyond : Bytes

def espType : List UInt8 :=
  [0x28, 0x73, 0x2A, 0xC1, 0x1F, 0xF8, 0xD2, 0x11, 0xBA, 0x4B, 0x00, 0xA0, 0xC9, 0x3E, 0xC9, 0x3B]

/-! ## Free space -/

/-- The EFI System Partition that a table has. -/
structure Esp where
  index : Nat
  first : Nat
  count : Nat
  deriving DecidableEq, Repr

structure Survey where
  firstUsable : Nat
  lastUsable : Nat
  gaps : List Extent
  used : Nat
  usedBlocks : Nat
  esp : Option Esp
  deriving DecidableEq, Repr

/-- What `survey_gpt` has collected of the entries. -/
structure Collected where
  used : List Extent
  usedBlocks : Nat
  esp : Option Esp
  deriving DecidableEq, Repr

/-- The first loop of `survey_gpt`; nothing, where an entry is outside the usable range. -/
def collect (entries : Bytes) (size firstUsable lastUsable : Nat) (c : Collected) :
    List Nat → Option Collected
  | [] => some c
  | i :: rest =>
    let e := entryAt entries size i
    if ¬e.used then collect entries size firstUsable lastUsable c rest
    else if e.last < e.first ∨ e.first < firstUsable ∨ lastUsable < e.last then none
    else
      let count := e.last - e.first + 1
      let esp :=
        if entries.slice (i * size) 16 = espType ∧ c.esp = none then
          some ⟨(i + 1) % 0x100, e.first, count⟩
        else c.esp
      collect entries size firstUsable lastUsable
        ⟨c.used ++ [⟨e.first, count⟩], (c.usedBlocks + count) % u64Size, esp⟩ rest

/-- One round of the insertion sort, the part already sorted held last first. -/
def insertUsed (key : Extent) : List Extent → List Extent
  | [] => [key]
  | e :: rest => if key.first < e.first then e :: insertUsed key rest else key :: e :: rest

def sortUsed (used : List Extent) : List Extent :=
  (used.foldl (fun sorted key => insertUsed key sorted) []).reverse

def overlaps : List Extent → Bool
  | a :: b :: rest => decide (b.first < a.first + a.count) || overlaps (b :: rest)
  | _ => false

/-- The last loop of `survey_gpt`, and what is left behind the last entry. -/
def gapsFrom (lastUsable : Nat) (cursor : Nat) : List Extent → List Extent
  | [] => if cursor ≤ lastUsable then [⟨cursor, lastUsable - cursor + 1⟩] else []
  | e :: rest =>
    if cursor < e.first then ⟨cursor, e.first - cursor⟩ :: gapsFrom lastUsable (e.first + e.count) rest
    else gapsFrom lastUsable (e.first + e.count) rest

/-- The fields of a header, as the installer reads them. -/
structure TableHeader where
  firstUsable : Nat
  lastUsable : Nat
  entryLba : Nat
  count : Nat
  size : Nat
  deriving DecidableEq, Repr

def TableHeader.of (sector : Bytes) : TableHeader :=
  ⟨sector.le64 40, sector.le64 48, sector.le64 72, sector.le32 80, sector.le32 84⟩

/-- How many blocks the installer takes for the entries. -/
def TableHeader.sectors (h : TableHeader) (blockSize : Nat) : Nat :=
  let perSector := blockSize / h.size
  (h.count + perSector - 1) / perSector

def surveyGpt (heap : Heap) (d : Disk) : Except Verdict Survey :=
  if heap.sector = false then .error .io
  else if ¬d.CanRead 1 1 then .error .io
  else
    let sector := d.sector heap.beyond 1
    if sector.slice 0 8 ≠ [0x45, 0x46, 0x49, 0x20, 0x50, 0x41, 0x52, 0x54] then .error .notGpt
    else
      let h := TableHeader.of sector
      if h.count = 0 ∨ maxEntries < h.count ∨ h.size < 128 ∨ d.blockSize < h.size ∨
          h.lastUsable ≤ h.firstUsable ∨ d.blockCount ≤ h.lastUsable then
        .error .noTableReadable
      else if heap.entries = false then .error .io
      else if ¬d.CanRead h.entryLba (h.sectors d.blockSize) then .error .io
      else
        let entries := d.bytes h.entryLba
        match collect entries h.size h.firstUsable h.lastUsable ⟨[], 0, none⟩
            (List.range h.count) with
        | none => .error .noTableReadable
        | some c =>
          let used := sortUsed c.used
          if overlaps used then .error .noTableReadable
          else .ok ⟨h.firstUsable, h.lastUsable, gapsFrom h.lastUsable h.firstUsable used,
            c.used.length, c.usedBlocks, c.esp⟩

def alignedFit (g : Extent) (need : Nat) : Option Extent :=
  let stop := g.first + g.count
  let pad := g.first % installAlignBlocks
  let first := if pad ≠ 0 then (g.first + (installAlignBlocks - pad)) % u64Size else g.first
  if stop ≤ first ∨ stop - first < need then none else some ⟨first, need⟩

/-! ## The plan -/

structure Plan where
  verdict : Verdict
  freshTable : Bool
  reuseEsp : Bool
  reuseEspIndex : Nat
  reuseEspFreeBlocks : Nat
  esp : Extent
  system : Extent
  programs : Extent
  biosBoot : Extent
  untouchedSlices : Nat
  untouchedBlocks : Nat
  deriving DecidableEq, Repr

def Plan.empty : Plan := ⟨.ok, false, false, 0, 0, .empty, .empty, .empty, .empty, 0, 0⟩

/-- How many of `count` blocks `split_rest` gives to the system. -/
def systemShare (count : Nat) : Nat :=
  let sys := count / installSystemShare
  let sys := if sys < installSystemMin then installSystemMin else sys
  let sys := if installSystemCap < sys then installSystemCap else sys
  let sys := if count - installProgramsMin < sys then count - installProgramsMin else sys
  sys - sys % installAlignBlocks

/-- The two volumes, with `sys` blocks for the system. -/
def splitAt (first count sys : Nat) (out : Plan) : Plan :=
  { out with
    system := ⟨first, sys⟩
    programs := ⟨first + sys, count - sys - (count - sys) % installAlignBlocks⟩ }

def splitRest (first count : Nat) (out : Plan) : Plan := splitAt first count (systemShare count) out

/-- The first gap that takes an EFI System Partition, and the gaps with it consumed. -/
def takeEsp : List Extent → Option (Extent × List Extent)
  | [] => none
  | g :: rest =>
    match alignedFit g installEspCreate with
    | some esp =>
      let taken := esp.first + esp.count - g.first
      some (esp, ⟨esp.first + esp.count, g.count - taken⟩ :: rest)
    | none => (takeEsp rest).map fun (esp, gaps) => (esp, g :: gaps)

/-- What a gap has for both volumes. -/
def roomIn (g : Extent) : Option Extent :=
  (alignedFit g (installSystemMin + installProgramsMin)).map fun got =>
    let count := g.first + g.count - got.first
    ⟨got.first, count - count % installAlignBlocks⟩

def better (best g : Extent) : Extent :=
  match roomIn g with
  | some got => if best.count < got.count then got else best
  | none => best

def bestGap (gaps : List Extent) : Extent := gaps.foldl better .empty

/-- Two of a layout's extents, neither reaching into the other. -/
def Extent.Apart (a b : Extent) : Prop :=
  b.first ≤ a.first ∧ b.count ≤ a.first - b.first ∨ a.first ≤ b.first ∧ a.count ≤ b.first - a.first

instance (a b : Extent) : Decidable (a.Apart b) := inferInstanceAs (Decidable (_ ∧ _ ∨ _ ∧ _))

/-- `block_check_layout`. -/
def checkLayout (d : Disk) : List Extent → Bool
  | [] => d.present
  | a :: rest =>
    a.count ≠ 0 ∧ a.first < d.blockCount ∧ a.count ≤ d.blockCount - a.first ∧
      (rest.all fun b => a.Apart b) ∧ checkLayout d rest

namespace Plan

variable (out : Plan)

/-- What the plan would make. -/
def extents : List Extent :=
  (if out.biosBoot.count ≠ 0 then [out.biosBoot] else []) ++
    (if out.reuseEsp then [] else [out.esp]) ++ [out.system, out.programs]

def refuse (v : Verdict) : Plan := { out with verdict := v }

/-- The BIOS boot partition, off the front of the chosen gap, and the volumes in the rest of it. -/
def layOut (best : Extent) : Plan :=
  if installBiosBoot + installSystemMin + installProgramsMin ≤ best.count then
    splitRest (best.first + installBiosBoot) (best.count - installBiosBoot)
      { out with biosBoot := ⟨best.first, installBiosBoot⟩ }
  else splitRest best.first best.count out

end Plan

/-- `install_plan` of a blank disk. -/
def planFresh (d : Disk) : Plan :=
  let out := { Plan.empty with freshTable := true }
  let first := installAlignBlocks
  if d.blockCount < 34 + first then out.refuse .noRoomEsp
  else
    let usable := d.blockCount - 33 - first
    if usable < installBiosBoot + installEspCreate + installSystemMin + installProgramsMin then
      out.refuse (if usable < installEspCreate then .noRoomEsp else .noRoomPrograms)
    else
      splitRest (first + installBiosBoot + installEspCreate)
        (usable - installBiosBoot - installEspCreate)
        { out with
          biosBoot := ⟨first, installBiosBoot⟩
          esp := ⟨first + installBiosBoot, installEspCreate⟩ }

/-- `install_plan` of a disk with a table, surveyed. -/
def planBeside (d : Disk) (out : Plan) (gaps : List Extent) : Plan :=
  let best := bestGap gaps
  if best.count = 0 then out.refuse .noRoomSystem
  else
    let out := out.layOut best
    if checkLayout d out.extents then out else out.refuse .noRoomSystem

/-- `install_plan`. `espHasRoom` is what it learns of an EFI System Partition by mounting it: how
many blocks it has free, if enough. -/
def installPlan (heap : Heap) (espHasRoom : Esp → Option Nat) (dev : Device) : Plan :=
  if dev.parent then Plan.empty.refuse .noTableReadable
  else
    match dev.scheme with
    | .unreadable => Plan.empty.refuse .noTableReadable
    | .none => planFresh dev.disk
    | .gpt | .mbr =>
      match surveyGpt heap dev.disk with
      | .error v => Plan.empty.refuse v
      | .ok s =>
        let out := { Plan.empty with
          untouchedSlices := s.used
          untouchedBlocks := s.usedBlocks }
        match s.esp with
        | some esp =>
          match espHasRoom esp with
          | some free =>
            planBeside dev.disk { out with
              reuseEsp := true
              reuseEspIndex := esp.index
              reuseEspFreeBlocks := free } s.gaps
          | none => out.refuse .espTooFull
        | none =>
          match takeEsp s.gaps with
          | none => out.refuse .noRoomEsp
          | some (esp, gaps) => planBeside dev.disk { out with esp := esp } gaps

end ReconOS.Gpt
