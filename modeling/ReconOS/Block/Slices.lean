import ReconOS.Lib.Interleave
import Mathlib.Data.BitVec
import Mathlib.Logic.Function.Basic
import Mathlib.Logic.Relation

/-! One device's request queue: threads in `submit` and in `block_flush`, section by section. -/
namespace ReconOS.Block

inductive BlockStatus where
  | ok | noDevice | range | readOnly | align | io | timeout | busy | unsupported
  deriving DecidableEq, Repr

/-- `struct block_request`; the number says which call made it. -/
structure Request where
  id : Nat
  lba : Nat
  count : Nat
  write : Bool
  deriving DecidableEq, Repr

/-- What one device is: whether its seeks are free, and how much it takes at once, 0 for any. -/
structure Device where
  seekIsFree : Bool
  maxBlocksPerRequest : Nat

/-- What the threads share: the queue and its serving flag, the driver's lock, and what each
request's owner reads off it when it is done. The requests made so far, those handed to the driver
and the transfers it was asked for are kept on the side. -/
structure Shared where
  queue : List Request
  serving : Bool
  busy : Bool
  done : Nat → Option BlockStatus
  submitted : Nat
  issued : List Nat
  transfers : List (Nat × Nat × Nat)

def Shared.boot : Shared := ⟨[], false, false, fun _ => none, 0, [], []⟩

/-- After the requests for blocks no further on, or at the end if seeks are free. -/
def queueInsert (dev : Device) (r : Request) : List Request → List Request
  | [] => [r]
  | at_ :: rest =>
    if dev.seekIsFree ∨ at_.lba ≤ r.lba then at_ :: queueInsert dev r rest else r :: at_ :: rest

/-- How many blocks the driver is asked for next. -/
def chunkOf (dev : Device) (count : Nat) : Nat :=
  if dev.maxBlocksPerRequest ≠ 0 ∧ count > dev.maxBlocksPerRequest then dev.maxBlocksPerRequest
  else count

/-- Where a thread is; `r` is the request it submitted. -/
inductive Thread where
  | submitting (r : Request)
  /-- On the device's wait queue. -/
  | sleeping (r : Request)
  /-- It cannot sleep. -/
  | spinning (r : Request)
  | serving (r : Request)
  | acquiring (r next : Request)
  /-- In the driver, with `count` blocks from `lba` on to go. -/
  | transferring (r next : Request) (lba count : Nat)
  | completing (r next : Request) (status : BlockStatus)
  | returned (r : Request) (status : BlockStatus)
  | flushAcquiring
  | flushing
  | flushed (status : BlockStatus)
  deriving DecidableEq, Repr

/-- What a section meets: whether the thread can sleep, and what the driver answers. -/
structure Around where
  canSleep : Bool
  answer : BlockStatus

variable (dev : Device)

/-- One section of a thread. -/
def act (e : Around) (s : Shared) : Thread → Shared × Thread
  | .submitting r =>
    let s := { s with queue := queueInsert dev r s.queue }
    if s.serving then (s, .sleeping r) else ({ s with serving := true }, .serving r)
  | .sleeping r =>
    match s.done r.id with
    | some status => (s, .returned r status)
    | none => (s, if e.canSleep then .sleeping r else .spinning r)
  | .spinning r =>
    match s.done r.id with
    | some status => (s, .returned r status)
    | none => (s, .spinning r)
  | .serving r =>
    match s.queue with
    | [] => ({ s with serving := false }, .returned r ((s.done r.id).getD .ok))
    | next :: rest => ({ s with queue := rest }, .acquiring r next)
  | .acquiring r next =>
    if s.busy then (s, .acquiring r next)
    else ({ s with busy := true, issued := next.id :: s.issued },
      .transferring r next next.lba next.count)
  | .transferring r next lba count =>
    if count = 0 then ({ s with busy := false }, .completing r next .ok)
    else
      let chunk := chunkOf dev count
      let s := { s with transfers := (next.id, lba, chunk) :: s.transfers }
      if e.answer = .ok then (s, .transferring r next (lba + chunk) (count - chunk))
      else ({ s with busy := false }, .completing r next e.answer)
  | .completing r next status =>
    ({ s with done := Function.update s.done next.id (some status) }, .serving r)
  | .returned r status => (s, .returned r status)
  | .flushAcquiring =>
    if s.busy then (s, .flushAcquiring) else ({ s with busy := true }, .flushing)
  | .flushing => ({ s with busy := false }, .flushed e.answer)
  | .flushed status => (s, .flushed status)

/-- A call: a read or a write, or a flush. -/
inductive Entry where
  | submit (lba count : Nat) (write : Bool)
  | flush

def enter : Entry → Shared → Shared × Thread
  | .submit lba count write, s =>
    ({ s with submitted := s.submitted + 1 }, .submitting ⟨s.submitted, lba, count, write⟩)
  | .flush, s => (s, .flushAcquiring)

/-- Nothing else touches the queue. -/
def disk : Lib.System Shared Thread Around Entry Empty where
  act := act dev
  start := enter
  outside o _ := o.elim

def idle : Lib.World Shared Thread := ⟨.boot, []⟩

end ReconOS.Block

/-! The table of block devices: slices of devices, slices of slices, and the way a request on one
goes down to the disk. -/
namespace ReconOS.Block

abbrev U32 := BitVec 32
abbrev U64 := BitVec 64

def blockMaxDevices : Nat := 64
def blockMaxSlices : Nat := 16

/-- What of its operations a driver has: all have `read`. -/
structure BlockOps where
  write : Bool
  discard : Bool

/-- `struct block_device`: the fields that say where a slice lies and what may be asked of it. A
`parent` of 0 is none. -/
structure BlockDevice where
  id : U32
  generation : U32
  blockSize : U32
  blockCount : U64
  readOnly : Bool
  parent : U32
  parentGeneration : U32
  firstLba : U64
  sliceCount : Nat
  claimedRaw : Bool
  maxBlocksPerRequest : U32
  ops : BlockOps
  present : Bool

/-- A slot `kmemset` has cleared. -/
def BlockDevice.zero : BlockDevice where
  id := 0
  generation := 0
  blockSize := 0
  blockCount := 0
  readOnly := false
  parent := 0
  parentGeneration := 0
  firstLba := 0
  sliceCount := 0
  claimedRaw := false
  maxBlocksPerRequest := 0
  ops := ⟨false, false⟩
  present := false

/-- `devices`, how many of its slots are taken, and the next identity. A device is named by its
slot, which is what a pointer to it is. -/
structure Table where
  slots : Nat → BlockDevice
  count : Nat
  nextId : U32

def Table.boot : Table := ⟨fun _ => .zero, 0, 1⟩

variable (t : Table)

/-! ## The table -/

def blockRegister (ops : BlockOps) (blockSize : U32) (blockCount : U64) : Table × Option Nat :=
  if blockMaxDevices ≤ t.count then (t, none)
  else if blockSize = 0 ∨ blockSize &&& (blockSize - 1) ≠ 0 then (t, none)
  else
    let d : BlockDevice := { BlockDevice.zero with
      id := t.nextId
      generation := 1
      blockSize := blockSize
      blockCount := blockCount
      ops := ops
      present := true }
    (⟨Function.update t.slots t.count d, t.count + 1, t.nextId + 1⟩, some t.count)

/-- What a device just registered becomes as a slice of `p`. -/
def sliced (d p : BlockDevice) (firstLba : U64) : BlockDevice :=
  { d with
    parent := p.id
    parentGeneration := p.generation
    firstLba := firstLba
    readOnly := p.readOnly
    maxBlocksPerRequest := p.maxBlocksPerRequest }

/-- A parent with one slice more. -/
def withSlice (p : BlockDevice) : BlockDevice := { p with sliceCount := p.sliceCount + 1 }

def blockRegisterSlice (parent : Nat) (firstLba count : U64) : Table × Option Nat :=
  let p := t.slots parent
  if count = 0 then (t, none)
  else if blockMaxSlices ≤ p.sliceCount then (t, none)
  -- The sum is never formed.
  else if p.blockCount ≤ firstLba ∨ p.blockCount - firstLba < count then (t, none)
  else
    match blockRegister t p.ops p.blockSize count with
    | (t, none) => (t, none)
    | (t, some i) =>
      let slots := Function.update t.slots i (sliced (t.slots i) p firstLba)
      ({ t with slots := Function.update slots parent (withSlice (slots parent)) }, some i)

/-- Slot `k` holds a slice of the device in slot `i`. -/
def isSliceOf (k i : Nat) : Bool :=
  k < t.count && k ≠ i && (t.slots k).present && (t.slots k).parent == (t.slots i).id &&
    (t.slots k).parentGeneration == (t.slots i).generation

/-- The slices of a device go with it, and no identity is used again. -/
def blockUnregister (i : Nat) : Table :=
  if !(t.slots i).present then t
  else
    { t with slots := fun k =>
        if k = i then
          { t.slots k with
            present := false
            sliceCount := 0
            generation := (t.slots k).generation + 1 }
        else if isSliceOf t k i then
          { t.slots k with present := false, generation := (t.slots k).generation + 1 }
        else t.slots k }

/-- What a driver says of its device after it has registered it. -/
def describe (i : Nat) (readOnly : Bool) (maxBlocksPerRequest : U32) : Table :=
  let d := t.slots i
  if !d.present then t
  else
    let d := { d with readOnly := readOnly, maxBlocksPerRequest := maxBlocksPerRequest }
    { t with slots := Function.update t.slots i d }

/-- `capable` says whether the caller may write to raw disks. -/
def blockClaimRaw (i : Nat) (capable : Bool) : Table × BlockStatus :=
  let d := t.slots i
  if !d.present then (t, .noDevice)
  else if !capable then (t, .readOnly)
  else if d.parent ≠ 0 then (t, .range)
  else if d.readOnly then (t, .readOnly)
  else if d.claimedRaw then (t, .busy)
  else ({ t with slots := Function.update t.slots i { d with claimedRaw := true } }, .ok)

def blockReleaseRaw (i : Nat) : Table :=
  { t with slots := Function.update t.slots i { t.slots i with claimedRaw := false } }

/-! ## Requests -/

def blockDeviceById (id generation : U32) : Option Nat :=
  (List.range t.count).find? fun i =>
    (t.slots i).id == id && (t.slots i).generation == generation && (t.slots i).present

def checkRange (i : Nat) (lba : U64) (count : U32) : BlockStatus :=
  let d := t.slots i
  if !d.present then .noDevice
  else if count = 0 then .ok
  else if d.blockCount ≤ lba then .range
  else if d.blockCount - lba < count.setWidth 64 then .range
  else .ok

/-- From slice to parent until there is none; `guard` is how many steps may still be taken. -/
def toRoot : Nat → Nat → U64 → Option (Nat × U64)
  | 0, i, lba => some (i, lba)
  | guard + 1, i, lba =>
    if (t.slots i).parent = 0 then some (i, lba)
    else
      match blockDeviceById t (t.slots i).parent (t.slots i).parentGeneration with
      | none => none
      | some p => toRoot guard p (lba + (t.slots i).firstLba)

/-- How much a driver is asked for at once. -/
def chunk (max count : U32) : U32 := if max ≠ 0 ∧ max < count then max else count

/-- The calls `issue` makes to the driver, if none of them fails; `fuel` is at least `count`. -/
def driverCalls (max : U32) : Nat → U64 → U32 → List (U64 × U32)
  | 0, _, _ => []
  | fuel + 1, lba, count =>
    if count = 0 then []
    else
      (lba, chunk max count) ::
        driverCalls max fuel (lba + (chunk max count).setWidth 64) (count - chunk max count)

/-- What becomes of a request: an answer at once, calls to the driver of the device in slot `root`,
or a null device read from. -/
inductive Answer where
  | status (s : BlockStatus)
  | driven (root : Nat) (calls : List (U64 × U32))
  | fault

def submitTo (i : Nat) (lba : U64) (count : U32) : Answer :=
  match toRoot t blockMaxDevices i lba with
  | none => .status .noDevice
  | some (root, lba) =>
    .driven root (driverCalls (t.slots root).maxBlocksPerRequest count.toNat lba count)

/-- `buf` says whether there is a buffer. -/
def blockRead (i : Nat) (lba : U64) (count : U32) (buf : Bool) : Answer :=
  let s := checkRange t i lba count
  if s ≠ .ok ∨ count = 0 then .status s
  else if !buf then .status .align
  else submitTo t i lba count

def blockWrite (i : Nat) (lba : U64) (count : U32) (buf : Bool) : Answer :=
  let d := t.slots i
  let s := checkRange t i lba count
  if s ≠ .ok ∨ count = 0 then .status s
  else if !buf then .status .align
  else if d.readOnly then .status .readOnly
  else if !d.ops.write then .status .readOnly
  else if d.sliceCount ≠ 0 ∧ !d.claimedRaw then .status .busy
  else submitTo t i lba count

def blockDiscard (i : Nat) (lba : U64) (count : U32) : Answer :=
  let d := t.slots i
  if !d.present then .status .noDevice
  else if d.readOnly then .status .readOnly
  else if count = 0 then .status .ok
  else if d.blockCount ≤ lba then .status .range
  else if d.blockCount - lba < count.setWidth 64 then .status .range
  else
    match toRoot t blockMaxDevices i lba with
    | none => .fault
    | some (root, lba) =>
      if !(t.slots root).ops.discard then .status .unsupported else .driven root [(lba, count)]

/-! ## Runs -/

inductive Call where
  | register (ops : BlockOps) (blockSize : U32) (blockCount : U64)
  | registerSlice (parent : Nat) (firstLba count : U64)
  | unregister (i : Nat)
  | describe (i : Nat) (readOnly : Bool) (maxBlocksPerRequest : U32)
  | claimRaw (i : Nat) (capable : Bool)
  | releaseRaw (i : Nat)

def step : Call → Table
  | .register ops size count => (blockRegister t ops size count).1
  | .registerSlice parent first count => (blockRegisterSlice t parent first count).1
  | .unregister i => blockUnregister t i
  | .describe i readOnly max => describe t i readOnly max
  | .claimRaw i capable => (blockClaimRaw t i capable).1
  | .releaseRaw i => blockReleaseRaw t i

def run (t : Table) : List Call → Table
  | [] => t
  | call :: rest => run (step t call) rest

inductive Access where
  | read (buf : Bool)
  | write (buf : Bool)
  | discard

def submit (i : Nat) (lba : U64) (count : U32) : Access → Answer
  | .read buf => blockRead t i lba count buf
  | .write buf => blockWrite t i lba count buf
  | .discard => blockDiscard t i lba count

end ReconOS.Block
