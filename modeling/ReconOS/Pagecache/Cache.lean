import ReconOS.Lib.Interleave
import Mathlib.Logic.Function.Basic

/-! The page cache: the table, and the calls on it, section by section. -/
namespace ReconOS.Pagecache

def pagecacheMax : Nat := 64
def pageSize : Nat := 0x1000
def u32Size : Nat := 0x100000000

abbrev Slot := Fin pagecacheMax

/-! ## Files -/

/-- A filesystem's `file_ops`: where the table is, and which of the calls it has. -/
structure FileOps where
  table : Nat
  identity : Bool
  seek : Bool
  read : Bool
  writeAt : Bool
  deriving DecidableEq, Repr

/-- An open file, and what its filesystem's `identity` answers for it. -/
structure File where
  ops : Option FileOps
  id : Nat
  deriving DecidableEq, Repr

/-- `struct entry`. -/
structure Entry where
  fs : Nat
  id : Nat
  offset : Nat
  page : Nat
  refs : Nat
  valid : Bool
  stale : Bool
  dirty : Bool
  bytes : Nat
  referenced : Bool
  owner : Option File
  deriving DecidableEq, Repr

def Entry.blank : Entry := ⟨0, 0, 0, 0, 0, false, false, false, 0, false, none⟩

/-- What `write_back` is given. -/
structure Back where
  file : File
  offset : Nat
  page : Nat
  bytes : Nat
  deriving DecidableEq, Repr

/-- What a page was filled from, and when. -/
structure Reading where
  fs : Nat
  id : Nat
  offset : Nat
  time : Nat
  deriving DecidableEq, Repr

/-- A `pagecache_forget` that has returned. -/
structure Forget where
  fs : Nat
  id : Nat
  began : Nat
  ended : Nat
  deriving DecidableEq, Repr

/-- The table and the clock hand, and which pages the allocator has given out to the cache; it
panics at a page given back that is not out. On the side: what the pages hold, the pages
written back, the forgets that have returned, and the time. -/
structure Shared where
  entries : Slot → Entry
  hand : Slot
  out : Nat → Bool
  panicked : Bool
  contents : Nat → Option Reading
  written : List Back
  forgets : List Forget
  clock : Nat

def Shared.boot : Shared :=
  ⟨fun _ => .blank, ⟨0, by decide⟩, fun _ => false, false, fun _ => none, [], [], 0⟩

def Shared.setEntry (s : Shared) (i : Slot) (e : Entry) : Shared :=
  { s with entries := Function.update s.entries i e }

/-- `pmm_free_page`. -/
def Shared.freePage (s : Shared) (page : Nat) : Shared :=
  { s with out := Function.update s.out page false, panicked := s.panicked || !s.out page }

/-! ## The table -/

/-- The entry may be served for a page of a file. -/
def Entry.Serves (e : Entry) (fs id offset : Nat) : Prop :=
  e.valid = true ∧ e.stale = false ∧ e.fs = fs ∧ e.id = id ∧ e.offset = offset

instance (e : Entry) (fs id offset : Nat) : Decidable (e.Serves fs id offset) :=
  inferInstanceAs (Decidable (_ ∧ _))

def find (s : Shared) (fs id offset : Nat) : Option Slot :=
  (List.finRange pagecacheMax).find? fun i => decide ((s.entries i).Serves fs id offset)

/-- The entry that `pagecache_put` and `pagecache_mark_shared` look for. -/
def findPage (s : Shared) (page : Nat) : Option Slot :=
  (List.finRange pagecacheMax).find? fun i =>
    (s.entries i).valid && decide ((s.entries i).page = page)

/-- The write that `write_back` asks for; the file may not take one. -/
def writeBack (s : Shared) (b : Back) : Shared :=
  match b.file.ops with
  | some ops => if ops.writeAt ∧ b.bytes ≠ 0 then { s with written := b :: s.written } else s
  | none => s

def nextHand (i : Slot) : Slot := ⟨(i.val + 1) % pagecacheMax, Nat.mod_lt _ (by decide)⟩

/-- What `spare` does with the entry it takes. -/
def evict (s : Shared) (i : Slot) : Shared :=
  let e := s.entries i
  let s' := match e.dirty, e.owner with
    | true, some f => writeBack s ⟨f, e.offset, e.page, e.bytes⟩
    | _, _ => s
  (s'.freePage e.page).setEntry i
    { e with
      valid := false, stale := false, dirty := false, referenced := false, page := 0,
      owner := none, fs := 0, id := 0 }

/-- The turns of the clock hand. -/
def turn : Nat → Shared → Option (Slot × Option File) × Shared
  | 0, s => (none, s)
  | turns + 1, s =>
    let i := s.hand
    let e := s.entries i
    let s := { s with hand := nextHand i }
    if e.refs ≠ 0 then turn turns s
    else if e.referenced then turn turns (s.setEntry i { e with referenced := false })
    else (some (i, e.owner), evict s i)

/-- A slot to fill, and the file whose reference went with what was in it. -/
def spare (s : Shared) : Option (Slot × Option File) × Shared :=
  match (List.finRange pagecacheMax).find? fun i => !(s.entries i).valid with
  | some i => (some (i, none), s)
  | none => turn (pagecacheMax * 2) s

/-! ## Calls -/

/-- Where a call is; `slot` is, on the side, the entry that the page it has a reference to is in. -/
inductive Point where
  | looking
  | allocating
  | reading (page : Nat)
  | inserting (page bytes : Nat)
  /-- With a page of its own to free, and the entry that was found filled. -/
  | dropping (page : Nat) (found : Option Slot)
  | answering (slot : Slot)
  /-- With the file of an evicted entry to release. -/
  | releasing (file : File) (slot : Slot) (page : Nat)
  /-- `pagecache_get` has returned the page, and it has not been put. -/
  | holding (slot : Slot) (page : Nat)
  | writingBack (back : Back)
  | forgetting
  | returned
  deriving DecidableEq, Repr

/-- With the entry filled; the file that went with what was in it is still to be released. -/
def Point.filled (slot : Slot) (page : Nat) : Option File → Point
  | some file => .releasing file slot page
  | none => .holding slot page

/-- With its own page freed. -/
def Point.dropped : Option Slot → Point
  | some slot => .answering slot
  | none => .returned

/-- With its reference given up, and perhaps the page to be written back. -/
def Point.gaveUp : Option Back → Point
  | some back => .writingBack back
  | none => .returned

structure Thread where
  file : File
  ops : FileOps
  offset : Nat
  started : Nat
  point : Point
  deriving DecidableEq, Repr

/-- What the holder of a page does with it. -/
inductive Use where
  | markShared
  | put
  deriving DecidableEq, Repr

/-- What a section meets: the page the allocator offers, 0 for none; whether the file's seek goes
well, and how much its read gives; and what the holder of a page does. -/
structure Around where
  offered : Nat
  seeks : Bool
  reads : Option Nat
  use : Use

/-- `refs++`, of an `unsigned`. -/
def Entry.hold (e : Entry) : Entry := { e with refs := (e.refs + 1) % u32Size }

/-- The entry that a page read in goes into. -/
def Entry.fill (e : Entry) (t : Thread) (page bytes : Nat) : Entry :=
  { e with
    fs := t.ops.table, id := t.file.id, offset := t.offset, page := page, refs := 1, valid := true
    bytes := bytes % u32Size
    owner := if t.ops.writeAt then some t.file else none
    referenced := true }

/-- The first hold of the lock in `pagecache_get`. -/
def look (s : Shared) (t : Thread) : Shared × Point :=
  match find s t.ops.table t.file.id t.offset with
  | some i =>
    (s.setEntry i { (s.entries i).hold with referenced := true }, .holding i (s.entries i).page)
  | none => (s, .allocating)

/-- `pmm_alloc_page`, and the page set to zeroes. -/
def allocate (offered : Nat) (s : Shared) : Shared × Point :=
  if offered = 0 ∨ s.out offered = true then (s, .returned)
  else
    ({ s with
      out := Function.update s.out offered true
      contents := Function.update s.contents offered none }, .reading offered)

/-- The file read into the page, with the fill lock held. -/
def readIn (a : Around) (s : Shared) (t : Thread) (page : Nat) : Shared × Point :=
  if t.ops.seek ∧ ¬a.seeks then (s, .dropping page none)
  else
    match t.ops.read, a.reads with
    | true, some n =>
      ({ s with
        contents :=
          Function.update s.contents page (some ⟨t.ops.table, t.file.id, t.offset, s.clock⟩) },
        .inserting page n)
    | _, _ => (s, .dropping page none)

/-- The second hold of the lock in `pagecache_get`. -/
def insertPage (s : Shared) (t : Thread) (page bytes : Nat) : Shared × Point :=
  match find s t.ops.table t.file.id t.offset with
  | some i => (s.setEntry i (s.entries i).hold, .dropping page (some i))
  | none =>
    match spare s with
    | (none, s) => (s, .dropping page none)
    | (some (i, evicted), s) =>
      (s.setEntry i ((s.entries i).fill t page bytes), .filled i page evicted)

/-- `refs--`, where there is one to give up. -/
def Entry.release (e : Entry) : Entry := if e.refs ≠ 0 then { e with refs := e.refs - 1 } else e

/-- The last reference has gone, and the page may hold something that the file does not. -/
def Entry.Unwritten (e : Entry) : Prop := e.refs = 0 ∧ e.dirty = true

instance (e : Entry) : Decidable e.Unwritten := inferInstanceAs (Decidable (_ ∧ _))

def Entry.clean (e : Entry) : Entry := if e.Unwritten then { e with dirty := false } else e

def Entry.back (e : Entry) : Option Back :=
  if e.Unwritten then e.owner.map (⟨·, e.offset, e.page, e.bytes⟩) else none

/-- The hold of the lock in `pagecache_put`. -/
def put (s : Shared) (page : Nat) : Shared × Point :=
  match if page = 0 then none else findPage s page with
  | none => (s, .returned)
  | some i =>
    let e := (s.entries i).release
    let e' := e.clean
    (if e'.refs = 0 ∧ e'.stale then
        (s.freePage e'.page).setEntry i { e' with valid := false, stale := false, page := 0 }
      else s.setEntry i e',
      .gaveUp e.back)

def markShared (s : Shared) (page : Nat) : Shared :=
  match if page = 0 then none else findPage s page with
  | none => s
  | some i =>
    if (s.entries i).owner.isSome then s.setEntry i { s.entries i with dirty := true } else s

/-- The sweep of `pagecache_forget`, over some of the slots. -/
def sweep (fs id : Nat) : List Slot → Shared → Shared
  | [], s => s
  | i :: rest, s =>
    let e := s.entries i
    if e.valid = false ∨ e.fs ≠ fs ∨ e.id ≠ id then sweep fs id rest s
    else if e.refs ≠ 0 then sweep fs id rest (s.setEntry i { e with stale := true })
    else
      sweep fs id rest
        ((s.freePage e.page).setEntry i { e with valid := false, page := 0, fs := 0, id := 0 })

def forget (s : Shared) (t : Thread) : Shared :=
  let s := sweep t.ops.table t.file.id (List.finRange pagecacheMax) s
  { s with forgets := ⟨t.ops.table, t.file.id, t.started, s.clock⟩ :: s.forgets }

def advance (a : Around) (s : Shared) (t : Thread) : Shared × Point :=
  match t.point with
  | .looking => look s t
  | .allocating => allocate a.offered s
  | .reading page => readIn a s t page
  | .inserting page bytes => insertPage s t page bytes
  | .dropping page found => (s.freePage page, .dropped found)
  | .answering i => (s, .holding i (s.entries i).page)
  | .releasing _ i page => (s, .holding i page)
  | .holding i page =>
    match a.use with
    | .markShared => (markShared s page, .holding i page)
    | .put => put s page
  | .writingBack back => (writeBack s back, .returned)
  | .forgetting => (forget s t, .returned)
  | .returned => (s, .returned)

def Shared.tick (s : Shared) : Shared := { s with clock := s.clock + 1 }

def act (a : Around) (s : Shared) (t : Thread) : Shared × Thread :=
  ((advance a s t).1.tick, { t with point := (advance a s t).2 })

inductive Call where
  | get (f : Option File) (offset : Nat)
  | forget (f : Option File)

/-- The file of a call and its operations, where its filesystem can name it. -/
def named : Option File → Option (File × FileOps)
  | none => none
  | some f =>
    match f.ops with
    | none => none
    | some ops => if ops.identity ∧ f.id ≠ 0 then some (f, ops) else none

/-- A call that went back at once. -/
def Thread.refused (started : Nat) : Thread :=
  ⟨⟨none, 0⟩, ⟨0, false, false, false, false⟩, 0, started, .returned⟩

def enter (c : Call) (s : Shared) : Shared × Thread :=
  (s.tick,
    match c with
    | .get f offset =>
      match named f with
      | some (file, ops) =>
        if offset % pageSize = 0 then ⟨file, ops, offset, s.clock, .looking⟩ else .refused s.clock
      | none => .refused s.clock
    | .forget f =>
      match named f with
      | some (file, ops) => ⟨file, ops, 0, s.clock, .forgetting⟩
      | none => .refused s.clock)

def pagecache : Lib.System Shared Thread Around Call Empty where
  act := act
  start := enter
  outside o _ := o.elim

def boot : Lib.World Shared Thread := ⟨.boot, []⟩

end ReconOS.Pagecache
