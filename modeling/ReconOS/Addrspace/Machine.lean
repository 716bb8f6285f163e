import Mathlib.Logic.Function.Basic

/-! Address spaces: the regions a program was promised, the pages it has, and the fault handler,
the page cache and the swap store that give it pages. One call at a time. -/
namespace ReconOS.Addrspace

def pageSize : Nat := 0x1000
def u64Size : Nat := 0x10000000000000000
/-- Where an `i64` turns negative. -/
def i64Size : Nat := 0x8000000000000000
def asRegionsMax : Nat := 8
def vmWrite : Nat := 1

/-- `addr & ~(PAGE_SIZE - 1)`. -/
def pageOf (addr : Nat) : Nat := addr / pageSize * pageSize

/-- The bytes of one page. -/
abbrev Page := Nat → Nat

def zeroes : Page := fun _ => 0

/-! ## Files -/

/-- An open file. `identity` is 0 where its filesystem cannot name it, and `capacity` is as far as
its seek goes. -/
structure File where
  fs : Nat
  identity : Nat
  bytes : List Nat
  capacity : Nat
  writeAt : Bool
  held : bytes.length ≤ capacity
  bounded : capacity < i64Size

/-- The byte of a list of bytes, zero past its end. -/
def byteAt (bytes : List Nat) (pos : Nat) : Nat := (bytes[pos]?).getD 0

/-- `seek` from the start, of an offset that is made an `i64`. -/
def File.seek (f : File) (pos : Nat) : Bool := decide (pos < i64Size ∧ pos ≤ f.capacity)

/-- `read` at a position, over what was there. -/
def File.read (f : File) (pos want : Nat) (into : Page) : Page := fun j =>
  if j < min want (f.bytes.length - pos) then byteAt f.bytes (pos + j) else into j

/-! ## Spaces -/

/-- `struct as_region`. -/
structure Region where
  start : Nat
  stop : Nat
  flags : Nat
  file : Option File
  fileOffset : Nat
  fileLen : Nat
  shared : Bool

def Region.writable (r : Region) : Bool := r.flags.testBit vmWrite

def Region.Covers (r : Region) (addr : Nat) : Prop := r.start ≤ addr ∧ addr < r.stop

instance (r : Region) (addr : Nat) : Decidable (r.Covers addr) :=
  inferInstanceAs (Decidable (_ ∧ _))

/-- What the tables say of a page: a physical page and whether it may be written, or a swap slot. -/
inductive Entry where
  | absent
  | present (frame : Nat) (write : Bool)
  | swapped (slot : Nat)
  deriving DecidableEq, Repr

/-- A space, and its own half of the tables, by page address. Every caller reserves below
`USER_LIMIT`, where the tables are not shared. -/
structure Space where
  regions : List Region
  table : Nat → Entry

def Space.regionFor (s : Space) (addr : Nat) : Option Region :=
  s.regions.find? fun r => decide (r.Covers addr)

/-! ## The machine -/

/-- An entry of the page cache. -/
structure Cached where
  fs : Nat
  identity : Nat
  offset : Nat
  frame : Nat
  refs : Nat
  owner : Bool

/-- The swap store; a machine without one has no slots. -/
structure Swap where
  slots : Nat
  hint : Nat
  inUse : Nat → Bool
  disk : Nat → Page

/-- The spaces, which physical pages are out of the allocator, what the pages hold, the shared
page of zeroes, the page cache and the swap store. -/
structure Machine where
  spaces : Nat → Space
  out : Nat → Bool
  bytes : Nat → Page
  zeroPage : Nat
  cache : List Cached
  swap : Swap

namespace Machine

variable (m : Machine)

def entry (i page : Nat) : Entry := (m.spaces i).table page

def regionFor (i addr : Nat) : Option Region := (m.spaces i).regionFor addr

def setEntry (i page : Nat) (e : Entry) : Machine :=
  { m with
    spaces := Function.update m.spaces i
      ⟨(m.spaces i).regions, Function.update (m.spaces i).table page e⟩ }

def setRegions (i : Nat) (regions : List Region) : Machine :=
  { m with spaces := Function.update m.spaces i ⟨regions, (m.spaces i).table⟩ }

def setBytes (frame : Nat) (p : Page) : Machine :=
  { m with bytes := Function.update m.bytes frame p }

def setCache (cache : List Cached) : Machine := { m with cache := cache }

def setSwap (swap : Swap) : Machine := { m with swap := swap }

/-- `pmm_alloc_page`, for the page it would offer: 0 when there is none. -/
def allocPage (offered : Nat) : Option Machine :=
  if offered = 0 ∨ m.out offered = true then none
  else some { m with out := Function.update m.out offered true }

/-- `pmm_free_page`. -/
def freePage (frame : Nat) : Machine := { m with out := Function.update m.out frame false }

/-- `vm_map` of one page: it replaces whatever was there, if it can get the tables it needs. -/
def vmMap (i page frame : Nat) (write maps : Bool) : Option Machine :=
  if maps then some (m.setEntry i page (.present frame write)) else none

end Machine

/-- What a fault meets: the pages the allocator would offer, first to the page cache and then to
the handler; how the file answers, first the cache and then the handler; the cache entry that
would be taken when there is no free slot, or that there is none; whether the tables take the
page, and whether the swap store reads. -/
structure Around where
  cachePage : Nat
  page : Nat
  cacheReads : Bool
  reads : Bool
  victim : Option (Option Nat)
  maps : Bool
  swapReads : Bool

/-! ## The page cache -/

/-- The entries, with another count of references for the one that has a page. -/
def recount (frame : Nat) (count : Nat → Nat) (cache : List Cached) : List Cached :=
  cache.map fun e => if e.frame = frame then { e with refs := count e.refs } else e

namespace Machine

variable (m : Machine)

/-- `pagecache_owns`. -/
def cacheOwns (frame : Nat) : Bool := m.cache.any fun e => e.frame = frame

/-- `spare`: a free slot, or that of an entry nobody holds. -/
def spare (victim : Option (Option Nat)) : Option Machine :=
  match victim with
  | none => none
  | some none => some m
  | some (some k) =>
    match m.cache[k]? with
    | none => none
    | some e =>
      if e.refs = 0 then some ((m.freePage e.frame).setCache (m.cache.eraseIdx k)) else none

/-- `pagecache_get`: the page, or that there is none to be had. -/
def pagecacheGet (f : File) (offset : Nat) (a : Around) : Option Nat × Machine :=
  if offset % pageSize ≠ 0 ∨ f.identity = 0 then (none, m)
  else
    match m.cache.find? fun e => e.fs = f.fs ∧ e.identity = f.identity ∧ e.offset = offset with
    | some e =>
      (some e.frame, m.setCache (recount e.frame (· + 1) m.cache))
    | none =>
      match m.allocPage a.cachePage with
      | none => (none, m)
      | some m =>
        if f.seek offset = false ∨ a.cacheReads = false then
          (none, (m.setBytes a.cachePage zeroes).freePage a.cachePage)
        else
          let m := m.setBytes a.cachePage (f.read offset pageSize zeroes)
          match m.spare a.victim with
          | none => (none, m.freePage a.cachePage)
          | some m =>
            (some a.cachePage,
              m.setCache (⟨f.fs, f.identity, offset, a.cachePage, 1, f.writeAt⟩ :: m.cache))

/-- `pagecache_put`. -/
def pagecachePut (frame : Nat) : Machine := m.setCache (recount frame (· - 1) m.cache)

/-- What `pagecache_mark_shared` answers. -/
def cacheTakesWrites (frame : Nat) : Bool := m.cache.any fun e => e.frame = frame && e.owner

/-! ## The swap store -/

/-- The slot `swap_write_page` finds: one pass from the hint. -/
def freeSlot : Option Nat :=
  ((List.range m.swap.slots).map fun k => (m.swap.hint + k) % m.swap.slots).find? fun s =>
    !m.swap.inUse s

/-- `swap_write_page`: the slot, if there is one and the write goes well; a write that does not
leaves something in it. -/
def swapWritePage (p : Page) (writes : Bool) (torn : Page) : Option Nat × Machine :=
  match m.freeSlot with
  | none => (none, m)
  | some slot =>
    if writes then
      (some slot,
        m.setSwap
          { m.swap with
            hint := (slot + 1) % m.swap.slots
            inUse := Function.update m.swap.inUse slot true
            disk := Function.update m.swap.disk slot p })
    else
      (none,
        m.setSwap
          { m.swap with
            hint := (slot + 1) % m.swap.slots
            disk := Function.update m.swap.disk slot torn })

/-- `swap_read_page`. -/
def swapReadPage (slot : Nat) (reads : Bool) : Option Page :=
  if slot = 0 ∨ m.swap.slots ≤ slot ∨ m.swap.inUse slot = false ∨ reads = false then none
  else some (m.swap.disk slot)

/-- `swap_free`. -/
def swapFree (slot : Nat) : Machine :=
  if slot = 0 ∨ m.swap.slots ≤ slot then m
  else m.setSwap { m.swap with inUse := Function.update m.swap.inUse slot false }

end Machine

end ReconOS.Addrspace
