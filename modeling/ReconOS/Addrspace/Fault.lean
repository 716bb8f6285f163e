import ReconOS.Addrspace.Machine

/-! The calls of the address spaces: reserving, mapping a file, serving a fault, evicting. -/
namespace ReconOS.Addrspace

/-! ## Regions -/

/-- `(va + size + PAGE_SIZE - 1) & ~(PAGE_SIZE - 1)`. -/
def roundUp (va size : Nat) : Nat := pageOf ((va + size + pageSize - 1) % u64Size)

/-- What `addrspace_reserve` puts in the table. -/
def Region.reserved (va size flags : Nat) : Region :=
  ⟨pageOf va, roundUp va size, flags, none, 0, 0, false⟩

/-- What `addrspace_map_file` puts in the table. -/
def Region.mapped (va size flags : Nat) (f : File) (offset len : Nat) : Region :=
  ⟨pageOf va, roundUp va size, flags, some f, offset, len, false⟩

namespace Machine

variable (m : Machine)

/-- A region more, where there is room for one. -/
def addRegion (i : Nat) (r : Region) : Machine :=
  let regions := (m.spaces i).regions
  if asRegionsMax ≤ regions.length then m else m.setRegions i (regions ++ [r])

/-- `addrspace_reserve`. -/
def reserve (i va size flags : Nat) : Machine :=
  if size = 0 then m else m.addRegion i (.reserved va size flags)

/-- A region that `addrspace_reserve_more` would make longer. -/
def Continues (start flags : Nat) (r : Region) : Prop :=
  r.stop = start ∧ r.flags = flags ∧ r.file.isNone = true

instance (start flags : Nat) (r : Region) : Decidable (Continues start flags r) :=
  inferInstanceAs (Decidable (_ ∧ _))

/-- The regions with the first that goes on at `start` ending at `stop`, if there is one. -/
def extend (start stop flags : Nat) : List Region → Option (List Region)
  | [] => none
  | r :: rest =>
    if Continues start flags r then some ({ r with stop := stop } :: rest)
    else (extend start stop flags rest).map (r :: ·)

/-- `addrspace_reserve_more`. -/
def reserveMore (i va size flags : Nat) : Machine :=
  let start := pageOf va
  let stop := roundUp va size
  if size = 0 ∨ stop ≤ start then m
  else
    match extend start stop flags (m.spaces i).regions with
    | some regions => m.setRegions i regions
    | none => m.reserve i start (stop - start) flags

/-- `addrspace_map_file`. -/
def mapFile (i va size flags : Nat) (f : File) (offset len : Nat) : Machine :=
  if size = 0 then m else m.addRegion i (.mapped va size flags f offset len)

end Machine

/-! ## Faults -/

/-- `fill_from_file`: what the page then holds, if the file could be read. -/
def fillFromFile (r : Region) (f : File) (page : Nat) (reads : Bool) (into : Page) : Option Page :=
  let within := page - r.start
  if r.fileLen ≤ within then some into
  else
    let pos := (r.fileOffset + within) % u64Size
    if f.seek pos = false ∨ reads = false then none
    else some (f.read pos (min pageSize (r.fileLen - within)) into)

namespace Machine

variable (m : Machine)

/-- What `give_own_page` puts in a page: a copy, or what backs the region. -/
def ownContents (page : Nat) (r : Region) (replacing : Option Nat) (reads : Bool) : Option Page :=
  match replacing with
  | some frame => some (m.bytes frame)
  | none =>
    match r.file with
    | none => some zeroes
    | some f => fillFromFile r f page reads zeroes

/-- `give_own_page`. -/
def giveOwnPage (i page : Nat) (r : Region) (replacing : Option Nat) (a : Around) :
    Bool × Machine :=
  match m.allocPage a.page with
  | none => (false, m)
  | some m =>
    match m.ownContents page r replacing a.reads with
    | none => (false, (m.setBytes a.page zeroes).freePage a.page)
    | some p =>
      let m := m.setBytes a.page p
      match m.vmMap i page a.page r.writable a.maps with
      | none => (false, m.freePage a.page)
      | some m => (true, m)

/-- `evict_fault_in`. -/
def evictFaultIn (i page slot : Nat) (write : Bool) (a : Around) : Bool × Machine :=
  if slot = 0 then (false, m)
  else
    match m.allocPage a.page with
    | none => (false, m)
    | some m =>
      match m.swapReadPage slot a.swapReads with
      | none => (false, m.freePage a.page)
      | some p =>
        let m := m.setBytes a.page p
        match m.vmMap i page a.page write a.maps with
        | none => (false, m.freePage a.page)
        | some m => (true, m.swapFree slot)

/-- The page of the file that the cache has, mapped. -/
def mapCached (i page : Nat) (r : Region) (frame : Nat) (a : Around) : Bool × Machine :=
  if r.shared ∧ ¬m.cacheTakesWrites frame then (false, m.pagecachePut frame)
  else
    match m.vmMap i page frame (r.shared && r.writable) a.maps with
    | none => (false, m.pagecachePut frame)
    | some m => (true, m)

/-- A fault where the tables have nothing. -/
def faultAbsent (i page : Nat) (r : Region) (write : Bool) (a : Around) : Bool × Machine :=
  match r.file with
  | some f =>
    match m.pagecacheGet f ((r.fileOffset + (page - r.start)) % u64Size) a with
    | (some frame, m) => m.mapCached i page r frame a
    | (none, m) => m.giveOwnPage i page r none a
  | none =>
    if write then m.giveOwnPage i page r none a
    else
      match m.vmMap i page m.zeroPage false a.maps with
      | none => (false, m)
      | some m => (true, m)

/-- A fault where the tables have a page: a write to one that somebody else has too gets a copy. -/
def faultPresent (i page : Nat) (r : Region) (frame : Nat) (write : Bool) (a : Around) :
    Bool × Machine :=
  let cached := m.cacheOwns frame
  if write ∧ r.writable ∧ (frame = m.zeroPage ∨ cached) then
    match m.giveOwnPage i page r (some frame) a with
    | (false, m) => (false, m)
    | (true, m) => (true, if cached then m.pagecachePut frame else m)
  else (false, m)

/-- `vm_fault_user`: whether the access is to be tried again. -/
def vmFaultUser (i addr : Nat) (write : Bool) (a : Around) : Bool × Machine :=
  match m.regionFor i addr with
  | none => (false, m)
  | some r =>
    match m.entry i (pageOf addr) with
    | .absent => m.faultAbsent i (pageOf addr) r write a
    | .swapped slot => m.evictFaultIn i (pageOf addr) slot r.writable a
    | .present frame _ => m.faultPresent i (pageOf addr) r frame write a

end Machine

/-! ## Eviction -/

/-- What eviction meets at a page: whether it was touched, how the write to the store goes and what
a failed one leaves, and whether the entry can be replaced. -/
structure Cold where
  touched : Bool
  writes : Bool
  torn : Page
  replaces : Bool

/-- What came of a page that eviction looked at. -/
inductive Evicted where
  | left
  | freed
  | stopped
  deriving DecidableEq, Repr

namespace Machine

variable (m : Machine)

/-- The pages of a space's regions, in the order eviction looks at them. -/
def regionPages (i : Nat) : List Nat :=
  (m.spaces i).regions.flatMap fun r =>
    (List.range ((r.stop - r.start) / pageSize)).map fun k => r.start + k * pageSize

/-- One turn of the loop in `evict_pages`. -/
def evictPage (i va : Nat) (c : Cold) : Evicted × Machine :=
  match m.entry i va with
  | .absent | .swapped _ => (.left, m)
  | .present frame _ =>
    if frame = m.zeroPage ∨ c.touched then (.left, m)
    else
      match m.swapWritePage (m.bytes frame) c.writes c.torn with
      | (none, m) => (.stopped, m)
      | (some slot, m) =>
        if slot = 0 ∨ c.replaces = false then (.left, m.swapFree slot)
        else (.freed, (m.setEntry i va (.swapped slot)).freePage frame)

/-- The loop in `evict_pages`, with `want` pages still to free. -/
def evictLoop (i : Nat) (cold : Nat → Cold) : List Nat → Nat → Machine → Machine
  | [], _, m => m
  | _, 0, m => m
  | va :: rest, want + 1, m =>
    match m.evictPage i va (cold va) with
    | (.left, m) => evictLoop i cold rest (want + 1) m
    | (.freed, m) => evictLoop i cold rest want m
    | (.stopped, m) => m

/-- `evict_pages`, of the space that is loaded. -/
def evictPages (i want : Nat) (cold : Nat → Cold) : Machine :=
  if want = 0 ∨ m.swap.slots = 0 then m else evictLoop i cold (m.regionPages i) want m

end Machine

/-! ## Runs -/

/-- What happens to the spaces: a program is promised memory, touches what it may not yet, writes,
or loses pages to the store. -/
inductive Move where
  | reserve (i va size flags : Nat)
  | reserveMore (i va size flags : Nat)
  | mapFile (i va size flags : Nat) (f : File) (offset len : Nat)
  | fault (i addr : Nat) (write : Bool) (a : Around)
  | write (i addr byte : Nat)
  | evict (i want : Nat) (cold : Nat → Cold)

namespace Machine

variable (m : Machine)

/-- The byte a program reads, if the access does not trap. -/
def read (i addr : Nat) : Option Nat :=
  match m.entry i (pageOf addr) with
  | .present frame _ => some (m.bytes frame (addr % pageSize))
  | .absent | .swapped _ => none

/-- Where a program's write lands, if it does not trap. -/
def writes (i addr : Nat) : Option Nat :=
  match m.entry i (pageOf addr) with
  | .present frame true => some frame
  | .present _ false | .absent | .swapped _ => none

def write (i addr byte : Nat) : Machine :=
  match m.writes i addr with
  | some frame => m.setBytes frame (Function.update (m.bytes frame) (addr % pageSize) byte)
  | none => m

def step : Move → Machine
  | .reserve i va size flags => m.reserve i va size flags
  | .reserveMore i va size flags => m.reserveMore i va size flags
  | .mapFile i va size flags f offset len => m.mapFile i va size flags f offset len
  | .fault i addr write a => (m.vmFaultUser i addr write a).2
  | .write i addr byte => m.write i addr byte
  | .evict i want cold => m.evictPages i want cold

end Machine

/-- The byte each program last wrote at each address. -/
abbrev Written := Nat → Nat → Option Nat

/-- A machine, and beside it what the programs have written. -/
structure World where
  machine : Machine
  last : Written

/-- A write that lands is the last there. -/
def Written.after (last : Written) (m : Machine) : Move → Written
  | .write i addr byte =>
    match m.writes i addr with
    | some _ => Function.update last i (Function.update (last i) addr (some byte))
    | none => last
  | _ => last

namespace World

def step (w : World) (move : Move) : World := ⟨w.machine.step move, w.last.after w.machine move⟩

def play (w : World) (moves : List Move) : World := moves.foldl step w

end World

/-- A machine on which `addrspace_init` has been and no space has anything yet, with a swap store
just attached, or none. -/
structure Machine.Booted (m : Machine) : Prop where
  spaces : ∀ i, m.spaces i = ⟨[], fun _ => .absent⟩
  zero : m.out m.zeroPage = true
  zeroes : ∀ j, m.bytes m.zeroPage j = 0
  cache : m.cache = []
  slots : ∀ slot, m.swap.inUse slot = decide (slot = 0)

/-- A booted machine, on which nothing has been written. -/
def World.start (m : Machine) : World := ⟨m, fun _ _ => none⟩

end ReconOS.Addrspace
