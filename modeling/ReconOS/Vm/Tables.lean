import ReconOS.Lib.Radix

/-! The page tables of x86_64, and what a processor reads in them. -/
namespace ReconOS.Vm

open ReconOS.Lib

/-! ## Entries -/

def pageSize : Nat := 0x1000
def size2m : Nat := 0x200000
def size1g : Nat := 0x40000000
def userLimit : Nat := 0x800000000000

def ptePresent : Nat := 0x1
def pteWrite : Nat := 0x2
def pteUser : Nat := 0x4
def ptePwt : Nat := 0x8
def ptePcd : Nat := 0x10
def ptePatSmall : Nat := 0x80
def ptePatLarge : Nat := 0x1000
def pteLarge : Nat := 0x80
def pteGlobal : Nat := 0x100
def pteNx : Nat := 0x8000000000000000
def pteAddrMask : Nat := 0x000FFFFFFFFFF000

/-- Of an entry that is not present. -/
def pteSwapped : Nat := 0x2

def i4 (va : Nat) : Nat := va >>> 39 &&& 0x1FF
def i3 (va : Nat) : Nat := va >>> 30 &&& 0x1FF
def i2 (va : Nat) : Nat := va >>> 21 &&& 0x1FF
def i1 (va : Nat) : Nat := va >>> 12 &&& 0x1FF

/-- What the processor can do. -/
structure Caps where
  noExecute : Bool
  page1g : Bool
  page2m : Bool

/-- `VM_WRITE` to `VM_WRITE_COMBINE`. -/
structure Flags where
  write : Bool
  exec : Bool
  user : Bool
  global : Bool
  device : Bool
  combine : Bool

def leafBits (caps : Caps) (flags : Flags) (large : Bool) : Nat :=
  ptePresent ||| (if flags.write then pteWrite else 0) |||
    (if !flags.exec && caps.noExecute then pteNx else 0) |||
    (if flags.user then pteUser else if flags.global then pteGlobal else 0) |||
    (if flags.device then ptePcd ||| ptePwt
      else if flags.combine then if large then ptePatLarge else ptePatSmall
      else 0) |||
    (if large then pteLarge else 0)

/-! ## Tables -/

/-- The tables by the page each is in, the pages that the allocator has left, the kernel's root and
that of the space each processor runs in. -/
structure Tables where
  mem : Radix.Store Nat Nat
  free : List Nat
  kernel : Nat
  active : Nat → Option Nat

namespace Tables

variable (s : Tables)

def setEntry (table index entry : Nat) : Tables := { s with mem := s.mem.set table index entry }

def allocTable : Option (Nat × Tables) :=
  match s.free with
  | [] => none
  | p :: rest => some (p, { s with mem := s.mem.clear p 0, free := rest })

def nextLevel (table index : Nat) (create : Bool) : Option Nat × Tables :=
  let entry := s.mem table index
  if entry &&& ptePresent = 0 then
    if create then
      match s.allocTable with
      | none => (none, s)
      | some (fresh, s) =>
        (some fresh, s.setEntry table index
          (fresh &&& pteAddrMask ||| ptePresent ||| pteWrite ||| pteUser))
    else (none, s)
  else if entry &&& pteLarge ≠ 0 then (none, s)
  else (some (entry &&& pteAddrMask), s)

def rootFor (cpu va : Nat) : Nat :=
  if va ≥ userLimit then s.kernel else (s.active cpu).getD s.kernel

/-! ## `vm_map` -/

/-- One turn of the loop: how much it mapped, if it could. -/
def mapTurn (caps : Caps) (flags : Flags) (cpu va pa size : Nat) : Option Nat × Tables :=
  match s.nextLevel (s.rootFor cpu va) (i4 va) true with
  | (none, s) => (none, s)
  | (some pdpt, s) =>
    if caps.page1g = true ∧ size ≥ size1g ∧ (va ||| pa) &&& (size1g - 1) = 0 then
      (some size1g, s.setEntry pdpt (i3 va) (pa &&& pteAddrMask ||| leafBits caps flags true))
    else
      match s.nextLevel pdpt (i3 va) true with
      | (none, s) => (none, s)
      | (some pd, s) =>
        if caps.page2m = true ∧ size ≥ size2m ∧ (va ||| pa) &&& (size2m - 1) = 0 then
          (some size2m, s.setEntry pd (i2 va) (pa &&& pteAddrMask ||| leafBits caps flags true))
        else
          match s.nextLevel pd (i2 va) true with
          | (none, s) => (none, s)
          | (some pt, s) =>
            (some pageSize,
              s.setEntry pt (i1 va) (pa &&& pteAddrMask ||| leafBits caps flags false))

/-- The loop, in so many turns at most. -/
def mapLoop (caps : Caps) (flags : Flags) (cpu : Nat) : Nat → Tables → Nat → Nat → Nat →
    Bool × Tables
  | 0, s, _, _, _ => (true, s)
  | turns + 1, s, va, pa, size =>
    if size = 0 then (true, s)
    else
      match s.mapTurn caps flags cpu va pa size with
      | (none, s) => (false, s)
      | (some span, s) => mapLoop caps flags cpu turns s (va + span) (pa + span) (size - span)

/-- Nothing where it panics. -/
def vmMap (caps : Caps) (flags : Flags) (cpu va pa size : Nat) : Option (Bool × Tables) :=
  if (va ||| pa ||| size) &&& (pageSize - 1) ≠ 0 then none
  else some (mapLoop caps flags cpu (size / pageSize) s va pa size)

/-! ## `vm_unmap` -/

/-- One turn of the loop: how far it went, if it did not refuse. -/
def unmapTurn (cpu va size : Nat) : Option Nat × Tables :=
  match (s.nextLevel (s.rootFor cpu va) (i4 va) false).1 with
  | none => (some pageSize, s)
  | some pdpt =>
    if s.mem pdpt (i3 va) &&& ptePresent ≠ 0 ∧ s.mem pdpt (i3 va) &&& pteLarge ≠ 0 then
      if size < size1g ∨ va &&& (size1g - 1) ≠ 0 then (none, s)
      else (some size1g, s.setEntry pdpt (i3 va) 0)
    else
      match (s.nextLevel pdpt (i3 va) false).1 with
      | none => (some pageSize, s)
      | some pd =>
        if s.mem pd (i2 va) &&& ptePresent ≠ 0 ∧ s.mem pd (i2 va) &&& pteLarge ≠ 0 then
          if size < size2m ∨ va &&& (size2m - 1) ≠ 0 then (none, s)
          else (some size2m, s.setEntry pd (i2 va) 0)
        else
          match (s.nextLevel pd (i2 va) false).1 with
          | none => (some pageSize, s)
          | some pt =>
            if s.mem pt (i1 va) &&& ptePresent ≠ 0 then (some pageSize, s.setEntry pt (i1 va) 0)
            else (some pageSize, s)

def unmapLoop (cpu : Nat) : Nat → Tables → Nat → Nat → Bool × Tables
  | 0, s, _, _ => (true, s)
  | turns + 1, s, va, size =>
    if size = 0 then (true, s)
    else
      match s.unmapTurn cpu va size with
      | (none, s) => (false, s)
      | (some span, s) => unmapLoop cpu turns s (va + span) (size - span)

def vmUnmap (cpu va size : Nat) : Option (Bool × Tables) :=
  if (va ||| size) &&& (pageSize - 1) ≠ 0 then none
  else some (unmapLoop cpu (size / pageSize) s va size)

/-! ## Looking up, and swapping out -/

def vmLookup (cpu va : Nat) : Nat :=
  match (s.nextLevel (s.rootFor cpu va) (i4 va) false).1 with
  | none => 0
  | some pdpt =>
    if s.mem pdpt (i3 va) &&& pteLarge ≠ 0 then
      (s.mem pdpt (i3 va) &&& pteAddrMask) + (va &&& (size1g - 1))
    else
      match (s.nextLevel pdpt (i3 va) false).1 with
      | none => 0
      | some pd =>
        if s.mem pd (i2 va) &&& pteLarge ≠ 0 then
          (s.mem pd (i2 va) &&& pteAddrMask) + (va &&& (size2m - 1))
        else
          match (s.nextLevel pd (i2 va) false).1 with
          | none => 0
          | some pt =>
            if s.mem pt (i1 va) &&& ptePresent = 0 then 0
            else (s.mem pt (i1 va) &&& pteAddrMask) + (va &&& (pageSize - 1))

/-- `leaf_entry_no_present`. -/
def leafEntry (cpu va : Nat) : Option (Nat × Nat) :=
  match (s.nextLevel (s.rootFor cpu va) (i4 va) false).1 with
  | none => none
  | some pdpt =>
    if s.mem pdpt (i3 va) &&& pteLarge ≠ 0 then none
    else
      match (s.nextLevel pdpt (i3 va) false).1 with
      | none => none
      | some pd =>
        if s.mem pd (i2 va) &&& pteLarge ≠ 0 then none
        else
          match (s.nextLevel pd (i2 va) false).1 with
          | none => none
          | some pt => some (pt, i1 va)

def vmSwapOut (cpu va slot : Nat) : Bool × Tables :=
  match s.leafEntry cpu (va / pageSize * pageSize) with
  | none => (false, s)
  | some (pt, index) =>
    if s.mem pt index &&& ptePresent = 0 ∨ slot = 0 then (false, s)
    else (true, s.setEntry pt index (slot <<< 12 ||| pteSwapped))

def vmSwapSlot (cpu va : Nat) : Nat :=
  match s.leafEntry cpu (va / pageSize * pageSize) with
  | none => 0
  | some (pt, index) =>
    if s.mem pt index &&& ptePresent ≠ 0 then 0
    else if s.mem pt index &&& pteSwapped = 0 then 0
    else s.mem pt index >>> 12 % 0x100000000

/-! ## Spaces -/

def asNewRoot : Option (Nat × Tables) :=
  match s.allocTable with
  | none => none
  | some (root, s) =>
    some (root, { s with
      mem := fun p i => if p = root ∧ 256 ≤ i ∧ i < 512 then s.mem s.kernel i else s.mem p i })

def asActivate (cpu : Nat) (root : Option Nat) : Tables :=
  { s with active := fun c => if c = cpu then root else s.active c }

/-- What is given back, a table to the page allocator and a page to `addrspace_release_page`. -/
inductive Freed where
  | table (page : Nat)
  | leaf (page : Nat)
  deriving DecidableEq, Repr

def Freed.tables : List Freed → List Nat
  | [] => []
  | .table p :: rest => p :: tables rest
  | .leaf _ :: rest => tables rest

/-- `free_lower_tables`: what it gives back, in order. -/
def freeLowerTables (mem : Radix.Store Nat Nat) : (level table : Nat) → List Freed
  | 0, _ => []
  | below + 1, table =>
    (List.range (if below + 1 = 4 then 256 else 512)).flatMap fun i =>
      let e := mem table i
      if e &&& ptePresent = 0 then []
      else if below + 1 < 4 ∧ e &&& pteLarge ≠ 0 then []
      else if below + 1 > 1 then
        freeLowerTables mem below (e &&& pteAddrMask) ++ [.table (e &&& pteAddrMask)]
      else [.leaf (e &&& pteAddrMask)]

def asFreeRoot (root : Nat) : List Freed × Tables :=
  if root = 0 then ([], s)
  else
    let freed := freeLowerTables s.mem 4 root ++ [.table root]
    (freed, { s with free := Freed.tables freed ++ s.free })

end Tables

/-! ## What the processor reads -/

/-- The table that an entry points at. -/
def target (entry : Nat) : Option Nat :=
  if entry &&& ptePresent = 0 ∨ entry &&& pteLarge ≠ 0 then none else some (entry &&& pteAddrMask)

def path (va : Nat) : List Nat := [i4 va, i3 va, i2 va, i1 va]

/-- What a page is mapped to. The kind of memory is a place in the page attribute table. -/
structure Mapping where
  addr : Nat
  write : Bool
  user : Bool
  exec : Bool
  global : Bool
  kind : Nat
  deriving DecidableEq, Repr

/-- How much the last of so many entries maps. -/
def span : Nat → Nat
  | 2 => size1g
  | 3 => size2m
  | _ => pageSize

/-- The strictest of the entries decides for writing and for the user, and any of them that it is
not executed. -/
def mapping (words : List Nat) (va : Nat) : Mapping :=
  let leaf := words.getLastD 0
  let pat := if words.length = 4 then ptePatSmall else ptePatLarge
  { addr := (leaf &&& pteAddrMask) / span words.length * span words.length +
      va % span words.length
    write := words.all fun w => w &&& pteWrite ≠ 0
    user := words.all fun w => w &&& pteUser ≠ 0
    exec := words.all fun w => w &&& pteNx = 0
    global := leaf &&& pteGlobal ≠ 0
    kind := (if leaf &&& pat ≠ 0 then 4 else 0) + (if leaf &&& ptePcd ≠ 0 then 2 else 0) +
      (if leaf &&& ptePwt ≠ 0 then 1 else 0) }

/-- What is at an address: nothing, memory, or what was swapped out. -/
inductive Cell where
  | absent
  | mapped (to_ : Mapping)
  | swapped (slot : Nat)
  deriving DecidableEq, Repr

def cell (words : List Nat) (va : Nat) : Cell :=
  let leaf := words.getLastD 0
  if leaf &&& ptePresent ≠ 0 then .mapped (mapping words va)
  else if words.length = 4 ∧ leaf &&& pteSwapped ≠ 0 then .swapped (leaf >>> 12 % 0x100000000)
  else .absent

/-- What is at an address of a space. -/
def Tables.view (s : Tables) (root va : Nat) : Cell :=
  cell (Radix.walk target s.mem root (path va)) va

/-- What a mapping is asked to be. -/
def Flags.mapping (caps : Caps) (flags : Flags) (addr : Nat) : Mapping where
  addr := addr
  write := flags.write
  user := flags.user
  exec := flags.exec || !caps.noExecute
  global := flags.global && !flags.user
  kind := if flags.device then 3 else if flags.combine then 4 else 0

/-! What the bits of an entry and of an address are. -/

/-! ## Addresses -/

/-- A page's address that an entry has room for. -/
structure Frame (p : Nat) : Prop where
  aligned : p % pageSize = 0
  small : p < 0x10000000000000

theorem Frame.and_mask {p : Nat} (frame : Frame p) : p &&& pteAddrMask = p := by
  obtain ⟨aligned, small⟩ := frame
  unfold pageSize at aligned
  have parts : p = (p / 0x1000) <<< 12 := by
    rw [Nat.shiftLeft_eq]
    exact (Nat.div_mul_cancel (Nat.dvd_of_mod_eq_zero aligned)).symm
  have mask : pteAddrMask = 0xFFFFFFFFFF <<< 12 := by decide
  have low : p / 0x1000 &&& 0xFFFFFFFFFF = p / 0x1000 % 0x10000000000 :=
    Nat.and_two_pow_sub_one_eq_mod _ 40
  rw [parts, mask, ← Nat.shiftLeft_and_distrib, low, Nat.mod_eq_of_lt (by omega)]

theorem i4_eq (va : Nat) : i4 va = va / 0x8000000000 % 512 := by
  rw [i4, Nat.shiftRight_eq_div_pow]
  exact Nat.and_two_pow_sub_one_eq_mod _ 9

theorem i3_eq (va : Nat) : i3 va = va / size1g % 512 := by
  rw [i3, Nat.shiftRight_eq_div_pow]
  exact Nat.and_two_pow_sub_one_eq_mod _ 9

theorem i2_eq (va : Nat) : i2 va = va / size2m % 512 := by
  rw [i2, Nat.shiftRight_eq_div_pow]
  exact Nat.and_two_pow_sub_one_eq_mod _ 9

theorem i1_eq (va : Nat) : i1 va = va / pageSize % 512 := by
  rw [i1, Nat.shiftRight_eq_div_pow]
  exact Nat.and_two_pow_sub_one_eq_mod _ 9

/-- Two numbers that are both multiples, as the code asks. -/
theorem or_low (n : Nat) {x y : Nat} :
    (x ||| y) &&& (1 <<< n - 1) = 0 ↔ x % (1 <<< n) = 0 ∧ y % (1 <<< n) = 0 := by
  rw [Nat.one_shiftLeft, Nat.and_two_pow_sub_one_eq_mod, Nat.or_mod_two_pow, Nat.or_eq_zero_iff]

theorem low1g (va : Nat) : va &&& (size1g - 1) = va % size1g := Nat.and_two_pow_sub_one_eq_mod va 30

theorem low2m (va : Nat) : va &&& (size2m - 1) = va % size2m := Nat.and_two_pow_sub_one_eq_mod va 21

theorem low4k (va : Nat) : va &&& (pageSize - 1) = va % pageSize :=
  Nat.and_two_pow_sub_one_eq_mod va 12

/-- An address that the processor accepts. -/
def Canonical (va : Nat) : Prop :=
  va < userLimit ∨ 0xFFFF800000000000 ≤ va ∧ va < 0x10000000000000000

variable {v va : Nat}

/-- Which of the pages of one size, and which page of the next size in it. -/
theorem div_split {a b k : Nat} :
    (a / (k * 512) = b / (k * 512) ∧ a / k % 512 = b / k % 512) ↔ a / k = b / k := by
  rw [← Nat.div_div_eq_div_mul, ← Nat.div_div_eq_div_mul]
  constructor
  · rintro ⟨high, low⟩
    rw [← Nat.div_add_mod (a / k) 512, high, low, Nat.div_add_mod]
  · intro same
    rw [same]
    exact ⟨rfl, rfl⟩

theorem page512g_eq (canonical : Canonical v) (canonical' : Canonical va) :
    i4 v = i4 va ↔ v / (size1g * 512) = va / (size1g * 512) := by
  rw [i4_eq, i4_eq]
  unfold Canonical userLimit at canonical canonical'
  unfold size1g
  omega

theorem page1g_eq (canonical : Canonical v) (canonical' : Canonical va) :
    (i4 v = i4 va ∧ i3 v = i3 va) ↔ v / size1g = va / size1g := by
  rw [page512g_eq canonical canonical', i3_eq, i3_eq]
  exact div_split (k := size1g)

theorem page2m_eq (canonical : Canonical v) (canonical' : Canonical va) :
    (i4 v = i4 va ∧ i3 v = i3 va ∧ i2 v = i2 va) ↔ v / size2m = va / size2m := by
  rw [← and_assoc, page1g_eq canonical canonical', i2_eq, i2_eq]
  exact div_split (k := size2m)

theorem page_eq (canonical : Canonical v) (canonical' : Canonical va) :
    (i4 v = i4 va ∧ i3 v = i3 va ∧ i2 v = i2 va ∧ i1 v = i1 va) ↔
      v / pageSize = va / pageSize := by
  rw [← and_assoc (b := i3 v = i3 va), ← and_assoc, and_assoc (b := i3 v = i3 va),
    page2m_eq canonical canonical', i1_eq, i1_eq]
  exact div_split (k := pageSize)

/-! ## Entries -/

/-- The bits of an entry beside those of the address are those it was given. -/
theorem or_and {p bits mask : Nat} (apart : pteAddrMask &&& mask = 0) :
    (p &&& pteAddrMask ||| bits) &&& mask = bits &&& mask := by
  rw [Nat.and_or_distrib_right, Nat.and_assoc, apart, Nat.and_zero, Nat.zero_or]

/-- An entry that points at a table, and leaves everything to the entries below. -/
def tableEntry (p : Nat) : Nat := p &&& pteAddrMask ||| ptePresent ||| pteWrite ||| pteUser

theorem tableEntry_and {p mask : Nat} (apart : pteAddrMask &&& mask = 0) :
    tableEntry p &&& mask = 0x7 &&& mask := by
  rw [tableEntry, Nat.or_assoc, Nat.or_assoc]
  exact or_and apart

theorem target_tableEntry {p : Nat} (frame : Frame p) : target (tableEntry p) = some p := by
  have addr : tableEntry p &&& pteAddrMask = p := by
    rw [tableEntry, Nat.or_assoc, Nat.or_assoc, Nat.and_or_distrib_right, frame.and_mask,
      frame.and_mask]
    exact Nat.or_zero p
  rw [target, tableEntry_and (by decide), tableEntry_and (by decide), addr]
  exact if_neg (by decide)

theorem target_zero : target 0 = none := rfl

section

variable (caps : Caps) (flags : Flags) (large : Bool)

theorem leafBits_present : leafBits caps flags large &&& ptePresent ≠ 0 := by
  obtain ⟨noExecute, page1g, page2m⟩ := caps
  obtain ⟨write, exec, user, global, device, combine⟩ := flags
  revert noExecute page1g page2m write exec user global device combine large
  decide +kernel

theorem leafBits_large : leafBits caps flags true &&& pteLarge ≠ 0 := by
  obtain ⟨noExecute, page1g, page2m⟩ := caps
  obtain ⟨write, exec, user, global, device, combine⟩ := flags
  revert noExecute page1g page2m write exec user global device combine
  decide +kernel

/-- A large page's place in the attribute table takes a bit of its address. -/
theorem leafBits_addr : leafBits caps flags large &&& pteAddrMask =
    if leafBits caps flags large &&& ptePatLarge ≠ 0 then ptePatLarge else 0 := by
  obtain ⟨noExecute, page1g, page2m⟩ := caps
  obtain ⟨write, exec, user, global, device, combine⟩ := flags
  revert noExecute page1g page2m write exec user global device combine large
  decide +kernel

theorem leafBits_small : leafBits caps flags false &&& ptePatLarge = 0 := by
  obtain ⟨noExecute, page1g, page2m⟩ := caps
  obtain ⟨write, exec, user, global, device, combine⟩ := flags
  revert noExecute page1g page2m write exec user global device combine
  decide +kernel

/-- How a leaf's bits read, and which bit the place in the attribute table takes. -/
theorem leafBits_reads : decide (leafBits caps flags large &&& pteWrite ≠ 0) = flags.write ∧
    decide (leafBits caps flags large &&& pteUser ≠ 0) = flags.user ∧
    decide (leafBits caps flags large &&& pteNx = 0) = (flags.exec || !caps.noExecute) ∧
    decide (leafBits caps flags large &&& pteGlobal ≠ 0) = (flags.global && !flags.user) ∧
    ((if leafBits caps flags large &&& (if large then ptePatLarge else ptePatSmall) ≠ 0 then 4
        else 0) + (if leafBits caps flags large &&& ptePcd ≠ 0 then 2 else 0) +
      (if leafBits caps flags large &&& ptePwt ≠ 0 then 1 else 0)) =
        if flags.device then 3 else if flags.combine then 4 else 0 := by
  obtain ⟨noExecute, page1g, page2m⟩ := caps
  obtain ⟨write, exec, user, global, device, combine⟩ := flags
  revert noExecute page1g page2m write exec user global device combine large
  decide +kernel

end

theorem mask_low (w : Nat) : (w &&& pteAddrMask) % pageSize = 0 := by
  have low : (w &&& pteAddrMask) % 0x1000 = w % 0x1000 &&& pteAddrMask % 0x1000 :=
    Nat.and_mod_two_pow (n := 12)
  exact low.trans (Nat.and_zero _)

/-- The bit that the attribute table takes is none of a large page's address. -/
theorem coarse_and {pa : Nat} (coarse : pa % size2m = 0) : pa &&& ptePatLarge = 0 := by
  unfold size2m at coarse
  have low : (pa &&& ptePatLarge) % 0x2000 = pa % 0x2000 &&& ptePatLarge % 0x2000 :=
    Nat.and_mod_two_pow (n := 13)
  have less : pa &&& ptePatLarge ≤ ptePatLarge := Nat.and_le_right
  have small : pa &&& ptePatLarge < 0x2000 := Nat.lt_of_le_of_lt less (by decide)
  rw [Nat.mod_eq_of_lt small, show pa % 0x2000 = 0 by omega, Nat.zero_and] at low
  exact low

theorem coarse_or {pa : Nat} (coarse : pa % size2m = 0) :
    pa ||| ptePatLarge = pa + ptePatLarge := by
  have parts : pa = 0x200000 * (pa / 0x200000) := by
    unfold size2m at coarse
    omega
  have apart : 0x200000 * (pa / 0x200000) + ptePatLarge =
      0x200000 * (pa / 0x200000) ||| ptePatLarge :=
    Nat.two_pow_add_eq_or_of_lt (i := 21) (by decide) _
  rw [← parts] at apart
  exact apart.symm

end ReconOS.Vm
