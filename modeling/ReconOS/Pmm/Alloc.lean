import Mathlib.Data.Finset.Card
import Mathlib.Data.Finset.Range
import Mathlib.Algebra.Order.Ring.Nat
import Mathlib.Logic.Function.Basic

/-! The page bitmap: one bit for each page, set while the page is in use, and how many are clear. -/
namespace ReconOS.Pmm

/-- The bitmap of `totalPages` pages, in whole bytes; where the last search stopped; and the pages
and addresses it speaks of. -/
structure State where
  bitmap : Nat → BitVec 8
  bitmapBytes : Nat
  totalPages : Nat
  freePages : Nat
  basePaddr : Nat
  bitmapBase : Nat
  searchHint : Nat

variable (p : State)

def bitTest (page : Nat) : Bool := (p.bitmap (page / 8)).getLsbD (page % 8)

def bitSet (page : Nat) : State :=
  { p with
    bitmap := Function.update p.bitmap (page / 8)
      (p.bitmap (page / 8) ||| 1#8 <<< (page % 8)) }

def bitClear (page : Nat) : State :=
  { p with
    bitmap := Function.update p.bitmap (page / 8)
      (p.bitmap (page / 8) &&& ~~~(1#8 <<< (page % 8))) }

/-- One page of `mark_used`. -/
def useBit (page : Nat) : State :=
  if bitTest p page then p else { bitSet p page with freePages := p.freePages - 1 }

/-- One page of `mark_free`. -/
def freeBit (page : Nat) : State :=
  if bitTest p page then { bitClear p page with freePages := p.freePages + 1 } else p

def markUsed (p : State) (page : Nat) : Nat → State
  | 0 => p
  | count + 1 => if page < p.totalPages then markUsed (useBit p page) (page + 1) count else p

def markFree (p : State) (page : Nat) : Nat → State
  | 0 => p
  | count + 1 => if page < p.totalPages then markFree (freeBit p page) (page + 1) count else p

/-! ## Bits -/

variable {p}

theorem bitTest_bitSet (page other : Nat) :
    bitTest (bitSet p page) other = (decide (other = page) || bitTest p other) := by
  simp only [bitTest, bitSet]
  by_cases byte : other / 8 = page / 8
  · rw [byte, Function.update_self]
    have : other % 8 < 8 := Nat.mod_lt _ (by decide)
    by_cases same : other = page
    · subst same
      simp [this]
    · have bits : other % 8 ≠ page % 8 := by omega
      simp [same, this]
      omega
  · have other_page : other ≠ page := fun same => byte (by rw [same])
    rw [Function.update_of_ne byte]
    simp [other_page]

theorem bitTest_bitClear (page other : Nat) :
    bitTest (bitClear p page) other = (!decide (other = page) && bitTest p other) := by
  simp only [bitTest, bitClear]
  by_cases byte : other / 8 = page / 8
  · rw [byte, Function.update_self]
    have : other % 8 < 8 := Nat.mod_lt _ (by decide)
    by_cases same : other = page
    · subst same
      simp [this]
    · have bits : other % 8 ≠ page % 8 := by omega
      simp [same, this]
      omega
  · have other_page : other ≠ page := fun same => byte (by rw [same])
    rw [Function.update_of_ne byte]
    simp [other_page]

/-! ## How many are clear -/

variable (p) in
def clearBits : Finset Nat := (Finset.range (8 * p.bitmapBytes)).filter fun page => bitTest p page = false

variable (p) in
/-- The count of free pages is the number of clear bits. -/
def Counted : Prop := p.freePages = (clearBits p).card

/-- `q` is `p` with other bits, and another count. -/
structure Remarked (p q : State) : Prop where
  bytes : q.bitmapBytes = p.bitmapBytes
  total : q.totalPages = p.totalPages
  base : q.basePaddr = p.basePaddr
  bitmapBase : q.bitmapBase = p.bitmapBase
  hint : q.searchHint = p.searchHint

theorem Remarked.refl (p : State) : Remarked p p := ⟨rfl, rfl, rfl, rfl, rfl⟩

theorem Remarked.trans {q r : State} (first : Remarked p q) (next : Remarked q r) : Remarked p r :=
  ⟨next.bytes.trans first.bytes, next.total.trans first.total, next.base.trans first.base,
    next.bitmapBase.trans first.bitmapBase, next.hint.trans first.hint⟩

theorem useBit_spec (page : Nat) (counted : Counted p) (inside : page < 8 * p.bitmapBytes) :
    Remarked p (useBit p page) ∧ Counted (useBit p page) ∧
      ∀ other, bitTest (useBit p page) other = (decide (other = page) || bitTest p other) := by
  unfold useBit
  cases used : bitTest p page with
  | true =>
    refine ⟨.refl p, counted, fun other => ?_⟩
    by_cases same : other = page
    · simp [same, used]
    · simp [same]
  | false =>
    refine ⟨⟨rfl, rfl, rfl, rfl, rfl⟩, ?_, bitTest_bitSet page⟩
    have was : page ∈ clearBits p := Finset.mem_filter.2 ⟨Finset.mem_range.2 inside, used⟩
    have now : clearBits { bitSet p page with freePages := p.freePages - 1 } = (clearBits p).erase page := by
      ext other
      have bit : bitTest { bitSet p page with freePages := p.freePages - 1 } other =
          (decide (other = page) || bitTest p other) := bitTest_bitSet page other
      simp only [clearBits, Finset.mem_filter, Finset.mem_range, bit, Finset.mem_erase]
      by_cases same : other = page <;> simp [same, bitSet]
    rw [Counted, if_neg (by simp), now, Finset.card_erase_of_mem was, ← counted]

theorem freeBit_spec (page : Nat) (counted : Counted p) (inside : page < 8 * p.bitmapBytes) :
    Remarked p (freeBit p page) ∧ Counted (freeBit p page) ∧
      ∀ other, bitTest (freeBit p page) other = (!decide (other = page) && bitTest p other) := by
  unfold freeBit
  cases used : bitTest p page with
  | false =>
    refine ⟨.refl p, counted, fun other => ?_⟩
    by_cases same : other = page
    · simp [same, used]
    · simp [same]
  | true =>
    refine ⟨⟨rfl, rfl, rfl, rfl, rfl⟩, ?_, bitTest_bitClear page⟩
    have was : page ∉ clearBits p := fun mem => by simp [clearBits, used] at mem
    have now : clearBits { bitClear p page with freePages := p.freePages + 1 } =
        insert page (clearBits p) := by
      ext other
      have bit : bitTest { bitClear p page with freePages := p.freePages + 1 } other =
          (!decide (other = page) && bitTest p other) := bitTest_bitClear page other
      simp only [clearBits, Finset.mem_filter, Finset.mem_range, bit, Finset.mem_insert]
      by_cases same : other = page <;> simp [same, bitClear, inside]
    rw [Counted, if_pos rfl, now, Finset.card_insert_of_notMem was, ← counted]

/-- The pages of a run that the bitmap has. -/
def InRun (p : State) (page count other : Nat) : Prop :=
  page ≤ other ∧ other < page + count ∧ other < p.totalPages

instance (p : State) (page count other : Nat) : Decidable (InRun p page count other) :=
  inferInstanceAs (Decidable (_ ∧ _ ∧ _))

/-- `total_pages` bits fit in the bitmap's bytes. -/
def Spans (p : State) : Prop := p.totalPages ≤ 8 * p.bitmapBytes

theorem Spans.remarked {q : State} (spans : Spans p) (same : Remarked p q) : Spans q := by
  rw [Spans, same.bytes, same.total]
  exact spans

theorem markUsed_spec (count : Nat) (page : Nat) (counted : Counted p) (spans : Spans p) :
    Remarked p (markUsed p page count) ∧ Counted (markUsed p page count) ∧
      ∀ other, bitTest (markUsed p page count) other = true ↔
        InRun p page count other ∨ bitTest p other = true := by
  induction count generalizing p page with
  | zero =>
    refine ⟨.refl p, counted, fun other => ?_⟩
    have none_ : ¬InRun p page 0 other := by simp only [InRun]; omega
    simp [markUsed, none_]
  | succ count ih =>
    unfold markUsed
    split
    · rename_i inside
      obtain ⟨same, counted', bits⟩ := useBit_spec page counted (Nat.lt_of_lt_of_le inside spans)
      obtain ⟨same', counted'', bits'⟩ := ih (page + 1) counted' (spans.remarked same)
      refine ⟨same.trans same', counted'', fun other => ?_⟩
      rw [bits', bits]
      simp only [InRun, same.total, Bool.or_eq_true, decide_eq_true_eq]
      rw [← or_assoc]
      refine or_congr_left ?_
      omega
    · refine ⟨.refl p, counted, fun other => ?_⟩
      have none_ : ¬InRun p page (count + 1) other := by simp only [InRun]; omega
      simp [none_]

theorem markFree_spec (count : Nat) (page : Nat) (counted : Counted p) (spans : Spans p) :
    Remarked p (markFree p page count) ∧ Counted (markFree p page count) ∧
      ∀ other, bitTest (markFree p page count) other = true ↔
        ¬InRun p page count other ∧ bitTest p other = true := by
  induction count generalizing p page with
  | zero =>
    refine ⟨.refl p, counted, fun other => ?_⟩
    have none_ : ¬InRun p page 0 other := by simp only [InRun]; omega
    simp [markFree, none_]
  | succ count ih =>
    unfold markFree
    split
    · rename_i inside
      obtain ⟨same, counted', bits⟩ := freeBit_spec page counted (Nat.lt_of_lt_of_le inside spans)
      obtain ⟨same', counted'', bits'⟩ := ih (page + 1) counted' (spans.remarked same)
      refine ⟨same.trans same', counted'', fun other => ?_⟩
      rw [bits', bits]
      simp only [InRun, same.total, Bool.and_eq_true, Bool.not_eq_true', decide_eq_false_iff_not]
      rw [← and_assoc]
      refine and_congr_left fun _ => ?_
      omega
    · refine ⟨.refl p, counted, fun other => ?_⟩
      have none_ : ¬InRun p page (count + 1) other := by simp only [InRun]; omega
      simp [none_]

end ReconOS.Pmm

/-! The physical page allocator: made from a memory map, then pages out and back. Addresses and
sizes are 64-bit numbers, and their sums wrap as those do. -/
namespace ReconOS.Pmm

/-- One more than the largest 64-bit number. -/
def u64Size : Nat := 0x10000000000000000
def pageSize : Nat := 4096

def pageAlignDown (v : Nat) : Nat := v / pageSize * pageSize
def pageAlignUp (v : Nat) : Nat := pageAlignDown ((v + pageSize - 1) % u64Size)

inductive MemKind where
  | usable | reserved | acpiReclaim | acpiNvs | bad | bootloader | kernel
  deriving DecidableEq, Repr

structure MemRegion where
  base : Nat
  size : Nat
  kind : MemKind
  deriving DecidableEq, Repr

/-- `r->base + r->size`. -/
def MemRegion.stop (r : MemRegion) : Nat := (r.base + r.size) % u64Size

def pageIndex (base addr : Nat) : Nat := (addr + u64Size - base) % u64Size / pageSize
def pageAddr (base index : Nat) : Nat := (base + index * pageSize) % u64Size

/-! ## From a memory map -/

/-- The regions the firmware says may be had. -/
def usable (map : List MemRegion) : List MemRegion := map.filter fun r => r.kind = .usable

def lowest (map : List MemRegion) : Nat :=
  (usable map).foldl (fun low r => if r.base < low then r.base else low) (u64Size - 1)

def highest (map : List MemRegion) : Nat :=
  (usable map).foldl (fun high r => if r.stop > high then r.stop else high) 0

/-- Where in a region the bitmap would go. -/
def placeIn (r : MemRegion) : Nat := if pageAlignUp r.base = 0 then pageSize else pageAlignUp r.base

/-- In the first usable region with room for it; 0 if there is none. -/
def placeBitmap (map : List MemRegion) (bytes : Nat) : Nat :=
  match (usable map).find? fun r => decide (r.stop > placeIn r ∧ r.stop - placeIn r ≥ bytes) with
  | some r => placeIn r
  | none => 0

def freeRegion (p : State) (r : MemRegion) : State :=
  let start := pageAlignUp r.base
  let stop := pageAlignDown r.stop
  if stop > start then markFree p (pageIndex p.basePaddr start) ((stop - start) / pageSize) else p

/-- Every page in use, before the usable ones are given back. -/
def blank (map : List MemRegion) : State :=
  let base := pageAlignDown (lowest map)
  let total := (pageAlignUp (highest map) + u64Size - base) % u64Size / pageSize
  { bitmap := fun _ => 255#8
    bitmapBytes := (total + 7) / 8
    totalPages := total
    freePages := 0
    basePaddr := base
    bitmapBase := placeBitmap map ((total + 7) / 8)
    searchHint := 0 }

/-- The bitmap's own pages, and the one at physical zero. -/
def reserve (p : State) : State :=
  let p := markUsed p (pageIndex p.basePaddr p.bitmapBase) (pageAlignUp p.bitmapBytes / pageSize)
  if p.basePaddr = 0 then markUsed p 0 1 else p

/-- `none` where the kernel panics. -/
def pmmInit (map : List MemRegion) : Option State :=
  if highest map = 0 then none
  else if (blank map).bitmapBase = 0 then none
  else some (reserve ((usable map).foldl freeRegion (blank map)))

/-! ## Out and back -/

variable (p : State)

/-- The pages still to scan, from `i` on, `run` clear ones being just behind: where the first run of
`count` is found to end. -/
def search (count : Nat) : Nat → Nat → Nat → Option Nat
  | 0, _, _ => none
  | left + 1, i, run =>
    if bitTest p i then
      if i + 1 ≥ p.totalPages then search count left 0 0 else search count left (i + 1) 0
    else if run + 1 = count then some i
    else if i + 1 ≥ p.totalPages then search count left 0 0
    else search count left (i + 1) (run + 1)

/-- The address of `count` pages, or 0. -/
def pmmAllocPages (count : Nat) : Nat × State :=
  if count = 0 ∨ count > p.totalPages then (0, p)
  else
    match search p count p.totalPages p.searchHint 0 with
    | none => (0, p)
    | some i =>
      (pageAddr p.basePaddr (i + 1 - count),
        { markUsed p (i + 1 - count) count with searchHint := (i + 1) % p.totalPages })

/-- The first free page of the `left` from `i` on that ends at or below the limit. -/
def searchBelow (limit : Nat) : Nat → Nat → Option Nat
  | 0, _ => none
  | left + 1, i =>
    if (pageAddr p.basePaddr i + pageSize) % u64Size > limit then none
    else if bitTest p i then searchBelow limit left (i + 1)
    else some i

def pmmAllocPageBelow (limit : Nat) : Nat × State :=
  match searchBelow p limit p.totalPages 0 with
  | none => (0, p)
  | some i => (pageAddr p.basePaddr i, markUsed p i 1)

/-- `none` where the kernel panics. -/
def pmmFreePages (page count : Nat) : Option State :=
  if page = 0 ∨ page % pageSize ≠ 0 then none
  else if page < p.basePaddr then none
  else if (pageIndex p.basePaddr page + count) % u64Size > p.totalPages then none
  else some (markFree p (pageIndex p.basePaddr page) count)

end ReconOS.Pmm
