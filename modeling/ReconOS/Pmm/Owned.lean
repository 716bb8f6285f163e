import ReconOS.Pmm.Alloc

/-! Whose pages are whose: from a memory map through any calls. -/
namespace ReconOS.Pmm

/-! ## Calls -/

/-- The allocator, the calls made, and the pages that are out, each with the call it came from. -/
structure Owners where
  pmm : State
  calls : Nat
  ledger : List (Nat × Nat)

inductive Call where
  | alloc (count : Nat)
  | below (limit : Nat)
  | free (page count : Nat)
  deriving DecidableEq, Repr

def pagesOf (page count : Nat) : List Nat := (List.range count).map fun k => page + k * pageSize

/-- What an allocation of `count` pages leaves; an answer of 0 is none. -/
def Owners.take (s : Owners) (answer : Nat × State) (count : Nat) : Owners :=
  { pmm := answer.2
    calls := s.calls + 1
    ledger :=
      if answer.1 = 0 then s.ledger else s.ledger ++ (pagesOf answer.1 count).map (s.calls, ·) }

/-- `none` where the kernel panics. -/
def step (s : Owners) : Call → Option Owners
  | .alloc count => some (s.take (pmmAllocPages s.pmm count) count)
  | .below limit => some (s.take (pmmAllocPageBelow s.pmm limit) 1)
  | .free page count =>
    (pmmFreePages s.pmm page count).map fun p =>
      { pmm := p
        calls := s.calls + 1
        ledger := s.ledger.filter fun x => x.2 ∉ pagesOf page count }

/-- Only pages that are out are given back. -/
def Legal (s : Owners) : Call → Prop
  | .alloc _ | .below _ => True
  | .free page count => 0 < count ∧ ∀ a ∈ pagesOf page count, a ∈ s.ledger.map Prod.snd

instance (s : Owners) : (c : Call) → Decidable (Legal s c)
  | .alloc _ | .below _ => inferInstanceAs (Decidable True)
  | .free .. => inferInstanceAs (Decidable (_ ∧ _))

inductive Reachable (map : List MemRegion) : Owners → Prop where
  | init {p : State} (made : pmmInit map = some p) : Reachable map ⟨p, 0, []⟩
  | call {s s' : Owners} (reached : Reachable map s) (c : Call) (legal : Legal s c)
      (made : step s c = some s') : Reachable map s'

/-- Calls one after the other, while each is legal and none panics. -/
def perform (s : Owners) : List Call → Option Owners
  | [] => some s
  | c :: rest => if Legal s c then (step s c).bind fun s' => perform s' rest else none

theorem Reachable.perform {map : List MemRegion} {calls : List Call} {s s' : Owners}
    (reached : Reachable map s) (made : perform s calls = some s') : Reachable map s' := by
  induction calls generalizing s with
  | nil =>
    cases made
    exact reached
  | cons c rest ih =>
    unfold Pmm.perform at made
    split at made
    · rename_i legal
      obtain ⟨next, stepped, made⟩ := Option.bind_eq_some_iff.1 made
      exact ih (reached.call c legal stepped) made
    · cases made

/-! ## What a map says -/

/-- The region does not run past the last address, nor start in the last page. -/
def MemRegion.Fits (r : MemRegion) : Prop :=
  r.base + pageSize ≤ u64Size ∧ r.base + r.size ≤ u64Size

instance (r : MemRegion) : Decidable r.Fits := inferInstanceAs (Decidable (_ ∧ _))

/-- The page at an address is inside a usable region. -/
def Usable (map : List MemRegion) (a : Nat) : Prop :=
  ∃ r ∈ usable map, r.base ≤ a ∧ a + pageSize ≤ r.base + r.size

/-- The page at an address has nothing of the bitmap. -/
def OffBitmap (p : State) (a : Nat) : Prop :=
  a + pageSize ≤ p.bitmapBase ∨ p.bitmapBase + p.bitmapBytes ≤ a

variable {map : List MemRegion}

theorem lowest_le {r : MemRegion} (mem : r ∈ usable map) : lowest map ≤ r.base := by
  have fold (l : List MemRegion) (low : Nat) :
      l.foldl (fun low r => if r.base < low then r.base else low) low ≤ low ∧
        ∀ r ∈ l, l.foldl (fun low r => if r.base < low then r.base else low) low ≤ r.base := by
    induction l generalizing low with
    | nil => simp
    | cons r l ih =>
      have first : (if r.base < low then r.base else low) ≤ low ∧
          (if r.base < low then r.base else low) ≤ r.base := by split <;> omega
      obtain ⟨below, each⟩ := ih (if r.base < low then r.base else low)
      rw [List.foldl_cons]
      refine ⟨Nat.le_trans below first.1, fun q mem => ?_⟩
      cases List.mem_cons.1 mem with
      | inl same =>
        rw [same]
        exact Nat.le_trans below first.2
      | inr rest => exact each q rest
  exact (fold (usable map) _).2 r mem

/-- The highest end is some region's. -/
theorem highest_eq (some_ : highest map ≠ 0) : ∃ r ∈ usable map, highest map = r.stop := by
  have fold (l : List MemRegion) (high : Nat) :
      l.foldl (fun high r => if r.stop > high then r.stop else high) high = high ∨
        ∃ r ∈ l, l.foldl (fun high r => if r.stop > high then r.stop else high) high = r.stop := by
    induction l generalizing high with
    | nil => simp
    | cons r l ih =>
      rw [List.foldl_cons]
      cases ih (if r.stop > high then r.stop else high) with
      | inl same =>
        rw [same]
        split
        · exact .inr ⟨r, List.mem_cons_self .., rfl⟩
        · exact .inl rfl
      | inr found =>
        obtain ⟨q, mem, same⟩ := found
        exact .inr ⟨q, List.mem_cons_of_mem r mem, same⟩
  exact (fold (usable map) 0).resolve_left some_

/-! ## The bitmap that a map makes -/

/-- The pages of the bitmap have addresses, and its bits are counted. -/
structure Sized (p : State) : Prop where
  aligned : p.basePaddr % pageSize = 0
  addresses : p.basePaddr + p.totalPages * pageSize ≤ u64Size
  spans : Spans p
  counted : Counted p

variable {p q : State}

theorem Sized.remarked (sized : Sized p) (same : Remarked p q) (counted : Counted q) : Sized q where
  aligned := by rw [same.base]; exact sized.aligned
  addresses := by rw [same.base, same.total]; exact sized.addresses
  spans := sized.spans.remarked same
  counted := counted

/-- The address of a page of the bitmap does not wrap. -/
theorem Sized.addr (sized : Sized p) {i : Nat} (inside : i < p.totalPages) :
    pageAddr p.basePaddr i = p.basePaddr + i * pageSize ∧
      p.basePaddr + i * pageSize + pageSize ≤ u64Size := by
  have := sized.addresses
  have grows : i * pageSize + pageSize ≤ p.totalPages * pageSize := by
    rw [← Nat.succ_mul]
    exact Nat.mul_le_mul_right _ inside
  refine ⟨Nat.mod_eq_of_lt ?_, by omega⟩
  simp only [pageSize] at *
  omega

theorem Sized.index (sized : Sized p) {i : Nat} (inside : i < p.totalPages) :
    pageIndex p.basePaddr (p.basePaddr + i * pageSize) = i := by
  have := (sized.addr inside).2
  have back : p.basePaddr + i * pageSize + u64Size - p.basePaddr = i * pageSize + u64Size := by omega
  have small : i * pageSize < u64Size := by simp only [pageSize] at *; omega
  rw [pageIndex, back, Nat.add_mod_right, Nat.mod_eq_of_lt small]
  exact Nat.mul_div_cancel _ (by decide)

theorem blank_sized (fits : ∀ r ∈ usable map, r.Fits) (some_ : highest map ≠ 0) :
    Sized (blank map) := by
  obtain ⟨r, mem, top⟩ := highest_eq some_
  have low := lowest_le mem
  have inside := (fits r mem).2
  have above : r.base ≤ highest map := by
    simp only [MemRegion.stop, u64Size] at top inside
    omega
  have below : highest map < u64Size := by
    rw [top]
    exact Nat.mod_lt _ (by decide)
  refine ⟨?_, ?_, ?_, ?_⟩
  · exact Nat.mul_mod_left _ _
  · simp only [blank, pageAlignUp, pageAlignDown, pageSize, u64Size] at below ⊢
    omega
  · simp only [Spans, blank]
    omega
  · have none_ : clearBits (blank map) = ∅ := by
      refine Finset.filter_eq_empty_iff.2 fun i _ => ?_
      have : i % 8 < 8 := Nat.mod_lt _ (by decide)
      have all : (BitVec.allOnes 8).getLsbD (i % 8) = true := by
        rw [BitVec.getLsbD_allOnes, decide_eq_true this]
      show ¬(BitVec.allOnes 8).getLsbD (i % 8) = false
      rw [all]
      decide
    rw [Counted, none_]
    rfl

/-! ## Giving back the usable pages -/

/-- The page at an address is inside a region that was given back, as the allocator measures it. -/
def GivenBack (map : List MemRegion) (a : Nat) : Prop :=
  ∃ r ∈ usable map, r.base ≤ a ∧ a + pageSize ≤ r.stop

theorem GivenBack.usable {a : Nat} (h : GivenBack map a) : Usable map a := by
  obtain ⟨r, mem, from_, before⟩ := h
  exact ⟨r, mem, from_, Nat.le_trans before (Nat.mod_le _ _)⟩

/-- A clear bit is a page that was given back. -/
def ClearUsable (map : List MemRegion) (p : State) : Prop :=
  ∀ i < p.totalPages, bitTest p i = false → GivenBack map (p.basePaddr + i * pageSize)

theorem freeRegion_spec (sized : Sized p) (clear : ClearUsable map p) {r : MemRegion}
    (mem : r ∈ usable map) (fits : r.Fits) (above : p.basePaddr ≤ r.base) :
    Remarked p (freeRegion p r) ∧ Sized (freeRegion p r) ∧ ClearUsable map (freeRegion p r) := by
  unfold freeRegion
  dsimp only
  split
  · rename_i some_
    obtain ⟨same, counted, bits⟩ := markFree_spec
      ((pageAlignDown r.stop - pageAlignUp r.base) / pageSize)
      (pageIndex p.basePaddr (pageAlignUp r.base)) sized.counted sized.spans
    refine ⟨same, sized.remarked same counted, fun i inside isClear => ?_⟩
    rw [same.total] at inside
    rw [same.base]
    by_cases run : InRun p (pageIndex p.basePaddr (pageAlignUp r.base))
        ((pageAlignDown r.stop - pageAlignUp r.base) / pageSize) i
    · refine ⟨r, mem, ?_⟩
      obtain ⟨from_, before, _⟩ := run
      have aligned := sized.aligned
      obtain ⟨start, whole⟩ := fits
      simp only [pageIndex, pageAlignUp, pageAlignDown, MemRegion.stop, pageSize, u64Size] at *
      omega
    · refine clear i inside ?_
      by_contra used
      have kept := (bits i).2 ⟨run, by simpa using used⟩
      rw [kept] at isClear
      cases isClear
  · exact ⟨.refl p, sized, clear⟩

theorem freeRegions_spec (l : List MemRegion) (members : ∀ r ∈ l, r ∈ usable map)
    (fits : ∀ r ∈ usable map, r.Fits) (sized : Sized p) (clear : ClearUsable map p)
    (above : ∀ r ∈ usable map, p.basePaddr ≤ r.base) :
    Remarked p (l.foldl freeRegion p) ∧ Sized (l.foldl freeRegion p) ∧
      ClearUsable map (l.foldl freeRegion p) := by
  induction l generalizing p with
  | nil => exact ⟨.refl p, sized, clear⟩
  | cons r l ih =>
    have mem := members r (List.mem_cons_self ..)
    obtain ⟨same, sized', clear'⟩ := freeRegion_spec sized clear mem (fits r mem) (above r mem)
    obtain ⟨same', rest⟩ := ih (fun q mem => members q (List.mem_cons_of_mem r mem)) sized' clear'
      (fun q mem => same.base ▸ above q mem)
    exact ⟨same.trans same', rest⟩

/-! ## Keeping the reserved ones -/

/-- What makes a page one that may be handed out. -/
structure Grantable (map : List MemRegion) (p : State) (a : Nat) : Prop where
  usable : GivenBack map a
  notZero : a ≠ 0
  offBitmap : OffBitmap p a

/-- The allocator as it is kept: a page whose bit is clear may be handed out. -/
structure Sound (map : List MemRegion) (p : State) : Prop where
  sized : Sized p
  hint : p.searchHint < p.totalPages ∨ p.totalPages = 0
  clear : ∀ i < p.totalPages, bitTest p i = false → Grantable map p (p.basePaddr + i * pageSize)

theorem reserve_spec (sized : Sized p) (clear : ClearUsable map p)
    (aligned : p.bitmapBase % pageSize = 0) (above : p.basePaddr ≤ p.bitmapBase)
    (below : p.bitmapBase < u64Size) (small : p.bitmapBytes + pageSize ≤ u64Size) :
    Remarked p (reserve p) ∧ Sized (reserve p) ∧
      ∀ i < p.totalPages, bitTest (reserve p) i = false →
        Grantable map p (p.basePaddr + i * pageSize) := by
  obtain ⟨same, counted, bits⟩ := markUsed_spec (pageAlignUp p.bitmapBytes / pageSize)
    (pageIndex p.basePaddr p.bitmapBase) sized.counted sized.spans
  have sized' := sized.remarked same counted
  have off (i : Nat) (inside : i < p.totalPages)
      (isClear : bitTest (markUsed p (pageIndex p.basePaddr p.bitmapBase)
        (pageAlignUp p.bitmapBytes / pageSize)) i = false) :
      GivenBack map (p.basePaddr + i * pageSize) ∧ OffBitmap p (p.basePaddr + i * pageSize) := by
    have neither := mt (bits i).2 (by simp [isClear])
    rw [not_or, Bool.not_eq_true] at neither
    refine ⟨clear i inside neither.2, ?_⟩
    have outside := neither.1
    have aligned' := sized.aligned
    simp only [OffBitmap, InRun, pageIndex, pageAlignUp, pageAlignDown, pageSize, u64Size] at *
    omega
  unfold reserve
  dsimp only
  rw [same.base]
  split
  · rename_i zero
    obtain ⟨same', counted', bits'⟩ := markUsed_spec 1 0 counted sized'.spans
    refine ⟨same.trans same', sized'.remarked same' counted', fun i inside isClear => ?_⟩
    have neither := mt (bits' i).2 (by simp [isClear])
    rw [not_or, Bool.not_eq_true] at neither
    obtain ⟨isUsable, offBitmap⟩ := off i inside neither.2
    have first : i ≠ 0 := by
      intro zero
      exact neither.1 ⟨Nat.zero_le i, by omega, by rw [same.total]; exact inside⟩
    refine ⟨isUsable, ?_, offBitmap⟩
    simp only [pageSize]
    omega
  · rename_i positive
    refine ⟨same, sized', fun i inside isClear => ?_⟩
    obtain ⟨isUsable, offBitmap⟩ := off i inside isClear
    exact ⟨isUsable, by omega, offBitmap⟩

theorem placeBitmap_spec {bytes : Nat} (found : placeBitmap map bytes ≠ 0) :
    ∃ r ∈ usable map, placeBitmap map bytes = placeIn r ∧ placeIn r < r.stop ∧
      bytes ≤ r.stop - placeIn r := by
  unfold placeBitmap at found ⊢
  split
  · rename_i r there
    have fits := List.find?_some there
    simp only [decide_eq_true_eq] at fits
    exact ⟨r, List.mem_of_find?_eq_some there, rfl, fits.1, fits.2⟩
  · rename_i none_
    rw [none_] at found
    exact absurd rfl found

theorem placeIn_spec {r : MemRegion} (fits : r.Fits) :
    placeIn r % pageSize = 0 ∧ r.base ≤ placeIn r := by
  have start := fits.1
  unfold placeIn
  split
  · rename_i zero
    refine ⟨by decide, ?_⟩
    simp only [pageAlignUp, pageAlignDown, pageSize, u64Size] at *
    omega
  · simp only [pageAlignUp, pageAlignDown, pageSize, u64Size] at *
    omega

theorem pmmInit_sound (fits : ∀ r ∈ usable map, r.Fits) (made : pmmInit map = some p) :
    Sound map p := by
  unfold pmmInit at made
  split at made
  · cases made
  split at made
  · cases made
  rename_i some_ placed
  cases made
  have sized := blank_sized fits some_
  have low (r : MemRegion) (mem : r ∈ usable map) : (blank map).basePaddr ≤ r.base := by
    have := lowest_le mem
    simp only [blank, pageAlignDown, pageSize]
    omega
  have nothing : ClearUsable map (blank map) := by
    intro i inside isClear
    have : i ∈ clearBits (blank map) :=
      Finset.mem_filter.2 ⟨Finset.mem_range.2 (Nat.lt_of_lt_of_le inside sized.spans), isClear⟩
    have none_ : (clearBits (blank map)).card = 0 := sized.counted.symm
    rw [Finset.card_eq_zero] at none_
    rw [none_] at this
    cases this
  obtain ⟨same, sized', clear⟩ := freeRegions_spec (usable map) (fun r mem => mem) fits sized nothing low
  obtain ⟨r, mem, there, before, room⟩ := placeBitmap_spec placed
  obtain ⟨aligned, above⟩ := placeIn_spec (fits r mem)
  have stop : r.stop < u64Size := Nat.mod_lt _ (by decide)
  have base : (blank map).bitmapBase = placeIn r := there
  have few : (blank map).bitmapBytes = ((blank map).totalPages + 7) / 8 := rfl
  have addresses := sized.addresses
  obtain ⟨same', sized'', grantable⟩ := reserve_spec sized' clear
    (by rw [same.bitmapBase, base]; exact aligned)
    (by rw [same.bitmapBase, same.base, base]; exact Nat.le_trans (low r mem) above)
    (by rw [same.bitmapBase, base]; exact Nat.lt_trans before stop)
    (by rw [same.bytes, few]; simp only [pageSize, u64Size] at addresses ⊢; omega)
  refine ⟨sized'', ?_, fun i inside isClear => ?_⟩
  · rw [same'.hint, same'.total, same.hint, same.total]
    exact (Nat.eq_zero_or_pos _).symm
  · rw [same'.total] at inside
    obtain ⟨isUsable, notZero, offBitmap⟩ := grantable i inside isClear
    rw [same'.base]
    refine ⟨isUsable, notZero, ?_⟩
    rw [OffBitmap, same'.bitmapBase, same'.bytes]
    exact offBitmap

/-! ## Out -/

/-- The search ends at a run of clear bits. -/
theorem search_spec {count left i run last : Nat} (positive : 0 < count) (inside : i < p.totalPages)
    (behind : run ≤ i) (short : run < count)
    (clear : ∀ j, i ≤ j + run → j < i → bitTest p j = false)
    (found : search p count left i run = some last) :
    last < p.totalPages ∧ count ≤ last + 1 ∧
      ∀ j, last + 1 - count ≤ j → j ≤ last → bitTest p j = false := by
  induction left generalizing i run with
  | zero => simp [search] at found
  | succ left ih =>
    have restart {k : Nat} (inside : k < p.totalPages) (found : search p count left k 0 = some last) :=
      ih inside (Nat.zero_le k) positive (fun j from_ before => by omega) found
    unfold search at found
    split at found
    · split at found
      · exact restart (by omega) found
      · exact restart (by omega) found
    · rename_i isClear
      rw [Bool.not_eq_true] at isClear
      have clear' : ∀ j, i + 1 ≤ j + (run + 1) → j < i + 1 → bitTest p j = false := by
        intro j from_ before
        by_cases same : j = i
        · exact same ▸ isClear
        · exact clear j (by omega) (by omega)
      split at found
      · rename_i full
        obtain rfl : i = last := Option.some.inj found
        exact ⟨inside, by omega, fun j from_ before => clear' j (by omega) (by omega)⟩
      · split at found
        · exact restart (by omega) found
        · exact ih (by omega) (by omega) (by omega) clear' found

theorem searchBelow_spec (sound : Sound map p) {limit left i at_ : Nat}
    (whole : i + left = p.totalPages) (found : searchBelow p limit left i = some at_) :
    at_ < p.totalPages ∧ bitTest p at_ = false ∧
      p.basePaddr + at_ * pageSize + pageSize ≤ limit := by
  induction left generalizing i with
  | zero => simp [searchBelow] at found
  | succ left ih =>
    unfold searchBelow at found
    split at found
    · cases found
    rename_i within
    split at found
    · exact ih (by omega) found
    · rename_i isClear
      obtain rfl : i = at_ := Option.some.inj found
      rw [Bool.not_eq_true] at isClear
      have inside : i < p.totalPages := by omega
      obtain ⟨r, _, _, before⟩ := (sound.clear i inside isClear).usable
      have stop : r.stop < u64Size := Nat.mod_lt _ (by decide)
      rw [(sound.sized.addr inside).1, Nat.mod_eq_of_lt (Nat.lt_of_le_of_lt before stop)] at within
      exact ⟨inside, isClear, Nat.le_of_not_lt within⟩

/-! ## Owners -/

/-- Every page that is out is in use and was one that may be handed out, and is out once. -/
structure Owned (map : List MemRegion) (s : Owners) : Prop where
  sound : Sound map s.pmm
  once : (s.ledger.map Prod.snd).Nodup
  each : ∀ a ∈ s.ledger.map Prod.snd, ∃ i < s.pmm.totalPages, a = s.pmm.basePaddr + i * pageSize ∧
    bitTest s.pmm i = true ∧ Grantable map s.pmm a

theorem Grantable.remarked {a : Nat} (h : Grantable map p a) (same : Remarked p q) :
    Grantable map q a := by
  refine ⟨h.usable, h.notZero, ?_⟩
  rw [OffBitmap, same.bitmapBase, same.bytes]
  exact h.offBitmap

/-- A run of clear bits, marked and handed out. -/
theorem Owned.grant {s : Owners} (owned : Owned map s) {start count : Nat} (positive : 0 < count)
    (inside : start + count ≤ s.pmm.totalPages)
    (clear : ∀ j, start ≤ j → j < start + count → bitTest s.pmm j = false) (hint : Nat)
    (hinted : hint < s.pmm.totalPages) :
    Owned map (s.take (pageAddr s.pmm.basePaddr start,
      { markUsed s.pmm start count with searchHint := hint }) count) := by
  have sized := owned.sound.sized
  obtain ⟨same, counted, bits⟩ := markUsed_spec count start sized.counted sized.spans
  have address (k : Nat) (short : k < count) :
      pageAddr s.pmm.basePaddr start + k * pageSize = s.pmm.basePaddr + (start + k) * pageSize := by
    rw [(sized.addr (by omega)).1, Nat.add_mul, Nat.add_assoc]
  have grantable (k : Nat) (short : k < count) :=
    owned.sound.clear (start + k) (by omega) (clear (start + k) (by omega) (by omega))
  have notZero : pageAddr s.pmm.basePaddr start ≠ 0 := by
    have first := address 0 positive
    simp only [Nat.zero_mul, Nat.add_zero] at first
    rw [first]
    exact (grantable 0 positive).notZero
  have ledger : ((s.take (pageAddr s.pmm.basePaddr start,
      { markUsed s.pmm start count with searchHint := hint }) count).ledger).map Prod.snd =
        s.ledger.map Prod.snd ++ pagesOf (pageAddr s.pmm.basePaddr start) count := by
    simp only [Owners.take, if_neg notZero, List.map_append, List.map_map]
    simp
  have new (a : Nat) (mem : a ∈ pagesOf (pageAddr s.pmm.basePaddr start) count) :
      ∃ k < count, a = s.pmm.basePaddr + (start + k) * pageSize := by
    obtain ⟨k, short, rfl⟩ := List.mem_map.1 mem
    exact ⟨k, List.mem_range.1 short, address k (List.mem_range.1 short)⟩
  have sized' := sized.remarked same counted
  refine ⟨⟨⟨sized'.aligned, sized'.addresses, sized'.spans, sized'.counted⟩, ?_, ?_⟩, ?_, ?_⟩
  · exact .inl (same.total.symm ▸ hinted)
  · intro i before isClear
    have before : i < s.pmm.totalPages := same.total ▸ before
    have neither := mt (bits i).2 (by rw [Bool.not_eq_true]; exact isClear)
    rw [not_or, Bool.not_eq_true] at neither
    have was := (owned.sound.clear i before neither.2).remarked same
    show Grantable map _ ((markUsed s.pmm start count).basePaddr + i * pageSize)
    rw [same.base]
    exact ⟨was.usable, was.notZero, was.offBitmap⟩
  · rw [ledger, List.nodup_append]
    refine ⟨owned.once, ?_, ?_⟩
    · refine List.Nodup.map ?_ List.nodup_range
      intro k l same
      simp only [pageSize] at same
      omega
    · intro a old b mem same
      obtain ⟨i, inside', at_, used, _⟩ := owned.each a old
      obtain ⟨k, short, at'⟩ := new b mem
      have here : i = start + k := by
        simp only [pageSize] at at_ at'
        omega
      rw [here, clear (start + k) (by omega) (by omega)] at used
      cases used
  · intro a mem
    rw [ledger] at mem
    cases List.mem_append.1 mem with
    | inl old =>
      obtain ⟨i, inside', at_, used, grantable⟩ := owned.each a old
      have grantable := grantable.remarked same
      refine ⟨i, same.total.symm ▸ inside', ?_, (bits i).2 (.inr used),
        grantable.usable, grantable.notZero, grantable.offBitmap⟩
      show a = (markUsed s.pmm start count).basePaddr + _
      rw [same.base, at_]
    | inr fresh =>
      obtain ⟨k, short, at_⟩ := new a fresh
      have inside' : start + k < s.pmm.totalPages := by omega
      have granted := (grantable k short).remarked same
      rw [← at_] at granted
      refine ⟨start + k, same.total.symm ▸ inside', ?_,
        (bits (start + k)).2 (.inl ⟨by omega, by omega, inside'⟩),
        granted.usable, granted.notZero, granted.offBitmap⟩
      show a = (markUsed s.pmm start count).basePaddr + _
      rw [same.base, at_]

/-- An answer of 0 leaves everything as it was. -/
theorem Owned.refuse {s : Owners} (owned : Owned map s) (count : Nat) :
    Owned map (s.take (0, s.pmm) count) :=
  ⟨owned.sound, owned.once, owned.each⟩

theorem Owned.alloc {s : Owners} (owned : Owned map s) (count : Nat) :
    Owned map (s.take (pmmAllocPages s.pmm count) count) := by
  unfold pmmAllocPages
  split
  · exact owned.refuse count
  · rename_i asked
    split
    · exact owned.refuse count
    · rename_i last found
      have inside : s.pmm.searchHint < s.pmm.totalPages := by
        cases owned.sound.hint with
        | inl inside => exact inside
        | inr none_ => omega
      obtain ⟨before, long, clear⟩ := search_spec (by omega) inside (Nat.zero_le _) (by omega)
        (fun j from_ before => by omega) found
      exact owned.grant (by omega) (by omega) (fun j from_ before => clear j from_ (by omega))
        _ (Nat.mod_lt _ (by omega))

theorem Owned.below {s : Owners} (owned : Owned map s) (limit : Nat) :
    Owned map (s.take (pmmAllocPageBelow s.pmm limit) 1) := by
  unfold pmmAllocPageBelow
  split
  · exact owned.refuse 1
  · rename_i i found
    obtain ⟨inside, isClear, _⟩ := searchBelow_spec owned.sound (by omega) found
    have hinted : s.pmm.searchHint < s.pmm.totalPages := by
      cases owned.sound.hint with
      | inl inside => exact inside
      | inr none_ => omega
    have granted := @Owned.grant map s owned i 1 (by decide) (by omega)
      (fun j from_ before => by rw [show j = i by omega]; exact isClear) s.pmm.searchHint hinted
    have hint : (markUsed s.pmm i 1).searchHint = s.pmm.searchHint :=
      (markUsed_spec 1 i owned.sound.sized.counted owned.sound.sized.spans).1.hint
    have unhinted : { markUsed s.pmm i 1 with searchHint := s.pmm.searchHint } = markUsed s.pmm i 1 := by
      rw [← hint]
    rw [unhinted] at granted
    exact granted

/-! ## And back -/

/-- Pages that are out can be given back. -/
theorem Owned.freed {s : Owners} (owned : Owned map s) {page count : Nat}
    (legal : Legal s (.free page count)) :
    ∃ s', step s (.free page count) = some s' ∧ Owned map s' := by
  obtain ⟨positive, out⟩ := legal
  have sized := owned.sound.sized
  have address (k : Nat) (short : k < count) :
      ∃ i < s.pmm.totalPages, page + k * pageSize = s.pmm.basePaddr + i * pageSize ∧
        bitTest s.pmm i = true ∧ Grantable map s.pmm (page + k * pageSize) :=
    owned.each _ (out _ (List.mem_map.2 ⟨k, List.mem_range.2 short, rfl⟩))
  obtain ⟨first, inside, at_, used, grantable⟩ := address 0 positive
  obtain ⟨last, inside', at', _, _⟩ := address (count - 1) (by omega)
  rw [Nat.zero_mul, Nat.add_zero] at at_ grantable
  have index : pageIndex s.pmm.basePaddr page = first := by rw [at_, sized.index inside]
  have run : first + count ≤ s.pmm.totalPages := by
    simp only [pageSize] at at_ at'
    omega
  have fits : (first + count) % u64Size ≤ s.pmm.totalPages := Nat.le_trans (Nat.mod_le _ _) run
  have aligned : page % pageSize = 0 := by
    have := sized.aligned
    simp only [pageSize] at this at_ ⊢
    omega
  have notPanic : pmmFreePages s.pmm page count = some (markFree s.pmm first count) := by
    rw [pmmFreePages, if_neg (by simp [grantable.notZero, aligned]), if_neg (by omega), index,
      if_neg (by omega)]
  obtain ⟨same, counted, bits⟩ := markFree_spec count first sized.counted sized.spans
  refine ⟨_, by rw [step, notPanic]; rfl, ?_⟩
  have kept (a : Nat) (mem : a ∈ ((s.ledger.filter fun x => x.2 ∉ pagesOf page count).map Prod.snd)) :
      a ∈ s.ledger.map Prod.snd ∧ a ∉ pagesOf page count := by
    obtain ⟨x, there, rfl⟩ := List.mem_map.1 mem
    obtain ⟨old, away⟩ := List.mem_filter.1 there
    exact ⟨List.mem_map_of_mem old, by simpa using away⟩
  refine ⟨⟨sized.remarked same counted, ?_, ?_⟩, ?_, ?_⟩
  · rw [same.hint, same.total]
    exact owned.sound.hint
  · intro i before isClear
    rw [same.total] at before
    rw [same.base]
    refine Grantable.remarked ?_ same
    by_cases inRun : InRun s.pmm first count i
    · obtain ⟨from_, until_, _⟩ := inRun
      obtain ⟨j, _, there, _, granted⟩ := address (i - first) (by omega)
      have here : page + (i - first) * pageSize = s.pmm.basePaddr + i * pageSize := by
        simp only [pageSize] at at_ ⊢
        omega
      exact here ▸ granted
    · refine owned.sound.clear i before ?_
      by_contra inUse
      have still := (bits i).2 ⟨inRun, by simpa using inUse⟩
      rw [still] at isClear
      cases isClear
  · exact List.Sublist.nodup (List.Sublist.map _ List.filter_sublist) owned.once
  · intro a mem
    obtain ⟨old, away⟩ := kept a mem
    obtain ⟨i, inside, there, inUse, granted⟩ := owned.each a old
    refine ⟨i, same.total.symm ▸ inside, by rw [same.base]; exact there, (bits i).2 ⟨?_, inUse⟩,
      granted.remarked same⟩
    intro inRun
    obtain ⟨from_, until_, _⟩ := inRun
    refine away (List.mem_map.2 ⟨i - first, List.mem_range.2 (by omega), ?_⟩)
    simp only [pageSize] at at_ there ⊢
    omega

theorem reachable_owned (fits : ∀ r ∈ usable map, r.Fits) {s : Owners} (reached : Reachable map s) :
    Owned map s := by
  induction reached with
  | init made => exact ⟨pmmInit_sound fits made, List.nodup_nil, by simp⟩
  | call _ c legal made ih =>
    cases c with
    | alloc count =>
      cases made
      exact ih.alloc count
    | below limit =>
      cases made
      exact ih.below limit
    | free page count =>
      obtain ⟨s', made', owned⟩ := ih.freed legal
      cases made.symm.trans made'
      exact owned

/-- From a map whose usable regions lie in the address space, after any calls: no page is out
twice; those that are out are usable memory, and neither page zero nor the bitmap's; a page asked
for below a limit ends there; the free count is the number of clear bits; and no call panics. -/
theorem pages_owned_once (fits : ∀ r ∈ usable map, r.Fits) {s : Owners} (reached : Reachable map s) :
    (s.ledger.map Prod.snd).Nodup ∧
    (∀ x ∈ s.ledger, Usable map x.2 ∧ x.2 ≠ 0 ∧ OffBitmap s.pmm x.2) ∧
    (∀ limit, (pmmAllocPageBelow s.pmm limit).1 ≠ 0 →
      (pmmAllocPageBelow s.pmm limit).1 + pageSize ≤ limit) ∧
    s.pmm.freePages = (clearBits s.pmm).card ∧
    ∀ c, Legal s c → (step s c).isSome := by
  have owned := reachable_owned fits reached
  refine ⟨owned.once, ?_, ?_, owned.sound.sized.counted, ?_⟩
  · intro x mem
    obtain ⟨_, _, _, _, granted⟩ := owned.each x.2 (List.mem_map_of_mem mem)
    exact ⟨granted.usable.usable, granted.notZero, granted.offBitmap⟩
  · intro limit some_
    unfold pmmAllocPageBelow at some_ ⊢
    split
    · rename_i none_
      rw [none_] at some_
      exact absurd rfl some_
    · rename_i i found
      obtain ⟨inside, _, within⟩ := searchBelow_spec owned.sound (by omega) found
      dsimp only
      rw [(owned.sound.sized.addr inside).1]
      exact within
  · intro c legal
    cases c with
    | alloc | below => rfl
    | free page count =>
      obtain ⟨s', made, _⟩ := owned.freed legal
      rw [made]
      rfl

/-- Ten pages from physical zero, the last of them not to be had. -/
def tenPages : List MemRegion := [⟨0, 0x9000, .usable⟩, ⟨0x9000, 0x1000, .reserved⟩]

theorem tenPages_made : (pmmInit tenPages).isSome := by decide +kernel

/-- Two pages and one below a limit; one of the two given back, and had again below a limit; a run of
five that there is not; two given back, and a run of four that has one of them. -/
def tenCalls : List Call :=
  [.alloc 2, .below 0x8000, .free 0x2000 1, .below 0x3000, .alloc 5, .free 0x3000 2, .alloc 4]

theorem tenCalls_ledger : ((pmmInit tenPages).bind fun p => perform ⟨p, 0, []⟩ tenCalls).map
    Owners.ledger = some [(3, 0x2000), (6, 0x4000), (6, 0x5000), (6, 0x6000), (6, 0x7000)] := by
  decide +kernel

theorem pages_owned_once_ten : ∃ s, Reachable tenPages s ∧
    s.ledger = [(3, 0x2000), (6, 0x4000), (6, 0x5000), (6, 0x6000), (6, 0x7000)] ∧
    (s.ledger.map Prod.snd).Nodup ∧ s.pmm.freePages = (clearBits s.pmm).card := by
  have fits : ∀ r ∈ usable tenPages, r.Fits := by
    intro r mem
    simp only [usable, tenPages, List.mem_filter, List.mem_cons, List.not_mem_nil, or_false] at mem
    rcases mem.1 with rfl | rfl <;> decide
  obtain ⟨s, made, ledger⟩ := Option.map_eq_some_iff.1 tenCalls_ledger
  obtain ⟨p, init, made⟩ := Option.bind_eq_some_iff.1 made
  have reached : Reachable tenPages s := (Reachable.init init).perform made
  obtain ⟨once, _, _, counted, _⟩ := pages_owned_once fits reached
  exact ⟨s, reached, ledger, once, counted⟩

/-- A region that runs past the last address. -/
def pastTheEnd : List MemRegion := [⟨0xFFFFFFFFFFFFFFFF, 0x3001, .usable⟩]

theorem pastTheEnd_made : (pmmInit pastTheEnd).isSome := by decide +kernel

/-- What such a region leaves at the bottom of memory is handed out. -/
theorem wrapped_region_hands_out_low_memory :
    ¬∀ map s, Reachable map s → ∀ x ∈ s.ledger, Usable map x.2 := by
  intro always
  have reached : Reachable pastTheEnd _ :=
    ((Reachable.init (Option.some_get pastTheEnd_made).symm).call (.alloc 1) trivial rfl).call (.alloc 1)
      trivial rfl
  obtain ⟨r, mem, from_, _⟩ := always _ _ reached (1, 0x2000) (by decide +kernel)
  have region : r ∈ pastTheEnd := (List.mem_filter.1 mem).1
  rw [pastTheEnd, List.mem_singleton] at region
  rw [region] at from_
  revert from_
  decide

end ReconOS.Pmm
