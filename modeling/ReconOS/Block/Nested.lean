import ReconOS.Block.Slices

/-! A slice lies inside its parent, and what is asked of it goes nowhere else. -/
namespace ReconOS.Block

/-! ## Slices in slices -/

/-- `i` is a slice of `j`, and `j` is still there. -/
def SliceOf (t : Table) (i j : Nat) : Prop :=
  (t.slots i).parent ≠ 0 ∧
    blockDeviceById t (t.slots i).parent (t.slots i).parentGeneration = some j

/-- `k` is `i` or one of the devices around it. -/
def Encloses (t : Table) (k i : Nat) : Prop := Relation.ReflTransGen (SliceOf t) i k

/-- Device `i` starts at block `base` of the disk `root`: the first blocks of the slices on the way
down, added up without a bound. -/
inductive Placed (t : Table) (root : Nat) : Nat → Nat → Prop where
  | disk (whole : (t.slots root).parent = 0) : Placed t root root 0
  | slice {i j base : Nat} (of : SliceOf t i j) (under : Placed t root j base) :
      Placed t root i (base + (t.slots i).firstLba.toNat)

/-- The blocks from `start` on, `count` of them, are blocks of device `i` as `root` numbers them. -/
def Within (t : Table) (root i start count : Nat) : Prop :=
  ∃ base, Placed t root i base ∧ base ≤ start ∧
    start + count ≤ base + (t.slots i).blockCount.toNat

/-- Identities follow the slots, and a slice lies inside a device of an earlier slot. -/
structure Nested (t : Table) : Prop where
  room : t.count ≤ blockMaxDevices
  next : t.nextId.toNat = t.count + 1
  ids : ∀ i < t.count, (t.slots i).id.toNat = i + 1
  free : ∀ i, t.count ≤ i → t.slots i = .zero
  inside : ∀ i < t.count, (t.slots i).parent ≠ 0 →
    ∃ j < i, (t.slots i).parent = (t.slots j).id ∧
      (t.slots i).firstLba.toNat + (t.slots i).blockCount.toNat ≤ (t.slots j).blockCount.toNat

variable {t t' : Table} {i j k root base : Nat}

/-! ## Runs -/

theorem Nested.boot : Nested .boot := by
  constructor <;> simp [Table.boot, blockMaxDevices]

/-- Nothing of a device changes but what does not say where it lies. -/
structure SamePlace (d d' : BlockDevice) : Prop where
  id : d'.id = d.id
  parent : d'.parent = d.parent
  firstLba : d'.firstLba = d.firstLba
  blockCount : d'.blockCount = d.blockCount

theorem SamePlace.refl (d : BlockDevice) : SamePlace d d := ⟨rfl, rfl, rfl, rfl⟩

theorem Nested.moved (nested : Nested t) (count : t'.count = t.count) (next : t'.nextId = t.nextId)
    (free : ∀ i, t.count ≤ i → t'.slots i = t.slots i)
    (same : ∀ i, SamePlace (t.slots i) (t'.slots i)) : Nested t' where
  room := count ▸ nested.room
  next := by rw [next, count, nested.next]
  ids := by
    intro i used
    rw [(same i).id, nested.ids i (count ▸ used)]
  free := by
    intro i unused
    rw [count] at unused
    rw [free i unused, nested.free i unused]
  inside := by
    intro i used slice
    rw [count] at used
    rw [(same i).parent] at slice
    obtain ⟨j, below, parent, fits⟩ := nested.inside i used slice
    refine ⟨j, below, ?_, ?_⟩
    · rw [(same i).parent, (same j).id, parent]
    · rw [(same i).firstLba, (same i).blockCount, (same j).blockCount]
      exact fits

/-- A change to one device that is there. -/
theorem Nested.at (nested : Nested t) {d : BlockDevice} (same : SamePlace (t.slots i) d)
    (here : t.count ≤ i → d = t.slots i) :
    Nested { t with slots := Function.update t.slots i d } := by
  refine nested.moved rfl rfl ?_ ?_
  · intro k unused
    dsimp only
    by_cases at_i : k = i
    · subst at_i
      rw [Function.update_self, here unused]
    · exact Function.update_of_ne at_i d t.slots
  · intro k
    dsimp only
    by_cases at_i : k = i
    · subst at_i
      rw [Function.update_self]
      exact same
    · rw [Function.update_of_ne at_i]
      exact .refl _

theorem blockRegister_none {ops : BlockOps} {size : U32} {count : U64}
    (refused : (blockRegister t ops size count).2 = none) :
    (blockRegister t ops size count).1 = t := by
  unfold blockRegister at refused ⊢
  split
  · rfl
  · split
    · rfl
    · rename_i room power
      rw [if_neg room, if_neg power] at refused
      cases refused

/-- A new device takes the next slot and the next identity. -/
theorem blockRegister_some {ops : BlockOps} {size : U32} {count : U64}
    (taken : (blockRegister t ops size count).2 = some i) :
    i = t.count ∧ t.count < blockMaxDevices ∧
      ∃ d : BlockDevice, d.id = t.nextId ∧ d.blockCount = count ∧ d.parent = 0 ∧
        (blockRegister t ops size count).1 =
          ⟨Function.update t.slots t.count d, t.count + 1, t.nextId + 1⟩ := by
  unfold blockRegister at taken ⊢
  split at taken
  · cases taken
  rename_i room
  split at taken
  · cases taken
  rename_i power
  cases taken
  rw [if_neg room, if_neg power]
  exact ⟨rfl, Nat.lt_of_not_le room, _, rfl, rfl, rfl, rfl⟩

/-- A device more, that is a disk or a slice that fits one there is. -/
theorem Nested.grow (nested : Nested t) (room : t.count < blockMaxDevices) {d : BlockDevice}
    (id : d.id = t.nextId)
    (fits : d.parent ≠ 0 → ∃ j < t.count, d.parent = (t.slots j).id ∧
      d.firstLba.toNat + d.blockCount.toNat ≤ (t.slots j).blockCount.toNat) :
    Nested ⟨Function.update t.slots t.count d, t.count + 1, t.nextId + 1⟩ := by
  have next := nested.next
  have old : ∀ i < t.count, Function.update t.slots t.count d i = t.slots i := by
    intro i used
    exact Function.update_of_ne (Nat.ne_of_lt used) d t.slots
  have new : Function.update t.slots t.count d t.count = d := Function.update_self _ _ _
  simp only [blockMaxDevices] at room
  constructor
  · exact room
  · change (t.nextId + 1).toNat = t.count + 1 + 1
    rw [BitVec.toNat_add, next]
    change (t.count + 1 + 1) % _ = _
    omega
  · intro i used
    dsimp only at used ⊢
    by_cases last : i = t.count
    · rw [last, new, id, next]
    · have before : i < t.count := by omega
      rw [old i before, nested.ids i before]
  · intro i unused
    dsimp only at unused ⊢
    rw [Function.update_of_ne (by omega), nested.free i (by omega)]
  · intro i used slice
    dsimp only at used slice ⊢
    by_cases last : i = t.count
    · subst last
      rw [new] at slice ⊢
      obtain ⟨j, below, parent, inside⟩ := fits slice
      refine ⟨j, below, ?_⟩
      rw [old j below]
      exact ⟨parent, inside⟩
    · have before : i < t.count := by omega
      rw [old i before] at slice ⊢
      obtain ⟨j, below, parent, inside⟩ := nested.inside i before slice
      refine ⟨j, below, ?_⟩
      rw [old j (Nat.lt_trans below before)]
      exact ⟨parent, inside⟩

theorem Nested.register (nested : Nested t) (ops : BlockOps) (size : U32) (count : U64) :
    Nested (blockRegister t ops size count).1 := by
  cases taken : (blockRegister t ops size count).2 with
  | none =>
    rw [blockRegister_none taken]
    exact nested
  | some i =>
    obtain ⟨-, room, d, id, -, whole, eq⟩ := blockRegister_some taken
    rw [eq]
    exact nested.grow room id fun slice => absurd whole slice

/-- Inside the parent, by a comparison that forms no sum. -/
theorem fits_of_le {first count size : U64} (h : ¬(size ≤ first ∨ size - first < count)) :
    first.toNat + count.toNat ≤ size.toNat := by
  rw [not_or, BitVec.not_le, BitVec.not_lt] at h
  have below : first.toNat < size.toNat := h.1
  have rest : count.toNat ≤ (size - first).toNat := h.2
  rw [BitVec.toNat_sub_of_le (Nat.le_of_lt below)] at rest
  omega

/-- A slice is made only inside its parent, and is the table's last device. -/
theorem blockRegisterSlice_some {parent : Nat} {first count : U64}
    (made : (blockRegisterSlice t parent first count).2 = some i) :
    count ≠ 0 ∧ first.toNat + count.toNat ≤ (t.slots parent).blockCount.toNat ∧
      i = t.count ∧ t.count < blockMaxDevices ∧
      ∃ d p : BlockDevice, d.id = t.nextId ∧ d.parent = (t.slots parent).id ∧
        d.firstLba = first ∧ d.blockCount = count ∧
        SamePlace (Function.update t.slots t.count d parent) p ∧
        (blockRegisterSlice t parent first count).1 =
          ⟨Function.update (Function.update t.slots t.count d) parent p, t.count + 1,
            t.nextId + 1⟩ := by
  unfold blockRegisterSlice at made ⊢
  dsimp only at made ⊢
  split at made
  · cases made
  rename_i some
  split at made
  · cases made
  rename_i few
  split at made
  · cases made
  rename_i inside
  rw [if_neg some, if_neg few, if_neg inside]
  split at made
  · cases made
  rename_i t' i' registered
  cases made
  obtain ⟨last, room, d, id, size, -, eq⟩ :=
    blockRegister_some (i := i) (congrArg Prod.snd registered)
  rw [registered] at eq
  dsimp only at eq
  subst eq last
  refine ⟨some, fits_of_le inside, rfl, room, sliced d (t.slots parent) first,
    withSlice (Function.update t.slots t.count (sliced d (t.slots parent) first) parent),
    id, rfl, rfl, size, ⟨rfl, rfl, rfl, rfl⟩, ?_⟩
  simp only [Function.update_self, Function.update_idem]

theorem blockRegisterSlice_none {parent : Nat} {first count : U64}
    (refused : (blockRegisterSlice t parent first count).2 = none) :
    (blockRegisterSlice t parent first count).1 = t := by
  unfold blockRegisterSlice at refused ⊢
  dsimp only at refused ⊢
  split
  · rfl
  rename_i some
  rw [if_neg some] at refused
  split
  · rfl
  rename_i few
  rw [if_neg few] at refused
  split
  · rfl
  rename_i inside
  rw [if_neg inside] at refused
  split at refused
  case h_1 t' registered =>
    have same := blockRegister_none (congrArg Prod.snd registered)
    rw [registered] at same
    exact same
  case h_2 => cases refused

theorem Nested.registerSlice (nested : Nested t) (parent : Nat) (first count : U64) :
    Nested (blockRegisterSlice t parent first count).1 := by
  cases made : (blockRegisterSlice t parent first count).2 with
  | none =>
    rw [blockRegisterSlice_none made]
    exact nested
  | some i =>
    obtain ⟨some, inside, -, room, d, p, id, of, at_first, size, same, eq⟩ :=
      blockRegisterSlice_some made
    have there : parent < t.count := by
      by_contra away
      rw [nested.free parent (by omega)] at inside
      have none : count.toNat = 0 := by
        have : BlockDevice.zero.blockCount.toNat = 0 := rfl
        omega
      exact some (BitVec.eq_of_toNat_eq none)
    have grown := nested.grow room id fun _ => ⟨parent, there, of, by rw [at_first, size]; exact inside⟩
    rw [eq]
    exact grown.at same fun unused => absurd there (by dsimp only at unused; omega)

theorem Nested.unregister (nested : Nested t) (i : Nat) : Nested (blockUnregister t i) := by
  unfold blockUnregister
  split
  case isTrue => exact nested
  case isFalse here =>
    have taken : i < t.count := by
      by_contra away
      rw [nested.free i (by omega)] at here
      exact here rfl
    refine nested.moved rfl rfl ?_ ?_
    · intro k unused
      dsimp only
      have other : k ≠ i := by omega
      rw [if_neg other]
      have none : ¬isSliceOf t k i = true := by
        simp only [isSliceOf, Bool.and_eq_true, decide_eq_true_eq]
        omega
      rw [if_neg none]
    · intro k
      dsimp only
      split
      · exact ⟨rfl, rfl, rfl, rfl⟩
      · split <;> exact ⟨rfl, rfl, rfl, rfl⟩

theorem Nested.step (nested : Nested t) (call : Call) : Nested (Block.step t call) := by
  cases call with
  | register ops size count => exact nested.register ops size count
  | registerSlice parent first count => exact nested.registerSlice parent first count
  | unregister i => exact nested.unregister i
  | describe i readOnly max =>
    change Nested (describe t i readOnly max)
    unfold describe
    dsimp only
    split
    case isTrue => exact nested
    case isFalse here =>
      refine nested.at ⟨rfl, rfl, rfl, rfl⟩ fun unused => ?_
      rw [nested.free i unused] at here
      exact absurd rfl here
  | claimRaw i capable =>
    change Nested (blockClaimRaw t i capable).1
    unfold blockClaimRaw
    dsimp only
    split
    case isTrue => exact nested
    case isFalse here =>
      have claimed : Nested { t with
          slots := Function.update t.slots i { t.slots i with claimedRaw := true } } := by
        refine nested.at ⟨rfl, rfl, rfl, rfl⟩ fun unused => ?_
        rw [nested.free i unused] at here
        exact absurd rfl here
      split
      · exact nested
      split
      · exact nested
      split
      · exact nested
      split
      · exact nested
      · exact claimed
  | releaseRaw i =>
    refine nested.at ⟨rfl, rfl, rfl, rfl⟩ fun unused => ?_
    rw [nested.free i unused]
    rfl

theorem Nested.run (nested : Nested t) (calls : List Call) : Nested (Block.run t calls) := by
  induction calls generalizing t with
  | nil => exact nested
  | cons call rest ih => exact ih (nested.step call)

/-! ## Down to the disk -/

theorem blockDeviceById_spec {id generation : U32}
    (found : blockDeviceById t id generation = some j) : j < t.count ∧ (t.slots j).id = id := by
  have mem := List.mem_of_find?_eq_some found
  have is := List.find?_some found
  simp only [Bool.and_eq_true, beq_iff_eq] at is
  exact ⟨List.mem_range.mp mem, is.1.1⟩

/-- The device a slice is found to be of is the one it was made in. -/
theorem Nested.sliceOf (nested : Nested t) (used : i < t.count) (of : SliceOf t i j) :
    j < i ∧ (t.slots i).firstLba.toNat + (t.slots i).blockCount.toNat ≤
      (t.slots j).blockCount.toNat := by
  obtain ⟨slice, found⟩ := of
  obtain ⟨there, id⟩ := blockDeviceById_spec found
  obtain ⟨j', below, parent, fits⟩ := nested.inside i used slice
  have same : (t.slots j).id.toNat = (t.slots j').id.toNat := by rw [id, parent]
  rw [nested.ids j there, nested.ids j' (Nat.lt_trans below used)] at same
  obtain rfl : j = j' := by omega
  exact ⟨below, fits⟩

theorem Placed.fits (placed : Placed t root i base) (nested : Nested t) (used : i < t.count) :
    base + (t.slots i).blockCount.toNat ≤ (t.slots root).blockCount.toNat := by
  induction placed with
  | disk => omega
  | slice of under ih =>
    obtain ⟨below, inside⟩ := nested.sliceOf used of
    have outer := ih (Nat.lt_trans below used)
    omega

theorem Within.mono {start count start' count' : Nat} (within : Within t root i start count)
    (low : start ≤ start') (high : start' + count' ≤ start + count) :
    Within t root i start' count' := by
  obtain ⟨base, placed, first, last⟩ := within
  exact ⟨base, placed, by omega, by omega⟩

/-- A device's own blocks are blocks of every device around it. -/
theorem Placed.within (placed : Placed t root i base) (nested : Nested t) (used : i < t.count)
    (around : Encloses t k i) : Within t root k base (t.slots i).blockCount.toNat := by
  induction around using Relation.ReflTransGen.head_induction_on generalizing base with
  | refl => exact ⟨base, placed, Nat.le_refl _, Nat.le_refl _⟩
  | head of _ ih =>
    cases placed with
    | disk whole => exact absurd whole of.1
    | slice of' under =>
      obtain rfl := Option.some.inj (of.2.symm.trans of'.2)
      obtain ⟨below, inside⟩ := nested.sliceOf used of
      exact (ih under (Nat.lt_trans below used)).mono (by omega) (by omega)

/-- The walk ends at a disk, and none of its additions wraps. -/
theorem toRoot_spec (nested : Nested t) {guard : Nat} {lba abs : U64} (enough : i ≤ guard)
    (used : i < t.count) (inside : lba.toNat < (t.slots i).blockCount.toNat)
    (walked : toRoot t guard i lba = some (root, abs)) :
    ∃ base, Placed t root i base ∧ abs.toNat = lba.toNat + base := by
  induction guard generalizing i lba with
  | zero =>
    have whole : (t.slots i).parent = 0 := by
      by_contra slice
      obtain ⟨j, below, -⟩ := nested.inside i used slice
      omega
    cases walked
    exact ⟨0, .disk whole, rfl⟩
  | succ guard ih =>
    unfold toRoot at walked
    split at walked
    case isTrue whole =>
      cases walked
      exact ⟨0, .disk whole, rfl⟩
    case isFalse slice =>
      split at walked
      case h_1 => cases walked
      case h_2 p found =>
        have of : SliceOf t i p := ⟨slice, found⟩
        obtain ⟨below, fits⟩ := nested.sliceOf used of
        have size := (t.slots p).blockCount.isLt
        have sum : (lba + (t.slots i).firstLba).toNat = lba.toNat + (t.slots i).firstLba.toNat :=
          BitVec.toNat_add_of_lt (by omega)
        obtain ⟨base, placed, abs'⟩ :=
          ih (by omega) (Nat.lt_trans below used) (by omega) walked
        exact ⟨base + (t.slots i).firstLba.toNat, .slice of placed, by omega⟩

/-! ## What the driver is asked for -/

theorem chunk_le (max count : U32) : (chunk max count).toNat ≤ count.toNat := by
  unfold chunk
  split
  case isTrue h => exact Nat.le_of_lt h.2
  case isFalse => exact Nat.le_refl _

/-- The calls for one request stay inside it. -/
theorem driverCalls_within (max : U32) {fuel : Nat} {lba : U64} {count : U32}
    (whole : lba.toNat + count.toNat < 2 ^ 64) {call : U64 × U32}
    (asked : call ∈ driverCalls max fuel lba count) :
    lba.toNat ≤ call.1.toNat ∧ call.1.toNat + call.2.toNat ≤ lba.toNat + count.toNat := by
  induction fuel generalizing lba count with
  | zero => cases asked
  | succ fuel ih =>
    unfold driverCalls at asked
    split at asked
    · cases asked
    have less := chunk_le max count
    have width : ((chunk max count).setWidth 64).toNat = (chunk max count).toNat := by
      rw [BitVec.toNat_setWidth]
      omega
    have sum : (lba + (chunk max count).setWidth 64).toNat =
        lba.toNat + (chunk max count).toNat := by
      rw [BitVec.toNat_add_of_lt (by omega), width]
    have rest : (count - chunk max count).toNat = count.toNat - (chunk max count).toNat :=
      BitVec.toNat_sub_of_le less
    cases List.mem_cons.mp asked with
    | inl first =>
      subst first
      exact ⟨Nat.le_refl _, by dsimp only; omega⟩
    | inr later =>
      obtain ⟨low, high⟩ := ih (by omega) later
      omega

/-- A range that `check_range` lets by. -/
structure InRange (t : Table) (i : Nat) (lba : U64) (count : U32) : Prop where
  present : (t.slots i).present = true
  some : count ≠ 0
  fits : lba.toNat + count.toNat ≤ (t.slots i).blockCount.toNat

theorem inRange_of_le {lba : U64} {count : U32} (present : (t.slots i).present = true)
    (some : count ≠ 0) (h : ¬((t.slots i).blockCount ≤ lba ∨
      (t.slots i).blockCount - lba < count.setWidth 64)) : InRange t i lba count := by
  have fits := fits_of_le h
  have width : (count.setWidth 64 : U64).toNat = count.toNat := by
    rw [BitVec.toNat_setWidth]
    omega
  exact ⟨present, some, width ▸ fits⟩

theorem checkRange_ok {lba : U64} {count : U32} (ok : checkRange t i lba count = .ok)
    (some : count ≠ 0) : InRange t i lba count := by
  unfold checkRange at ok
  dsimp only at ok
  split at ok
  · cases ok
  rename_i present
  split at ok
  · cases ok
  rename_i low
  split at ok
  · cases ok
  rename_i high
  exact inRange_of_le (by simpa using present) some (not_or.mpr ⟨low, high⟩)

/-- Where a request went: down to `root`, in range there. -/
structure Went (t : Table) (i : Nat) (lba : U64) (count : U32) (root : Nat)
    (asked : List (U64 × U32)) (abs : U64) : Prop where
  range : InRange t i lba count
  walked : toRoot t blockMaxDevices i lba = some (root, abs)
  asks : ∀ call ∈ asked, ∃ max fuel, call ∈ driverCalls max fuel abs count

theorem submitTo_went {lba : U64} {count : U32} {asked : List (U64 × U32)}
    (range : InRange t i lba count) (driven : submitTo t i lba count = .driven root asked) :
    ∃ abs, Went t i lba count root asked abs := by
  unfold submitTo at driven
  split at driven
  · cases driven
  rename_i root' abs walked
  cases driven
  exact ⟨abs, range, walked, fun call mem => ⟨_, _, mem⟩⟩

theorem submit_went {lba : U64} {count : U32} {access : Access} {asked : List (U64 × U32)}
    (driven : submit t i lba count access = .driven root asked) :
    ∃ abs, Went t i lba count root asked abs := by
  cases access with
  | read buf =>
    simp only [submit, blockRead] at driven
    split at driven
    · cases driven
    rename_i checked
    rw [not_or, not_not] at checked
    split at driven
    · cases driven
    exact submitTo_went (checkRange_ok checked.1 checked.2) driven
  | write buf =>
    simp only [submit, blockWrite] at driven
    split at driven
    · cases driven
    rename_i checked
    rw [not_or, not_not] at checked
    iterate 4
      split at driven
      · cases driven
    exact submitTo_went (checkRange_ok checked.1 checked.2) driven
  | discard =>
    simp only [submit, blockDiscard] at driven
    split at driven
    · cases driven
    rename_i present
    split at driven
    · cases driven
    split at driven
    · cases driven
    rename_i some
    split at driven
    · cases driven
    rename_i low
    split at driven
    · cases driven
    rename_i high
    have range := inRange_of_le (by simpa using present) some (not_or.mpr ⟨low, high⟩)
    split at driven
    · cases driven
    rename_i root' abs walked
    split at driven
    · cases driven
    cases driven
    refine ⟨abs, range, walked, fun call mem => ⟨0, 1, ?_⟩⟩
    rw [List.mem_singleton.mp mem, driverCalls, if_neg some]
    simp [chunk]

/-- **A slice never leaks.** Whatever was registered, retired and claimed: a slice is made only
inside its parent; the number a request has on the disk is its own plus the first blocks of the
slices on the way down, without a wrap; and what the driver is asked for lies on the disk and in
every device around the one that was named. -/
theorem slices_never_leak (calls : List Call) :
    (∀ parent first count i, (blockRegisterSlice (run .boot calls) parent first count).2 = some i →
      first.toNat + count.toNat ≤ ((run .boot calls).slots parent).blockCount.toNat) ∧
    ∀ i lba count access root asked, submit (run .boot calls) i lba count access = .driven root asked →
      (∃ base abs, Placed (run .boot calls) root i base ∧
        toRoot (run .boot calls) blockMaxDevices i lba = some (root, abs) ∧
        abs.toNat = lba.toNat + base) ∧
      ∀ call ∈ asked,
        call.1.toNat + call.2.toNat ≤ ((run .boot calls).slots root).blockCount.toNat ∧
        ∀ k, Encloses (run .boot calls) k i →
          Within (run .boot calls) root k call.1.toNat call.2.toNat := by
  have nested := Nested.boot.run calls
  generalize run .boot calls = t at nested ⊢
  constructor
  · intro parent first count i made
    exact (blockRegisterSlice_some made).2.1
  · intro i lba count access root asked driven
    obtain ⟨abs, range, walked, asks⟩ := submit_went driven
    have fits := range.fits
    have some : 0 < count.toNat := Nat.pos_of_ne_zero fun none => range.some (BitVec.eq_of_toNat_eq none)
    have used : i < t.count := by
      by_contra away
      have present := range.present
      rw [nested.free i (by omega)] at present
      cases present
    have room : i ≤ blockMaxDevices := Nat.le_trans (Nat.le_of_lt used) nested.room
    obtain ⟨base, placed, sum⟩ := toRoot_spec nested room used (by omega) walked
    have disk := placed.fits nested used
    have size := (t.slots root).blockCount.isLt
    refine ⟨⟨base, abs, placed, walked, sum⟩, fun call mem => ?_⟩
    obtain ⟨max, fuel, one⟩ := asks call mem
    obtain ⟨low, high⟩ := driverCalls_within max (by omega) one
    constructor
    · omega
    · intro k around
      exact (placed.within nested used around).mono (by omega) (by omega)

/-- A disk of 1000 blocks, a partition of it and a volume in that. -/
def volumes : List Call :=
  [.register ⟨true, true⟩ 512 1000, .registerSlice 0 100 500, .registerSlice 1 10 20]

theorem volume_read_within :
    submit (run .boot volumes) 2 5 4 (.read true) = .driven 0 [(115, 4)] ∧
      Within (run .boot volumes) 0 1 115 4 ∧
      (100 : U64).toNat + (500 : U64).toNat ≤
        ((run .boot (volumes.take 1)).slots 0).blockCount.toNat := by
  have driven : submit (run .boot volumes) 2 5 4 (.read true) = .driven 0 [(115, 4)] := by rfl
  have around : Encloses (run .boot volumes) 1 2 := .single ⟨by decide, by decide⟩
  have inside := ((slices_never_leak volumes).2 2 5 4 (.read true) 0 [(115, 4)] driven).2 (115, 4)
    (List.mem_singleton.mpr rfl)
  refine ⟨driven, inside.2 1 around, ?_⟩
  exact (slices_never_leak (volumes.take 1)).1 0 100 500 1 (by decide)

end ReconOS.Block
