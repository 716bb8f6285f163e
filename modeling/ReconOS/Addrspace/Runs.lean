import ReconOS.Addrspace.Serve

/-! What every call leaves, and what every run leaves. -/
namespace ReconOS.Addrspace

open Machine

variable {volume : Volume} {m m' : Machine} {i i' page page' frame slot addr : Nat} {write : Bool}
  {f : File} {a : Around} {r : Region}

/-! ## A page back from the store -/

theorem Filled.setSwap (filled : Filled volume m) (swap : Swap) : Filled volume (m.setSwap swap) :=
  ⟨filled.files, filled.unshared, filled.cached⟩

/-- A store with other slots in use, among them all that the tables have. -/
theorem Owned.setSwap {swap : Swap} (owned : Owned m)
    (slots : ∀ i page slot, m.entry i page = .swapped slot → slot < swap.slots ∧ swap.inUse slot = true)
    (zero : swap.inUse 0 = true) : Owned (m.setSwap swap) where
  zero := owned.zero
  zeroes := owned.zeroes
  out := owned.out
  lent := owned.lent
  sole := owned.sole
  cached := owned.cached
  distinct := owned.distinct
  slot i page s at_ := ⟨(owned.slot i page s at_).1, slots i page s at_⟩
  slotSole := owned.slotSole
  slotZero := zero

theorem Owned.swapFree (owned : Owned m) (nowhere : ∀ i page, m.entry i page ≠ .swapped slot) :
    Owned (m.swapFree slot) := by
  unfold Machine.swapFree
  split
  · exact owned
  rename_i inside
  rw [not_or] at inside
  refine owned.setSwap ?_ ?_
  · intro i page s at_
    obtain ⟨_, less, inUse⟩ := owned.slot i page s at_
    refine ⟨less, ?_⟩
    show Function.update m.swap.inUse slot false s = true
    rw [Function.update_of_ne]
    · exact inUse
    · rintro rfl
      exact nowhere i page at_
  · show Function.update m.swap.inUse slot false 0 = true
    rw [Function.update_of_ne (Ne.symm inside.1)]
    exact owned.slotZero

theorem swapFree_spaces (m : Machine) (slot : Nat) : (m.swapFree slot).spaces = m.spaces := by
  unfold Machine.swapFree
  split <;> rfl

theorem swapFree_cache (m : Machine) (slot : Nat) : (m.swapFree slot).cache = m.cache := by
  unfold Machine.swapFree
  split <;> rfl

theorem Filled.swapFree (filled : Filled volume m) (slot : Nat) : Filled volume (m.swapFree slot) := by
  unfold Machine.swapFree
  split
  · exact filled
  · exact filled.setSwap _

theorem holding_swapFree (m : Machine) (slot i page : Nat) :
    (m.swapFree slot).holding i page = m.holding i page := by
  unfold Machine.swapFree
  split <;> rfl

/-- `evict_fault_in` brings the page back, or leaves it in the store. -/
theorem evictFaultIn_spec (i page slot : Nat) (w : Bool) :
    Spent m (m.evictFaultIn i page slot w a).2 ∨
      m.out a.page = false ∧ (m.evictFaultIn i page slot w a).2 =
        (m.gave i page a.page w (m.swap.disk slot)).swapFree slot := by
  unfold evictFaultIn
  split
  · exact .inl (.inl rfl)
  split
  · exact .inl (.inl rfl)
  rename_i m₁ given
  obtain ⟨free, rfl⟩ := allocPage_eq given
  split
  · refine .inl (.inr ⟨a.page, m.bytes a.page, free, ?_⟩)
    have same := freePage_taken free (m.bytes a.page)
    rw [← same]
    show (m.taken a.page).freePage a.page = _
    unfold Machine.setBytes
    show _ = Machine.freePage { m.taken a.page with bytes := Function.update m.bytes a.page _ } a.page
    rw [Function.update_eq_self]
    rfl
  rename_i p read
  have read : p = m.swap.disk slot := by
    unfold swapReadPage at read
    split at read
    · cases read
    · exact (Option.some.inj read).symm
  unfold vmMap
  cases a.maps with
  | false => exact .inl (.inr ⟨a.page, p, free, freePage_taken free _⟩)
  | true => exact .inr ⟨free, read ▸ rfl⟩

theorem evictFaultIn_served {w : Bool} (owned : Owned m) (filled : Filled volume m)
    (at_ : m.entry i page = .swapped slot) : Served volume m (m.evictFaultIn i page slot w a).2 := by
  cases evictFaultIn_spec (m := m) (a := a) i page slot w with
  | inl spent => exact spent.served owned filled
  | inr gave =>
    obtain ⟨free, eq⟩ := gave
    rw [eq]
    have nowhere (i' page' : Nat) :
        (m.gave i page a.page w (m.swap.disk slot)).entry i' page' ≠ .swapped slot := by
      unfold Machine.gave
      rw [entry_setEntry]
      split
      · exact Entry.noConfusion
      · rename_i away
        exact fun other => away (owned.slotSole i page i' page' slot at_ other)
    refine ⟨(owned.gave free ..).swapFree nowhere, (filled.gave owned free ..).swapFree slot, ?_, ?_⟩
    · intro i'
      rw [swapFree_spaces]
      exact regions_gave ..
    · intro i' page'
      rw [holding_swapFree, holding_gave owned free]
      split
      · rename_i here
        rw [here.1, here.2]
        unfold Machine.holding
        rw [at_]
        exact .inl rfl
      · exact .inl rfl

/-! ## The shape of the tables -/

/-- Regions are whole pages, and what the tables have is pages of regions. -/
structure Shaped (m : Machine) : Prop where
  aligned : ∀ i, ∀ r ∈ (m.spaces i).regions, r.start % pageSize = 0 ∧ r.stop % pageSize = 0
  inside : ∀ i page, m.holding i page ≠ none → page % pageSize = 0 ∧ (m.regionFor i page).isSome = true

theorem pageOf_mod (addr : Nat) : pageOf addr % pageSize = 0 := Nat.mul_mod_left ..

theorem pageOf_add (addr : Nat) : pageOf addr + addr % pageSize = addr := by
  unfold pageOf
  rw [Nat.mul_comm]
  exact Nat.div_add_mod ..

theorem pageOf_of_aligned {page j : Nat} (aligned : page % pageSize = 0) (less : j < pageSize) :
    pageOf (page + j) = page ∧ (page + j) % pageSize = j := by
  unfold pageOf
  simp only [pageSize] at *
  omega

theorem Shaped.regionFor_pageOf (shaped : Shaped m) (i addr : Nat) :
    m.regionFor i (pageOf addr) = m.regionFor i addr := by
  unfold Machine.regionFor Space.regionFor
  have same : ∀ r ∈ (m.spaces i).regions, decide (r.Covers (pageOf addr)) = decide (r.Covers addr) := by
    intro r mem
    obtain ⟨start, stop⟩ := shaped.aligned i r mem
    refine decide_eq_decide.2 ?_
    unfold Region.Covers pageOf
    simp only [pageSize] at *
    omega
  generalize (m.spaces i).regions = regions at same
  induction regions with
  | nil => rfl
  | cons r rest ih =>
    rw [List.find?_cons, List.find?_cons, same r (List.mem_cons_self ..),
      ih fun r mem => same r (List.mem_cons_of_mem _ mem)]

theorem Served.shaped (served : Served volume m m') (shaped : Shaped m) : Shaped m' := by
  constructor
  · intro i r mem
    exact shaped.aligned i r (served.regions i ▸ mem)
  · intro i page held
    rw [regionFor_regions (served.regions i)]
    cases served.places i page with
    | inl same =>
      rw [same] at held
      exact shaped.inside i page held
    | inr filled =>
      obtain ⟨_, aligned, r, p, region, _⟩ := filled
      exact ⟨aligned, by rw [region]; rfl⟩

/-- `vm_fault_user`. -/
theorem vmFaultUser_served (owned : Owned m) (filled : Filled volume m) (shaped : Shaped m)
    (i addr : Nat) (write : Bool) (a : Around) : Served volume m (m.vmFaultUser i addr write a).2 := by
  unfold vmFaultUser
  split
  · exact .refl owned filled
  rename_i r region
  rw [← shaped.regionFor_pageOf] at region
  split
  · rename_i at_
    refine faultAbsent_served owned filled (pageOf_mod addr) region ?_
    unfold Machine.holding
    rw [at_]
  · rename_i slot at_
    exact evictFaultIn_served owned filled at_
  · rename_i frame w at_
    exact faultPresent_served owned filled at_

/-! ## Writing -/

/-- A write that lands is in one page of one space. -/
theorem write_spec (owned : Owned m) (filled : Filled volume m) (lands : m.writes i addr = some frame)
    (byte : Nat) : Owned (m.write i addr byte) ∧ Filled volume (m.write i addr byte) ∧
      (m.write i addr byte).spaces = m.spaces ∧ (∃ p, m.holding i (pageOf addr) = some p ∧
        (m.write i addr byte).holding i (pageOf addr) =
          some (Function.update p (addr % pageSize) byte)) ∧
      ∀ i' page, ¬(i' = i ∧ page = pageOf addr) →
        (m.write i addr byte).holding i' page = m.holding i' page := by
  have at_ : m.entry i (pageOf addr) = .present frame true := by
    unfold Machine.writes at lands
    split at lands
    · rename_i g at_
      cases lands
      exact at_
    all_goals cases lands
  obtain ⟨notZero, uncached⟩ := owned.lent _ _ _ at_
  unfold Machine.write
  rw [lands]
  dsimp only
  refine ⟨owned.setBytes notZero _, filled.setBytes_loose uncached _, rfl, ?_, ?_⟩
  · refine ⟨m.bytes frame, ?_, ?_⟩
    · unfold Machine.holding
      rw [at_]
    · unfold Machine.holding
      rw [entry_setBytes, at_]
      exact congrArg some (Function.update_self ..)
  · intro i' page away
    unfold Machine.holding
    rw [entry_setBytes]
    split
    · rfl
    · rename_i g w at_'
      refine congrArg some (Function.update_of_ne ?_ ..)
      rintro rfl
      exact away (owned.sole _ _ _ _ _ _ _ at_ at_' notZero uncached)
    · rfl

/-! ## Evicting -/

/-- A machine with no file in it. -/
structure Anonymous (m : Machine) : Prop where
  cache : m.cache = []
  regions : ∀ i, ∀ r ∈ (m.spaces i).regions, r.file = none

/-- What eviction leaves: what every page held. -/
structure Kept (volume : Volume) (m m' : Machine) : Prop where
  owned : Owned m'
  filled : Filled volume m'
  regions : ∀ i, (m'.spaces i).regions = (m.spaces i).regions
  cache : m'.cache = m.cache
  places : ∀ i page, m'.holding i page = m.holding i page

theorem Kept.refl (owned : Owned m) (filled : Filled volume m) : Kept volume m m :=
  ⟨owned, filled, fun _ => rfl, rfl, fun _ _ => rfl⟩

theorem Kept.trans {m₁ : Machine} (kept : Kept volume m m₁) (kept' : Kept volume m₁ m') :
    Kept volume m m' :=
  ⟨kept'.owned, kept'.filled, fun i => (kept'.regions i).trans (kept.regions i),
    kept'.cache.trans kept.cache, fun i page => (kept'.places i page).trans (kept.places i page)⟩

theorem freeSlot_spec (free : m.freeSlot = some slot) :
    slot < m.swap.slots ∧ m.swap.inUse slot = false := by
  unfold Machine.freeSlot at free
  have mem := List.mem_of_find?_eq_some free
  obtain ⟨k, less, rfl⟩ := List.mem_map.1 mem
  have some_ : 0 < m.swap.slots := Nat.zero_lt_of_lt (List.mem_range.1 less)
  exact ⟨Nat.mod_lt _ some_, by simpa using List.find?_some free⟩

/-- A write to a slot that was free. -/
theorem setSwap_kept {swap : Swap} (owned : Owned m) (filled : Filled volume m)
    (free : m.swap.inUse slot = false) (slots : swap.slots = m.swap.slots)
    (inUse : ∀ s, s ≠ slot → swap.inUse s = m.swap.inUse s)
    (disk : ∀ s, s ≠ slot → swap.disk s = m.swap.disk s) : Kept volume m (m.setSwap swap) := by
  have other (i page s : Nat) (at_ : m.entry i page = .swapped s) : s ≠ slot := by
    rintro rfl
    rw [(owned.slot i page s at_).2.2] at free
    cases free
  refine ⟨owned.setSwap ?_ ?_, filled.setSwap _, fun _ => rfl, rfl, ?_⟩
  · intro i page s at_
    obtain ⟨_, less, used⟩ := owned.slot i page s at_
    rw [slots, inUse s (other i page s at_)]
    exact ⟨less, used⟩
  · rw [inUse 0]
    · exact owned.slotZero
    · rintro rfl
      rw [owned.slotZero] at free
      cases free
  · intro i page
    unfold Machine.holding
    rw [entry_setSwap]
    split
    · rfl
    · rfl
    · rename_i s at_
      exact congrArg some (disk s (other i page s at_))

/-- A page whose contents are in a slot of its own is its owner's alone to lose. -/
theorem swapOut_kept {w : Bool} (owned : Owned m) (filled : Filled volume m) (cache : m.cache = [])
    (at_ : m.entry i page = .present frame w) (notZero : frame ≠ m.zeroPage) (some_ : slot ≠ 0)
    (less : slot < m.swap.slots) (used : m.swap.inUse slot = true)
    (nowhere : ∀ i page, m.entry i page ≠ .swapped slot) (disk : m.swap.disk slot = m.bytes frame) :
    Kept volume m ((m.setEntry i page (.swapped slot)).freePage frame) := by
  have uncached : Uncached m frame := by
    intro c mem
    rw [cache] at mem
    cases mem
  have old (i' page' : Nat) (f : Nat) (w' : Bool)
      (at' : (m.setEntry i page (.swapped slot)).entry i' page' = .present f w') :
      m.entry i' page' = .present f w' ∧ ¬(i' = i ∧ page' = page) := by
    rw [entry_setEntry] at at'
    split at at'
    · cases at'
    · rename_i away
      exact ⟨at', away⟩
  have swapped (i' page' s : Nat)
      (at' : (m.setEntry i page (.swapped slot)).entry i' page' = .swapped s) :
      (i' = i ∧ page' = page ∧ s = slot) ∨ m.entry i' page' = .swapped s := by
    rw [entry_setEntry] at at'
    split at at'
    · rename_i here
      cases at'
      exact .inl ⟨here.1, here.2, rfl⟩
    · exact .inr at'
  have owned₁ : Owned (m.setEntry i page (.swapped slot)) := by
    constructor
    case zero => exact owned.zero
    case zeroes => exact owned.zeroes
    case out => exact fun i' page' f w' at' => owned.out i' page' f w' (old i' page' f w' at').1
    case lent => exact fun i' page' f at' => owned.lent i' page' f (old i' page' f true at').1
    case sole =>
      exact fun i₁ page₁ f w₁ i₂ page₂ w₂ at₁ at₂ =>
        owned.sole i₁ page₁ f w₁ i₂ page₂ w₂ (old _ _ _ _ at₁).1 (old _ _ _ _ at₂).1
    case cached =>
      intro c mem
      have mem : c ∈ m.cache := mem
      rw [cache] at mem
      cases mem
    case distinct => exact owned.distinct
    case slot =>
      intro i' page' s at'
      cases swapped i' page' s at' with
      | inl here =>
        rw [here.2.2]
        exact ⟨some_, less, used⟩
      | inr was => exact owned.slot i' page' s was
    case slotSole =>
      intro i₁ page₁ i₂ page₂ s at₁ at₂
      cases swapped i₁ page₁ s at₁ with
      | inl here =>
        cases swapped i₂ page₂ s at₂ with
        | inl here' => exact ⟨here'.1.trans here.1.symm, here'.2.1.trans here.2.1.symm⟩
        | inr was => exact absurd (here.2.2 ▸ was) (nowhere i₂ page₂)
      | inr was =>
        cases swapped i₂ page₂ s at₂ with
        | inl here => exact absurd (here.2.2 ▸ was) (nowhere i₁ page₁)
        | inr was' => exact owned.slotSole i₁ page₁ i₂ page₂ s was was'
    case slotZero => exact owned.slotZero
  have gone (i' page' : Nat) (w' : Bool) :
      (m.setEntry i page (.swapped slot)).entry i' page' ≠ .present frame w' := by
    intro at'
    obtain ⟨was, away⟩ := old i' page' frame w' at'
    exact away (owned.sole i page frame w i' page' w' at_ was notZero uncached)
  have filled₁ := filled.setEntry i page (.swapped slot)
  refine ⟨owned₁.freePage notZero uncached gone, ⟨filled₁.files, filled₁.unshared, filled₁.cached⟩,
    regions_setEntry m i page _, rfl, ?_⟩
  intro i' page'
  show (m.setEntry i page (.swapped slot)).holding i' page' = _
  unfold Machine.holding
  rw [entry_setEntry]
  by_cases here : i' = i ∧ page' = page
  · rw [if_pos here, here.1, here.2, at_]
    exact congrArg some disk
  · rw [if_neg here]
    rfl

theorem evictPage_kept (owned : Owned m) (filled : Filled volume m) (cache : m.cache = [])
    (i va : Nat) (c : Cold) : Kept volume m (m.evictPage i va c).2 := by
  unfold evictPage
  split
  · exact .refl owned filled
  · exact .refl owned filled
  rename_i frame w at_
  split
  · exact .refl owned filled
  rename_i evictable
  rw [not_or] at evictable
  unfold swapWritePage
  cases free : m.freeSlot with
  | none => exact .refl owned filled
  | some slot =>
    obtain ⟨less, unused⟩ := freeSlot_spec free
    have nowhere (i page : Nat) : m.entry i page ≠ .swapped slot := by
      intro at_
      rw [(owned.slot i page slot at_).2.2] at unused
      cases unused
    dsimp only
    cases c.writes with
    | false =>
      exact setSwap_kept owned filled unused rfl (fun _ _ => rfl)
        fun s other => Function.update_of_ne other ..
    | true =>
      rw [if_pos rfl]
      dsimp only
      generalize store : ({ m.swap with
        hint := (slot + 1) % m.swap.slots
        inUse := Function.update m.swap.inUse slot true
        disk := Function.update m.swap.disk slot (m.bytes frame) } : Swap) = swap
      have kept : Kept volume m (m.setSwap swap) := by
        subst store
        exact setSwap_kept owned filled unused rfl (fun s other => Function.update_of_ne other ..)
          fun s other => Function.update_of_ne other ..
      split
      · refine kept.trans ⟨kept.owned.swapFree nowhere, kept.filled.swapFree slot, ?_, ?_, ?_⟩
        · exact fun i => by rw [swapFree_spaces]
        · exact swapFree_cache ..
        · exact fun i page => holding_swapFree ..
      · rename_i replaced
        rw [not_or] at replaced
        refine kept.trans (swapOut_kept kept.owned kept.filled cache at_ evictable.1 replaced.1
          ?_ ?_ nowhere ?_)
        · subst store
          exact less
        · subst store
          exact Function.update_self ..
        · subst store
          exact Function.update_self ..

theorem evictLoop_kept {cold : Nat → Cold} {vas : List Nat} {want : Nat} (owned : Owned m)
    (filled : Filled volume m) (cache : m.cache = []) :
    Kept volume m (evictLoop i cold vas want m) := by
  induction vas generalizing m want with
  | nil => exact .refl owned filled
  | cons va rest ih =>
    cases want with
    | zero => exact .refl owned filled
    | succ want =>
      have kept := evictPage_kept owned filled cache i va (cold va)
      unfold evictLoop
      split
      · rename_i m₁ eq
        rw [eq] at kept
        exact kept.trans (ih kept.owned kept.filled (kept.cache.trans cache))
      · rename_i m₁ eq
        rw [eq] at kept
        exact kept.trans (ih kept.owned kept.filled (kept.cache.trans cache))
      · rename_i m₁ eq
        rw [eq] at kept
        exact kept

theorem evictPages_kept (owned : Owned m) (filled : Filled volume m) (cache : m.cache = [])
    (i want : Nat) (cold : Nat → Cold) : Kept volume m (m.evictPages i want cold) := by
  unfold evictPages
  split
  · exact .refl owned filled
  · exact evictLoop_kept owned filled cache

end ReconOS.Addrspace
