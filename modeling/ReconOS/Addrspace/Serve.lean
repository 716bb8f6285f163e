import ReconOS.Addrspace.Filled

/-! What a fault does to the pages: it fills one that was absent, and changes what no other holds. -/
namespace ReconOS.Addrspace

open Machine

variable {volume : Volume} {m m' : Machine} {i i' page page' frame slot addr : Nat} {w write : Bool}
  {f : File} {a : Around} {r : Region}

/-- What a page of a space holds, wherever it is. -/
def Machine.holding (m : Machine) (i page : Nat) : Option Page :=
  match m.entry i page with
  | .absent => none
  | .present frame _ => some (m.bytes frame)
  | .swapped slot => some (m.swap.disk slot)

/-- Where the bytes of a page of a region are in its file, when the cache has it or reads it. -/
def Region.position (r : Region) (page : Nat) : Nat := (r.fileOffset + (page - r.start)) % u64Size

/-- What the handler puts in an absent page of a region. -/
def Region.Fills (r : Region) (page : Nat) (p : Page) : Prop :=
  match r.file with
  | none => ∀ j < pageSize, p j = 0
  | some f =>
    (∀ j < pageSize, p j =
      if page - r.start + j < r.fileLen then byteAt f.bytes (r.position page + j) else 0) ∨
    (f.identity ≠ 0 ∧ r.position page % pageSize = 0 ∧
      ∀ j < pageSize, p j = byteAt f.bytes (r.position page + j))

/-- No more than a write in a page that is nobody's. -/
def Spent (m m' : Machine) : Prop :=
  m' = m ∨ ∃ frame p, m.out frame = false ∧ m' = m.setBytes frame p

/-- What a fault leaves: what every page held, but for one that was absent and is filled. -/
structure Served (volume : Volume) (m m' : Machine) : Prop where
  owned : Owned m'
  filled : Filled volume m'
  regions : ∀ i, (m'.spaces i).regions = (m.spaces i).regions
  places : ∀ i page, m'.holding i page = m.holding i page ∨
    m.holding i page = none ∧ page % pageSize = 0 ∧ ∃ r p, m.regionFor i page = some r ∧
      m'.holding i page = some p ∧ r.Fills page p

namespace Machine

theorem holding_congr (m m' : Machine) (spaces : m'.spaces = m.spaces) (swap : m'.swap = m.swap)
    (bytes : ∀ i page frame w, m.entry i page = .present frame w → m'.bytes frame = m.bytes frame)
    (i page : Nat) : m'.holding i page = m.holding i page := by
  have same : m'.entry i page = m.entry i page := by
    unfold entry
    rw [spaces]
  unfold holding
  rw [same, swap]
  split
  · rfl
  · rename_i frame w at_
    rw [bytes i page frame w at_]
  · rfl

theorem holding_setEntry (m : Machine) (i page frame : Nat) (w : Bool) (i' page' : Nat) :
    (m.setEntry i page (.present frame w)).holding i' page' =
      if i' = i ∧ page' = page then some (m.bytes frame) else m.holding i' page' := by
  unfold holding
  rw [entry_setEntry]
  split
  · rename_i at_
    split at at_
    · cases at_
    · rename_i away
      rw [if_neg away, at_]
  · rename_i at_
    split at at_
    · rename_i here
      cases at_
      rw [if_pos here]
      rfl
    · rename_i away
      rw [if_neg away, at_]
      rfl
  · rename_i at_
    split at at_
    · cases at_
    · rename_i away
      rw [if_neg away, at_]
      rfl

end Machine

theorem regionFor_regions {i : Nat} (same : (m'.spaces i).regions = (m.spaces i).regions) (addr : Nat) :
    m'.regionFor i addr = m.regionFor i addr := by
  unfold Machine.regionFor Space.regionFor
  rw [same]

/-! ## Nothing done -/

theorem Filled.setBytes_loose (filled : Filled volume m) (uncached : Uncached m frame) (p : Page) :
    Filled volume (m.setBytes frame p) where
  files := filled.files
  unshared := filled.unshared
  cached c mem j less := by
    show Function.update m.bytes frame p c.frame j = _
    rw [Function.update_of_ne (uncached c mem)]
    exact filled.cached c mem j less

theorem holding_setBytes_loose (nowhere : ∀ i page w, m.entry i page ≠ .present frame w) (p : Page)
    (i page : Nat) : (m.setBytes frame p).holding i page = m.holding i page := by
  refine holding_congr m (m.setBytes frame p) rfl rfl ?_ i page
  intro i page g w at_
  refine Function.update_of_ne ?_ ..
  rintro rfl
  exact nowhere i page w at_

theorem Served.refl (owned : Owned m) (filled : Filled volume m) : Served volume m m :=
  ⟨owned, filled, fun _ => rfl, fun _ _ => .inl rfl⟩

theorem Spent.served (owned : Owned m) (filled : Filled volume m) (spent : Spent m m') :
    Served volume m m' := by
  cases spent with
  | inl same =>
    rw [same]
    exact .refl owned filled
  | inr wrote =>
    obtain ⟨frame, p, free, rfl⟩ := wrote
    obtain ⟨notZero, uncached, nowhere⟩ := owned.loose free
    exact ⟨owned.setBytes notZero p, filled.setBytes_loose uncached p, fun _ => rfl,
      fun i page => .inl (holding_setBytes_loose nowhere p i page)⟩

/-- Faults one after the other, where the first fills nothing. -/
theorem Served.after {m₁ : Machine} (served : Served volume m₁ m')
    (regions : ∀ i, (m₁.spaces i).regions = (m.spaces i).regions)
    (same : ∀ i page, m₁.holding i page = m.holding i page) : Served volume m m' := by
  refine ⟨served.owned, served.filled, fun i => (served.regions i).trans (regions i), ?_⟩
  intro i page
  rw [← same, ← regionFor_regions (regions i)]
  exact served.places i page

/-! ## A page of its own -/

/-- The machine with a fresh page, filled, at one place. -/
def Machine.gave (m : Machine) (i page frame : Nat) (w : Bool) (p : Page) : Machine :=
  ((m.taken frame).setBytes frame p).setEntry i page (.present frame w)

theorem holding_gave (owned : Owned m) (free : m.out frame = false) (p : Page) (i' page' : Nat) :
    (m.gave i page frame w p).holding i' page' =
      if i' = i ∧ page' = page then some p else m.holding i' page' := by
  obtain ⟨_, _, nowhere⟩ := owned.loose free
  have others : ((m.taken frame).setBytes frame p).holding i' page' = m.holding i' page' :=
    holding_setBytes_loose (m := m.taken frame) nowhere p i' page'
  unfold Machine.gave
  rw [holding_setEntry, others]
  split
  · exact congrArg some (Function.update_self ..)
  · rfl

theorem Owned.gave (owned : Owned m) (free : m.out frame = false) (i page : Nat) (w : Bool) (p : Page) :
    Owned (m.gave i page frame w p) := by
  obtain ⟨notZero, uncached, nowhere⟩ := owned.loose free
  exact ((owned.taken frame).setBytes notZero p).setOwn (Function.update_self ..) notZero uncached
    nowhere i page w

theorem regions_gave (m : Machine) (i page frame : Nat) (w : Bool) (p : Page) (i' : Nat) :
    ((m.gave i page frame w p).spaces i').regions = (m.spaces i').regions :=
  regions_setEntry ..

theorem Filled.setEntry (filled : Filled volume m) (i page : Nat) (e : Entry) :
    Filled volume (m.setEntry i page e) where
  files i' r mem := filled.files i' r (regions_setEntry m i page e i' ▸ mem)
  unshared i' r mem := filled.unshared i' r (regions_setEntry m i page e i' ▸ mem)
  cached := filled.cached

theorem Filled.gave (filled : Filled volume m) (owned : Owned m) (free : m.out frame = false)
    (i page : Nat) (w : Bool) (p : Page) : Filled volume (m.gave i page frame w p) := by
  have given : Filled volume (m.taken frame) := ⟨filled.files, filled.unshared, filled.cached⟩
  exact (given.setBytes_loose (owned.loose free).2.1 p).setEntry i page _

/-- `give_own_page` gives a fresh page, or nothing. -/
theorem giveOwnPage_spec (m : Machine) (i page : Nat) (r : Region) (a : Around)
    (replacing : Option Nat) :
    (m.giveOwnPage i page r replacing a).1 = false ∧ Spent m (m.giveOwnPage i page r replacing a).2 ∨
    ∃ p, m.out a.page = false ∧ m.ownContents page r replacing a.reads = some p ∧
      m.giveOwnPage i page r replacing a = (true, m.gave i page a.page r.writable p) := by
  unfold giveOwnPage
  split
  · exact .inl ⟨rfl, .inl rfl⟩
  rename_i m₁ given
  obtain ⟨free, rfl⟩ := allocPage_eq given
  split
  · exact .inl ⟨rfl, .inr ⟨a.page, zeroes, free, freePage_taken free _⟩⟩
  rename_i p own
  unfold vmMap
  cases a.maps with
  | false => exact .inl ⟨rfl, .inr ⟨a.page, p, free, freePage_taken free _⟩⟩
  | true => exact .inr ⟨p, free, own, rfl⟩

theorem ownContents_fills {reads : Bool} {p : Page}
    (own : m.ownContents page r none reads = some p) : r.Fills page p := by
  unfold ownContents at own
  dsimp only at own
  unfold Region.Fills
  cases file : r.file with
  | none =>
    rw [file] at own
    cases own
    exact fun _ _ => rfl
  | some f =>
    rw [file] at own
    exact .inl fun j less => fillFromFile_eq own less

/-- What a fresh page at an absent place leaves. -/
theorem Served.gave {p : Page} (owned : Owned m) (filled : Filled volume m)
    (aligned : page % pageSize = 0)
    (free : m.out frame = false) (w : Bool) (was : m.holding i page = none)
    (region : m.regionFor i page = some r) (fills : r.Fills page p) :
    Served volume m (m.gave i page frame w p) := by
  refine ⟨owned.gave free i page w p, filled.gave owned free i page w p,
    regions_gave m i page frame w p, ?_⟩
  intro i' page'
  rw [holding_gave owned free]
  split
  · rename_i here
    rw [here.1, here.2]
    exact .inr ⟨was, aligned, r, p, region, rfl, fills⟩
  · exact .inl rfl

theorem giveOwnPage_absent (owned : Owned m) (filled : Filled volume m)
    (aligned : page % pageSize = 0) (was : m.holding i page = none)
    (region : m.regionFor i page = some r) :
    Served volume m (m.giveOwnPage i page r none a).2 := by
  cases giveOwnPage_spec m i page r a none with
  | inl none_ => exact none_.2.served owned filled
  | inr gave =>
    obtain ⟨p, free, own, eq⟩ := gave
    rw [eq]
    exact .gave owned filled aligned free r.writable was region (ownContents_fills own)

/-! ## A page of the cache -/

theorem holding_recount (frame : Nat) (count : Nat → Nat) (i page : Nat) :
    (m.setCache (recount frame count m.cache)).holding i page = m.holding i page :=
  holding_congr m _ rfl rfl (fun _ _ _ _ _ => rfl) i page

theorem Filled.recount (filled : Filled volume m) (frame : Nat) (count : Nat → Nat) :
    Filled volume (m.setCache (recount frame count m.cache)) := by
  refine ⟨filled.files, filled.unshared, ?_⟩
  intro c mem j less
  obtain ⟨d, mem', same, fs, identity, offset, _⟩ := mem_recount mem
  rw [same, fs, identity, offset]
  exact filled.cached d mem' j less

/-- The cache's answer mapped, or put back. -/
theorem mapCached_served {m₁ : Machine} (filled : Filled volume m) (aligned : page % pageSize = 0)
    (region : m.regionFor i page = some r) (file : r.file = some f) (was : m.holding i page = none)
    (answered : Answered volume m f (r.position page) frame m₁) :
    Served volume m (m₁.mapCached i page r frame a).2 := by
  have regions (i : Nat) : (m₁.spaces i).regions = (m.spaces i).regions := by rw [answered.spaces]
  have same := holding_congr m m₁ answered.spaces answered.swap answered.bytes
  have mem : r ∈ (m.spaces i).regions := List.mem_of_find?_eq_some region
  unfold mapCached
  rw [filled.unshared i r mem, if_neg (by simp)]
  unfold vmMap
  cases a.maps with
  | false =>
    have put : Owned (m₁.pagecachePut frame) :=
      answered.owned.recount fun c mem at_ => (answered.spare c mem at_).2
    refine ⟨put, answered.filled.recount _ _, regions, ?_⟩
    exact fun i page => .inl ((holding_recount ..).trans (same i page))
  | true =>
    obtain ⟨c, mem', at_⟩ := answered.mine
    have out : m₁.out frame = true := at_ ▸ (answered.owned.cached c mem').2.1
    have owned : Owned (m₁.setEntry i page (.present frame false)) := by
      refine answered.owned.setShared out (.inr ⟨c, mem', at_⟩) ?_
      intro d mem at_
      obtain ⟨some_, held⟩ := answered.spare d mem at_
      have mapped := held.map i page false
      rw [Nat.sub_add_cancel some_] at mapped
      exact mapped
    show Served volume m (m₁.setEntry i page (.present frame false))
    refine ⟨owned, answered.filled.setEntry .., ?_, ?_⟩
    · exact fun i' => (regions_setEntry ..).trans (regions i')
    · intro i' page'
      rw [holding_setEntry, same]
      split
      · rename_i here
        rw [here.1, here.2]
        refine .inr ⟨was, aligned, r, _, region, rfl, ?_⟩
        unfold Region.Fills
        rw [file]
        exact .inr ⟨answered.named.1, answered.named.2, answered.has⟩
      · exact .inl rfl

theorem faultAbsent_served (owned : Owned m) (filled : Filled volume m)
    (aligned : page % pageSize = 0)
    (region : m.regionFor i page = some r) (was : m.holding i page = none) :
    Served volume m (m.faultAbsent i page r write a).2 := by
  have mem : r ∈ (m.spaces i).regions := List.mem_of_find?_eq_some region
  unfold faultAbsent
  cases file : r.file with
  | none =>
    dsimp only
    cases write with
    | true => exact giveOwnPage_absent owned filled aligned was region
    | false =>
      rw [if_neg (by simp)]
      unfold vmMap
      cases a.maps with
      | false => exact .refl owned filled
      | true =>
        show Served volume m (m.setEntry i page (.present m.zeroPage false))
        refine ⟨owned.setZero i page, filled.setEntry .., regions_setEntry m i page _, ?_⟩
        intro i' page'
        rw [holding_setEntry]
        split
        · rename_i here
          rw [here.1, here.2]
          refine .inr ⟨was, aligned, r, _, region, rfl, ?_⟩
          unfold Region.Fills
          rw [file]
          exact fun j _ => owned.zeroes j
        · exact .inl rfl
  | some f =>
    dsimp only
    have on := filled.files i r mem f file
    cases pagecacheGet_spec owned filled on (r.position page) a with
    | inl got =>
      obtain ⟨frame, got, answered⟩ := got
      unfold Region.position at got answered
      split
      · rename_i frame' m₁ eq
        rw [eq] at got answered
        cases got
        exact mapCached_served filled aligned region file was answered
      · rename_i m₁ eq
        rw [eq] at got
        cases got
    | inr refused =>
      obtain ⟨refused, spent⟩ := refused
      unfold Region.position at refused spent
      split
      · rename_i frame' m₁ eq
        rw [eq] at refused
        cases refused
      · rename_i m₁ eq
        rw [eq] at spent
        have served : Served volume m m₁ := Spent.served owned filled spent
        have same : ∀ i page, m₁.holding i page = m.holding i page := by
          cases spent with
          | inl same =>
            have same : m₁ = m := same
            rw [same]
            exact fun _ _ => rfl
          | inr wrote =>
            obtain ⟨g, p, free, wrote⟩ := wrote
            have wrote : m₁ = m.setBytes g p := wrote
            rw [wrote]
            exact holding_setBytes_loose (owned.loose free).2.2 p
        have region' : m₁.regionFor i page = some r :=
          (regionFor_regions (served.regions i) page).trans region
        exact (giveOwnPage_absent served.owned served.filled aligned ((same i page).trans was) region').after
          served.regions same

/-! ## A copy -/

theorem faultPresent_served (owned : Owned m) (filled : Filled volume m)
    (at_ : m.entry i page = .present frame w) : Served volume m (m.faultPresent i page r frame write a).2 := by
  unfold faultPresent
  dsimp only
  split
  swap
  · exact .refl owned filled
  cases giveOwnPage_spec m i page r a (some frame) with
  | inl none_ =>
    obtain ⟨refused, spent⟩ := none_
    split
    · rename_i m₁ eq
      rw [eq] at spent
      exact spent.served owned filled
    · rename_i m₁ eq
      rw [eq] at refused
      cases refused
  | inr gave =>
    obtain ⟨p, free, own, eq⟩ := gave
    rw [eq]
    dsimp only
    cases own
    have other : frame ≠ a.page := by
      rintro rfl
      exact (owned.loose free).2.2 i page w at_
    have places (i' page' : Nat) :
        (m.gave i page a.page r.writable (m.bytes frame)).holding i' page' = m.holding i' page' := by
      rw [holding_gave owned free]
      split
      · rename_i here
        rw [here.1, here.2]
        unfold Machine.holding
        rw [at_]
      · rfl
    have owned₁ := owned.gave free i page r.writable (m.bytes frame)
    have filled₁ := filled.gave owned free i page r.writable (m.bytes frame)
    have regions₁ := regions_gave m i page a.page r.writable (m.bytes frame)
    cases cached : m.cacheOwns frame with
    | false =>
      rw [if_neg (by simp)]
      exact ⟨owned₁, filled₁, regions₁, fun i page => .inl (places i page)⟩
    | true =>
      rw [if_pos rfl]
      refine ⟨?_, filled₁.recount _ _, regions₁, ?_⟩
      · refine owned₁.recount ?_
        intro c mem same
        have held := (owned.cached c mem).2.2
        rw [same] at held
        have now (w' : Bool) : Entry.present a.page r.writable ≠ .present frame w' := by
          intro same
          exact other (Entry.present.inj same).1.symm
        have unmapped := held.unmap at_ ⟨now true, now false⟩
        refine unmapped.mono (Nat.le_refl _) ?_
        intro i' page' w' at_'
        exact at_'
      · exact fun i page => .inl ((holding_recount ..).trans (places i page))

end ReconOS.Addrspace
