import ReconOS.Addrspace.Runs

/-! What a program reads is what it last wrote there, or else what its region was promised to be. -/
namespace ReconOS.Addrspace

open Machine

variable {volume : Volume} {K : Region → Prop} {m m' : Machine} {i i' page page' addr : Nat}
  {f : File} {r : Region} {w : World}

/-! ## Regions -/

/-- What a region is to hold where nothing has been written. -/
def Region.meant (r : Region) (addr : Nat) : Nat :=
  match r.file with
  | none => 0
  | some f => if addr - r.start < r.fileLen then byteAt f.bytes (r.fileOffset + (addr - r.start)) else 0

/-- Where the handler looks in the file for the byte at an offset of the region. -/
def Region.looksAt (r : Region) (k : Nat) : Nat :=
  (r.fileOffset + pageOf k) % u64Size + k % pageSize

/-- The cache may have pages of the region's file. -/
def Region.Cacheable (r : Region) (f : File) : Prop := f.identity ≠ 0 ∧ r.fileOffset % pageSize = 0

/-- Where the file part's offsets run past 2^64 they come to nothing in the file; and if the cache
may answer, the file has nothing but zeroes from where the region's file part ends to where the
region does. -/
def Region.Agrees (r : Region) (f : File) : Prop :=
  ∀ k < r.stop - r.start,
    (k < r.fileLen → byteAt f.bytes (r.looksAt k) = byteAt f.bytes (r.fileOffset + k)) ∧
    (r.fileLen ≤ k → r.Cacheable f → byteAt f.bytes (r.looksAt k) = 0)

theorem Region.looksAt_page {k j : Nat} (aligned : k % pageSize = 0) (less : j < pageSize) :
    r.looksAt (k + j) = (r.fileOffset + k) % u64Size + j := by
  obtain ⟨page, rest⟩ := pageOf_of_aligned aligned less
  unfold Region.looksAt
  rw [page, rest]

/-- What the handler fills a page with is what the page is to hold, where the two agree. -/
theorem Region.Fills.meant {p : Page} (fills : r.Fills page p) (covers : r.Covers page)
    (aligned : page % pageSize = 0) (start : r.start % pageSize = 0) (stop : r.stop % pageSize = 0)
    (agrees : ∀ f, r.file = some f → r.Agrees f) : ∀ j < pageSize, p j = r.meant (page + j) := by
  intro j less
  obtain ⟨low, high⟩ := covers
  unfold Region.Fills at fills
  unfold Region.meant
  cases file : r.file with
  | none =>
    rw [file] at fills
    exact fills j less
  | some f =>
    rw [file] at fills
    dsimp only at fills ⊢
    have at_ : page + j - r.start = page - r.start + j := by omega
    have whole : (page - r.start) % pageSize = 0 := by
      simp only [pageSize] at *
      omega
    have looks : r.looksAt (page - r.start + j) = r.position page + j := r.looksAt_page whole less
    have inside : page - r.start + j < r.stop - r.start := by
      simp only [pageSize] at *
      omega
    obtain ⟨within, past⟩ := agrees f file (page - r.start + j) inside
    rw [looks] at within past
    rw [at_]
    cases fills with
    | inl filled =>
      rw [filled j less]
      split
      · rename_i backed
        exact within backed
      · rfl
    | inr cached =>
      obtain ⟨named, offset, has⟩ := cached
      rw [has j less]
      split
      · rename_i backed
        exact within backed
      · rename_i unbacked
        refine past (Nat.le_of_not_lt unbacked) ⟨named, ?_⟩
        unfold Region.position at offset
        simp only [pageSize, u64Size] at *
        omega

/-! ## The invariant -/

/-- Nothing was written where there is no page; and where there is one, in a region of the kind
`K`, it holds what was last written, over what the region was promised to be. -/
structure Sound (volume : Volume) (K : Region → Prop) (w : World) : Prop where
  owned : Owned w.machine
  filled : Filled volume w.machine
  shaped : Shaped w.machine
  fresh : ∀ i page, w.machine.holding i page = none → page % pageSize = 0 →
    ∀ j < pageSize, w.last i (page + j) = none
  right : ∀ i page r p, w.machine.regionFor i page = some r → K r →
    w.machine.holding i page = some p →
    ∀ j < pageSize, p j = (w.last i (page + j)).getD (r.meant (page + j))

theorem regionFor_covers (region : m.regionFor i addr = some r) :
    r ∈ (m.spaces i).regions ∧ r.Covers addr :=
  ⟨List.mem_of_find?_eq_some region, by simpa using List.find?_some region⟩

theorem Sound.start (booted : m.Booted) : Sound volume K (.start m) := by
  have absent (i page : Nat) : m.entry i page = .absent := by
    unfold Machine.entry
    rw [booted.spaces]
  have none_ (i page : Nat) : m.holding i page = none := by
    unfold Machine.holding
    rw [absent]
  have regions (i : Nat) (r : Region) : r ∉ (m.spaces i).regions := by
    rw [booted.spaces]
    exact List.not_mem_nil
  have cache (c : Cached) : c ∉ m.cache := by
    rw [booted.cache]
    exact List.not_mem_nil
  constructor
  case owned =>
    constructor
    case zero => exact booted.zero
    case zeroes => exact booted.zeroes
    case out => exact fun i page f w at_ => absurd ((absent i page).symm.trans at_) Entry.noConfusion
    case lent => exact fun i page f at_ => absurd ((absent i page).symm.trans at_) Entry.noConfusion
    case sole =>
      exact fun i page f w _ _ _ at_ => absurd ((absent i page).symm.trans at_) Entry.noConfusion
    case cached => exact fun c mem => absurd mem (cache c)
    case distinct =>
      show (m.cache.map Cached.frame).Nodup
      rw [booted.cache]
      exact List.nodup_nil
    case slot => exact fun i page s at_ => absurd ((absent i page).symm.trans at_) Entry.noConfusion
    case slotSole =>
      exact fun i page _ _ s at_ => absurd ((absent i page).symm.trans at_) Entry.noConfusion
    case slotZero => exact (booted.slots 0).trans (by decide)
  case filled =>
    exact ⟨fun i r mem => absurd mem (regions i r), fun i r mem => absurd mem (regions i r),
      fun c mem => absurd mem (cache c)⟩
  case shaped =>
    exact ⟨fun i r mem => absurd mem (regions i r), fun i page held => absurd (none_ i page) held⟩
  case fresh => exact fun _ _ _ _ _ _ => rfl
  case right =>
    intro i page r p _ _ held
    cases (none_ i page).symm.trans held

/-! ## Faults and eviction -/

theorem Sound.served {last : Written} (agrees : ∀ r, K r → ∀ f, r.file = some f → r.Agrees f)
    (sound : Sound volume K ⟨m, last⟩) (served : Served volume m m') : Sound volume K ⟨m', last⟩ where
  owned := served.owned
  filled := served.filled
  shaped := served.shaped sound.shaped
  fresh i page none_ aligned := by
    cases served.places i page with
    | inl same => exact sound.fresh i page (same ▸ none_) aligned
    | inr filled => exact sound.fresh i page filled.1 aligned
  right i page r p region kind held j less := by
    have region : m.regionFor i page = some r := (regionFor_regions (served.regions i) page) ▸ region
    cases served.places i page with
    | inl same => exact sound.right i page r p region kind (same ▸ held) j less
    | inr filled =>
      obtain ⟨was, aligned, r', p', region', held', fills⟩ := filled
      cases region.symm.trans region'
      cases held.symm.trans held'
      obtain ⟨mem, covers⟩ := regionFor_covers region
      obtain ⟨start, stop⟩ := sound.shaped.aligned i r mem
      rw [fills.meant covers aligned start stop (agrees r kind) j less,
        sound.fresh i page was aligned j less]
      rfl

theorem Sound.kept {last : Written} (sound : Sound volume K ⟨m, last⟩) (kept : Kept volume m m') :
    Sound volume K ⟨m', last⟩ where
  owned := kept.owned
  filled := kept.filled
  shaped := by
    refine ⟨fun i r mem => sound.shaped.aligned i r (kept.regions i ▸ mem), ?_⟩
    intro i page held
    rw [regionFor_regions (kept.regions i)]
    exact sound.shaped.inside i page (kept.places i page ▸ held)
  fresh i page none_ := sound.fresh i page (kept.places i page ▸ none_)
  right i page r p region kind held :=
    sound.right i page r p (regionFor_regions (kept.regions i) page ▸ region) kind
      (kept.places i page ▸ held)

/-! ## Writing -/

theorem Sound.write {last : Written} (sound : Sound volume K ⟨m, last⟩) (i addr byte : Nat) :
    Sound volume K ⟨m.write i addr byte, last.after m (.write i addr byte)⟩ := by
  unfold Written.after
  dsimp only
  cases lands : m.writes i addr with
  | none =>
    unfold Machine.write
    rw [lands]
    exact sound
  | some frame =>
    obtain ⟨owned, filled, spaces, here, away⟩ := write_spec sound.owned sound.filled lands byte
    obtain ⟨p, was, now⟩ := here
    have regions (i' addr' : Nat) : (m.write i addr byte).regionFor i' addr' = m.regionFor i' addr' := by
      unfold Machine.regionFor
      rw [spaces]
    have inside := sound.shaped.inside i (pageOf addr) (by
      show m.holding i (pageOf addr) ≠ none
      rw [was]
      exact Option.some_ne_none p)
    have other (i' page j : Nat) (aligned : page % pageSize = 0) (less : j < pageSize)
        (there : ¬(i' = i ∧ page = pageOf addr)) :
        Function.update last i (Function.update (last i) addr (some byte)) i' (page + j) =
          last i' (page + j) := by
      by_cases same : i' = i
      · subst same
        rw [Function.update_self, Function.update_of_ne]
        rintro rfl
        exact there ⟨rfl, (pageOf_of_aligned aligned less).1.symm⟩
      · rw [Function.update_of_ne same]
    constructor
    case owned => exact owned
    case filled => exact filled
    case shaped =>
      refine ⟨fun i' r mem => sound.shaped.aligned i' r (spaces ▸ mem), ?_⟩
      intro i' page held
      rw [regions]
      by_cases there : i' = i ∧ page = pageOf addr
      · rw [there.1, there.2]
        exact inside
      · exact sound.shaped.inside i' page (away i' page there ▸ held)
    case fresh =>
      intro i' page none_ aligned j less
      by_cases there : i' = i ∧ page = pageOf addr
      · rw [there.1, there.2, now] at none_
        cases none_
      · show Function.update last i _ i' (page + j) = none
        rw [other i' page j aligned less there]
        exact sound.fresh i' page (away i' page there ▸ none_) aligned j less
    case right =>
      intro i' page r p' region kind held j less
      rw [regions] at region
      show p' j = (Function.update last i _ i' (page + j)).getD _
      by_cases there : i' = i ∧ page = pageOf addr
      · obtain ⟨rfl, rfl⟩ := there
        rw [now] at held
        cases held
        rw [Function.update_self]
        by_cases at_ : j = addr % pageSize
        · rw [at_, pageOf_add, Function.update_self, Function.update_self]
          rfl
        · rw [Function.update_of_ne at_, Function.update_of_ne]
          · exact sound.right i' _ r p region kind was j less
          · intro same
            refine at_ ?_
            rw [← same]
            exact (pageOf_of_aligned (pageOf_mod addr) less).2.symm
      · have held : m.holding i' page = some p' := away i' page there ▸ held
        have aligned := (sound.shaped.inside i' page (by
          show m.holding i' page ≠ none
          rw [held]
          exact Option.some_ne_none p')).1
        rw [other i' page j aligned less there]
        exact sound.right i' page r p' region kind held j less

/-! ## Promising -/

theorem entry_setRegions (m : Machine) (i : Nat) (regions : List Region) :
    (m.setRegions i regions).entry = m.entry := by
  funext i' page
  unfold Machine.entry Machine.setRegions
  by_cases at_ : i' = i
  · subst at_
    dsimp only
    rw [Function.update_self]
  · dsimp only
    rw [Function.update_of_ne at_]

theorem regions_setRegions (m : Machine) (i : Nat) (regions : List Region) (i' : Nat) :
    ((m.setRegions i regions).spaces i').regions =
      if i' = i then regions else (m.spaces i').regions := by
  unfold Machine.setRegions
  dsimp only
  split
  · rename_i at_
    subst at_
    rw [Function.update_self]
  · rename_i at_
    rw [Function.update_of_ne at_]

theorem holding_setRegions (m : Machine) (i : Nat) (regions : List Region) (i' page : Nat) :
    (m.setRegions i regions).holding i' page = m.holding i' page := by
  unfold Machine.holding
  rw [entry_setRegions]
  rfl

theorem Owned.setRegions (owned : Owned m) (i : Nat) (regions : List Region) :
    Owned (m.setRegions i regions) := by
  have same := entry_setRegions m i regions
  constructor
  case zero => exact owned.zero
  case zeroes => exact owned.zeroes
  case out =>
    rw [same]
    exact owned.out
  case lent =>
    rw [same]
    exact owned.lent
  case sole =>
    rw [same]
    exact owned.sole
  case cached =>
    intro c mem
    obtain ⟨notZero, out, held⟩ := owned.cached c mem
    exact ⟨notZero, out, held.mono (Nat.le_refl _) fun _ _ _ at_ => same ▸ at_⟩
  case distinct => exact owned.distinct
  case slot =>
    rw [same]
    exact owned.slot
  case slotSole =>
    rw [same]
    exact owned.slotSole
  case slotZero => exact owned.slotZero

/-- Regions that may take the place of others: they cover what the others did, and where one of
the kind `K` covers a page that is held, it means what the one before it did. -/
structure Grows (volume : Volume) (K : Region → Prop) (regions regions' : List Region) : Prop where
  new : ∀ r ∈ regions', (r.start % pageSize = 0 ∧ r.stop % pageSize = 0) ∧ r.shared = false ∧
    ∀ f, r.file = some f → f.On volume
  covers : ∀ addr r, regions.find? (fun r => decide (r.Covers addr)) = some r →
    ∃ r', regions'.find? (fun r => decide (r.Covers addr)) = some r' ∧
      (K r' → K r ∧ ∀ addr, r.meant addr = r'.meant addr)

theorem Sound.setRegions {last : Written} (sound : Sound volume K ⟨m, last⟩) {i : Nat}
    {regions : List Region} (grows : Grows volume K (m.spaces i).regions regions) :
    Sound volume K ⟨m.setRegions i regions, last⟩ := by
  have mem (i' : Nat) (r : Region) (mem : r ∈ ((m.setRegions i regions).spaces i').regions) :
      r ∈ regions ∨ r ∈ (m.spaces i').regions := by
    rw [regions_setRegions] at mem
    split at mem
    · exact .inl mem
    · exact .inr mem
  have finds (i' addr : Nat) (r : Region) (region : m.regionFor i' addr = some r) :
      ∃ r', (m.setRegions i regions).regionFor i' addr = some r' ∧
        (K r' → K r ∧ ∀ addr, r.meant addr = r'.meant addr) := by
    by_cases at_ : i' = i
    · subst at_
      obtain ⟨r', found, means⟩ := grows.covers addr r region
      refine ⟨r', ?_, means⟩
      unfold Machine.regionFor Space.regionFor
      rw [regions_setRegions, if_pos rfl]
      exact found
    · refine ⟨r, ?_, fun kind => ⟨kind, fun _ => rfl⟩⟩
      unfold Machine.regionFor Space.regionFor
      rw [regions_setRegions, if_neg at_]
      exact region
  constructor
  case owned => exact sound.owned.setRegions i regions
  case filled =>
    refine ⟨?_, ?_, sound.filled.cached⟩
    · intro i' r mem'
      cases mem i' r mem' with
      | inl new => exact (grows.new r new).2.2
      | inr old => exact sound.filled.files i' r old
    · intro i' r mem'
      cases mem i' r mem' with
      | inl new => exact (grows.new r new).2.1
      | inr old => exact sound.filled.unshared i' r old
  case shaped =>
    constructor
    · intro i' r mem'
      cases mem i' r mem' with
      | inl new => exact (grows.new r new).1
      | inr old => exact sound.shaped.aligned i' r old
    · intro i' page held
      rw [holding_setRegions] at held
      obtain ⟨aligned, covered⟩ := sound.shaped.inside i' page held
      obtain ⟨r, region⟩ := Option.isSome_iff_exists.1 covered
      obtain ⟨r', found, _⟩ := finds i' page r region
      exact ⟨aligned, by rw [found]; rfl⟩
  case fresh =>
    intro i' page none_
    rw [holding_setRegions] at none_
    exact sound.fresh i' page none_
  case right =>
    intro i' page r p region kind held j less
    rw [holding_setRegions] at held
    have covered := (sound.shaped.inside i' page (by
      show m.holding i' page ≠ none
      rw [held]
      exact Option.some_ne_none p)).2
    obtain ⟨r₀, region₀⟩ := Option.isSome_iff_exists.1 covered
    obtain ⟨r', found, means⟩ := finds i' page r₀ region₀
    cases found.symm.trans region
    obtain ⟨kind₀, same⟩ := means kind
    rw [← same]
    exact sound.right i' page r₀ p region₀ kind₀ held j less

theorem roundUp_mod (va size : Nat) : roundUp va size % pageSize = 0 := pageOf_mod _

/-- A region at the end of the table is the last to be looked at. -/
theorem Sound.addRegion {last : Written} (sound : Sound volume K ⟨m, last⟩) (i : Nat)
    (aligned : r.start % pageSize = 0 ∧ r.stop % pageSize = 0) (unshared : r.shared = false)
    (on : ∀ f, r.file = some f → f.On volume) : Sound volume K ⟨m.addRegion i r, last⟩ := by
  unfold Machine.addRegion
  dsimp only
  split
  · exact sound
  refine sound.setRegions ⟨?_, ?_⟩
  · intro r' mem
    cases List.mem_append.1 mem with
    | inl old =>
      exact ⟨sound.shaped.aligned i r' old, sound.filled.unshared i r' old, sound.filled.files i r' old⟩
    | inr new =>
      rw [List.mem_singleton.1 new]
      exact ⟨aligned, unshared, on⟩
  · intro addr r' found
    refine ⟨r', ?_, fun kind => ⟨kind, fun _ => rfl⟩⟩
    rw [List.find?_append, found]
    rfl

theorem Sound.reserve {last : Written} (sound : Sound volume K ⟨m, last⟩) (i va size flags : Nat) :
    Sound volume K ⟨m.reserve i va size flags, last⟩ := by
  unfold Machine.reserve
  split
  · exact sound
  · exact sound.addRegion i ⟨pageOf_mod va, roundUp_mod va size⟩ rfl (by rintro f ⟨⟩)

theorem Sound.mapFile {last : Written} (sound : Sound volume K ⟨m, last⟩) (i va size flags : Nat)
    (on : f.On volume) (offset len : Nat) :
    Sound volume K ⟨m.mapFile i va size flags f offset len, last⟩ := by
  unfold Machine.mapFile
  split
  · exact sound
  · refine sound.addRegion i ⟨pageOf_mod va, roundUp_mod va size⟩ rfl ?_
    rintro g ⟨⟩
    exact on

/-- What `extend` makes longer has no file. -/
theorem extend_mem {start stop flags : Nat} {regions regions' : List Region}
    (extended : extend start stop flags regions = some regions') :
    ∀ r ∈ regions', r ∈ regions ∨
      ∃ r₀ ∈ regions, r₀.file = none ∧ r₀.stop = start ∧ r = { r₀ with stop := stop } := by
  induction regions generalizing regions' with
  | nil => cases extended
  | cons r₀ rest ih =>
    unfold extend at extended
    split at extended
    · rename_i goes
      cases extended
      intro r mem
      cases List.mem_cons.1 mem with
      | inl here =>
        exact .inr ⟨r₀, List.mem_cons_self .., Option.isNone_iff_eq_none.1 goes.2.2, goes.1, here⟩
      | inr later => exact .inl (List.mem_cons_of_mem _ later)
    · obtain ⟨rest', further, rfl⟩ := Option.map_eq_some_iff.1 extended
      intro r mem
      cases List.mem_cons.1 mem with
      | inl here => exact .inl (here ▸ List.mem_cons_self ..)
      | inr later =>
        cases ih further r later with
        | inl old => exact .inl (List.mem_cons_of_mem _ old)
        | inr longer =>
          obtain ⟨r₁, mem, rest⟩ := longer
          exact .inr ⟨r₁, List.mem_cons_of_mem _ mem, rest⟩

/-- Where the region found is another afterwards, it is one with no file. -/
theorem extend_find {start stop flags : Nat} {regions regions' : List Region} (longer : start < stop)
    (extended : extend start stop flags regions = some regions') (addr : Nat)
    (found : regions.find? (fun r => decide (r.Covers addr)) = some r) :
    ∃ r', regions'.find? (fun r => decide (r.Covers addr)) = some r' ∧ (r' = r ∨ r'.file = none) := by
  induction regions generalizing regions' with
  | nil => cases extended
  | cons r₀ rest ih =>
    unfold extend at extended
    rw [List.find?_cons] at found
    split at extended
    · rename_i goes
      cases extended
      rw [List.find?_cons]
      by_cases longer' : Region.Covers { r₀ with stop := stop } addr
      · rw [decide_eq_true longer']
        exact ⟨_, rfl, .inr (Option.isNone_iff_eq_none.1 goes.2.2)⟩
      · have short : ¬r₀.Covers addr := by
          intro covers
          refine longer' ⟨covers.1, ?_⟩
          have := covers.2
          rw [goes.1] at this
          exact Nat.lt_trans this longer
        rw [decide_eq_false longer']
        rw [decide_eq_false short] at found
        exact ⟨r, found, .inl rfl⟩
    · obtain ⟨rest', further, rfl⟩ := Option.map_eq_some_iff.1 extended
      rw [List.find?_cons]
      by_cases covers : r₀.Covers addr
      · rw [decide_eq_true covers] at found ⊢
        exact ⟨r₀, rfl, .inl (Option.some.inj found)⟩
      · rw [decide_eq_false covers] at found ⊢
        exact ih further found

theorem Sound.reserveMore {last : Written} (sound : Sound volume K ⟨m, last⟩) (i va size flags : Nat)
    (plain : ∀ r₀ ∈ (m.spaces i).regions, ∀ r, K r → r.file = none → K r₀ ∧ r₀.file = none) :
    Sound volume K ⟨m.reserveMore i va size flags, last⟩ := by
  unfold Machine.reserveMore
  dsimp only
  split
  · exact sound
  rename_i asked
  rw [not_or, Nat.not_le] at asked
  split
  · rename_i regions extended
    refine sound.setRegions ⟨?_, ?_⟩
    · intro r mem
      cases extend_mem extended r mem with
      | inl old =>
        exact ⟨sound.shaped.aligned i r old, sound.filled.unshared i r old, sound.filled.files i r old⟩
      | inr longer =>
        obtain ⟨r₀, mem', file, _, rfl⟩ := longer
        refine ⟨⟨(sound.shaped.aligned i r₀ mem').1, roundUp_mod va size⟩,
          sound.filled.unshared i r₀ mem', ?_⟩
        intro f at_
        cases file.symm.trans at_
    · intro addr r found
      obtain ⟨r', found', same⟩ := extend_find asked.2 extended addr found
      refine ⟨r', found', fun kind => ?_⟩
      cases same with
      | inl same => exact ⟨same ▸ kind, fun _ => same ▸ rfl⟩
      | inr file =>
        obtain ⟨kind', file'⟩ := plain r (List.mem_of_find?_eq_some found) r' kind file
        refine ⟨kind', fun addr => ?_⟩
        unfold Region.meant
        rw [file, file']
  · exact sound.reserve ..

end ReconOS.Addrspace
