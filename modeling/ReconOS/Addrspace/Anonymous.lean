import ReconOS.Addrspace.Contents

/-! Memory with no file behind it: zero-filled, private, and never lost. -/
namespace ReconOS.Addrspace

open Machine

variable {volume : Volume} {m m' : Machine} {i i' page addr : Nat} {a : Around} {r : Region}
  {w : World} {move : Move}

/-- Nothing that maps a file. -/
def Move.Plain : Move → Prop
  | .mapFile .. => False
  | .reserve .. | .reserveMore .. | .fault .. | .write .. | .evict .. => True

instance (move : Move) : Decidable move.Plain :=
  match move with
  | .mapFile .. => inferInstanceAs (Decidable False)
  | .reserve .. | .reserveMore .. | .fault .. | .write .. | .evict .. => inferInstanceAs (Decidable True)

def Region.Bare (r : Region) : Prop := r.file = none

/-! ## No file comes -/

theorem Spent.cache (spent : Spent m m') : m'.cache = m.cache := by
  cases spent with
  | inl same => rw [same]
  | inr wrote =>
    obtain ⟨_, _, _, rfl⟩ := wrote
    rfl

theorem giveOwnPage_cache (m : Machine) (i page : Nat) (r : Region) (a : Around)
    (replacing : Option Nat) :
    (m.giveOwnPage i page r replacing a).2.cache = m.cache := by
  cases giveOwnPage_spec m i page r a replacing with
  | inl none_ => exact none_.2.cache
  | inr gave =>
    obtain ⟨p, _, _, eq⟩ := gave
    rw [eq]
    rfl

theorem evictFaultIn_cache (slot : Nat) (write : Bool) :
    (m.evictFaultIn i page slot write a).2.cache = m.cache := by
  cases evictFaultIn_spec (m := m) (a := a) i page slot write with
  | inl spent => exact spent.cache
  | inr gave =>
    rw [gave.2, swapFree_cache]
    rfl

theorem faultAbsent_cache (bare : r.file = none) (write : Bool) :
    (m.faultAbsent i page r write a).2.cache = m.cache := by
  unfold faultAbsent
  rw [bare]
  dsimp only
  cases write with
  | true => exact giveOwnPage_cache _ _ _ _ _ none
  | false =>
    rw [if_neg (by simp)]
    unfold vmMap
    cases a.maps <;> rfl

theorem faultPresent_cache (cache : m.cache = []) (frame : Nat) (write : Bool) :
    (m.faultPresent i page r frame write a).2.cache = [] := by
  have owns : m.cacheOwns frame = false := by
    unfold cacheOwns
    rw [cache]
    rfl
  have kept := giveOwnPage_cache m i page r a (some frame)
  unfold faultPresent
  rw [owns]
  dsimp only
  split
  · split
    · rename_i m₁ eq
      rw [eq] at kept
      exact kept.trans cache
    · rename_i m₁ eq
      rw [eq] at kept
      rw [if_neg (by simp)]
      exact kept.trans cache
  · exact cache

theorem Anonymous.fault (anonymous : Anonymous m) (i addr : Nat) (write : Bool) (a : Around) :
    (m.vmFaultUser i addr write a).2.cache = [] := by
  unfold vmFaultUser
  split
  · exact anonymous.cache
  rename_i r region
  have bare := anonymous.regions i r (List.mem_of_find?_eq_some region)
  split
  · exact (faultAbsent_cache bare write).trans anonymous.cache
  · exact (evictFaultIn_cache ..).trans anonymous.cache
  · exact faultPresent_cache anonymous.cache _ write

theorem Anonymous.setRegions (anonymous : Anonymous m) (i : Nat) {regions : List Region}
    (bare : ∀ r ∈ regions, r.file = none) : Anonymous (m.setRegions i regions) := by
  refine ⟨anonymous.cache, ?_⟩
  intro i' r mem
  rw [regions_setRegions] at mem
  split at mem
  · exact bare r mem
  · exact anonymous.regions i' r mem

theorem Anonymous.reserve (anonymous : Anonymous m) (i va size flags : Nat) :
    Anonymous (m.reserve i va size flags) := by
  unfold Machine.reserve Machine.addRegion
  dsimp only
  split
  · exact anonymous
  split
  · exact anonymous
  refine anonymous.setRegions i ?_
  intro r mem
  cases List.mem_append.1 mem with
  | inl old => exact anonymous.regions i r old
  | inr new => exact List.mem_singleton.1 new ▸ rfl

theorem Anonymous.reserveMore (anonymous : Anonymous m) (i va size flags : Nat) :
    Anonymous (m.reserveMore i va size flags) := by
  unfold Machine.reserveMore
  dsimp only
  split
  · exact anonymous
  split
  · rename_i regions extended
    refine anonymous.setRegions i ?_
    intro r mem
    cases extend_mem extended r mem with
    | inl old => exact anonymous.regions i r old
    | inr longer =>
      obtain ⟨_, _, file, _, rfl⟩ := longer
      exact file
  · exact anonymous.reserve ..

/-! ## Runs -/

theorem bare_agrees (r : Region) (bare : r.Bare) : ∀ f, r.file = some f → r.Agrees f := by
  intro f file
  cases bare.symm.trans file

/-- One step of a machine with no file in it. -/
theorem step_anonymous (sound : Sound volume Region.Bare w) (anonymous : Anonymous w.machine)
    (plain : move.Plain) :
    Sound volume Region.Bare (w.step move) ∧ Anonymous (w.step move).machine := by
  cases move with
  | reserve i va size flags => exact ⟨sound.reserve .., anonymous.reserve ..⟩
  | reserveMore i va size flags =>
    refine ⟨sound.reserveMore i va size flags ?_, anonymous.reserveMore ..⟩
    exact fun r mem _ _ _ => ⟨anonymous.regions i r mem, anonymous.regions i r mem⟩
  | mapFile => cases plain
  | fault i addr write a =>
    have served := vmFaultUser_served sound.owned sound.filled sound.shaped i addr write a
    refine ⟨sound.served bare_agrees served, anonymous.fault i addr write a, ?_⟩
    exact fun i r mem => anonymous.regions i r (served.regions i ▸ mem)
  | write i addr byte =>
    have same : (w.machine.write i addr byte).spaces = w.machine.spaces ∧
        (w.machine.write i addr byte).cache = w.machine.cache := by
      unfold Machine.write
      split <;> exact ⟨rfl, rfl⟩
    refine ⟨sound.write i addr byte, same.2.trans anonymous.cache, ?_⟩
    intro i' r mem
    have mem : r ∈ ((w.machine.write i addr byte).spaces i').regions := mem
    rw [same.1] at mem
    exact anonymous.regions i' r mem
  | evict i want cold =>
    have kept := evictPages_kept sound.owned sound.filled anonymous.cache i want cold
    exact ⟨sound.kept kept, kept.cache.trans anonymous.cache,
      fun i r mem => anonymous.regions i r (kept.regions i ▸ mem)⟩

theorem play_anonymous {moves : List Move} (sound : Sound volume Region.Bare w)
    (anonymous : Anonymous w.machine) (plain : ∀ move ∈ moves, move.Plain) :
    Sound volume Region.Bare (w.play moves) ∧ Anonymous (w.play moves).machine := by
  induction moves generalizing w with
  | nil => exact ⟨sound, anonymous⟩
  | cons move rest ih =>
    obtain ⟨sound, anonymous⟩ := step_anonymous sound anonymous (plain move (List.mem_cons_self ..))
    exact ih sound anonymous fun move mem => plain move (List.mem_cons_of_mem _ mem)

/-! ## Reading -/

theorem read_holding {b : Nat} (read : m.read i addr = some b) :
    ∃ p, m.holding i (pageOf addr) = some p ∧ b = p (addr % pageSize) := by
  unfold Machine.read at read
  unfold Machine.holding
  split at read
  · rename_i frame w at_
    cases read
    rw [at_]
    exact ⟨m.bytes frame, rfl, rfl⟩
  all_goals cases read

/-- What is read is what was written, or what the region was promised to be. -/
theorem Sound.reads {K : Region → Prop} (sound : Sound volume K w)
    (region : w.machine.regionFor i addr = some r) (kind : K r) {b : Nat}
    (read : w.machine.read i addr = some b) : b = (w.last i addr).getD (r.meant addr) := by
  obtain ⟨p, held, rfl⟩ := read_holding read
  rw [← sound.shaped.regionFor_pageOf] at region
  have right := sound.right i _ r p region kind held (addr % pageSize) (Nat.mod_lt _ (by decide))
  rw [pageOf_add] at right
  exact right

theorem giveOwnPage_eq {p : Page} (some_ : a.page ≠ 0) (free : m.out a.page = false)
    (own : m.ownContents page r none a.reads = some p) (maps : a.maps = true) :
    m.giveOwnPage i page r none a = (true, m.gave i page a.page r.writable p) := by
  unfold giveOwnPage allocPage
  rw [if_neg (by simp [some_, free])]
  dsimp only
  have own : ({ m with out := Function.update m.out a.page true } : Machine).ownContents page r none
      a.reads = some p := own
  rw [own]
  dsimp only
  unfold vmMap
  rw [maps]
  rfl

/-- What backs a page of a region can be had: its file, as far as it backs the page, seeks and reads. -/
def Region.Backs (r : Region) (page : Nat) (a : Around) : Prop :=
  ∀ f, r.file = some f →
    r.fileLen ≤ page - r.start ∨ f.seek (r.position page) = true ∧ a.reads = true

theorem faultAbsent_serves (owned : Owned m) (filled : Filled volume m)
    (on : ∀ f, r.file = some f → f.On volume) (unshared : r.shared = false)
    (backs : r.Backs page a) (some_ : a.page ≠ 0)
    (free : m.out a.page = false) (maps : a.maps = true) :
    ∃ frame write, (m.faultAbsent i page r false a).2.entry i page = .present frame write := by
  unfold faultAbsent
  split
  · rename_i f file
    have answers := pagecacheGet_spec owned filled (on f file) (r.position page) a
    unfold Region.position at answers
    split
    · unfold mapCached
      rw [unshared, if_neg (by simp)]
      unfold vmMap
      rw [maps]
      exact ⟨_, _, entry_setEntry_self ..⟩
    · rename_i m₁ eq
      rw [eq] at answers
      have free₁ : m₁.out a.page = false := by
        obtain ⟨_, got, _⟩ | ⟨_, left⟩ := answers
        · cases got
        · have left : m₁ = m ∨ ∃ frame p, m.out frame = false ∧ m₁ = m.setBytes frame p := left
          obtain rfl | ⟨_, _, _, rfl⟩ := left
          · exact free
          · exact free
      obtain ⟨p, own⟩ : ∃ p, m₁.ownContents page r none a.reads = some p := by
        unfold ownContents
        rw [file]
        dsimp only
        unfold fillFromFile
        dsimp only
        split
        · exact ⟨_, rfl⟩
        rename_i far
        obtain ⟨seeks, reads⟩ := (backs f file).resolve_left far
        unfold Region.position at seeks
        rw [seeks, reads]
        exact ⟨_, rfl⟩
      rw [giveOwnPage_eq some_ free₁ own maps]
      exact ⟨_, _, entry_setEntry_self ..⟩
  · rw [if_neg (by simp)]
    unfold vmMap
    rw [maps]
    exact ⟨_, _, entry_setEntry_self ..⟩

/-- With memory to be had, tables that take the page, and a file and a store that read, a fault is
served. -/
theorem fault_serves {K : Region → Prop} (sound : Sound volume K w)
    (region : w.machine.regionFor i addr = some r) (backs : r.Backs (pageOf addr) a)
    (some_ : a.page ≠ 0) (free : w.machine.out a.page = false) (maps : a.maps = true)
    (reads : a.swapReads = true) :
    ((w.step (.fault i addr false a)).machine.read i addr).isSome = true := by
  show ((w.machine.vmFaultUser i addr false a).2.read i addr).isSome = true
  have seen (m : Machine) (frame : Nat) (write : Bool)
      (at_ : m.entry i (pageOf addr) = .present frame write) : (m.read i addr).isSome = true := by
    unfold Machine.read
    rw [at_]
    rfl
  unfold vmFaultUser
  rw [region]
  dsimp only
  split
  · have mem := List.mem_of_find?_eq_some region
    obtain ⟨frame, write, at_⟩ := faultAbsent_serves sound.owned sound.filled
      (sound.filled.files i r mem) (sound.filled.unshared i r mem) backs some_ free maps
    exact seen _ frame write at_
  · rename_i slot at_
    obtain ⟨notZero, less, inUse⟩ := sound.owned.slot i _ slot at_
    unfold evictFaultIn allocPage
    rw [if_neg notZero, if_neg (by simp [some_, free])]
    dsimp only
    unfold swapReadPage
    rw [if_neg (by
      rw [reads]
      show ¬(slot = 0 ∨ w.machine.swap.slots ≤ slot ∨ w.machine.swap.inUse slot = false ∨ true = false)
      rw [inUse]
      simp [notZero, less])]
    dsimp only
    unfold vmMap
    rw [maps]
    refine seen _ a.page r.writable ?_
    show ((Machine.swapFree _ slot).spaces i).table _ = _
    rw [swapFree_spaces]
    exact entry_setEntry_self ..
  · rename_i frame write at_
    unfold faultPresent
    dsimp only
    rw [if_neg (by simp)]
    exact seen _ frame write at_

/-- Whatever is reserved, touched, written and evicted, and whichever of the allocations, the
tables and the swap store's reads and writes fail: a program reads what it last wrote, or zero; a
write is seen in no other space; the page of zeroes stays so; and a page is only ever given inside
a region. And a read that traps is answered whenever there is memory and the store reads. -/
theorem anonymous_memory (booted : m.Booted) (moves : List Move)
    (plain : ∀ move ∈ moves, move.Plain) :
    (∀ i addr b, (((World.start m).play moves).machine.regionFor i addr).isSome = true →
      ((World.start m).play moves).machine.read i addr = some b →
      b = (((World.start m).play moves).last i addr).getD 0) ∧
    (∀ i addr byte i' addr', i' ≠ i →
      (((World.start m).play moves).step (.write i addr byte)).machine.read i' addr' =
        ((World.start m).play moves).machine.read i' addr') ∧
    (∀ j, ((World.start m).play moves).machine.bytes
      ((World.start m).play moves).machine.zeroPage j = 0) ∧
    (∀ i addr, ((World.start m).play moves).machine.regionFor i addr = none →
      ((World.start m).play moves).machine.entry i (pageOf addr) = .absent) ∧
    ∀ i addr (a : Around), (((World.start m).play moves).machine.regionFor i addr).isSome = true →
      a.page ≠ 0 → ((World.start m).play moves).machine.out a.page = false → a.maps = true →
      a.swapReads = true →
      ((((World.start m).play moves).step (.fault i addr false a)).machine.read i addr).isSome = true := by
  have none_ : Anonymous m := by
    refine ⟨booted.cache, fun i r mem => ?_⟩
    rw [booted.spaces] at mem
    cases mem
  have first : Sound (fun _ _ => []) Region.Bare (.start m) := .start booted
  obtain ⟨sound, anonymous⟩ := play_anonymous first none_ plain
  generalize (World.start m).play moves = w at sound anonymous ⊢
  refine ⟨?_, ?_, sound.owned.zeroes, ?_, ?_⟩
  · intro i addr b region read
    obtain ⟨r, region⟩ := Option.isSome_iff_exists.1 region
    have bare := anonymous.regions i r (List.mem_of_find?_eq_some region)
    have reads := sound.reads region bare read
    unfold Region.meant at reads
    rw [bare] at reads
    exact reads
  · intro i addr byte i' addr' other
    show (w.machine.write i addr byte).read i' addr' = _
    cases lands : w.machine.writes i addr with
    | none =>
      unfold Machine.write
      rw [lands]
    | some frame =>
      obtain ⟨_, _, spaces, _, away⟩ := write_spec sound.owned sound.filled lands byte
      have held := away i' (pageOf addr') fun there => other there.1
      have same : (w.machine.write i addr byte).entry i' (pageOf addr') =
          w.machine.entry i' (pageOf addr') := by
        unfold Machine.entry
        rw [spaces]
      unfold Machine.holding at held
      unfold Machine.read
      rw [same] at held ⊢
      split
      · rename_i g write at_
        rw [at_] at held
        exact congrArg some (congrFun (Option.some.inj held) _)
      · rfl
      · rfl
  · intro i addr region
    rw [← sound.shaped.regionFor_pageOf] at region
    have outside : w.machine.holding i (pageOf addr) = none := by
      by_contra held
      have := (sound.shaped.inside i _ held).2
      rw [region] at this
      cases this
    unfold Machine.holding at outside
    split at outside
    · assumption
    all_goals cases outside
  · intro i addr a region
    obtain ⟨r, region⟩ := Option.isSome_iff_exists.1 region
    have bare := anonymous.regions i r (List.mem_of_find?_eq_some region)
    exact fault_serves sound region fun f file => absurd (bare.symm.trans file) (by simp)

/-- A machine just booted: the page of zeroes is the first, and the store has three slots. -/
def Machine.blank : Machine where
  spaces _ := ⟨[], fun _ => .absent⟩
  out frame := decide (frame = 1)
  bytes frame := fun _ => if frame = 1 then 0 else 0xaa
  zeroPage := 1
  cache := []
  swap := ⟨3, 0, fun slot => decide (slot = 0), fun _ _ => 0xbb⟩

theorem blank_booted : Machine.blank.Booted :=
  ⟨fun _ => rfl, rfl, fun _ => rfl, rfl, fun _ => rfl⟩

/-- A fault where page 2 is to be had and all goes well, but for the page cache. -/
def Around.spare : Around := ⟨0, 2, true, true, none, true, true⟩

/-- Two pages reserved, one written, and that one put in the store and brought back. -/
def swapping : List Move :=
  [.reserve 0 0x1000 0x2000 7, .fault 0 0x1005 true .spare, .write 0 0x1005 9,
    .evict 0 1 fun _ => ⟨false, true, zeroes, true⟩, .fault 0 0x1005 false .spare]

theorem anonymous_memory_swapping :
    ((World.start .blank).play swapping).machine.read 0 0x1005 = some 9 ∧
      9 = (((World.start .blank).play swapping).last 0 0x1005).getD 0 :=
  ⟨by decide +kernel,
    (anonymous_memory blank_booted swapping (by decide)).1 0 0x1005 9 (by decide +kernel)
      (by decide +kernel)⟩

end ReconOS.Addrspace
