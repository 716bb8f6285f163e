import ReconOS.Addrspace.Anonymous

/-! Memory with a file behind it: what the page cache fills a page with, and what the handler does
without it. -/
namespace ReconOS.Addrspace

open Machine

variable {volume : Volume} {m m' : Machine} {i i' page addr va size flags offset len : Nat}
  {f : File} {a : Around} {r : Region} {w : World} {move : Move}

/-- Nothing is evicted, and every file mapped is what its name says. -/
def Move.Steady (volume : Volume) : Move → Prop
  | .mapFile _ _ _ _ f _ _ => f.On volume
  | .evict .. => False
  | .reserve .. | .reserveMore .. | .fault .. | .write .. => True

/-- One step, as it bears on the regions of one kind, which all have a file. -/
theorem step_mapped {K : Region → Prop} (agrees : ∀ r, K r → ∀ f, r.file = some f → r.Agrees f)
    (filed : ∀ r, K r → r.file ≠ none) (sound : Sound volume K w) (steady : move.Steady volume) :
    Sound volume K (w.step move) := by
  cases move with
  | reserve i va size flags => exact sound.reserve ..
  | reserveMore i va size flags =>
    exact sound.reserveMore i va size flags fun _ _ r kind bare => absurd bare (filed r kind)
  | mapFile i va size flags f offset len => exact sound.mapFile i va size flags steady offset len
  | fault i addr write a =>
    exact sound.served agrees
      (vmFaultUser_served sound.owned sound.filled sound.shaped i addr write a)
  | write i addr byte => exact sound.write i addr byte
  | evict => cases steady

theorem play_mapped {K : Region → Prop} (agrees : ∀ r, K r → ∀ f, r.file = some f → r.Agrees f)
    (filed : ∀ r, K r → r.file ≠ none) {moves : List Move} (sound : Sound volume K w)
    (steady : ∀ move ∈ moves, move.Steady volume) : Sound volume K (w.play moves) := by
  induction moves generalizing w with
  | nil => exact sound
  | cons move rest ih =>
    have sound := step_mapped agrees filed sound (steady move (List.mem_cons_self ..))
    exact ih sound fun move mem => steady move (List.mem_cons_of_mem _ mem)

/-! ## One fault -/

theorem byteAt_pos {bytes : List Nat} {pos : Nat} (some_ : byteAt bytes pos ≠ 0) : pos < bytes.length := by
  by_contra past
  refine some_ ?_
  unfold byteAt
  rw [List.getElem?_eq_none (Nat.le_of_not_lt past)]
  rfl

/-- The file seeks to wherever it has a byte. -/
theorem File.seek_of_byte {pos j : Nat} (some_ : byteAt f.bytes (pos + j) ≠ 0) : f.seek pos = true := by
  have inside := byteAt_pos some_
  have held := f.held
  have bounded := f.bounded
  refine decide_eq_true ⟨?_, ?_⟩ <;> omega

/-- The blank machine, with one region of a file. -/
theorem blank_mapFile (some_ : size ≠ 0) :
    Machine.blank.mapFile 0 va size flags f offset len =
      Machine.blank.setRegions 0 [.mapped va size flags f offset len] := by
  unfold Machine.mapFile
  rw [if_neg some_]
  rfl

theorem blank_regionFor (covers : r.Covers addr) :
    (Machine.blank.setRegions 0 [r]).regionFor 0 addr = some r := by
  unfold Machine.regionFor Space.regionFor
  rw [regions_setRegions, if_pos rfl, List.find?_cons, decide_eq_true covers]

/-- The first fault at an address of the region, on the blank machine. -/
theorem blank_fault (covers : r.Covers addr) :
    (Machine.blank.setRegions 0 [r]).vmFaultUser 0 addr false a =
      (Machine.blank.setRegions 0 [r]).faultAbsent 0 (pageOf addr) r false a := by
  unfold Machine.vmFaultUser
  rw [blank_regionFor covers]
  dsimp only
  rw [entry_setRegions]
  rfl

theorem read_gave {p : Page} (at_ : page = pageOf addr) (w : Bool) :
    (m.gave i page a.page w p).read i addr = some (p (addr % pageSize)) := by
  unfold Machine.read Machine.gave
  rw [at_, entry_setEntry_self]
  refine congrArg some (congrFun ?_ _)
  exact Function.update_self ..

/-- A fault that the cache does not answer. -/
theorem read_uncached (covers : r.Covers addr) (file : r.file = some f)
    (backed : pageOf addr - r.start + addr % pageSize < r.fileLen)
    (seeks : f.seek (r.position (pageOf addr)) = true) :
    ((Machine.blank.setRegions 0 [r]).vmFaultUser 0 addr false .spare).2.read 0 addr =
      some (byteAt f.bytes (r.position (pageOf addr) + addr % pageSize)) := by
  rw [blank_fault covers]
  unfold faultAbsent
  rw [file]
  dsimp only
  have refused : (Machine.blank.setRegions 0 [r]).pagecacheGet f
      ((r.fileOffset + (pageOf addr - r.start)) % u64Size) .spare =
      (none, Machine.blank.setRegions 0 [r]) := by
    unfold pagecacheGet
    split <;> rfl
  rw [refused]
  dsimp only
  obtain ⟨p, filled⟩ : ∃ p, fillFromFile r f (pageOf addr) true zeroes = some p := by
    unfold fillFromFile
    dsimp only
    rw [if_neg (by omega)]
    unfold Region.position at seeks
    rw [seeks]
    exact ⟨_, rfl⟩
  have own : (Machine.blank.setRegions 0 [r]).ownContents (pageOf addr) r none true = some p := by
    unfold ownContents
    rw [file]
    exact filled
  rw [giveOwnPage_eq (a := .spare) (by decide) rfl own rfl, read_gave rfl,
    fillFromFile_eq filled (Nat.mod_lt _ (by decide)), if_pos backed]
  rfl

/-- A fault where the cache has a page and a slot to spare. -/
def Around.caching : Around := ⟨2, 3, true, true, some none, true, true⟩

/-- A fault that the cache answers. -/
theorem read_cached (covers : r.Covers addr) (file : r.file = some f) (named : f.identity ≠ 0)
    (unshared : r.shared = false) (aligned : r.position (pageOf addr) % pageSize = 0)
    (seeks : f.seek (r.position (pageOf addr)) = true) :
    ((Machine.blank.setRegions 0 [r]).vmFaultUser 0 addr false .caching).2.read 0 addr =
      some (byteAt f.bytes (r.position (pageOf addr) + addr % pageSize)) := by
  rw [blank_fault covers]
  unfold faultAbsent
  rw [file]
  dsimp only
  unfold Region.position at aligned seeks
  unfold pagecacheGet
  rw [if_neg (by simp [aligned, named])]
  have missing : (Machine.blank.setRegions 0 [r]).cache = [] := rfl
  rw [missing]
  dsimp only [List.find?_nil]
  have given : (Machine.blank.setRegions 0 [r]).allocPage Around.caching.cachePage =
      some ((Machine.blank.setRegions 0 [r]).taken 2) := rfl
  rw [given]
  dsimp only
  rw [seeks, if_neg (by decide)]
  dsimp only [Around.caching, spare]
  unfold mapCached
  rw [unshared, if_neg (by simp)]
  unfold Machine.vmMap
  rw [if_pos rfl]
  dsimp only
  unfold Machine.read
  rw [entry_setEntry_self]
  have has := File.read_zeroes f ((r.fileOffset + (pageOf addr - r.start)) % u64Size) pageSize
    (j := addr % pageSize)
  rw [if_pos (Nat.mod_lt _ (by decide))] at has
  refine congrArg some (Eq.trans ?_ has)
  show Function.update Machine.blank.bytes 2 (f.read _ pageSize zeroes) 2 (addr % pageSize) = _
  rw [Function.update_self]

/-! ## Both ways -/

/-- In every run with no eviction, whichever faults the cache answers, a byte of the region that the
program has not written reads as the file's byte where the file part has one, and zero elsewhere. -/
def ReadsRight (r : Region) : Prop :=
  ∀ (volume : Volume) (m : Machine) (moves : List Move), m.Booted →
    (∀ move ∈ moves, move.Steady volume) →
    ∀ i addr b, ((World.start m).play moves).machine.regionFor i addr = some r →
      ((World.start m).play moves).last i addr = none →
      ((World.start m).play moves).machine.read i addr = some b → b = r.meant addr

/-- And in every such run, a read of the region that traps is served whenever there is memory, the
tables take the page, and the file and the store read. -/
def ServesReads (r : Region) : Prop :=
  ∀ (volume : Volume) (m : Machine) (moves : List Move), m.Booted →
    (∀ move ∈ moves, move.Steady volume) →
    ∀ i addr (a : Around), ((World.start m).play moves).machine.regionFor i addr = some r →
      r.Backs (pageOf addr) a → a.page ≠ 0 →
      ((World.start m).play moves).machine.out a.page = false → a.maps = true → a.swapReads = true →
      ((((World.start m).play moves).step (.fault i addr false a)).machine.read i addr).isSome = true

theorem serves_reads (r : Region) : ServesReads r := by
  intro volume m moves booted steady i addr a region
  have sound : Sound volume (fun _ => False) ((World.start m).play moves) :=
    play_mapped (fun _ never => never.elim) (fun _ never => never.elim) (.start booted) steady
  exact fault_serves sound region

/-- A page of a file is the same memory whichever way it is filled exactly when the file has nothing
but zeroes past the region's file part, or the cache can have none of its pages. And it is to be had. -/
theorem mapped_reads_iff (va flags : Nat) (f : File) (offset len : Nat) (some_ : size ≠ 0) :
    (ReadsRight (.mapped va size flags f offset len) ↔
      (Region.mapped va size flags f offset len).Agrees f) ∧
      ServesReads (.mapped va size flags f offset len) := by
  refine ⟨?_, serves_reads _⟩
  generalize at_ : Region.mapped va size flags f offset len = r
  have file : r.file = some f := at_ ▸ rfl
  have unshared : r.shared = false := at_ ▸ rfl
  have start : r.start % pageSize = 0 := at_ ▸ pageOf_mod va
  constructor
  · intro right
    have run (addr : Nat) (a : Around) (b : Nat) (covers : r.Covers addr)
        (read : ((Machine.blank.setRegions 0 [r]).vmFaultUser 0 addr false a).2.read 0 addr = some b) :
        b = r.meant addr := by
      have mapped : Machine.blank.mapFile 0 va size flags f offset len = Machine.blank.setRegions 0 [r] :=
        at_ ▸ blank_mapFile some_
      refine right (fun _ _ => f.bytes) .blank
        [.mapFile 0 va size flags f offset len, .fault 0 addr false a] blank_booted ?_ 0 addr b ?_ rfl ?_
      · intro move mem
        cases mem with
        | head => exact fun _ => rfl
        | tail _ mem =>
          cases mem with
          | head => trivial
          | tail _ mem => cases mem
      · show ((Machine.blank.mapFile 0 va size flags f offset len).vmFaultUser 0 addr false a).2.regionFor
          0 addr = some r
        have sound : Sound (fun _ _ => f.bytes) Region.Bare ⟨_, _⟩ :=
          Sound.mapFile (Sound.start blank_booted) 0 va size flags (f := f) (fun _ => rfl) offset len
        have served := vmFaultUser_served sound.owned sound.filled sound.shaped 0 addr false a
        rw [regionFor_regions (served.regions 0), mapped]
        exact blank_regionFor covers
      · show ((Machine.blank.mapFile 0 va size flags f offset len).vmFaultUser 0 addr false a).2.read
          0 addr = some b
        rw [mapped]
        exact read
    intro k less
    have page : pageOf (r.start + k) - r.start = pageOf k ∧ (r.start + k) % pageSize = k % pageSize := by
      unfold pageOf
      simp only [pageSize] at *
      omega
    have covers : r.Covers (r.start + k) := ⟨Nat.le_add_right .., by omega⟩
    have looks : r.position (pageOf (r.start + k)) + (r.start + k) % pageSize = r.looksAt k := by
      unfold Region.position Region.looksAt
      rw [page.1, page.2]
    have whole : pageOf k + k % pageSize = k := pageOf_add k
    have inside : r.start + k - r.start = k := Nat.add_sub_cancel_left ..
    constructor
    · intro backed
      by_contra differ
      have some_ : byteAt f.bytes (r.looksAt k) ≠ 0 := by
        intro zero
        have far : byteAt f.bytes (r.fileOffset + k) ≠ 0 := fun zero' => differ (zero.trans zero'.symm)
        have small := byteAt_pos far
        have held := f.held
        have bounded := f.bounded
        refine differ (congrArg _ ?_)
        unfold Region.looksAt
        rw [Nat.mod_eq_of_lt (by simp only [i64Size, u64Size] at *; omega), Nat.add_assoc, whole]
      have seeks := File.seek_of_byte (looks ▸ some_)
      have read := run (r.start + k) .spare _ covers
        (read_uncached covers file (by rw [page.1, page.2, whole]; exact backed) seeks)
      unfold Region.meant at read
      rw [file] at read
      dsimp only at read
      rw [looks, inside, if_pos backed] at read
      exact differ read
    · intro unbacked cacheable
      by_contra some_
      have seeks := File.seek_of_byte (looks ▸ some_)
      have aligned : r.position (pageOf (r.start + k)) % pageSize = 0 := by
        have offset := cacheable.2
        unfold Region.position
        rw [page.1]
        unfold pageOf
        simp only [pageSize, u64Size] at *
        omega
      have read := run (r.start + k) .caching _ covers
        (read_cached covers file cacheable.1 unshared aligned seeks)
      unfold Region.meant at read
      rw [file] at read
      dsimp only at read
      rw [looks, inside, if_neg (Nat.not_lt.2 unbacked)] at read
      exact some_ read
  · intro agrees volume m moves booted steady i addr b region unwritten read
    have kind (r' : Region) (same : r' = r) : ∀ g, r'.file = some g → r'.Agrees g := by
      intro g at_
      rw [same] at at_ ⊢
      cases file.symm.trans at_
      exact agrees
    have filed (r' : Region) (same : r' = r) : r'.file ≠ none := by
      rw [same, file]
      exact Option.some_ne_none f
    have first : Sound volume (fun r' => r' = r) (.start m) := .start booted
    have sound := play_mapped kind filed first steady
    have reads := sound.reads region rfl read
    rw [unwritten] at reads
    exact reads

/-- Four bytes that can be named. -/
def tailed : File := ⟨1, 5, [1, 2, 3, 4], 8, false, by decide, by decide⟩

theorem mapped_reads_iff_tailed :
    (ReadsRight (.mapped 0x1000 0x1000 7 tailed 0 2) ↔
      (Region.mapped 0x1000 0x1000 7 tailed 0 2).Agrees tailed) ∧
      ServesReads (.mapped 0x1000 0x1000 7 tailed 0 2) :=
  mapped_reads_iff 0x1000 7 tailed 0 2 (by decide)

/-- With two of the four bytes mapped, the page of the cache shows the other two. -/
theorem cached_tail_shows : ¬ReadsRight (.mapped 0x1000 0x1000 7 tailed 0 2) := by
  intro right
  have steady : ∀ move ∈ [Move.mapFile 0 0x1000 0x1000 7 tailed 0 2, .fault 0 0x1003 false .caching],
      move.Steady fun _ _ => [1, 2, 3, 4] := by
    intro move mem
    cases mem with
    | head => exact fun _ => rfl
    | tail _ mem =>
      cases mem with
      | head => trivial
      | tail _ mem => cases mem
  have read : ((World.start .blank).play
      [.mapFile 0 0x1000 0x1000 7 tailed 0 2, .fault 0 0x1003 false .caching]).machine.read 0 0x1003 =
      some 4 := by decide +kernel
  have zero := right _ .blank _ blank_booted steady 0 0x1003 4 rfl rfl read
  exact absurd zero (by decide +kernel)

end ReconOS.Addrspace
