import ReconOS.Vm.Sound

/-! `vm_map`, `vm_unmap`, and what is seen after them at every address. -/
namespace ReconOS.Vm

open ReconOS.Lib

variable {s s' : Tables} {home home' : Homes} {caps : Caps} {flags : Flags}
  {p r root i w cpu v va pa size : Nat} {pre rest words : List Nat}

/-! ## A leaf -/

def leaf (caps : Caps) (flags : Flags) (pa : Nat) (large : Bool) : Nat :=
  pa &&& pteAddrMask ||| leafBits caps flags large

theorem span_large {level : Nat} (middle : level = 1 ∨ level = 2)
    (aligned : pa % span (level + 1) = 0) : pa % size2m = 0 := by
  cases middle with
  | inl one =>
    rw [one] at aligned
    change pa % 0x40000000 = 0 at aligned
    change pa % 0x200000 = 0
    omega
  | inr two =>
    rw [two] at aligned
    exact aligned

theorem leaf_addr (frame : Frame pa) (large : Bool) : leaf caps flags pa large &&& pteAddrMask =
    pa ||| (if leafBits caps flags large &&& ptePatLarge ≠ 0 then ptePatLarge else 0) := by
  rw [leaf, Nat.and_or_distrib_right, frame.and_mask, frame.and_mask, leafBits_addr]

theorem leaf_pat (frame : Frame pa) (coarse : pa % size2m = 0) (large : Bool) :
    leaf caps flags pa large &&& ptePatLarge = leafBits caps flags large &&& ptePatLarge := by
  rw [leaf, frame.and_mask, Nat.and_or_distrib_right, coarse_and coarse, Nat.zero_or]

theorem leaf_large {level : Nat} (middle : level = 1 ∨ level = 2) (frame : Frame pa)
    (aligned : pa % span (level + 1) = 0) : Large level (leaf caps flags pa true) := by
  have coarse := span_large middle aligned
  constructor
  · exact middle
  · rw [leaf, or_and (by decide)]
    exact leafBits_present caps flags true
  · rw [leaf, or_and (by decide)]
    exact leafBits_large caps flags
  · refine ⟨pa, aligned, frame.small, ?_⟩
    rw [leaf_addr frame, leaf_pat frame coarse]
    split
    · exact coarse_or coarse
    · exact Nat.or_zero pa

/-- The address that is seen through a leaf, whichever size it has. -/
theorem leaf_span {level : Nat} {large : Bool} (frame : Frame pa)
    (size : if large then level = 1 ∨ level = 2 else level = 3)
    (aligned : pa % span (level + 1) = 0) :
    (leaf caps flags pa large &&& pteAddrMask) / span (level + 1) * span (level + 1) = pa := by
  rw [leaf_addr frame]
  cases large with
  | false =>
    rw [leafBits_small, if_neg (by decide), Nat.or_zero]
    exact Nat.div_mul_cancel (Nat.dvd_of_mod_eq_zero aligned)
  | true =>
    have coarse := span_large size aligned
    have part : span (level + 1) = size1g ∨ span (level + 1) = size2m := by
      cases size with
      | inl one =>
        rw [one]
        exact Or.inl rfl
      | inr two =>
        rw [two]
        exact Or.inr rfl
    generalize span (level + 1) = n at part aligned ⊢
    split
    · rw [coarse_or coarse]
      unfold size1g size2m at part
      unfold ptePatLarge
      rcases part with rfl | rfl
      · omega
      · omega
    · rw [Nat.or_zero]
      exact Nat.div_mul_cancel (Nat.dvd_of_mod_eq_zero aligned)

/-- The kind of memory, whichever bit has its place in the attribute table. -/
theorem leaf_kind {level : Nat} {large : Bool} (frame : Frame pa)
    (size : if large then level = 1 ∨ level = 2 else level = 3)
    (aligned : pa % span (level + 1) = 0) :
    leaf caps flags pa large &&& (if level + 1 = 4 then ptePatSmall else ptePatLarge) =
      leafBits caps flags large &&& (if large then ptePatLarge else ptePatSmall) := by
  cases large with
  | false =>
    have last : level = 3 := size
    rw [if_pos (by omega), if_neg Bool.false_ne_true]
    exact or_and (by decide)
  | true =>
    have above : ¬ level + 1 = 4 := by
      have middle : level = 1 ∨ level = 2 := size
      omega
    rw [if_neg above, if_pos rfl]
    exact leaf_pat frame (span_large size aligned) true

/-- What is seen through a leaf is what it was asked to be. -/
theorem cell_leaf (tables : ∀ w ∈ words, ∃ t, w = tableEntry t) (frame : Frame pa) {large : Bool}
    (size : if large then words.length = 1 ∨ words.length = 2 else words.length = 3)
    (aligned : pa % span (words.length + 1) = 0) :
    cell (words ++ [leaf caps flags pa large]) v =
      .mapped (flags.mapping caps (pa + v % span (words.length + 1))) := by
  have bits : ∀ mask, pteAddrMask &&& mask = 0 →
      leaf caps flags pa large &&& mask = leafBits caps flags large &&& mask :=
    fun _ apart => or_and apart
  obtain ⟨write, user, exec, global, kind⟩ := leafBits_reads caps flags large
  obtain ⟨allWrite, allUser, allExec⟩ := @mapping_tables (leaf caps flags pa large) words tables
  have present : leaf caps flags pa large &&& ptePresent ≠ 0 := by
    rw [bits ptePresent (by decide)]
    exact leafBits_present caps flags large
  rw [cell, List.getLastD_concat, if_pos present]
  refine congrArg Cell.mapped ?_
  rw [mapping, allWrite, allUser, allExec, List.getLastD_concat, List.length_append,
    List.length_singleton, Flags.mapping, Mapping.mk.injEq, leaf_kind frame size aligned,
    leaf_span frame size aligned, bits pteWrite (by decide),
    bits pteUser (by decide), bits pteNx (by decide),
    bits pteGlobal (by decide), bits ptePcd (by decide),
    bits ptePwt (by decide)]
  exact ⟨rfl, write, user, exec, global, kind⟩

/-! ## The addresses that come to an entry -/

theorem take_prefix (canonical : Canonical v) (canonical' : Canonical va) {level : Nat}
    (middle : level = 1 ∨ level = 2 ∨ level = 3) :
    (path va).take (level + 1) <+: path v ↔ v / span (level + 1) = va / span (level + 1) := by
  rw [eq_comm (a := v / span (level + 1))]
  rcases middle with rfl | rfl | rfl
  · change [i4 va, i3 va] <+: [i4 v, i3 v, i2 v, i1 v] ↔ va / size1g = v / size1g
    rw [← page1g_eq canonical' canonical, List.cons_prefix_cons, List.cons_prefix_cons]
    exact ⟨fun both => ⟨both.1, both.2.1⟩, fun both => ⟨both.1, both.2, List.nil_prefix⟩⟩
  · change [i4 va, i3 va, i2 va] <+: [i4 v, i3 v, i2 v, i1 v] ↔ va / size2m = v / size2m
    rw [← page2m_eq canonical' canonical, List.cons_prefix_cons, List.cons_prefix_cons,
      List.cons_prefix_cons]
    exact ⟨fun all => ⟨all.1, all.2.1, all.2.2.1⟩,
      fun all => ⟨all.1, all.2.1, all.2.2, List.nil_prefix⟩⟩
  · change [i4 va, i3 va, i2 va, i1 va] <+: [i4 v, i3 v, i2 v, i1 v] ↔
      va / pageSize = v / pageSize
    rw [← page_eq canonical' canonical, List.cons_prefix_cons, List.cons_prefix_cons,
      List.cons_prefix_cons, List.cons_prefix_cons]
    exact ⟨fun all => ⟨all.1, all.2.1, all.2.2.1, all.2.2.2.1⟩,
      fun all => ⟨all.1, all.2.1, all.2.2.1, all.2.2.2, List.nil_prefix⟩⟩

/-- The entry that decides for an address, at one of the levels that may. -/
structure Slot (s : Tables) (home : Homes) (root va level p i : Nat) : Prop where
  sound : Sound s home
  start : home root = some (root, [])
  covers : Covers s.kernel root va
  middle : level = 1 ∨ level = 2 ∨ level = 3
  goes : Radix.reach target s.mem root ((path va).take level) = some p
  index : (path va).take level ++ [i] = (path va).take (level + 1)

theorem Slot.length {level : Nat} (slot : Slot s home root va level p i) :
    ((path va).take level).length = level := by
  rw [List.length_take, path_length]
  have middle := slot.middle
  omega

theorem Slot.owned {level : Nat} (slot : Slot s home root va level p i) :
    Radix.Owned (own s.kernel) root ((path va).take level ++ [i]) := by
  rw [slot.index]
  intro j later parts
  refine slot.covers.owned j (later ++ (path va).drop (level + 1)) ?_
  rw [← List.cons_append, ← parts, List.take_append_drop]

theorem Slot.tables {level : Nat} (slot : Slot s home root va level p i) :
    (Radix.walk target s.mem root ((path va).take level)).length = level ∧
      ∀ w ∈ Radix.walk target s.mem root ((path va).take level), ∃ t, w = tableEntry t := by
  have front : Radix.Owned (own s.kernel) root ([] ++ (path va).take level) := by
    rw [List.nil_append]
    intro j later parts
    exact slot.owned j (later ++ [i]) (by rw [parts, List.cons_append])
  have middle := slot.middle
  have found := walk_tables slot.sound slot.start front
    (by rw [slot.length, List.length_nil]; omega) slot.goes
  rwa [slot.length] at found

/-- What is put there is seen at the addresses of its page, whatever the size of that. -/
theorem Slot.setEntry {level : Nat} (slot : Slot s home root va level p i)
    (ends : level = 3 ∨ target w = none) (upper : level < 3 → Upper level w) :
    Becomes s home (s.setEntry p i w) home fun root' v =>
      if root' = root ∧ v / span (level + 1) = va / span (level + 1) then
        cell (Radix.walk target s.mem root ((path va).take level) ++ [w]) v
      else s.view root' v := by
  have middle := slot.middle
  have set := setEntry_becomes slot.sound slot.start slot.owned (w := w)
    (by rw [slot.length]; omega) slot.goes (by rwa [slot.length]) (by rwa [slot.length])
  refine set.congr ?_
  intro root' v place covers
  rw [slot.index]
  have same := take_prefix covers.canonical slot.covers.canonical middle
  exact if_congr (and_congr Iff.rfl same) rfl rfl

theorem Slot.setLeaf {level : Nat} (slot : Slot s home root va level p i) (large : Bool)
    (size : if large then level = 1 ∨ level = 2 else level = 3) (frame : Frame pa)
    (aligned : pa % span (level + 1) = 0) :
    Becomes s home (s.setEntry p i (leaf caps flags pa large)) home fun root' v =>
      if root' = root ∧ v / span (level + 1) = va / span (level + 1) then
        .mapped (flags.mapping caps (pa + v % span (level + 1)))
      else s.view root' v := by
  obtain ⟨long, tables⟩ := slot.tables
  have upper : level < 3 → Upper level (leaf caps flags pa large) := by
    intro above
    cases large with
    | false => exact absurd size (Nat.ne_of_lt above)
    | true => exact Upper.large (leaf_large size frame aligned)
  have ends : level = 3 ∨ target (leaf caps flags pa large) = none := by
    cases large with
    | false => exact Or.inl size
    | true =>
      have large := @leaf_large caps flags pa level size frame aligned
      exact Or.inr (if_pos (Or.inr large.large))
  refine (slot.setEntry ends upper).congr ?_
  intro root' v place covers
  split
  · rw [cell_leaf tables frame (by rwa [long]) (by rwa [long]), long]
  · rfl

/-! ## One turn of `vm_map` -/

theorem rootFor_start (sound : Sound s home) :
    home (s.rootFor cpu va) = some (s.rootFor cpu va, []) := by
  unfold Tables.rootFor
  split
  · exact sound.kernel
  · cases active : s.active cpu with
    | none => exact sound.kernel
    | some root => exact sound.active cpu root active

theorem rootFor_covers (canonical : Canonical va) : Covers s.kernel (s.rootFor cpu va) va := by
  refine ⟨canonical, ?_⟩
  unfold Tables.rootFor
  split
  · exact Or.inl rfl
  · rename_i low
    exact Or.inr (Nat.lt_of_not_le low)

/-- A page larger than the smallest is mapped there. -/
def Tables.Coarse (s : Tables) (root va : Nat) : Prop :=
  (Radix.walk target s.mem root (path va)).length < 4 ∧
    (Radix.walk target s.mem root (path va)).getLastD 0 &&& ptePresent ≠ 0

theorem Slot.coarse {level : Nat} (slot : Slot s home root va level p i)
    (large : Large level (s.mem p i)) : s.Coarse root va := by
  have whole : path va = (path va).take level ++ i :: (path va).drop (level + 1) := by
    rw [← List.singleton_append, ← List.append_assoc, slot.index, List.take_append_drop]
  have none_ : target (s.mem p i) = none := if_pos (Or.inr large.large)
  have walked : Radix.walk target s.mem root (path va) =
      Radix.walk target s.mem root ((path va).take level) ++ [s.mem p i] := by
    have found : Radix.walk target s.mem root
        ((path va).take level ++ i :: (path va).drop (level + 1)) = _ := Radix.walk_append slot.goes
    rw [← whole, Radix.walk, none_] at found
    exact found
  have middle := large.middle
  constructor
  · rw [walked, List.length_append, slot.tables.1, List.length_singleton]
    omega
  · rw [walked, List.getLastD_concat]
    exact large.present

theorem Becomes.covers {sees : Nat → Nat → Cell} (becomes : Becomes s home s' home' sees)
    (covers : Covers s.kernel root v) : Covers s'.kernel root v := by
  rwa [becomes.kernel]

theorem Becomes.rootFor {sees : Nat → Nat → Cell} (becomes : Becomes s home s' home' sees) :
    s'.rootFor cpu va = s.rootFor cpu va := by
  rw [Tables.rootFor, Tables.rootFor, becomes.kernel, becomes.active]

/-- A level further down: the table is there, or it is made, or there is no room for it, or a large
page in its place. -/
theorem descend (sound : Sound s home) (start : home root = some (root, []))
    (covers : Covers s.kernel root va) {level : Nat} (above : level < 3)
    (goes : Radix.reach target s.mem root ((path va).take level) = some p)
    (index : (path va).take level ++ [i] = (path va).take (level + 1)) :
    (∃ q s' home', s.nextLevel p i true = (some q, s') ∧ Becomes s home s' home' s.view ∧
      Radix.reach target s'.mem root ((path va).take (level + 1)) = some q) ∨
    s.nextLevel p i true = (none, s) ∧ (s.free = [] ∨ s.Coarse root va) := by
  have long : ((path va).take level).length = level := by
    rw [List.length_take, path_length]
    omega
  have owned : Radix.Owned (own s.kernel) root ((path va).take level ++ [i]) := by
    rw [index]
    intro j later parts
    refine covers.owned j (later ++ (path va).drop (level + 1)) ?_
    rw [← List.cons_append, ← parts, List.take_append_drop]
  have next := nextLevel_create sound start owned (by rwa [long]) goes
  rw [index, long] at next
  rcases next with made | ⟨none_, why⟩
  · exact Or.inl made
  · refine Or.inr ⟨none_, ?_⟩
    rcases why with full | large
    · exact Or.inl full
    · have middle := large.middle
      exact Or.inr (Slot.coarse ⟨sound, start, covers, by omega, goes, index⟩ large)

/-- Nothing that is seen has changed twice. -/
theorem Becomes.through {s'' : Tables} {home'' : Homes} (one : Becomes s home s' home' s.view)
    (two : Becomes s' home' s'' home'' s'.view) : Becomes s home s'' home'' s.view := by
  refine (one.trans two).congr ?_
  intro root v place covers
  exact one.view root v place covers

/-- A leaf put in where nothing has changed so far. -/
theorem Becomes.setLeaf (becomes : Becomes s home s' home' s.view) {level : Nat}
    (slot : Slot s' home' root va level p i) (large : Bool)
    (size : if large then level = 1 ∨ level = 2 else level = 3) (frame : Frame pa)
    (aligned : pa % span (level + 1) = 0) :
    Becomes s home (s'.setEntry p i (leaf caps flags pa large)) home' fun root' v =>
      if root' = root ∧ v / span (level + 1) = va / span (level + 1) then
        .mapped (flags.mapping caps (pa + v % span (level + 1)))
      else s.view root' v := by
  refine (becomes.trans (slot.setLeaf large size frame aligned)).congr ?_
  intro root' v place covers
  rw [becomes.view root' v place covers]

/-- What a turn of `vm_map` does: it maps one page of some size, or stops, with nothing changed
that is seen. -/
theorem mapTurn_becomes (sound : Sound s home) (canonical : Canonical va)
    (frame : Frame pa) (aligned : va % pageSize = 0) (some_ : pageSize ≤ size) :
    (∃ n s' home', s.mapTurn caps flags cpu va pa size = (some n, s') ∧ n ≤ size ∧
      n % pageSize = 0 ∧ 0 < n ∧ va % n = 0 ∧
      Becomes s home s' home' fun root v =>
        if root = s.rootFor cpu va ∧ v / n = va / n then
          .mapped (flags.mapping caps (pa + v % n))
        else s.view root v) ∨
    ∃ s' home', s.mapTurn caps flags cpu va pa size = (none, s') ∧
      Becomes s home s' home' s.view ∧ (s'.free = [] ∨ s'.Coarse (s.rootFor cpu va) va) := by
  have start := @rootFor_start s home cpu va sound
  have covers := @rootFor_covers s cpu va canonical
  rw [Tables.mapTurn]
  generalize s.rootFor cpu va = root at start covers ⊢
  rcases @descend s home root root (i4 va) va sound start covers 0 (by decide) rfl rfl with
    ⟨pdpt, s4, home4, next4, becomes4, goes4⟩ | ⟨none4, why⟩
  case inr =>
    rw [none4]
    exact Or.inr ⟨s, home, rfl, Becomes.refl sound, why⟩
  rw [next4]
  dsimp only
  have start4 := becomes4.grows root _ start
  have covers4 := becomes4.covers covers
  split
  · rename_i giga
    have parts := (or_low 30).mp giga.2.2
    have slot : Slot s4 home4 root va 1 pdpt (i3 va) :=
      ⟨becomes4.sound, start4, covers4, Or.inl rfl, goes4, rfl⟩
    exact Or.inl ⟨size1g, _, home4, rfl, giga.2.1, by decide, by decide, parts.1,
      becomes4.setLeaf slot true (Or.inl rfl) frame parts.2⟩
  rcases @descend s4 home4 pdpt root (i3 va) va becomes4.sound start4 covers4 1 (by decide) goes4
    rfl with ⟨pd, s3, home3, next3, becomes3, goes3⟩ | ⟨none3, why⟩
  case inr =>
    rw [none3]
    exact Or.inr ⟨s4, home4, rfl, becomes4, why⟩
  rw [next3]
  dsimp only
  have start3 := becomes3.grows root _ start4
  have covers3 := becomes3.covers covers4
  have same3 := becomes4.through becomes3
  split
  · rename_i mega
    have parts := (or_low 21).mp mega.2.2
    have slot : Slot s3 home3 root va 2 pd (i2 va) :=
      ⟨becomes3.sound, start3, covers3, Or.inr (Or.inl rfl), goes3, rfl⟩
    exact Or.inl ⟨size2m, _, home3, rfl, mega.2.1, by decide, by decide, parts.1,
      same3.setLeaf slot true (Or.inr rfl) frame parts.2⟩
  rcases @descend s3 home3 pd root (i2 va) va becomes3.sound start3 covers3 2 (by decide) goes3
    rfl with ⟨pt, s2, home2, next2, becomes2, goes2⟩ | ⟨none2, why⟩
  case inr =>
    rw [none2]
    exact Or.inr ⟨s3, home3, rfl, same3, why⟩
  rw [next2]
  have slot : Slot s2 home2 root va 3 pt (i1 va) :=
    ⟨becomes2.sound, becomes2.grows root _ start3, becomes2.covers covers3, Or.inr (Or.inr rfl),
      goes2, rfl⟩
  exact Or.inl ⟨pageSize, _, home2, rfl, some_, rfl, by decide, aligned,
    (same3.through becomes2).setLeaf slot false rfl frame frame.aligned⟩

/-! ## The whole of `vm_map` -/

/-- Addresses of one half, each of them one that the processor accepts. -/
def Range (va size : Nat) : Prop :=
  va + size ≤ userLimit ∨ 0xFFFF800000000000 ≤ va ∧ va + size ≤ 0x10000000000000000

theorem Range.canonical (range : Range va size) (some_ : 0 < size) : Canonical va := by
  unfold Range at range
  unfold Canonical
  omega

theorem Range.later {n : Nat} (range : Range va size) (less : n ≤ size) :
    Range (va + n) (size - n) := by
  unfold Range at range ⊢
  omega

theorem Range.rootFor {n : Nat} (range : Range va size) (less : n < size) :
    s.rootFor cpu (va + n) = s.rootFor cpu va := by
  unfold Range userLimit at range
  unfold Tables.rootFor userLimit
  rcases range with low | high
  · rw [if_neg (by omega), if_neg (by omega)]
  · rw [if_pos (by omega), if_pos (by omega)]

/-- The addresses of a page. -/
theorem block_iff {n : Nat} (some_ : 0 < n) (aligned : va % n = 0) :
    v / n = va / n ↔ va ≤ v ∧ v < va + n := by
  have whole := Nat.div_add_mod va n
  rw [aligned, Nat.add_zero] at whole
  have parts := Nat.div_add_mod v n
  have left := Nat.mod_lt v some_
  constructor
  · intro same
    rw [same, whole] at parts
    omega
  · intro within
    rw [← whole] at within
    have least : va / n ≤ v / n := (Nat.le_div_iff_mul_le some_).mpr (by
      rw [Nat.mul_comm]
      exact within.1)
    have most : v / n < va / n + 1 := (Nat.div_lt_iff_lt_mul some_).mpr (by
      rw [Nat.add_mul, Nat.one_mul, Nat.mul_comm]
      exact within.2)
    omega

theorem block_mod {n : Nat} (aligned : va % n = 0) (same : v / n = va / n) : v % n = v - va := by
  have whole := Nat.div_add_mod va n
  have parts := Nat.div_add_mod v n
  rw [aligned, Nat.add_zero] at whole
  rw [same, whole] at parts
  omega

/-- What the loop has mapped when it ends, if it was to map `size` bytes. -/
def Mapped (caps : Caps) (flags : Flags) (s : Tables) (r va pa done root v : Nat) : Cell :=
  if root = r ∧ va ≤ v ∧ v < va + done then .mapped (flags.mapping caps (pa + (v - va)))
  else s.view root v

theorem mapped_nothing (sound : Sound s home) :
    Becomes s home s home (Mapped caps flags s r va pa 0) := by
  refine (Becomes.refl sound).congr ?_
  intro root v place covers
  exact (if_neg fun within => by omega).symm

/-- One page mapped, and then the rest. -/
theorem mapped_more {n done : Nat} (some_ : 0 < n) (aligned : va % n = 0)
    (one : Becomes s home s' home' fun root v =>
      if root = r ∧ v / n = va / n then .mapped (flags.mapping caps (pa + v % n))
      else s.view root v) {s'' : Tables} {home'' : Homes}
    (more : Becomes s' home' s'' home'' (Mapped caps flags s' r (va + n) (pa + n) done)) :
    Becomes s home s'' home'' (Mapped caps flags s r va pa (n + done)) := by
  refine (one.trans more).congr ?_
  intro root v place covers
  have block := @block_iff v va n some_ aligned
  unfold Mapped
  by_cases later : root = r ∧ va + n ≤ v ∧ v < va + n + done
  · rw [if_pos later, if_pos (by omega)]
    congr 2
    omega
  · rw [if_neg later, one.view root v place covers]
    by_cases now : root = r ∧ v / n = va / n
    · rw [if_pos now, if_pos (by rw [block] at now; omega), block_mod aligned now.2]
    · rw [if_neg now, if_neg (by rw [block] at now; omega)]

/-- The induction is on the turns: it goes all the way, or stops for a reason, with what it did up
to there and nothing else. -/
theorem mapLoop_becomes (caps : Caps) (flags : Flags) (cpu turns : Nat) :
    ∀ {s home va pa size}, Sound s home → Range va size → size ≤ turns * pageSize →
      va % pageSize = 0 → pa % pageSize = 0 → size % pageSize = 0 →
      pa + size ≤ 0x10000000000000 →
      ∃ ok s' home' done, Tables.mapLoop caps flags cpu turns s va pa size = (ok, s') ∧
        done ≤ size ∧ done % pageSize = 0 ∧ (ok = true → done = size) ∧
        (ok = false → done < size ∧
          (s'.free = [] ∨ s'.Coarse (s.rootFor cpu va) (va + done))) ∧
        Becomes s home s' home' (Mapped caps flags s (s.rootFor cpu va) va pa done) := by
  induction turns with
  | zero =>
    intro s home va pa size sound range few aligned aligned' whole fits
    refine ⟨true, s, home, 0, rfl, Nat.zero_le _, rfl, ?_, ?_, mapped_nothing sound⟩
    · intro all
      rw [Nat.zero_mul] at few
      exact (Nat.le_zero.mp few).symm
    · intro none_
      cases none_
  | succ turns ih =>
    intro s home va pa size sound range few aligned aligned' whole fits
    rw [Tables.mapLoop]
    by_cases none_ : size = 0
    · rw [if_pos none_]
      refine ⟨true, s, home, 0, rfl, Nat.zero_le _, rfl, fun all => none_.symm, ?_,
        mapped_nothing sound⟩
      intro stopped
      cases stopped
    rw [if_neg none_]
    have some_ : pageSize ≤ size := by
      unfold pageSize at whole ⊢
      omega
    have canonical := range.canonical (Nat.pos_of_ne_zero none_)
    rcases @mapTurn_becomes s home caps flags cpu va pa size sound canonical ⟨aligned', by omega⟩
      aligned some_ with ⟨n, s₁, home₁, turn, less, page, pos, start, one⟩ |
        ⟨s₁, home₁, turn, same, why⟩
    · rw [turn]
      dsimp only
      have fewer : size - n ≤ turns * pageSize := by
        rw [Nat.add_mul] at few
        unfold pageSize at page few ⊢
        omega
      obtain ⟨ok, s₂, home₂, done, rest, most, page', all, stops, more⟩ := @ih s₁ home₁ (va + n) (pa + n)
        (size - n) one.sound (range.later less) fewer
        (by unfold pageSize at *; omega) (by unfold pageSize at *; omega)
        (by unfold pageSize at *; omega) (by omega)
      have root : Becomes s₁ home₁ s₂ home₂
            (Mapped caps flags s₁ (s.rootFor cpu va) (va + n) (pa + n) done) ∧
          (ok = false → s₁.rootFor cpu (va + n) = s.rootFor cpu va) := by
        by_cases last : n < size
        · have same := (@Becomes.rootFor s s₁ home home₁ cpu (va + n) _ one).trans
            (range.rootFor last)
          rw [same] at more
          exact ⟨more, fun _ => same⟩
        · constructor
          · refine more.congr ?_
            intro root v place covers
            unfold Mapped
            rw [if_neg (by omega), if_neg (by omega)]
          · intro stopped
            have := (stops stopped).1
            omega
      refine ⟨ok, s₂, home₂, n + done, rest, by omega, by unfold pageSize at *; omega, ?_, ?_,
        mapped_more pos start one root.1⟩
      · intro whole'
        have := all whole'
        omega
      · intro stopped
        obtain ⟨short, why⟩ := stops stopped
        rw [root.2 stopped, Nat.add_assoc] at why
        exact ⟨by omega, why⟩
    · rw [turn]
      refine ⟨false, s₁, home₁, 0, rfl, Nat.zero_le _, rfl, ?_, ?_, ?_⟩
      · intro all
        cases all
      · intro stopped
        exact ⟨Nat.pos_of_ne_zero none_, why⟩
      · refine same.congr ?_
        intro root v place covers
        exact (if_neg fun within => by omega).symm

theorem vmMap_mapped (sound : Sound s home) (range : Range va size)
    (fits : pa + size ≤ 0x10000000000000) {ok : Bool}
    (runs : s.vmMap caps flags cpu va pa size = some (ok, s')) :
    ∃ home' done, done ≤ size ∧ done % pageSize = 0 ∧ (ok = true → done = size) ∧
      (ok = false → done < size ∧
        (s'.free = [] ∨ s'.Coarse (s.rootFor cpu va) (va + done))) ∧
      Becomes s home s' home' (Mapped caps flags s (s.rootFor cpu va) va pa done) := by
  rw [Tables.vmMap] at runs
  split at runs
  · cases runs
  · rename_i aligned
    rw [ne_eq, not_not] at aligned
    have parts := (or_low 12).mp aligned
    have parts' := (or_low 12).mp (show (va ||| pa) &&& (1 <<< 12 - 1) = 0 by
      rw [Nat.one_shiftLeft, Nat.and_two_pow_sub_one_eq_mod]
      exact parts.1)
    have turns : size ≤ size / pageSize * pageSize :=
      Nat.le_of_eq (Nat.div_mul_cancel (Nat.dvd_of_mod_eq_zero parts.2)).symm
    obtain ⟨ok', s₁, home₁, done, run, most, page, all, stops, becomes⟩ := mapLoop_becomes caps flags cpu
      _ sound range turns parts'.1 parts'.2 parts.2 fits
    rw [run, Option.some.injEq, Prod.mk.injEq] at runs
    obtain ⟨rfl, rfl⟩ := runs
    exact ⟨home₁, done, most, page, all, stops, becomes⟩

end ReconOS.Vm
