import Mathlib.Data.List.TakeWhile
import ReconOS.Gpt.Entries

/-! Where the slices lie that a scan registers. -/
namespace ReconOS.Gpt

variable {mem : Memory} {dev : Device} {d : Disk} {junk block : Bytes}

/-! ## Registering -/

instance (s : Slice) (d : Disk) : Decidable (s.On d) := inferInstanceAs (Decidable (_ ∧ _ ∧ _))

/-- With slices more, and room for so many fewer. -/
def Device.add (dev : Device) (l : List Slice) : Device :=
  { dev with slices := dev.slices ++ l, room := dev.room - l.length }

@[simp] theorem Device.add_nil (dev : Device) : dev.add [] = dev := by simp [Device.add]

theorem Device.add_add (dev : Device) (l l' : List Slice) : (dev.add l).add l' = dev.add (l ++ l') := by
  simp [Device.add, Nat.sub_sub]

theorem Device.add_limit (dev : Device) (l : List Slice) :
    (dev.add l).limit = dev.limit - l.length := by
  simp only [Device.limit, Device.add, List.length_append]
  omega

theorem registerSlice_eq (dev : Device) (index first count : Nat) (scheme : Scheme) :
    dev.registerSlice index first count scheme =
      if Slice.On ⟨index, first, count, scheme⟩ dev.disk ∧ dev.limit ≠ 0 then
        some (dev.add [⟨index, first, count, scheme⟩])
      else none := by
  by_cases good : Slice.On ⟨index, first, count, scheme⟩ dev.disk ∧ dev.limit ≠ 0
  · obtain ⟨⟨some_, before, room⟩, limit⟩ := good
    rw [if_pos ⟨⟨some_, before, room⟩, limit⟩]
    dsimp only at some_ before room
    unfold Device.limit at limit
    unfold Device.registerSlice
    rw [if_neg some_, if_neg (by omega), if_neg (by omega), if_neg (by omega)]
    rfl
  · rw [if_neg good]
    unfold Device.registerSlice
    split
    · rfl
    · split
      · rfl
      · split
        · rfl
        · split
          · rfl
          · refine absurd ⟨⟨by assumption, ?_, ?_⟩, ?_⟩ good
            · dsimp only
              omega
            · dsimp only
              omega
            · unfold Device.limit
              omega

/-- One more slice, and then those that there is still room for. -/
theorem Device.add_take (dev : Device) (s : Slice) (l : List Slice) (room : dev.limit ≠ 0) :
    (dev.add [s]).add (l.take (dev.add [s]).limit) = dev.add ((s :: l).take dev.limit) := by
  obtain ⟨n, limit⟩ := Nat.exists_eq_succ_of_ne_zero room
  rw [Device.add_add, Device.add_limit, limit]
  rfl

/-! ## The primaries -/

/-- The slice of an entry in the boot record, where it is used and no container. -/
def primary (block : Bytes) (i : Nat) : Option Slice :=
  let (type, start, count) := mbrEntry block i
  if type = mbrTypeEmpty ∨ count = 0 ∨ isExtended type = true then none
  else some ⟨i + 1, start, count, .mbr⟩

/-- Those of the primaries that lie on the disk. -/
def primariesOn (d : Disk) (block : Bytes) (l : List Nat) : List Slice :=
  (l.filterMap (primary block)).filter fun s => s.On d

theorem registerPrimaries_eq (dev : Device) (l : List Nat) :
    registerPrimaries block dev l = dev.add ((primariesOn dev.disk block l).take dev.limit) := by
  induction l generalizing dev with
  | nil => simp [registerPrimaries, primariesOn]
  | cons i rest ih =>
    have skipped (none_ : primary block i = none) :
        primariesOn dev.disk block (i :: rest) = primariesOn dev.disk block rest := by
      unfold primariesOn
      rw [List.filterMap_cons_none none_]
    have listed {s : Slice} (some_ : primary block i = some s) :
        primariesOn dev.disk block (i :: rest) =
          if s.On dev.disk then s :: primariesOn dev.disk block rest
          else primariesOn dev.disk block rest := by
      unfold primariesOn
      rw [List.filterMap_cons_some some_, List.filter_cons]
      simp
    unfold registerPrimaries
    cases entry : mbrEntry block i with
    | mk type extent =>
      obtain ⟨start, count⟩ := extent
      dsimp only
      have this : primary block i =
          if type = mbrTypeEmpty ∨ count = 0 ∨ isExtended type = true then none
          else some ⟨i + 1, start, count, .mbr⟩ := by
        unfold primary
        rw [entry]
      by_cases unused : type = mbrTypeEmpty ∨ count = 0
      · rw [if_pos unused, skipped (by rw [this, if_pos (by tauto)])]
        exact ih dev
      · rw [if_neg unused]
        by_cases extended : isExtended type = true
        · rw [if_pos extended, skipped (by rw [this, if_pos (by tauto)])]
          exact ih dev
        · rw [if_neg extended, listed (by rw [this, if_neg (by tauto)]), registerSlice_eq]
          by_cases on : Slice.On ⟨i + 1, start, count, .mbr⟩ dev.disk
          · rw [if_pos on]
            by_cases room : dev.limit = 0
            · rw [if_neg (fun both => both.2 room), room]
              have none_ := ih dev
              rw [room] at none_
              exact none_
            · rw [if_pos ⟨on, room⟩]
              exact (ih _).trans (dev.add_take _ _ room)
          · rw [if_neg (fun both => on both.1), if_neg on]
            exact ih dev

/-! ## The chain -/

/-- The first container of the boot record: its start and count. -/
def container (block : Bytes) : Option (Nat × Nat) :=
  ((List.range 4).find? fun i => isExtended (mbrEntry block i).1).map fun i => (mbrEntry block i).2

/-- The logical partitions that a chain names, in order: their starts and counts. -/
def chain (d : Disk) (junk : Bytes) (containerLba containerCount : Nat) :
    (guard : Nat) → (link : Nat) → List (Nat × Nat)
  | 0, _ => []
  | guard + 1, link =>
    if link < containerLba ∨ containerCount ≤ link - containerLba then []
    else if ¬d.CanRead link 1 then []
    else
      let block := d.sector junk link
      if block.le16 mbrSignatureOffset ≠ 0xAA55 then []
      else
        let (type, start, count) := mbrEntry block 0
        let (nextType, nextStart, _) := mbrEntry block 1
        let next := containerLba + nextStart
        let rest :=
          if ¬isExtended nextType then []
          else if next ≤ link then []
          else chain d junk containerLba containerCount guard next
        if type ≠ mbrTypeEmpty ∧ count ≠ 0 then (link + start, count) :: rest else rest

/-- Slices numbered from `index` on. -/
def numbered (index : Nat) : List (Nat × Nat) → List Slice
  | [] => []
  | (first, count) :: rest => ⟨index, first, count, .mbr⟩ :: numbered ((index + 1) % 0x100) rest

theorem numbered_take (index : Nat) (l : List (Nat × Nat)) (n : Nat) :
    numbered index (l.take n) = (numbered index l).take n := by
  induction l generalizing index n with
  | nil => simp [numbered]
  | cons p l ih =>
    cases n with
    | zero => rfl
    | succ n =>
      show _ :: numbered _ (l.take n) = _ :: (numbered _ l).take n
      rw [ih]

/-- The logical partitions up to the first that is not on the disk. -/
def onDisk (d : Disk) (l : List (Nat × Nat)) : List (Nat × Nat) :=
  l.takeWhile fun p => Slice.On ⟨0, p.1, p.2, .mbr⟩ d

theorem walkExtended_eq (containerLba containerCount guard link index : Nat) (dev : Device) :
    walkExtended junk containerLba containerCount guard link index dev =
      dev.add (numbered index
        ((onDisk dev.disk (chain dev.disk junk containerLba containerCount guard link)).take
          dev.limit)) := by
  induction guard generalizing link index dev with
  | zero => simp [walkExtended, chain, onDisk, numbered]
  | succ guard ih =>
    unfold walkExtended chain
    split
    · simp [onDisk, numbered]
    · split
      · simp [onDisk, numbered]
      · dsimp only
        split
        · simp [onDisk, numbered]
        · generalize mbrEntry (dev.disk.sector junk link) 0 = here
          generalize mbrEntry (dev.disk.sector junk link) 1 = there
          obtain ⟨type, start, count⟩ := here
          obtain ⟨nextType, nextStart, nextCount⟩ := there
          dsimp only
          have onward (index : Nat) (dev' : Device) (same : dev'.disk = dev.disk) :
              (if ¬isExtended nextType = true then dev'
                else if containerLba + nextStart ≤ link then dev'
                else walkExtended junk containerLba containerCount guard (containerLba + nextStart)
                  index dev') =
              dev'.add (numbered index ((onDisk dev.disk
                (if ¬isExtended nextType = true then []
                  else if containerLba + nextStart ≤ link then []
                  else chain dev.disk junk containerLba containerCount guard
                    (containerLba + nextStart))).take dev'.limit)) := by
            split
            · simp [onDisk, numbered]
            · split
              · simp [onDisk, numbered]
              · rw [ih, same]
          by_cases used : type ≠ mbrTypeEmpty ∧ count ≠ 0
          · rw [if_pos used, if_pos used, registerSlice_eq]
            unfold onDisk
            rw [numbered_take]
            by_cases on : Slice.On ⟨index, link + start, count, .mbr⟩ dev.disk
            · rw [List.takeWhile_cons_of_pos (a := (link + start, count)) (decide_eq_true on)]
              by_cases room : dev.limit = 0
              · rw [if_neg (fun both => both.2 room), room, List.take_zero, Device.add_nil]
              · rw [if_pos ⟨on, room⟩]
                refine (onward ((index + 1) % 0x100) (dev.add _) rfl).trans ?_
                rw [numbered_take]
                exact dev.add_take _ _ room
            · rw [if_neg (fun both => on both.1),
                List.takeWhile_cons_of_neg (a := (link + start, count))
                  (fun yes => on (of_decide_eq_true yes))]
              simp [numbered]
          · rw [if_neg used, if_neg used]
            exact onward index dev rfl

theorem chain_from (d : Disk) (junk : Bytes) (containerLba containerCount guard link : Nat) :
    (chain d junk containerLba containerCount guard link).length ≤ guard ∧
      ∀ p ∈ chain d junk containerLba containerCount guard link, containerLba ≤ p.1 := by
  induction guard generalizing link with
  | zero => exact ⟨Nat.le_refl _, fun p mem => nomatch mem⟩
  | succ guard ih =>
    unfold chain
    split
    · exact ⟨Nat.zero_le _, fun p mem => nomatch mem⟩
    · rename_i inside
      split
      · exact ⟨Nat.zero_le _, fun p mem => nomatch mem⟩
      · dsimp only
        split
        · exact ⟨Nat.zero_le _, fun p mem => nomatch mem⟩
        · generalize mbrEntry (d.sector junk link) 0 = here
          generalize mbrEntry (d.sector junk link) 1 = there
          obtain ⟨type, start, count⟩ := here
          obtain ⟨nextType, nextStart, nextCount⟩ := there
          dsimp only
          have onward : ∀ rest, rest = (if ¬isExtended nextType = true then []
              else if containerLba + nextStart ≤ link then []
              else chain d junk containerLba containerCount guard (containerLba + nextStart)) →
              rest.length ≤ guard ∧ ∀ p ∈ rest, containerLba ≤ p.1 := by
            rintro rest rfl
            split
            · exact ⟨Nat.zero_le _, fun p mem => nomatch mem⟩
            · split
              · exact ⟨Nat.zero_le _, fun p mem => nomatch mem⟩
              · exact ih _
          obtain ⟨few, later⟩ := onward _ rfl
          split
          · refine ⟨Nat.succ_le_succ few, fun p mem => ?_⟩
            cases List.mem_cons.1 mem with
            | inl first =>
              rw [first]
              dsimp only
              omega
            | inr rest => exact later p rest
          · exact ⟨Nat.le_succ_of_le few, later⟩

/-- The slices of logical partitions are theirs, and numbered from 5 on. -/
theorem mem_numbered {index : Nat} {l : List (Nat × Nat)} (few : index + l.length ≤ 0x100)
    {s : Slice} (mem : s ∈ numbered index l) :
    index ≤ s.index ∧ s.scheme = .mbr ∧ (s.first, s.count) ∈ l := by
  induction l generalizing index with
  | nil => cases mem
  | cons p l ih =>
    cases List.mem_cons.1 mem with
    | inl first =>
      rw [first]
      exact ⟨Nat.le_refl _, rfl, List.mem_cons_self ..⟩
    | inr rest =>
      rw [List.length_cons] at few
      have some_ : l ≠ [] := by
        rintro rfl
        cases rest
      have := List.length_pos_iff.2 some_
      rw [Nat.mod_eq_of_lt (by omega)] at rest
      obtain ⟨later, scheme, mem⟩ := ih (by omega) rest
      exact ⟨by omega, scheme, List.mem_cons_of_mem p mem⟩

theorem numbered_of_mem {index : Nat} {l : List (Nat × Nat)} {p : Nat × Nat} (mem : p ∈ l) :
    ∃ s ∈ numbered index l, s.first = p.1 ∧ s.count = p.2 := by
  induction l generalizing index with
  | nil => cases mem
  | cons q l ih =>
    cases List.mem_cons.1 mem with
    | inl first =>
      rw [first]
      exact ⟨_, List.mem_cons_self .., rfl, rfl⟩
    | inr rest =>
      obtain ⟨s, there, same⟩ := ih rest
      exact ⟨s, List.mem_cons_of_mem _ there, same⟩

/-! ## The scan -/

/-- A scan gets as far as the boot record's own table. -/
structure ReadsMbr (mem : Memory) (junk : Bytes) (dev : Device) : Prop where
  present : dev.disk.present = true
  whole : dev.parent = false
  begins : Begins mem junk dev.disk
  unprotected : hasProtectiveEntry (dev.disk.sector junk 0) = false
  noGpt : ∀ h, ¬Reads mem dev h

/-- A logical partition lies in the container. -/
def Slice.InContainer (s : Slice) (block : Bytes) : Prop :=
  s.scheme = .mbr → 5 ≤ s.index → ∃ c ∈ container block,
    c.1 ≤ s.first ∧ s.first + s.count ≤ c.1 + c.2

/-- What a scan registers is on the disk, and in the container if it is a logical partition. -/
def Contained (mem : Memory) (dev : Device) : Prop :=
  ∃ new, (partitionScan mem dev).slices = dev.slices ++ new ∧
    ∀ s ∈ new, s.On dev.disk ∧ ∀ junk ∈ mem.page, s.InContainer (dev.disk.sector junk 0)

/-- The logical partitions of a container that there is room to register: those up to the first
that is not on the disk, after the primaries. -/
def Device.logicals (dev : Device) (junk : Bytes) (c : Nat × Nat) : List (Nat × Nat) :=
  (onDisk dev.disk (chain dev.disk junk c.1 c.2 (blockMaxSlices + 8) c.1)).take
    (dev.limit - (primariesOn dev.disk (dev.disk.sector junk 0) (List.range 4)).length)

/-- The slices that the boot record's table and its chain give. -/
def Device.mbrSlices (dev : Device) (junk : Bytes) : List Slice :=
  (primariesOn dev.disk (dev.disk.sector junk 0) (List.range 4)).take dev.limit ++
    match container (dev.disk.sector junk 0) with
    | none => []
    | some c => numbered 5 (dev.logicals junk c)

theorem readMbr_eq (begins : Begins mem junk dev.disk) :
    readMbr junk dev = some (dev.add (dev.mbrSlices junk)) := by
  unfold readMbr Device.mbrSlices container
  rw [if_neg (not_not.2 begins.reads)]
  dsimp only
  rw [if_neg (not_not.2 begins.signed), registerPrimaries_eq]
  cases found : (List.range 4).find? fun i =>
      isExtended (mbrEntry (dev.disk.sector junk 0) i).1 with
  | none => simp
  | some i =>
    dsimp only [Option.map_some]
    rw [walkExtended_eq, Device.add_add, Device.add_limit]
    have left : dev.limit - ((primariesOn dev.disk (dev.disk.sector junk 0) (List.range 4)).take
        dev.limit).length =
        dev.limit - (primariesOn dev.disk (dev.disk.sector junk 0) (List.range 4)).length := by
      rw [List.length_take]
      omega
    rw [left]
    rfl

/-- A scan that finds no table of the newer kind registers nothing, or what the boot record says. -/
theorem scan_mbr (present : dev.disk.present = true) (whole : dev.parent = false)
    (none_ : (partitionScan mem dev).scheme ≠ .gpt) :
    (partitionScan mem dev).slices = dev.slices ∧ (∀ junk, ¬ReadsMbr mem junk dev) ∨
      ∃ junk, ReadsMbr mem junk dev ∧
        (partitionScan mem dev).slices = dev.slices ++ dev.mbrSlices junk := by
  have noGpt (h : Header) : ¬Reads mem dev h := by
    intro reads
    rw [reads.scan present whole] at none_
    exact none_ rfl
  by_cases begins : ∃ junk, Begins mem junk dev.disk
  · obtain ⟨junk, begins⟩ := begins
    have unread : readGpt mem junk { dev with scheme := .none } = none := by
      cases read : readGpt mem junk { dev with scheme := .none } with
      | none => rfl
      | some after =>
        rw [(scan_gpt mem present whole).2 junk after begins read] at none_
        exact absurd rfl none_
    have small : ¬(pageSize < dev.disk.blockSize ∨ dev.disk.blockCount < 2) := by
      have := begins.small
      have := begins.blocks
      omega
    cases unprotected : hasProtectiveEntry (dev.disk.sector junk 0) with
    | true =>
      refine .inl ⟨?_, fun junk' reads => ?_⟩
      · unfold partitionScan
        rw [if_neg (by simp [present, whole])]
        dsimp only
        rw [if_neg small]
        simp only [begins.page]
        rw [if_neg (not_not.2 begins.reads), if_neg (not_not.2 begins.signed), unprotected, unread]
        rfl
      · have page := reads.begins.page
        rw [begins.page] at page
        cases page
        rw [reads.unprotected] at unprotected
        cases unprotected
    | false =>
      refine .inr ⟨junk, ⟨present, whole, begins, unprotected, noGpt⟩, ?_⟩
      unfold partitionScan
      rw [if_neg (by simp [present, whole])]
      dsimp only
      rw [if_neg small]
      simp only [begins.page]
      rw [if_neg (not_not.2 begins.reads), if_neg (not_not.2 begins.signed), unprotected, unread]
      have read : readMbr junk { dev with scheme := .none } =
          some (Device.add { dev with scheme := .none } (dev.mbrSlices junk)) := readMbr_eq begins
      dsimp only
      rw [read]
      rfl
  · refine .inl ⟨?_, fun junk reads => begins ⟨junk, reads.begins⟩⟩
    unfold partitionScan
    rw [if_neg (by simp [present, whole])]
    dsimp only
    split
    · rfl
    · rename_i fits
      split
      · rfl
      · rename_i junk page
        split
        · rfl
        · rename_i reads
          split
          · rfl
          · rename_i signed
            refine absurd ⟨junk, ?_⟩ begins
            exact ⟨by omega, by omega, page, Decidable.not_not.1 reads, Decidable.not_not.1 signed⟩

/-- Every logical partition that there is room to register ends by the container's end. -/
def ChainFits (mem : Memory) (dev : Device) : Prop :=
  ∀ junk c, ReadsMbr mem junk dev → container (dev.disk.sector junk 0) = some c →
    ∀ p ∈ dev.logicals junk c, p.1 + p.2 ≤ c.1 + c.2

theorem mem_logicals {c p : Nat × Nat} (mem : p ∈ dev.logicals junk c) :
    Slice.On ⟨0, p.1, p.2, .mbr⟩ dev.disk ∧ c.1 ≤ p.1 := by
  have there := List.mem_of_mem_take mem
  unfold onDisk at there
  have on := List.mem_takeWhile_imp there
  exact ⟨of_decide_eq_true on, (chain_from _ _ _ _ _ _).2 p (List.takeWhile_subset _ there)⟩

theorem logicals_few (dev : Device) (junk : Bytes) (c : Nat × Nat) :
    5 + (dev.logicals junk c).length ≤ 0x100 := by
  have few := (chain_from dev.disk junk c.1 c.2 (blockMaxSlices + 8) c.1).1
  have short := (List.takeWhile_sublist (fun p => decide (Slice.On ⟨0, p.1, p.2, .mbr⟩ dev.disk))
    (l := chain dev.disk junk c.1 c.2 (blockMaxSlices + 8) c.1)).length_le
  have taken : (dev.logicals junk c).length ≤ 24 := by
    unfold Device.logicals onDisk
    rw [List.length_take]
    exact Nat.le_trans (Nat.min_le_right ..) (Nat.le_trans short few)
  omega

/-- The slices from the boot record are on the disk, and the logical ones begin in the container. -/
theorem mem_mbrSlices {s : Slice} (mem : s ∈ dev.mbrSlices junk) : s.On dev.disk ∧
    (s.index ≤ 4 ∨ ∃ c ∈ container (dev.disk.sector junk 0),
      (s.first, s.count) ∈ dev.logicals junk c) := by
  cases List.mem_append.1 mem with
  | inl first =>
    obtain ⟨named, on⟩ := List.mem_filter.1 (List.mem_of_mem_take first)
    obtain ⟨i, inTable, here⟩ := List.mem_filterMap.1 named
    refine ⟨of_decide_eq_true on, .inl ?_⟩
    have := List.mem_range.1 inTable
    unfold primary at here
    dsimp only at here
    split at here
    · cases here
    · cases here
      dsimp only
      omega
  | inr logical =>
    cases found : container (dev.disk.sector junk 0) with
    | none =>
      rw [found] at logical
      cases logical
    | some c =>
      rw [found] at logical
      obtain ⟨-, -, there⟩ := mem_numbered (logicals_few dev junk c) logical
      exact ⟨(mem_logicals there).1, .inr ⟨c, rfl, there⟩⟩

theorem contained_gpt {h : Header} (present : dev.disk.present = true) (whole : dev.parent = false)
    (reads : Reads mem dev h) : Contained mem dev := by
  refine ⟨_, (congrArg Device.slices (reads.scan present whole)).trans
    (registerEntries_takeWhile { dev with scheme := .none } _ _ _), ?_⟩
  intro s mem
  obtain ⟨i, there, rfl⟩ := List.mem_map.1 mem
  have good := List.mem_takeWhile_imp (List.mem_of_mem_take there)
  obtain ⟨⟨-, order⟩, inside⟩ := of_decide_eq_true good
  refine ⟨⟨Nat.succ_ne_zero _, ?_, ?_⟩, fun junk page mbr => nomatch mbr⟩
  · exact Nat.lt_of_le_of_lt order inside
  · unfold Entry.slice
    dsimp only at inside ⊢
    omega

/-- The slices a scan registers are on the disk, and the logical ones in their container, just where
the chain's partitions end by the container's end. -/
theorem slices_contained (mem : Memory) (dev : Device) : Contained mem dev ↔ ChainFits mem dev := by
  by_cases scanned : dev.disk.present = true ∧ dev.parent = false
  · obtain ⟨present, whole⟩ := scanned
    by_cases gpt : (partitionScan mem dev).scheme = .gpt
    · obtain ⟨h, reads⟩ := reads_of_scan present whole gpt
      refine iff_of_true (contained_gpt present whole reads) ?_
      intro junk c mbr
      exact absurd reads (mbr.noGpt h)
    · obtain ⟨same, unread⟩ | ⟨junk, reads, slices⟩ := scan_mbr present whole gpt
      · refine iff_of_true ⟨[], by rw [same, List.append_nil], fun s mem => nomatch mem⟩ ?_
        intro junk c mbr
        exact absurd mbr (unread junk)
      · have page := reads.begins.page
        constructor
        · rintro ⟨new, eq, each⟩ junk' c reads' found p mem
          have same : junk' = junk := Option.some.inj (reads'.begins.page.symm.trans page)
          subst same
          cases List.append_cancel_left (slices.symm.trans eq)
          obtain ⟨s, there, first, count⟩ := @numbered_of_mem 5 _ _ mem
          obtain ⟨later, scheme, -⟩ := mem_numbered (logicals_few dev junk' c) there
          have listed : s ∈ dev.mbrSlices junk' := by
            unfold Device.mbrSlices
            rw [found]
            exact List.mem_append_right _ there
          obtain ⟨c', found', -, ends⟩ := (each s listed).2 junk' page scheme later
          cases found.symm.trans found'
          rw [← first, ← count]
          exact ends
        · intro fits
          refine ⟨_, slices, fun s mem => ?_⟩
          obtain ⟨on, place⟩ := mem_mbrSlices mem
          refine ⟨on, fun junk' page' scheme later => ?_⟩
          have same : junk' = junk := Option.some.inj (page'.symm.trans page)
          subst same
          obtain few | ⟨c, found, there⟩ := place
          · omega
          · exact ⟨c, found, (mem_logicals there).2, fits junk' c reads found _ there⟩
  · have same : partitionScan mem dev = dev := by
      unfold partitionScan
      rw [if_pos]
      by_cases present : dev.disk.present = true
      · cases part : dev.parent with
        | true => exact .inr rfl
        | false => exact absurd ⟨present, part⟩ scanned
      · exact .inl present
    refine iff_of_true ⟨[], by rw [same, List.append_nil], fun s mem => nomatch mem⟩ ?_
    intro junk c mbr
    exact absurd ⟨mbr.present, mbr.whole⟩ scanned

/-! ## A partition past the end of its container -/

/-- The boot record names a container of 50 blocks from block 100 on; its first link, a partition
of 1000 blocks from its second block on. -/
def spillingDisk : Disk where
  present := true
  blockSize := 512
  blockCount := 0x1000000
  block n i :=
    if i = 510 then 0x55 else if i = 511 then 0xAA
    else if n = 0 then if i = 450 then 5 else if i = 454 then 100 else if i = 458 then 50 else 0
    else if n = 100 then
      if i = 450 then 0x83 else if i = 454 then 1 else if i = 458 then 0xE8 else
        if i = 459 then 3 else 0
    else 0
  bad _ := false
  sizePos := sample_sizePos
  bytesFit := sample_bytesFit

theorem logical_spills : ¬∀ mem dev, Contained mem dev := by
  intro always
  obtain ⟨new, slices, each⟩ := always sampleMemory ⟨spillingDisk, false, .none, [], 60⟩
  have registered : (partitionScan sampleMemory ⟨spillingDisk, false, .none, [], 60⟩).slices =
      [⟨5, 101, 1000, .mbr⟩] := by decide +kernel
  rw [registered] at slices
  cases slices
  obtain ⟨c, found, -, ends⟩ :=
    (each _ (List.mem_singleton.2 rfl)).2 (fun _ => 0) rfl rfl (by decide)
  have here : container (spillingDisk.sector (fun _ => 0) 0) = some (100, 50) := by decide +kernel
  cases here.symm.trans found
  revert ends
  decide

end ReconOS.Gpt
