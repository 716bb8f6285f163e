import ReconOS.Gpt.Plan

/-! When an installer calls a disk that has a partition table blank. -/
namespace ReconOS.Gpt

variable {mem : Memory} {heap : Heap} {junk : Bytes} {dev : Device} {d : Disk} {h : Header}

/-! ## A copy of the table -/

/-- The copy of the table that has its header in block `at'` is wholly valid. -/
structure WhollyValid (d : Disk) (at' : Nat) (h : Header) : Prop where
  reads : d.CanRead at' 1
  header : headerOk (d.block at') d.blockSize at' = some h
  inside : h.entriesLba < d.blockCount ∧ h.entryBlocks d.blockSize ≤ d.blockCount - h.entriesLba
  readsEntries : d.CanRead h.entriesLba (h.entryBlocks d.blockSize)
  checksum : crc32 ((d.bytes h.entriesLba).slice 0 h.entryBytes) = h.entriesCrc

/-- The table of a disk: the primary copy where that is valid, else the backup. -/
def TableOf (d : Disk) (h : Header) : Prop :=
  WhollyValid d 1 h ∨ (∀ h', ¬WhollyValid d 1 h') ∧ WhollyValid d d.last h

/-- The slices of a table's partitions: the used entries that are not empty. -/
def slicesOf (entries : Bytes) (stride : Nat) : List Nat → List Slice
  | [] => []
  | i :: rest =>
    let e := entryAt entries stride i
    if e.used ∧ e.first ≤ e.last then
      ⟨(i + 1) % 0x100, e.first, (e.last - e.first + 1) % u64Size, .gpt⟩ :: slicesOf entries stride rest
    else slicesOf entries stride rest

def partitionsOf (d : Disk) (h : Header) : List Slice :=
  slicesOf (d.bytes h.entriesLba) h.stride (List.range h.count)

/-- A slice lies on the disk. -/
def Slice.On (s : Slice) (d : Disk) : Prop :=
  s.count ≠ 0 ∧ s.first < d.blockCount ∧ s.count ≤ d.blockCount - s.first

/-! ## The header -/

theorem slice_congr {p q : Bytes} {o n : Nat} (same : ∀ i < o + n, p i = q i) :
    p.slice o n = q.slice o n := by
  apply List.map_congr_left
  intro i mem
  exact same _ (Nat.add_lt_add_left (List.mem_range.1 mem) o)

theorem le32_congr {p q : Bytes} {o n : Nat} (same : ∀ i < n, p i = q i) (within : o + 4 ≤ n) :
    p.le32 o = q.le32 o := by
  simp only [Bytes.le32, Bytes.le16]
  rw [same o (by omega), same (o + 1) (by omega), same (o + 2) (by omega),
    same (o + 2 + 1) (by omega)]

theorem le64_congr {p q : Bytes} {o n : Nat} (same : ∀ i < n, p i = q i) (within : o + 8 ≤ n) :
    p.le64 o = q.le64 o := by
  simp only [Bytes.le64]
  rw [le32_congr same (by omega), le32_congr same (by omega)]

theorem headerCrc_congr {p q : Bytes} {size n : Nat} (same : ∀ i < n, p i = q i)
    (within : size ≤ n) (least : 20 ≤ size) : headerCrc p size = headerCrc q size := by
  unfold headerCrc
  rw [slice_congr fun i less => same i (by omega), slice_congr fun i less => same i (by omega)]

/-- A header is judged by the bytes of its block. -/
theorem headerOk_congr {p q : Bytes} {n at' : Nat} (same : ∀ i < n, p i = q i) :
    headerOk p n at' = headerOk q n at' := by
  by_cases large : 92 ≤ n
  · unfold headerOk Header.of
    rw [le32_congr (o := 0) same (by omega), le32_congr (o := 4) same (by omega),
      le32_congr (o := 12) same (by omega), le64_congr (o := 24) same (by omega),
      le32_congr (o := 16) same (by omega), le64_congr (o := 72) same (by omega),
      le32_congr (o := 80) same (by omega), le32_congr (o := 84) same (by omega),
      le32_congr (o := 88) same (by omega)]
    split
    · rfl
    · split
      · rfl
      · rw [headerCrc_congr same (by omega) (by omega)]
  · have none_ : ∀ r : Bytes, headerOk r n at' = none := by
      intro r
      unfold headerOk
      split
      · rfl
      · rw [if_pos (by omega)]
    rw [none_, none_]

theorem headerOk_sector (d : Disk) (junk : Bytes) (at' : Nat) :
    headerOk (d.sector junk at') d.blockSize at' = headerOk (d.block at') d.blockSize at' :=
  headerOk_congr fun _ less => if_pos less

/-- The header that a scan goes by is the primary, where that can be read and believed. -/
def PrimaryOk (d : Disk) : Prop := d.CanRead 1 1 ∧ (headerOk (d.block 1) d.blockSize 1).isSome

theorem readHeader_primary (ok : d.CanRead 1 1) (header : headerOk (d.block 1) d.blockSize 1 = some h) :
    readHeader junk d = some (1, h) := by
  unfold readHeader
  rw [if_pos ok, headerOk_sector, header]

theorem readHeader_backup (not_ : ¬PrimaryOk d) : readHeader junk d =
    if d.blockCount ≠ 0 ∧ d.CanRead d.last 1 then
      (headerOk (d.block d.last) d.blockSize d.last).map fun h => (d.last, h)
    else none := by
  unfold readHeader
  have none_ : (if d.CanRead 1 1 then headerOk (d.sector junk 1) d.blockSize 1 else none) = none := by
    split
    · rename_i reads
      rw [headerOk_sector]
      cases header : headerOk (d.block 1) d.blockSize 1 with
      | none => rfl
      | some h =>
        have isSome : (headerOk (d.block 1) d.blockSize 1).isSome := by rw [header]; rfl
        exact absurd ⟨reads, isSome⟩ not_
    · rfl
  rw [none_, headerOk_sector]

/-! ## The slices -/

/-- There is room to register slices that all lie on the disk. -/
structure Fits (dev : Device) (l : List Slice) : Prop where
  slices : dev.slices.length + l.length ≤ blockMaxSlices
  room : l.length ≤ dev.room
  inside : ∀ s ∈ l, s.On dev.disk

theorem registerSlice_eq_some {dev' : Device} {index first count : Nat} {scheme : Scheme} :
    dev.registerSlice index first count scheme = some dev' ↔
      Fits dev [⟨index, first, count, scheme⟩] ∧
        dev' = { dev with
          slices := dev.slices ++ [⟨index, first, count, scheme⟩]
          room := dev.room - 1 } := by
  unfold Device.registerSlice
  constructor
  · intro done
    split at done
    · cases done
    · split at done
      · cases done
      · split at done
        · cases done
        · split at done
          · cases done
          · refine ⟨⟨by simp; omega, by simp; omega, ?_⟩, (Option.some.inj done).symm⟩
            intro s mem
            cases List.mem_singleton.1 mem
            exact ⟨by assumption, by dsimp only; omega, by dsimp only; omega⟩
  · rintro ⟨fits, rfl⟩
    obtain ⟨some_, first_, inside⟩ := fits.inside _ (List.mem_singleton.2 rfl)
    dsimp only at some_ first_ inside
    have slices := fits.slices
    have room := fits.room
    simp only [List.length_singleton] at slices room
    rw [if_neg some_, if_neg (by omega), if_neg (by omega), if_neg (by omega)]

theorem fits_cons {s : Slice} {l : List Slice} : Fits dev (s :: l) ↔ Fits dev [s] ∧
    Fits { dev with slices := dev.slices ++ [s], room := dev.room - 1 } l := by
  constructor
  · intro fits
    have slices := fits.slices
    have room := fits.room
    simp only [List.length_cons] at slices room
    refine ⟨⟨by simp; omega, by simp; omega, ?_⟩, ⟨by simp; omega, by simp; omega, ?_⟩⟩
    · intro x mem
      cases List.mem_singleton.1 mem
      exact fits.inside s (List.mem_cons_self ..)
    · intro x mem
      exact fits.inside x (List.mem_cons_of_mem s mem)
  · rintro ⟨one, rest⟩
    have slices := rest.slices
    have room := rest.room
    have some_ := one.room
    simp only [List.length_append, List.length_singleton] at slices room some_
    refine ⟨by simp; omega, by simp; omega, ?_⟩
    intro x mem
    cases List.mem_cons.1 mem with
    | inl same => exact same ▸ one.inside s (List.mem_singleton.2 rfl)
    | inr later => exact rest.inside x later

theorem registerEntries_spec (entries : Bytes) (stride : Nat) (dev : Device) (l : List Nat) :
    (registerEntries entries stride dev l).disk = dev.disk ∧
      (registerEntries entries stride dev l).parent = dev.parent := by
  induction l generalizing dev with
  | nil => exact ⟨rfl, rfl⟩
  | cons i rest ih =>
    unfold registerEntries
    dsimp only
    split
    · exact ih dev
    · split
      · exact ih dev
      · split
        · exact ⟨rfl, rfl⟩
        · rename_i dev' registered
          obtain ⟨-, rfl⟩ := registerSlice_eq_some.1 registered
          exact ih _

/-- Every partition is registered just where there is room for all of them. -/
theorem registerEntries_slices (dev : Device) (entries : Bytes) (stride : Nat) (l : List Nat)
    (capped : dev.slices.length ≤ blockMaxSlices) :
    (registerEntries entries stride dev l).slices = dev.slices ++ slicesOf entries stride l ↔
      Fits dev (slicesOf entries stride l) := by
  induction l generalizing dev with
  | nil =>
    refine ⟨fun _ => ⟨capped, Nat.zero_le _, fun s mem => nomatch mem⟩, fun _ => ?_⟩
    exact (List.append_nil _).symm
  | cons i rest ih =>
    unfold registerEntries slicesOf
    dsimp only
    by_cases used : (entryAt entries stride i).used
    · rw [if_neg (not_not.2 used)]
      by_cases empty : (entryAt entries stride i).last < (entryAt entries stride i).first
      · rw [if_pos empty, if_neg (by omega)]
        exact ih dev capped
      · rw [if_neg empty, if_pos ⟨used, by omega⟩, fits_cons]
        split
        · rename_i refused
          refine ⟨fun same => ?_, fun fits => ?_⟩
          · have := congrArg List.length same
            simp at this
          · rw [registerSlice_eq_some.2 ⟨fits.1, rfl⟩] at refused
            cases refused
        · rename_i dev' registered
          obtain ⟨fits, rfl⟩ := registerSlice_eq_some.1 registered
          have slices := fits.slices
          rw [← ih _ (by simpa using slices)]
          simp [fits]
    · rw [if_pos used, if_neg (fun both => used both.1)]
      exact ih dev capped

/-! ## What a scan finds -/

/-- A scan gets as far as to look for a table. -/
structure Begins (mem : Memory) (junk : Bytes) (d : Disk) : Prop where
  small : d.blockSize ≤ pageSize
  blocks : 2 ≤ d.blockCount
  page : mem.page = some junk
  reads : d.CanRead 0 1
  signed : (d.sector junk 0).le16 mbrSignatureOffset = 0xAA55

/-- A scan that finds a GPT has read one. -/
theorem scan_gpt (mem : Memory) (present : dev.disk.present = true) (whole : dev.parent = false) :
    ((partitionScan mem dev).scheme = .gpt → ∃ junk after, Begins mem junk dev.disk ∧
      readGpt mem junk { dev with scheme := .none } = some after ∧
      partitionScan mem dev = { after with scheme := .gpt }) ∧
    ∀ junk after, Begins mem junk dev.disk →
      readGpt mem junk { dev with scheme := .none } = some after →
      partitionScan mem dev = { after with scheme := .gpt } := by
  have start : ¬(¬dev.disk.present = true ∨ dev.parent = true) := by simp [present, whole]
  constructor
  · intro found
    unfold partitionScan at found ⊢
    rw [if_neg start] at found ⊢
    dsimp only at found ⊢
    split at found
    · cases found
    · rename_i fits
      split at found
      · cases found
      · rename_i junk page
        split at found
        · cases found
        · rename_i reads
          split at found
          · cases found
          · rename_i signed
            refine ⟨junk, ?_⟩
            have begins : Begins mem junk dev.disk :=
              ⟨by omega, by omega, page, Decidable.not_not.1 reads, Decidable.not_not.1 signed⟩
            rw [if_neg fits]
            rw [if_neg reads, if_neg signed]
            split at found
            · rename_i protective
              cases read : readGpt mem junk { dev with scheme := .none } with
              | none =>
                rw [read] at found
                cases found
              | some after =>
                rw [if_pos protective]
                exact ⟨after, begins, rfl, rfl⟩
            · rename_i protective
              cases read : readGpt mem junk { dev with scheme := .none } with
              | none =>
                rw [read] at found
                dsimp only at found
                split at found
                · dsimp only at found
                  split at found <;> cases found
                · cases found
              | some after =>
                rw [if_neg protective]
                exact ⟨after, begins, rfl, rfl⟩
  · intro junk after begins read
    unfold partitionScan
    rw [if_neg start]
    dsimp only
    have fits : ¬(pageSize < dev.disk.blockSize ∨ dev.disk.blockCount < 2) := by
      have := begins.small
      have := begins.blocks
      omega
    rw [if_neg fits]
    simp only [begins.page]
    rw [if_neg (not_not.2 begins.reads), if_neg (not_not.2 begins.signed), read]
    simp only [ite_self]

/-- The copy of the table that `read_gpt` goes by is wholly valid: the primary, or the backup where
the primary's header is not to be believed. -/
def Chosen (d : Disk) (h : Header) : Prop :=
  WhollyValid d 1 h ∨ ¬PrimaryOk d ∧ WhollyValid d d.last h

theorem WhollyValid.primaryOk (valid : WhollyValid d 1 h) : PrimaryOk d :=
  ⟨valid.reads, by rw [valid.header]; rfl⟩

theorem WhollyValid.unique {at' : Nat} {h' : Header} (valid : WhollyValid d at' h)
    (valid' : WhollyValid d at' h') : h' = h :=
  Option.some.inj (valid'.header.symm.trans valid.header)

theorem Chosen.unique {h' : Header} (chosen : Chosen d h) (chosen' : Chosen d h') : h' = h := by
  cases chosen with
  | inl first =>
    cases chosen' with
    | inl first' => exact first.unique first'
    | inr backup' => exact absurd first.primaryOk backup'.1
  | inr backup =>
    cases chosen' with
    | inl first' => exact absurd first'.primaryOk backup.1
    | inr backup' => exact backup.2.unique backup'.2

theorem Chosen.of_header {at' : Nat} (header : readHeader junk d = some (at', h))
    (ok : EntriesOk mem d h) : Chosen d h := by
  by_cases primary : PrimaryOk d
  · obtain ⟨p, isSome⟩ := Option.isSome_iff_exists.1 primary.2
    rw [readHeader_primary primary.1 isSome] at header
    cases header
    exact .inl ⟨primary.1, isSome, ok.1, ok.2.2.1, ok.2.2.2⟩
  · rw [readHeader_backup primary] at header
    split at header
    · rename_i reads
      obtain ⟨p, isSome, eq⟩ := Option.map_eq_some_iff.1 header
      cases eq
      exact .inr ⟨primary, reads.2, isSome, ok.1, ok.2.2.1, ok.2.2.2⟩
    · cases header

theorem Chosen.header (chosen : Chosen d h) (blocks : d.blockCount ≠ 0) (junk : Bytes) :
    ∃ at', readHeader junk d = some (at', h) := by
  cases chosen with
  | inl first => exact ⟨1, readHeader_primary first.reads first.header⟩
  | inr backup =>
    refine ⟨d.last, ?_⟩
    rw [readHeader_backup backup.1, if_pos ⟨blocks, backup.2.reads⟩, backup.2.header]
    rfl

theorem Chosen.entriesOk (chosen : Chosen d h)
    (memory : mem.pages ((h.entryBytes + pageSize - 1) / pageSize) = true) : EntriesOk mem d h := by
  cases chosen with
  | inl first => exact ⟨first.inside, memory, first.readsEntries, first.checksum⟩
  | inr backup => exact ⟨backup.2.inside, memory, backup.2.readsEntries, backup.2.checksum⟩

/-- What it takes for a scan to register the entries of a table. -/
structure Reads (mem : Memory) (dev : Device) (h : Header) : Prop where
  begins : ∃ junk, Begins mem junk dev.disk
  chosen : Chosen dev.disk h
  memory : mem.pages ((h.entryBytes + pageSize - 1) / pageSize) = true

/-- The device after the entries of a table are registered. -/
def Device.withEntries (dev : Device) (h : Header) : Device :=
  { registerEntries (dev.disk.bytes h.entriesLba) h.stride { dev with scheme := .none }
      (List.range h.count) with scheme := .gpt }

theorem Reads.scan (reads : Reads mem dev h) (present : dev.disk.present = true)
    (whole : dev.parent = false) : partitionScan mem dev = dev.withEntries h := by
  obtain ⟨junk, begins⟩ := reads.begins
  have blocks := begins.blocks
  obtain ⟨at', header⟩ := reads.chosen.header (by omega) junk
  apply (scan_gpt mem present whole).2 junk _ begins
  unfold readGpt
  dsimp only
  rw [header]
  dsimp only
  rw [if_neg (not_not.2 (reads.chosen.entriesOk reads.memory))]

theorem reads_of_scan (present : dev.disk.present = true) (whole : dev.parent = false)
    (gpt : (partitionScan mem dev).scheme = .gpt) : ∃ h, Reads mem dev h := by
  obtain ⟨junk, after, begins, read, -⟩ := (scan_gpt mem present whole).1 gpt
  unfold readGpt at read
  split at read
  · cases read
  · rename_i at' h header
    split at read
    · cases read
    · rename_i ok
      have ok : EntriesOk mem dev.disk h := Decidable.not_not.1 ok
      exact ⟨h, ⟨junk, begins⟩, .of_header header ok, ok.2.1⟩

/-- A plan makes a fresh table of a disk only where the scan found none. -/
theorem freshTable_none {esp : Esp → Option Nat}
    (fresh : (installPlan heap esp dev).freshTable = true) : dev.scheme = .none := by
  have beside : ∀ (d : Disk) (out : Plan) (gaps : List Extent),
      (planBeside d out gaps).freshTable = out.freshTable := by
    intro d out gaps
    unfold planBeside Plan.layOut splitRest Plan.refuse
    dsimp only
    split
    · rfl
    · split <;> split <;> rfl
  unfold installPlan at fresh
  split at fresh
  · cases fresh
  · split at fresh
    · cases fresh
    · assumption
    all_goals
      split at fresh
      · cases fresh
      · dsimp only at fresh
        split at fresh
        · split at fresh
          · rw [beside] at fresh
            cases fresh
          · cases fresh
        · split at fresh
          · cases fresh
          · rw [beside] at fresh
            cases fresh

/-! ## A used disk called blank -/

/-- What it takes for a scan to register the partitions of a table: block 0 has the signature, the
header that `read_gpt` goes by is that of the valid copy, and there is memory, and room. -/
structure Found (mem : Memory) (dev : Device) (h : Header) : Prop where
  begins : ∃ junk, Begins mem junk dev.disk
  header : WhollyValid dev.disk 1 h ∨ ¬PrimaryOk dev.disk
  memory : mem.pages ((h.entryBytes + pageSize - 1) / pageSize) = true
  room : Fits dev (partitionsOf dev.disk h)

theorem TableOf.chosen_eq {h' : Header} (table : TableOf d h) (chosen : Chosen d h') : h' = h := by
  cases table with
  | inl first => exact Chosen.unique (.inl first) chosen
  | inr backup =>
    cases chosen with
    | inl first => exact absurd first (backup.1 h')
    | inr backup' => exact backup.2.unique backup'.2

/-- Of a disk that carries a table, the scan registers its partitions, and the installer does not
call it blank, just where the scan gets to the table. -/
theorem used_disk_found {mem : Memory} {dev : Device} {h : Header}
    (present : dev.disk.present = true) (whole : dev.parent = false) (unscanned : dev.slices = [])
    (table : TableOf dev.disk h) :
    (((partitionScan mem dev).scheme = .gpt ∧
        (partitionScan mem dev).slices = partitionsOf dev.disk h) ∧
      ∀ heap esp, ¬((installPlan heap esp (partitionScan mem dev)).verdict = .ok ∧
        (installPlan heap esp (partitionScan mem dev)).freshTable = true)) ↔ Found mem dev h := by
  have capped : dev.slices.length ≤ blockMaxSlices := by
    rw [unscanned]
    exact Nat.zero_le _
  have registered := registerEntries_slices { dev with scheme := .none }
    (dev.disk.bytes h.entriesLba) h.stride (List.range h.count) capped
  have partitions : (dev.withEntries h).slices = partitionsOf dev.disk h ↔
      Fits dev (partitionsOf dev.disk h) := by
    constructor
    · intro slices
      have fits := registered.1 (slices.trans (by
        show partitionsOf dev.disk h = dev.slices ++ _
        rw [unscanned]
        rfl))
      exact ⟨fits.slices, fits.room, fits.inside⟩
    · intro room
      refine (registered.2 ⟨room.slices, room.room, room.inside⟩).trans ?_
      show dev.slices ++ _ = partitionsOf dev.disk h
      rw [unscanned]
      rfl
  constructor
  · rintro ⟨⟨gpt, slices⟩, -⟩
    obtain ⟨h', reads⟩ := reads_of_scan present whole gpt
    cases table.chosen_eq reads.chosen
    rw [reads.scan present whole] at slices
    refine ⟨reads.begins, ?_, reads.memory, partitions.1 slices⟩
    cases reads.chosen with
    | inl first => exact .inl first
    | inr backup => exact .inr backup.1
  · rintro ⟨begins, valid, memory, room⟩
    have chosen : Chosen dev.disk h := by
      cases valid with
      | inl first => exact .inl first
      | inr not_ =>
        cases table with
        | inl first => exact .inl first
        | inr backup => exact .inr ⟨not_, backup.2⟩
    rw [Reads.scan ⟨begins, chosen, memory⟩ present whole]
    refine ⟨⟨rfl, partitions.2 room⟩, ?_⟩
    rintro heap esp ⟨-, fresh⟩
    cases freshTable_none fresh

/-! ## A disk with a table, and nothing in block 0 -/

def sampleHeader : List UInt8 :=
  [0x45, 0x46, 0x49, 0x20, 0x50, 0x41, 0x52, 0x54, 0, 0, 1, 0, 0x5c, 0, 0, 0, 0x82, 0xd0, 0xf8, 0xb7,
    0, 0, 0, 0, 1, 0, 0, 0, 0, 0, 0, 0, 0xff, 0xff, 0xff, 0, 0, 0, 0, 0, 0x22, 0, 0, 0, 0, 0, 0, 0,
    0xde, 0xff, 0xff, 0, 0, 0, 0, 0, 0, 0, 0, 0, 0, 0, 0, 0, 0, 0, 0, 0, 0, 0, 0, 0, 2, 0, 0, 0, 0, 0,
    0, 0, 1, 0, 0, 0, 0x80, 0, 0, 0, 0x4d, 5, 0x93, 0x56]

/-- One entry, of the blocks from 2048 to 4095. -/
def sampleEntries : List UInt8 :=
  0xf :: List.replicate 31 0 ++ [0, 8, 0, 0, 0, 0, 0, 0, 0xff, 0xf]

theorem sample_sizePos : 0 < 512 := by decide

theorem sample_bytesFit : 0x1000000 * 512 < u64Size := by decide

/-- An 8 GB disk with a table, and in block 0 a signature or nothing. -/
def sampleDisk (signed : Bool) : Disk where
  present := true
  blockSize := 512
  blockCount := 0x1000000
  block n :=
    if n = 0 then fun i => if signed ∧ i = 510 then 0x55 else if signed ∧ i = 511 then 0xAA else 0
    else fun i => ((if n = 1 then sampleHeader else if n = 2 then sampleEntries else [])[i]?).getD 0
  bad _ := false
  sizePos := sample_sizePos
  bytesFit := sample_bytesFit

def sampleDevice (signed : Bool) : Device := ⟨sampleDisk signed, false, .none, [], 60⟩

def sampleMemory : Memory := ⟨some fun _ => 0, fun _ => true⟩

theorem sampleDisk_valid (signed : Bool) :
    WhollyValid (sampleDisk signed) 1 (.of fun i => (sampleHeader[i]?).getD 0) := by
  cases signed <;> constructor <;> decide +kernel

theorem used_disk_found_signed : ∃ dev, dev = partitionScan sampleMemory (sampleDevice true) ∧
    dev.slices = [⟨1, 2048, 2048, .gpt⟩] := by
  have found : Found sampleMemory (sampleDevice true)
      (.of fun i => (sampleHeader[i]?).getD 0) := by
    refine ⟨⟨fun _ => 0, ⟨by decide, by decide, rfl, by decide +kernel, by decide +kernel⟩⟩,
      .inl (sampleDisk_valid true), rfl, ?_⟩
    have one : partitionsOf (sampleDisk true) (.of fun i => (sampleHeader[i]?).getD 0) =
        [⟨1, 2048, 2048, .gpt⟩] := by decide +kernel
    show Fits _ (partitionsOf (sampleDisk true) _)
    rw [one]
    refine ⟨by decide, by decide, ?_⟩
    intro s mem
    cases List.mem_singleton.1 mem
    exact ⟨by decide, by decide, by decide⟩
  obtain ⟨⟨-, slices⟩, -⟩ :=
    (used_disk_found rfl rfl rfl (.inl (sampleDisk_valid true))).2 found
  refine ⟨_, rfl, slices.trans ?_⟩
  decide +kernel

/-- A disk with a valid table and zeros in block 0: nothing is registered, and the plan is to make
a fresh table over all of it. -/
theorem used_disk_blank : ¬∀ mem dev h, dev.disk.present = true → dev.parent = false →
    dev.slices = [] → TableOf dev.disk h →
    (partitionScan mem dev).scheme = .gpt ∧ ∀ heap esp,
      ¬((installPlan heap esp (partitionScan mem dev)).verdict = .ok ∧
        (installPlan heap esp (partitionScan mem dev)).freshTable = true) := by
  intro always
  have never := (always sampleMemory (sampleDevice false) _ rfl rfl rfl
    (.inl (sampleDisk_valid _))).2 ⟨true, true, fun _ => 0⟩ fun _ => none
  refine never ⟨?_, ?_⟩ <;> decide +kernel

end ReconOS.Gpt
