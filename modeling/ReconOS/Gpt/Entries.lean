import ReconOS.Gpt.Blank

/-! A table that has one good copy, and the other damaged. -/
namespace ReconOS.Gpt

variable {mem : Memory} {dev : Device} {d : Disk} {h : Header}

/-- What a scan needs of a disk that has a good copy of the table: a signature in block 0, the
primary good all through if its header is, and memory for the entries. -/
structure Readable (mem : Memory) (dev : Device) : Prop where
  begins : ∃ junk, Begins mem junk dev.disk
  primary : PrimaryOk dev.disk → ∃ h, WhollyValid dev.disk 1 h
  memory : ∀ h, Chosen dev.disk h → mem.pages ((h.entryBytes + pageSize - 1) / pageSize) = true

theorem Readable.reads (readable : Readable mem dev)
    (valid : ∃ h, WhollyValid dev.disk 1 h ∨ WhollyValid dev.disk dev.disk.last h) :
    ∃ h, Reads mem dev h := by
  have chosen : ∃ h, Chosen dev.disk h := by
    by_cases ok : PrimaryOk dev.disk
    · obtain ⟨h, first⟩ := readable.primary ok
      exact ⟨h, .inl first⟩
    · obtain ⟨h, first | backup⟩ := valid
      · exact ⟨h, .inl first⟩
      · exact ⟨h, .inr ⟨ok, backup⟩⟩
  obtain ⟨h, chosen⟩ := chosen
  exact ⟨h, readable.begins, chosen, readable.memory h chosen⟩

theorem Reads.readable (reads : Reads mem dev h) : Readable mem dev where
  begins := reads.begins
  primary ok := by
    cases reads.chosen with
    | inl first => exact ⟨h, first⟩
    | inr backup => exact absurd ok backup.1
  memory h' chosen := by
    rw [reads.chosen.unique chosen]
    exact reads.memory

/-- With one good copy, a scan registers the partitions of a good copy just where the primary's
header is not believed without its entries. -/
theorem good_copy_read (present : dev.disk.present = true) (whole : dev.parent = false)
    (valid : ∃ h, WhollyValid dev.disk 1 h ∨ WhollyValid dev.disk dev.disk.last h) :
    (∃ h, (WhollyValid dev.disk 1 h ∨ WhollyValid dev.disk dev.disk.last h) ∧
      partitionScan mem dev = dev.withEntries h) ↔ Readable mem dev := by
  constructor
  · rintro ⟨h, -, scanned⟩
    have gpt : (partitionScan mem dev).scheme = .gpt := by
      rw [scanned]
      rfl
    obtain ⟨h', reads⟩ := reads_of_scan present whole gpt
    exact reads.readable
  · intro readable
    obtain ⟨h, reads⟩ := readable.reads valid
    refine ⟨h, ?_, reads.scan present whole⟩
    cases reads.chosen with
    | inl first => exact .inl first
    | inr backup => exact .inr backup.2

/-! ## A primary whose entries are gone -/

def backupHeader : List UInt8 :=
  [0x45, 0x46, 0x49, 0x20, 0x50, 0x41, 0x52, 0x54, 0, 0, 1, 0, 0x5c, 0, 0, 0, 0x4e, 0x3d, 0xfe, 0x84,
    0, 0, 0, 0, 0xff, 0xff, 0xff, 0, 0, 0, 0, 0, 1, 0, 0, 0, 0, 0, 0, 0, 0x22, 0, 0, 0, 0, 0, 0, 0,
    0xde, 0xff, 0xff, 0, 0, 0, 0, 0, 0, 0, 0, 0, 0, 0, 0, 0, 0, 0, 0, 0, 0, 0, 0, 0, 0xdf, 0xff,
    0xff, 0, 0, 0, 0, 0, 1, 0, 0, 0, 0x80, 0, 0, 0, 0x4d, 5, 0x93, 0x56]

/-- An 8 GB disk with the backup's header and entries; the primary's header may be there, and its
entries are not. -/
def halfDisk (headed : Bool) : Disk where
  present := true
  blockSize := 512
  blockCount := 0x1000000
  block n :=
    if n = 0 then fun i => if i = 510 then 0x55 else if i = 511 then 0xAA else 0
    else fun i => ((if n = 1 ∧ headed then sampleHeader else if n = 0xFFFFDF then sampleEntries
      else if n = 0xFFFFFF then backupHeader else [])[i]?).getD 0
  bad _ := false
  sizePos := sample_sizePos
  bytesFit := sample_bytesFit

def halfDevice (headed : Bool) : Device := ⟨halfDisk headed, false, .none, [], 60⟩

theorem halfDisk_backup (headed : Bool) :
    WhollyValid (halfDisk headed) (halfDisk headed).last
      (.of fun i => (backupHeader[i]?).getD 0) := by
  cases headed <;> constructor <;> decide +kernel

/-- With nothing of the primary, the backup's entry is registered. -/
theorem good_copy_read_sample : (∃ h, partitionScan sampleMemory (halfDevice false) =
    (halfDevice false).withEntries h) ∧
    (partitionScan sampleMemory (halfDevice false)).slices = [⟨1, 2048, 2048, .gpt⟩] := by
  have damaged : ¬PrimaryOk (halfDisk false) := fun ok => absurd ok.2 (by decide +kernel)
  have readable : Readable sampleMemory (halfDevice false) :=
    ⟨⟨fun _ => 0, by decide, by decide, rfl, by decide +kernel, by decide +kernel⟩,
      fun ok => absurd ok damaged, fun _ _ => rfl⟩
  have read := @good_copy_read sampleMemory (halfDevice false) rfl rfl
    ⟨_, .inr (halfDisk_backup false)⟩
  obtain ⟨h, -, scanned⟩ := read.2 readable
  exact ⟨⟨h, scanned⟩, by decide +kernel⟩

/-- The primary's header is good and its entries are not; the backup is never looked at. -/
theorem backup_passed_over : ¬∀ (mem : Memory) (dev : Device), dev.disk.present = true →
    dev.parent = false → (∀ n, mem.pages n = true) → (∃ junk, Begins mem junk dev.disk) →
    (∃ h, WhollyValid dev.disk 1 h ∨ WhollyValid dev.disk dev.disk.last h) →
    ∃ h, (WhollyValid dev.disk 1 h ∨ WhollyValid dev.disk dev.disk.last h) ∧
      partitionScan mem dev = dev.withEntries h := by
  intro always
  obtain ⟨h, -, scanned⟩ := always sampleMemory (halfDevice true) rfl rfl (fun _ => rfl)
    ⟨fun _ => 0, by decide, by decide, rfl, by decide +kernel, by decide +kernel⟩
    ⟨_, .inr (halfDisk_backup true)⟩
  have gpt : (partitionScan sampleMemory (halfDevice true)).scheme = .gpt := by
    rw [scanned]
    rfl
  revert gpt
  decide +kernel

end ReconOS.Gpt

/-! The entries of a table, the well-formed among others. -/
namespace ReconOS.Gpt

variable {mem : Memory} {dev : Device} {h : Header}

/-- An entry is used, and its ends are in order. -/
def Entry.InOrder (e : Entry) : Prop := e.used = true ∧ e.first ≤ e.last

instance (e : Entry) : Decidable e.InOrder := inferInstanceAs (Decidable (_ ∧ _))

/-- An entry names blocks of a device that has so many. -/
def Entry.WellFormed (e : Entry) (blocks : Nat) : Prop := e.InOrder ∧ e.last < blocks

instance (e : Entry) (blocks : Nat) : Decidable (e.WellFormed blocks) :=
  inferInstanceAs (Decidable (_ ∧ _))

/-- The slice that an entry names. -/
def Entry.slice (e : Entry) (i : Nat) : Slice :=
  ⟨(i + 1) % 0x100, e.first, e.last - e.first + 1, .gpt⟩

namespace Header

variable (h : Header) (d : Disk)

/-- An entry of the table that a header goes with. -/
def entry (i : Nat) : Entry := entryAt (d.bytes h.entriesLba) h.stride i

/-- Which entries are well formed. -/
def wellFormed (i : Nat) : Bool := (h.entry d i).WellFormed d.blockCount

/-- The slices that the well-formed entries name. -/
def wellFormedSlices : List Slice :=
  ((List.range h.count).filter (h.wellFormed d)).map fun i => (h.entry d i).slice i

end Header

/-- How many more slices can be registered. -/
def Device.limit (dev : Device) : Nat := min (blockMaxSlices - dev.slices.length) dev.room

/-! ## Lists -/

/-- A prefix cut off at the first bad element, against one that leaves only the bad ones out. -/
theorem take_takeWhile_filter {α β : Type} (p q : α → Bool) (f : α → β)
    (both : ∀ x, p x = true → q x = true) (l : List α) (n : Nat) :
    (((l.filter q).takeWhile p).take n).map f = ((l.filter p).take n).map f ↔
      ∀ before x after, l = before ++ x :: after → q x = true → p x = false →
        n ≤ (before.filter p).length ∨ after.filter p = [] := by
  induction l generalizing n with
  | nil => simp
  | cons x l ih =>
    cases bad : p x with
    | true =>
      rw [List.filter_cons_of_pos (both x bad), List.filter_cons_of_pos bad,
        List.takeWhile_cons_of_pos bad]
      cases n with
      | zero => simp
      | succ n =>
        rw [List.take_succ_cons, List.take_succ_cons, List.map_cons, List.map_cons,
          List.cons.injEq, and_iff_right rfl, ih]
        constructor
        · intro all before y after eq used not_
          cases before with
          | nil =>
            cases eq
            rw [bad] at not_
            cases not_
          | cons z before =>
            cases eq
            rw [List.filter_cons_of_pos bad, List.length_cons]
            cases all before y after rfl used not_ with
            | inl few => exact .inl (by omega)
            | inr rest => exact .inr rest
        · intro all before y after eq used not_
          have one := all (x :: before) y after (by rw [eq]; rfl) used not_
          rw [List.filter_cons_of_pos bad, List.length_cons] at one
          cases one with
          | inl few => exact .inl (by omega)
          | inr rest => exact .inr rest
    | false =>
      have skip : ∀ m : List α, (x :: m).filter p = m.filter p := by
        intro m
        exact List.filter_cons_of_neg (by rw [bad]; exact Bool.false_ne_true)
      rw [skip]
      cases used : q x with
      | true =>
        rw [List.filter_cons_of_pos used,
          List.takeWhile_cons_of_neg (by rw [bad]; exact Bool.false_ne_true), List.take_nil]
        constructor
        · intro none_ before y after eq _ _
          cases List.take_eq_nil_iff.1 (List.map_eq_nil_iff.1 none_.symm) with
          | inl zero => exact .inl (by omega)
          | inr none_ =>
            refine .inr (List.eq_nil_of_subset_nil ?_)
            rw [← none_, ← skip l, eq, List.filter_append]
            intro z mem
            have mem := List.mem_filter.1 mem
            exact List.mem_append_right _ (List.mem_filter.2 ⟨List.mem_cons_of_mem y mem.1, mem.2⟩)
        · intro all
          cases all [] x l rfl used bad with
          | inl few =>
            rw [Nat.le_zero.1 few]
            rfl
          | inr none_ => rw [none_, List.take_nil]
      | false =>
        rw [List.filter_cons_of_neg (by rw [used]; exact Bool.false_ne_true), ih]
        constructor
        · intro all before y after eq used' not_
          cases before with
          | nil =>
            cases eq
            rw [used] at used'
            cases used'
          | cons z before =>
            cases eq
            rw [skip]
            exact all before y after rfl used' not_
        · intro all before y after eq used' not_
          have one := all (x :: before) y after (by rw [eq]; rfl) used' not_
          rw [skip] at one
          exact one

/-! ## The loop -/

theorem le64_lt (p : Bytes) (o : Nat) : p.le64 o < u64Size := by
  unfold Bytes.le64 Bytes.le32 Bytes.le16 u32Size u64Size
  have byte (i : Nat) : (p i).toNat < 0x100 := UInt8.toNat_lt (p i)
  have := byte o
  have := byte (o + 1)
  have := byte (o + 2)
  have := byte (o + 2 + 1)
  have := byte (o + 4)
  have := byte (o + 4 + 1)
  have := byte (o + 4 + 2)
  have := byte (o + 4 + 2 + 1)
  omega

theorem entryAt_last (entries : Bytes) (stride i : Nat) :
    (entryAt entries stride i).last < u64Size := le64_lt entries _

/-- An entry in order is registered just where it is well formed and there is room. -/
theorem registerSlice_entry {e : Entry} {i : Nat} (inOrder : e.InOrder) (last : e.last < u64Size) :
    dev.registerSlice ((i + 1) % 0x100) e.first ((e.last - e.first + 1) % u64Size) .gpt =
      if e.WellFormed dev.disk.blockCount ∧ dev.limit ≠ 0 then
        some { dev with slices := dev.slices ++ [e.slice i], room := dev.room - 1 }
      else none := by
  have order := inOrder.2
  unfold Device.registerSlice
  by_cases all : e.first = 0 ∧ e.last + 1 = u64Size
  · have zero : (e.last - e.first + 1) % u64Size = 0 := by
      rw [show e.last - e.first + 1 = u64Size by omega, Nat.mod_self]
    have long : ¬e.last < dev.disk.blockCount := by
      have fits := dev.disk.bytesFit
      have := Nat.le_mul_of_pos_right dev.disk.blockCount dev.disk.sizePos
      omega
    rw [if_pos zero, if_neg fun both => long both.1.2]
  · have count : (e.last - e.first + 1) % u64Size = e.last - e.first + 1 :=
      Nat.mod_eq_of_lt (by omega)
    rw [count, if_neg (by omega)]
    by_cases good : e.WellFormed dev.disk.blockCount ∧ dev.limit ≠ 0
    · have inside := good.1.2
      have limit := good.2
      unfold Device.limit at limit
      rw [if_pos good, if_neg (by omega), if_neg (by omega), if_neg (by omega)]
      rfl
    · rw [if_neg good]
      split
      · rfl
      · split
        · rfl
        · split
          · rfl
          · refine absurd ⟨⟨inOrder, by omega⟩, ?_⟩ good
            unfold Device.limit
            omega

/-- The slices of the entries in order are registered up to the first that is not well formed. -/
theorem registerEntries_takeWhile (dev : Device) (entries : Bytes) (stride : Nat) (l : List Nat) :
    (registerEntries entries stride dev l).slices = dev.slices ++
      ((((l.filter fun i => (entryAt entries stride i).InOrder).takeWhile fun i =>
        (entryAt entries stride i).WellFormed dev.disk.blockCount).take dev.limit).map fun i =>
          (entryAt entries stride i).slice i) := by
  induction l generalizing dev with
  | nil => simp [registerEntries]
  | cons i rest ih =>
    unfold registerEntries
    dsimp only
    by_cases inOrder : (entryAt entries stride i).InOrder
    · have order := inOrder.2
      rw [if_neg (not_not.2 inOrder.1), if_neg (by omega),
        registerSlice_entry inOrder (entryAt_last entries stride i),
        List.filter_cons_of_pos (a := i) (by simpa using inOrder)]
      by_cases good : (entryAt entries stride i).WellFormed dev.disk.blockCount
      · rw [List.takeWhile_cons_of_pos (a := i) (by simpa using good)]
        cases limit : dev.limit with
        | zero =>
          rw [if_neg fun both => both.2 rfl]
          simp
        | succ n =>
          rw [if_pos ⟨good, Nat.succ_ne_zero n⟩]
          dsimp only
          rw [ih, List.take_succ_cons, List.map_cons]
          have less : Device.limit { dev with
              slices := dev.slices ++ [(entryAt entries stride i).slice i]
              room := dev.room - 1 } = n := by
            unfold Device.limit at limit ⊢
            simp only [List.length_append, List.length_singleton]
            omega
          rw [less]
          simp
      · rw [if_neg fun both => good both.1,
          List.takeWhile_cons_of_neg (a := i) (by simpa using good)]
        simp
    · rw [List.filter_cons_of_neg (a := i) (by simpa using inOrder)]
      by_cases used : (entryAt entries stride i).used = true
      · rw [if_neg (not_not.2 used), if_pos (by
          by_contra order
          exact inOrder ⟨used, by omega⟩)]
        exact ih dev
      · rw [if_pos used]
        exact ih dev

/-! ## A bad entry before good ones -/

/-- An entry that runs past the end of the device comes after all of the well-formed ones, or after
as many as can be registered. -/
def NoneLost (dev : Device) (h : Header) : Prop :=
  ∀ before i after, List.range h.count = before ++ i :: after →
    (h.entry dev.disk i).InOrder → dev.disk.blockCount ≤ (h.entry dev.disk i).last →
    dev.limit ≤ (before.filter (h.wellFormed dev.disk)).length ∨
      ∀ j ∈ after, ¬(h.entry dev.disk j).WellFormed dev.disk.blockCount

/-- Of a table that is read, every well-formed entry is registered just where none is lost behind
one that runs past the end of the device. -/
theorem entries_judged_singly (present : dev.disk.present = true) (whole : dev.parent = false)
    (reads : Reads mem dev h) :
    (partitionScan mem dev).slices =
      dev.slices ++ (h.wellFormedSlices dev.disk).take dev.limit ↔ NoneLost dev h := by
  have registered := registerEntries_takeWhile { dev with scheme := .none }
    (dev.disk.bytes h.entriesLba) h.stride (List.range h.count)
  have filtered : (dev.withEntries h).slices = dev.slices ++
      ((((List.range h.count).filter fun i => (h.entry dev.disk i).InOrder).takeWhile
        (h.wellFormed dev.disk)).take dev.limit).map fun i => (h.entry dev.disk i).slice i := registered
  rw [reads.scan present whole, filtered, List.append_right_inj, Header.wellFormedSlices,
    ← List.map_take]
  have wellFormed (i : Nat) : h.wellFormed dev.disk i = true ↔
      (h.entry dev.disk i).WellFormed dev.disk.blockCount := decide_eq_true_iff
  have both (i : Nat) (good : h.wellFormed dev.disk i = true) :
      decide (h.entry dev.disk i).InOrder = true := decide_eq_true ((wellFormed i).1 good).1
  rw [take_takeWhile_filter _ _ _ both]
  constructor
  · intro all before i after split inOrder outside
    have bad : h.wellFormed dev.disk i = false := by
      rw [Bool.eq_false_iff, Ne, wellFormed]
      exact fun good => Nat.not_le.2 good.2 outside
    cases all before i after split (decide_eq_true inOrder) bad with
    | inl few => exact .inl few
    | inr none_ =>
      refine .inr fun j mem good => ?_
      have there := List.mem_filter.2 ⟨mem, (wellFormed j).2 good⟩
      rw [none_] at there
      cases there
  · intro none_ before i after split inOrder bad
    have inOrder := of_decide_eq_true inOrder
    rw [Bool.eq_false_iff, Ne, wellFormed] at bad
    have outside : dev.disk.blockCount ≤ (h.entry dev.disk i).last := by
      by_contra inside
      exact bad ⟨inOrder, Nat.lt_of_not_le inside⟩
    cases none_ before i after split inOrder outside with
    | inl few => exact .inl few
    | inr rest =>
      refine .inr (List.filter_eq_nil_iff.2 fun j mem good => ?_)
      exact rest j mem ((wellFormed j).1 good)

/-! ## A table of four entries -/

theorem crc32Update_slice (p : Bytes) (running o m n : Nat) :
    crc32Update running (p.slice o (m + n)) =
      crc32Update (crc32Update running (p.slice o m)) (p.slice (o + m) n) := by
  unfold Bytes.slice
  rw [List.range_add, List.map_append, List.map_map]
  simp only [crc32Update, List.foldl_append, Function.comp_def, Nat.add_assoc]

/-- An entry that is used, of the blocks from one to another. -/
def entryBytes (first last : List UInt8) : List UInt8 := 0xf :: List.replicate 31 0 ++ first ++ last

def mixedHeader : List UInt8 :=
  [0x45, 0x46, 0x49, 0x20, 0x50, 0x41, 0x52, 0x54, 0, 0, 1, 0, 0x5c, 0, 0, 0, 0x12, 0x3f, 0xd1, 0x32,
    0, 0, 0, 0, 1, 0, 0, 0, 0, 0, 0, 0, 0xff, 0xff, 0xff, 0, 0, 0, 0, 0, 0x22, 0, 0, 0, 0, 0, 0, 0,
    0xde, 0xff, 0xff, 0, 0, 0, 0, 0, 0, 0, 0, 0, 0, 0, 0, 0, 0, 0, 0, 0, 0, 0, 0, 0, 2, 0, 0, 0, 0,
    0, 0, 0, 4, 0, 0, 0, 0x80, 0, 0, 0, 0xce, 0xef, 0x18, 0x51]

/-- An entry not used; one whose ends are in the wrong order; one of the blocks from 2048 to 4095; and
one from block 8192 to the last of 2⁶⁴. -/
def mixedEntries : List (List UInt8) :=
  [[], entryBytes [0, 0x10, 0, 0, 0, 0, 0, 0] [0, 8, 0, 0, 0, 0, 0, 0],
    entryBytes [0, 8, 0, 0, 0, 0, 0, 0] [0xff, 0xf, 0, 0, 0, 0, 0, 0],
    entryBytes [0, 0x20, 0, 0, 0, 0, 0, 0] (List.replicate 8 0xff)]

/-- A disk with a table of entries of 128 bytes. -/
def tableDisk (header : List UInt8) (entries : List (List UInt8)) : Disk where
  present := true
  blockSize := 512
  blockCount := 0x1000000
  block n :=
    if n = 0 then fun i => if i = 510 then 0x55 else if i = 511 then 0xAA else 0
    else if n = 2 then fun i => (((entries[i / 128]?).getD [])[i % 128]?).getD 0
    else fun i => ((if n = 1 then header else [])[i]?).getD 0
  bad _ := false
  sizePos := sample_sizePos
  bytesFit := sample_bytesFit

def mixedDisk : Disk := tableDisk mixedHeader mixedEntries

theorem mixedDisk_checksum : crc32 ((mixedDisk.bytes 2).slice 0 512) = 0x5118efce := by
  have first : crc32Update crc32Init ((mixedDisk.bytes 2).slice 0 128) = 0x3d570562 := by
    decide +kernel
  have second : crc32Update 0x3d570562 ((mixedDisk.bytes 2).slice 128 128) = 0x9233eb05 := by
    decide +kernel
  have third : crc32Update 0x9233eb05 ((mixedDisk.bytes 2).slice 256 128) = 0x9cb75bcd := by
    decide +kernel
  unfold crc32
  rw [crc32Update_slice _ _ 0 384 128, crc32Update_slice _ _ 0 256 128,
    crc32Update_slice _ _ 0 128 128, first, second, third]
  decide +kernel

theorem mixedDisk_valid : WhollyValid mixedDisk 1 (.of fun i => (mixedHeader[i]?).getD 0) where
  reads := by decide +kernel
  header := by decide +kernel
  inside := by decide +kernel
  readsEntries := by decide +kernel
  checksum := mixedDisk_checksum

/-- The one good entry is registered: the two before it are passed over, and nothing comes after the
one that runs past the end of the device. -/
theorem entries_judged_singly_sample :
    (partitionScan sampleMemory ⟨mixedDisk, false, .none, [], 60⟩).slices =
      [⟨3, 2048, 2048, .gpt⟩] := by
  have reads : Reads sampleMemory ⟨mixedDisk, false, .none, [], 60⟩
      (.of fun i => (mixedHeader[i]?).getD 0) :=
    ⟨⟨fun _ => 0, by decide, by decide, rfl, by decide +kernel, by decide +kernel⟩,
      .inl mixedDisk_valid, rfl⟩
  have inside : ∀ i < 3, (Header.entry (.of fun i => (mixedHeader[i]?).getD 0) mixedDisk i).last <
      mixedDisk.blockCount := by decide +kernel
  have kept := (entries_judged_singly rfl rfl reads).2 (by
    intro before i after split inOrder outside
    have length : 4 = before.length + (after.length + 1) := by
      rw [← List.length_cons, ← List.length_append, ← split]
      rfl
    have here : (List.range 4)[before.length]? = some i := by
      rw [show List.range 4 = before ++ i :: after from split]
      simp
    rw [List.getElem?_range (by omega)] at here
    cases here
    have last : ¬before.length < 3 := fun less => Nat.not_le.2 (inside _ less) outside
    cases after with
    | nil => exact .inr fun j mem => absurd mem List.not_mem_nil
    | cons j rest =>
      rw [List.length_cons] at length
      omega)
  refine kept.trans ?_
  decide +kernel

/-! ## A good entry after a bad one -/

def pairHeader : List UInt8 :=
  [0x45, 0x46, 0x49, 0x20, 0x50, 0x41, 0x52, 0x54, 0, 0, 1, 0, 0x5c, 0, 0, 0, 0x7d, 0x90, 0x29, 0xc,
    0, 0, 0, 0, 1, 0, 0, 0, 0, 0, 0, 0, 0xff, 0xff, 0xff, 0, 0, 0, 0, 0, 0x22, 0, 0, 0, 0, 0, 0, 0,
    0xde, 0xff, 0xff, 0, 0, 0, 0, 0, 0, 0, 0, 0, 0, 0, 0, 0, 0, 0, 0, 0, 0, 0, 0, 0, 2, 0, 0, 0, 0,
    0, 0, 0, 2, 0, 0, 0, 0x80, 0, 0, 0, 0xad, 0x23, 0xea, 0xfe]

/-- Two entries: from block 2048 to the last of 2⁶⁴, and the blocks from 2048 to 4095. -/
def pairEntries : List (List UInt8) :=
  [entryBytes [0, 8, 0, 0, 0, 0, 0, 0] (List.replicate 8 0xff), sampleEntries]

def pairDisk : Disk := tableDisk pairHeader pairEntries

theorem pairDisk_checksum : crc32 ((pairDisk.bytes 2).slice 0 256) = 0xfeea23ad := by
  have first : crc32Update crc32Init ((pairDisk.bytes 2).slice 0 128) = 0xe85ad2fb := by
    decide +kernel
  unfold crc32
  rw [crc32Update_slice _ _ 0 128 128, first]
  decide +kernel

theorem pairDisk_valid : WhollyValid pairDisk 1 (.of fun i => (pairHeader[i]?).getD 0) where
  reads := by decide +kernel
  header := by decide +kernel
  inside := by decide +kernel
  readsEntries := by decide +kernel
  checksum := pairDisk_checksum

/-- The first entry runs past the end of the device, and the second is lost. -/
theorem good_entry_lost : ¬∀ (mem : Memory) (dev : Device) (h : Header), dev.disk.present = true →
    dev.parent = false → Reads mem dev h →
    (partitionScan mem dev).slices =
      dev.slices ++ (h.wellFormedSlices dev.disk).take dev.limit := by
  intro always
  have reads : Reads sampleMemory ⟨pairDisk, false, .none, [], 60⟩
      (.of fun i => (pairHeader[i]?).getD 0) :=
    ⟨⟨fun _ => 0, by decide, by decide, rfl, by decide +kernel, by decide +kernel⟩,
      .inl pairDisk_valid, rfl⟩
  have all := always _ _ _ rfl rfl reads
  rw [reads.scan rfl rfl] at all
  have lost : (registerEntries (pairDisk.bytes 2) 128 ⟨pairDisk, false, .none, [], 60⟩
      (List.range 2)).slices = [] := by decide +kernel
  have good : Header.wellFormedSlices (.of fun i => (pairHeader[i]?).getD 0) pairDisk =
      [⟨2, 2048, 2048, .gpt⟩] := by decide +kernel
  rw [good] at all
  cases lost.symm.trans all

end ReconOS.Gpt
