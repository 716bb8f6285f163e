import ReconOS.Gpt.Fill
import ReconOS.Gpt.Free

/-! What is on a disk when a plan's partitions have been written to its table. -/
namespace ReconOS.Gpt

variable {d : Disk} {t : Table} {own : TableHeader} {h : Header} {plan : Plan} {heap : WriteHeap}
  {g : Guids} {ask : Nat → Answer} {k : Nat} {steps : List Step} {data : Bytes} {lba n b i : Nat}

/-! ## Blocks written -/

theorem write_block_out (apart : ¬(lba ≤ b ∧ b < lba + n)) : (d.write lba n data).block b = d.block b :=
  if_neg apart

theorem write_block_one : (d.write b 1 data).block b = data := by
  have here : (d.write b 1 data).block b = fun i => data ((b - b) * d.blockSize + i) :=
    if_pos ⟨Nat.le_refl b, Nat.lt_succ_self b⟩
  rw [here]
  funext i
  rw [Nat.sub_self, Nat.zero_mul, Nat.zero_add]

theorem write_bytes (inside : i / d.blockSize < n) : (d.write lba n data).bytes lba i = data i := by
  have here : (d.write lba n data).block (lba + i / d.blockSize) =
      fun j => data ((lba + i / d.blockSize - lba) * d.blockSize + j) :=
    if_pos ⟨Nat.le_add_right _ _, Nat.add_lt_add_left inside _⟩
  show (d.write lba n data).block (lba + i / d.blockSize) (i % d.blockSize) = _
  rw [here]
  dsimp only
  rw [Nat.add_sub_cancel_left, Nat.mul_comm, Nat.div_add_mod]

theorem write_bytes_out {lba' n' : Nat}
    (apart : ¬(lba' ≤ lba + i / d.blockSize ∧ lba + i / d.blockSize < lba' + n')) :
    (d.write lba' n' data).bytes lba i = d.bytes lba i := by
  show (d.write lba' n' data).block (lba + i / d.blockSize) (i % d.blockSize) = _
  rw [write_block_out apart]
  rfl

/-! ## Requests -/

def Step.apply (d : Disk) : Step → Disk
  | .write lba count data => d.write lba count data
  | .flush => d

/-- A request is for blocks of the disk. -/
def Step.Within (d : Disk) : Step → Prop
  | .write lba count _ => d.InRange lba count
  | .flush => True

/-- The requests are all done, or the device has failed one. -/
theorem perform_spec (within : ∀ s ∈ steps, s.Within d) (k : Nat) (ask : Nat → Answer) :
    perform ask k d steps = (.ok, steps.foldl Step.apply d) ∨
      (perform ask k d steps).1 = .io ∧ ∃ j left, ask j = .failed left := by
  induction steps generalizing d k with
  | nil => exact .inl rfl
  | cons s rest ih =>
    have first := within s (List.mem_cons_self ..)
    have later : ∀ s ∈ rest, s.Within d := fun s mem => within s (List.mem_cons_of_mem _ mem)
    cases s with
    | write lba count data =>
      have later : ∀ s ∈ rest, s.Within (d.write lba count data) := by
        intro s mem
        have := later s mem
        cases s with
        | write => exact this
        | flush => trivial
      have first : d.InRange lba count := first
      unfold perform
      rw [if_neg (not_not.2 first)]
      split
      · exact ih later (k + 1)
      · rename_i left failed
        exact .inr ⟨rfl, k, left, failed⟩
    | flush =>
      unfold perform
      split
      · exact ih later (k + 1)
      · rename_i left failed
        exact .inr ⟨rfl, k, left, failed⟩

/-! ## Room for the entries -/

section Sectors

variable {count size blockSize : Nat}

theorem sectors_hold (some_ : 0 < size) (fits : size ≤ blockSize) :
    count * size ≤ (count + blockSize / size - 1) / (blockSize / size) * blockSize := by
  have per : 0 < blockSize / size := Nat.div_pos fits some_
  have whole := Nat.div_add_mod (count + blockSize / size - 1) (blockSize / size)
  have part := Nat.mod_lt (count + blockSize / size - 1) per
  have enough : count ≤ (count + blockSize / size - 1) / (blockSize / size) * (blockSize / size) := by
    rw [Nat.mul_comm]
    omega
  calc count * size
      ≤ (count + blockSize / size - 1) / (blockSize / size) * (blockSize / size) * size :=
        Nat.mul_le_mul_right size enough
    _ = (count + blockSize / size - 1) / (blockSize / size) * (blockSize / size * size) :=
        Nat.mul_assoc ..
    _ ≤ (count + blockSize / size - 1) / (blockSize / size) * blockSize :=
        Nat.mul_le_mul_left _ (Nat.div_mul_le_self blockSize size)

theorem sectors_le (some_ : 0 < size) (fits : size ≤ blockSize) :
    (count + blockSize / size - 1) / (blockSize / size) ≤ count := by
  have per : 0 < blockSize / size := Nat.div_pos fits some_
  rw [Nat.div_le_iff_le_mul_add_pred per]
  have := Nat.le_mul_of_pos_left count per
  omega

theorem blocks_le {bytes s : Nat} (some_ : 0 < blockSize) (enough : bytes ≤ s * blockSize) :
    (bytes + blockSize - 1) / blockSize ≤ s := by
  rw [Nat.div_le_iff_le_mul_add_pred some_, Nat.mul_comm]
  omega

end Sectors

/-! ## The table loaded -/

/-- A table as `load_table` reads it, by what block 1 says. -/
structure Loaded (d : Disk) (own : TableHeader) (t : Table) : Prop where
  count : t.entryCount = own.count
  size : t.entrySize = own.size
  lba : t.entryLba = own.entryLba
  guid : t.diskGuid.length = 16
  bounds : 0 < t.entryCount ∧ t.entryCount ≤ 128 ∧ 128 ≤ t.entrySize ∧ t.entrySize ≤ d.blockSize
  reads : d.CanRead t.entryLba (t.sectors d.blockSize)

theorem loadTable_spec {g' : Guids} (loaded : loadTable heap g d false = .ok (t, g')) :
    Loaded d (.of (d.sector heap.load.beyond 1)) t ∧
      ∀ i < t.entryCount * t.entrySize, t.entries i = d.bytes t.entryLba i := by
  unfold loadTable at loaded
  simp only [Bool.false_eq_true, if_false] at loaded
  split at loaded
  · cases loaded
  · split at loaded
    · cases loaded
    · split at loaded
      · cases loaded
      · rename_i bounds
        split at loaded
        · cases loaded
        · split at loaded
          · cases loaded
          · rename_i reads
            cases loaded
            refine ⟨⟨rfl, rfl, rfl, Bytes.slice_length .., ?_, Decidable.not_not.1 reads⟩,
              fun i less => if_pos less⟩
            dsimp only
            omega

theorem newTable_spec (fresh : plan.freshTable = false) (fits : ∀ p ∈ plan.parts, p.Fits)
    (made : newTable heap g d plan = .ok t) :
    Loaded d (.of (d.sector heap.load.beyond 1)) t ∧ ∃ slots,
      FilledIn (d.bytes t.entryLba) t.entries t.entryCount t.entrySize plan.parts slots := by
  unfold newTable at made
  rw [fresh] at made
  split at made
  · cases made
  · rename_i t' g' load
    obtain ⟨loaded, read⟩ := loadTable_spec load
    split at made
    · cases made
    · split at made
      · cases made
      · rename_i entries filled
        cases made
        obtain ⟨slots, filled⟩ := fillParts_spec loaded.bounds.2.2.1 fits filled
        exact ⟨⟨loaded.count, loaded.size, loaded.lba, loaded.guid, loaded.bounds, loaded.reads⟩,
          slots, filled.congr loaded.bounds.2.2.1 (fun i less => (read i less).symm) fun _ _ => rfl⟩

theorem newTable_error {v : Verdict} (refused : newTable heap g d plan = .error v) : v ≠ .ok := by
  have load : ∀ {fresh v}, loadTable heap g d fresh = .error v → v ≠ .ok := by
    rintro fresh v refused rfl
    unfold loadTable at refused
    dsimp only at refused
    split at refused
    · split at refused <;> cases refused
    · split at refused
      · cases refused
      · split at refused
        · cases refused
        · split at refused
          · cases refused
          · split at refused
            · cases refused
            · split at refused <;> cases refused
  have fill : ∀ {count size parts old g v}, fillParts d count size old g parts = .error v →
      v ≠ .ok := by
    intro count size parts
    induction parts with
    | nil =>
      intro old g v refused
      cases refused
    | cons part rest ih =>
      intro old g v refused
      unfold fillParts at refused
      split at refused
      · cases refused
        decide
      · exact ih refused
  unfold newTable at refused
  split at refused
  · rename_i v' loaded
    cases refused
    exact load loaded
  · split at refused
    · cases refused
      decide
    · split at refused
      · rename_i v' filled
        cases refused
        exact fill filled
      · cases refused

/-! ## The table written -/

/-- A copy of the table that checks out: its header, where the entries are, and their checksum. -/
structure Intact (d : Disk) (at' : Nat) (h : Header) : Prop where
  header : headerOk (d.block at') d.blockSize at' = some h
  inside : h.entriesLba < d.blockCount ∧ h.entryBlocks d.blockSize ≤ d.blockCount - h.entriesLba
  checksum : crc32 ((d.bytes h.entriesLba).slice 0 h.entryBytes) = h.entriesCrc

/-- Nothing that is written to the table lands on another part of it: the array, where block 1 leads
to it, keeps clear of block 1 and the last block, and of the place for the backup, or is there. -/
structure Room (d : Disk) (lba sectors : Nat) : Prop where
  header : ¬(lba ≤ 1 ∧ 1 < lba + sectors)
  last : lba + sectors ≤ d.last
  backup : lba = d.last - sectors ∨ lba + sectors ≤ d.last - sectors

/-- The copy that has its header in `at'` and its entries at `lba` is written as the table says. -/
structure Copied (d : Disk) (t : Table) (at' lba : Nat) : Prop where
  intact : Intact d at' ⟨lba, t.entryCount, t.entrySize, t.entriesCrc⟩
  entries : ∀ i < t.entryCount * t.entrySize, d.bytes lba i = t.entries i

theorem Loaded.fits (loaded : Loaded d own t) (most : own.size ≤ gptMaxEntrySize) : t.Fits :=
  ⟨loaded.guid, loaded.bounds.1, loaded.bounds.2.1, loaded.bounds.2.2.1, loaded.size ▸ most⟩

theorem Loaded.sectors (loaded : Loaded d own t) :
    t.entryCount * t.entrySize ≤ t.sectors d.blockSize * d.blockSize ∧
      0 < t.sectors d.blockSize ∧ t.sectors d.blockSize ≤ 128 := by
  obtain ⟨some_, count, least, most⟩ := loaded.bounds
  have size : 0 < t.entrySize := by omega
  have hold : t.entryCount * t.entrySize ≤ t.sectors d.blockSize * d.blockSize :=
    sectors_hold size most
  refine ⟨hold, ?_, Nat.le_trans (sectors_le size most) count⟩
  cases Nat.eq_zero_or_pos (t.sectors d.blockSize) with
  | inl none_ =>
    have bytes : 0 < t.entryCount * t.entrySize := Nat.mul_pos some_ size
    have hold : t.entryCount * t.entrySize ≤ t.sectors d.blockSize * d.blockSize := hold
    rw [none_, Nat.zero_mul] at hold
    omega
  | inr some_ => exact some_

/-- Entries that are where a header says, with the checksum it has. -/
theorem copied_of {d' : Disk} {at' lba : Nat} (altLba : Nat) (fits : t.Fits) (loaded : Loaded d own t)
    (blockSize : d'.blockSize = d.blockSize) (large : 92 ≤ d.blockSize) (small : at' < u64Size)
    (header : d'.block at' = buildHeader t at' altLba lba t.entriesCrc)
    (inside : lba + t.sectors d.blockSize ≤ d'.blockCount)
    (entries : ∀ i < t.entryCount * t.entrySize, d'.bytes lba i = t.entries i) :
    Copied d' t at' lba := by
  obtain ⟨hold, some_, -⟩ := loaded.sectors
  have blocks : (t.entryCount * t.entrySize + d.blockSize - 1) / d.blockSize ≤
      t.sectors d.blockSize := blocks_le (by omega) hold
  have count := d'.count_lt
  refine ⟨⟨?_, ?_, ?_⟩, entries⟩
  · rw [header, blockSize]
    exact buildHeader_ok fits large small (by omega) (crc32_lt _)
  · show lba < d'.blockCount ∧ _ ≤ d'.blockCount - lba
    rw [Header.entryBlocks, Header.entryBytes, blockSize]
    dsimp only
    omega
  · show crc32 ((d'.bytes lba).slice 0 (t.entryCount * t.entrySize)) = t.entriesCrc
    rw [slice_congr (q := t.entries) fun i less => entries i (by omega)]
    rfl

/-- All the writes of an install that makes no fresh table. -/
theorem steps_copied (fits : t.Fits) (loaded : Loaded d own t) (large : 92 ≤ d.blockSize)
    (many : 256 ≤ d.blockCount) (room : Room d t.entryLba (t.sectors d.blockSize)) :
    Copied ((t.steps d false).foldl Step.apply d) t 1 t.entryLba ∧
      Copied ((t.steps d false).foldl Step.apply d) t d.last (d.last - t.sectors d.blockSize) := by
  obtain ⟨hold, some_, most⟩ := loaded.sectors
  have count := d.count_lt
  have last : d.last = d.blockCount - 1 := rfl
  have backup : t.backupEntryLba d = d.last - t.sectors d.blockSize := by
    unfold Table.backupEntryLba
    rw [show d.blockCount + u64Size - 1 - t.sectors d.blockSize =
      d.last - t.sectors d.blockSize + u64Size by omega, Nat.add_mod_right]
    exact Nat.mod_eq_of_lt (by omega)
  have header := room.header
  have ends := room.last
  generalize eq : t.sectors d.blockSize = sectors at hold some_ most backup header ends
  let d₁ := d.write t.entryLba sectors t.entries
  let d₂ := d₁.write 1 1 (buildHeader t 1 d.last t.entryLba t.entriesCrc)
  let d₃ := d₂.write (d.last - sectors) sectors t.entries
  let d₄ := d₃.write d.last 1 (buildHeader t d.last 1 (d.last - sectors) t.entriesCrc)
  have after : (t.steps d false).foldl Step.apply d = d₄ := by
    unfold Table.steps
    dsimp only
    rw [backup, eq]
    rfl
  have index : ∀ i < t.entryCount * t.entrySize, i / d.blockSize < sectors := by
    intro i less
    exact Nat.div_lt_of_lt_mul (by rw [Nat.mul_comm]; omega)
  have atBackup : ∀ i < t.entryCount * t.entrySize,
      d₄.bytes (d.last - sectors) i = t.entries i := by
    intro i less
    have within := index i less
    have out : d₄.bytes (d.last - sectors) i = d₃.bytes (d.last - sectors) i :=
      write_bytes_out (by
        show ¬(d.last ≤ d.last - sectors + i / d.blockSize ∧ _)
        generalize i / d.blockSize = b at within
        omega)
    rw [out]
    exact write_bytes within
  have atPrimary : ∀ i < t.entryCount * t.entrySize, d₄.bytes t.entryLba i = t.entries i := by
    intro i less
    cases room.backup with
    | inl same =>
      rw [eq] at same
      rw [same]
      exact atBackup i less
    | inr apart =>
      rw [eq] at apart
      have within := index i less
      have out₄ : d₄.bytes t.entryLba i = d₃.bytes t.entryLba i := write_bytes_out (by
        show ¬(d.last ≤ t.entryLba + i / d.blockSize ∧ _)
        generalize i / d.blockSize = b at within
        omega)
      have out₃ : d₃.bytes t.entryLba i = d₂.bytes t.entryLba i := write_bytes_out (by
        show ¬(d.last - sectors ≤ t.entryLba + i / d.blockSize ∧ _)
        generalize i / d.blockSize = b at within
        omega)
      have out₂ : d₂.bytes t.entryLba i = d₁.bytes t.entryLba i := write_bytes_out (by
        show ¬(1 ≤ t.entryLba + i / d.blockSize ∧ t.entryLba + i / d.blockSize < 1 + 1)
        generalize i / d.blockSize = b at within
        omega)
      rw [out₄, out₃, out₂]
      exact write_bytes within
  rw [after]
  constructor
  · refine copied_of d.last fits loaded rfl large (by decide) ?_ ?_ atPrimary
    · have out₄ : d₄.block 1 = d₃.block 1 := write_block_out (by omega)
      have out₃ : d₃.block 1 = d₂.block 1 := write_block_out (by omega)
      rw [out₄, out₃]
      exact write_block_one
    · show t.entryLba + t.sectors d.blockSize ≤ d.blockCount
      omega
  · refine copied_of 1 fits loaded rfl large (by omega) write_block_one ?_ atBackup
    show d.last - sectors + t.sectors d.blockSize ≤ d.blockCount
    omega

/-! ## Installing beside what is there -/

theorem parts_fit {own : TableHeader} {p : Plan} (lands : Lands d own p)
    (inside : own.lastUsable < d.blockCount) : ∀ q ∈ p.parts, q.Fits := by
  have count := d.count_lt
  have types : ∀ type ∈ [typeBiosBoot, espType, typeReconos],
      type.length = 16 ∧ type.all (· == 0) = false := by decide
  have extent : ∀ x ∈ p.extents, x.first + x.count < u64Size := by
    intro x mem
    have ends := (lands.free x mem).upper
    simp only [Extent.stop] at ends
    omega
  have least : installSystemMin = 4194304 := rfl
  have rest : installProgramsMin = 2097152 := rfl
  have create : installEspCreate = 524288 := rfl
  have fit : ∀ type ∈ [typeBiosBoot, espType, typeReconos], ∀ x ∈ p.extents, ∀ name, 0 < x.count →
      (⟨type, x, name⟩ : Part).Fits := by
    intro type mem x mem_x name some_
    exact ⟨(types type mem).1, (types type mem).2, some_, extent x mem_x⟩
  intro q mem
  unfold Plan.parts at mem
  unfold Plan.extents at fit
  cases List.mem_append.1 mem with
  | inl front =>
    cases List.mem_append.1 front with
    | inl boot =>
      split at boot
      · rename_i some_
        rw [if_pos some_] at fit
        rw [List.mem_singleton.1 boot]
        exact fit _ (by simp) _ (by simp) _ (Nat.pos_of_ne_zero some_)
      · cases boot
    | inr esp =>
      split at esp
      · cases esp
      · rename_i new
        have made := lands.esp (Bool.eq_false_iff.2 new)
        rw [if_neg new] at fit
        rw [List.mem_singleton.1 esp]
        exact fit _ (by simp) _ (by simp) _ (by omega)
  | inr volume =>
    have system := lands.system
    have programs := lands.programs
    cases List.mem_cons.1 volume with
    | inl first =>
      rw [first]
      exact fit _ (by simp) _ (by simp) _ (by omega)
    | inr second =>
      rw [List.mem_singleton.1 second]
      exact fit _ (by simp) _ (by simp) _ (by omega)

/-- What block 1 leads to is the accepted table, and there is room to write it where it is. -/
structure Keeps (d : Disk) (at' : Nat) : Prop where
  count : (TableHeader.of (d.block 1)).count = (TableHeader.of (d.block at')).count
  size : (TableHeader.of (d.block 1)).size = (TableHeader.of (d.block at')).size
  entries : ∀ i < (TableHeader.of (d.block at')).count * (TableHeader.of (d.block at')).size,
    d.bytes (TableHeader.of (d.block 1)).entryLba i = d.bytes (TableHeader.of (d.block at')).entryLba i
  room : Room d (TableHeader.of (d.block 1)).entryLba
    ((TableHeader.of (d.block 1)).sectors d.blockSize)

theorem steps_within (present : d.present = true) (loaded : Loaded d own t)
    (many : 256 ≤ d.blockCount) : ∀ s ∈ t.steps d false, s.Within d := by
  obtain ⟨-, some_, most⟩ := loaded.sectors
  have count := d.count_lt
  have backup : t.backupEntryLba d = d.blockCount - 1 - t.sectors d.blockSize := by
    unfold Table.backupEntryLba
    rw [show d.blockCount + u64Size - 1 - t.sectors d.blockSize =
      d.blockCount - 1 - t.sectors d.blockSize + u64Size by omega, Nat.add_mod_right]
    exact Nat.mod_eq_of_lt (by omega)
  have inside : ∀ lba n data, lba + n ≤ d.blockCount → 0 < n → (Step.write lba n data).Within d :=
    fun lba n data ends some_ => ⟨present, .inr ⟨by omega, by omega⟩⟩
  intro s mem
  simp only [Table.steps, Bool.false_eq_true, if_false, List.nil_append, List.mem_cons,
    List.not_mem_nil, or_false] at mem
  obtain rfl | rfl | rfl | rfl | rfl | rfl := mem
  · exact loaded.reads.1
  · exact inside _ _ _ (by omega) (by omega)
  · trivial
  · exact inside _ _ _ (by omega) (by omega)
  · exact inside _ _ _ (by omega) (by omega)
  · trivial

/-- A plan for a disk with an accepted table, and what it is made from. -/
structure Planned (d : Disk) (at' : Nat) (p : Plan) : Prop where
  fresh : p.freshTable = false
  fits : ∀ q ∈ p.parts, q.Fits
  many : 256 ≤ d.blockCount
  large : 92 ≤ d.blockSize
  most : (TableHeader.of (d.block at')).size ≤ gptMaxEntrySize

theorem headerOk_stride {hdr : Bytes} {n at' : Nat} (ok : headerOk hdr n at' = some h) :
    h.stride ≤ gptMaxEntrySize := by
  unfold headerOk at ok
  split at ok
  · cases ok
  · split at ok
    · cases ok
    · split at ok
      · cases ok
      · split at ok
        · cases ok
        · dsimp only at ok
          split at ok
          · cases ok
          · split at ok
            · cases ok
            · cases ok
              omega

theorem planned {mem : Memory} {dev : Device} {at' : Nat} {heap : Heap} {esp : Esp → Option Nat}
    (present : dev.disk.present = true) (whole : dev.parent = false) (accepted : Accepted mem dev at')
    (ok : (installPlan heap esp (partitionScan mem dev)).verdict = .ok) :
    Planned dev.disk at' (installPlan heap esp (partitionScan mem dev)) := by
  obtain ⟨junk, h, -, read⟩ := accepted.header
  obtain ⟨header, -⟩ := readHeader_ok read
  obtain ⟨eq, size⟩ := headerOk_eq header
  obtain ⟨disk, parent⟩ := scan_disk present whole accepted.gpt
  obtain ⟨lands, inside⟩ :=
    installPlan_lands parent accepted.gpt (by rw [disk]; exact blockCount_small size) ok
  rw [disk] at lands inside
  have stride := headerOk_stride header
  refine ⟨?_, parts_fit lands inside, ?_, size, by rw [eq] at stride; exact stride⟩
  · cases fresh : (installPlan heap esp (partitionScan mem dev)).freshTable with
    | false => rfl
    | true => cases (freshTable_none fresh).symm.trans accepted.gpt
  · have system := lands.system
    have mem_system : (installPlan heap esp (partitionScan mem dev)).system ∈
        (installPlan heap esp (partitionScan mem dev)).extents := by simp [Plan.extents]
    have ends := (lands.free _ mem_system).upper
    have least : installSystemMin = 4194304 := rfl
    simp only [Extent.stop] at ends
    omega

/-- The copy in block `at'` checks out and its entries are those of the table `t` of `d`, but for
unused ones that have the partitions. -/
def HoldsFilled (d : Disk) (t : TableHeader) (after : Disk) (at' : Nat) (parts : List Part)
    (slots : List Nat) : Prop :=
  ∃ h, Intact after at' h ∧ h.count = t.count ∧ h.stride = t.size ∧
    FilledIn (d.bytes t.entryLba) (after.bytes h.entriesLba) t.count t.size parts slots

/-- Of a disk whose table the scan accepted: where block 1 leads to that table, with room to write
it, an install that succeeds leaves both copies checking out, and in them the accepted entries, but
for unused slots that have the plan's partitions; and one that fails has changed nothing, unless it
answers that the device failed, and the device did. -/
theorem install_preserves {mem : Memory} {dev : Device} {at' : Nat} {planHeap : Heap}
    {esp : Esp → Option Nat} {claim : Bool} {heap : WriteHeap} {g : Guids} {ask : Nat → Answer}
    (present : dev.disk.present = true) (whole : dev.parent = false)
    (accepted : Accepted mem dev at') :
    let plan := installPlan planHeap esp (partitionScan mem dev)
    let after := installWriteGpt claim heap g ask dev.disk plan
    let t := TableHeader.of (dev.disk.block at')
    (Keeps dev.disk at' → after.1 = .ok → ∃ slots, HoldsFilled dev.disk t after.2 1 plan.parts slots ∧
      HoldsFilled dev.disk t after.2 dev.disk.last plan.parts slots) ∧
    (after.1 ≠ .ok → after.2 = dev.disk ∨ after.1 = .io ∧ ∃ k left, ask k = .failed left) := by
  intro plan after t
  by_cases ok : plan.verdict = .ok
  · have planned := planned present whole accepted ok
    have after_eq : after = installWriteGpt claim heap g ask dev.disk plan := rfl
    unfold installWriteGpt at after_eq
    rw [if_neg (not_not.2 ok)] at after_eq
    split at after_eq
    · rw [after_eq]
      exact ⟨fun _ io => (nomatch io), fun _ => .inl rfl⟩
    · split at after_eq
      · rename_i v refused
        rw [after_eq]
        exact ⟨fun _ ok => absurd ok (newTable_error refused), fun _ => .inl rfl⟩
      · rename_i made
        rename_i table
        obtain ⟨loaded, slots, filled⟩ := newTable_spec planned.fresh planned.fits made
        rw [tableHeader_sector dev.disk heap.load.beyond planned.large] at loaded
        rw [planned.fresh] at after_eq
        have run := perform_spec (steps_within present loaded planned.many) 0 ask
        rw [after_eq]
        cases run with
        | inr failed => exact ⟨fun _ ok => absurd (ok.symm.trans failed.1) (by decide), fun _ => .inr failed⟩
        | inl done =>
          rw [done]
          refine ⟨fun keeps _ => ?_, fun failed => absurd rfl failed⟩
          have count : table.entryCount = t.count := loaded.count.trans keeps.count
          have size : table.entrySize = t.size := loaded.size.trans keeps.size
          have room : Room dev.disk table.entryLba (table.sectors dev.disk.blockSize) := by
            have sectors : table.sectors dev.disk.blockSize =
                (TableHeader.of (dev.disk.block 1)).sectors dev.disk.blockSize := by
              unfold Table.sectors TableHeader.sectors
              rw [loaded.count, loaded.size]
            rw [loaded.lba, sectors]
            exact keeps.room
          have fits := loaded.fits (by rw [keeps.size]; exact planned.most)
          obtain ⟨primary, backup⟩ := steps_copied fits loaded planned.large planned.many room
          have same : ∀ i < t.count * t.size,
              dev.disk.bytes t.entryLba i = dev.disk.bytes table.entryLba i := by
            intro i less
            rw [loaded.lba]
            exact (keeps.entries i less).symm
          rw [count, size] at filled
          have least : 128 ≤ t.size := size ▸ loaded.bounds.2.2.1
          refine ⟨slots, ⟨_, primary.intact, count, size, ?_⟩, _, backup.intact, count, size, ?_⟩
          · exact filled.congr least same fun i less => primary.entries i (by rw [count, size]; exact less)
          · exact filled.congr least same fun i less => backup.entries i (by rw [count, size]; exact less)
  · have after_eq : after = (plan.verdict, dev.disk) := if_pos ok
    rw [after_eq]
    exact ⟨fun _ ok' => absurd ok' ok, fun _ => .inl rfl⟩

/-! ## A disk with room in its table -/

/-- Five entries, one of them used. -/
def sampleTable : Table :=
  ⟨5, 128, 34, 0xFFFFDE, 2, List.replicate 16 7, fun i => (sampleEntries[i]?).getD 0⟩

def roomyDisk : Disk := (sampleTable.steps (sampleDisk true) false).foldl Step.apply (sampleDisk true)

def roomyDevice : Device := ⟨roomyDisk, false, .none, [], 60⟩

theorem roomyDisk_copied :
    Copied roomyDisk sampleTable 1 2 ∧ Copied roomyDisk sampleTable 0xFFFFFF 0xFFFFFD := by
  have fits : sampleTable.Fits := ⟨rfl, by decide, by decide, by decide, by decide⟩
  have loaded : Loaded (sampleDisk true) ⟨34, 0xFFFFDE, 2, 5, 128⟩ sampleTable :=
    ⟨rfl, rfl, rfl, rfl, by decide, by decide +kernel⟩
  have last : (sampleDisk true).last = 0xFFFFFF := by decide
  have backup : (sampleDisk true).last - sampleTable.sectors (sampleDisk true).blockSize =
      0xFFFFFD := by decide
  have copied := steps_copied fits loaded (by decide) (by decide)
    ⟨by decide +kernel, by decide +kernel, by decide +kernel⟩
  rw [backup, last] at copied
  exact copied

/-- A table that `read_gpt` goes by is accepted, and its entries registered. -/
theorem accepted_of (dev : Device) {mem : Memory} {junk : Bytes} {at' : Nat} {h : Header}
    (present : dev.disk.present = true) (whole : dev.parent = false)
    (begins : Begins mem junk dev.disk) (header : readHeader junk dev.disk = some (at', h))
    (ok : EntriesOk mem dev.disk h) : Accepted mem dev at' ∧ partitionScan mem dev =
      { registerEntries (dev.disk.bytes h.entriesLba) h.stride { dev with scheme := .none }
          (List.range h.count) with scheme := .gpt } := by
  have read : readGpt mem junk { dev with scheme := .none } = some (registerEntries
      (dev.disk.bytes h.entriesLba) h.stride { dev with scheme := .none } (List.range h.count)) := by
    unfold readGpt
    dsimp only
    rw [header]
    exact if_neg (not_not.2 ok)
  have scan := (scan_gpt mem present whole).2 _ _ begins read
  exact ⟨⟨by rw [scan], junk, h, begins.page, header⟩, scan⟩

def sampleWriteHeap : WriteHeap := ⟨sampleHeap, true, fun _ => 0⟩

def sampleGuids : Guids := ⟨[0x64], 0, fun n => n⟩

/-- What the code computes of the disk, one after the other. -/
theorem roomyDisk_runs : Begins sampleMemory (fun _ => 0) roomyDisk ∧
    EntriesOk sampleMemory roomyDisk
      ⟨2, sampleTable.entryCount, sampleTable.entrySize, sampleTable.entriesCrc⟩ ∧
    roomyDisk.CanRead 1 1 ∧ Keeps roomyDisk 1 ∧
    (installWriteGpt true sampleWriteHeap sampleGuids (fun _ => .done) roomyDevice.disk
      (installPlan sampleHeap (fun _ => none)
        { registerEntries (roomyDisk.bytes 2) 128 roomyDevice (List.range 5) with scheme := .gpt })).1 =
      .ok :=
  ⟨⟨by decide, by decide, rfl, by decide +kernel, by decide +kernel⟩,
    ⟨roomyDisk_copied.1.intact.inside, rfl, by decide +kernel, roomyDisk_copied.1.intact.checksum⟩,
    by decide +kernel,
    ⟨rfl, rfl, fun _ _ => rfl, ⟨by decide +kernel, by decide +kernel, by decide +kernel⟩⟩,
    by decide +kernel⟩

theorem roomyDevice_accepted : Accepted sampleMemory roomyDevice 1 ∧
    partitionScan sampleMemory roomyDevice =
      { registerEntries (roomyDisk.bytes 2) 128 roomyDevice (List.range 5) with scheme := .gpt } := by
  obtain ⟨begins, entries, reads, -, -⟩ := roomyDisk_runs
  have header := roomyDisk_copied.1.intact.header
  exact accepted_of roomyDevice rfl rfl begins (readHeader_primary reads header) entries

theorem install_preserves_roomy : ∃ after, after = installWriteGpt true sampleWriteHeap sampleGuids
    (fun _ => .done) roomyDevice.disk
    (installPlan sampleHeap (fun _ => none) (partitionScan sampleMemory roomyDevice)) ∧
    ∃ h, Intact after.2 1 h ∧ h.count = (TableHeader.of (roomyDisk.block 1)).count := by
  obtain ⟨accepted, scan⟩ := roomyDevice_accepted
  refine ⟨_, rfl, ?_⟩
  obtain ⟨-, -, -, keeps, installed⟩ := roomyDisk_runs
  rw [← scan] at installed
  obtain ⟨-, ⟨h, intact, count, -⟩, -⟩ :=
    (install_preserves rfl rfl accepted).1 keeps installed
  exact ⟨h, intact, count⟩

/-! ## A damaged table blessed -/

/-- The primary header damaged, to say that there are eight entries, in a block of zeros; the backup
as it should be. -/
def strayDisk : Disk :=
  { sampleDisk true with
    block := fun n =>
      if n = 1 then fun i => (((sampleHeader.set 72 3).set 80 8)[i]?).getD 0
      else if n = 0xFFFFFF then fun i => (sampleBackup[i]?).getD 0
      else (sampleDisk true).block n }

def strayDevice : Device := ⟨strayDisk, false, .none, [], 60⟩

theorem strayDevice_runs : Accepted sampleMemory strayDevice 0xFFFFFF ∧
    (installWriteGpt true sampleWriteHeap sampleGuids (fun _ => .done) strayDisk
      (installPlan sampleHeap (fun _ => none) (partitionScan sampleMemory strayDevice))).1 = .ok :=
  ⟨⟨by decide +kernel, fun _ => 0, .of fun i => (sampleBackup[i]?).getD 0, rfl, by decide +kernel⟩,
    by decide +kernel⟩

theorem plan_parts (p : Plan) : p.parts ≠ [] := by simp [Plan.parts]

theorem FilledIn.unused {parts : List Part} (filled : FilledIn old new count size parts slots)
    (some_ : parts ≠ []) : ∃ slot < count, (entryAt old size slot).used = false := by
  cases filled.each with
  | nil => exact absurd rfl some_
  | cons first rest => exact ⟨_, first.1, first.2.1⟩

/-- The scan goes by the backup; what is written to both copies is the array the damaged header
leads to, without the accepted one's only entry. -/
theorem install_loses_entries : ¬∀ mem dev at' planHeap esp claim heap g ask,
    dev.disk.present = true → dev.parent = false → Accepted mem dev at' →
    let plan := installPlan planHeap esp (partitionScan mem dev)
    let after := installWriteGpt claim heap g ask dev.disk plan
    let t := TableHeader.of (dev.disk.block at')
    after.1 = .ok → ∃ slots, HoldsFilled dev.disk t after.2 1 plan.parts slots ∧
      HoldsFilled dev.disk t after.2 dev.disk.last plan.parts slots := by
  intro always
  obtain ⟨slots, ⟨h, -, -, -, filled⟩, -⟩ := always sampleMemory strayDevice 0xFFFFFF sampleHeap
    (fun _ => none) true sampleWriteHeap sampleGuids (fun _ => .done) rfl rfl strayDevice_runs.1
    strayDevice_runs.2
  obtain ⟨slot, less, unused⟩ := filled.unused (plan_parts _)
  have full : ∀ slot < (TableHeader.of (strayDisk.block 0xFFFFFF)).count,
      (entryAt (strayDisk.bytes (TableHeader.of (strayDisk.block 0xFFFFFF)).entryLba)
        (TableHeader.of (strayDisk.block 0xFFFFFF)).size slot).used = true := by decide +kernel
  exact absurd ((full slot less).symm.trans unused) (by decide)

end ReconOS.Gpt
