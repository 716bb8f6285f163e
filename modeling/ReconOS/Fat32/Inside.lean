import ReconOS.Fat32.Directory

/-! Whatever is on the disk, reading a volume that was mounted ends, and reads nothing that is not
of the volume's tables or its data. -/
namespace ReconOS.Fat32
open Gpt Lib Prog

variable {m : Machine} {v : Volume}

/-! ## Parts of a volume -/

/-- Blocks that are all in a part of the volume: its first sector, and how many. -/
def Volume.Within (v : Volume) (first sectors : Nat) (r : Nat × Nat) : Prop :=
  first * v.per ≤ r.1 ∧ r.1 + r.2 ≤ (first + sectors) * v.per

/-- Blocks of the allocation tables, or of the data area. -/
def Volume.Inside (v : Volume) (r : Nat × Nat) : Prop :=
  v.Within v.fatStart (v.fatCount * v.fatSectors) r ∨
    v.Within v.dataStart (v.dataClusters * v.sectorsPerCluster) r

/-- Nothing was read but what had been, and what is inside. -/
def Stays (v : Volume) (start w : World) : Prop := ∀ r ∈ w.reads, r ∈ start.reads ∨ v.Inside r

/-- It ends, and has read nothing outside. -/
def EndsInside {α : Type} (v : Volume) (op : Op α) (start : World) : Prop :=
  (op start).1 ≠ .error .hung ∧ Stays v start (op start).2

/-- The same of a value's own property, from any world. -/
abbrev Spared {α : Type} (v : Volume) (start : World) : Op α → (α → Prop) → Prop :=
  Spares (Stays v start) (· = .hung)

variable {start : World}

theorem Spared.ends {α : Type} {op : Op α} {R : α → Prop} (is : Spared v start op R) :
    EndsInside v op start := by
  obtain ⟨stays, ends, _⟩ := is start fun r here => .inl here
  exact ⟨fun hung => ends _ hung rfl, stays⟩

theorem spared_fail {α : Type} {s : Status} {R : α → Prop} : Spared v start (fail s) R := by
  apply Spares.fail
  intro hung
  cases hung

theorem spared_kzalloc : Spared v start m.kzalloc fun _ => True := by
  intro w stays
  refine ⟨stays, ?_, fun _ _ => trivial⟩
  intro e none
  cases none

theorem spared_read {first sectors sector count : Nat} (g : v.Geometry)
    (part : ∀ r, v.Within first sectors r → v.Inside r) (low : first ≤ sector)
    (high : sector + count ≤ first + sectors) :
    Spared v start (readSectors m v sector count) fun _ => True := by
  have at' : sector * v.bytesPerSector / v.devSectorSize = sector * v.per := by
    rw [Volume.per, Nat.mul_div_assoc _ (Nat.dvd_of_mod_eq_zero g.blocks)]
  have within : v.Within first sectors
      (sector * v.bytesPerSector / v.devSectorSize, count * v.per) := by
    rw [at']
    refine ⟨Nat.mul_le_mul_right _ low, ?_⟩
    rw [← Nat.add_mul]
    exact Nat.mul_le_mul_right _ high
  intro w stays
  have more : Stays v start { w with
      reads := w.reads ++ [(sector * v.bytesPerSector / v.devSectorSize, count * v.per)]
      moved := w.moved + 1 } := by
    intro r here
    cases List.mem_append.mp here with
    | inl before => exact stays r before
    | inr this =>
      rw [List.mem_singleton.mp this]
      exact .inr (part _ within)
  unfold readSectors Machine.blockRead
  dsimp only
  split
  · refine ⟨more, ?_, fun _ _ => trivial⟩
    intro e none
    cases none
  · refine ⟨more, ?_, fun _ _ => trivial⟩
    intro e is hung
    cases is
    cases hung

/-! ## The table -/

theorem spared_fatSector (g : v.Geometry) {index : Nat} (low : index < v.fatSectors) :
    Spared v start (fatSector m v index) fun _ => True := by
  obtain ⟨one, two⟩ := g.copies
  have copies : v.fatSectors ≤ v.fatCount * v.fatSectors := Nat.le_mul_of_pos_left _ one
  unfold fatSector
  refine Spares.bind (spared_read g (fun _ => .inl) (by omega) (by omega)) fun _ _ => ?_
  refine Spares.ite (fun _ => Spares.pure trivial) fun both => ?_
  have twice : v.fatCount * v.fatSectors = v.fatSectors + v.fatSectors := by
    rw [show v.fatCount = 2 by omega, Nat.two_mul]
  refine Spares.bind (spared_read g (fun _ => .inl) (by omega) (by omega)) fun _ _ => ?_
  exact Spares.ite (fun _ => Spares.pure trivial) fun _ => spared_fail

theorem spared_nextCluster (g : v.Geometry) (cluster : Nat) :
    Spared v start (nextCluster m v cluster) fun _ => True := by
  unfold nextCluster
  refine Spares.ite (fun _ => spared_fail) fun _ => ?_
  refine Spares.ite (fun _ => spared_fail) fun low => ?_
  refine Spares.bind spared_kzalloc fun _ _ => Spares.bind spared_kzalloc fun _ _ => ?_
  refine Spares.ite (fun _ => ?_) fun _ => spared_fail
  exact Spares.bind (spared_fatSector g (Nat.lt_of_not_le low)) fun _ _ => Spares.pure trivial

/-- A cluster of the volume is in its data. -/
theorem spared_loadCluster (g : v.Geometry) (cluster : Nat) :
    Spared v start (loadCluster m v cluster) fun _ => True := by
  unfold loadCluster
  refine Spares.ite (fun _ => spared_fail) fun is => ?_
  obtain ⟨first, last⟩ := not_not.mp is
  refine spared_read g (fun _ => .inr) (Nat.le_add_right _ _) ?_
  rw [Volume.clusterToSector, Nat.add_assoc, ← Nat.succ_mul]
  apply Nat.add_le_add_left
  apply Nat.mul_le_mul_right
  omega

/-! ## A directory -/

/-- How many records a cluster has. -/
def Volume.records (v : Volume) : Nat := v.bytesPerCluster / dirSize

/-- How many records a walk may still come to. -/
def Volume.ahead (v : Volume) (w : DirWalk) : Nat :=
  (v.dataClusters - w.guard) * v.records +
    if w.loaded = true then (v.bytesPerCluster - w.offset) / dirSize else v.records

theorem Volume.Geometry.cluster (g : v.Geometry) : dirSize ≤ v.bytesPerCluster := by
  have large := g.sectorLarge
  have some := Nat.le_mul_of_pos_right v.bytesPerSector g.clusterSome
  rw [g.clusterBytes]
  unfold dirSize
  omega

theorem ahead_record {w : DirWalk} (loaded : w.loaded = true)
    (room : w.offset + dirSize ≤ v.bytesPerCluster) :
    v.ahead { w with offset := w.offset + dirSize } < v.ahead w := by
  have one : (v.bytesPerCluster - w.offset) / dirSize =
      (v.bytesPerCluster - (w.offset + dirSize)) / dirSize + 1 := by
    rw [← Nat.add_div_right _ (by decide : 0 < dirSize)]
    congr 1
    omega
  unfold Volume.ahead
  dsimp only
  rw [if_pos loaded, if_pos loaded, one]
  omega

theorem ahead_loaded {w : DirWalk} (not : w.loaded = false) (buf : Bytes) :
    v.ahead { w with buf := buf, loaded := true, offset := 0 } = v.ahead w := by
  unfold Volume.ahead
  dsimp only
  rw [if_pos rfl, not, if_neg Bool.false_ne_true, Nat.sub_zero]
  rfl

theorem ahead_next {w : DirWalk} (guard : w.guard + 1 ≤ v.dataClusters)
    (next : Nat) :
    v.ahead { w with cluster := next, loaded := false, guard := w.guard + 1 } ≤ v.ahead w := by
  have one : v.dataClusters - w.guard = v.dataClusters - (w.guard + 1) + 1 := by omega
  unfold Volume.ahead
  dsimp only
  rw [if_neg Bool.false_ne_true, one, Nat.succ_mul]
  omega

theorem spared_walkNext_unloaded (g : v.Geometry) {w : DirWalk} (not : w.loaded = false)
    (fuel : Nat) :
    Spared v start (walkNext m v (fuel + 1) w) fun r => v.ahead r.2 < v.ahead w := by
  have load : Spared v start (walkLoad m v w)
      fun w' => w'.loaded = true ∧ w'.offset = 0 ∧ v.ahead w' = v.ahead w := by
    unfold walkLoad
    rw [not, if_neg Bool.false_ne_true]
    exact Spares.bind (spared_loadCluster g _) fun buf _ =>
      Spares.pure ⟨rfl, rfl, ahead_loaded not buf⟩
  unfold walkNext
  refine Spares.bind load fun w' is => ?_
  obtain ⟨loaded, begins, same⟩ := is
  have room : w'.offset + dirSize ≤ v.bytesPerCluster := by
    rw [begins, Nat.zero_add]
    exact g.cluster
  rw [if_pos room]
  exact Spares.pure (same ▸ ahead_record loaded room)

/-- A record, or none: two rounds are enough for either. -/
theorem spared_walkNext (g : v.Geometry) (w : DirWalk) (fuel : Nat) :
    Spared v start (walkNext m v (fuel + 2) w) fun r => v.ahead r.2 < v.ahead w := by
  cases loaded : w.loaded with
  | false => exact spared_walkNext_unloaded g loaded (fuel + 1)
  | true =>
    have load : Spared v start (walkLoad m v w) (· = w) := by
      unfold walkLoad
      rw [if_pos loaded]
      exact Spares.pure rfl
    unfold walkNext
    refine Spares.bind load fun w' same => ?_
    rw [same]
    refine Spares.ite (fun room => Spares.pure (ahead_record loaded room)) fun _ => ?_
    refine Spares.bind (spared_nextCluster g _) fun next _ => ?_
    refine Spares.ite (fun _ => spared_fail) fun _ => ?_
    refine Spares.ite (fun _ => spared_fail) fun guard => ?_
    have onward := @ahead_next v w (Nat.le_of_not_lt guard) next
    exact (spared_walkNext_unloaded g rfl fuel).mono fun r less => Nat.lt_of_lt_of_le less onward

/-- Each round passes a record by; there are only so many. -/
theorem spared_nextEntry (g : v.Geometry) {fuel : Nat} {w : DirWalk} (long : Long)
    (enough : v.ahead w + 1 < fuel) :
    Spared v start (nextEntry m v fuel long w) fun r => v.ahead r.2 < v.ahead w := by
  induction fuel generalizing long w with
  | zero => omega
  | succ fuel ih =>
    unfold nextEntry
    obtain ⟨k, rfl⟩ : ∃ k, fuel = k + 1 := ⟨fuel - 1, by omega⟩
    refine Spares.bind (spared_walkNext g w k) fun r less => ?_
    obtain ⟨rec, next⟩ := r
    dsimp only at less ⊢
    cases readRecord long rec with
    | ended => exact spared_fail
    | passed long =>
      refine (ih long (by omega)).mono fun r less' => ?_
      omega
    | entry e => exact Spares.pure less

theorem spared_walkBegin (cluster : Nat) :
    Spared v start (walkBegin m v cluster)
      fun w => v.ahead w = (v.dataClusters + 1) * v.records := by
  unfold walkBegin
  refine Spares.bind spared_kzalloc fun _ _ => ?_
  refine Spares.ite (fun _ => Spares.pure ?_) fun _ => spared_fail
  unfold Volume.ahead
  rw [if_neg Bool.false_ne_true, Nat.sub_zero, Nat.succ_mul]

theorem spared_skipEntries (g : v.Geometry) {fuel index : Nat} {w : DirWalk}
    (enough : v.ahead w + 1 < fuel) :
    Spared v start (skipEntries m v fuel index w) fun _ => True := by
  induction index generalizing w with
  | zero => exact Spares.bind (spared_nextEntry g .none enough) fun _ _ => Spares.pure trivial
  | succ index ih =>
    exact Spares.bind (spared_nextEntry g .none enough) fun r less => ih (by omega)

theorem spared_findEntry (g : v.Geometry) (name : List UInt8) {fuel : Nat} {w : DirWalk}
    (enough : v.ahead w + 1 < fuel) :
    Spared v start (findEntry m v name fuel w) fun _ => True := by
  induction fuel generalizing w with
  | zero => omega
  | succ fuel ih =>
    unfold findEntry
    refine Spares.bind (spared_nextEntry g .none enough) fun r less => ?_
    exact Spares.ite (fun _ => Spares.pure trivial) fun _ => ih (by omega)

/-- What is enough rounds for any loop over the volume. -/
def Volume.enough (v : Volume) : Nat := (v.dataClusters + 1) * v.records + 2

theorem spared_readdir (g : v.Geometry) {fuel : Nat} (enough : v.enough ≤ fuel)
    (dirCluster index : Nat) :
    Spared v start (readdir m v fuel dirCluster index) fun _ => True := by
  unfold Volume.enough at enough
  exact Spares.bind (spared_walkBegin dirCluster) fun w begins =>
    spared_skipEntries g (by omega)

theorem spared_lookup (g : v.Geometry) {fuel : Nat} (enough : v.enough ≤ fuel)
    (dirCluster : Nat) (name : List UInt8) :
    Spared v start (lookup m v fuel dirCluster name) fun _ => True := by
  unfold Volume.enough at enough
  unfold lookup
  refine Spares.ite (fun _ => spared_fail) fun _ => ?_
  exact Spares.bind (spared_walkBegin dirCluster) fun w begins =>
    spared_findEntry g name (by omega)

theorem spared_walkParts (g : v.Geometry) {fuel : Nat} (enough : v.enough ≤ fuel)
    (dir : Nat) (parts : List (List UInt8)) :
    Spared v start (walkParts m v fuel dir parts) fun _ => True := by
  induction parts generalizing dir with
  | nil => exact spared_fail
  | cons part rest ih =>
    unfold walkParts
    refine Spares.ite (fun _ => spared_fail) fun _ => ?_
    refine Spares.bind (spared_lookup g enough dir part) fun e _ => ?_
    cases rest with
    | nil => exact Spares.pure trivial
    | cons next rest => exact Spares.ite (fun _ => ih e.firstCluster) fun _ => spared_fail

/-! ## A file -/

/-- Each round takes a cluster of a chain that is no longer than there are clusters. -/
theorem spared_readClusters (g : v.Geometry) {fuel left cluster guard : Nat} {out : List UInt8}
    (guarded : guard ≤ v.dataClusters) (enough : v.dataClusters - guard + 1 < fuel) :
    Spared v start (readClusters m v fuel left cluster guard out)
      fun all => all.length = out.length + left := by
  induction fuel generalizing left cluster guard out with
  | zero => omega
  | succ fuel ih =>
    unfold readClusters
    refine Spares.ite (fun none => Spares.pure (by rw [none, Nat.add_zero])) fun some => ?_
    refine Spares.bind (spared_loadCluster g _) fun buf _ => ?_
    have longer : (out ++ buf.slice 0 (min left v.bytesPerCluster)).length =
        out.length + min left v.bytesPerCluster := by
      rw [List.length_append, Bytes.slice, List.length_map, List.length_range]
    refine Spares.ite (fun whole => Spares.pure ?_) fun _ => ?_
    · rw [longer]
      omega
    · refine Spares.bind (spared_nextCluster g _) fun next _ => ?_
      refine Spares.ite (fun _ => spared_fail) fun _ => ?_
      refine Spares.ite (fun _ => spared_fail) fun more => ?_
      refine (ih (by omega) (by omega)).mono fun all is => ?_
      rw [is, longer]
      omega

theorem spared_readFile (g : v.Geometry) {fuel : Nat} (enough : v.enough ≤ fuel) (e : Entry)
    (max : Nat) :
    Spared v start (readFile m v fuel e max) fun r => r.1.length = e.size ∧ r.2 = e.size := by
  have records : 0 < v.records := Nat.div_pos g.cluster (by decide)
  have many := Nat.le_mul_of_pos_right (v.dataClusters + 1) records
  unfold Volume.enough at enough
  unfold readFile
  refine Spares.ite (fun _ => spared_fail) fun _ => ?_
  refine Spares.ite (fun _ => spared_fail) fun _ => ?_
  refine Spares.ite (fun none => Spares.pure ⟨none.symm, none.symm⟩) fun _ => ?_
  refine Spares.bind spared_kzalloc fun _ _ => ?_
  refine Spares.ite (fun _ => ?_) fun _ => spared_fail
  refine Spares.bind (spared_readClusters g (Nat.zero_le _) (by omega)) fun all is => ?_
  refine Spares.pure ⟨?_, rfl⟩
  rw [is, List.length_nil, Nat.zero_add]

/-! ## Any disk -/

/-- Reading a mounted volume ends, whatever is asked of it, with nothing read outside; what is read
of a file is as long as its entry has it, or an error. -/
theorem reading_ends_inside {w w' : World} (is : mount m w = (.ok v, w')) :
    ∃ enough, ∀ fuel ≥ enough, ∀ start,
      (∀ path, EndsInside v (walk m v fuel path) start) ∧
      (∀ dirCluster index, EndsInside v (readdir m v fuel dirCluster index) start) ∧
      ∀ e max, EndsInside v (readFile m v fuel e max) start ∧
        ∀ out got, (readFile m v fuel e max start).1 = .ok (out, got) →
          out.length = e.size ∧ got = e.size := by
  have g := mount_geometry is
  refine ⟨v.enough, fun fuel enough start => ⟨fun path => ?_, fun dirCluster index => ?_,
    fun e max => ⟨?_, fun out got result => ?_⟩⟩⟩
  · exact (spared_walkParts g enough v.rootCluster _).ends
  · exact (spared_readdir g enough dirCluster index).ends
  · exact (spared_readFile g enough e max).ends
  · exact (spared_readFile g enough e max start fun r here => .inl here).2.2 _ result

theorem sample_sizeFits : 512 < u32Size := by decide

theorem sample_countFits : 70000 < u64Size := by decide

def sampleMachine : Machine where
  blockSize := 512
  blockCount := 70000
  beyond := Bytes.zeros
  heap _ := true
  moves _ := true
  sizeFits := sample_sizeFits
  countFits := sample_countFits

/-- A boot sector, and nothing behind it. -/
def sampleWorld : World where
  block lba :=
    if lba = 0 then
      Bytes.zeros.copy 11 [0, 2, 1, 32, 0, 2] |>.put32 32 70000 |>.put32 36 540 |>.put32 44 2
        |>.copy 510 [0x55, 0xAA]
    else Bytes.zeros
  reads := []
  moved := 0
  asked := 0

def sampleVolume : Volume := ⟨512, 1, 512, 32, 540, 2, 1112, 68888, 2, 512⟩

theorem sample_mounts :
    mount sampleMachine sampleWorld = (.ok sampleVolume, (mount sampleMachine sampleWorld).2) := by
  have is : (mount sampleMachine sampleWorld).1.toOption = some sampleVolume := by decide +kernel
  apply Prod.ext
  · cases value : (mount sampleMachine sampleWorld).1 with
    | error e =>
      rw [value] at is
      cases is
    | ok v =>
      rw [value] at is
      cases is
      rfl
  · rfl

theorem sample_ends_inside :
    ∃ enough, ∀ fuel ≥ enough, ∀ start,
      (∀ path, EndsInside sampleVolume (walk sampleMachine sampleVolume fuel path) start) ∧
      (∀ dirCluster index,
        EndsInside sampleVolume (readdir sampleMachine sampleVolume fuel dirCluster index) start) ∧
      ∀ e max, EndsInside sampleVolume (readFile sampleMachine sampleVolume fuel e max) start ∧
        ∀ out got, (readFile sampleMachine sampleVolume fuel e max start).1 = .ok (out, got) →
          out.length = e.size ∧ got = e.size := reading_ends_inside sample_mounts

end ReconOS.Fat32
