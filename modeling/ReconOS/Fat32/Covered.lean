import ReconOS.Fat32.Laid
import ReconOS.Fat32.Alloc
import ReconOS.Fat32.Inside

/-! A volume that was laid down, and whether its table has an entry for each of its clusters. -/
namespace ReconOS.Fat32
open Gpt Lib Prog

variable {m : Machine} {v : Volume} {l : Layout} {label : Option Bytes} {zeros : Bool}
  {b : Nat → Bytes}

/-- The same machine, when nothing is refused. -/
def Machine.sound (m : Machine) : Machine :=
  { m with heap := fun _ => true, moves := fun _ => true }

/-- The blocks are a volume that is all there: it mounts, its root is empty, the root's cluster is
the end of its chain and every other is free, they count as free, and all of them can be had. -/
def Complete (m : Machine) (b : Nat → Bytes) : Prop :=
  ∃ v, Turns b (mount m.sound) (.ok v) b ∧
    (∀ fuel > 0, ∀ index, Turns b (readdir m.sound v fuel v.rootCluster index)
      (.error (.failed .notFound)) b) ∧
    (∀ c, v.ClusterOk c → ∃ n, Turns b (nextCluster m.sound v c) (.ok n) b ∧
      (c = v.rootCluster → clusterEoc ≤ n) ∧ (c ≠ v.rootCluster → n = clusterFree)) ∧
    Turns b (freeClusters m.sound v) (.ok (v.dataClusters - 1)) b ∧
    ∃ enough, ∀ fuel ≥ enough, ∃ first b',
      Turns b (allocChain m.sound v fuel (v.dataClusters - 1)) (.ok first) b'

/-- How long the volume says it is. -/
def totSec (total : Nat) : Nat := min total 0xFFFFFFFF

/-- Each sector of the table is for so many of what the reserved ones leave, rounded up: up to there it
is more than a cluster. -/
def Roomy (total bps : Nat) : Prop :=
  totSec total - 32 + clustersFor total <
    (total - 32 + (bps / 4 * clustersFor total + 1)) / (bps / 4 * clustersFor total + 2) *
      (bps / 4 * clustersFor total + 2)

instance (total bps : Nat) : Decidable (Roomy total bps) := inferInstanceAs (Decidable (_ < _))

/-- The volume that is mounted. -/
def laidVolume (m : Machine) (l : Layout) : Volume where
  bytesPerSector := m.blockSize
  sectorsPerCluster := l.spc
  bytesPerCluster := m.blockSize * l.spc
  fatStart := reservedSectors
  fatSectors := l.fatSectors
  fatCount := 2
  dataStart := reservedSectors + l.fatSectors * 2
  dataClusters := (totSec m.blockCount - (reservedSectors + l.fatSectors * 2)) / l.spc
  rootCluster := clusterFirst
  devSectorSize := m.blockSize

/-! ## Mounting it -/

/-- The first bytes are all that is looked at. -/
theorem Boot.of_congr {p q : Bytes} (same : ∀ i < 512, p i = q i) : Boot.of p = Boot.of q := by
  have two {o : Nat} (in' : o + 2 ≤ 512) : p.le16 o = q.le16 o :=
    le16_congr fun i _ _ => same i (by omega)
  have four {o : Nat} (in' : o + 4 ≤ 512) : p.le32 o = q.le32 o :=
    Bytes.le32_between fun i _ _ => same i (by omega)
  unfold Boot.of
  rw [two (by decide : 22 + 2 ≤ 512), two (by decide : 19 + 2 ≤ 512),
    two (by decide : 510 + 2 ≤ 512), two (by decide : 11 + 2 ≤ 512), same 13 (by decide),
    same 16 (by decide), two (by decide : 14 + 2 ≤ 512), two (by decide : 17 + 2 ≤ 512),
    four (by decide : 36 + 4 ≤ 512), four (by decide : 32 + 4 ≤ 512),
    four (by decide : 44 + 4 ≤ 512)]

theorem turns_mount (large : 512 ≤ m.blockSize) (some : 0 < m.blockCount)
    {r : Except Stop Volume} (boot : Turns b (mountBoot m.sound (Boot.of (b 0))) r b) :
    Turns b (mount m.sound) r b := by
  have first : Turns b m.sound.kzalloc (.ok true) b := fun w is => ⟨_, rfl, is⟩
  have read : Turns b (m.sound.blockRead 0 1) (.ok (m.bytesOf b 0)) b := by
    intro w is
    refine ⟨{ w with reads := w.reads ++ [(0, 1)], moved := w.moved + 1 }, ?_, is⟩
    unfold Machine.blockRead
    dsimp only
    rw [if_pos ⟨.inr ⟨some, Nat.le_sub_of_add_le some⟩, rfl⟩, ← is]
    rfl
  have same : Boot.of (m.sound.sector (m.bytesOf b 0)) = Boot.of (b 0) := by
    refine Boot.of_congr fun i less => ?_
    have inside : i < m.blockSize := by omega
    exact (if_pos inside).trans (bytesOf_first inside)
  unfold mount
  refine Turns.bind first ?_
  rw [if_pos rfl]
  refine Turns.bind read ?_
  rw [same]
  exact boot

/-- What is read of the boot sector of a volume laid down. -/
def laidBoot (m : Machine) (l : Layout) : Boot where
  signature := 0xAA55
  bytesPerSector := m.blockSize % 0x10000
  sectorsPerCluster := l.spc % 0x100
  fatCount := 2
  fatStart := 32
  rootEntries := 0
  fatSz := l.fatSectors % u32Size
  totSec := totSec m.blockCount
  rootCluster := 2

/-- The numbers of a volume laid down. -/
structure Numbers (m : Machine) (l : Layout) : Prop where
  large : 512 ≤ m.blockSize
  bit : OneBit m.blockSize
  sizes : Sizes m.blockCount m.blockSize l

theorem Numbers.spc (is : Numbers m l) :
    l.spc = 1 ∨ l.spc = 8 ∨ l.spc = 16 ∨ l.spc = 32 ∨ l.spc = 64 := by
  have := clustersFor_cases m.blockCount
  rw [← is.sizes.spc] at this
  omega

theorem Numbers.data (is : Numbers m l) :
    fat16MaxClusters < (laidVolume m l).dataClusters ∧
      reservedSectors + l.fatSectors * 2 + (laidVolume m l).dataClusters * l.spc ≤
        totSec m.blockCount := by
  have spc := is.spc
  have table := (is.sizes.table is.large).2
  have parts := is.sizes.parts
  have many := is.sizes.many
  have few := is.sizes.few
  have cases := clustersFor_cases m.blockCount
  rw [← is.sizes.spc] at cases
  have cut := Nat.div_mul_le_self
    (totSec m.blockCount - (reservedSectors + l.fatSectors * 2)) l.spc
  have least : fat16MaxClusters + 1 ≤ (laidVolume m l).dataClusters := by
    unfold laidVolume totSec
    dsimp only
    rw [Nat.le_div_iff_mul_le (by omega)]
    have whole := Nat.mul_le_mul_right l.spc many
    unfold fat16MaxClusters reservedSectors at *
    by_cases long : m.blockCount ≤ 0xFFFFFFFF
    · omega
    · have : l.spc = 64 := by omega
      omega
  refine ⟨least, ?_⟩
  change _ + (totSec m.blockCount - (reservedSectors + l.fatSectors * 2)) / l.spc * l.spc ≤ _
  have first : reservedSectors + l.fatSectors * 2 ≤ totSec m.blockCount := by
    apply Nat.le_of_not_lt
    intro short
    have none : (laidVolume m l).dataClusters = 0 := by
      unfold laidVolume
      dsimp only
      rw [Nat.sub_eq_zero_of_le short.le, Nat.zero_div]
    omega
  omega

theorem Numbers.volume (is : Numbers m l) (small : m.blockSize ≤ 4096) :
    (laidBoot m l).volume m.blockSize = laidVolume m l := by
  have large := is.large
  have spc := is.spc
  have table := (is.sizes.table is.large).2
  have size : m.blockSize % 0x10000 = m.blockSize := Nat.mod_eq_of_lt (by omega)
  have cluster : l.spc % 0x100 = l.spc := Nat.mod_eq_of_lt (by omega)
  have fat : l.fatSectors % u32Size = l.fatSectors :=
    Nat.mod_eq_of_lt (Nat.lt_trans table (by decide))
  have none : (0 * 32 + (m.blockSize - 1)) / m.blockSize = 0 := Nat.div_eq_of_lt (by omega)
  unfold Boot.volume Boot.dataStart laidBoot laidVolume
  dsimp only
  rw [size, cluster, fat, none, Nat.add_zero, Nat.mul_comm 2]
  rfl

theorem oneBit_spc (is : Numbers m l) : OneBit (l.spc % 0x100) := by
  rcases is.spc with same | same | same | same | same
  all_goals rw [same]; decide

theorem Numbers.fault (is : Numbers m l) (small : m.blockSize ≤ 4096) :
    (laidBoot m l).fault m.blockSize m.blockCount = none := by
  have large := is.large
  have spc := is.spc
  obtain ⟨some, table⟩ := is.sizes.table is.large
  obtain ⟨many, fits⟩ := is.data
  have size : (laidBoot m l).bytesPerSector = m.blockSize := Nat.mod_eq_of_lt (by omega)
  have cluster : (laidBoot m l).sectorsPerCluster = l.spc := Nat.mod_eq_of_lt (by omega)
  have fat : (laidBoot m l).fatSz = l.fatSectors :=
    Nat.mod_eq_of_lt (Nat.lt_trans table (by decide))
  have volume := is.volume small
  have start : (laidBoot m l).dataStart = reservedSectors + l.fatSectors * 2 :=
    congrArg Volume.dataStart volume
  have area := Nat.mul_pos (Nat.lt_of_le_of_lt (Nat.zero_le _) many) (by omega : 0 < l.spc)
  have bytes : totSec m.blockCount * m.blockSize ≤ m.blockCount * m.blockSize :=
    Nat.mul_le_mul_right _ (Nat.min_le_left ..)
  have whole : m.blockCount * m.blockSize % u64Size = m.blockCount * m.blockSize := by
    apply Nat.mod_eq_of_lt
    have few := is.sizes.few
    have last := is.sizes.last
    have top : (l.clusters + 1) * l.spc ≤ 0x10000000 * 64 := Nat.mul_le_mul few (by omega)
    have product : m.blockCount * m.blockSize ≤ 0x1000000000 * 4096 :=
      Nat.mul_le_mul (by unfold reservedSectors at last; omega) small
    unfold u64Size
    omega
  unfold Boot.fault
  simp only [guard_none, not_not]
  refine ⟨rfl, ⟨?_, ?_, ?_, ?_, ?_, (by decide : (2 : Nat) ≠ 0), Nat.le_refl 2,
    (by decide : (32 : Nat) ≠ 0), ?_, ?_⟩, ?_, ?_, ?_, ?_, ?_, trivial⟩
  · rw [size]
    exact large
  · rw [size]
    exact small
  · rw [size]
    exact is.bit
  · rw [cluster]
    omega
  · exact oneBit_spc is
  · rw [fat]
    omega
  · change totSec m.blockCount ≠ 0
    omega
  · rw [size, Nat.mod_self]
    exact not_or.mpr ⟨Nat.lt_irrefl _, fun not => not rfl⟩
  · rw [start]
    change ¬totSec m.blockCount ≤ _
    omega
  · rw [size, whole]
    exact Nat.not_lt.mpr bytes
  · rw [volume]
    exact Nat.not_le.mpr many
  · rw [volume]
    exact ⟨Nat.le_refl _, Nat.lt_of_lt_of_le (by decide : clusterFirst < fat16MaxClusters)
      (by omega)⟩

/-- A block too large for the sector's number is not what the boot sector says. -/
theorem laidBoot_refused (m : Machine) (l : Layout) (large : 4096 < m.blockSize) :
    (laidBoot m l).fault m.blockSize m.blockCount ≠ none := by
  unfold Boot.fault
  simp only [guard_none, ne_eq, not_and]
  intro _ sane blocks
  have small : m.blockSize % 0x10000 ≤ 4096 := (not_not.mp sane).2.1
  have same : ¬m.blockSize % 0x10000 < m.blockSize := fun less => blocks (.inl less)
  have := Nat.mod_le m.blockSize 0x10000
  omega

/-- It mounts, exactly where a sector can be as long as a block of the device. -/
theorem mounts_iff (is : Numbers m l) (laid : Laid m zeros l label b) :
    Turns b (mount m.sound) (.ok v) b ↔ m.blockSize ≤ 4096 ∧ v = laidVolume m l := by
  have large := is.large
  have some : 0 < m.blockCount := by
    have := is.sizes.parts
    unfold reservedSectors at this
    omega
  have boot : Boot.of (b 0) = laidBoot m l := by
    rw [laid.boot]
    exact boot_of_bootSector ..
  constructor
  · intro mounts
    by_cases small : m.blockSize ≤ 4096
    · have here : Turns b (mount m.sound) (.ok (laidVolume m l)) b := by
        refine turns_mount large some ?_
        rw [boot, mountBoot, show (laidBoot m l).fault m.sound.blockSize m.sound.blockCount = _ from
          is.fault small]
        rw [← is.volume small]
        exact Turns.pure
      cases mounts.unique here
      exact ⟨small, rfl⟩
    · obtain ⟨s, fault⟩ := Option.ne_none_iff_exists'.mp
        (laidBoot_refused m l (Nat.lt_of_not_le small))
      have here : Turns b (mount m.sound) (.error (.failed s)) b := by
        refine turns_mount large some ?_
        rw [boot, mountBoot,
          show (laidBoot m l).fault m.sound.blockSize m.sound.blockCount = _ from fault]
        exact turns_fail
      cases mounts.unique here
  · rintro ⟨small, rfl⟩
    refine turns_mount large some ?_
    rw [boot, mountBoot, show (laidBoot m l).fault m.sound.blockSize m.sound.blockCount = _ from
      is.fault small, ← is.volume small]
    exact Turns.pure

/-! ## Its table -/

theorem Numbers.plain (is : Numbers m l) : Plain m.sound (laidVolume m l) := by
  have parts := is.sizes.parts
  constructor
  case heap => exact fun _ => rfl
  case moves => exact fun _ => rfl
  case sector => rfl
  case block => rfl
  case large => exact is.large
  case two => rfl
  case fits => exact Nat.le_trans (Nat.le_add_right _ _) parts

theorem Laid.agree (laid : Laid m zeros l label b) : Agree m.sound (laidVolume m l) b := by
  intro s less i _
  change s < l.fatSectors at less
  change b (reservedSectors + s) i = b (reservedSectors + l.fatSectors + s) i
  have head := laid.head 0 (by decide)
  have head' := laid.head 1 (by decide)
  have fill := laid.fill 0 (by decide) s
  have fill' := laid.fill 1 (by decide) s
  rw [Nat.zero_mul, Nat.add_zero] at head fill
  rw [Nat.one_mul] at head' fill'
  by_cases first : s = 0
  · rw [first, Nat.add_zero, Nat.add_zero, head, head']
  · rw [fill (by omega) less, fill' (by omega) less]

theorem tableHead_root : tableHead.le32 (2 * 4) % clusterNumbers = 0x0FFFFFFF := by
  unfold tableHead
  rw [Bytes.le32_put32]
  decide

theorem tableHead_first : tableHead.le32 (0 * 4) % clusterNumbers = 0x0FFFFFF8 := by
  unfold tableHead
  rw [Bytes.le32_put32_of_apart (by decide), Bytes.le32_put32_of_apart (by decide),
    Bytes.le32_put32]
  decide

theorem zeros_le32 (o : Nat) : Bytes.zeros.le32 o = 0 := rfl

theorem tableHead_rest {k : Nat} (later : 3 ≤ k) :
    tableHead.le32 (k * 4) % clusterNumbers = clusterFree := by
  unfold tableHead
  rw [Bytes.le32_put32_of_apart (by omega), Bytes.le32_put32_of_apart (by omega),
    Bytes.le32_put32_of_apart (by omega), zeros_le32]
  rfl

/-- How many entries stand in a sector, and that more than the first three do. -/
theorem Numbers.perSector (is : Numbers m l) : 128 ≤ (laidVolume m l).perSector := by
  have large := is.large
  change 128 ≤ m.blockSize / 4
  omega

theorem Laid.entry_root (is : Numbers m l) (laid : Laid m zeros l label b) :
    (laidVolume m l).entry b clusterFirst = 0x0FFFFFFF := by
  have many := is.perSector
  have less : clusterFirst < (laidVolume m l).perSector := Nat.lt_of_lt_of_le (by decide) many
  have head := laid.head 0 (by decide)
  rw [Nat.zero_mul, Nat.add_zero] at head
  unfold Volume.entry
  rw [Nat.div_eq_of_lt less, Nat.mod_eq_of_lt less, Nat.add_zero]
  change (b reservedSectors).le32 _ % _ = _
  rw [head]
  exact tableHead_root

/-- Past the root an entry is free, where the sector is one that was zeroed. -/
theorem Laid.entry_rest (is : Numbers m l) (laid : Laid m true l label b) {c : Nat}
    (later : clusterFirst < c)
    (low : c / (laidVolume m l).perSector < (laidVolume m l).fatSectors) :
    (laidVolume m l).entry b c = clusterFree := by
  have many := is.perSector
  have head := laid.head 0 (by decide)
  have fill := laid.fill 0 (by decide)
  rw [Nat.zero_mul, Nat.add_zero] at head fill
  unfold Volume.entry
  by_cases first : c < (laidVolume m l).perSector
  · rw [Nat.div_eq_of_lt first, Nat.mod_eq_of_lt first, Nat.add_zero]
    change (b reservedSectors).le32 _ % _ = _
    rw [head]
    exact tableHead_rest later
  · have next : 0 < c / (laidVolume m l).perSector :=
      Nat.div_pos (Nat.le_of_not_lt first) (by omega)
    change (b (reservedSectors + _)).le32 _ % _ = _
    rw [fill _ next low]
    rfl

/-- There is an entry for the last cluster exactly where there is room for more than one. -/
theorem Numbers.roomy_iff (is : Numbers m l) :
    Roomy m.blockCount m.blockSize ↔
      ((laidVolume m l).dataClusters + 1) / (laidVolume m l).perSector <
        (laidVolume m l).fatSectors := by
  have spc := is.spc
  have pos : 0 < l.spc := by omega
  have per := is.perSector
  obtain ⟨many, fits⟩ := is.data
  have some := Nat.mul_pos (Nat.lt_of_le_of_lt (Nat.zero_le _) many) pos
  have table := (is.sizes.table is.large).1
  have entries := Nat.mul_pos table (by omega : 0 < (laidVolume m l).perSector)
  have cells : l.fatSectors * denom l.spc m.blockSize =
      l.fatSectors * (laidVolume m l).perSector * l.spc + l.fatSectors * 2 := by
    change l.fatSectors * ((laidVolume m l).perSector * l.spc + 2) = _
    rw [Nat.mul_add, Nat.mul_assoc]
  have div : (laidVolume m l).dataClusters < l.fatSectors * (laidVolume m l).perSector - 1 ↔
      totSec m.blockCount - (reservedSectors + l.fatSectors * 2) <
        (l.fatSectors * (laidVolume m l).perSector - 1) * l.spc :=
    Nat.div_lt_iff_lt_mul pos
  rw [Nat.sub_mul, Nat.one_mul] at div
  have least : l.spc ≤ l.fatSectors * (laidVolume m l).perSector * l.spc :=
    Nat.le_mul_of_pos_left _ entries
  rw [Nat.div_lt_iff_lt_mul (by omega)]
  change _ ↔ _ < l.fatSectors * _
  have ceil := is.sizes.ceil
  have least_ := is.sizes.least
  have whole : (m.blockCount - 32 + (m.blockSize / 4 * l.spc + 1)) / (m.blockSize / 4 * l.spc + 2) =
      l.fatSectors := by
    apply Nat.div_eq_of_lt_le
    · change l.fatSectors * denom l.spc m.blockSize ≤ _
      have each : denom l.spc m.blockSize = m.blockSize / 4 * l.spc + 2 := rfl
      unfold reservedSectors at least_
      omega
    · change _ < (l.fatSectors + 1) * denom l.spc m.blockSize
      have each : denom l.spc m.blockSize = m.blockSize / 4 * l.spc + 2 := rfl
      rw [Nat.succ_mul]
      unfold reservedSectors at ceil
      omega
  unfold Roomy
  rw [← is.sizes.spc, whole]
  change _ < l.fatSectors * denom l.spc m.blockSize ↔ _
  rw [cells]
  unfold reservedSectors at *
  omega

theorem Numbers.covered (is : Numbers m l) (roomy : Roomy m.blockCount m.blockSize) {c : Nat}
    (ok : (laidVolume m l).ClusterOk c) :
    c / (laidVolume m l).perSector < (laidVolume m l).fatSectors := by
  have last := ok.2
  unfold clusterFirst at last
  exact Nat.lt_of_le_of_lt (Nat.div_le_div_right (by omega)) (is.roomy_iff.mp roomy)

/-- Past the table there is no entry to read. -/
theorem turns_next_past {c : Nat} (ok : v.ClusterOk c) (past : v.fatSectors ≤ c / v.perSector) :
    Turns b (nextCluster m v c) (.error (.failed .corrupt)) b := by
  unfold nextCluster
  rw [if_neg (not_not.mpr ok), if_pos past]
  exact turns_fail

/-! ## Its root -/

theorem Laid.readdir (is : Numbers m l) (laid : Laid m zeros l label b) {fuel : Nat}
    (some : 0 < fuel) (index : Nat) :
    Turns b (readdir m.sound (laidVolume m l) fuel clusterFirst index)
      (.error (.failed .notFound)) b := by
  obtain ⟨fuel, rfl⟩ : ∃ k, fuel = k + 1 := ⟨fuel - 1, by omega⟩
  have plain := is.plain
  have spc := is.spc
  obtain ⟨many, fits⟩ := is.data
  have root : (laidVolume m l).ClusterOk clusterFirst := by
    unfold fat16MaxClusters at many
    exact ⟨Nat.le_refl _, by omega⟩
  have place : (laidVolume m l).clusterToSector clusterFirst =
      reservedSectors + l.fatSectors * 2 := by
    unfold Volume.clusterToSector
    rw [Nat.sub_self, Nat.zero_mul]
    rfl
  have one : l.spc ≤ (laidVolume m l).dataClusters * l.spc :=
    Nat.le_mul_of_pos_left _ (Nat.lt_of_le_of_lt (Nat.zero_le _) many)
  have inside : totSec m.blockCount ≤ m.blockCount := Nat.min_le_left ..
  have read : Turns b (loadCluster m.sound (laidVolume m l) clusterFirst)
      (.ok (m.sound.bytesOf b (reservedSectors + l.fatSectors * 2))) b := by
    unfold loadCluster
    rw [if_neg (not_not.mpr root), place]
    refine plain.read ?_ ?_
    · change 0 < l.spc
      omega
    · change _ + l.spc ≤ m.blockCount
      omega
  have blank : m.sound.bytesOf b (reservedSectors + l.fatSectors * 2) 0 = entryFree := by
    have large := is.large
    rw [bytesOf_first (by change 0 < m.blockSize; omega)]
    have zero := laid.root 0 (by omega)
    rw [Nat.add_zero] at zero
    rw [zero]
    rfl
  have room : 0 + dirSize ≤ (laidVolume m l).bytesPerCluster := by
    have large := is.large
    change 32 ≤ m.blockSize * l.spc
    have := Nat.le_mul_of_pos_right m.blockSize (by omega : 0 < l.spc)
    omega
  obtain ⟨buf, buf_eq⟩ : ∃ buf, buf = m.sound.bytesOf b (reservedSectors + l.fatSectors * 2) :=
    ⟨_, rfl⟩
  rw [← buf_eq] at read blank
  let w : DirWalk := ⟨clusterFirst, Bytes.zeros, 0, false, 0⟩
  let w₁ : DirWalk := ⟨clusterFirst, buf, 0, true, 0⟩
  have load : Turns b (walkLoad m.sound (laidVolume m l) w) (.ok w₁) b := by
    unfold walkLoad
    rw [if_neg Bool.false_ne_true]
    exact Turns.bind read Turns.pure
  have record : Turns b (walkNext m.sound (laidVolume m l) (fuel + 1) w)
      (.ok (fun i => buf (0 + i), { w₁ with offset := 0 + dirSize })) b := by
    unfold walkNext
    refine Turns.bind load ?_
    rw [if_pos room]
    exact Turns.pure
  have ended : readRecord .none (fun i => buf (0 + i)) = .ended := if_pos blank
  have first : Turns b (nextEntry m.sound (laidVolume m l) (fuel + 1) .none w)
      (.error (.failed .notFound)) b := by
    unfold nextEntry
    refine Turns.bind record ?_
    dsimp only
    rw [ended]
    exact turns_fail
  have begins : Turns b (walkBegin m.sound (laidVolume m l) clusterFirst) (.ok w) b :=
    Turns.bind plain.kzalloc Turns.pure
  unfold Fat32.readdir
  refine Turns.bind begins ?_
  cases index with
  | zero => exact Turns.bind_error first
  | succ index => exact Turns.bind_error first

/-! ## What is free of it -/

theorem countP_range (n low high : Nat) :
    ((List.range n).countP fun i => low ≤ i ∧ i < high) = min n high - low := by
  induction n with
  | zero => simp
  | succ n ih =>
    rw [List.range_succ, List.countP_append, ih, List.countP_singleton]
    by_cases inside : low ≤ n ∧ n < high
    · rw [if_pos (decide_eq_true inside)]
      omega
    · rw [if_neg (by simpa using inside)]
      omega

/-- The entries of a volume whose table is whole: the root is in use, and nothing else. -/
structure Whole (m : Machine) (v : Volume) (b : Nat → Bytes) : Prop where
  plain : Plain m v
  agree : Agree m v b
  cells : 3 ≤ v.perSector
  many : v.perSector ≤ v.dataClusters
  covered : v.dataClusters + clusterFirst ≤ v.fatSectors * v.perSector
  root : v.entry b clusterFirst = 0x0FFFFFFF
  rest : ∀ c, v.ClusterOk c → c ≠ clusterFirst → v.entry b c = clusterFree

theorem Whole.freeAt (is : Whole m v b) {sector i : Nat} (less : i < v.perSector) :
    FreeAt v (m.bytesOf b (v.fatStart + sector)) (sector * v.perSector) i ↔
      3 ≤ sector * v.perSector + i ∧
        sector * v.perSector + i < v.dataClusters + clusterFirst := by
  have some : 0 < v.perSector := by omega
  have place : (sector * v.perSector + i) / v.perSector = sector := by
    rw [Nat.mul_comm, Nat.mul_add_div some, Nat.div_eq_of_lt less, Nat.add_zero]
  have index : (sector * v.perSector + i) % v.perSector = i := by
    rw [Nat.mul_comm, Nat.mul_add_mod, Nat.mod_eq_of_lt less]
  have within := is.plain.within i
  rw [Nat.mod_eq_of_lt less] at within
  have entry : v.entry b (sector * v.perSector + i) =
      (m.bytesOf b (v.fatStart + sector)).le32 (i * 4) % clusterNumbers := by
    unfold Volume.entry
    rw [place, index, le32_bytesOf within]
  unfold FreeAt
  rw [← entry]
  constructor
  · rintro ⟨first, last, free⟩
    refine ⟨?_, last⟩
    have other : sector * v.perSector + i ≠ clusterFirst := by
      intro root
      rw [root, is.root] at free
      cases free
    unfold clusterFirst at first other
    omega
  · rintro ⟨first, last⟩
    have later : clusterFirst ≤ sector * v.perSector + i := Nat.le_of_lt first
    exact ⟨later, last, is.rest _ ⟨later, last⟩ (Nat.ne_of_gt first)⟩

theorem Whole.count (is : Whole m v b) (sector : Nat) :
    ((List.range v.perSector).countP fun i =>
      FreeAt v (m.bytesOf b (v.fatStart + sector)) (sector * v.perSector) i) =
      min v.perSector (v.dataClusters + clusterFirst - sector * v.perSector) -
        (3 - sector * v.perSector) := by
  rw [← countP_range]
  refine List.countP_congr fun i inside => ?_
  rw [decide_eq_true_iff, decide_eq_true_iff, is.freeAt (List.mem_range.mp inside)]
  omega

/-- From a sector past the first on, every cluster counts. -/
theorem Whole.countFree (is : Whole m v b) {left sector : Nat} (free : Nat) (past : 0 < sector)
    (all : sector + left = v.fatSectors) :
    Turns b (countFree m v left sector free)
      (.ok (free + (v.dataClusters + clusterFirst - sector * v.perSector))) b := by
  have covered := is.covered
  have cells := is.cells
  induction left generalizing sector free with
  | zero =>
    rw [Nat.add_zero] at all
    unfold Fat32.countFree
    rw [← all] at covered
    rw [Nat.sub_eq_zero_of_le covered]
    exact Turns.pure
  | succ left ih =>
    have first : v.perSector ≤ sector * v.perSector := Nat.le_mul_of_pos_left _ past
    unfold Fat32.countFree
    dsimp only
    by_cases done : v.dataClusters + clusterFirst ≤ sector * v.perSector
    · rw [if_pos done, Nat.sub_eq_zero_of_le done]
      exact Turns.pure
    · rw [if_neg done]
      refine Turns.bind (is.plain.fatSector is.agree (by omega)) ?_
      have rest := ih (free + ((List.range v.perSector).countP fun i =>
        FreeAt v (m.bytesOf b (v.fatStart + sector)) (sector * v.perSector) i))
        (Nat.succ_pos sector) (by omega)
      have sum : free + ((List.range v.perSector).countP fun i =>
          FreeAt v (m.bytesOf b (v.fatStart + sector)) (sector * v.perSector) i) +
          (v.dataClusters + clusterFirst - (sector + 1) * v.perSector) =
          free + (v.dataClusters + clusterFirst - sector * v.perSector) := by
        rw [is.count, Nat.succ_mul]
        omega
      rwa [sum] at rest

theorem Whole.freeClusters (is : Whole m v b) :
    Turns b (freeClusters m v) (.ok (v.dataClusters - 1)) b := by
  have covered := is.covered
  have cells := is.cells
  have many := is.many
  have some : 0 < v.fatSectors := by
    apply Nat.pos_of_ne_zero
    intro none
    rw [none, Nat.zero_mul] at covered
    unfold clusterFirst at covered
    omega
  obtain ⟨left, more⟩ : ∃ left, v.fatSectors = left + 1 := ⟨v.fatSectors - 1, by omega⟩
  unfold Fat32.freeClusters
  refine Turns.bind is.plain.kzalloc (Turns.bind is.plain.kzalloc ?_)
  rw [if_pos (Bool.and_self true), more]
  unfold Fat32.countFree
  dsimp only
  rw [if_neg (by unfold clusterFirst; omega)]
  refine Turns.bind (is.plain.fatSector is.agree some) ?_
  have rest := is.countFree (0 + (List.range v.perSector).countP fun i =>
    FreeAt v (m.bytesOf b (v.fatStart + 0)) (0 * v.perSector) i) (by decide : 0 < 1)
    (by omega : 1 + left = v.fatSectors)
  have sum : 0 + ((List.range v.perSector).countP fun i =>
      FreeAt v (m.bytesOf b (v.fatStart + 0)) (0 * v.perSector) i) +
      (v.dataClusters + clusterFirst - 1 * v.perSector) = v.dataClusters - 1 := by
    rw [is.count, Nat.zero_mul, Nat.one_mul]
    unfold clusterFirst
    omega
  rwa [sum] at rest

/-- All of it but the root can be had. -/
theorem Whole.allocChain (is : Whole m v b) {fuel : Nat} (enough : v.dataClusters + 2 ≤ fuel) :
    ∃ first b', Turns b (allocChain m v fuel (v.dataClusters - 1)) (.ok first) b' := by
  have cells := is.cells
  have many := is.many
  have covered : ∀ c, v.ClusterOk c → c / v.perSector < v.fatSectors := fun c ok => by
    rw [Nat.div_lt_iff_lt_mul (by omega)]
    exact Nat.lt_of_lt_of_le ok.2 is.covered
  have ok : v.ClusterOk clusterFirst := ⟨Nat.le_refl _, by omega⟩
  have from_ : FreeFrom m v b (clusterFirst + 1) :=
    ⟨is.agree, covered, fun c ok later => is.rest c ok (by omega)⟩
  obtain ⟨fuel, rfl⟩ : ∃ k, fuel = k + 1 := ⟨fuel - 1, by omega⟩
  have next := is.plain.nextCluster is.agree ok (covered _ ok)
  rw [is.root] at next
  obtain ⟨got, b', rest⟩ := @Plain.allocFrom m v b is.plain (v.dataClusters - 1) fuel
    (clusterFirst + 1) 0 0 0 from_ (Nat.le_succ _) (.inl rfl) (by unfold clusterFirst; omega)
    (by omega)
  refine ⟨got, b', ?_⟩
  unfold Fat32.allocChain
  rw [if_neg (by omega)]
  unfold Fat32.allocFrom
  rw [if_neg (by omega), if_neg (not_not.mpr ok)]
  refine Turns.bind next ?_
  rw [if_pos (by decide)]
  exact rest

/-! ## All of it -/

theorem Numbers.whole (is : Numbers m l) (laid : Laid m true l label b)
    (small : m.blockSize ≤ 4096) (roomy : Roomy m.blockCount m.blockSize) :
    Whole m.sound (laidVolume m l) b := by
  have per := is.perSector
  have many := is.data.1
  constructor
  case plain => exact is.plain
  case agree => exact laid.agree
  case cells => omega
  case many =>
    have size : (laidVolume m l).perSector = m.blockSize / 4 := rfl
    unfold fat16MaxClusters at many
    omega
  case covered =>
    have covered := is.roomy_iff.mp roomy
    rw [Nat.div_lt_iff_lt_mul (by omega)] at covered
    exact covered
  case root => exact laid.entry_root is
  case rest =>
    intro c ok other
    have first := ok.1
    exact laid.entry_rest is (by omega) (is.covered roomy ok)

/-- A volume laid down is all there exactly where the device's blocks can be a volume's sectors,
there was memory for the chunk of zeroes, and the table has room. -/
theorem complete_iff (is : Numbers m l) (laid : Laid m zeros l label b) :
    Complete m b ↔
      m.blockSize ≤ 4096 ∧ zeros = true ∧ Roomy m.blockCount m.blockSize := by
  have per := is.perSector
  have many := is.data.1
  constructor
  · rintro ⟨v, mounts, -, next, -, -⟩
    obtain ⟨small, rfl⟩ := (mounts_iff is laid).mp mounts
    have size : (laidVolume m l).perSector = m.blockSize / 4 := rfl
    unfold fat16MaxClusters at many
    refine ⟨small, ?_, ?_⟩
    · -- The first entry of the second sector is free only if that was cleared.
      cases zeros with
      | true => rfl
      | false =>
        have ok : (laidVolume m l).ClusterOk (laidVolume m l).perSector := by
          unfold Volume.ClusterOk clusterFirst
          omega
        have one : (laidVolume m l).perSector / (laidVolume m l).perSector = 1 :=
          Nat.div_self (by omega)
        obtain ⟨n, runs, -, free⟩ := next _ ok
        have zero := free (by change _ ≠ 2; omega)
        by_cases low : 1 < (laidVolume m l).fatSectors
        · have reads := is.plain.nextCluster laid.agree ok (one ▸ low)
          cases runs.unique reads
          have fill := laid.fill 0 (by decide) 1 (by decide) low
          rw [Nat.zero_mul, Nat.add_zero] at fill
          unfold Volume.entry at zero
          rw [one, Nat.mod_self] at zero
          change (b (reservedSectors + 1)).le32 _ % _ = _ at zero
          rw [fill] at zero
          rw [show (fillOf false).le32 (0 * 4) % clusterNumbers = _ from tableHead_first] at zero
          cases zero
        · have past := turns_next_past (m := m.sound) (b := b) ok (one ▸ Nat.le_of_not_lt low)
          cases runs.unique past
    · rw [is.roomy_iff]
      apply Nat.lt_of_not_le
      intro short
      have ok : (laidVolume m l).ClusterOk ((laidVolume m l).dataClusters + 1) := by
        unfold Volume.ClusterOk clusterFirst
        omega
      obtain ⟨n, runs, -, -⟩ := next _ ok
      cases runs.unique (turns_next_past (m := m.sound) (b := b) ok short)
  · rintro ⟨small, rfl, roomy⟩
    have whole := is.whole laid small roomy
    refine ⟨laidVolume m l, (mounts_iff is laid).mpr ⟨small, rfl⟩, ?_, ?_, whole.freeClusters,
      (laidVolume m l).dataClusters + 2, fun fuel enough => whole.allocChain enough⟩
    · intro fuel some index
      exact laid.readdir is some index
    · intro c ok
      refine ⟨_, whole.plain.nextCluster whole.agree ok (is.covered roomy ok), ?_, ?_⟩
      · rintro rfl
        rw [show (laidVolume m l).entry b (laidVolume m l).rootCluster = _ from whole.root]
        decide
      · exact whole.rest c ok

/-- What `fat32_format` leaves when it says all is well is a volume with an entry for every cluster,
exactly under those conditions. -/
theorem formatted_complete {fuel : Nat} {w w' : World}
    (is : format m fuel label w = (.ok (), w')) :
    Complete m w'.block ↔ m.blockSize ≤ 4096 ∧ m.heap (w.asked + 1) = true ∧
      Roomy m.blockCount m.blockSize := by
  obtain ⟨large, bit, l, sizes, laid⟩ := format_ok is
  exact complete_iff ⟨large, bit, sizes⟩ laid

theorem format_of_ok {fuel : Nat} {w : World}
    (is : (format m fuel label w).1.toOption = some ()) :
    format m fuel label w = (.ok (), (format m fuel label w).2) := by
  apply Prod.ext
  · cases value : (format m fuel label w).1 with
    | error e =>
      rw [value] at is
      cases is
    | ok u => rfl
  · rfl

theorem sample_complete :
    Complete sampleMachine (format sampleMachine 10 none sampleWorld).2.block ↔
      sampleMachine.blockSize ≤ 4096 ∧ sampleMachine.heap (sampleWorld.asked + 1) = true ∧
        Roomy sampleMachine.blockCount sampleMachine.blockSize :=
  formatted_complete (format_of_ok (by decide +kernel))

theorem exact_countFits : 66592 < u64Size := by decide

/-- A device whose size is just what so many sectors of the table are for. -/
def exactMachine : Machine where
  blockSize := 512
  blockCount := 66592
  beyond := Bytes.zeros
  heap _ := true
  moves _ := true
  sizeFits := sample_sizeFits
  countFits := exact_countFits

/-- It is formatted, and the last two clusters have no entry. -/
theorem last_clusters_lost : ∃ w', format exactMachine 10 none sampleWorld = (.ok (), w') ∧
    ¬Complete exactMachine w'.block := by
  have ok : format exactMachine 10 none sampleWorld =
      (.ok (), (format exactMachine 10 none sampleWorld).2) := format_of_ok (by decide +kernel)
  refine ⟨_, ok, fun all => ?_⟩
  obtain ⟨large, bit, l, sizes, laid⟩ := format_ok ok
  exact absurd ((complete_iff ⟨large, bit, sizes⟩ laid).mp all).2.2 (by decide)

end ReconOS.Fat32
