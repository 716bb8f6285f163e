import ReconOS.Reconfs.Alloc

/-! Mounting with one superblock damaged: which of the two copies is read, and at what size. -/
namespace ReconOS.Reconfs

/-- The superblock at a byte of the medium, valid for the block size it records. -/
structure Copy (dev : BlockDevice) (c : Nat → Block) (byte : Nat) (sup : Super) : Prop where
  devPos : 0 < dev.blockSize
  divides : sup.blockSize % dev.blockSize = 0
  reads : (c (byte / dev.blockSize)).super sup.blockSize = some sup
  ok : superOk sup (dev.blockCount / (sup.blockSize / dev.blockSize)) = true

/-- None of the copies is newer. -/
def Newest (dev : BlockDevice) (c : Nat → Block) (sup : Super) : Prop :=
  ∀ byte ∈ [0, blockMax], ∀ other, Copy dev c byte other → other.epoch ≤ sup.epoch

/-- The volume mounts, and what is believed is a valid copy that none is newer than. -/
def Recovers (dev : BlockDevice) (s : St) : Prop :=
  ∃ fs t, mount dev s = (.ok fs, t) ∧ fs.Ready ∧
    (∃ byte ∈ [0, blockMax], Copy dev s.disk.contents byte fs.super ∧
      fs.liveSuper * fs.blockSize = byte) ∧
    Newest dev s.disk.contents fs.super

/-- The block size the first copy names, verified or not. -/
def named (c : Nat → Block) : Option Nat :=
  let h := (c 0).header
  if h.magic = reconfsMagic ∧ h.version = reconfsVersion ∧ blockSizeOk h.blockSize = true then
    some h.blockSize
  else none

/-- The device's blocks divide the smallest block there is, and the size that the first copy names,
where it names one, is that of a valid copy that none is newer than. -/
structure SizeSound (dev : BlockDevice) (c : Nat → Block) : Prop where
  divides : blockMin % dev.blockSize = 0
  named : ∀ bs, named c = some bs →
    ∃ byte ∈ [0, blockMax], ∃ sup, Copy dev c byte sup ∧ sup.blockSize = bs ∧ Newest dev c sup

variable {dev : BlockDevice} {c : Nat → Block} {byte bs : Nat} {sup : Super}

/-! ## Block sizes -/

theorem blockSizeOk_spec (ok : blockSizeOk bs = true) :
    blockMin ∣ bs ∧ bs ∣ blockMax ∧ 0 < bs := by
  simp only [blockSizeOk, isPow2, Bool.and_eq_true, decide_eq_true_eq, List.any_eq_true,
    List.mem_range, beq_iff_eq] at ok
  obtain ⟨⟨low, high⟩, k, -, rfl⟩ := ok
  have least : 2 ^ 12 ≤ 2 ^ k := low
  have most : 2 ^ k ≤ 2 ^ 16 := high
  have atLeast : 12 ≤ k := (Nat.pow_le_pow_iff_right (by decide)).mp least
  have atMost : k ≤ 16 := (Nat.pow_le_pow_iff_right (by decide)).mp most
  exact ⟨Nat.pow_dvd_pow 2 atLeast, Nat.pow_dvd_pow 2 atMost, Nat.two_pow_pos k⟩

/-- Where a superblock is, in the device's blocks, whatever the block size. -/
theorem superB_place (ok : blockSizeOk bs = true) (divides : dev.blockSize ∣ bs) :
    superB bs * (bs / dev.blockSize) = blockMax / dev.blockSize := by
  obtain ⟨-, whole, positive⟩ := blockSizeOk_spec ok
  rw [superB, Nat.div_mul_div_comm whole divides, Nat.mul_comm bs, Nat.mul_div_mul_right _ _ positive]

/-! ## Candidates -/

/-- The volume as the size `bs` makes it. -/
def Sizing (dev : BlockDevice) (bs : Nat) : Fs := unread dev bs (bs / dev.blockSize)

/-- What is considered at a block size is the valid copies of that size. -/
theorem candidateOf_iff (known : byte ∈ [0, blockMax]) (ok : blockSizeOk bs = true)
    (devPos : 0 < dev.blockSize) (divides : dev.blockSize ∣ bs) :
    candidateOf (Sizing dev bs) c (byte / bs) = some sup ↔
      Copy dev c byte sup ∧ sup.blockSize = bs := by
  obtain ⟨-, whole, positive⟩ := blockSizeOk_spec ok
  have place : byte / bs * (bs / dev.blockSize) = byte / dev.blockSize := by
    rcases List.mem_cons.mp known with rfl | second
    · rw [Nat.zero_div, Nat.zero_div, Nat.zero_mul]
    · rw [List.mem_singleton.mp second]
      exact superB_place ok divides
  have early : byte / bs ≤ superB bs := by
    apply Nat.div_le_div_right
    rcases List.mem_cons.mp known with rfl | second
    · exact Nat.zero_le _
    · exact Nat.le_of_eq (List.mem_singleton.mp second)
  have view : (Sizing dev bs).view c (byte / bs) = c (byte / dev.blockSize) := congrArg c place
  unfold candidateOf
  rw [Option.filter_eq_some_iff, Bool.and_eq_true, beq_iff_eq]
  constructor
  · rintro ⟨read, good, size⟩
    have size : sup.blockSize = bs := size
    refine ⟨⟨devPos, ?_, ?_, ?_⟩, size⟩
    · rw [size]
      exact Nat.mod_eq_zero_of_dvd divides
    · unfold superAt at read
      split at read
      case isTrue =>
        rw [view] at read
        rw [size]
        exact read
      case isFalse => cases read
    · rw [size]
      exact good
  · rintro ⟨copy, rfl⟩
    have good := copy.ok
    obtain ⟨-, -, -, front, root, -, -, fits⟩ := superOk_spec good
    have inside : byte / sup.blockSize < dev.blockCount / (sup.blockSize / dev.blockSize) := by
      rw [firstDataBlock] at front
      omega
    have range : checkRange dev (byte / sup.blockSize * (sup.blockSize / dev.blockSize))
        (sup.blockSize / dev.blockSize) = true := by
      have some : 0 < sup.blockSize / dev.blockSize :=
        Nat.div_pos (Nat.le_of_dvd positive divides) devPos
      have last := Nat.mul_le_mul_right (sup.blockSize / dev.blockSize) (Nat.succ_le_of_lt inside)
      have all := Nat.div_mul_le_self dev.blockCount (sup.blockSize / dev.blockSize)
      rw [Nat.succ_mul] at last
      simp only [checkRange, Bool.and_eq_true, decide_eq_true_eq]
      omega
    refine ⟨?_, good, rfl⟩
    unfold superAt
    rw [if_pos ⟨inside, range⟩, view]
    exact copy.reads

theorem blockSize_named (names : named c = some bs) : blockSizeOk bs = true := by
  unfold named at names
  dsimp only at names
  split at names
  case isTrue is =>
    cases names
    exact is.2.2
  case isFalse => cases names

theorem Copy.named (copy : Copy dev c 0 sup) : named c = some sup.blockSize := by
  have reads := copy.reads
  obtain ⟨magic, version, size, -⟩ := superOk_spec copy.ok
  rw [Nat.zero_div, Block.super, Option.map_eq_some_iff] at reads
  obtain ⟨body, -, rfl⟩ := reads
  unfold Reconfs.named
  exact if_pos ⟨magic, version, size⟩

/-- A copy is what its place holds. -/
theorem Copy.unique {other : Super} (copy : Copy dev c byte sup) (copy' : Copy dev c byte other) :
    other = sup := by
  have reads := copy.reads
  have reads' := copy'.reads
  rw [Block.super, Option.map_eq_some_iff] at reads reads'
  obtain ⟨body, is, rfl⟩ := reads
  obtain ⟨body', is', rfl⟩ := reads'
  obtain rfl : body' = body := Option.some.inj (is'.symm.trans is)
  rfl

theorem Copy.sizeOk (copy : Copy dev c byte sup) : blockSizeOk sup.blockSize = true :=
  (superOk_spec copy.ok).2.2.1

/-- A device that holds a copy holds the front of both. -/
theorem Copy.probeRange (copy : Copy dev c byte sup) (divides : dev.blockSize ∣ blockMin)
    {place : Nat} (known : place ∈ [0, blockMax]) :
    checkRange dev (place / dev.blockSize) (blockMin / dev.blockSize) = true := by
  have devPos := copy.devPos
  obtain ⟨least, whole, positive⟩ := blockSizeOk_spec copy.sizeOk
  obtain ⟨-, -, -, front, root, -, -, fits⟩ := superOk_spec copy.ok
  have far : place / dev.blockSize ≤ blockMax / dev.blockSize := by
    apply Nat.div_le_div_right
    rcases List.mem_cons.mp known with rfl | second
    · exact Nat.zero_le _
    · exact Nat.le_of_eq (List.mem_singleton.mp second)
  have small : blockMin / dev.blockSize ≤ sup.blockSize / dev.blockSize :=
    Nat.div_le_div_right (Nat.le_of_dvd positive least)
  have some : 0 < blockMin / dev.blockSize :=
    Nat.div_pos (Nat.le_of_dvd (by decide) divides) devPos
  have second := superB_place copy.sizeOk (Nat.dvd_of_mod_eq_zero copy.divides)
  have last : superB sup.blockSize + 1 ≤ dev.blockCount / (sup.blockSize / dev.blockSize) := by
    rw [firstDataBlock] at front
    omega
  have end' := Nat.mul_le_mul_right (sup.blockSize / dev.blockSize) last
  have all := Nat.div_mul_le_self dev.blockCount (sup.blockSize / dev.blockSize)
  rw [Nat.succ_mul, second] at end'
  simp only [checkRange, Bool.and_eq_true, decide_eq_true_eq]
  omega

theorem believe_newest {a b : Option Super} {s : Super} {second : Bool}
    (is : believe a b = some (s, second)) :
    (∀ x, a = some x → x.epoch ≤ s.epoch) ∧ ∀ x, b = some x → x.epoch ≤ s.epoch := by
  cases a with
  | none =>
    cases b with
    | none => cases is
    | some b =>
      cases is
      constructor
      · intro x here
        cases here
      · intro x here
        cases here
        exact Nat.le_refl _
  | some a =>
    cases b with
    | none =>
      cases is
      constructor
      · intro x here
        cases here
        exact Nat.le_refl _
      · intro x here
        cases here
    | some b =>
      rw [believe] at is
      split at is
      case isTrue older =>
        cases is
        constructor
        · intro x here
          cases here
          exact Nat.le_refl _
        · intro x here
          cases here
          exact older
      case isFalse newer =>
        cases is
        constructor
        · intro x here
          cases here
          exact Nat.le_of_lt (Nat.lt_of_not_le newer)
        · intro x here
          cases here
          exact Nat.le_refl _

/-- Of candidates there are, one is believed. -/
theorem believe_isSome {a b : Option Super} {x : Super} (is : a = some x ∨ b = some x) :
    ∃ s second, believe a b = some (s, second) := by
  cases a with
  | none =>
    obtain none | rfl := is
    · cases none
    · exact ⟨x, true, rfl⟩
  | some a =>
    cases b with
    | none => exact ⟨a, false, rfl⟩
    | some b =>
      by_cases older : b.epoch ≤ a.epoch
      · exact ⟨a, false, if_pos older⟩
      · exact ⟨b, true, if_neg older⟩

/-! ## The size that is chosen -/

/-- A probe of a copy finds its size. -/
theorem Copy.probe (copy : Copy dev c byte sup) (divides : dev.blockSize ∣ blockMin)
    (known : byte ∈ [0, blockMax]) :
    probeOf dev c (blockMin / dev.blockSize) byte = some sup.blockSize := by
  have range := copy.probeRange divides known
  have reads := copy.reads
  obtain ⟨magic, version, size, -⟩ := superOk_spec copy.ok
  rw [Block.super, Option.map_eq_some_iff] at reads
  obtain ⟨body, -, rfl⟩ := reads
  unfold probeOf
  exact if_pos ⟨range, magic, version, size⟩

/-- Where there is a copy, the first probe finds what the first block names. -/
theorem Copy.probe_first (copy : Copy dev c byte sup) (divides : dev.blockSize ∣ blockMin) :
    probeOf dev c (blockMin / dev.blockSize) 0 = Reconfs.named c := by
  have front : 0 ∈ [0, blockMax] := List.mem_cons_self ..
  have range := copy.probeRange divides front
  rw [Nat.zero_div] at range
  unfold probeOf Reconfs.named
  rw [Nat.zero_div]
  simp only [range, true_and]

/-- The size that is chosen. -/
def chosenSize (dev : BlockDevice) (c : Nat → Block) : Option Nat :=
  (probeOf dev c (blockMin / dev.blockSize) 0).or (probeOf dev c (blockMin / dev.blockSize) blockMax)

theorem mountOf_eq_some {fs : Fs} :
    mountOf dev c = some fs ↔ 0 < dev.blockSize ∧ blockMin % dev.blockSize = 0 ∧
      ∃ bs, chosenSize dev c = some bs ∧ bs % dev.blockSize = 0 ∧
        chosenOf (Sizing dev bs) c = some fs := by
  simp only [mountOf, Option.bind_eq_bind, Option.bind_eq_some_iff, sectorsPerBlock_eq_some]
  constructor
  · rintro ⟨spb, ⟨devPos, divides, rfl⟩, bs, chosen, spb', ⟨-, divides', rfl⟩, is⟩
    exact ⟨devPos, divides, bs, chosen, divides', is⟩
  · rintro ⟨devPos, divides, bs, chosen, divides', is⟩
    exact ⟨_, ⟨devPos, divides, rfl⟩, bs, chosen, _, ⟨devPos, divides', rfl⟩, is⟩

/-- A sound naming makes the chosen size that of a valid copy that none is newer than. -/
theorem SizeSound.chosen (sound : SizeSound dev c) (known : byte ∈ [0, blockMax])
    (copy : Copy dev c byte sup) :
    ∃ byte' ∈ [0, blockMax], ∃ best, Copy dev c byte' best ∧
      chosenSize dev c = some best.blockSize ∧ Newest dev c best := by
  have divides := Nat.dvd_of_mod_eq_zero sound.divides
  have first := copy.probe_first divides
  unfold chosenSize
  rw [first]
  cases size : Reconfs.named c with
  | some bs =>
    obtain ⟨byte', known', best, copy', rfl, newest⟩ := sound.named bs size
    exact ⟨byte', known', best, copy', rfl, newest⟩
  | none =>
    -- The first block names nothing, so the copy there is is the second.
    have only : ∀ place ∈ [0, blockMax], ∀ other, Copy dev c place other → place = blockMax := by
      intro place here other is
      rcases List.mem_cons.mp here with rfl | second
      · rw [is.named] at size
        cases size
      · exact List.mem_singleton.mp second
    obtain rfl := only byte known sup copy
    refine ⟨blockMax, known, sup, copy, copy.probe divides known, ?_⟩
    intro place here other is
    obtain rfl := only place here other is
    rw [copy.unique is]

/-- What is believed is a valid copy, and none of its size is newer. -/
theorem chosenOf_copy {fs : Fs} (ok : blockSizeOk bs = true) (devPos : 0 < dev.blockSize)
    (divides : dev.blockSize ∣ bs) (is : chosenOf (Sizing dev bs) c = some fs) :
    (∃ byte ∈ [0, blockMax], Copy dev c byte fs.super ∧ fs.liveSuper * fs.blockSize = byte) ∧
      fs.super.blockSize = bs ∧
      ∀ byte ∈ [0, blockMax], ∀ other, Copy dev c byte other → other.blockSize = bs →
        other.epoch ≤ fs.super.epoch := by
  obtain ⟨-, whole, positive⟩ := blockSizeOk_spec ok
  have front : (0 : Nat) ∈ [0, blockMax] := List.mem_cons_self ..
  have back : blockMax ∈ [0, blockMax] := List.mem_cons_of_mem _ (List.mem_singleton_self _)
  have first : ∀ sup, candidateOf (Sizing dev bs) c (0 / bs) = some sup ↔
      Copy dev c 0 sup ∧ sup.blockSize = bs :=
    fun _ => candidateOf_iff front ok devPos divides
  have second : ∀ sup, candidateOf (Sizing dev bs) c (blockMax / bs) = some sup ↔
      Copy dev c blockMax sup ∧ sup.blockSize = bs :=
    fun _ => candidateOf_iff back ok devPos divides
  rw [Nat.zero_div] at first
  unfold chosenOf at is
  rw [Option.map_eq_some_iff] at is
  obtain ⟨⟨best, late⟩, believed, rfl⟩ := is
  obtain ⟨early, later⟩ := believe_newest believed
  refine ⟨?_, ?_, ?_⟩
  · rcases believe_some believed with ⟨rfl, held⟩ | ⟨rfl, held⟩
    · exact ⟨0, front, ((first best).mp held).1, Nat.zero_mul _⟩
    · exact ⟨blockMax, back, ((second best).mp held).1, Nat.div_mul_cancel whole⟩
  · rcases believe_some believed with ⟨rfl, held⟩ | ⟨rfl, held⟩
    · exact ((first best).mp held).2
    · exact ((second best).mp held).2
  · intro byte known other copy size
    rcases List.mem_cons.mp known with rfl | place
    · exact early other ((first other).mpr ⟨copy, size⟩)
    · obtain rfl := List.mem_singleton.mp place
      exact later other ((second other).mpr ⟨copy, size⟩)

/-- A copy of the size chosen is enough for something to be believed. -/
theorem chosenOf_isSome (known : byte ∈ [0, blockMax]) (copy : Copy dev c byte sup) :
    ∃ fs, chosenOf (Sizing dev sup.blockSize) c = some fs := by
  have held : candidateOf (Sizing dev sup.blockSize) c (byte / sup.blockSize) = some sup :=
    (candidateOf_iff known copy.sizeOk copy.devPos
      (Nat.dvd_of_mod_eq_zero copy.divides)).mpr ⟨copy, rfl⟩
  have either : candidateOf (Sizing dev sup.blockSize) c superA = some sup ∨
      candidateOf (Sizing dev sup.blockSize) c (superB sup.blockSize) = some sup := by
    rcases List.mem_cons.mp known with rfl | place
    · rw [Nat.zero_div] at held
      exact .inl held
    · rw [List.mem_singleton.mp place] at held
      exact .inr held
  obtain ⟨best, late, believed⟩ := believe_isSome either
  exact ⟨_, Option.map_eq_some_iff.mpr ⟨(best, late), believed, rfl⟩⟩

/-! ## Recovery -/

/-- Either copy alone recovers the volume exactly where the size the first one names is that of a
newest valid copy: the size is taken before anything is verified. -/
theorem recovers_iff (ho : dev.ask.Obliging) {s : St}
    (some : ∃ byte ∈ [0, blockMax], ∃ sup, Copy dev s.disk.contents byte sup) :
    Recovers dev s ↔ SizeSound dev s.disk.contents := by
  obtain ⟨place, here, held, one⟩ := some
  constructor
  · rintro ⟨fs, t, mounts, -, ⟨byte, known, copy, -⟩, newest⟩
    have found := (mount_ok (fun n => (ho n).1) mounts).2
    obtain ⟨devPos, divides, bs, chosen, divides', is⟩ := mountOf_eq_some.mp found
    refine ⟨divides, ?_⟩
    intro named names
    have first := one.probe_first (Nat.dvd_of_mod_eq_zero divides)
    unfold chosenSize at chosen
    rw [first, names] at chosen
    cases chosen
    have size := blockSize_named names
    exact ⟨byte, known, fs.super, copy,
      (chosenOf_copy size devPos (Nat.dvd_of_mod_eq_zero divides') is).2.1, newest⟩
  · intro sound
    obtain ⟨byte, known, best, copy, chosen, newest⟩ := sound.chosen here one
    obtain ⟨fs, is⟩ := chosenOf_isSome known copy
    have found := mountOf_eq_some.mpr
      ⟨copy.devPos, sound.divides, best.blockSize, chosen, copy.divides, is⟩
    obtain ⟨t, mounts, -⟩ := mount_run ho found
    obtain ⟨believed, size, newer⟩ :=
      chosenOf_copy copy.sizeOk copy.devPos (Nat.dvd_of_mod_eq_zero copy.divides) is
    refine ⟨fs, t, mounts, (mount_ready mounts).2, believed, ?_⟩
    intro place here other valid
    exact Nat.le_trans (newest place here other valid) (newer byte known best copy rfl)

/-! ## Two images -/

/-- The superblock of a volume of 64 blocks of 4096 bytes. -/
def soundSuper : Super where
  magic := reconfsMagic
  version := reconfsVersion
  blockSize := 4096
  epoch := 1
  totalBlocks := 64
  rootInode := 17
  tableRoot := 18
  tableDepth := 0
  nextDossier := dossierFirst
  blocksUsed := 19
  label := []
  fold := foldAscii
  seekIsFree := true
  discardSupported := false
  transferHint := 0

/-- A medium whose second copy is whole, and whose first block reads as `first`. -/
def secondOnly (first : Block) : St :=
  ⟨.fresh fun lba => if lba = 16 then .ofSuper 4096 soundSuper else if lba = 0 then first else .zero,
    0, .empty⟩

theorem secondOnly_copy (first : Block) :
    Copy smallDevice (secondOnly first).disk.contents blockMax soundSuper where
  devPos := by decide
  divides := by decide
  reads := super_ofSuper 4096 soundSuper
  ok := by decide +kernel

/-- A volume whose first copy is blank is recovered from its second. -/
theorem recovers_blank :
    SizeSound smallDevice (secondOnly .zero).disk.contents ∧
      Recovers smallDevice (secondOnly .zero) := by
  have back : blockMax ∈ [0, blockMax] := List.mem_cons_of_mem _ (List.mem_singleton_self _)
  have sound : SizeSound smallDevice (secondOnly .zero).disk.contents := by
    refine ⟨by decide, ?_⟩
    intro bs names
    cases names
  exact ⟨sound, (recovers_iff granting_obliging
    ⟨blockMax, back, soundSuper, secondOnly_copy .zero⟩).mpr sound⟩

/-- What is left of a first copy that names blocks of 8192 bytes. -/
def misnamed : Block := { Block.zero with header := ⟨reconfsMagic, reconfsVersion, 8192⟩ }

/-- A first copy whose size field is damaged keeps the second from being read: it is looked for at
the size the first names. -/
theorem second_copy_lost :
    Copy smallDevice (secondOnly misnamed).disk.contents blockMax soundSuper ∧
      smallDevice.ask.Obliging ∧ (mount smallDevice (secondOnly misnamed)).1 =
        .error (.status .notReconfs) :=
  ⟨secondOnly_copy misnamed, granting_obliging, rfl⟩

end ReconOS.Reconfs
