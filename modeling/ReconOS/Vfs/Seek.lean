import ReconOS.Vfs.File

/-! Where a seek lands, whatever the offset and the origin. -/
namespace ReconOS.Vfs

variable {f : DiskFile} {offset : Int} {from_ : Nat} {o : From} {calls : List FileCall}

/-! ## What a program does with a descriptor -/

inductive FileCall where
  | read (len : Nat)
  | write (bytes : List Nat)
  | seek (offset : Int64) (from_ : Nat)

/-- What a call leaves of the file. -/
def DiskFile.after (f : DiskFile) : FileCall → DiskFile
  | .read len => (f.read len).2
  | .write bytes => f.write bytes
  | .seek offset from_ => (diskSeek f offset.toInt from_).2

/-! ## What is to hold -/

/-- It returns the position that the origin and the offset come to, which is in the file, and is
there; or it returns an error and is where it was. -/
def Lands (f : DiskFile) (offset : Int) (from_ : Nat) : Prop :=
  (∃ o ∈ origin from_, (diskSeek f offset from_).1 = f.base o + offset ∧
    0 ≤ f.base o + offset ∧ f.base o + offset ≤ vfsFileMax ∧
    ((diskSeek f offset from_).2.pos : Int) = f.base o + offset) ∨
  (diskSeek f offset from_).1 < 0 ∧ (diskSeek f offset from_).2.pos = f.pos

/-- The origin and the offset come to no more than an `i64` has. -/
def Sums (f : DiskFile) (offset : Int) (from_ : Nat) : Prop :=
  ∀ o ∈ origin from_, f.base o + offset < i64Size

/-- Every seek of a run does. -/
def EverySeek (P : DiskFile → Int → Nat → Prop) : DiskFile → List FileCall → Prop
  | _, [] => True
  | f, call :: rest =>
    (match call with
      | .seek offset from_ => P f offset.toInt from_
      | .read _ | .write _ => True) ∧ EverySeek P (f.after call) rest

instance : Decidable (Lands f offset from_) :=
  inferInstanceAs (Decidable ((∃ o ∈ origin from_, _ ∧ _) ∨ _ ∧ _))

instance : Decidable (Sums f offset from_) := inferInstanceAs (Decidable (∀ o ∈ origin from_, _))

/-! ## One seek -/

/-- The position and the length are inside the buffer. -/
def Inside (f : DiskFile) : Prop := f.pos ≤ vfsFileMax ∧ f.len ≤ vfsFileMax

theorem Inside.base (inside : Inside f) (o : From) : 0 ≤ f.base o ∧ f.base o ≤ vfsFileMax := by
  obtain ⟨pos, len⟩ := inside
  cases o with
  | start => exact ⟨Int.le_refl 0, Int.natCast_nonneg vfsFileMax⟩
  | here => exact ⟨Int.natCast_nonneg f.pos, Int.ofNat_le.2 pos⟩
  | «end» => exact ⟨Int.natCast_nonneg f.len, Int.ofNat_le.2 len⟩

/-- A number that an `i64` has is the one that it holds. -/
theorem bmod_i64 {x : Int} (low : -i64Size ≤ x) (high : x < i64Size) : x.bmod u64Size = x := by
  unfold i64Size at low high
  unfold u64Size
  rw [Int.bmod_def]
  split <;> omega

/-- One past the greatest is a negative number. -/
theorem bmod_past {x : Int} (low : i64Size ≤ x) (high : x < 2 * i64Size) :
    x.bmod u64Size < 0 := by
  unfold i64Size at low high
  unfold u64Size
  rw [Int.bmod_def]
  split <;> omega

theorem einval_neg : sysEinval < 0 := by decide

theorem diskSeek_other (other : origin from_ = none) :
    diskSeek f offset from_ = (sysEinval, f) := by
  unfold diskSeek
  rw [other]

theorem diskSeek_before (inside : Inside f) (known : origin from_ = some o)
    (before : f.base o + offset < 0) : diskSeek f offset from_ = (sysEinval, f) := by
  obtain ⟨low, high⟩ := inside.base o
  unfold vfsFileMax at high
  have small : f.base o < i64Size := by
    unfold i64Size
    omega
  unfold diskSeek
  rw [known]
  dsimp only
  rw [bmod_i64 (by unfold i64Size; omega) small, bmod_i64 (by omega) (by unfold i64Size; omega)]
  exact if_pos (by omega)

theorem diskSeek_after (inside : Inside f) (known : origin from_ = some o)
    (after : vfsFileMax < f.base o + offset) (sums : f.base o + offset < i64Size) :
    diskSeek f offset from_ = (sysEinval, f) := by
  obtain ⟨low, high⟩ := inside.base o
  unfold vfsFileMax at high after
  have small : f.base o < i64Size := by
    unfold i64Size
    omega
  unfold diskSeek
  rw [known]
  dsimp only
  rw [bmod_i64 (by unfold i64Size; omega) small, bmod_i64 (by omega) (by unfold i64Size; omega),
    bmod_i64 (by unfold i64Size; omega) sums, if_neg (by omega)]
  exact if_pos (by unfold vfsFileMax; omega)

theorem diskSeek_inside (inside : Inside f) (known : origin from_ = some o)
    (start : 0 ≤ f.base o + offset) (stop : f.base o + offset ≤ vfsFileMax) :
    diskSeek f offset from_ =
      (f.base o + offset, { f with pos := (f.base o + offset).toNat }) := by
  obtain ⟨low, high⟩ := inside.base o
  unfold vfsFileMax at high stop
  have small : f.base o < i64Size := by
    unfold i64Size
    omega
  unfold diskSeek
  rw [known]
  dsimp only
  rw [bmod_i64 (by unfold i64Size; omega) small, bmod_i64 (by omega) (by unfold i64Size; omega),
    bmod_i64 (by unfold i64Size; omega) (by unfold i64Size; omega), if_neg (by omega),
    if_neg (by unfold vfsFileMax; omega)]
  have whole : (f.base o + offset) % u64Size = f.base o + offset := by
    apply Int.emod_eq_of_lt start
    unfold u64Size
    omega
  rw [whole]

/-- One that the sum passes returns a negative number, and is at another place. -/
theorem diskSeek_past (inside : Inside f) (known : origin from_ = some o)
    (high_ : offset < i64Size) (past : i64Size ≤ f.base o + offset) :
    (diskSeek f offset from_).1 < 0 ∧ (diskSeek f offset from_).2.pos ≠ f.pos := by
  obtain ⟨low, high⟩ := inside.base o
  have there := inside.1
  unfold vfsFileMax at high there
  have small : f.base o < i64Size := by
    unfold i64Size
    omega
  have negative := bmod_past past (by omega)
  have far : vfsFileMax < ((f.base o + offset).bmod u64Size % u64Size).toNat := by
    unfold i64Size at past high_
    unfold vfsFileMax
    rw [Int.bmod_emod]
    unfold u64Size
    omega
  unfold diskSeek
  rw [known]
  dsimp only
  have forward : ¬offset < -f.base o := by
    unfold i64Size at past
    omega
  rw [bmod_i64 (by unfold i64Size; omega) small, bmod_i64 (by omega) (by unfold i64Size; omega),
    if_neg forward, if_neg (by unfold vfsFileMax; omega)]
  refine ⟨negative, ?_⟩
  intro same
  dsimp only at same
  rw [same] at far
  unfold vfsFileMax at far
  omega

/-- A seek does as it is to when what it adds is no more than an `i64` has, and only then. -/
theorem lands_iff (inside : Inside f) (high : offset < i64Size) :
    Lands f offset from_ ↔ Sums f offset from_ := by
  cases known : origin from_ with
  | none =>
    constructor
    · intro _ o mem
      cases known.symm.trans mem
    · intro _
      rw [Lands, diskSeek_other known]
      exact .inr ⟨einval_neg, rfl⟩
  | some o =>
    constructor
    · intro lands o' mem
      cases known.symm.trans mem
      by_contra past
      obtain ⟨negative, moved⟩ := diskSeek_past inside known high (Int.not_lt.1 past)
      cases lands with
      | inl at_ =>
        obtain ⟨o', mem, eq, start, -⟩ := at_
        omega
      | inr stays => exact moved stays.2
    · intro sums
      have sums := sums o known
      by_cases start : f.base o + offset < 0
      · rw [Lands, diskSeek_before inside known start]
        exact .inr ⟨einval_neg, rfl⟩
      by_cases stop : vfsFileMax < f.base o + offset
      · rw [Lands, diskSeek_after inside known stop sums]
        exact .inr ⟨einval_neg, rfl⟩
      · rw [Lands, diskSeek_inside inside known (by omega) (by omega)]
        exact .inl ⟨o, known, rfl, by omega, by omega, by dsimp only; omega⟩

theorem Inside.seek (inside : Inside f) (sums : Sums f offset from_) :
    Inside (diskSeek f offset from_).2 := by
  cases known : origin from_ with
  | none =>
    rw [diskSeek_other known]
    exact inside
  | some o =>
    have sums := sums o known
    by_cases start : f.base o + offset < 0
    · rw [diskSeek_before inside known start]
      exact inside
    by_cases stop : vfsFileMax < f.base o + offset
    · rw [diskSeek_after inside known stop sums]
      exact inside
    · rw [diskSeek_inside inside known (by omega) (by omega)]
      exact ⟨by dsimp only; omega, inside.2⟩

/-! ## The other calls -/

theorem Inside.read (inside : Inside f) (len : Nat) : Inside (f.read len).2 := by
  obtain ⟨pos, length⟩ := inside
  unfold DiskFile.read
  split
  · exact ⟨pos, length⟩
  · refine ⟨?_, length⟩
    dsimp only
    omega

theorem Inside.write (inside : Inside f) (bytes : List Nat) : Inside (f.write bytes) := by
  obtain ⟨pos, length⟩ := inside
  unfold DiskFile.write
  split
  · exact ⟨pos, length⟩
  · exact ⟨by dsimp only; omega, by dsimp only; omega⟩

/-- A file is opened with its position and its length inside. -/
theorem opened_inside {p : Process} {s : State} {path : Path} {flags mode : Nat} {a : Around}
    (opened : reconfsOpen p s path flags mode a = some f) : Inside f := by
  unfold reconfsOpen at opened
  dsimp only at opened
  split at opened
  · cases opened
  split at opened
  · cases opened
  split at opened
  · cases opened
  split at opened
  · cases opened
  split at opened
  · cases opened
    exact ⟨Nat.zero_le _, Nat.zero_le _⟩
  split at opened
  · cases opened
  · split at opened
    · cases opened
    · cases opened
      exact ⟨Nat.zero_le _, by dsimp only; omega⟩

theorem everySeek_iff (inside : Inside f) (calls : List FileCall) :
    EverySeek Lands f calls ↔ EverySeek Sums f calls := by
  induction calls generalizing f with
  | nil => exact Iff.rfl
  | cons call rest ih =>
    unfold EverySeek
    cases call with
    | read len => exact and_congr_right fun _ => ih (inside.read len)
    | write bytes => exact and_congr_right fun _ => ih (inside.write bytes)
    | seek offset from_ =>
      have one : Lands f offset.toInt from_ ↔ Sums f offset.toInt from_ :=
        lands_iff inside offset.toInt_lt
      dsimp only
      rw [one]
      exact and_congr_right fun sums => ih (inside.seek sums)

/-- Every seek of a run lands where it says or changes nothing when no sum of a run passes what an
`i64` has, and only then. -/
theorem seeks_land (p : Process) (s : State) (path : Path) (flags mode : Nat) (a : Around)
    (f : DiskFile) (opened : reconfsOpen p s path flags mode a = some f) (calls : List FileCall) :
    EverySeek Lands f calls ↔ EverySeek Sums f calls :=
  everySeek_iff (opened_inside opened) calls

/-- A file made and not yet written. -/
def blankFile : DiskFile := ⟨[47, 97], 6, 0, false, fun _ => ⟨0, none⟩, 0, 0o644, true⟩

theorem seeks_land_blank :
    EverySeek Lands blankFile [.write [1, 2, 3], .seek (-2) 1, .seek 100 2] := by
  have sums : EverySeek Sums blankFile [.write [1, 2, 3], .seek (-2) 1, .seek 100 2] :=
    ⟨trivial, by decide, by decide, trivial⟩
  exact (seeks_land ⟨1, 1, false⟩ ⟨fun _ => none, fun _ => none⟩ [47, 97] 6 0o644
    ⟨true, true, true, true⟩ blankFile rfl _).2 sums

/-- A byte written, and a seek on by as much as an `i64` can say: the file is somewhere else. -/
theorem seek_passes : ¬Lands (blankFile.after (.write [1])) 0x7fffffffffffffff 1 := by
  decide +kernel

end ReconOS.Vfs
