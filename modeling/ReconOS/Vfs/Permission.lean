import ReconOS.Vfs.File

/-! What a program may read and change through its descriptors, against what the files grant it. -/
namespace ReconOS.Vfs

variable {p : Process} {s s' : State} {n n' : Node} {path path' : Path} {f : DiskFile} {fd : Nat}
  {move : Move}

/-! ## What is to hold -/

/-- The bytes given are of files that grant reading, and the files whose contents change grant
writing. -/
def Respects (p : Process) (s s' : State) (given : List Cell) : Prop :=
  (∀ c ∈ given, ∀ path ∈ c.origin, ∃ n, s.volume path = some n ∧ n.GrantsRead p) ∧
  ∀ path n n', s.volume path = some n → s'.volume path = some n' → n'.contents ≠ n.contents →
    n.GrantsWrite p

/-- Every call of a run does. -/
def Respectful (p : Process) : State → List Move → Prop
  | _, [] => True
  | s, move :: rest =>
    Respects p s (step p s move).1 (step p s move).2 ∧ Respectful p (step p s move).1 rest

/-- What the check at open does not answer for. An open that would both create and replace a file is
not checked; nor is any by the kernel's uid, or when the volume does not answer who owns the file;
and a descriptor takes reads that it was not opened for, and, to replace a file, writes that it was
not opened for. -/
def Answered (p : Process) (s : State) : Move → Prop
  | .open path flags _ a _ =>
    ∀ n ∈ s.volume path,
      (flags.testBit openCreate = true → flags.testBit openReplace = true → n.GrantsWrite p) ∧
      (flags.testBit openCreate = false → p.uid = uidKernel ∨ a.known = false →
        (flags.testBit openRead = true → n.GrantsRead p) ∧
        (flags.testBit openWrite = true → n.GrantsWrite p))
  | .read fd _ =>
    ∀ f ∈ s.diskAt fd, f.flags.testBit openRead = false → f.flags.testBit openCreate = false →
      ∀ n ∈ s.volume f.path, n.GrantsRead p
  | .write fd _ =>
    ∀ f ∈ s.diskAt fd, f.flags.testBit openReplace = true → f.flags.testBit openWrite = false →
      f.flags.testBit openCreate = false → ∀ n ∈ s.volume f.path, n.GrantsWrite p
  | .seek .. | .create .. | .close .. => True

/-- Every call of a run is one that the check answers for. -/
def AllAnswered (p : Process) : State → List Move → Prop
  | _, [] => True
  | s, move :: rest => Answered p s move ∧ AllAnswered p (step p s move).1 rest

/-! ## The volume -/

/-- Files stay, with the mode and the owners they have. -/
def Stays (s s' : State) : Prop :=
  ∀ path n, s.volume path = some n → ∃ n', s'.volume path = some n' ∧ n'.mode = n.mode ∧
    n'.owner = n.owner ∧ n'.group = n.group

theorem Stays.refl (s : State) : Stays s s := fun _ n at_ => ⟨n, at_, rfl, rfl, rfl⟩

theorem Stays.of_volume (same : s'.volume = s.volume) : Stays s s' := by
  intro path n at_
  exact ⟨n, same ▸ at_, rfl, rfl, rfl⟩

theorem grantsRead_congr (mode : n'.mode = n.mode) (owner : n'.owner = n.owner)
    (group : n'.group = n.group) : n'.GrantsRead p ↔ n.GrantsRead p := by
  unfold Node.GrantsRead
  rw [mode, owner, group]

theorem grantsWrite_congr (mode : n'.mode = n.mode) (owner : n'.owner = n.owner)
    (group : n'.group = n.group) : n'.GrantsWrite p ↔ n.GrantsWrite p := by
  unfold Node.GrantsWrite
  rw [mode, owner, group]

theorem replaceFile_spec (s : State) (path : Path) (contents : List Nat) (commits : Bool) :
    Stays s (s.replaceFile path contents commits) ∧
      (s.replaceFile path contents commits).fds = s.fds ∧
      ∀ other n, s.volume other = some n → other ≠ path →
        (s.replaceFile path contents commits).volume other = some n := by
  unfold State.replaceFile
  split
  · rename_i n₀ at₀
    split
    · refine ⟨?_, rfl, ?_⟩
      · intro other n at_
        dsimp only
        by_cases same : other = path
        · subst same
          cases at₀.symm.trans at_
          exact ⟨_, Function.update_self .., rfl, rfl, rfl⟩
        · rw [Function.update_of_ne same]
          exact ⟨n, at_, rfl, rfl, rfl⟩
      · intro other n at_ away
        dsimp only
        rw [Function.update_of_ne away]
        exact at_
    · exact ⟨.refl s, rfl, fun _ _ at_ _ => at_⟩
  · exact ⟨.refl s, rfl, fun _ _ at_ _ => at_⟩

/-- Creating changes no file that is there. -/
theorem createFile_spec (s : State) (path : Path) (mode : Nat) (contents : List Nat) (commits : Bool) :
    (s.createFile path mode contents commits).fds = s.fds ∧
      ∀ other n, s.volume other = some n →
        (s.createFile path mode contents commits).volume other = some n := by
  unfold State.createFile
  split
  · exact ⟨rfl, fun _ _ at_ => at_⟩
  · rename_i none_
    split
    · refine ⟨rfl, fun other n at_ => ?_⟩
      dsimp only
      rw [Function.update_of_ne]
      · exact at_
      · rintro rfl
        cases none_.symm.trans at_
    · exact ⟨rfl, fun _ _ at_ => at_⟩

/-- Closing changes no file but one it replaces. -/
theorem diskClose_spec (s : State) (f : DiskFile) (commits : Bool) :
    Stays s (s.diskClose f commits) ∧ (s.diskClose f commits).fds = s.fds ∧
      ∀ path n, s.volume path = some n →
        (f.dirty = true → f.flags.testBit openReplace = true → path ≠ f.path) →
        (s.diskClose f commits).volume path = some n := by
  unfold State.diskClose
  split
  · exact ⟨.refl s, rfl, fun _ _ at_ _ => at_⟩
  rename_i dirty
  split
  · rename_i replaces
    obtain ⟨stays, fds, others⟩ := replaceFile_spec s f.path f.contents commits
    exact ⟨stays, fds, fun path n at_ away => others path n at_ (away (by simpa using dirty) replaces)⟩
  · obtain ⟨fds, others⟩ := createFile_spec s f.path f.mode f.contents commits
    exact ⟨fun path n at_ => ⟨n, others path n at_, rfl, rfl, rfl⟩, fds, fun path n at_ _ => others path n at_⟩

/-! ## What an open file may be used for -/

/-- The bytes in the buffer that came from a file came from the one at its path, which grants
reading if the descriptor is for reading; one to be replaced, or that a program may write, grants
writing. -/
structure Cleared (p : Process) (s : State) (f : DiskFile) : Prop where
  cells : ∀ k, ∀ path ∈ (f.data k).origin, path = f.path ∧ f.flags.testBit openCreate = false ∧
    ∃ n, s.volume path = some n ∧ (f.flags.testBit openRead = true → n.GrantsRead p)
  asked : f.flags.testBit openReplace = true → f.flags.testBit openWrite = true →
    f.flags.testBit openCreate = false → ∃ n, s.volume f.path = some n ∧ n.GrantsWrite p
  replaces : f.dirty = true → f.flags.testBit openReplace = true →
    ∀ n ∈ s.volume f.path, n.GrantsWrite p
  present : f.flags.testBit openReplace = true → (s.volume f.path).isSome = true
  made : f.flags.testBit openCreate = true → f.dirty = true

theorem Cleared.stays (cleared : Cleared p s f) (stays : Stays s s') : Cleared p s' f where
  cells k path mem := by
    obtain ⟨same, create, n, at_, grants⟩ := cleared.cells k path mem
    obtain ⟨n', at', mode, owner, group⟩ := stays path n at_
    exact ⟨same, create, n', at', fun reads => (grantsRead_congr mode owner group).2 (grants reads)⟩
  asked replaces writes creates := by
    obtain ⟨n, at_, grants⟩ := cleared.asked replaces writes creates
    obtain ⟨n', at', mode, owner, group⟩ := stays _ n at_
    exact ⟨n', at', (grantsWrite_congr mode owner group).2 grants⟩
  replaces dirty replaces n' mem := by
    obtain ⟨n, at_⟩ := Option.isSome_iff_exists.1 (cleared.present replaces)
    obtain ⟨n'', at', mode, owner, group⟩ := stays _ n at_
    cases at'.symm.trans mem
    exact (grantsWrite_congr mode owner group).2 (cleared.replaces dirty replaces n at_)
  present replaces := by
    obtain ⟨n, at_⟩ := Option.isSome_iff_exists.1 (cleared.present replaces)
    obtain ⟨n', at', _⟩ := stays _ n at_
    rw [at']
    rfl
  made := cleared.made

/-- Every descriptor of a file on the volume is. -/
def AllCleared (p : Process) (s : State) : Prop := ∀ fd f, s.fds fd = some (.disk f) → Cleared p s f

theorem AllCleared.stays (all : AllCleared p s) (fds : s'.fds = s.fds) (stays : Stays s s') :
    AllCleared p s' := fun fd f at_ => (all fd f (fds ▸ at_)).stays stays

theorem AllCleared.setFd (all : AllCleared p s) {d : Option Descriptor}
    (cleared : ∀ f, d = some (.disk f) → Cleared p s f) : AllCleared p (s.setFd fd d) := by
  intro fd' f at_
  have at_ : Function.update s.fds fd d fd' = some (.disk f) := at_
  have here : Cleared p s f := by
    by_cases same : fd' = fd
    · subst same
      rw [Function.update_self] at at_
      exact cleared f at_
    · rw [Function.update_of_ne same] at at_
      exact all fd' f at_
  exact here.stays (.of_volume rfl)

theorem diskAt_cleared (all : AllCleared p s) (at_ : s.diskAt fd = some f) : Cleared p s f := by
  unfold State.diskAt at at_
  split at at_
  · cases at_
  · split at at_
    · rename_i f' here
      cases at_
      exact all fd f here
    all_goals cases at_

/-! ## Opening -/

/-- Where the check is made and says yes, to one that is not the kernel, the file grants what the
flags ask for. -/
theorem identityMay_grants {flags : Nat} (plain : p.fileOverride = false) (uid : p.uid ≠ uidKernel)
    (may : identityMay p n (identityWantFromOpen flags) = true) :
    (flags.testBit openRead = true → n.GrantsRead p) ∧
    (flags.testBit openWrite = true → n.GrantsWrite p) := by
  unfold identityMay at may
  rw [plain, Bool.false_or] at may
  unfold identityMayAs at may
  unfold Node.GrantsRead Node.GrantsWrite
  unfold identityWantFromOpen at may
  generalize classBits p.uid p.gid n.mode n.owner n.group = bits at *
  rw [if_neg (show p.uid ≠ uidKernel from uid)] at may
  have three : Nat.testBit 3 1 = true := by decide
  have two : Nat.testBit 2 1 = true := by decide
  constructor
  · intro reads
    rw [if_pos reads] at may
    split at may <;> simp_all [accessRead, accessWrite, accessExec]
  · intro writes
    rw [if_pos writes] at may
    split at may <;> simp_all [accessRead, accessWrite, accessExec]

/-- An open that the check answers for gives a file that is cleared. -/
theorem reconfsOpen_cleared {flags mode : Nat} {a : Around} {commits : Bool}
    (plain : p.fileOverride = false) (answered : Answered p s (.open path flags mode a commits))
    (opened : reconfsOpen p s path flags mode a = some f) : Cleared p s f := by
  unfold reconfsOpen at opened
  dsimp only at opened
  split at opened
  · cases opened
  split at opened
  · cases opened
  rename_i there
  split at opened
  · cases opened
  rename_i passed
  split at opened
  · cases opened
  have exists_ (replaces : flags.testBit openReplace = true) : (s.volume path).isSome = true := by
    rw [not_and, not_not] at there
    exact (Bool.and_eq_true_iff.1 (there replaces)).2
  split at opened
  · rename_i creates
    cases opened
    refine ⟨by simp, ?_, ?_, exists_, fun _ => rfl⟩
    · intro _ _ none_
      cases creates.symm.trans none_
    · exact fun _ replaces n mem => (answered n mem).1 creates replaces
  · rename_i creates
    have creates : flags.testBit openCreate = false := by simpa using creates
    split at opened
    · cases opened
    rename_i n at_
    have grants : (flags.testBit openRead = true → n.GrantsRead p) ∧
        (flags.testBit openWrite = true → n.GrantsWrite p) := by
      by_cases unchecked : p.uid = uidKernel ∨ a.known = false
      · exact (answered n at_).2 creates unchecked
      · rw [not_or] at unchecked
        refine identityMay_grants plain unchecked.1 ?_
        unfold checked at passed
        rw [at_, creates] at passed
        have known : a.known = true := by simpa using unchecked.2
        rw [known] at passed
        simpa using passed
    split at opened
    · cases opened
    cases opened
    refine ⟨?_, ?_, by simp, exists_, fun made => ?_⟩
    · intro k path' mem
      dsimp only at mem ⊢
      unfold fillFrom at mem
      split at mem
      · cases mem
        exact ⟨rfl, creates, n, at_, grants.1⟩
      · cases mem
    · exact fun _ writes _ => ⟨n, at_, grants.2 writes⟩
    · cases creates.symm.trans made

/-! ## Steps -/

theorem Respects.of_kept {given : List Cell}
    (kept : ∀ path n, s.volume path = some n → s'.volume path = some n)
    (cells : ∀ c ∈ given, ∀ path ∈ c.origin, ∃ n, s.volume path = some n ∧ n.GrantsRead p) :
    Respects p s s' given := by
  refine ⟨cells, ?_⟩
  intro path n n' at_ at' changed
  cases (kept path n at_).symm.trans at'
  exact absurd rfl changed

/-- Closing a file that is cleared changes only what grants it. -/
theorem diskClose_respects {commits : Bool} (cleared : Cleared p s f) :
    Respects p s (s.diskClose f commits) [] := by
  refine ⟨by simp, ?_⟩
  intro path n n' at_ at' changed
  obtain ⟨_, _, others⟩ := diskClose_spec s f commits
  by_cases away : f.dirty = true → f.flags.testBit openReplace = true → path ≠ f.path
  · cases (others path n at_ away).symm.trans at'
    exact absurd rfl changed
  · simp only [not_forall, not_not] at away
    obtain ⟨dirty, replaces, rfl⟩ := away
    exact cleared.replaces dirty replaces n at_

theorem read_cells {len : Nat} : ∀ c ∈ (f.read len).1, ∃ k, c = f.data k := by
  intro c mem
  unfold DiskFile.read at mem
  split at mem
  · cases mem
  · obtain ⟨k, _, rfl⟩ := List.mem_map.1 mem
    exact ⟨f.pos + k, rfl⟩

theorem Cleared.read (cleared : Cleared p s f) (len : Nat) : Cleared p s (f.read len).2 := by
  unfold DiskFile.read
  split
  · exact cleared
  · exact ⟨cleared.cells, cleared.asked, cleared.replaces, cleared.present, cleared.made⟩

theorem Cleared.seek (cleared : Cleared p s f) (offset : Int) (from_ : Nat) :
    Cleared p s (diskSeek f offset from_).2 := by
  unfold diskSeek
  split
  · exact cleared
  dsimp only
  split
  · exact cleared
  split
  · exact cleared
  · exact ⟨cleared.cells, cleared.asked, cleared.replaces, cleared.present, cleared.made⟩

/-- A write to a file that is to be replaced is to one that grants it. -/
theorem Cleared.write {bytes : List Nat} (cleared : Cleared p s f) (at_ : s.diskAt fd = some f)
    (answered : Answered p s (.write fd bytes)) : Cleared p s (f.write bytes) := by
  unfold DiskFile.write
  split
  · exact cleared
  refine ⟨?_, cleared.asked, ?_, cleared.present, fun _ => rfl⟩
  · intro k path mem
    dsimp only at mem
    split at mem
    · cases mem
    · exact cleared.cells k path mem
  · intro _ replaces n mem
    dsimp only at replaces mem
    by_cases creates : f.flags.testBit openCreate = true
    · exact cleared.replaces (cleared.made creates) replaces n mem
    · have creates : f.flags.testBit openCreate = false := by simpa using creates
      cases writes : f.flags.testBit openWrite with
      | false => exact answered f at_ replaces writes creates n mem
      | true =>
        obtain ⟨n', at', grants⟩ := cleared.asked replaces writes creates
        cases at'.symm.trans mem
        exact grants

theorem setFd_respects {given : List Cell} {d : Option Descriptor}
    (cells : ∀ c ∈ given, ∀ path ∈ c.origin, ∃ n, s.volume path = some n ∧ n.GrantsRead p) :
    Respects p s (s.setFd fd d) given :=
  .of_kept (fun _ _ at_ => at_) cells

/-- One call that the check answers for. -/
theorem step_respects (plain : p.fileOverride = false) (all : AllCleared p s)
    (answered : Answered p s move) :
    Respects p s (step p s move).1 (step p s move).2 ∧ AllCleared p (step p s move).1 := by
  have nothing : Respects p s s [] := .of_kept (fun _ _ at_ => at_) (by simp)
  cases move with
  | «open» path flags mode a commits =>
    unfold step
    dsimp only
    split
    · exact ⟨nothing, all⟩
    split
    · exact ⟨nothing, all⟩
    rename_i f opened
    have cleared := reconfsOpen_cleared plain answered opened
    split
    · rename_i fd _
      refine ⟨setFd_respects (by simp), all.setFd ?_⟩
      rintro f' ⟨⟩
      exact cleared
    · obtain ⟨stays, fds, _⟩ := diskClose_spec s f commits
      exact ⟨diskClose_respects cleared, all.stays fds stays⟩
  | read fd len =>
    unfold step
    dsimp only
    split
    · rename_i f at_
      have cleared := diskAt_cleared all at_
      refine ⟨setFd_respects ?_, all.setFd ?_⟩
      · intro c mem path mem'
        obtain ⟨k, rfl⟩ := read_cells c mem
        obtain ⟨rfl, creates, n, there, grants⟩ := cleared.cells k path mem'
        refine ⟨n, there, ?_⟩
        cases reads : f.flags.testBit openRead with
        | true => exact grants reads
        | false => exact answered f at_ reads creates n there
      · rintro f' ⟨⟩
        exact cleared.read len
    · exact ⟨nothing, all⟩
  | write fd bytes =>
    unfold step
    dsimp only
    split
    · rename_i f at_
      refine ⟨setFd_respects (by simp), all.setFd ?_⟩
      rintro f' ⟨⟩
      exact (diskAt_cleared all at_).write at_ answered
    · exact ⟨nothing, all⟩
  | seek fd offset from_ =>
    unfold step
    dsimp only
    split
    · rename_i f at_
      refine ⟨setFd_respects (by simp), all.setFd ?_⟩
      rintro f' ⟨⟩
      exact (diskAt_cleared all at_).seek offset.toInt from_
    · exact ⟨nothing, all⟩
  | create path mode bytes commits =>
    unfold step
    dsimp only
    split
    · exact ⟨nothing, all⟩
    · obtain ⟨fds, others⟩ := createFile_spec s path mode bytes commits
      exact ⟨.of_kept others (by simp), all.stays fds fun other n at_ =>
        ⟨n, others other n at_, rfl, rfl, rfl⟩⟩
  | close fd commits =>
    unfold step
    dsimp only
    split
    · exact ⟨nothing, all⟩
    have left : AllCleared p (s.setFd fd none) := all.setFd (by rintro f ⟨⟩)
    split
    · rename_i f at_
      have cleared : Cleared p (s.setFd fd none) f := (all fd f at_).stays (.of_volume rfl)
      obtain ⟨stays, fds, _⟩ := diskClose_spec (s.setFd fd none) f commits
      exact ⟨diskClose_respects cleared, left.stays fds stays⟩
    all_goals exact ⟨setFd_respects (by simp), left⟩

/-- A program without the override, with no file of the volume open, reads and changes only what
grants it, in every run whose calls the check at open answers for. -/
theorem descriptors_respect (p : Process) (plain : p.fileOverride = false) (s : State)
    (none_ : ∀ fd f, s.fds fd ≠ some (.disk f)) (moves : List Move) (answered : AllAnswered p s moves) :
    Respectful p s moves := by
  have all : AllCleared p s := fun fd f at_ => absurd at_ (none_ fd f)
  clear none_
  induction moves generalizing s with
  | nil => trivial
  | cons move rest ih =>
    obtain ⟨respects, all⟩ := step_respects plain all answered.1
    exact ⟨respects, ih _ answered.2 all⟩

/-! ## Runs -/

/-- A volume with one file, of somebody else's. -/
def notice (mode : Nat) : State :=
  ⟨fun path => if path = [47, 97] then some ⟨mode, 1, 1, [104, 105]⟩ else none, fun _ => none⟩

def Around.well : Around := ⟨true, true, true, true⟩

theorem descriptors_respect_reading :
    Respectful ⟨7, 7, false⟩ (notice 0x124) [.open [47, 97] 1 0 .well true, .read 0 2] := by
  refine descriptors_respect ⟨7, 7, false⟩ rfl (notice 0x124) (by rintro fd f ⟨⟩) _
    ⟨?_, ?_, trivial⟩
  · intro n mem
    cases mem
    decide
  · intro f mem
    cases mem
    intro reads
    cases reads

/-- A file that may only be read is replaced by one who opened it to read and to replace; and one
that may only be written is read by one who opened it to write. -/
theorem descriptors_overstep :
    ¬Respectful ⟨7, 7, false⟩ (notice 0x124)
      [.open [47, 97] 9 0 .well true, .write 0 [120], .close 0 true] ∧
    ¬Respectful ⟨7, 7, false⟩ (notice 0x92) [.open [47, 97] 2 0 .well true, .read 0 2] := by
  constructor
  · intro respectful
    have writes := respectful.2.2.1.2 [47, 97] ⟨0x124, 1, 1, [104, 105]⟩ ⟨0x124, 1, 1, [120, 105]⟩
      (by decide +kernel) (by decide +kernel) (by decide)
    revert writes
    decide
  · intro respectful
    obtain ⟨n, at_, reads⟩ := respectful.2.1.1 ⟨104, some [47, 97]⟩ (by decide +kernel) [47, 97] rfl
    have at_ : some (⟨0x92, 1, 1, [104, 105]⟩ : Node) = some n := at_
    cases at_
    revert reads
    decide

end ReconOS.Vfs
