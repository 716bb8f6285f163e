import ReconOS.Reconfs.Path
import ReconOS.Vfs.Seek
import Mathlib.Data.List.GetD

/-! Listings of the directories of the mounted filesystems, into a buffer of any length. -/
namespace ReconOS.Vfs

open Reconfs

variable {given : Bool} {namesLen : Nat} {names : Buffer} {entries : List Name}

/-- A caller's buffer, by the offset. -/
abbrev Buffer := Nat → UInt8

def sysEfault : Int := -2
def sysEnodev : Int := -5
def sysEexist : Int := -6
def sysEnoent : Int := -7
def sysEnospc : Int := -8
def sysEio : Int := -9
def sysEperm : Int := -12

/-- `kmemcpy` into a buffer. -/
def copyTo (names : Buffer) (at_ : Nat) (bytes : List UInt8) : Buffer := fun k =>
  if at_ ≤ k ∧ k < at_ + bytes.length then bytes.getD (k - at_) 0 else names k

/-- A name and its NUL. -/
def terminated (name : Name) : List UInt8 := name ++ [0]

/-- What a call for a listing leaves: what it returns, the buffer and the count. -/
structure Answer where
  result : Int
  names : Buffer
  count : Nat

/-! ## The flat filesystems -/

/-- A listing that is being written. -/
structure Listing where
  names : Buffer
  needed : Nat
  count : Nat

/-- `emit`, the same in all three. -/
def emit (given : Bool) (namesLen : Nat) (l : Listing) (name : Name) : Listing :=
  let n := name.length + 1
  { names :=
      if given = true ∧ l.needed + n ≤ namesLen then copyTo l.names l.needed (terminated name)
      else l.names
    needed := l.needed + n
    count := l.count + 1 }

/-- The names of a directory that is all there is. -/
def listFlat (entries : List Name) (rest : Name) (given : Bool) (namesLen : Nat) (names : Buffer) :
    Answer :=
  if rest ≠ [] then ⟨sysEnoent, names, 0⟩
  else
    let l := entries.foldl (emit given namesLen) ⟨names, 0, 0⟩
    ⟨l.needed, l.names, if namesLen < l.needed then 0 else l.count⟩

def cString (s : String) : Name := s.toList.map fun c => c.toNat.toUInt8

def devices : List Name :=
  [cString "null", cString "zero", cString "random", cString "console", cString "input",
    cString "fb0"]

def procEntries : List Name :=
  [cString "version", cString "uptime", cString "meminfo", cString "cpuinfo", cString "self"]

def devfsList : Name → Bool → Nat → Buffer → Answer := listFlat devices

def procfsList : Name → Bool → Nat → Buffer → Answer := listFlat procEntries

/-- The names of the slots in use. -/
def ramfsNames (files : List (Option Name)) : List Name := files.filterMap id

def ramfsList (files : List (Option Name)) : Name → Bool → Nat → Buffer → Answer :=
  listFlat (ramfsNames files)

/-! ## The volume -/

def reconfsListMax : Nat := 256
def reconfsListBytes : Nat := 8192

/-- The names in use, while they fit. -/
def collect (namesLen max : Nat) : Nat → Nat → List Dirent → Option (List Name)
  | _, _, [] => some []
  | n, used, de :: rest =>
    if de.inode = 0 then collect namesLen max n used rest
    else if n = max ∨ namesLen < used + de.name.length + 1 then none
    else (collect namesLen max (n + 1) (used + de.name.length + 1) rest).map (de.name :: ·)

/-- `reconfs_list`. -/
def reconfsList (fs : Fs) (dirBlock namesLen max : Nat) : M (List Name) := do
  Reconfs.buffer fs.dev
  let dir ← readInode fs dirBlock
  need (dir.type = typeDir) .notDir
  let es ← readEntries fs dir
  orErr (collect namesLen max 0 0 es) .tooLarge

/-- `inode_to_read`. -/
def inodeToRead (fs : Fs) (path : Name) : M Nat :=
  if skipSlashes path = [] then pure fs.rootInode
  else do
    let (chain, leaf) ← walkPath fs path
    let child ← lookup fs chain.deepest leaf
    need (child ≠ 0) .notFound
    pure child

/-- `rootfs_owner_of`. -/
def rootfsOwnerOf (fs : Fs) (path : Name) : M Inode := do
  let child ← inodeToRead fs path
  Reconfs.buffer fs.dev
  readInode fs child

def kstrlen (bytes : List UInt8) : Nat := (bytes.takeWhile (· != 0)).length

/-- The length of so many strings, one after another. -/
def usedBytes : Nat → List UInt8 → Nat
  | 0, _ => 0
  | n + 1, bytes => kstrlen bytes + 1 + usedBytes n (bytes.drop (kstrlen bytes + 1))

/-- The names that a directory of the volume is read as having. -/
def rootfsNames (fs : Fs) (path : Name) : M (List Name) := do
  let dir ← inodeToRead fs path
  let scratch ← kzalloc fs.dev
  let blocks ← kzalloc fs.dev
  need (scratch = true ∧ blocks = true) .nomem
  reconfsList fs dir reconfsListBytes reconfsListMax

/-- And copied out if they all fit. -/
def copyOut (given : Bool) (namesLen : Nat) (names : Buffer) (listed : List Name) : Answer :=
  let scratch := listed.flatMap terminated
  let used := usedBytes listed.length scratch
  if given = true ∧ used ≤ namesLen then ⟨used, copyTo names 0 (scratch.take used), listed.length⟩
  else ⟨used, names, 0⟩

/-- `rootfs_list`. -/
def rootfsList (fs : Fs) (path : Name) (given : Bool) (namesLen : Nat) (names : Buffer) :
    M Answer := do
  let listed ← rootfsNames fs path
  pure (copyOut given namesLen names listed)

def userStatusFromReconfs : Status → Int
  | .notMounted => sysEnodev
  | .alreadyExists => sysEexist
  | .notFound | .notDir => sysEnoent
  | .name | .tooDeep => sysEinval
  | .nospace | .tooLarge => sysEnospc
  | .io | .range | .device | .checksum | .corrupt | .notReconfs | .nomem | .readOnly | .tooSmall
  | .blockSize | .retry | .dirFull | .notFile | .notEmpty => sysEio

/-- Whether the caller is refused: the owner is known, and may not be read for it. -/
def refused (may : Inode → Bool) : Except Stop Inode → Bool
  | .ok inode => !may inode
  | .error _ => false

/-- `reconfs_list_path`, of a volume. -/
def volumeList (fs : Fs) (may : Inode → Bool) (rest : Name) (given : Bool) (namesLen : Nat)
    (names : Buffer) : M Answer := do
  let owner ← statusOf (rootfsOwnerOf fs rest)
  if refused may owner = true then pure ⟨sysEperm, names, 0⟩
  else rootfsList fs rest given namesLen names

/-! ## The mount table -/

/-- The machine: the slots of the files in memory, the volume if there is one with the state that it
is read in, and which inodes the caller may read. -/
structure Kernel where
  files : List (Option Name)
  volume : Option Fs
  st : St
  may : Inode → Bool

/-- `reconfs_list_path`. A trap answers nothing. -/
def reconfsListPath (k : Kernel) (rest : Name) (given : Bool) (namesLen : Nat) (names : Buffer) :
    Option Answer :=
  match k.volume with
  | none => some ⟨sysEnodev, names, 0⟩
  | some fs =>
    match (volumeList fs k.may rest given namesLen names k.st).1 with
    | .ok a => some a
    | .error (.status st) => some ⟨userStatusFromReconfs st, names, 0⟩
    | .error .fault => none

inductive Mount where
  | devfs
  | procfs
  | ramfs
  | reconfs
  deriving DecidableEq, Repr

def mounts : List (Name × Mount) :=
  [(cString "/dev/", .devfs), (cString "/proc/", .procfs), (cString "/tmp/", .ramfs),
    (cString "/", .reconfs)]

/-- `mount_for`: the longest prefix, and the mount it is of. -/
def mountFor (path : Name) : Option (Nat × Mount) :=
  mounts.foldl (fun best m =>
    if (best.elim 0 Prod.fst) ≤ m.1.length ∧ m.1.isPrefixOf path = true then
      some (m.1.length, m.2)
    else best) none

/-- The listing of each mount. -/
def mountList (k : Kernel) (m : Mount) (rest : Name) (given : Bool) (namesLen : Nat)
    (names : Buffer) : Option Answer :=
  match m with
  | .devfs => some (devfsList rest given namesLen names)
  | .procfs => some (procfsList rest given namesLen names)
  | .ramfs => some (ramfsList k.files rest given namesLen names)
  | .reconfs => reconfsListPath k rest given namesLen names

/-- `file_list_path`. -/
def fileListPath (k : Kernel) (path : Name) (given : Bool) (namesLen : Nat) (names : Buffer) :
    Option Answer :=
  if path.head? ≠ some slash then some ⟨sysEinval, names, 0⟩
  else if namesLen ≠ 0 ∧ given = false then some ⟨sysEfault, names, 0⟩
  else
    match mountFor path with
    | none => some ⟨sysEnoent, names, 0⟩
    | some (best, m) => mountList k m (path.drop (if 1 < best then best else 0)) given namesLen names

/-! ## What is to hold -/

/-- The listing of a directory, as it goes into a buffer. -/
def listing (entries : List Name) : List UInt8 := entries.flatMap terminated

/-- All of it and how many names it has, or nothing and no names; and in either case its size. -/
structure Whole (entries : List Name) (namesLen : Nat) (names : Buffer) (a : Answer) : Prop where
  size : a.result = (listing entries).length
  all : (listing entries).length ≤ namesLen →
    a.names = copyTo names 0 (listing entries) ∧ a.count = entries.length
  nothing : namesLen < (listing entries).length → a.names = names ∧ a.count = 0

/-- Where nothing is listed, an error, and nothing written. -/
structure Refuses (names : Buffer) (a : Answer) : Prop where
  error : a.result < 0
  names : a.names = names
  count : a.count = 0

/-- The directory that a path leads to on the volume, if the caller may read it. -/
def volumeDirectory (k : Kernel) (fs : Fs) (rest : Name) : Option (List Name) :=
  match statusOf (rootfsOwnerOf fs rest) k.st with
  | (.error _, _) => none
  | (.ok owner, t) =>
    if refused k.may owner = true then none
    else
      match (rootfsNames fs rest t).1 with
      | .ok entries => some entries
      | .error _ => none

/-- The directory of a mount that the rest of a path leads to, and whether it is the volume's. -/
def mountDirectory (k : Kernel) (m : Mount) (rest : Name) : Option (List Name × Bool) :=
  match m with
  | .devfs => if rest ≠ [] then none else some (devices, false)
  | .procfs => if rest ≠ [] then none else some (procEntries, false)
  | .ramfs => if rest ≠ [] then none else some (ramfsNames k.files, false)
  | .reconfs => (k.volume.bind fun fs => volumeDirectory k fs rest).map (·, true)

/-- The directory that a path leads to. -/
def directory (k : Kernel) (path : Name) : Option (List Name × Bool) :=
  if path.head? ≠ some slash then none
  else
    match mountFor path with
    | none => none
    | some (best, m) => mountDirectory k m (path.drop (if 1 < best then best else 0))

/-- A flat directory is listed whole when the listing fits or its first name does not; one of the
volume when no name has a NUL in it. -/
def Listable (namesLen : Nat) : List Name × Bool → Prop
  | (entries, false) =>
    (listing entries).length ≤ namesLen ∨ ∀ first ∈ entries.head?, namesLen < first.length + 1
  | (entries, true) => ∀ name ∈ entries, 0 ∉ name

/-- What a call for a listing is to do, with no buffer or with one of a length. -/
def ListsWhole (k : Kernel) (path : Name) (buffer : Option Nat) : Prop :=
  ∀ names a, fileListPath k path buffer.isSome (buffer.getD 0) names = some a →
    match directory k path with
    | some (entries, _) => Whole entries (buffer.getD 0) names a
    | none => Refuses names a

/-! ## Writing names one at a time -/

theorem listing_cons (name : Name) (entries : List Name) :
    listing (name :: entries) = terminated name ++ listing entries := List.flatMap_cons

@[simp] theorem length_terminated (name : Name) : (terminated name).length = name.length + 1 := by
  unfold terminated
  rw [List.length_append]
  rfl

theorem copyTo_append (names : Buffer) (at_ : Nat) (a b : List UInt8) :
    copyTo (copyTo names at_ a) (at_ + a.length) b = copyTo names at_ (a ++ b) := by
  funext k
  unfold copyTo
  rw [List.length_append]
  by_cases later : at_ + a.length ≤ k ∧ k < at_ + a.length + b.length
  · rw [if_pos later, if_pos (by omega), List.getD_append_right _ _ _ _ (by omega)]
    congr 1
    omega
  · rw [if_neg later]
    by_cases earlier : at_ ≤ k ∧ k < at_ + a.length
    · rw [if_pos earlier, if_pos (by omega), List.getD_append _ _ _ _ (by omega)]
    · rw [if_neg earlier, if_neg (by omega)]

theorem copyTo_nil (names : Buffer) (at_ : Nat) : copyTo names at_ [] = names := by
  funext k
  unfold copyTo
  rw [if_neg (by rw [List.length_nil]; omega)]

/-- What names leave that are written after so much of a listing. -/
structure Emitted (given : Bool) (namesLen : Nat) (entries : List Name) (l l' : Listing) : Prop where
  needed : l'.needed = l.needed + (listing entries).length
  count : l'.count = l.count + entries.length
  fits : given = true → l.needed + (listing entries).length ≤ namesLen →
    l'.names = copyTo l.names l.needed (listing entries)
  kept : ∀ k < l.needed, l'.names k = l.names k
  full : (∀ first ∈ entries.head?, given = true → namesLen < l.needed + first.length + 1) →
    l'.names = l.names

theorem emitted (given : Bool) (namesLen : Nat) (entries : List Name) (l : Listing) :
    Emitted given namesLen entries l (entries.foldl (emit given namesLen) l) := by
  induction entries generalizing l with
  | nil => exact ⟨rfl, rfl, fun _ _ => (copyTo_nil ..).symm, fun _ _ => rfl, fun _ => rfl⟩
  | cons name entries ih =>
    have later := ih (emit given namesLen l name)
    have size : (listing (name :: entries)).length = name.length + 1 + (listing entries).length := by
      rw [listing_cons, List.length_append, length_terminated]
    rw [List.foldl_cons]
    constructor
    · rw [later.needed, size]
      exact Nat.add_assoc ..
    · rw [later.count, List.length_cons]
      change l.count + 1 + entries.length = _
      omega
    · intro given_ fits
      rw [size] at fits
      have here : (emit given namesLen l name).names = copyTo l.names l.needed (terminated name) :=
        if_pos ⟨given_, by omega⟩
      rw [later.fits given_ (by change l.needed + (name.length + 1) + _ ≤ _; omega), here,
        listing_cons, ← copyTo_append, length_terminated]
      rfl
    · intro k before
      rw [later.kept k (by change k < l.needed + _; omega)]
      change (if _ then copyTo l.names l.needed (terminated name) else l.names) k = _
      split
      · unfold copyTo
        rw [if_neg (by omega)]
      · rfl
    · intro full
      have first := full name rfl
      have here : (emit given namesLen l name).names = l.names :=
        if_neg fun both => by have := first both.1; omega
      rw [← here]
      apply later.full
      intro other _ given_
      have := first given_
      change namesLen < l.needed + (name.length + 1) + _ + 1
      omega

/-- A flat directory, whatever is in the buffer: it is listed whole just when its listing fits or its
first name does not. -/
theorem flat_whole (buffer : namesLen ≠ 0 → given = true) :
    (∀ names, Whole entries namesLen names (listFlat entries [] given namesLen names)) ↔
      Listable namesLen (entries, false) := by
  have answer : ∀ names, listFlat entries [] given namesLen names =
      ⟨((listing entries).length : Nat), (entries.foldl (emit given namesLen) ⟨names, 0, 0⟩).names,
        if namesLen < (listing entries).length then 0 else entries.length⟩ := by
    intro names
    have all := emitted given namesLen entries ⟨names, 0, 0⟩
    have needed := all.needed.trans (Nat.zero_add _)
    have count := all.count.trans (Nat.zero_add _)
    unfold listFlat
    rw [if_neg (not_not.2 rfl)]
    dsimp only
    rw [needed, count]
  constructor
  · intro whole
    by_contra neither
    obtain ⟨long, first, at_, fits⟩ : namesLen < (listing entries).length ∧
        ∃ first ∈ entries.head?, first.length + 1 ≤ namesLen := by
      unfold Listable at neither
      push Not at neither
      exact neither
    obtain ⟨rest, rfl⟩ : ∃ rest, entries = first :: rest := by
      cases entries with
      | nil => cases at_
      | cons name rest =>
        cases at_
        exact ⟨rest, rfl⟩
    -- a buffer that starts with another byte than the name does
    let other : Buffer := fun _ => (terminated first).getD 0 0 + 1
    have same := ((whole other).nothing long).1
    rw [answer] at same
    have written : (emit given namesLen ⟨other, 0, 0⟩ first).names =
        copyTo other 0 (terminated first) :=
      if_pos ⟨buffer (by omega), by dsimp only; omega⟩
    have kept := (emitted given namesLen rest (emit given namesLen ⟨other, 0, 0⟩ first)).kept 0
      (Nat.succ_pos _)
    have start := (congrFun same 0).symm.trans kept
    rw [written] at start
    unfold copyTo at start
    rw [if_pos ⟨Nat.le_refl 0, by rw [length_terminated]; omega⟩] at start
    have differ : ∀ x : UInt8, x + 1 ≠ x := by
      intro x eq
      have := congrArg UInt8.toNat eq
      rw [UInt8.toNat_add] at this
      have := x.toNat_lt
      change (x.toNat + 1) % 256 = _ at *
      omega
    exact differ _ start
  · intro listable names
    have all := emitted given namesLen entries ⟨names, 0, 0⟩
    rw [answer]
    constructor
    · rfl
    · intro fits
      rw [if_neg (by omega)]
      refine ⟨?_, rfl⟩
      by_cases given_ : given = true
      · exact all.fits given_ (by dsimp only; omega)
      · have none_ : listing entries = [] := by
          apply List.length_eq_zero_iff.1
          have : namesLen = 0 := by
            by_contra some_
            exact given_ (buffer some_)
          omega
        rw [none_, copyTo_nil]
        apply all.full
        intro _ _ given'
        exact absurd given' given_
    · intro long
      rw [if_pos long]
      refine ⟨all.full ?_, rfl⟩
      intro first at_ _
      cases listable with
      | inl fits => exact absurd fits (by omega)
      | inr short =>
        have := short first at_
        dsimp only
        omega

/-! ## Reading back the strings of a listing -/

theorem kstrlen_plain {pre : List UInt8} (rest : List UInt8) (plain : 0 ∉ pre) :
    kstrlen (pre ++ 0 :: rest) = pre.length := by
  unfold kstrlen
  rw [List.takeWhile_append_of_pos]
  · rw [List.length_append]
    rfl
  · intro b mem
    have : b ≠ 0 := fun zero => plain (zero ▸ mem)
    simpa using this

/-- So many strings, where there are as many NULs, end with the last of these NULs. -/
theorem usedBytes_zeros (n : Nat) (bytes : List UInt8) (zeros : n ≤ bytes.count 0) :
    usedBytes n bytes ≤ bytes.length ∧ (bytes.take (usedBytes n bytes)).count 0 = n := by
  induction n generalizing bytes with
  | zero => exact ⟨Nat.zero_le _, by unfold usedBytes; rfl⟩
  | succ n ih =>
    have some_ : 0 ∈ bytes := List.count_pos_iff.1 (by omega)
    obtain ⟨pre, rest, rfl, plain⟩ := List.eq_append_cons_of_mem some_
    have first := kstrlen_plain rest plain
    rw [List.count_append, List.count_cons_self, List.count_eq_zero.2 plain] at zeros
    obtain ⟨inside, ends⟩ := ih rest (by omega)
    have dropped : (pre ++ 0 :: rest).drop (pre.length + 1) = rest := by
      rw [← List.drop_drop, List.drop_left]
      rfl
    have taken (m : Nat) : (pre ++ 0 :: rest).take (pre.length + 1 + m) = pre ++ 0 :: rest.take m := by
      rw [Nat.add_assoc, List.take_length_add_append, Nat.add_comm 1 m, List.take_succ_cons]
    unfold usedBytes
    rw [first, dropped]
    constructor
    · rw [List.length_append, List.length_cons]
      omega
    · rw [taken, List.count_append, List.count_cons_self, List.count_eq_zero.2 plain, ends]
      omega

theorem count_listing (entries : List Name) :
    (listing entries).count 0 = entries.length + (entries.map (·.count 0)).sum := by
  induction entries with
  | nil => rfl
  | cons name entries ih =>
    have one : (terminated name).count 0 = name.count 0 + 1 := by
      unfold terminated
      rw [List.count_append]
      rfl
    rw [listing_cons, List.count_append, ih, one, List.length_cons, List.map_cons, List.sum_cons]
    omega

theorem usedBytes_listing (plain : ∀ name ∈ entries, 0 ∉ name) :
    usedBytes entries.length (listing entries) = (listing entries).length := by
  induction entries with
  | nil => rfl
  | cons name entries ih =>
    have here : kstrlen (terminated name ++ listing entries) = name.length := by
      unfold terminated
      rw [List.append_assoc]
      exact kstrlen_plain _ (plain name List.mem_cons_self)
    have rest := ih fun other mem => plain other (List.mem_cons_of_mem _ mem)
    rw [listing_cons, List.length_cons, List.length_append, length_terminated]
    unfold usedBytes
    rw [here]
    have dropped : (terminated name ++ listing entries).drop (name.length + 1) = listing entries := by
      rw [← length_terminated, List.drop_left]
    rw [dropped, rest]

/-- The strings are all of the listing when no name has a NUL in it, and only then. -/
theorem usedBytes_iff : usedBytes entries.length (listing entries) = (listing entries).length ↔
    ∀ name ∈ entries, 0 ∉ name := by
  constructor
  · intro all name mem zero
    have zeros := (usedBytes_zeros entries.length (listing entries)
      (by rw [count_listing]; omega)).2
    rw [all, List.take_length, count_listing] at zeros
    have none_ : (entries.map (·.count 0)).sum = 0 := by omega
    have here := List.sum_eq_zero_iff_forall_eq_nat.1 none_ (name.count 0)
      (List.mem_map.2 ⟨name, mem, rfl⟩)
    exact List.count_eq_zero.1 here zero
  · exact usedBytes_listing

/-- A directory of the volume, whatever is in the buffer. -/
theorem copyOut_whole (buffer : namesLen ≠ 0 → given = true) :
    (∀ names, Whole entries namesLen names (copyOut given namesLen names entries)) ↔
      Listable namesLen (entries, true) := by
  change _ ↔ ∀ name ∈ entries, 0 ∉ name
  rw [← usedBytes_iff]
  constructor
  · intro whole
    have size := (whole fun _ => 0).size
    have used : (copyOut given namesLen (fun _ => 0) entries).result =
        usedBytes entries.length (listing entries) := by
      unfold copyOut
      dsimp only
      split
      · rfl
      · rfl
    exact Int.ofNat.inj (used.symm.trans size)
  · intro used names
    unfold copyOut
    dsimp only
    change Whole entries namesLen names
      (if given = true ∧ usedBytes entries.length (listing entries) ≤ namesLen then
        ⟨usedBytes entries.length (listing entries),
          copyTo names 0 ((listing entries).take (usedBytes entries.length (listing entries))),
          entries.length⟩
      else ⟨usedBytes entries.length (listing entries), names, 0⟩)
    rw [used, List.take_length]
    split
    · rename_i fits
      exact ⟨rfl, fun _ => ⟨rfl, rfl⟩, fun long => absurd fits.2 (by omega)⟩
    · rename_i not_
      refine ⟨rfl, fun fits => ?_, fun _ => ⟨rfl, rfl⟩⟩
      have none_ : listing entries = [] := by
        apply List.length_eq_zero_iff.1
        have : namesLen = 0 := by
          by_contra some_
          exact not_ ⟨buffer some_, fits⟩
        omega
      have no_names : entries.length = 0 := by
        have := count_listing entries
        rw [none_, List.count_nil] at this
        omega
      rw [none_, copyTo_nil, no_names]
      exact ⟨rfl, rfl⟩

/-! ## Any directory -/

theorem Refuses.of_negative {e : Int} (negative : e < 0) : Refuses names ⟨e, names, 0⟩ :=
  ⟨negative, rfl, rfl⟩

theorem userStatus_negative (st : Status) : userStatusFromReconfs st < 0 := by
  cases st
  all_goals decide

theorem volume_listed {k : Kernel} {fs : Fs} {rest : Name} (there : k.volume = some fs)
    (listed : volumeDirectory k fs rest = some entries) :
    reconfsListPath k rest given namesLen names = some (copyOut given namesLen names entries) := by
  unfold volumeDirectory at listed
  unfold reconfsListPath volumeList
  rw [there]
  dsimp only
  rw [Prog.bind_run]
  generalize statusOf (rootfsOwnerOf fs rest) k.st = x at listed ⊢
  obtain ⟨o, t⟩ := x
  cases o with
  | error e => cases listed
  | ok owner =>
    dsimp only at listed ⊢
    by_cases refuses : refused k.may owner = true
    · rw [if_pos refuses] at listed
      cases listed
    · rw [if_neg refuses] at listed ⊢
      unfold rootfsList
      rw [Prog.bind_run]
      generalize rootfsNames fs rest t = y at listed ⊢
      obtain ⟨o, u⟩ := y
      cases o with
      | error e => cases listed
      | ok entries =>
        cases listed
        rfl

theorem volume_refuses {k : Kernel} {fs : Fs} {rest : Name} {a : Answer}
    (there : k.volume = some fs) (listed : volumeDirectory k fs rest = none)
    (answers : reconfsListPath k rest given namesLen names = some a) : Refuses names a := by
  unfold volumeDirectory at listed
  unfold reconfsListPath volumeList at answers
  rw [there] at answers
  dsimp only at answers
  rw [Prog.bind_run] at answers
  generalize statusOf (rootfsOwnerOf fs rest) k.st = x at listed answers
  obtain ⟨o, t⟩ := x
  cases o with
  | error e =>
    cases e with
    | status st =>
      cases answers
      exact .of_negative (userStatus_negative st)
    | fault => cases answers
  | ok owner =>
    dsimp only at listed answers
    by_cases refuses : refused k.may owner = true
    · rw [if_pos refuses] at answers
      cases answers
      exact .of_negative (by decide)
    · rw [if_neg refuses] at listed answers
      unfold rootfsList at answers
      rw [Prog.bind_run] at answers
      generalize rootfsNames fs rest t = y at listed answers
      obtain ⟨o, u⟩ := y
      cases o with
      | ok entries => cases listed
      | error e =>
        cases e with
        | status st =>
          cases answers
          exact .of_negative (userStatus_negative st)
        | fault => cases answers

/-- What a mount's own listing answers, for the two kinds of mount there are. -/
inductive Serves (given : Bool) (namesLen : Nat) : Option (List Name × Bool) →
    (Buffer → Option Answer) → Prop where
  | flat (entries : List Name) : Serves given namesLen (some (entries, false))
      fun names => some (listFlat entries [] given namesLen names)
  | volume (entries : List Name) : Serves given namesLen (some (entries, true))
      fun names => some (copyOut given namesLen names entries)
  | none {answer : Buffer → Option Answer}
      (refuses : ∀ names a, answer names = some a → Refuses names a) :
      Serves given namesLen none answer

theorem serves_flat (entries : List Name) (rest : Name) :
    Serves given namesLen (if rest ≠ [] then none else some (entries, false))
      fun names => some (listFlat entries rest given namesLen names) := by
  by_cases root : rest = []
  · subst root
    rw [if_neg (not_not.2 rfl)]
    exact .flat entries
  · rw [if_pos root]
    apply Serves.none
    intro names a answers
    unfold listFlat at answers
    rw [if_pos root] at answers
    cases answers
    exact .of_negative (by decide)

theorem serves_volume (k : Kernel) (rest : Name) :
    Serves given namesLen ((k.volume.bind fun fs => volumeDirectory k fs rest).map (·, true))
      fun names => reconfsListPath k rest given namesLen names := by
  cases there : k.volume with
  | none =>
    apply Serves.none
    intro names a answers
    unfold reconfsListPath at answers
    rw [there] at answers
    cases answers
    exact .of_negative (by decide)
  | some fs =>
    rw [Option.bind_some]
    cases listed : volumeDirectory k fs rest with
    | none => exact .none fun names a answers => volume_refuses there listed answers
    | some entries =>
      have same : (fun names => reconfsListPath k rest given namesLen names) =
          fun names => some (copyOut given namesLen names entries) := by
        funext names
        exact volume_listed there listed
      rw [same]
      exact .volume entries

theorem serves_mount (k : Kernel) (m : Mount) (rest : Name) :
    Serves given namesLen (mountDirectory k m rest) (mountList k m rest given namesLen) := by
  cases m with
  | devfs => exact serves_flat devices rest
  | procfs => exact serves_flat procEntries rest
  | ramfs => exact serves_flat (ramfsNames k.files) rest
  | reconfs => exact serves_volume k rest

/-- The call answers as the mount does that the path is under. -/
theorem serves (k : Kernel) (path : Name) (buffer : namesLen ≠ 0 → given = true) :
    Serves given namesLen (directory k path) (fileListPath k path given namesLen) := by
  have offered : ¬(namesLen ≠ 0 ∧ given = false) := by
    rintro ⟨some_, none_⟩
    rw [buffer some_] at none_
    cases none_
  unfold directory
  by_cases start : path.head? ≠ some slash
  · rw [if_pos start]
    apply Serves.none
    intro names a answers
    unfold fileListPath at answers
    rw [if_pos start] at answers
    cases answers
    exact .of_negative (by decide)
  rw [if_neg start]
  cases at_ : mountFor path with
  | none =>
    apply Serves.none
    intro names a answers
    unfold fileListPath at answers
    rw [if_neg start, if_neg offered, at_] at answers
    cases answers
    exact .of_negative (by decide)
  | some found =>
    have same : fileListPath k path given namesLen =
        mountList k found.2 (path.drop (if 1 < found.1 then found.1 else 0)) given namesLen := by
      funext names
      unfold fileListPath
      rw [if_neg start, if_neg offered, at_]
    rw [same]
    exact serves_mount k found.2 _

/-- Listings are whole or absent when the directory is flat and its listing fits or its first name
does not, or is the volume's and no name in it has a NUL; and only then. -/
theorem lists_whole (k : Kernel) (path : Name) (buffer : Option Nat) :
    ListsWhole k path buffer ↔ ∀ d ∈ directory k path, Listable (buffer.getD 0) d := by
  have offered : buffer.getD 0 ≠ 0 → buffer.isSome = true := by
    intro some_
    cases buffer with
    | none => exact absurd rfl some_
    | some n => rfl
  have served := serves k path offered
  unfold ListsWhole
  generalize directory k path = there at served ⊢
  generalize fileListPath k path buffer.isSome (buffer.getD 0) = answer at served ⊢
  cases served with
  | flat entries =>
    constructor
    · rintro whole d ⟨⟩
      exact (flat_whole offered).1 fun names => whole names _ rfl
    · rintro listable names a ⟨⟩
      exact (flat_whole offered).2 (listable _ rfl) names
  | volume entries =>
    constructor
    · rintro whole d ⟨⟩
      exact (copyOut_whole offered).1 fun names => whole names _ rfl
    · rintro listable names a ⟨⟩
      exact (copyOut_whole offered).2 (listable _ rfl) names
  | none refuses =>
    constructor
    · rintro _ d ⟨⟩
    · intro _ names a answers
      exact refuses names a answers

/-- A machine with no volume and no files. -/
def bare : Kernel := ⟨[], none, ⟨.fresh fun _ => .zero, 0, .empty⟩, fun _ => true⟩

/-- The devices, asked for with a buffer of five bytes: the first name goes into it. -/
theorem listing_in_part : ¬ListsWhole bare (cString "/dev/") (some 5) := by
  intro whole
  have := (whole (fun _ => 255) _ rfl).nothing (by decide)
  exact absurd (congrFun this.1 0) (by decide)

end ReconOS.Vfs
