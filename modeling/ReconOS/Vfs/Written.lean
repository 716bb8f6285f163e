import ReconOS.Kheap.Shape
import ReconOS.Lib.Refine
import ReconOS.Vfs.Seek
import Mathlib.Data.List.GetD

/-! A file holds what was written to it, and zeros, whatever the memory of its buffer held. -/
namespace ReconOS.Vfs

open Lib

variable {f : DiskFile} {g : Plain} {before : Nat → Nat}

/-! ## The buffer -/

/-- `kmemset` to zero, of the first bytes. -/
def cleared (count : Nat) (before : Nat → Nat) : Nat → Nat := fun k =>
  if k < count then 0 else before k

/-- What is in pages from `pmm_alloc_pages`, by what was: they are cleared on the way out. -/
def pmmAllocPages (count : Nat) (before : Nat → Nat) : Nat → Nat :=
  cleared (count * Kheap.pageSize) before

def allocLarge (size : Nat) (before : Nat → Nat) : Nat → Nat :=
  pmmAllocPages ((size + Kheap.pageSize - 1) / Kheap.pageSize) before

/-- And in memory from `kmalloc`. An object of a slab comes with what was in it. -/
def kmalloc (size : Nat) (before : Nat → Nat) : Nat → Nat :=
  match Kheap.Heap.classFor size with
  | some _ => before
  | none => allocLarge size before

/-- `reconfs_open`, with what was in the memory that its buffer gets. -/
def reconfsOpenIn (before : Nat → Nat) (p : Process) (s : State) (path : Path) (flags mode : Nat)
    (a : Around) : Option DiskFile :=
  let existed := a.named && (s.volume path).isSome
  if vfsPathMax ≤ path.length then none
  else if flags.testBit openReplace ∧ ¬existed then none
  else if checked p (s.volume path) flags a.known = false then none
  else if a.room = false then none
  else
    let buffer := kmalloc vfsFileMax before
    if flags.testBit openCreate then
      some ⟨path, flags, 0, existed, fun k => ⟨buffer k, none⟩, 0, mode, true⟩
    else
      match s.volume path with
      | none => none
      | some n =>
        if a.reads = false ∨ vfsFileMax < n.contents.length then none
        else
          let data := fun k =>
            match n.contents[k]? with
            | some byte => ⟨byte, some path⟩
            | none => ⟨buffer k, none⟩
          some ⟨path, flags, 0, existed, data, n.contents.length, n.mode, false⟩

/-- The whole of the buffer is cleared. -/
theorem kmalloc_file {k : Nat} (inside : k < vfsFileMax) : kmalloc vfsFileMax before k = 0 := by
  have large : Kheap.Heap.classFor vfsFileMax = none := by decide
  unfold kmalloc
  rw [large]
  exact if_pos inside

/-! ## A file as its bytes -/

/-- A file, as its bytes and a position. -/
structure Plain where
  contents : List Nat
  pos : Nat

namespace Plain

/-- The same as a file that is open. -/
def file (g : Plain) : DiskFile :=
  ⟨[], 0, g.pos, true, fun k => ⟨g.contents.getD k 0, none⟩, g.contents.length, 0, false⟩

def read (g : Plain) (len : Nat) : List Nat × Plain :=
  let bytes := (g.contents.drop g.pos).take len
  (bytes, { g with pos := g.pos + bytes.length })

/-- Each position keeps what it had or has what is written, and one that had nothing has zero. -/
def write (g : Plain) (bytes : List Nat) : Plain :=
  if vfsFileMax < g.pos ∨ vfsFileMax - g.pos < bytes.length then g
  else
    { contents := (List.range (max g.contents.length (g.pos + bytes.length))).map fun k =>
        if g.pos ≤ k ∧ k < g.pos + bytes.length then bytes.getD (k - g.pos) 0
        else g.contents.getD k 0
      pos := g.pos + bytes.length }

def seek (g : Plain) (offset : Int) (from_ : Nat) : Plain :=
  { g with pos := (diskSeek g.file offset from_).2.pos }

end Plain

/-- A descriptor, by the bytes that its reads give. -/
def descriptor : Machine DiskFile FileCall (List Nat) where
  step f
    | .read len => ((f.read len).2, (f.read len).1.map Cell.byte)
    | .write bytes => (f.write bytes, [])
    | .seek offset from_ => ((diskSeek f offset.toInt from_).2, [])

def plain : Machine Plain FileCall (List Nat) where
  step g
    | .read len => ((g.read len).2, (g.read len).1)
    | .write bytes => (g.write bytes, [])
    | .seek offset from_ => (g.seek offset.toInt from_, [])

/-- A run of calls has a write that ends inside the buffer. -/
def Written : Plain → List FileCall → Prop
  | _, [] => False
  | g, call :: rest =>
    (∃ bytes, call = .write bytes ∧ g.pos + bytes.length ≤ vfsFileMax) ∨
      Written (plain.step g call).1 rest

/-- A close after these calls saves the file: it was to be made, or was written to; the volume takes
it; and there is a file at its path if one is to be replaced, and none if one is to be made. -/
def Saves (v : State) (path : Path) (flags : Nat) (g : Plain) (calls : List FileCall)
    (commits : Bool) : Prop :=
  (flags.testBit openCreate = true ∨ Written g calls) ∧ commits = true ∧
    ((v.volume path).isSome = true ↔ flags.testBit openReplace = true)

/-! ## The one is the other -/

/-- An open file holds these bytes, is at this position, and all that is left of its buffer is
zeros. -/
structure Holds (f : DiskFile) (g : Plain) : Prop where
  pos : f.pos = g.pos
  len : f.len = g.contents.length
  fits : f.len ≤ vfsFileMax
  data : ∀ k < vfsFileMax, (f.data k).byte = g.contents.getD k 0

theorem Holds.contents (holds : Holds f g) : f.contents = g.contents := by
  have fits := holds.fits
  have length := holds.len
  unfold DiskFile.contents
  apply List.ext_getElem
  · rw [List.length_map, List.length_range, length]
  · intro k _ high
    rw [List.getElem_map, List.getElem_range, holds.data k (by omega)]
    exact List.getD_eq_getElem _ 0 high

theorem Holds.read (holds : Holds f g) (len : Nat) :
    (f.read len).1.map Cell.byte = (g.read len).1 ∧ Holds (f.read len).2 (g.read len).2 := by
  have fits := holds.fits
  have length := holds.len
  unfold DiskFile.read Plain.read
  rw [holds.pos]
  split
  · rename_i past
    have nothing : (g.contents.drop g.pos).take len = [] := by
      rw [List.drop_eq_nil_of_le (by omega), List.take_nil]
    dsimp only
    rw [nothing]
    exact ⟨rfl, holds⟩
  · rename_i before
    have bytes : (List.range (min len (f.len - g.pos))).map (fun k => (f.data (g.pos + k)).byte) =
        (g.contents.drop g.pos).take len := by
      apply List.ext_getElem
      · rw [List.length_map, List.length_range, List.length_take, List.length_drop, length]
      · intro k low high
        rw [List.length_map, List.length_range] at low
        rw [List.getElem_map, List.getElem_range, List.getElem_take, List.getElem_drop,
          holds.data _ (by omega)]
        exact List.getD_eq_getElem _ 0 (by omega)
    dsimp only
    refine ⟨?_, ?_, length, fits, holds.data⟩
    · rw [List.map_map]
      exact bytes
    · dsimp only
      rw [← bytes, List.length_map, List.length_range]

theorem getD_map_range (n : Nat) (h : Nat → Nat) (k : Nat) :
    ((List.range n).map h).getD k 0 = if k < n then h k else 0 := by
  by_cases inside : k < n
  · rw [if_pos inside, List.getD_eq_getElem _ 0 (by rwa [List.length_map, List.length_range]),
      List.getElem_map, List.getElem_range]
  · rw [if_neg inside, List.getD_eq_default _ 0 (by rw [List.length_map, List.length_range]; omega)]

theorem Holds.write (holds : Holds f g) (bytes : List Nat) : Holds (f.write bytes) (g.write bytes) := by
  have fits := holds.fits
  have length := holds.len
  unfold DiskFile.write Plain.write
  rw [holds.pos]
  split
  · exact holds
  · rename_i room
    refine ⟨rfl, ?_, by dsimp only; omega, ?_⟩
    · dsimp only
      rw [List.length_map, List.length_range, length]
    · intro k inside
      dsimp only
      rw [getD_map_range]
      split
      · rename_i written
        rw [if_pos (by omega)]
        exact (List.getD_eq_getElem?_getD ..).symm
      · rename_i kept
        rw [holds.data k inside]
        split
        · rfl
        · exact List.getD_eq_default _ 0 (by omega)

theorem Holds.seek (holds : Holds f g) (offset : Int) (from_ : Nat) :
    Holds (diskSeek f offset from_).2 (g.seek offset from_) := by
  have base : ∀ o, f.base o = g.file.base o := by
    intro o
    cases o with
    | start => rfl
    | here => exact congrArg Int.ofNat holds.pos
    | «end» => exact congrArg Int.ofNat holds.len
  unfold Plain.seek diskSeek
  split
  · exact holds
  · rename_i o known
    dsimp only
    rw [base]
    split
    · exact holds
    split
    · exact holds
    · exact ⟨rfl, holds.len, holds.fits, holds.data⟩

theorem descriptor_plain : descriptor.Refines plain (fun _ _ => True) Holds := by
  intro f g call holds _
  cases call with
  | read len => exact holds.read len
  | write bytes => exact ⟨rfl, holds.write bytes⟩
  | seek offset from_ => exact ⟨rfl, holds.seek offset.toInt from_⟩

/-- What a file has when it is opened: nothing, when it is to be made. -/
def previous (s : State) (path : Path) (flags : Nat) : List Nat :=
  if flags.testBit openCreate then [] else ((s.volume path).map Node.contents).getD []

theorem opened_holds {p : Process} {s : State} {path : Path} {flags mode : Nat} {a : Around}
    (opened : reconfsOpenIn before p s path flags mode a = some f) :
    (f.path = path ∧ f.flags = flags ∧ f.dirty = flags.testBit openCreate) ∧
      Holds f ⟨previous s path flags, 0⟩ := by
  unfold reconfsOpenIn at opened
  dsimp only at opened
  split at opened
  · cases opened
  split at opened
  · cases opened
  split at opened
  · cases opened
  split at opened
  · cases opened
  split at opened
  · rename_i create
    cases opened
    unfold previous
    rw [if_pos create]
    exact ⟨⟨rfl, rfl, create.symm⟩, rfl, rfl, Nat.zero_le _, fun k inside => kmalloc_file inside⟩
  · rename_i create
    split at opened
    · cases opened
    · rename_i n there
      split at opened
      · cases opened
      · rename_i fits
        cases opened
        unfold previous
        rw [if_neg create, there]
        refine ⟨⟨rfl, rfl, (Bool.eq_false_of_not_eq_true create).symm⟩, rfl, rfl,
          by dsimp only; omega, ?_⟩
        intro k inside
        dsimp only [Option.map_some, Option.getD_some]
        rw [List.getD_eq_getElem?_getD]
        cases n.contents[k]? with
        | none => exact kmalloc_file inside
        | some byte => rfl

/-- A call that does not write keeps its path, its flags, and whether it is dirty. -/
theorem descriptor_quiet {call : FileCall} (quiet : ∀ bytes, call ≠ .write bytes) :
    (descriptor.step f call).1.path = f.path ∧ (descriptor.step f call).1.flags = f.flags ∧
      (descriptor.step f call).1.dirty = f.dirty := by
  cases call with
  | read len =>
    change (f.read len).2.path = _ ∧ (f.read len).2.flags = _ ∧ (f.read len).2.dirty = _
    unfold DiskFile.read
    split
    · exact ⟨rfl, rfl, rfl⟩
    · exact ⟨rfl, rfl, rfl⟩
  | write bytes => exact absurd rfl (quiet bytes)
  | seek offset from_ =>
    change (diskSeek f offset.toInt from_).2.path = _ ∧
      (diskSeek f offset.toInt from_).2.flags = _ ∧ (diskSeek f offset.toInt from_).2.dirty = _
    unfold diskSeek
    split
    · exact ⟨rfl, rfl, rfl⟩
    dsimp only
    split
    · exact ⟨rfl, rfl, rfl⟩
    split
    · exact ⟨rfl, rfl, rfl⟩
    · exact ⟨rfl, rfl, rfl⟩

/-- A call keeps its path and its flags, and a write that ends inside the buffer makes it dirty. -/
theorem descriptor_step (holds : Holds f g) (call : FileCall) :
    (descriptor.step f call).1.path = f.path ∧ (descriptor.step f call).1.flags = f.flags ∧
      ((descriptor.step f call).1.dirty = true ↔
        f.dirty = true ∨ ∃ bytes, call = .write bytes ∧ g.pos + bytes.length ≤ vfsFileMax) := by
  by_cases quiet : ∀ bytes, call ≠ .write bytes
  · obtain ⟨path, flags, dirty⟩ := descriptor_quiet quiet (f := f)
    refine ⟨path, flags, ?_⟩
    rw [dirty]
    constructor
    · exact .inl
    · rintro (dirty | ⟨bytes, writes, -⟩)
      · exact dirty
      · exact absurd writes (quiet bytes)
  · obtain ⟨bytes, rfl⟩ : ∃ bytes, call = .write bytes := by simpa using quiet
    change (f.write bytes).path = f.path ∧ (f.write bytes).flags = f.flags ∧
      ((f.write bytes).dirty = true ↔ _)
    have pos := holds.pos
    unfold DiskFile.write
    split
    · refine ⟨rfl, rfl, .inl, ?_⟩
      rintro (dirty | ⟨_, ⟨⟩, room⟩)
      · exact dirty
      · omega
    · exact ⟨rfl, rfl, fun _ => .inr ⟨bytes, rfl, by omega⟩, fun _ => rfl⟩

theorem descriptor_run (holds : Holds f g) (calls : List FileCall) :
    (descriptor.run f calls).path = f.path ∧ (descriptor.run f calls).flags = f.flags ∧
      ((descriptor.run f calls).dirty = true ↔ f.dirty = true ∨ Written g calls) := by
  induction calls generalizing f g with
  | nil => exact ⟨rfl, rfl, (iff_of_eq (or_false _)).symm⟩
  | cons call rest ih =>
    obtain ⟨path, flags, dirty⟩ := descriptor_step holds call
    obtain ⟨path', flags', dirty'⟩ := ih (descriptor_plain f g call holds trivial).2
    refine ⟨path'.trans path, flags'.trans flags, ?_⟩
    change (descriptor.run (descriptor.step f call).1 rest).dirty = true ↔ _
    rw [dirty', dirty, or_assoc]
    rfl

/-! ## What a close leaves -/

/-- Of a dirty file, where there is a file to replace, or none and one is to be made. -/
theorem diskClose_saves {v : State} (dirty : f.dirty = true)
    (there : (v.volume f.path).isSome = true ↔ f.flags.testBit openReplace = true) :
    ∃ n, (v.diskClose f true).volume f.path = some n ∧ n.contents = f.contents := by
  unfold State.diskClose
  rw [if_neg (by simp [dirty])]
  split
  · rename_i replace
    obtain ⟨n, at_⟩ := Option.isSome_iff_exists.1 (there.2 replace)
    unfold State.replaceFile
    rw [at_]
    exact ⟨_, Function.update_self .., rfl⟩
  · rename_i replace
    have absent : v.volume f.path = none := by
      cases at_ : v.volume f.path with
      | none => rfl
      | some n => exact absurd (there.1 (by rw [at_]; rfl)) replace
    unfold State.createFile
    rw [absent]
    exact ⟨_, Function.update_self .., rfl⟩

/-- And of any other, what was there. -/
theorem diskClose_keeps {v : State} {commits : Bool}
    (not : ¬(f.dirty = true ∧ commits = true ∧
      ((v.volume f.path).isSome = true ↔ f.flags.testBit openReplace = true))) :
    (v.diskClose f commits).volume = v.volume := by
  unfold State.diskClose
  split
  · rfl
  rename_i dirty
  have dirty : f.dirty = true := by simpa using dirty
  split
  · rename_i replace
    unfold State.replaceFile
    split
    · rename_i n at_
      split
      · exact absurd ⟨dirty, ‹_›, fun _ => replace, fun _ => by rw [at_]; rfl⟩ not
      · rfl
    · rfl
  · rename_i replace
    unfold State.createFile
    split
    · rfl
    · rename_i absent
      split
      · exact absurd ⟨dirty, ‹_›, by rw [absent]; simp, fun set => absurd set replace⟩ not
      · rfl

theorem diskClose_elsewhere {v : State} {commits : Bool} {other : Path} (differs : other ≠ f.path) :
    (v.diskClose f commits).volume other = v.volume other := by
  unfold State.diskClose State.replaceFile State.createFile
  split
  · rfl
  split
  · split
    · split
      · exact Function.update_of_ne differs ..
      · rfl
    · rfl
  · split
    · rfl
    · split
      · exact Function.update_of_ne differs ..
      · rfl

/-- Whatever was in the memory that an open file has for its buffer, its reads give the bytes, and a
close that saves it leaves the contents, that what the file had and what was written to it make, with
zeros where nothing was. A close that does not leaves what was there, and no close touches another
file. -/
theorem holds_only_written (before : Nat → Nat) (p : Process) (s : State) (path : Path)
    (flags mode : Nat) (a : Around) (f : DiskFile)
    (opened : reconfsOpenIn before p s path flags mode a = some f) (calls : List FileCall) :
    descriptor.answers f calls = plain.answers ⟨previous s path flags, 0⟩ calls ∧
      (descriptor.run f calls).contents = (plain.run ⟨previous s path flags, 0⟩ calls).contents ∧
      ∀ (v : State) commits,
        (Saves v path flags ⟨previous s path flags, 0⟩ calls commits →
          ∃ n, (v.diskClose (descriptor.run f calls) commits).volume path = some n ∧
            n.contents = (plain.run ⟨previous s path flags, 0⟩ calls).contents) ∧
        (¬Saves v path flags ⟨previous s path flags, 0⟩ calls commits →
          (v.diskClose (descriptor.run f calls) commits).volume path = v.volume path) ∧
        ∀ other, other ≠ path →
          (v.diskClose (descriptor.run f calls) commits).volume other = v.volume other := by
  obtain ⟨⟨at_, asked, made⟩, holds⟩ := opened_holds opened
  have same := (descriptor_plain.run holds (descriptor.meets_any f calls)).contents
  refine ⟨descriptor_plain.answers holds (descriptor.meets_any f calls), same, ?_⟩
  intro v commits
  obtain ⟨path_, flags_, dirty⟩ := descriptor_run holds calls
  rw [at_] at path_
  rw [asked] at flags_
  rw [made] at dirty
  rw [← same]
  clear same holds opened at_ asked made
  generalize descriptor.run f calls = closed at path_ flags_ dirty
  subst path_ flags_
  unfold Saves
  rw [← dirty]
  refine ⟨?_, fun not => congrFun (diskClose_keeps not) _, fun _ => diskClose_elsewhere⟩
  rintro ⟨dirty, rfl, there⟩
  exact diskClose_saves dirty there

/-- A file made over a buffer of other bytes, written past its end, read and closed. -/
theorem holds_only_written_hole : ∃ f,
    reconfsOpenIn (fun _ => 255) ⟨1, 1, false⟩ ⟨fun _ => none, fun _ => none⟩ [47, 97] 6 0o644
      ⟨true, true, true, true⟩ = some f ∧
    descriptor.answers f [.seek 2 0, .write [7], .seek 0 0, .read 9] = [[], [], [], [0, 0, 7]] ∧
    ∃ n, (State.diskClose ⟨fun _ => none, fun _ => none⟩
      (descriptor.run f [.seek 2 0, .write [7], .seek 0 0, .read 9]) true).volume [47, 97] = some n ∧
      n.contents = [0, 0, 7] := by
  refine ⟨_, rfl, ?_⟩
  obtain ⟨answers, -, closes⟩ := holds_only_written (fun _ => 255) ⟨1, 1, false⟩
    ⟨fun _ => none, fun _ => none⟩ [47, 97] 6 0o644 ⟨true, true, true, true⟩ _ rfl
    [.seek 2 0, .write [7], .seek 0 0, .read 9]
  obtain ⟨n, left, holds⟩ := (closes ⟨fun _ => none, fun _ => none⟩ true).1
    ⟨.inl (by decide), rfl, by decide⟩
  refine ⟨answers.trans (by decide), n, left, holds.trans ?_⟩
  decide

end ReconOS.Vfs
