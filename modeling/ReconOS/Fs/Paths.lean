import ReconOS.Lib.Prog
import ReconOS.Libc.Decimal

/-! The host's files, as the calls made on them change them. There are no links: a path leads where
its names say. -/
namespace ReconOS.Fs

open Libc Lib

/-- From the host's own root. -/
abbrev Path := List Text

inductive Node where
  | dir
  | file (bytes : Text)
  /-- A device or a pipe: it is moved and removed, and nothing is kept in it. -/
  | other
  deriving DecidableEq

abbrev Tree := List (Path × Node)

namespace Tree

def get (t : Tree) (p : Path) : Option Node := (t.find? fun e => e.1 = p).map Prod.snd

def put (t : Tree) (p : Path) (n : Node) : Tree := (p, n) :: t.filter fun e => e.1 ≠ p

def erase (t : Tree) (p : Path) : Tree := t.filter fun e => e.1 ≠ p

/-- What is at or under one place is at or under another. -/
def moved (a b p : Path) : Path := if a <+: p then b ++ p.drop a.length else p

def move (t : Tree) (a b : Path) : Tree := t.map fun e => (moved a b e.1, e.2)

def isDir (t : Tree) (p : Path) : Bool := t.get p = some .dir

/-- A name is in a directory that is there. -/
def parentIsDir (t : Tree) (p : Path) : Bool := t.isDir p.dropLast

/-- The names in a directory, in the order the host hands them over. -/
def children (t : Tree) (p : Path) : List Text :=
  t.filterMap fun e => if e.1.dropLast = p then e.1.getLast? else none

theorem get_put (t : Tree) (p : Path) (n : Node) (q : Path) :
    (t.put p n).get q = if q = p then some n else t.get q := by
  unfold get put
  by_cases same : q = p
  · simp [same]
  · rw [if_neg same, List.find?_cons_of_neg (by simpa using Ne.symm same), List.find?_filter]
    congr 2
    funext e
    by_cases here : e.1 = q <;> simp [here, same]

theorem get_erase (t : Tree) (p q : Path) :
    (t.erase p).get q = if q = p then none else t.get q := by
  unfold get erase
  rw [List.find?_filter]
  by_cases same : q = p
  · rw [if_pos same, Option.map_eq_none_iff, List.find?_eq_none]
    intro e _
    simp [same]
  · rw [if_neg same]
    congr 2
    funext e
    by_cases here : e.1 = q <;> simp [here, same]

theorem moved_of_not {a b p : Path} (not : ¬a <+: p) : moved a b p = p := if_neg not

/-- Neither under the one place nor under the other. -/
theorem get_move_of_not (t : Tree) {a b q : Path} (source : ¬a <+: q) (target : ¬b <+: q) :
    (t.move a b).get q = t.get q := by
  have same : ∀ p, moved a b p = q ↔ p = q := by
    intro p
    unfold moved
    split
    case isTrue under =>
      constructor
      · intro is
        exact absurd ⟨_, is⟩ target
      · intro is
        exact absurd (is ▸ under) source
    case isFalse => exact Iff.rfl
  unfold get move
  rw [List.find?_map, Option.map_map]
  simp only [Function.comp_def, same]

end Tree

/-! ## Calls -/

/-- What becomes of a call on the host, apart from what the tree itself rules out. -/
inductive Answer where
  | granted
  | refused
  /-- So much of a write landed. -/
  | short (n : Nat)
  deriving DecidableEq

/-- The tree, and the answers to the calls to come. What has no answer is granted. -/
structure World where
  tree : Tree
  answers : List Answer
  deriving DecidableEq

abbrev Op := Prog World Unit

def ask : Op Answer := fun w =>
  (.ok (w.answers.headD .granted), { w with answers := w.answers.tail })

def change (f : Tree → Tree) : Op Unit := Prog.modify fun w => { w with tree := f w.tree }

def orFail {α : Type} : Option α → Op α
  | some a => pure a
  | none => Prog.fail ()

/-- Whether it ended well. -/
def succeeds (m : Op Unit) : Op Bool := fun w =>
  match m w with
  | (.ok _, w) => (.ok true, w)
  | (.error _, w) => (.ok false, w)

/-- A call that the tree and the host both have to allow. One that fails changes nothing. -/
def call (possible : Tree → Bool) (f : Tree → Tree) : Op Unit := fun w =>
  if w.answers.headD .granted = .granted ∧ possible w.tree = true then
    (.ok (), ⟨f w.tree, w.answers.tail⟩)
  else (.error (), ⟨w.tree, w.answers.tail⟩)

def hostUnlink (p : Path) : Op Unit :=
  call (fun t => (t.get p).any (· ≠ .dir)) (·.erase p)

def hostRmdir (p : Path) : Op Unit :=
  call (fun t => t.isDir p && (t.children p).isEmpty) (·.erase p)

def hostMkdir (p : Path) : Op Unit :=
  call (fun t => (t.get p).isNone && t.parentIsDir p) (·.put p .dir)

/-- One that is there already is none to make. -/
def hostMkdirIfMissing (p : Path) : Op Unit := do
  let w ← Prog.get
  if (w.tree.get p).isSome then pure () else hostMkdir p

/-- Where nothing is at the new place. -/
def hostRename (a b : Path) : Op Unit :=
  call (fun t => (t.get a).isSome && (t.get b).isNone && t.parentIsDir b) (·.move a b)

def canOpen (p : Path) (t : Tree) : Bool :=
  match t.get p with
  | some (.file _) => true
  | none => t.parentIsDir p
  | _ => false

/-- `fopen` to write: an empty file, or one that keeps what it has. -/
def hostOpen (p : Path) (keep : Bool) : Op Unit :=
  call (canOpen p) fun t =>
    match t.get p, keep with
    | some (.file bytes), true => t.put p (.file bytes)
    | _, _ => t.put p (.file [])

def addBytes (p : Path) (bytes : Text) (t : Tree) : Tree :=
  match t.get p with
  | some (.file old) => t.put p (.file (old ++ bytes))
  | _ => t

/-- `fwrite` at the end of an open file, all of it or not. Nothing to write is no call. -/
def hostWrite (p : Path) (bytes : Text) : Op Unit := do
  if bytes = [] then pure ()
  else do
    let answer ← ask
    match answer with
    | .granted => change (addBytes p bytes)
    | .short n => do
      change (addBytes p (bytes.take n))
      Prog.fail ()
    | .refused => Prog.fail ()

/-- `O_EXCL`: it is made or it is not opened. -/
def hostCreate (p : Path) : Op Unit :=
  call (fun t => (t.get p).isNone && t.parentIsDir p) (·.put p (.file []))

/-! Paths: what a written one is once `.` and `..` are applied, where that is on the host, and whose
place it is in. -/

def pathMax : Nat := 1024
def nameMax : Nat := 256
def segmentsMax : Nat := 64

/-! ## The layout -/

def systemName : Text := "System".toList
def appsName : Text := "Apps".toList
def usersName : Text := "Users".toList
def trashName : Text := ".Trash".toList

/-- `RECON_DIR_SYSTEM` and the rest: the directories the layout is made of. -/
def structureDirs : List Path :=
  [[], [systemName], [systemName, appsName], [systemName, "Config".toList],
    [systemName, "Themes".toList], [systemName, "Icons".toList], [systemName, "Modules".toList],
    [systemName, "Logs".toList], [appsName], [usersName], ["Temp".toList]]

/-! ## Canonical paths -/

/-- A canonical path as it is written. -/
def canonicalText (p : Path) : Text := if p = [] then ['/'] else p.flatMap ('/' :: ·)

/-- What is read, from the working directory where it is relative. -/
def workText (cwd path : Text) : Text :=
  let path := if path.isEmpty then ['.'] else path
  textCopy (pathMax * 2)
    (if path.head? = some '/' then path
    else
      let base := if cwd.isEmpty then ['/'] else cwd
      if base = ['/'] then '/' :: path else base ++ '/' :: path)

/-- The segments as a stack. A `..` too many fails rather than being clamped. -/
def walkSegments (stack : Path) : List Text → Option Path
  | [] => some stack
  | token :: rest =>
    if token = ['.'] then walkSegments stack rest
    else if token = ['.', '.'] then
      if stack = [] then none else walkSegments stack.dropLast rest
    else if stack.length ≥ segmentsMax then none
    else walkSegments (stack ++ [token]) rest

def normalize (cwd path : Text) : Option Path :=
  match walkSegments [] (Text.tokens '/' (workText cwd path)) with
  | some p => if p = [] ∨ (canonicalText p).length < pathMax then some p else none
  | none => none

/-! ## On the host -/

/-- Who is signed in, and where the tree they see begins. -/
structure Session where
  root : Path
  user : Text
  admin : Bool
  /-- How deep the host's stack lets a walk call itself. -/
  stack : Nat
  /-- `qsort`, which puts a listing in some order. -/
  sorted : List Text → List Text

def Session.host (s : Session) (p : Path) : Path := s.root ++ p

/-- How long the name of that is. -/
def Session.hostLength (s : Session) (p : Path) : Nat :=
  (canonicalText s.root).length + if p = [] then 0 else (canonicalText p).length

/-- The deepest part of a path that is there, so many names up at most. -/
def deepestFrom (t : Tree) : Nat → Path → Option Path
  | 0, p => if (t.get p).isSome then some p else none
  | up + 1, p => if (t.get p).isSome then some p else deepestFrom t up p.dropLast

def deepest (t : Tree) (p : Path) : Option Path := deepestFrom t p.length p

def staysInside (s : Session) (t : Tree) (p : Path) : Bool :=
  (deepest t p).any fun real => s.root <+: real

/-- `recon_fs_resolve`: the canonical path, where there is one. -/
def resolve (s : Session) (t : Tree) (cwd path : Text) : Option Path :=
  match normalize cwd path with
  | some p => if s.hostLength p < pathMax ∧ staysInside s t (s.host p) = true then some p else none
  | none => none

/-! ## Whose place it is -/

def isProtected (p : Path) : Bool := [systemName].isPrefixOf p

def isStructural (p : Path) : Bool := p ∈ structureDirs

def belongsToAnotherUser (user : Text) (p : Path) : Bool :=
  match p with
  | first :: name :: _ => first = usersName && name ≠ user
  | _ => false

/-- `recon_fs_refusal` has nothing to say, or the path will fail for its own reasons. -/
def permitted (s : Session) (t : Tree) (cwd path : Text) : Bool :=
  s.admin ||
    match resolve s t cwd path with
    | none => true
    | some p => !isProtected p && !belongsToAnotherUser s.user p

def readable (s : Session) (t : Tree) (cwd path : Text) : Bool :=
  s.admin ||
    match resolve s t cwd path with
    | none => true
    | some p => !belongsToAnotherUser s.user p

/-- `stat`: what is there, where anything is. -/
def stat (s : Session) (t : Tree) (cwd path : Text) : Option Node :=
  (resolve s t cwd path).bind fun p => t.get (s.host p)

def fsExists (s : Session) (t : Tree) (cwd path : Text) : Bool := (stat s t cwd path).isSome

/-- `recon_fs_user_dir`. -/
def userDir (s : Session) : Text :=
  textCopy pathMax ('/' :: usersName ++ '/' :: s.user)

inductive Volume where
  | system | programs | user
  deriving DecidableEq

/-- The space a path is in. -/
def volumeOf (s : Session) (t : Tree) (cwd path : Text) : Volume :=
  match resolve s t cwd path with
  | none => .system
  | some p =>
    if [usersName] <+: p then .user else if [appsName] <+: p then .programs else .system

end ReconOS.Fs
