import ReconOS.Fs.Paths

/-! What is done to files: writing, making, removing, renaming and copying, each after its checks,
and the recycle bin over them. -/
namespace ReconOS.Fs

open Libc Lib

variable (s : Session)

/-- Where a path leads, for whoever may write there. -/
def allowedAt (cwd path : Text) : Op Path := do
  let w ← Prog.get
  Prog.ensure (permitted s w.tree cwd path = true) ()
  orFail (resolve s w.tree cwd path)

/-! ## Contents -/

/-- A file opens to be read, or does not. A directory is none. -/
def fsRead (cwd path : Text) : Op Text := do
  let w ← Prog.get
  let p ← orFail (resolve s w.tree cwd path)
  Prog.ensure (readable s w.tree cwd path = true) ()
  let answer ← ask
  Prog.ensure (answer = .granted) ()
  match w.tree.get (s.host p) with
  | some (.file bytes) => pure bytes
  | _ => Prog.fail ()

def writeFile (keep : Bool) (cwd path data : Text) : Op Unit := do
  let p ← allowedAt s cwd path
  hostOpen (s.host p) keep
  hostWrite (s.host p) data

def write (cwd path data : Text) : Op Unit := writeFile s false cwd path data

def append (cwd path data : Text) : Op Unit := writeFile s true cwd path data

/-- What is half written is taken away. -/
def writeWhole (p : Path) (data : Text) : Op Unit := do
  if ← succeeds (hostWrite p data) then pure ()
  else do
    let _ ← succeeds (hostUnlink p)
    Prog.fail ()

def writePrivate (cwd path data : Text) : Op Unit := do
  let p ← allowedAt s cwd path
  let w ← Prog.get
  -- Removed first, so that what follows makes it. A missing one is no failure.
  Prog.when ((w.tree.get (s.host p)).isSome = true) (hostUnlink (s.host p))
  hostCreate (s.host p)
  writeWhole (s.host p) data

def mkdir (cwd path : Text) : Op Unit := do
  let p ← allowedAt s cwd path
  hostMkdir (s.host p)

/-! ## Removing -/

def remove (cwd path : Text) : Op Unit := do
  let p ← allowedAt s cwd path
  Prog.ensure (isStructural p = false) ()
  let w ← Prog.get
  match w.tree.get (s.host p) with
  | none => Prog.fail ()
  | some .dir => hostRmdir (s.host p)
  | some _ => hostUnlink (s.host p)

/-- A host path in a buffer of its own: where it leads, and how long it is. -/
structure Spot where
  place : Path
  length : Nat

/-- A name in a directory. What does not fit is cut off, and a cut name leads elsewhere. -/
def Spot.child (h : Spot) (name : Text) : Spot :=
  let length := min (h.length + 1 + name.length) (pathMax * 2 - 1)
  let kept := name.take (length - h.length - 1)
  ⟨if kept = [] ∨ kept = ['.'] then h.place
    else if kept = ['.', '.'] then h.place.dropLast
    else h.place ++ [kept], length⟩

def spotOf (p : Path) : Spot := ⟨s.host p, s.hostLength p⟩

/-- What a directory holds, read to its end. No entry's name is empty. -/
def readNames (p : Path) : Op (List Text) := do
  let answer ← ask
  Prog.ensure (answer = .granted) ()
  let w ← Prog.get
  pure ((w.tree.children p).filter fun name => name ≠ [] ∧ name ≠ ['.'] ∧ name ≠ ['.', '.'])

/-- Depth first. At 0 the stack has run out. -/
def removeTreeHost : Nat → Spot → Op Unit
  | 0, _ => Prog.fail ()
  | stack + 1, h => do
    let w ← Prog.get
    match w.tree.get h.place with
    | none => Prog.fail ()
    | some .dir => do
      let names ← readNames h.place
      Prog.each names fun name => removeTreeHost stack (h.child name)
      hostRmdir h.place
    | some _ => hostUnlink h.place

def removeTree (cwd path : Text) : Op Unit := do
  let p ← allowedAt s cwd path
  Prog.ensure (isStructural p = false) ()
  let w ← Prog.get
  Prog.ensure ((w.tree.get (s.host p)).isSome = true) ()
  removeTreeHost s.stack (spotOf s p)

/-! ## Renaming and copying -/

/-- Both ends: moving something out of a place is as much a change to it as writing into it. -/
def rename (cwd source target : Text) : Op Unit := do
  let w ← Prog.get
  Prog.ensure (permitted s w.tree cwd source = true ∧ permitted s w.tree cwd target = true) ()
  let a ← orFail (resolve s w.tree cwd source)
  let b ← orFail (resolve s w.tree cwd target)
  Prog.ensure (isStructural a = false ∧ isStructural b = false) ()
  if a = b then pure ()
  else do
    -- Moving a directory into itself would leave it unreachable.
    Prog.ensure (¬a <+: b) ()
    Prog.ensure ((w.tree.get (s.host b)).isNone = true) ()
    hostRename (s.host a) (s.host b)

def copyFileHost (source target : Path) : Op Unit := do
  let w ← Prog.get
  match w.tree.get source with
  | some (.file bytes) => do
    let answer ← ask
    Prog.ensure (answer = .granted) ()
    hostOpen target false
    writeWhole target bytes
  | _ => Prog.fail ()

def copyTreeHost : Nat → Spot → Spot → Op Unit
  | 0, _, _ => Prog.fail ()
  | stack + 1, source, target => do
    let w ← Prog.get
    match w.tree.get source.place with
    | some .dir => do
      hostMkdirIfMissing target.place
      let names ← readNames source.place
      Prog.each names fun name => copyTreeHost stack (source.child name) (target.child name)
    | some (.file _) => copyFileHost source.place target.place
    | _ => Prog.fail ()

/-- Only the target is asked about. -/
def copy (cwd source target : Text) : Op Unit := do
  let w ← Prog.get
  Prog.ensure (permitted s w.tree cwd target = true) ()
  let a ← orFail (resolve s w.tree cwd source)
  let b ← orFail (resolve s w.tree cwd target)
  Prog.ensure (isStructural b = false) ()
  Prog.ensure (¬a <+: b) ()
  Prog.ensure ((w.tree.get (s.host b)).isNone = true) ()
  copyTreeHost s.stack (spotOf s a) (spotOf s b)

/-! ## The recycle bin -/

/-- `recon_fs_join`. -/
def join (size : Nat) (dir name : Text) : Option Text :=
  let whole := if dir ≠ [] ∧ dir.getLast? ≠ some '/' then dir ++ '/' :: name else dir ++ name
  if whole.length < size then some whole else none

/-- Refused rather than cut: a cut path is another file's. -/
def trashJoin (dir name suffix : Text) : Option Text :=
  let whole := dir ++ '/' :: name ++ suffix
  if whole.length < pathMax then some whole else none

def trashRoot : Text := trashName
def trashFiles : Text := trashName ++ "/files".toList
def trashInfo : Text := trashName ++ "/info".toList
def originSuffix : Text := ".origin".toList

def volumeTrashBase : Volume → Text
  | .system => '/' :: systemName
  | .programs => '/' :: appsName
  | .user => userDir s

def trashSubdirIn (volume : Volume) (which : Text) : Text :=
  (trashJoin (volumeTrashBase s volume) which []).getD []

/-- Where a host path leads, as far as what it goes through is directories. -/
def walkHost (t : Tree) (here : Path) : List Text → Option Path
  | [] => some here
  | name :: rest =>
    if t.isDir here then
      if name = ['.'] then walkHost t here rest
      else if name = ['.', '.'] then walkHost t here.dropLast rest
      else walkHost t (here ++ [name]) rest
    else none

/-- The names a host path goes through, in the buffer it is copied to. -/
def makeNames (path : Text) : List Text :=
  Text.tokens '/' (textCopy pathMax (canonicalText s.root ++ path))

/-- Every directory along a path that is not there yet. The path is put together with the root's as
it is written, and no rule is asked. -/
def makeTree (path : Text) : Op Unit :=
  Prog.each (makeNames s path).inits.tail fun names => do
    let w ← Prog.get
    let p ← orFail (walkHost w.tree [] names)
    hostMkdirIfMissing p

def ensureTrashIn (volume : Volume) : Op Unit :=
  Prog.each [trashRoot, trashFiles, trashInfo] fun dir =>
    match trashJoin (volumeTrashBase s volume) dir [] with
    | some path => makeTree s path
    | none => pure ()

def isTrash (t : Tree) (cwd path : Text) : Bool :=
  match resolve s t cwd path, trashJoin (userDir s) trashRoot [] with
  | some p, some root =>
    root.isPrefixOf (canonicalText p) &&
      ((canonicalText p).length = root.length || (canonicalText p)[root.length]? = some '/')
  | _, _ => false

/-- The name and its extension, which begins at the last dot but for one that comes first. -/
def splitExtension (leaf : Text) : Text × Text :=
  let base := textCopy nameMax leaf
  let back := base.reverse
  let after := back.takeWhile (· ≠ '.')
  let before := (back.drop (after.length + 1)).reverse
  if '.' ∈ base ∧ before ≠ [] then (before, '.' :: after.reverse) else (base, [])

/-- A name nothing has yet: the plain one, then numbered ones. -/
def uniqueLoop (t : Tree) (cwd directory base extension : Text) : Nat → Nat → Option Text
  | 0, _ => none
  | left + 1, attempt =>
    let candidate := textCopy nameMax
      (if attempt = 1 then base ++ extension
        else base ++ ' ' :: (toString attempt).toList ++ extension)
    let full := textCopy pathMax
      (if directory = ['/'] then '/' :: candidate else directory ++ '/' :: candidate)
    if fsExists s t cwd full then uniqueLoop t cwd directory base extension left (attempt + 1)
    else some candidate

def uniqueName (t : Tree) (cwd directory base extension : Text) : Option Text :=
  uniqueLoop s t cwd directory base extension 999 1

/-- Into the bin of a space, under a name that is free in it. -/
def moveToBin (volume : Volume) (p : Path) : Op Unit := do
  ensureTrashIn s volume
  let (base, extension) := splitExtension (p.getLastD [])
  let files := trashSubdirIn s volume trashFiles
  let w ← Prog.get
  let name ← orFail (uniqueName s w.tree ['/'] files base extension)
  let target ← orFail (join pathMax files name)
  rename s ['/'] (canonicalText p) target
  -- The note comes after the move: a file without one can still be purged.
  match trashJoin (trashSubdirIn s volume trashInfo) name originSuffix with
  | none => pure ()
  | some info => do
    let _ ← succeeds (write s ['/'] info (canonicalText p ++ ['\n']))
    pure ()

def trash (cwd path : Text) : Op Unit := do
  let w ← Prog.get
  let p ← orFail (resolve s w.tree cwd path)
  Prog.ensure (isProtected p = false ∧ isTrash s w.tree cwd path = false ∧ p ≠ [] ∧
    fsExists s w.tree cwd (canonicalText p) = true) ()
  moveToBin s (volumeOf s w.tree cwd (canonicalText p)) p

/-- Where a file in the bin came from, as its note says. -/
def trashOrigin (name : Text) : Op Text := do
  let info ← orFail (trashJoin (trashSubdirIn s .user trashInfo) name originSuffix)
  let data ← fsRead s ['/'] info
  let origin := textCopy pathMax ((cstring data).takeWhile (· ≠ '\n'))
  Prog.ensure (origin ≠ []) ()
  pure origin

/-- What is before the last `/`, unless that is the first character. -/
def parentOf (path : Text) : Option Text :=
  if '/' ∈ path.tail then some ((path.reverse.dropWhile (· ≠ '/')).tail.reverse) else none

def forgetNote (name : Text) : Op Unit :=
  match trashJoin (trashSubdirIn s .user trashInfo) name originSuffix with
  | none => pure ()
  | some info => do
    let _ ← succeeds (remove s ['/'] info)
    pure ()

/-- The folder a file came from may have been deleted since. -/
def remakeFolder (origin : Text) : Op Unit :=
  match parentOf origin with
  | some parent => makeTree s parent
  | none => pure ()

/-- Back to where it came from. -/
def restoreTo (name origin : Text) : Op Unit := do
  let source ← orFail (trashJoin (trashSubdirIn s .user trashFiles) name [])
  let w ← Prog.get
  Prog.ensure (fsExists s w.tree ['/'] origin = false) ()
  remakeFolder s origin
  rename s ['/'] source origin
  forgetNote s name

def trashRestore (name : Text) : Op Unit := do
  Prog.ensure (name ≠ [] ∧ '/' ∉ name) ()
  let origin ← trashOrigin s name
  restoreTo s name origin

def trashPurge (name : Text) : Op Unit := do
  Prog.ensure (name ≠ [] ∧ '/' ∉ name) ()
  let target ← orFail (trashJoin (trashSubdirIn s .user trashFiles) name [])
  let w ← Prog.get
  (if stat s w.tree ['/'] target = some .dir then removeTree s ['/'] target
    else remove s ['/'] target)
  forgetNote s name

/-- The names in a directory, as many as the array takes, in the order they are shown in. -/
def list (max : Nat) (cwd path : Text) : Op (List Text) := do
  let w ← Prog.get
  let p ← orFail (resolve s w.tree cwd path)
  Prog.ensure (readable s w.tree cwd path = true) ()
  Prog.ensure (w.tree.isDir (s.host p) = true) ()
  let names ← readNames (s.host p)
  pure (s.sorted ((names.take max).map (textCopy nameMax)))

def trashEmpty : Op Unit := do
  match ← Prog.attempt (fun _ => false) (list s 512 ['/'] (trashSubdirIn s .user trashFiles)) with
  -- No bin yet is an empty bin.
  | .error _ => pure ()
  | .ok names =>
    Prog.each names fun name => do
      let _ ← succeeds (trashPurge s name)
      pure ()

/-! ## Whoever is signed in, at work -/

inductive Call where
  | write (cwd path data : Text)
  | append (cwd path data : Text)
  | writePrivate (cwd path data : Text)
  | mkdir (cwd path : Text)
  | remove (cwd path : Text)
  | removeTree (cwd path : Text)
  | rename (cwd source target : Text)
  | copy (cwd source target : Text)
  | trash (cwd path : Text)
  | trashRestore (name : Text)
  | trashPurge (name : Text)
  | trashEmpty
  deriving DecidableEq

def called : Call → Op Unit
  | .write cwd path data => write s cwd path data
  | .append cwd path data => append s cwd path data
  | .writePrivate cwd path data => writePrivate s cwd path data
  | .mkdir cwd path => mkdir s cwd path
  | .remove cwd path => remove s cwd path
  | .removeTree cwd path => removeTree s cwd path
  | .rename cwd source target => rename s cwd source target
  | .copy cwd source target => copy s cwd source target
  | .trash cwd path => trash s cwd path
  | .trashRestore name => trashRestore s name
  | .trashPurge name => trashPurge s name
  | .trashEmpty => trashEmpty s

def step (w : World) (c : Call) : World := (called s c w).2

end ReconOS.Fs

/-! What the calls show whoever makes them: listings with their details, sizes, contents and what
became of a change. -/
namespace ReconOS.Fs

open Libc Lib

inductive FileKind where
  | regular | directory | other
  deriving DecidableEq

/-- `recon_dirent`, but for when it last changed. -/
structure Dirent where
  name : Text
  kind : FileKind
  size : Nat
  deriving DecidableEq

/-- `qsort` on a listing, and what the host says of the size of a directory with such names in it. -/
structure Shelf where
  sorted : List Dirent → List Dirent
  dirSize : List Text → Nat

variable (s : Session) (shelf : Shelf)

def kindOf : Node → FileKind
  | .dir => .directory
  | .file _ => .regular
  | .other => .other

def sizeAt (t : Tree) (p : Path) : Node → Nat
  | .dir => shelf.dirSize (t.children p)
  | .file bytes => bytes.length
  | .other => 0

def direntOf (t : Tree) (p : Path) (name : Text) : Dirent :=
  match t.get p with
  | some node => ⟨textCopy nameMax name, kindOf node, sizeAt shelf t p node⟩
  | none => ⟨textCopy nameMax name, .other, 0⟩

/-! ## Queries -/

/-- `recon_fs_stat` with somewhere to put it. -/
def statOf (cwd path : Text) : Op Dirent := do
  let w ← Prog.get
  let p ← orFail (resolve s w.tree cwd path)
  Prog.ensure ((w.tree.get (s.host p)).isSome = true) ()
  pure (direntOf shelf w.tree (s.host p) (p.getLastD ['/']))

/-- `recon_fs_list`: how many there are, and as many of them as the array takes. -/
def listAll (max : Nat) (cwd path : Text) : Op (Nat × List Dirent) := do
  let w ← Prog.get
  let p ← orFail (resolve s w.tree cwd path)
  Prog.ensure (readable s w.tree cwd path = true) ()
  Prog.ensure (w.tree.isDir (s.host p) = true) ()
  let names ← readNames (s.host p)
  pure (names.length,
    shelf.sorted ((names.take max).map fun name => direntOf shelf w.tree (s.host p ++ [name]) name))

def usageDepthMax : Nat := 32

/-- Bytes and files, added up over the entries of a listing. -/
def totalOver (count : Dirent → Op (Nat × Nat)) : List Dirent → Op (Nat × Nat)
  | [] => pure (0, 0)
  | d :: rest => do
    let here ← count d
    let there ← totalOver count rest
    pure (here.1 + there.1, here.2 + there.2)

/-- A folder that cannot be read adds nothing. It is listed twice: for its size, then in full. -/
def usageWalk : Nat → Text → Op (Nat × Nat)
  | 0, _ => pure (0, 0)
  | depth + 1, path => do
    match ← Prog.attempt (fun _ => false) (listAll s shelf 0 [] path) with
    | .error _ => pure (0, 0)
    | .ok (count, _) =>
      if count = 0 then pure (0, 0)
      else
        match ← Prog.attempt (fun _ => false) (listAll s shelf count [] path) with
        | .error _ => pure (0, 0)
        | .ok (_, entries) =>
          totalOver (fun d =>
            match join pathMax path d.name with
            | none => pure (0, 0)
            | some child =>
              if d.kind = .directory then usageWalk depth child else pure (d.size, 1)) entries

/-- The walk begins where the path leads without the working directory. -/
def usage (cwd path : Text) : Op (Nat × Nat) := do
  let info ← statOf s shelf cwd path
  if info.kind = .directory then usageWalk s shelf (usageDepthMax + 1) path
  else pure (info.size, 1)

/-- The first bytes of a file, or none. -/
def readHead (cwd path : Text) (max : Nat) : Op Text := do
  let bytes ← Prog.attempt (fun _ => false) (fsRead s cwd path)
  match bytes with
  | .error _ => pure []
  | .ok bytes => pure (bytes.take max)

def trashCountIn (volume : Volume) : Op Nat := do
  match ← Prog.attempt (fun _ => false)
    (listAll s shelf 0 ['/'] (trashSubdirIn s volume trashFiles)) with
  | .error _ => pure 0
  | .ok (count, _) => pure count

def trashUsageIn (volume : Volume) : Op (Nat × Nat) := do
  match ← Prog.attempt (fun _ => false)
    (usage s shelf ['/'] (trashSubdirIn s volume trashFiles)) with
  | .error _ => pure (0, 0)
  | .ok total => pure total

/-! ## Changes that no call of the desktop's makes -/

def userFolders : List Text :=
  ["Desktop".toList, "Documents".toList, "Downloads".toList, "Music".toList, "Pictures".toList,
    "Videos".toList, trashRoot, trashFiles, trashInfo]

def createUser (name : Text) : Op Unit := do
  Prog.ensure (name ≠ [] ∧ '/' ∉ name) ()
  let dir := '/' :: usersName ++ '/' :: name
  makeTree s dir
  Prog.each userFolders fun folder => makeTree s (dir ++ '/' :: folder)

/-- `recon_fs_trash_empty_in` for a space that is not an account's. -/
def trashEmptyOther (volume : Volume) : Op Unit := do
  let files := trashSubdirIn s volume trashFiles
  match ← Prog.attempt (fun _ => false) (list s 512 ['/'] files) with
  | .error _ => pure ()
  | .ok names =>
    Prog.each names fun name =>
      match join pathMax files name with
      | none => pure ()
      | some victim => do
        let _ ← succeeds (removeTree s ['/'] victim)
        match trashJoin (trashSubdirIn s volume trashInfo) name originSuffix with
        | none => pure ()
        | some info => do
          let _ ← succeeds (remove s ['/'] info)
          pure ()

def trashEmptyIn (volume : Volume) : Op Unit :=
  if volume = .user then trashEmpty s else trashEmptyOther s volume

/-! ## Whoever is signed in, asking -/

inductive Request where
  | act (call : Call)
  | createUser (name : Text)
  | trashEmptyIn (volume : Volume)
  | read (cwd path : Text)
  | readHead (cwd path : Text) (max : Nat)
  | list (max : Nat) (cwd path : Text)
  | stat (cwd path : Text)
  | usage (cwd path : Text)
  | fsExists (cwd path : Text)
  | uniqueName (cwd directory base extension : Text)
  | trashOrigin (name : Text)
  | trashCountIn (volume : Volume)
  | trashUsageIn (volume : Volume)
  deriving DecidableEq

inductive Reply where
  /-- It is made. A bin is emptied as far as it went. -/
  | done
  | bytes (text : Text)
  | listing (count : Nat) (entries : List Dirent)
  | totals (bytes files : Nat)
  | answer (yes : Bool)
  deriving DecidableEq

def replied : Request → Op Reply
  | .act call => do called s call; pure .done
  | .createUser name => do Fs.createUser s name; pure .done
  | .trashEmptyIn volume => do Fs.trashEmptyIn s volume; pure .done
  | .read cwd path => do let text ← fsRead s cwd path; pure (.bytes text)
  | .readHead cwd path max => do let text ← Fs.readHead s cwd path max; pure (.bytes text)
  | .list max cwd path => do
    let (count, entries) ← listAll s shelf max cwd path
    pure (.listing count entries)
  | .stat cwd path => do let entry ← statOf s shelf cwd path; pure (.listing 1 [entry])
  | .usage cwd path => do let (bytes, files) ← Fs.usage s shelf cwd path; pure (.totals bytes files)
  | .fsExists cwd path => do
    let w ← Prog.get
    pure (.answer (Fs.fsExists s w.tree cwd path))
  | .uniqueName cwd directory base extension => do
    let w ← Prog.get
    let name ← orFail (Fs.uniqueName s w.tree cwd directory base extension)
    pure (.bytes name)
  | .trashOrigin name => do let origin ← Fs.trashOrigin s name; pure (.bytes origin)
  | .trashCountIn volume => do
    let count ← Fs.trashCountIn s shelf volume
    pure (.listing count [])
  | .trashUsageIn volume => do
    let (bytes, files) ← Fs.trashUsageIn s shelf volume
    pure (.totals bytes files)

def served (w : World) (r : Request) : World := (replied s shelf r w).2

/-- What each request of a run is answered with, a failure or what was asked for. -/
def replies (w : World) : List Request → List (Except Unit Reply)
  | [] => []
  | r :: rest => (replied s shelf r w).1 :: replies (served s shelf w r) rest

end ReconOS.Fs
