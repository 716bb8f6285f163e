import ReconOS.Fs.Confined
import ReconOS.Fs.Shown
import ReconOS.Lib.Alike
import Mathlib.Data.List.Forall2

/-! What a limited account is shown does not depend on what is in other accounts' files, unless it
copies one of them out or asks after one by name: copying asks nothing about its source, and details
are given of any file. -/
namespace ReconOS.Fs
open Libc Lib Prog

variable {s : Session} {shelf : Shelf} {t t' : Tree}

/-- In the folder of another account, and not that folder itself. -/
def Inside (s : Session) (p : Path) : Prop :=
  ∃ name first rest, name ≠ s.user ∧ p = s.root ++ usersName :: name :: first :: rest

/-- The same entry, but for what is in a file in another's folder. -/
inductive SameBut (s : Session) : Path × Node → Path × Node → Prop where
  | same (e : Path × Node) : SameBut s e e
  | contents {p : Path} (inside : Inside s p) (old new : Text) :
      SameBut s (p, .file old) (p, .file new)

/-- Two trees that differ in the contents of others' files only. -/
abbrev Apart (s : Session) : Tree → Tree → Prop := List.Forall₂ (SameBut s)

/-- Nothing at or under a place is a file of another's. -/
def Clear (s : Session) (t : Tree) (base : Path) : Prop :=
  ∀ p, base <+: p → Inside s p → ∀ bytes, t.get p ≠ some (.file bytes)

theorem Apart.refl (s : Session) (t : Tree) : Apart s t t :=
  List.forall₂_same.mpr fun e _ => .same e

/-! ## Places -/

theorem Inside.guarded {p : Path} (is : Inside s p) : Guarded s p := by
  obtain ⟨name, first, rest, other, rfl⟩ := is
  exact .another ⟨first :: rest, by simp⟩ other

theorem Inside.belongs {p : Path} (is : Inside s (s.host p)) :
    belongsToAnotherUser s.user p = true := by
  obtain ⟨name, first, rest, other, same⟩ := is
  have here := List.append_cancel_left same
  simp [here, belongsToAnotherUser, other]

/-- What stands in a folder of another's is that folder, or in it. -/
theorem Inside.of_child {p : Path} {name : Text} (is : Inside s (s.host p ++ [name])) :
    belongsToAnotherUser s.user p = true := by
  obtain ⟨other, first, rest, differ, same⟩ := is
  rw [Session.host, List.append_assoc] at same
  have here := List.append_cancel_left same
  cases p with
  | nil => simp at here
  | cons one p =>
    cases p with
    | nil => simp at here
    | cons two p =>
      rw [List.cons_append, List.cons_append, List.cons.injEq, List.cons.injEq] at here
      simp [belongsToAnotherUser, here.1, here.2.1, differ]

/-! ## The two trees -/

theorem Apart.get (apart : Apart s t t') (p : Path) :
    t.get p = t'.get p ∨
      Inside s p ∧ ∃ old new, t.get p = some (.file old) ∧ t'.get p = some (.file new) := by
  induction apart with
  | nil => exact .inl rfl
  | @cons e e' t t' first rest ih =>
    have skip : ∀ (e : Path × Node) (t : Tree), e.1 ≠ p → Tree.get (e :: t) p = t.get p := by
      intro e t differ
      rw [Tree.get, List.find?_cons_of_neg (by simpa using differ)]
      rfl
    have found : ∀ (e : Path × Node) (t : Tree), e.1 = p → Tree.get (e :: t) p = some e.2 := by
      intro e t here
      rw [Tree.get, List.find?_cons_of_pos (by simpa using here)]
      rfl
    cases first with
    | same e =>
      by_cases here : e.1 = p
      · rw [found e t here, found e t' here]
        exact .inl rfl
      · rw [skip e t here, skip e t' here]
        exact ih
    | @contents q inside old new =>
      by_cases here : q = p
      · rw [found _ t here, found _ t' here]
        exact .inr ⟨here ▸ inside, old, new, rfl, rfl⟩
      · rw [skip _ t here, skip _ t' here]
        exact ih

theorem Apart.get_of_not (apart : Apart s t t') {p : Path} (not : ¬Inside s p) :
    t.get p = t'.get p := by
  rcases apart.get p with same | ⟨inside, _⟩
  · exact same
  · exact absurd inside not

/-- They differ in no way that a look at the node's kind would show. -/
theorem Apart.of_kind (apart : Apart s t t') (p : Path) {α : Type} (f : Option Node → α)
    (blind : ∀ old new, f (some (.file old)) = f (some (.file new))) :
    f (t.get p) = f (t'.get p) := by
  rcases apart.get p with same | ⟨_, old, new, is, is'⟩
  · rw [same]
  · rw [is, is']
    exact blind old new

theorem Apart.isSome (apart : Apart s t t') (p : Path) :
    (t.get p).isSome = (t'.get p).isSome := apart.of_kind p Option.isSome fun _ _ => rfl

theorem Apart.isDir (apart : Apart s t t') (p : Path) : t.isDir p = t'.isDir p :=
  apart.of_kind p (fun n => decide (n = some .dir)) fun _ _ => by simp

theorem Apart.children (apart : Apart s t t') (p : Path) : t.children p = t'.children p := by
  induction apart with
  | nil => rfl
  | cons first rest ih =>
    unfold Tree.children at ih ⊢
    rw [List.filterMap_cons, List.filterMap_cons, ih]
    cases first with
    | same e => rfl
    | contents inside old new => rfl

theorem Apart.filter (apart : Apart s t t') (p : Path) :
    Apart s (t.filter fun e => e.1 ≠ p) (t'.filter fun e => e.1 ≠ p) := by
  induction apart with
  | nil => exact .nil
  | cons first rest ih =>
    cases first with
    | same e =>
      rw [List.filter_cons, List.filter_cons]
      split
      · exact .cons (.same _) ih
      · exact ih
    | contents inside old new =>
      rw [List.filter_cons, List.filter_cons]
      split
      · exact .cons (.contents inside old new) ih
      · exact ih

theorem Apart.erase (apart : Apart s t t') (p : Path) : Apart s (t.erase p) (t'.erase p) :=
  apart.filter p

theorem Apart.put (apart : Apart s t t') (p : Path) (n : Node) : Apart s (t.put p n) (t'.put p n) :=
  .cons (.same _) (apart.filter p)

/-- What nothing of another's is under can be moved: it is the same on both sides. -/
theorem Apart.move (apart : Apart s t t') {a : Path} (bare : Bare s a) (b : Path) :
    Apart s (t.move a b) (t'.move a b) := by
  induction apart with
  | nil => exact .nil
  | cons first rest ih =>
    refine .cons ?_ ih
    cases first with
    | same e => exact .same _
    | @contents p inside old new =>
      have apart : ¬a <+: p := fun under => bare p under inside.guarded
      dsimp only
      rw [Tree.moved_of_not apart]
      exact .contents inside old new

theorem Apart.contents (apart : Apart s t t') {p : Path} (inside : Inside s p) (old new : Text) :
    Apart s (t.put p (.file old)) (t'.put p (.file new)) :=
  .cons (.contents inside old new) (apart.filter p)

theorem Apart.addBytes (apart : Apart s t t') (p : Path) (bytes : Text) :
    Apart s (addBytes p bytes t) (addBytes p bytes t') := by
  unfold Fs.addBytes
  rcases apart.get p with same | ⟨inside, old, new, is, is'⟩
  · rw [same]
    split
    · exact apart.put p _
    · exact apart
  · rw [is, is']
    exact apart.contents inside _ _

/-! ## What is asked of them -/

theorem Apart.deepestFrom (apart : Apart s t t') (up : Nat) (p : Path) :
    deepestFrom t up p = deepestFrom t' up p := by
  induction up generalizing p with
  | zero =>
    unfold Fs.deepestFrom
    rw [apart.isSome p]
  | succ up ih =>
    unfold Fs.deepestFrom
    rw [apart.isSome p, ih]

theorem Apart.resolve (apart : Apart s t t') (cwd path : Text) :
    resolve s t cwd path = resolve s t' cwd path := by
  unfold Fs.resolve staysInside deepest
  simp only [apart.deepestFrom]

theorem Apart.permitted (apart : Apart s t t') (cwd path : Text) :
    permitted s t cwd path = permitted s t' cwd path := by
  unfold Fs.permitted
  rw [apart.resolve]

theorem Apart.readable (apart : Apart s t t') (cwd path : Text) :
    readable s t cwd path = readable s t' cwd path := by
  unfold Fs.readable
  rw [apart.resolve]

theorem Apart.stat (apart : Apart s t t') (cwd path : Text) {α : Type} (f : Option Node → α)
    (blind : ∀ old new, f (some (.file old)) = f (some (.file new))) :
    f (stat s t cwd path) = f (stat s t' cwd path) := by
  unfold Fs.stat
  rw [apart.resolve]
  cases Fs.resolve s t' cwd path with
  | none => rfl
  | some p => exact apart.of_kind (s.host p) f blind

theorem Apart.fsExists (apart : Apart s t t') (cwd path : Text) :
    fsExists s t cwd path = fsExists s t' cwd path :=
  apart.stat cwd path Option.isSome fun _ _ => rfl

theorem Apart.isTrash (apart : Apart s t t') (cwd path : Text) :
    isTrash s t cwd path = isTrash s t' cwd path := by
  unfold Fs.isTrash
  rw [apart.resolve]

theorem Apart.volumeOf (apart : Apart s t t') (cwd path : Text) :
    volumeOf s t cwd path = volumeOf s t' cwd path := by
  unfold Fs.volumeOf
  rw [apart.resolve]

theorem Apart.uniqueName (apart : Apart s t t') (cwd directory base extension : Text) :
    uniqueName s t cwd directory base extension = uniqueName s t' cwd directory base extension := by
  have loop : ∀ left attempt, uniqueLoop s t cwd directory base extension left attempt =
      uniqueLoop s t' cwd directory base extension left attempt := by
    intro left
    induction left with
    | zero => exact fun _ => rfl
    | succ left ih =>
      intro attempt
      unfold uniqueLoop
      simp only [apart.fsExists, ih]
  exact loop 999 1

theorem Apart.walkHost (apart : Apart s t t') (here : Path) (names : List Text) :
    walkHost t here names = walkHost t' here names := by
  induction names generalizing here with
  | nil => rfl
  | cons name rest ih =>
    unfold Fs.walkHost
    simp only [apart.isDir, ih]

/-! ## Calls on the host -/

/-- One host has answers to give as the other has. -/
structure Twin (s : Session) (w w' : World) : Prop where
  tree : Apart s w.tree w'.tree
  answers : w.answers = w'.answers

abbrev Blind (s : Session) {α : Type} (m : Op α) : Prop := Alike (Twin s) (· = ·) m m

theorem Blind.pure {α : Type} (a : α) : Blind s (Pure.pure a : Op α) := Alike.pure rfl

theorem Blind.fail {α : Type} : Blind s (Prog.fail () : Op α) := Alike.fail

theorem Blind.bind {α β : Type} {m : Op α} {f : α → Op β} (first : Blind s m)
    (next : ∀ a, Blind s (f a)) : Blind s (m >>= f) := by
  apply Alike.bind first
  rintro a _ rfl
  exact next a

theorem Blind.after {α β : Type} {m : Op α} {f : α → Op β} {w w' : World}
    (first : AlikeAt (Twin s) (· = ·) m m w w') (next : ∀ a, Blind s (f a)) :
    AlikeAt (Twin s) (· = ·) (m >>= f) (m >>= f) w w' := by
  apply first.bind
  rintro a _ rfl
  exact next a

theorem alike_ask : Blind s ask := by
  intro w w' twin
  unfold AlikeAt ask
  rw [twin.answers]
  exact ⟨.ok rfl, twin.tree, rfl⟩

theorem alike_orFail {α : Type} {a a' : Option α} (same : a = a') :
    Alike (Twin s) (fun x y => x = y ∧ a = some x) (orFail a) (orFail a') := by
  subst same
  cases a with
  | none => exact Alike.fail
  | some x => exact Alike.pure ⟨rfl, rfl⟩

theorem alike_succeeds {m n : Op Unit} (alike : Alike (Twin s) (· = ·) m n) :
    Alike (Twin s) (· = ·) (succeeds m) (succeeds n) := by
  intro w w' twin
  obtain ⟨ends, left⟩ := alike w w' twin
  unfold AlikeAt succeeds
  generalize m w = x at ends left ⊢
  generalize n w' = y at ends left ⊢
  obtain ⟨o, u⟩ := x
  obtain ⟨o', u'⟩ := y
  dsimp only at ends left
  cases ends with
  | error e => exact ⟨.ok rfl, left⟩
  | ok values => exact ⟨.ok rfl, left⟩

theorem alike_change {f : Tree → Tree} (keeps : ∀ t t', Apart s t t' → Apart s (f t) (f t')) :
    Blind s (change f) :=
  Alike.modify fun _ _ twin => ⟨keeps _ _ twin.tree, twin.answers⟩

theorem alike_call {possible : Tree → Bool} {f : Tree → Tree}
    (same : ∀ t t', Apart s t t' → possible t = possible t')
    (keeps : ∀ t t', Apart s t t' → Apart s (f t) (f t')) : Blind s (call possible f) := by
  intro w w' twin
  unfold AlikeAt call
  rw [← twin.answers, ← same _ _ twin.tree]
  split
  · exact ⟨.ok rfl, keeps _ _ twin.tree, rfl⟩
  · exact ⟨.error (), twin.tree, rfl⟩

theorem alike_unlink (p : Path) : Blind s (hostUnlink p) :=
  alike_call (fun _ _ apart => apart.of_kind p (fun n => n.any (· ≠ .dir)) fun _ _ => by simp)
    fun _ _ apart => apart.erase p

theorem alike_rmdir (p : Path) : Blind s (hostRmdir p) :=
  alike_call (fun _ _ apart => by rw [apart.isDir, apart.children]) fun _ _ apart => apart.erase p

theorem alike_mkdir (p : Path) : Blind s (hostMkdir p) := by
  apply alike_call
  · intro t t' apart
    rw [apart.of_kind p Option.isNone fun _ _ => rfl, Tree.parentIsDir, Tree.parentIsDir,
      apart.isDir]
  · exact fun _ _ apart => apart.put p .dir

theorem alike_mkdirIfMissing (p : Path) : Blind s (hostMkdirIfMissing p) := by
  apply Alike.get.bind
  intro w w' twin
  apply Alike.ite (by rw [twin.tree.isSome])
  · exact fun _ => Blind.pure ()
  · exact fun _ => alike_mkdir p

theorem alike_rename {a : Path} (bare : Bare s a) (b : Path) : Blind s (hostRename a b) := by
  apply alike_call
  · intro t t' apart
    rw [apart.isSome, apart.of_kind b Option.isNone fun _ _ => rfl, Tree.parentIsDir,
      Tree.parentIsDir, apart.isDir]
  · exact fun _ _ apart => apart.move bare b

theorem alike_open (p : Path) (keep : Bool) : Blind s (hostOpen p keep) := by
  apply alike_call
  · intro t t' apart
    unfold canOpen Tree.parentIsDir
    rw [apart.isDir]
    rcases apart.get p with same | ⟨_, old, new, is, is'⟩
    · rw [same]
    · rw [is, is']
  · intro t t' apart
    rcases apart.get p with same | ⟨inside, old, new, is, is'⟩
    · rw [same]
      split
      · exact apart.put p _
      · exact apart.put p _
    · rw [is, is']
      cases keep with
      | true => exact apart.contents inside old new
      | false => exact apart.put p _

theorem alike_hostWrite (p : Path) (bytes : Text) : Blind s (hostWrite p bytes) := by
  unfold hostWrite
  split
  · exact Blind.pure ()
  · apply Blind.bind alike_ask
    intro answer
    cases answer with
    | granted => exact alike_change fun _ _ apart => apart.addBytes p bytes
    | refused => exact Blind.fail
    | short n =>
      apply Blind.bind (alike_change fun _ _ apart => apart.addBytes p (bytes.take n))
      exact fun _ => Blind.fail

theorem alike_create (p : Path) : Blind s (hostCreate p) := by
  apply alike_call
  · intro t t' apart
    rw [apart.of_kind p Option.isNone fun _ _ => rfl, Tree.parentIsDir, Tree.parentIsDir,
      apart.isDir]
  · exact fun _ _ apart => apart.put p _

/-! ## Whoever may write -/

theorem alike_allowedAt (cwd path : Text) : Blind s (allowedAt s cwd path) := by
  apply Alike.get.bind
  intro w w' twin
  apply (Alike.ensure (by rw [twin.tree.permitted])).bind
  intro _ _ _
  exact (alike_orFail (twin.tree.resolve cwd path)).mono fun _ _ both => both.1

theorem alike_writeFile (keep : Bool) (cwd path data : Text) :
    Blind s (writeFile s keep cwd path data) := by
  apply Blind.bind (alike_allowedAt cwd path)
  intro p
  apply Blind.bind (alike_open _ keep)
  exact fun _ => alike_hostWrite _ data

theorem alike_writeWhole (p : Path) (data : Text) : Blind s (writeWhole p data) := by
  apply Blind.bind (alike_succeeds (alike_hostWrite p data))
  intro ok
  apply Alike.ite Iff.rfl
  · exact fun _ => Blind.pure ()
  · intro _
    apply Blind.bind (alike_succeeds (alike_unlink p))
    exact fun _ => Blind.fail

theorem alike_writePrivate (cwd path data : Text) : Blind s (writePrivate s cwd path data) := by
  apply Blind.bind (alike_allowedAt cwd path)
  intro p
  apply Alike.get.bind
  intro w w' twin
  apply (Alike.when (by rw [twin.tree.isSome]) fun _ => alike_unlink (s.host p)).bind
  intro _ _ _
  apply Blind.bind (alike_create _)
  exact fun _ => alike_writeWhole _ data

theorem alike_mkdirAt (cwd path : Text) : Blind s (mkdir s cwd path) :=
  Blind.bind (alike_allowedAt cwd path) fun _ => alike_mkdir _

/-! ## Removing -/

theorem alike_remove (cwd path : Text) : Blind s (remove s cwd path) := by
  apply Blind.bind (alike_allowedAt cwd path)
  intro p
  apply (Alike.ensure Iff.rfl).bind
  intro _ _ _
  apply Alike.get.bind
  intro w w' twin
  rcases twin.tree.get (s.host p) with same | ⟨_, old, new, is, is'⟩
  · rw [same]
    split
    · exact Blind.fail
    · exact alike_rmdir _
    · exact alike_unlink _
  · rw [is, is']
    exact alike_unlink _

theorem alike_readNames (p : Path) : Blind s (readNames p) := by
  apply Blind.bind alike_ask
  intro answer
  apply (Alike.ensure Iff.rfl).bind
  intro _ _ _
  apply Alike.get.bind
  intro w w' twin
  rw [twin.tree.children]
  exact Blind.pure _

theorem alike_removeTreeHost (stack : Nat) (h : Spot) : Blind s (removeTreeHost stack h) := by
  induction stack generalizing h with
  | zero => exact Blind.fail
  | succ stack ih =>
    apply Alike.get.bind
    intro w w' twin
    rcases twin.tree.get h.place with same | ⟨_, old, new, is, is'⟩
    · rw [same]
      split
      · exact Blind.fail
      · apply Blind.bind (alike_readNames _)
        intro names
        apply Blind.bind (Alike.each fun name _ => ih (h.child name))
        exact fun _ => alike_rmdir _
      · exact alike_unlink _
    · rw [is, is']
      exact alike_unlink _

theorem alike_removeTree (cwd path : Text) : Blind s (removeTree s cwd path) := by
  apply Blind.bind (alike_allowedAt cwd path)
  intro p
  apply (Alike.ensure Iff.rfl).bind
  intro _ _ _
  apply Alike.get.bind
  intro w w' twin
  apply (Alike.ensure (by rw [twin.tree.isSome])).bind
  intro _ _ _
  exact alike_removeTreeHost s.stack _

/-! ## Renaming -/

theorem alike_renameAt (limited : s.admin = false) (cwd source target : Text) :
    Blind s (rename s cwd source target) := by
  apply Alike.get.bind
  intro w w' twin
  apply (Alike.ensure (by rw [twin.tree.permitted, twin.tree.permitted])).bind
  intro _ _ may
  apply (alike_orFail (twin.tree.resolve cwd source)).bind
  rintro a _ ⟨rfl, leaves⟩
  apply (alike_orFail (twin.tree.resolve cwd target)).bind
  rintro b _ ⟨rfl, arrives⟩
  apply (Alike.ensure Iff.rfl).bind
  intro _ _ free
  apply Alike.ite Iff.rfl
  · exact fun _ => Blind.pure ()
  · intro _
    apply (Alike.ensure Iff.rfl).bind
    intro _ _ _
    apply (Alike.ensure (by rw [twin.tree.of_kind _ Option.isNone fun _ _ => rfl])).bind
    intro _ _ _
    exact alike_rename ((open_of_limited limited may.1 leaves).bare free.1) _

/-! ## Copying what holds no file of another's -/

variable {t₀ : Tree}

/-- Two hosts while files are copied: of what may not be written, nothing has changed. -/
abbrev Copying (s : Session) (t₀ : Tree) (w w' : World) : Prop := Twin s w w' ∧ Kept s t₀ w

theorem Clear.same {base p : Path} (clear : Clear s t₀ base) (under : base <+: p) {w w' : World}
    (copying : Copying s t₀ w w') : w.tree.get p = w'.tree.get p := by
  rcases copying.1.tree.get p with same | ⟨inside, old, new, is, _⟩
  · exact same
  · rw [copying.2 p inside.guarded] at is
    exact absurd is (clear p under inside old)

theorem alike_copyFileHost {base source target : Path} (clear : Clear s t₀ base)
    (under : base <+: source) (free : ¬Guarded s target) :
    Alike (Copying s t₀) (· = ·) (copyFileHost source target) (copyFileHost source target) := by
  apply Alike.get.bind
  intro w w' copying
  rw [clear.same under copying]
  split
  · apply (alike_ask.and keeps_ask).bind
    rintro answer _ ⟨rfl, -⟩
    apply (Alike.ensure Iff.rfl).bind
    intro _ _ _
    apply ((alike_open target false).and (keeps_open false free)).bind
    intro _ _ _
    apply ((alike_writeWhole target _).and (keeps_writeWhole _ free)).mono
    exact fun _ _ both => both.1
  · exact Alike.fail

theorem keeps_mkdirIfMissing {p : Path} (free : ¬Guarded s p) :
    Keeps (Kept s t₀) (hostMkdirIfMissing p) fun _ => True :=
  Keeps.get.bind fun _ _ => Keeps.ite (fun _ => Keeps.pure trivial) fun _ => keeps_mkdir free

theorem alike_copyTreeHost {base : Path} (clear : Clear s t₀ base) {bare : Path}
    (own : Bare s bare) (stack : Nat) {source target : Spot} (here : Below base source)
    (there : Below bare target) :
    Alike (Copying s t₀) (· = ·) (copyTreeHost stack source target)
      (copyTreeHost stack source target) := by
  induction stack generalizing source target with
  | zero => exact Alike.fail
  | succ stack ih =>
    have free := (own.under there.under).here
    apply Alike.get.bind
    intro w w' copying
    rw [clear.same here.under copying]
    split
    · apply ((alike_mkdirIfMissing _).and (keeps_mkdirIfMissing free)).bind
      intro _ _ _
      apply ((alike_readNames source.place).and (keeps_readNames source.place)).bind
      rintro l _ ⟨rfl, plain⟩
      apply Alike.each
      intro name inside
      exact ih (here.child (plain name inside)) (there.child (plain name inside))
    · exact alike_copyFileHost clear here.under free
    · exact Alike.fail

/-- A copy that gets past its checks has nothing in its source that is a file of another's. -/
def CopiesOwn (s : Session) (t : Tree) (cwd source target : Text) : Prop :=
  ∀ a b, permitted s t cwd target = true → resolve s t cwd source = some a →
    resolve s t cwd target = some b → isStructural b = false → ¬a <+: b →
    t.get (s.host b) = none → Clear s t (s.host a)

theorem alikeAt_copy (limited : s.admin = false) {cwd source target : Text} {w w' : World}
    (own : CopiesOwn s w.tree cwd source target) (twin : Twin s w w') :
    AlikeAt (Twin s) (· = ·) (copy s cwd source target) (copy s cwd source target) w w' := by
  have copying : Copying s w.tree w w' := ⟨twin, fun _ _ => rfl⟩
  have all : AlikeAt (Copying s w.tree) (· = ·) (copy s cwd source target)
      (copy s cwd source target) w w' := by
    apply (AlikeAt.get copying).bind
    rintro _ _ ⟨rfl, rfl⟩
    apply (Alike.ensure (by rw [twin.tree.permitted])).bind
    intro _ _ may
    apply ((alike_orFail (twin.tree.resolve cwd source)).and (keeps_orFail _)).bind
    rintro a _ ⟨⟨rfl, reads⟩, -⟩
    apply ((alike_orFail (twin.tree.resolve cwd target)).and (keeps_orFail _)).bind
    rintro b _ ⟨⟨rfl, writes⟩, -⟩
    apply (Alike.ensure Iff.rfl).bind
    intro _ _ free
    apply (Alike.ensure Iff.rfl).bind
    intro _ _ apart
    apply (Alike.ensure (by rw [twin.tree.of_kind _ Option.isNone fun _ _ => rfl])).bind
    intro _ _ empty
    have clear := own a b may reads writes free apart (Option.isNone_iff_eq_none.mp empty)
    have bare := (open_of_limited limited may writes).bare free
    exact alike_copyTreeHost clear bare s.stack (below_spotOf (resolve_short reads))
      (below_spotOf (resolve_short writes))
  exact all.mono (fun _ _ both => both.1) fun _ _ same => same

/-! ## Reading -/

theorem not_inside_of_readable (limited : s.admin = false) {t : Tree} {cwd path : Text} {p : Path}
    (may : readable s t cwd path = true) (led : resolve s t cwd path = some p) :
    belongsToAnotherUser s.user p = false := by
  simpa [readable, limited, led] using may

theorem alike_fsRead (limited : s.admin = false) (cwd path : Text) :
    Blind s (fsRead s cwd path) := by
  apply Alike.get.bind
  intro w w' twin
  apply (alike_orFail (twin.tree.resolve cwd path)).bind
  rintro p _ ⟨rfl, led⟩
  apply (Alike.ensure (by rw [twin.tree.readable])).bind
  intro _ _ may
  have own := not_inside_of_readable limited may led
  rw [twin.tree.get_of_not fun inside => by simp [inside.belongs] at own]
  apply Blind.bind alike_ask
  intro answer
  apply (Alike.ensure Iff.rfl).bind
  intro _ _ _
  split
  · exact Blind.pure _
  · exact Blind.fail

theorem alike_readHead (limited : s.admin = false) (cwd path : Text) (max : Nat) :
    Blind s (readHead s cwd path max) := by
  apply (Alike.attempt (alike_fsRead limited cwd path)).bind
  intro a b ends
  rw [ends.eq]
  cases b with
  | error e => exact Blind.pure _
  | ok bytes => exact Blind.pure _

theorem alike_list (max : Nat) (cwd path : Text) : Blind s (list s max cwd path) := by
  apply Alike.get.bind
  intro w w' twin
  apply (alike_orFail (twin.tree.resolve cwd path)).bind
  rintro p _ ⟨rfl, led⟩
  apply (Alike.ensure (by rw [twin.tree.readable])).bind
  intro _ _ may
  apply (Alike.ensure (by rw [twin.tree.isDir])).bind
  intro _ _ _
  exact Blind.bind (alike_readNames _) fun _ => Blind.pure _

theorem Apart.direntOf (apart : Apart s t t') {p : Path} (same : t.get p = t'.get p)
    (name : Text) : direntOf shelf t p name = direntOf shelf t' p name := by
  unfold Fs.direntOf
  rw [same]
  split
  case h_2 => rfl
  case h_1 node is =>
    cases node with
    | dir => rw [sizeAt, sizeAt, apart.children]
    | file bytes => rfl
    | other => rfl

theorem alike_listAll (limited : s.admin = false) (max : Nat) (cwd path : Text) :
    Blind s (listAll s shelf max cwd path) := by
  apply Alike.get.bind
  intro w w' twin
  apply (alike_orFail (twin.tree.resolve cwd path)).bind
  rintro p _ ⟨rfl, led⟩
  apply (Alike.ensure (by rw [twin.tree.readable])).bind
  intro _ _ may
  apply (Alike.ensure (by rw [twin.tree.isDir])).bind
  intro _ _ _
  have own := not_inside_of_readable limited may led
  have entry : ∀ name, direntOf shelf w.tree (s.host p ++ [name]) name =
      direntOf shelf w'.tree (s.host p ++ [name]) name := by
    intro name
    apply twin.tree.direntOf
    exact twin.tree.get_of_not fun inside => by simp [inside.of_child] at own
  simp only [entry]
  exact Blind.bind (alike_readNames _) fun names => Blind.pure _

/-- Details are asked of no file of another's. -/
def AsksOwn (s : Session) (t : Tree) (cwd path : Text) : Prop :=
  ∀ p, resolve s t cwd path = some p → Inside s (s.host p) →
    ∀ bytes, t.get (s.host p) ≠ some (.file bytes)

theorem alikeAt_statOf {cwd path : Text} {w w' : World} (own : AsksOwn s w.tree cwd path)
    (twin : Twin s w w') :
    AlikeAt (Twin s) (· = ·) (statOf s shelf cwd path) (statOf s shelf cwd path) w w' := by
  apply (AlikeAt.get twin).bind
  rintro _ _ ⟨rfl, rfl⟩
  apply (alike_orFail (twin.tree.resolve cwd path)).bind
  rintro p _ ⟨rfl, led⟩
  apply (Alike.ensure (by rw [twin.tree.isSome])).bind
  intro _ _ _
  rcases twin.tree.get (s.host p) with same | ⟨inside, old, new, is, _⟩
  · rw [twin.tree.direntOf same]
    exact Blind.pure _
  · exact absurd is (own p led inside old)

theorem alike_totalOver {count : Dirent → Op (Nat × Nat)} (alike : ∀ d, Blind s (count d))
    (entries : List Dirent) : Blind s (totalOver count entries) := by
  induction entries with
  | nil => exact Blind.pure _
  | cons d rest ih => exact Blind.bind (alike d) fun _ => Blind.bind ih fun _ => Blind.pure _

theorem alike_usageWalk (limited : s.admin = false) (depth : Nat) (path : Text) :
    Blind s (usageWalk s shelf depth path) := by
  induction depth generalizing path with
  | zero => exact Blind.pure _
  | succ depth ih =>
    apply (Alike.attempt (alike_listAll limited 0 [] path)).bind
    intro a b ends
    rw [ends.eq]
    rcases b with e | ⟨count, none⟩
    · exact Blind.pure _
    · apply Alike.ite Iff.rfl
      · exact fun _ => Blind.pure _
      · intro _
        apply (Alike.attempt (alike_listAll limited count [] path)).bind
        intro a b ends
        rw [ends.eq]
        rcases b with e | ⟨count, entries⟩
        · exact Blind.pure _
        · apply alike_totalOver
          intro d
          split
          · exact Blind.pure _
          · apply Alike.ite Iff.rfl
            · exact fun _ => ih _
            · exact fun _ => Blind.pure _

theorem alikeAt_usage (limited : s.admin = false) {cwd path : Text} {w w' : World}
    (own : AsksOwn s w.tree cwd path) (twin : Twin s w w') :
    AlikeAt (Twin s) (· = ·) (usage s shelf cwd path) (usage s shelf cwd path) w w' := by
  apply (alikeAt_statOf own twin).bind
  rintro info _ rfl
  apply Alike.ite Iff.rfl
  · exact fun _ => alike_usageWalk limited _ path
  · exact fun _ => Blind.pure _

/-! ## The recycle bin -/

theorem alike_makeTree (path : Text) : Blind s (makeTree s path) := by
  apply Alike.each
  intro names _
  apply Alike.get.bind
  intro w w' twin
  apply (alike_orFail (twin.tree.walkHost [] names)).bind
  rintro p _ ⟨rfl, -⟩
  exact alike_mkdirIfMissing p

theorem alike_moveToBin (limited : s.admin = false) (volume : Volume) (p : Path) :
    Blind s (moveToBin s volume p) := by
  apply Blind.bind
  · apply Alike.each
    intro dir _
    split
    · exact alike_makeTree _
    · exact Blind.pure _
  · intro _
    apply Alike.get.bind
    intro w w' twin
    apply (alike_orFail (by rw [twin.tree.uniqueName])).bind
    rintro name _ ⟨rfl, -⟩
    apply (alike_orFail rfl).bind
    rintro target _ ⟨rfl, -⟩
    apply Blind.bind (alike_renameAt limited _ _ _)
    intro _
    split
    · exact Blind.pure _
    · exact Blind.bind (alike_succeeds (alike_writeFile false _ _ _)) fun _ => Blind.pure _

theorem alike_trash (limited : s.admin = false) (cwd path : Text) :
    Blind s (trash s cwd path) := by
  apply Alike.get.bind
  intro w w' twin
  apply (alike_orFail (twin.tree.resolve cwd path)).bind
  rintro p _ ⟨rfl, -⟩
  apply (Alike.ensure (by rw [twin.tree.isTrash, twin.tree.fsExists])).bind
  intro _ _ _
  rw [twin.tree.volumeOf]
  exact alike_moveToBin limited _ p

theorem alike_forgetNote (name : Text) : Blind s (forgetNote s name) := by
  unfold forgetNote
  split
  · exact Blind.pure _
  · exact Blind.bind (alike_succeeds (alike_remove _ _)) fun _ => Blind.pure _

theorem alike_trashOrigin (limited : s.admin = false) (name : Text) :
    Blind s (trashOrigin s name) := by
  apply (alike_orFail rfl).bind
  rintro info _ ⟨rfl, -⟩
  apply Blind.bind (alike_fsRead limited _ _)
  intro data
  apply (Alike.ensure Iff.rfl).bind
  intro _ _ _
  exact Blind.pure _

theorem alike_restoreTo (limited : s.admin = false) (name origin : Text) :
    Blind s (restoreTo s name origin) := by
  apply (alike_orFail rfl).bind
  rintro source _ ⟨rfl, -⟩
  apply Alike.get.bind
  intro w w' twin
  apply (Alike.ensure (by rw [twin.tree.fsExists])).bind
  intro _ _ _
  apply Blind.bind
  · unfold remakeFolder
    split
    · exact alike_makeTree _
    · exact Blind.pure _
  · intro _
    exact Blind.bind (alike_renameAt limited _ _ _) fun _ => alike_forgetNote name

theorem alike_trashRestore (limited : s.admin = false) (name : Text) :
    Blind s (trashRestore s name) := by
  apply (Alike.ensure Iff.rfl).bind
  intro _ _ _
  apply Blind.bind (alike_trashOrigin limited name)
  exact fun origin => alike_restoreTo limited name origin

theorem alike_trashPurge (name : Text) : Blind s (trashPurge s name) := by
  apply (Alike.ensure Iff.rfl).bind
  intro _ _ _
  apply (alike_orFail rfl).bind
  rintro target _ ⟨rfl, -⟩
  apply Alike.get.bind
  intro w w' twin
  have folder := twin.tree.stat ['/'] target (fun n => decide (n = some .dir)) fun _ _ => by simp
  apply (Alike.ite (decide_eq_decide.mp folder) (fun _ => alike_removeTree _ _)
    fun _ => alike_remove _ _).bind
  rintro _ _ rfl
  exact alike_forgetNote name

theorem alike_trashEmpty : Blind s (trashEmpty s) := by
  apply (Alike.attempt (alike_list 512 _ _)).bind
  intro a b ends
  rw [ends.eq]
  cases b with
  | error e => exact Blind.pure _
  | ok names =>
    apply Alike.each
    intro name _
    exact Blind.bind (alike_succeeds (alike_trashPurge name)) fun _ => Blind.pure _

theorem alike_trashEmptyIn (volume : Volume) : Blind s (trashEmptyIn s volume) := by
  apply Alike.ite Iff.rfl
  · exact fun _ => alike_trashEmpty
  · intro _
    apply (Alike.attempt (alike_list 512 _ _)).bind
    intro a b ends
    rw [ends.eq]
    cases b with
    | error e => exact Blind.pure _
    | ok names =>
      apply Alike.each
      intro name _
      split
      · exact Blind.pure _
      · apply Blind.bind (alike_succeeds (alike_removeTree _ _))
        intro _
        split
        · exact Blind.pure _
        · exact Blind.bind (alike_succeeds (alike_remove _ _)) fun _ => Blind.pure _

theorem alike_createUser (name : Text) : Blind s (createUser s name) := by
  apply (Alike.ensure Iff.rfl).bind
  intro _ _ _
  exact Blind.bind (alike_makeTree _) fun _ => Alike.each fun folder _ => alike_makeTree _

theorem alike_trashCountIn (limited : s.admin = false) (volume : Volume) :
    Blind s (trashCountIn s shelf volume) := by
  apply (Alike.attempt (alike_listAll limited 0 _ _)).bind
  intro a b ends
  rw [ends.eq]
  cases b with
  | error e => exact Blind.pure _
  | ok found => exact Blind.pure _

theorem alikeAt_trashUsageIn (limited : s.admin = false) {volume : Volume} {w w' : World}
    (own : AsksOwn s w.tree ['/'] (trashSubdirIn s volume trashFiles)) (twin : Twin s w w') :
    AlikeAt (Twin s) (· = ·) (trashUsageIn s shelf volume) (trashUsageIn s shelf volume) w w' := by
  apply (alikeAt_usage limited own twin).attempt.bind
  intro a b ends
  rw [ends.eq]
  cases b with
  | error e => exact Blind.pure _
  | ok total => exact Blind.pure _

/-! ## Runs -/

/-- The three ways to what another's file holds: a copy of it, its details, and its usage. -/
def Fair (s : Session) (w : World) : Request → Prop
  | .act (.copy cwd source target) => CopiesOwn s w.tree cwd source target
  | .stat cwd path => AsksOwn s w.tree cwd path
  | .usage cwd path => AsksOwn s w.tree cwd path
  | .trashUsageIn volume => AsksOwn s w.tree ['/'] (trashSubdirIn s volume trashFiles)
  | _ => True

theorem alikeAt_called (limited : s.admin = false) {w w' : World} {call : Call}
    (fair : Fair s w (.act call)) (twin : Twin s w w') :
    AlikeAt (Twin s) (· = ·) (called s call) (called s call) w w' := by
  cases call <;> dsimp only [called]
  case write cwd path data => exact alike_writeFile false cwd path data w w' twin
  case append cwd path data => exact alike_writeFile true cwd path data w w' twin
  case writePrivate cwd path data => exact alike_writePrivate cwd path data w w' twin
  case mkdir cwd path => exact alike_mkdirAt cwd path w w' twin
  case remove cwd path => exact alike_remove cwd path w w' twin
  case removeTree cwd path => exact alike_removeTree cwd path w w' twin
  case rename cwd source target => exact alike_renameAt limited cwd source target w w' twin
  case copy cwd source target => exact alikeAt_copy limited fair twin
  case trash cwd path => exact alike_trash limited cwd path w w' twin
  case trashRestore name => exact alike_trashRestore limited name w w' twin
  case trashPurge name => exact alike_trashPurge name w w' twin
  case trashEmpty => exact alike_trashEmpty w w' twin

theorem alikeAt_replied (limited : s.admin = false) {w w' : World} {r : Request}
    (fair : Fair s w r) (twin : Twin s w w') :
    AlikeAt (Twin s) (· = ·) (replied s shelf r) (replied s shelf r) w w' := by
  cases r <;> dsimp only [replied]
  case act call => exact Blind.after (alikeAt_called limited fair twin) fun _ => Blind.pure _
  case createUser name => exact Blind.after (alike_createUser name w w' twin) fun _ => Blind.pure _
  case trashEmptyIn volume =>
    exact Blind.after (alike_trashEmptyIn volume w w' twin) fun _ => Blind.pure _
  case read cwd path =>
    exact Blind.after (alike_fsRead limited cwd path w w' twin) fun _ => Blind.pure _
  case readHead cwd path max =>
    exact Blind.after (alike_readHead limited cwd path max w w' twin) fun _ => Blind.pure _
  case list max cwd path =>
    exact Blind.after (alike_listAll limited max cwd path w w' twin) fun _ => Blind.pure _
  case stat cwd path => exact Blind.after (alikeAt_statOf fair twin) fun _ => Blind.pure _
  case usage cwd path => exact Blind.after (alikeAt_usage limited fair twin) fun _ => Blind.pure _
  case fsExists cwd path =>
    apply (AlikeAt.get twin).bind
    rintro _ _ ⟨rfl, rfl⟩
    rw [twin.tree.fsExists]
    exact Blind.pure _
  case uniqueName cwd directory base extension =>
    apply (AlikeAt.get twin).bind
    rintro _ _ ⟨rfl, rfl⟩
    rw [twin.tree.uniqueName]
    apply (alike_orFail rfl).bind
    rintro name _ ⟨rfl, -⟩
    exact Blind.pure _
  case trashOrigin name =>
    exact Blind.after (alike_trashOrigin limited name w w' twin) fun _ => Blind.pure _
  case trashCountIn volume =>
    exact Blind.after (alike_trashCountIn limited volume w w' twin) fun _ => Blind.pure _
  case trashUsageIn volume =>
    exact Blind.after (alikeAt_trashUsageIn limited fair twin) fun _ => Blind.pure _

/-- **A limited account is shown the same, whatever others' files hold**, in every run in which it
neither copies a file of theirs nor asks after one by name. -/
theorem limited_blind (s : Session) (limited : s.admin = false) (shelf : Shelf) {w w' : World}
    (differ : Apart s w.tree w'.tree) (answers : w.answers = w'.answers)
    (requests : List Request) (fair : Allows (served s shelf) (Fair s) w requests) :
    replies s shelf w requests = replies s shelf w' requests := by
  have twin : Twin s w w' := ⟨differ, answers⟩
  clear differ answers
  induction requests generalizing w w' with
  | nil => rfl
  | cons r rest ih =>
    obtain ⟨ends, left⟩ := alikeAt_replied limited fair.1 twin
    have later := ih fair.2 left
    rw [replies, replies, ends.eq]
    exact congrArg _ later

/-- Al's tree, in which B keeps a file as well. -/
def withB (kept : Text) : Tree :=
  alTree ++ [([['r'], usersName, ['B']], .dir), ([['r'], usersName, ['B'], ['x']], .file kept)]

theorem withB_apart (old new : Text) : Apart al (withB old) (withB new) := by
  apply List.rel_append (Apart.refl al alTree)
  refine .cons (.same _) (.cons (.contents ?_ old new) .nil)
  exact ⟨['B'], ['x'], [], by decide, rfl⟩

def plainShelf : Shelf := ⟨id, fun _ => 0⟩

def inUsers (names : List Text) : Text := canonicalText (usersName :: names)

/-- Of its own file it makes what copies it likes. -/
theorem al_blind :
    replies al plainShelf ⟨withB ['1'], []⟩
        [.act (.copy [] (inUsers [al.user, ['x']]) (inUsers [al.user, ['y']])),
          .read [] (inUsers [['B'], ['x']]), .list 8 [] (inUsers [['B']])] =
      replies al plainShelf ⟨withB ['2'], []⟩
        [.act (.copy [] (inUsers [al.user, ['x']]) (inUsers [al.user, ['y']])),
          .read [] (inUsers [['B'], ['x']]), .list 8 [] (inUsers [['B']])] := by
  have differ : Apart al (World.mk (withB ['1']) []).tree (World.mk (withB ['2']) []).tree :=
    withB_apart ['1'] ['2']
  refine limited_blind al rfl plainShelf differ rfl _ ⟨?_, trivial, trivial, trivial⟩
  intro a b _ reads _ _ _ _ p under inside
  have led : resolve al (withB ['1']) [] (inUsers [al.user, ['x']]) =
      some [usersName, al.user, ['x']] := by decide +kernel
  rw [led, Option.some.injEq] at reads
  subst reads
  obtain ⟨name, first, rest, other, rfl⟩ := inside
  simp [Session.host] at under
  exact absurd under.1.symm other

/-- B's file, copied into Al's folder, can be read there. -/
theorem b_read :
    Apart al (withB ['1']) (withB ['2']) ∧
      replies al plainShelf ⟨withB ['1'], []⟩
        [.act (.copy [] (inUsers [['B'], ['x']]) (inUsers [al.user, ['y']])),
          .read [] (inUsers [al.user, ['y']])] = [.ok .done, .ok (.bytes ['1'])] ∧
      replies al plainShelf ⟨withB ['2'], []⟩
        [.act (.copy [] (inUsers [['B'], ['x']]) (inUsers [al.user, ['y']])),
          .read [] (inUsers [al.user, ['y']])] = [.ok .done, .ok (.bytes ['2'])] :=
  ⟨withB_apart ['1'] ['2'], by decide +kernel, by decide +kernel⟩

end ReconOS.Fs
