import ReconOS.Fs.Shown
import ReconOS.Lib.Run

/-! What a limited account leaves as it is: everything outside the tree it sees, under /System, and
in another account's folder. -/
namespace ReconOS.Fs
open Libc Lib Prog

variable {s : Session} {t₀ : Tree}

/-- What is not a limited account's to change. -/
inductive Guarded (s : Session) (p : Path) : Prop where
  | outside (is : ¬s.root <+: p)
  | root (is : p = s.root)
  | system (is : s.root ++ [systemName] <+: p)
  | another {name : Text} (is : s.root ++ [usersName, name] <+: p) (other : name ≠ s.user)

/-- Nothing that is guarded differs. -/
def Same (s : Session) (t₀ t : Tree) : Prop := ∀ p, Guarded s p → t.get p = t₀.get p

/-- A place whose own refusals have nothing to say. -/
def Open (s : Session) (p : Path) : Prop :=
  isProtected p = false ∧ belongsToAnotherUser s.user p = false

/-- Nothing at or under it is guarded. -/
def Bare (s : Session) (p : Path) : Prop := ∀ q, p <+: q → ¬Guarded s q

/-! ## Places -/

theorem Open.not_guarded_append {p : Path} (is : Open s p) (some : p ≠ []) (rest : Path)
    (users : p = [usersName] → rest = []) : ¬Guarded s (s.root ++ p ++ rest) := by
  obtain ⟨first, names, rfl⟩ := List.exists_cons_of_ne_nil some
  obtain ⟨unprotected, mine⟩ := is
  have notSystem : first ≠ systemName := by
    intro same
    simp [isProtected, same] at unprotected
  intro guarded
  cases guarded with
  | outside not => exact not ⟨first :: names ++ rest, by rw [List.append_assoc]⟩
  | root same =>
    rw [List.append_assoc] at same
    simp at same
  | system under =>
    rw [List.append_assoc, List.prefix_append_right_inj, List.cons_append,
      List.cons_prefix_cons] at under
    exact notSystem under.1.symm
  | another under other =>
    rw [List.append_assoc, List.prefix_append_right_inj, List.cons_append,
      List.cons_prefix_cons] at under
    obtain ⟨rfl, under⟩ := under
    cases names with
    | nil =>
      rw [users rfl] at under
      simp at under
    | cons name names =>
      rw [List.cons_append, List.cons_prefix_cons] at under
      simp [belongsToAnotherUser] at mine
      exact other (under.1.trans mine)

theorem Open.not_guarded {p : Path} (is : Open s p) (some : p ≠ []) : ¬Guarded s (s.host p) := by
  have here := is.not_guarded_append some [] fun _ => rfl
  rwa [List.append_nil] at here

/-- What is no part of the layout holds nothing that is guarded. -/
theorem Open.bare {p : Path} (is : Open s p) (free : isStructural p = false) :
    Bare s (s.host p) := by
  rw [isStructural, decide_eq_false_iff_not] at free
  rintro q ⟨rest, rfl⟩
  apply is.not_guarded_append
  · intro none
    exact free (by simp [none, structureDirs])
  · intro users
    exact absurd (by simp [users, structureDirs]) free

theorem Bare.here {p : Path} (is : Bare s p) : ¬Guarded s p := is p (List.prefix_refl p)

theorem Bare.under {p q : Path} (is : Bare s p) (under : p <+: q) : Bare s q :=
  fun r below => is r (under.trans below)

/-! ## Calls on the host -/

theorem Same.put {t : Tree} (same : Same s t₀ t) {p : Path} (free : ¬Guarded s p) (n : Node) :
    Same s t₀ (t.put p n) := by
  intro q guarded
  have differ : q ≠ p := fun is => free (is ▸ guarded)
  rw [Tree.get_put, if_neg differ, same q guarded]

theorem Same.erase {t : Tree} (same : Same s t₀ t) {p : Path} (free : ¬Guarded s p) :
    Same s t₀ (t.erase p) := by
  intro q guarded
  have differ : q ≠ p := fun is => free (is ▸ guarded)
  rw [Tree.get_erase, if_neg differ, same q guarded]

theorem Same.move {t : Tree} (same : Same s t₀ t) {a b : Path} (source : Bare s a)
    (target : Bare s b) : Same s t₀ (t.move a b) := by
  intro q guarded
  rw [Tree.get_move_of_not t (fun under => source q under guarded)
    (fun under => target q under guarded), same q guarded]

/-- Every guarded node is the same in the tree there is. -/
abbrev Kept (s : Session) (t₀ : Tree) : World → Prop := fun w => Same s t₀ w.tree

theorem keeps_ask {I : Tree → Prop} : Keeps (fun w => I w.tree) ask fun _ => True :=
  fun _ same => ⟨same, fun _ _ => trivial⟩

theorem keeps_orFail {I : World → Prop} {α : Type} (a : Option α) :
    Keeps I (orFail a) fun x => a = some x := by
  cases a with
  | none => exact Keeps.fail
  | some x => exact Keeps.pure rfl

theorem keeps_succeeds {m : Op Unit} (keeps : Keeps (Kept s t₀) m fun _ => True) :
    Keeps (Kept s t₀) (succeeds m) fun _ => True := by
  intro w same
  have kept := (keeps w same).1
  unfold succeeds
  split <;> simp_all

theorem keeps_call {possible : Tree → Bool} {f : Tree → Tree}
    (keeps : ∀ t, Same s t₀ t → possible t = true → Same s t₀ (f t)) :
    Keeps (Kept s t₀) (call possible f) fun _ => True := by
  intro w same
  unfold call
  split
  case isTrue both => exact ⟨keeps w.tree same both.2, fun _ _ => trivial⟩
  case isFalse => exact ⟨same, fun _ _ => trivial⟩

theorem keeps_change {f : Tree → Tree} (keeps : ∀ t, Same s t₀ t → Same s t₀ (f t)) :
    Keeps (Kept s t₀) (change f) fun _ => True :=
  Keeps.modify fun w same => keeps w.tree same

theorem keeps_unlink {p : Path} (free : ¬Guarded s p) :
    Keeps (Kept s t₀) (hostUnlink p) fun _ => True :=
  keeps_call fun _ same _ => same.erase free

theorem keeps_rmdir {p : Path} (free : ¬Guarded s p) :
    Keeps (Kept s t₀) (hostRmdir p) fun _ => True :=
  keeps_call fun _ same _ => same.erase free

theorem keeps_mkdir {p : Path} (free : ¬Guarded s p) :
    Keeps (Kept s t₀) (hostMkdir p) fun _ => True :=
  keeps_call fun _ same _ => same.put free _

theorem keeps_rename {a b : Path} (source : Bare s a) (target : Bare s b) :
    Keeps (Kept s t₀) (hostRename a b) fun _ => True :=
  keeps_call fun _ same _ => same.move source target

theorem keeps_create {p : Path} (free : ¬Guarded s p) :
    Keeps (Kept s t₀) (hostCreate p) fun _ => True :=
  keeps_call fun _ same _ => same.put free _

theorem keeps_open {p : Path} (keep : Bool) (free : ¬Guarded s p) :
    Keeps (Kept s t₀) (hostOpen p keep) fun _ => True := by
  apply keeps_call
  intro t same _
  split
  · exact same.put free _
  · exact same.put free _

theorem keeps_addBytes {p : Path} (bytes : Text) (free : ¬Guarded s p) :
    Keeps (Kept s t₀) (change (addBytes p bytes)) fun _ => True := by
  apply keeps_change
  intro t same
  unfold addBytes
  split
  · exact same.put free _
  · exact same

theorem keeps_hostWrite {p : Path} (bytes : Text) (free : ¬Guarded s p) :
    Keeps (Kept s t₀) (hostWrite p bytes) fun _ => True := by
  unfold hostWrite
  apply Keeps.ite
  · exact fun _ => Keeps.pure trivial
  · intro _
    refine keeps_ask.bind fun answer _ => ?_
    cases answer with
    | granted => exact keeps_addBytes bytes free
    | refused => exact Keeps.fail
    | short n => exact (keeps_addBytes _ free).bind fun _ _ => Keeps.fail

/-- The root itself is a directory, which no call takes for a file or for a missing one. -/
structure Rooted (s : Session) (t₀ : Tree) : Prop where
  limited : s.admin = false
  isDir : t₀.get s.root = some .dir

/-- What a call does to one place that is open, it does nowhere that is guarded: the root is not one
it can be made on. -/
theorem keeps_at {p : Path} {m : Op Unit} (rooted : Rooted s t₀) (is : Open s p)
    (free : ¬Guarded s (s.host p) → Keeps (Kept s t₀) m fun _ => True)
    (atRoot : s.host p = s.root → ∀ w, w.tree.get s.root = some .dir → (m w).2.tree = w.tree) :
    Keeps (Kept s t₀) m fun _ => True := by
  by_cases some : p = []
  · intro w same
    have here : s.host p = s.root := by rw [some, Session.host, List.append_nil]
    refine ⟨?_, fun _ _ => trivial⟩
    have dir : w.tree.get s.root = .some .dir := by rw [same s.root (.root rfl), rooted.isDir]
    rw [Kept, atRoot here w dir]
    exact same
  · exact free (is.not_guarded some)

theorem call_impossible {possible : Tree → Bool} {f : Tree → Tree} {w : World}
    (not : possible w.tree = false) :
    call possible f w = (.error (), ⟨w.tree, w.answers.tail⟩) := if_neg (by simp [not])

theorem resolve_short {t : Tree} {cwd path : Text} {p : Path}
    (led : resolve s t cwd path = some p) : s.hostLength p < pathMax := by
  unfold resolve at led
  split at led
  case h_2 => cases led
  case h_1 =>
    split at led
    case isFalse => cases led
    case isTrue fits =>
      cases led
      exact fits.1

theorem open_of_limited (limited : s.admin = false) {t : Tree} {cwd path : Text} {p : Path}
    (may : permitted s t cwd path = true) (led : resolve s t cwd path = some p) : Open s p := by
  simpa [permitted, limited, led, Open] using may

theorem open_of_permitted (rooted : Rooted s t₀) {t : Tree} {cwd path : Text} {p : Path}
    (may : permitted s t cwd path = true) (led : resolve s t cwd path = some p) : Open s p :=
  open_of_limited rooted.limited may led

theorem keeps_allowedAt (rooted : Rooted s t₀) (cwd path : Text) :
    Keeps (Kept s t₀) (allowedAt s cwd path) fun p => Open s p ∧ s.hostLength p < pathMax := by
  refine Keeps.get.bind fun w _ => Keeps.ensure.bind fun _ may => ?_
  exact (keeps_orFail _).mono fun p led => ⟨open_of_permitted rooted may led, resolve_short led⟩

/-! ## Writing -/

theorem keeps_writeFile (rooted : Rooted s t₀) (keep : Bool) (cwd path data : Text) :
    Keeps (Kept s t₀) (writeFile s keep cwd path data) fun _ => True := by
  refine (keeps_allowedAt rooted cwd path).bind fun p is => keeps_at rooted is.1 ?_ ?_
  · intro free
    exact (keeps_open keep free).bind fun _ _ => keeps_hostWrite data free
  · intro here w dir
    have refused : hostOpen s.root keep w = (.error (), ⟨w.tree, w.answers.tail⟩) :=
      call_impossible (by simp [canOpen, dir])
    rw [here, bind_of_error refused]

theorem keeps_write (rooted : Rooted s t₀) (cwd path data : Text) :
    Keeps (Kept s t₀) (write s cwd path data) fun _ => True :=
  keeps_writeFile rooted false cwd path data

theorem keeps_append (rooted : Rooted s t₀) (cwd path data : Text) :
    Keeps (Kept s t₀) (append s cwd path data) fun _ => True :=
  keeps_writeFile rooted true cwd path data

theorem keeps_writeWhole {p : Path} (data : Text) (free : ¬Guarded s p) :
    Keeps (Kept s t₀) (writeWhole p data) fun _ => True := by
  refine (keeps_succeeds (keeps_hostWrite data free)).bind fun ok _ => ?_
  apply Keeps.ite
  · exact fun _ => Keeps.pure trivial
  · exact fun _ => (keeps_succeeds (keeps_unlink free)).bind fun _ _ => Keeps.fail

theorem keeps_writePrivate (rooted : Rooted s t₀) (cwd path data : Text) :
    Keeps (Kept s t₀) (writePrivate s cwd path data) fun _ => True := by
  refine (keeps_allowedAt rooted cwd path).bind fun p is => keeps_at rooted is.1 ?_ ?_
  · intro free
    refine Keeps.get.bind fun w _ => ?_
    refine (Keeps.when fun _ => keeps_unlink free).bind fun _ _ => ?_
    exact (keeps_create free).bind fun _ _ => keeps_writeWhole data free
  · intro here w dir
    have refused : hostUnlink s.root w = (.error (), ⟨w.tree, w.answers.tail⟩) :=
      call_impossible (by simp [dir])
    rw [here, get_bind, when_of (by rw [dir]; rfl), bind_of_error refused]

theorem keeps_mkdirAt (rooted : Rooted s t₀) (cwd path : Text) :
    Keeps (Kept s t₀) (mkdir s cwd path) fun _ => True := by
  refine (keeps_allowedAt rooted cwd path).bind fun p is => keeps_at rooted is.1 keeps_mkdir ?_
  intro here w dir
  rw [here, hostMkdir, call_impossible (by simp [dir])]

/-! ## Removing -/

theorem keeps_remove (rooted : Rooted s t₀) (cwd path : Text) :
    Keeps (Kept s t₀) (remove s cwd path) fun _ => True := by
  refine (keeps_allowedAt rooted cwd path).bind fun p is => Keeps.ensure.bind fun _ free => ?_
  have bare := (is.1.bare free).here
  refine Keeps.get.bind fun w _ => ?_
  split
  · exact Keeps.fail
  · exact keeps_rmdir bare
  · exact keeps_unlink bare

/-- A host path at or under a place. One that is long is not that place itself. -/
structure Below (base : Path) (h : Spot) : Prop where
  under : base <+: h.place
  apart : pathMax ≤ h.length → h.length < pathMax * 2 - 1 → base ≠ h.place

theorem Below.child {base : Path} {h : Spot} (is : Below base h) {name : Text}
    (plain : name ≠ [] ∧ name ≠ ['.'] ∧ name ≠ ['.', '.']) : Below base (h.child name) := by
  obtain ⟨filled, one, two⟩ := plain
  unfold Spot.child
  dsimp only
  generalize size : min (h.length + 1 + name.length) (pathMax * 2 - 1) = length
  have uncut : length < pathMax * 2 - 1 → name.take (length - h.length - 1) = name := by
    intro short
    apply List.take_of_length_le
    omega
  have positive : 0 < name.length := List.length_pos_iff.mpr filled
  constructor
  · dsimp only
    split
    · exact is.under
    · split
      case isTrue up =>
        -- Only a name that was cut reads so, and it is a long path that cuts one.
        have long : 2 < name.length := by
          have cut := congrArg List.length up
          rw [List.length_take] at cut
          by_contra short
          have whole : name.take (length - h.length - 1) = name :=
            List.take_of_length_le (by simp at cut; omega)
          exact two (whole ▸ up)
        have kept := congrArg List.length up
        rw [List.length_take] at kept
        have here : h.length + 3 = length ∧ length = pathMax * 2 - 1 := by
          simp at kept
          omega
        have apart := is.apart (by unfold pathMax at *; omega) (by omega)
        obtain ⟨more, parts⟩ := is.under
        have some : more ≠ [] := fun none => apart (by rw [← parts, none, List.append_nil])
        rw [← parts, List.dropLast_append_of_ne_nil some]
        exact List.prefix_append _ _
      case isFalse => exact is.under.trans (List.prefix_append _ _)
  · dsimp only
    intro _ short same
    rw [uncut short, if_neg (by simp [filled, one]), if_neg two] at same
    have longer := is.under.length_le
    have := congrArg List.length same
    simp at this
    omega

theorem keeps_readNames (p : Path) :
    Keeps (Kept s t₀) (readNames p) fun names =>
      ∀ name ∈ names, name ≠ [] ∧ name ≠ ['.'] ∧ name ≠ ['.', '.'] := by
  refine keeps_ask.bind fun answer _ => Keeps.ensure.bind fun _ _ => Keeps.get.bind fun w _ => ?_
  apply Keeps.pure
  intro name inside
  simpa using (List.mem_filter.mp inside).2

theorem keeps_removeTreeHost {base : Path} (bare : Bare s base) (stack : Nat) {h : Spot}
    (below : Below base h) : Keeps (Kept s t₀) (removeTreeHost stack h) fun _ => True := by
  induction stack generalizing h with
  | zero => exact Keeps.fail
  | succ stack ih =>
    have free := (bare.under below.under).here
    refine Keeps.get.bind fun w _ => ?_
    split
    · exact Keeps.fail
    · refine (keeps_readNames h.place).bind fun names plain => ?_
      refine (Keeps.each fun name inside => ih (below.child (plain name inside))).bind fun _ _ => ?_
      exact keeps_rmdir free
    · exact keeps_unlink free

theorem below_spotOf {p : Path} (short : s.hostLength p < pathMax) :
    Below (s.host p) (spotOf s p) :=
  ⟨List.prefix_refl _, fun long => absurd long (Nat.not_le.mpr short)⟩

theorem keeps_removeTree (rooted : Rooted s t₀) (cwd path : Text) :
    Keeps (Kept s t₀) (removeTree s cwd path) fun _ => True := by
  refine (keeps_allowedAt rooted cwd path).bind fun p is => Keeps.ensure.bind fun _ free => ?_
  refine Keeps.get.bind fun w _ => Keeps.ensure.bind fun _ _ => ?_
  exact keeps_removeTreeHost (is.1.bare free) s.stack (below_spotOf is.2)

/-! ## Renaming and copying -/

theorem keeps_renameAt (rooted : Rooted s t₀) (cwd source target : Text) :
    Keeps (Kept s t₀) (rename s cwd source target) fun _ => True := by
  refine Keeps.get.bind fun w _ => Keeps.ensure.bind fun _ may => ?_
  refine (keeps_orFail _).bind fun a from' => (keeps_orFail _).bind fun b to' => ?_
  refine Keeps.ensure.bind fun _ free => Keeps.ite (fun _ => Keeps.pure trivial) fun _ => ?_
  refine Keeps.ensure.bind fun _ _ => Keeps.ensure.bind fun _ _ => ?_
  exact keeps_rename ((open_of_permitted rooted may.1 from').bare free.1)
    ((open_of_permitted rooted may.2 to').bare free.2)

theorem keeps_copyFileHost (source : Path) {target : Path} (free : ¬Guarded s target) :
    Keeps (Kept s t₀) (copyFileHost source target) fun _ => True := by
  refine Keeps.get.bind fun w _ => ?_
  split
  · refine keeps_ask.bind fun _ _ => Keeps.ensure.bind fun _ _ => ?_
    exact (keeps_open false free).bind fun _ _ => keeps_writeWhole _ free
  · exact Keeps.fail

theorem keeps_copyTreeHost {base : Path} (bare : Bare s base) (stack : Nat) (source : Spot)
    {target : Spot} (below : Below base target) :
    Keeps (Kept s t₀) (copyTreeHost stack source target) fun _ => True := by
  induction stack generalizing source target with
  | zero => exact Keeps.fail
  | succ stack ih =>
    have free := (bare.under below.under).here
    refine Keeps.get.bind fun w _ => ?_
    split
    · refine Keeps.bind (R := fun _ => True) ?_ fun _ _ => ?_
      · refine Keeps.get.bind fun w _ => Keeps.ite (fun _ => Keeps.pure trivial) fun _ => ?_
        exact keeps_mkdir free
      · refine (keeps_readNames source.place).bind fun names plain => ?_
        exact Keeps.each fun name inside => ih (source.child name) (below.child (plain name inside))
    · exact keeps_copyFileHost source.place free
    · exact Keeps.fail

theorem keeps_copy (rooted : Rooted s t₀) (cwd source target : Text) :
    Keeps (Kept s t₀) (copy s cwd source target) fun _ => True := by
  refine Keeps.get.bind fun w _ => Keeps.ensure.bind fun _ may => ?_
  refine (keeps_orFail _).bind fun a _ => (keeps_orFail _).bind fun b led => ?_
  refine Keeps.ensure.bind fun _ free => Keeps.ensure.bind fun _ _ => ?_
  refine Keeps.ensure.bind fun _ _ => ?_
  exact keeps_copyTreeHost ((open_of_permitted rooted may led).bare free) s.stack _
    (below_spotOf (resolve_short led))

/-! ## Directories made along a path -/

/-- Where a host path's names lead, if all they go through is directories. -/
def lead (here : Path) : List Text → Path
  | [] => here
  | name :: rest =>
    if name = ['.'] then lead here rest
    else if name = ['.', '.'] then lead here.dropLast rest
    else lead (here ++ [name]) rest

theorem lead_of_walkHost {t : Tree} {here p : Path} {names : List Text}
    (led : walkHost t here names = some p) : p = lead here names := by
  induction names generalizing here with
  | nil => simpa [walkHost, lead] using led.symm
  | cons name rest ih =>
    rw [walkHost] at led
    rw [lead]
    split at led
    case isFalse => cases led
    case isTrue =>
      split at led
      case isTrue dot => rw [if_pos dot]; exact ih led
      case isFalse dot =>
        rw [if_neg dot]
        split at led
        case isTrue up => rw [if_pos up]; exact ih led
        case isFalse up => rw [if_neg up]; exact ih led

/-- What making a path's directories would make is nothing that is guarded. -/
def Harmless (s : Session) (t : Tree) (path : Text) : Prop :=
  ∀ names ∈ (makeNames s path).inits.tail, Guarded s (lead [] names) →
    (t.get (lead [] names)).isSome = true

theorem Harmless.same {t t' : Tree} {path : Text} (harmless : Harmless s t path)
    (same : ∀ p, Guarded s p → t'.get p = t.get p) : Harmless s t' path := by
  intro names inside guarded
  rw [same _ guarded]
  exact harmless names inside guarded

theorem keeps_makeTree {path : Text} (harmless : Harmless s t₀ path) :
    Keeps (Kept s t₀) (makeTree s path) fun _ => True := by
  apply Keeps.each
  intro names inside
  refine Keeps.get.bind fun w _ => (keeps_orFail _).bind fun p led => ?_
  have here := lead_of_walkHost led
  by_cases guarded : Guarded s p
  · -- It is there already, so it is not made.
    intro w same
    have there : (w.tree.get p).isSome = true := by
      rw [same p guarded, here]
      exact harmless names inside (here ▸ guarded)
    unfold hostMkdirIfMissing
    rw [get_bind, if_pos there]
    exact ⟨same, fun _ _ => trivial⟩
  · refine Keeps.get.bind fun w _ => Keeps.ite (fun _ => Keeps.pure trivial) fun _ => ?_
    exact keeps_mkdir guarded

/-! ## The bin -/

/-- A space's bin is there, or nothing that is guarded is made of it. -/
def BinHarmless (s : Session) (t : Tree) (volume : Volume) : Prop :=
  ∀ dir ∈ [trashRoot, trashFiles, trashInfo], ∀ path,
    trashJoin (volumeTrashBase s volume) dir [] = some path → Harmless s t path

theorem keeps_forgetNote (rooted : Rooted s t₀) (name : Text) :
    Keeps (Kept s t₀) (forgetNote s name) fun _ => True := by
  unfold forgetNote
  split
  · exact Keeps.pure trivial
  · exact (keeps_succeeds (keeps_remove rooted _ _)).bind fun _ _ => Keeps.pure trivial

theorem keeps_moveToBin (rooted : Rooted s t₀) {volume : Volume}
    (harmless : BinHarmless s t₀ volume) (p : Path) :
    Keeps (Kept s t₀) (moveToBin s volume p) fun _ => True := by
  refine Keeps.bind (R := fun _ => True) ?_ fun _ _ => ?_
  · apply Keeps.each
    intro dir inside
    split
    case h_1 path is => exact keeps_makeTree (harmless dir inside path is)
    case h_2 => exact Keeps.pure trivial
  · refine Keeps.get.bind fun w _ => (keeps_orFail _).bind fun name _ => ?_
    refine (keeps_orFail _).bind fun target _ => (keeps_renameAt rooted _ _ _).bind fun _ _ => ?_
    split
    · exact Keeps.pure trivial
    · exact (keeps_succeeds (keeps_writeFile rooted _ _ _ _)).bind fun _ _ => Keeps.pure trivial

theorem orFail_none_bind {α β : Type} (f : α → Op β) (w : World) :
    (orFail none >>= f) w = (Except.error (), w) := rfl

theorem keeps_remakeFolder {origin : Text}
    (harmless : ∀ parent, parentOf origin = some parent → Harmless s t₀ parent) :
    Keeps (Kept s t₀) (remakeFolder s origin) fun _ => True := by
  unfold remakeFolder
  split
  case h_1 parent is => exact keeps_makeTree (harmless parent is)
  case h_2 => exact Keeps.pure trivial

theorem ensure_of_not {c : Prop} [Decidable c] (not : ¬c) (w : World) :
    Prog.ensure c () w = (Except.error (), w) := by
  rw [Prog.ensure, if_neg not]
  rfl

theorem restoreTo_kept (rooted : Rooted s t₀) (name : Text) {origin : Text} {w : World}
    (same : Kept s t₀ w)
    (harmless : (trashJoin (trashSubdirIn s .user trashFiles) name []).isSome = true →
      fsExists s w.tree ['/'] origin = false → ∀ parent, parentOf origin = some parent →
        Harmless s t₀ parent) : Kept s t₀ (restoreTo s name origin w).2 := by
  unfold restoreTo
  cases source : trashJoin (trashSubdirIn s .user trashFiles) name [] with
  | none =>
    rw [orFail_none_bind]
    exact same
  | some path =>
    rw [orFail, pure_bind, get_bind]
    by_cases absent : fsExists s w.tree ['/'] origin = false
    · rw [bind_of_ok (ensure_of () absent w)]
      have made := keeps_remakeFolder (harmless (by rw [source]; rfl) absent)
      have all := made.bind fun _ _ => (keeps_renameAt rooted ['/'] path origin).bind
        fun _ _ => keeps_forgetNote rooted name
      exact (all w same).1
    · rw [bind_of_error (ensure_of_not absent w)]
      exact same

theorem keeps_trashPurge (rooted : Rooted s t₀) (name : Text) :
    Keeps (Kept s t₀) (trashPurge s name) fun _ => True := by
  refine Keeps.ensure.bind fun _ _ => (keeps_orFail _).bind fun target _ => ?_
  refine Keeps.get.bind fun w _ => Keeps.bind (R := fun _ => True) ?_ fun _ _ => ?_
  · exact Keeps.ite (fun _ => keeps_removeTree rooted _ _) fun _ => keeps_remove rooted _ _
  · exact keeps_forgetNote rooted name

theorem keeps_list {I : Tree → Prop} (max : Nat) (cwd path : Text) :
    Keeps (fun w => I w.tree) (list s max cwd path) fun _ => True := by
  refine Keeps.get.bind fun w _ => (keeps_orFail _).bind fun p _ => ?_
  refine Keeps.ensure.bind fun _ _ => Keeps.ensure.bind fun _ _ => ?_
  refine Keeps.bind (R := fun _ => True) ?_ fun _ _ => Keeps.pure trivial
  refine keeps_ask.bind fun _ _ => Keeps.ensure.bind fun _ _ => Keeps.get.bind fun _ _ => ?_
  exact Keeps.pure trivial

theorem keeps_trashEmpty (rooted : Rooted s t₀) :
    Keeps (Kept s t₀) (trashEmpty s) fun _ => True := by
  refine (keeps_list (I := Same s t₀) 512 _ _).attempt.bind fun names _ => ?_
  split
  · exact Keeps.pure trivial
  · apply Keeps.each
    intro name _
    exact (keeps_succeeds (keeps_trashPurge rooted name)).bind fun _ _ => Keeps.pure trivial

/-- Reading a note changes nothing. -/
theorem trashOrigin_tree (name : Text) (w : World) : (trashOrigin s name w).2.tree = w.tree := by
  have reads : Keeps (fun u => u.tree = w.tree) (trashOrigin s name) fun _ => True := by
    refine (keeps_orFail _).bind fun info _ => Keeps.bind (R := fun _ => True) ?_ fun data _ => ?_
    · refine Keeps.get.bind fun u _ => (keeps_orFail _).bind fun p _ => ?_
      refine Keeps.ensure.bind fun _ _ => ?_
      refine (keeps_ask (I := (· = w.tree))).bind fun _ _ => Keeps.ensure.bind fun _ _ => ?_
      split
      · exact Keeps.pure trivial
      · exact Keeps.fail
    · exact Keeps.ensure.bind fun _ _ => Keeps.pure trivial
  exact (reads w rfl).1

/-! ## Runs -/

/-- The two calls that make directories without asking make none that is guarded: what a bin is
short of where something is thrown away, and the folder a note names where something is restored. -/
def Spares (s : Session) (w : World) : Call → Prop
  | .trash cwd path => ∀ p, resolve s w.tree cwd path = some p →
      (isProtected p = false ∧ isTrash s w.tree cwd path = false ∧ p ≠ [] ∧
        fsExists s w.tree cwd (canonicalText p) = true) →
      BinHarmless s w.tree (volumeOf s w.tree cwd (canonicalText p))
  | .trashRestore name => ∀ origin parent, (name ≠ [] ∧ '/' ∉ name) →
      (trashOrigin s name w).1 = .ok origin →
      (trashJoin (trashSubdirIn s .user trashFiles) name []).isSome = true →
      fsExists s w.tree ['/'] origin = false → parentOf origin = some parent →
      Harmless s w.tree parent
  | _ => True

theorem Same.harmless {t : Tree} (same : Same s t₀ t) {path : Text} (harmless : Harmless s t path) :
    Harmless s t₀ path := harmless.same fun p guarded => (same p guarded).symm

theorem trash_kept (rooted : Rooted s t₀) (cwd path : Text) {w : World} (same : Kept s t₀ w)
    (spares : Spares s w (.trash cwd path)) : Kept s t₀ (trash s cwd path w).2 := by
  unfold trash
  rw [get_bind]
  cases led : resolve s w.tree cwd path with
  | none =>
    rw [orFail_none_bind]
    exact same
  | some p =>
    rw [orFail, pure_bind]
    by_cases going : isProtected p = false ∧ isTrash s w.tree cwd path = false ∧ p ≠ [] ∧
        fsExists s w.tree cwd (canonicalText p) = true
    · rw [bind_of_ok (ensure_of () going w)]
      have harmless : BinHarmless s t₀ (volumeOf s w.tree cwd (canonicalText p)) :=
        fun dir inside path is => same.harmless (spares p led going dir inside path is)
      exact (keeps_moveToBin rooted harmless p w same).1
    · rw [bind_of_error (ensure_of_not going w)]
      exact same

theorem trashRestore_kept (rooted : Rooted s t₀) (name : Text) {w : World} (same : Kept s t₀ w)
    (spares : Spares s w (.trashRestore name)) : Kept s t₀ (trashRestore s name w).2 := by
  unfold trashRestore
  by_cases valid : name ≠ [] ∧ '/' ∉ name
  · rw [bind_of_ok (ensure_of () valid w)]
    have tree := trashOrigin_tree (s := s) name w
    rcases read : trashOrigin s name w with ⟨_ | origin, w'⟩
    · rw [bind_of_error read]
      rw [read] at tree
      rw [Kept, tree]
      exact same
    · rw [bind_of_ok read]
      rw [read] at tree
      have same' : Kept s t₀ w' := by
        rw [Kept, tree]
        exact same
      apply restoreTo_kept rooted name same'
      intro source absent parent is
      rw [tree] at absent
      exact same.harmless (spares origin parent valid (by rw [read]) source absent is)
  · rw [bind_of_error (ensure_of_not valid w)]
    exact same

theorem step_kept (rooted : Rooted s t₀) (w : World) (c : Call) (spares : Spares s w c)
    (same : Kept s t₀ w) : Kept s t₀ (step s w c) := by
  cases c <;> dsimp only [step, called]
  case write cwd path data => exact (keeps_write rooted cwd path data w same).1
  case append cwd path data => exact (keeps_append rooted cwd path data w same).1
  case writePrivate cwd path data => exact (keeps_writePrivate rooted cwd path data w same).1
  case mkdir cwd path => exact (keeps_mkdirAt rooted cwd path w same).1
  case remove cwd path => exact (keeps_remove rooted cwd path w same).1
  case removeTree cwd path => exact (keeps_removeTree rooted cwd path w same).1
  case rename cwd source target => exact (keeps_renameAt rooted cwd source target w same).1
  case copy cwd source target => exact (keeps_copy rooted cwd source target w same).1
  case trash cwd path => exact trash_kept rooted cwd path same spares
  case trashRestore name => exact trashRestore_kept rooted name same spares
  case trashPurge name => exact (keeps_trashPurge rooted name w same).1
  case trashEmpty => exact (keeps_trashEmpty rooted w same).1

/-- **A limited account writes only where it may**, in every run in which no bin is made where it is
not there and no folder is made again, but where the account may. -/
theorem limited_confined (s : Session) (limited : s.admin = false) (w : World)
    (rooted : w.tree.get s.root = some .dir) (calls : List Call)
    (spares : Allows (step s) (Spares s) w calls) :
    ∀ p, Guarded s p → (run (step s) w calls).tree.get p = w.tree.get p :=
  run_keeps (I := Kept s w.tree) (step_kept ⟨limited, rooted⟩) spares fun _ _ => rfl

/-- Al, who is no administrator, in a tree at /r. -/
def al : Session := ⟨[['r']], ['A', 'l'], false, 8, id⟩

def alFile : Path := [['r'], usersName, ['A', 'l'], ['x']]

def alTree : Tree :=
  [([], .dir), ([['r']], .dir), ([['r'], systemName], .dir), ([['r'], ['T']], .dir),
    ([['r'], ['T'], ['y']], .file []), ([['r'], usersName], .dir),
    ([['r'], usersName, ['A', 'l']], .dir), (alFile, .file ['1'])]

def alCalls : List Call :=
  [.write ['/'] (canonicalText (alFile.drop 1)) ['2'], .removeTree ['/'] ['/', 'T']]

theorem al_writes :
    (run (step al) ⟨alTree, []⟩ alCalls).tree.get [['r'], systemName] =
        alTree.get [['r'], systemName] ∧
      (run (step al) ⟨alTree, []⟩ alCalls).tree.get alFile = some (.file ['2']) ∧
      (run (step al) ⟨alTree, []⟩ alCalls).tree.get [['r'], ['T']] = none :=
  ⟨limited_confined al rfl ⟨alTree, []⟩ (by decide +kernel) alCalls ⟨trivial, trivial, trivial⟩
    [['r'], systemName] (.system (List.prefix_refl _)), by decide +kernel, by decide +kernel⟩

/-- Throwing away a file outside every account makes the system's bin; restoring one whose note the
account wrote makes a directory outside the tree. -/
theorem al_escapes :
    let bin := [['r'], systemName, trashName]
    let note := canonicalText ([usersName, ['A', 'l'], trashName, "info".toList, "n.origin".toList])
    Guarded al bin ∧ alTree.get bin = none ∧
      (step al ⟨alTree, []⟩ (.trash ['/'] ['/', 'T', '/', 'y'])).tree.get bin = some .dir ∧
      Guarded al [['e']] ∧ alTree.get [['e']] = none ∧
      (run (step al) ⟨alTree, []⟩ [.trash ['/'] (canonicalText (alFile.drop 1)),
        .write ['/'] note "/../e/z\n".toList, .trashRestore ['n']]).tree.get [['e']] =
          some .dir := by
  refine ⟨.system ⟨[trashName], rfl⟩, by decide +kernel, by decide +kernel, .outside ?_,
    by decide +kernel, by decide +kernel⟩
  decide +kernel

end ReconOS.Fs
