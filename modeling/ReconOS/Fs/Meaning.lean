import ReconOS.Fs.Paths

/-! What a written path means, and what comes of resolving it: text past the work buffer is left
out, and a name left out is a different file. -/
namespace ReconOS.Fs
open Libc Lib

/-! ## The meaning -/

/-- What is written, whole. -/
def joined (cwd path : Text) : Text :=
  let path := if path.isEmpty then ['.'] else path
  if path.head? = some '/' then path
  else
    let base := if cwd.isEmpty then ['/'] else cwd
    if base = ['/'] then '/' :: path else base ++ '/' :: path

/-- Where names lead: `.` nowhere, `..` back from the last one, and at the root there is no back. -/
def follow (place : Path) : List Text → Option Path
  | [] => some place
  | name :: rest =>
    if name = ['.'] then follow place rest
    else if name = ['.', '.'] then
      if place = [] then none else follow place.dropLast rest
    else follow (place ++ [name]) rest

/-- The path a text spells. -/
def spelled (text : Text) : Option Path := follow [] (Text.tokens '/' text)

/-! ## The call, with what it writes -/

def Session.hostText (s : Session) (p : Path) : Text :=
  canonicalText s.root ++ if p = [] then [] else canonicalText p

structure Resolved where
  host : Text
  /-- Nothing where the caller asked for none. -/
  canonical : Option Text
  deriving DecidableEq

def written (s : Session) (canonicalSize : Option Nat) (p : Path) : Resolved where
  host := s.hostText p
  canonical := canonicalSize.map fun size => textCopy size (canonicalText p)

/-- `recon_fs_resolve`, with the sizes of both buffers. -/
def reconFsResolve (s : Session) (t : Tree) (hostSize : Nat) (canonicalSize : Option Nat)
    (cwd path : Text) : Option Resolved :=
  match normalize cwd path with
  | some p =>
    if s.hostLength p < hostSize then
      -- `stays_inside` has a buffer of its own, and refuses what it does not hold.
      if s.hostLength p < pathMax ∧ staysInside s t (s.host p) = true then
        some (written s canonicalSize p)
      else none
    else none
  | none => none

/-- The text is of the path there is, and resolves to it again from anywhere. -/
def MeansWhatItSpells (s : Session) (t : Tree) (hostSize : Nat) (canonicalSize : Option Nat)
    (cwd path : Text) : Prop :=
  ∀ r, reconFsResolve s t hostSize canonicalSize cwd path = some r →
    ∃ p, spelled (joined cwd path) = some p ∧ r.host = s.hostText p ∧
      ∀ out, r.canonical = some out → out = canonicalText p ∧
        ∀ cwd', reconFsResolve s t hostSize canonicalSize cwd' out = some r

/-- What is asked of a path before it is allowed. -/
structure Allowed (s : Session) (t : Tree) (hostSize : Nat) (text : Text) (p : Path) : Prop where
  spells : spelled text = some p
  shallow : ∀ k q, follow [] ((Text.tokens '/' text).take k) = some q → q.length ≤ segmentsMax
  fits : (canonicalText p).length < pathMax
  onHost : s.hostLength p < hostSize ∧ s.hostLength p < pathMax
  inside : staysInside s t (s.host p) = true

variable {s : Session} {t : Tree} {cwd path : Text} {p : Path}

theorem workText_eq (cwd path : Text) :
    workText cwd path = (joined cwd path).take (pathMax * 2 - 1) := rfl

/-! ## Names -/

/-- A name that stands for itself. -/
def Plain (name : Text) : Prop :=
  '/' ∉ name ∧ name ≠ [] ∧ name ≠ ['.'] ∧ name ≠ ['.', '.']

/-- Following a part of a text gives names of the text. -/
theorem follow_plain {place p : Path} {names : List Text}
    (whole : ∀ name ∈ names, '/' ∉ name ∧ name ≠ []) (plain : ∀ name ∈ place, Plain name)
    (is : follow place names = some p) : ∀ name ∈ p, Plain name := by
  induction names generalizing place with
  | nil =>
    cases is
    exact plain
  | cons name names ih =>
    have rest : ∀ n ∈ names, '/' ∉ n ∧ n ≠ [] := fun n inside =>
      whole n (List.mem_cons_of_mem _ inside)
    rw [follow] at is
    split at is
    case isTrue => exact ih rest plain is
    case isFalse notDot =>
      split at is
      case isTrue =>
        split at is
        case isTrue => cases is
        case isFalse =>
          exact ih rest (fun n inside => plain n (List.dropLast_subset _ inside)) is
      case isFalse notDots =>
        apply ih rest _ is
        intro n inside
        cases List.mem_append.mp inside with
        | inl before => exact plain n before
        | inr this =>
          rw [List.mem_singleton.mp this]
          obtain ⟨apart, some⟩ := whole name List.mem_cons_self
          exact ⟨apart, some, notDot, notDots⟩

theorem tokens_whole (text : Text) : ∀ name ∈ Text.tokens '/' text, '/' ∉ name ∧ name ≠ [] := by
  intro name inside
  have some : name ≠ [] := by simpa using List.of_mem_filter inside
  exact ⟨Text.not_mem_tokens inside, some⟩

theorem spelled_plain {text : Text} (is : spelled text = some p) : ∀ name ∈ p, Plain name := by
  refine follow_plain (tokens_whole text) ?_ is
  intro name none
  cases none

theorem follow_of_plain {place names : Path} (plain : ∀ name ∈ names, Plain name) :
    follow place names = some (place ++ names) := by
  induction names generalizing place with
  | nil => rw [follow, List.append_nil]
  | cons name names ih =>
    obtain ⟨_, _, notDot, notDots⟩ := plain name List.mem_cons_self
    rw [follow, if_neg notDot, if_neg notDots,
      ih fun n inside => plain n (List.mem_cons_of_mem _ inside), List.append_assoc]
    rfl

/-- A canonical text is read back as its own names. -/
theorem tokens_canonicalText (whole : ∀ name ∈ p, '/' ∉ name ∧ name ≠ []) :
    Text.tokens '/' (canonicalText p) = p := by
  by_cases root : p = []
  · rw [root]
    decide
  · rw [canonicalText, if_neg root]
    exact Text.tokens_heads whole

theorem spelled_canonicalText (plain : ∀ name ∈ p, Plain name) :
    spelled (canonicalText p) = some p := by
  rw [spelled, tokens_canonicalText fun name inside => ⟨(plain name inside).1,
    (plain name inside).2.1⟩, follow_of_plain plain]
  rfl

/-! ## The walk -/

theorem follow_cons_take {place q : Path} {name : Text} {names : List Text} {k : Nat} {next : Path}
    (step : ∀ rest, follow place (name :: rest) = follow next rest) :
    follow place ((name :: names).take (k + 1)) = some q ↔ follow next (names.take k) = some q := by
  rw [List.take_succ_cons, step]

/-- The stack is where the names lead, where it is never over its size on the way. -/
theorem walkSegments_iff {stack p : Path} {names : List Text}
    (small : stack.length ≤ segmentsMax) :
    walkSegments stack names = some p ↔ follow stack names = some p ∧
      ∀ k q, follow stack (names.take k) = some q → q.length ≤ segmentsMax := by
  induction names generalizing stack with
  | nil =>
    rw [walkSegments, follow]
    refine ⟨fun is => ⟨is, fun k q here => ?_⟩, fun is => is.1⟩
    rw [List.take_nil, follow] at here
    cases here
    exact small
  | cons name names ih =>
    -- Before the name the stack is small; after it the rest of the way is another's.
    have onward : ∀ next, (∀ rest, follow stack (name :: rest) = follow next rest) →
        (walkSegments stack (name :: names) = walkSegments next names) →
        next.length ≤ segmentsMax → (walkSegments stack (name :: names) = some p ↔
          follow stack (name :: names) = some p ∧
          ∀ k q, follow stack ((name :: names).take k) = some q → q.length ≤ segmentsMax) := by
      intro next step walk fits
      rw [walk, step, ih fits]
      refine and_congr_right fun _ => ⟨fun all k q here => ?_, fun all k q here => ?_⟩
      · cases k with
        | zero =>
          rw [List.take_zero, follow] at here
          cases here
          exact small
        | succ k => exact all k q ((follow_cons_take step).mp here)
      · exact all (k + 1) q ((follow_cons_take step).mpr here)
    by_cases dot : name = ['.']
    · exact onward stack (fun rest => by rw [follow, if_pos dot])
        (by rw [walkSegments, if_pos dot]) small
    by_cases dots : name = ['.', '.']
    · by_cases root : stack = []
      · rw [walkSegments, if_neg dot, if_pos dots, if_pos root, follow, if_neg dot, if_pos dots,
          if_pos root]
        constructor
        · intro no
          cases no
        · intro no
          cases no.1
      · refine onward stack.dropLast (fun rest => ?_) ?_ ?_
        · rw [follow, if_neg dot, if_pos dots, if_neg root]
        · rw [walkSegments, if_neg dot, if_pos dots, if_neg root]
        · rw [List.length_dropLast]
          omega
    · have step : ∀ rest, follow stack (name :: rest) = follow (stack ++ [name]) rest := by
        intro rest
        rw [follow, if_neg dot, if_neg dots]
      by_cases full : stack.length ≥ segmentsMax
      · rw [walkSegments, if_neg dot, if_neg dots, if_pos full]
        constructor
        · intro no
          cases no
        · intro is
          have deep := is.2 1 (stack ++ [name]) (by rw [List.take_succ_cons, step]; rfl)
          rw [List.length_append, List.length_singleton] at deep
          omega
      · refine onward (stack ++ [name]) step ?_ ?_
        · rw [walkSegments, if_neg dot, if_neg dots, if_neg full]
        · rw [List.length_append, List.length_singleton]
          omega

theorem canonicalText_root_fits (root : p = []) : (canonicalText p).length < pathMax := by
  rw [root]
  decide

theorem normalize_iff : normalize cwd path = some p ↔
    spelled (workText cwd path) = some p ∧
      (∀ k q, follow [] ((Text.tokens '/' (workText cwd path)).take k) = some q →
        q.length ≤ segmentsMax) ∧ (canonicalText p).length < pathMax := by
  have walk : ∀ q, walkSegments [] (Text.tokens '/' (workText cwd path)) = some q ↔ _ := fun q =>
    @walkSegments_iff [] q _ (Nat.zero_le segmentsMax)
  unfold normalize
  split
  case h_1 q is =>
    obtain ⟨leads, shallow⟩ := (walk q).mp is
    have fits : (q = [] ∨ (canonicalText q).length < pathMax) ↔
        (canonicalText q).length < pathMax :=
      ⟨fun either => either.elim canonicalText_root_fits id, .inr⟩
    constructor
    · intro same
      split at same
      case isFalse => cases same
      case isTrue short =>
        cases same
        exact ⟨leads, shallow, fits.mp short⟩
    · intro ⟨same, _, short⟩
      cases leads.symm.trans same
      rw [if_pos (fits.mpr short)]
  case h_2 none =>
    constructor
    · intro no
      cases no
    · intro ⟨leads, shallow, _⟩
      cases none.symm.trans ((walk p).mpr ⟨leads, shallow⟩)

theorem reconFsResolve_iff {hostSize : Nat} {canonicalSize : Option Nat} {r : Resolved} :
    reconFsResolve s t hostSize canonicalSize cwd path = some r ↔
      ∃ p, Allowed s t hostSize (workText cwd path) p ∧ r = written s canonicalSize p := by
  unfold reconFsResolve
  split
  case h_1 p is =>
    obtain ⟨spells, shallow, fits⟩ := normalize_iff.mp is
    constructor
    · intro same
      split at same
      case isFalse => cases same
      case isTrue room =>
        split at same
        case isFalse => cases same
        case isTrue within =>
          cases same
          exact ⟨p, ⟨spells, shallow, fits, ⟨room, within.1⟩, within.2⟩, rfl⟩
    · rintro ⟨q, allowed, rfl⟩
      cases spells.symm.trans allowed.spells
      rw [if_pos allowed.onHost.1, if_pos ⟨allowed.onHost.2, allowed.inside⟩]
  case h_2 none =>
    constructor
    · intro no
      cases no
    · rintro ⟨p, allowed, _⟩
      cases none.symm.trans (normalize_iff.mpr ⟨allowed.spells, allowed.shallow, allowed.fits⟩)

/-! ## Again -/

theorem joined_canonicalText (cwd : Text) (p : Path) :
    joined cwd (canonicalText p) = canonicalText p := by
  have slash : ∃ rest, canonicalText p = '/' :: rest := by
    cases p with
    | nil => exact ⟨[], rfl⟩
    | cons name names => exact ⟨name ++ names.flatMap ('/' :: ·), by simp [canonicalText]⟩
  obtain ⟨rest, is⟩ := slash
  rw [is]
  rfl

/-- A canonical path is allowed where the text it came from is. -/
theorem Allowed.again {hostSize : Nat} {text : Text} (is : Allowed s t hostSize text p)
    (cwd : Text) : Allowed s t hostSize (workText cwd (canonicalText p)) p := by
  have plain := spelled_plain is.spells
  have whole : workText cwd (canonicalText p) = canonicalText p := by
    rw [workText_eq, joined_canonicalText]
    apply List.take_of_length_le
    have := is.fits
    unfold pathMax at *
    omega
  have deep : p.length ≤ segmentsMax := by
    have end' := is.shallow (Text.tokens '/' text).length p
    rw [List.take_length] at end'
    exact end' is.spells
  constructor
  case spells => rw [whole, spelled_canonicalText plain]
  case shallow =>
    intro k q here
    rw [whole, tokens_canonicalText fun name inside => ⟨(plain name inside).1,
      (plain name inside).2.1⟩, follow_of_plain fun name inside =>
      plain name (List.mem_of_mem_take inside)] at here
    cases here
    rw [List.nil_append, List.length_take]
    omega
  case fits => exact is.fits
  case onHost => exact is.onHost
  case inside => exact is.inside

theorem canonicalText_injective {q : Path} (plain : ∀ name ∈ p, Plain name)
    (plain' : ∀ name ∈ q, Plain name) (same : canonicalText p = canonicalText q) : p = q := by
  have here := spelled_canonicalText plain
  rw [same, spelled_canonicalText plain'] at here
  exact (Option.some.inj here).symm

theorem Session.hostText_injective {q : Path} (plain : ∀ name ∈ p, Plain name)
    (plain' : ∀ name ∈ q, Plain name) (same : s.hostText p = s.hostText q) : p = q := by
  have some : ∀ p, canonicalText p ≠ [] := by
    intro p none
    cases p with
    | nil => cases none
    | cons name names => simp [canonicalText] at none
  have tails := List.append_cancel_left same
  by_cases root : p = []
  · by_cases root' : q = []
    · rw [root, root']
    · rw [if_pos root, if_neg root'] at tails
      exact absurd tails.symm (some q)
  · by_cases root' : q = []
    · rw [if_neg root, if_pos root'] at tails
      exact absurd tails (some p)
    · rw [if_neg root, if_neg root'] at tails
      exact canonicalText_injective plain plain' tails

/-! ## What comes of it -/

/-- A path means what it says or is refused, exactly where what the work buffer takes of the text,
if that is allowed, spells the same as the whole text, and the caller's buffer takes the path. -/
theorem means_what_it_spells (s : Session) (t : Tree) (hostSize : Nat)
    (canonicalSize : Option Nat) (cwd path : Text) :
    MeansWhatItSpells s t hostSize canonicalSize cwd path ↔
      ∀ p, Allowed s t hostSize ((joined cwd path).take (pathMax * 2 - 1)) p →
        spelled (joined cwd path) = some p ∧
          ∀ size, canonicalSize = some size → (canonicalText p).length < size := by
  rw [← workText_eq]
  constructor
  · intro means p allowed
    obtain ⟨q, spells, host, out⟩ := means _ (reconFsResolve_iff.mpr ⟨p, allowed, rfl⟩)
    have same : p = q :=
      Session.hostText_injective (spelled_plain allowed.spells) (spelled_plain spells) host
    refine ⟨same ▸ spells, ?_⟩
    rintro size rfl
    have whole := (out _ rfl).1
    unfold textCopy at whole
    rw [← same] at whole
    have short := congrArg List.length whole
    rw [List.length_take] at short
    have some : 0 < (canonicalText p).length := by
      cases p with
      | nil => decide
      | cons name names => simp [canonicalText]
    omega
  · intro fits r is
    obtain ⟨p, allowed, rfl⟩ := reconFsResolve_iff.mp is
    obtain ⟨spells, room⟩ := fits p allowed
    refine ⟨p, spells, rfl, fun out here => ?_⟩
    obtain ⟨size, is, rfl⟩ := Option.map_eq_some_iff.mp here
    have whole : textCopy size (canonicalText p) = canonicalText p := textCopy_fits (room size is)
    refine ⟨whole, fun cwd' => ?_⟩
    rw [whole]
    exact reconFsResolve_iff.mpr ⟨p, allowed.again cwd', rfl⟩

/-- The root, spelled so long that the work buffer holds little more. -/
def longRoot : List Text := List.replicate 1023 ['.']

def pastTheBuffer : Text := (longRoot ++ [['b']]).flatMap ('/' :: ·)

def playSession : Session where
  root := [['r']]
  user := ['u']
  admin := true
  stack := 64
  sorted := id

theorem follow_dots (place : Path) (n : Nat) (rest : List Text) :
    follow place (List.replicate n ['.'] ++ rest) = follow place rest := by
  induction n with
  | zero => rfl
  | succ n ih => rw [List.replicate_succ, List.cons_append, follow, if_pos rfl, ih]

theorem follow_dots_only (n : Nat) : follow [] (List.replicate n ['.']) = some [] := by
  have end' := follow_dots [] n []
  rwa [List.append_nil] at end'

theorem dots_length (n : Nat) :
    ((List.replicate n ['.']).flatMap ('/' :: ·)).length = 2 * n := by
  induction n with
  | zero => rfl
  | succ n ih =>
    rw [List.replicate_succ, List.flatMap_cons, List.length_append, ih, List.length_cons,
      List.length_singleton]
    omega

theorem longRoot_whole : ∀ name ∈ longRoot, '/' ∉ name ∧ name ≠ [] := by
  intro name inside
  rw [List.eq_of_mem_replicate inside]
  decide

theorem pastTheBuffer_joined : joined [] pastTheBuffer = pastTheBuffer := rfl

theorem pastTheBuffer_spelled : spelled pastTheBuffer = some [['b']] := by
  have whole : ∀ name ∈ longRoot ++ [['b']], '/' ∉ name ∧ name ≠ [] := by
    intro name inside
    cases List.mem_append.mp inside with
    | inl dot => exact longRoot_whole name dot
    | inr last =>
      rw [List.mem_singleton.mp last]
      decide
  rw [spelled, pastTheBuffer, Text.tokens_heads whole, longRoot, follow_dots]
  decide

/-- Of `/./.…/./b` the buffer holds everything but the `b`. -/
theorem pastTheBuffer_cut :
    pastTheBuffer.take (pathMax * 2 - 1) = longRoot.flatMap ('/' :: ·) ++ ['/'] := by
  have long : (longRoot.flatMap ('/' :: ·) ++ ['/']).length = pathMax * 2 - 1 := by
    rw [List.length_append, longRoot, dots_length]
    rfl
  rw [← long, pastTheBuffer, List.flatMap_append]
  have after : ([['b']] : List Text).flatMap ('/' :: ·) = ['/'] ++ ['b'] := rfl
  rw [after, ← List.append_assoc, List.take_left]

theorem pastTheBuffer_allowed :
    Allowed playSession [([['r']], .dir)] pathMax (pastTheBuffer.take (pathMax * 2 - 1)) [] := by
  have names : Text.tokens '/' (pastTheBuffer.take (pathMax * 2 - 1)) = longRoot := by
    rw [pastTheBuffer_cut, Text.tokens_append, Text.tokens_heads longRoot_whole, Text.tokens_nil,
      List.append_nil]
  have root : ∀ k, follow [] (longRoot.take k) = some [] := by
    intro k
    rw [longRoot, List.take_replicate]
    exact follow_dots_only _
  constructor
  case spells =>
    rw [spelled, names]
    exact follow_dots_only _
  case shallow =>
    intro k q here
    rw [names, root] at here
    cases here
    exact Nat.zero_le _
  case fits => decide
  case onHost => decide
  case inside => decide

/-- It resolves to the root, and spells the name after it. -/
theorem name_past_the_buffer :
    ¬MeansWhatItSpells playSession [([['r']], .dir)] pathMax (some pathMax) [] pastTheBuffer := by
  intro means
  have cut : workText [] pastTheBuffer = pastTheBuffer.take (pathMax * 2 - 1) := by
    rw [workText_eq, pastTheBuffer_joined]
  have allowed := pastTheBuffer_allowed
  rw [← cut] at allowed
  obtain ⟨p, is, host, _⟩ := means (written playSession (some pathMax) [])
    (reconFsResolve_iff.mpr ⟨[], allowed, rfl⟩)
  rw [pastTheBuffer_joined, pastTheBuffer_spelled] at is
  cases is
  exact absurd host (by decide)

end ReconOS.Fs
