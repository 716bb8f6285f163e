import ReconOS.Http.Chunked

/-! How a reply arrives: what the read that ends the head leaves in the head's array, what it could
not take, and the body delivered piece by piece from there. -/
namespace ReconOS.Http
open Libc Lib

/-! ## Where the head ends -/

theorem splitHead_bounds {text : Text} {n : Nat} (is : splitHead text = some n) :
    4 ≤ n ∧ n ≤ text.length := by
  induction text generalizing n with
  | nil => cases is
  | cons c rest ih =>
    rw [splitHead] at is
    split at is
    case isTrue blankHere =>
      cases is
      exact ⟨Nat.le_refl _, (List.isPrefixOf_iff_prefix.mp blankHere).length_le⟩
    case isFalse =>
      obtain ⟨m, here, rfl⟩ := Option.map_eq_some_iff.mp is
      have := ih here
      rw [List.length_cons]
      omega

theorem splitHead_append {text : Text} {n : Nat} (rest : Text) (is : splitHead text = some n) :
    splitHead (text ++ rest) = some n := by
  induction text generalizing n with
  | nil => cases is
  | cons c tail ih =>
    rw [splitHead] at is
    rw [List.cons_append, splitHead]
    split at is
    case isTrue blankHere =>
      have still : blankLine <+: c :: (tail ++ rest) :=
        (List.isPrefixOf_iff_prefix.mp blankHere).trans (List.prefix_append (c :: tail) rest)
      rw [if_pos (List.isPrefixOf_iff_prefix.mpr still), is]
    case isFalse other =>
      obtain ⟨m, here, rfl⟩ := Option.map_eq_some_iff.mp is
      have long : blankLine.length ≤ (c :: tail).length := by
        have := splitHead_bounds here
        rw [List.length_cons, blankLine]
        simp only [List.length_cons, List.length_nil]
        omega
      have still : ¬blankLine <+: c :: (tail ++ rest) := fun blankHere =>
        other (List.isPrefixOf_iff_prefix.mpr
          (List.prefix_of_prefix_length_le blankHere (List.prefix_append (c :: tail) rest) long))
      rw [if_neg fun h => still (List.isPrefixOf_iff_prefix.mp h), ih here]
      rfl

/-- A blank line that is not here is further on. -/
theorem splitHead_tail {c : Char} {tail : Text} {n : Nat} (is : splitHead (c :: tail) = some n)
    (other : ∀ rest, c = '\r' → tail = '\n' :: rest → False) :
    ∃ m, splitHead tail = some m := by
  rw [splitHead] at is
  split at is
  case isTrue blankHere =>
    obtain ⟨more, parts⟩ := List.isPrefixOf_iff_prefix.mp blankHere
    rw [blankLine, List.cons_append, List.cons.injEq] at parts
    exact absurd parts.2.symm fun same => other _ parts.1.symm same
  case isFalse =>
    obtain ⟨m, here, -⟩ := Option.map_eq_some_iff.mp is
    exact ⟨m, here⟩

/-- The lines of a head are read the same whatever comes after it. -/
theorem headLines_append {text : Text} {n : Nat} (line rest : Text)
    (is : splitHead text = some n) : headLines line (text ++ rest) = headLines line text := by
  fun_induction headLines line text generalizing n with
  | case1 line tail none => simp [headLines, none]
  | case2 line tail some ih =>
    rw [List.cons_append, List.cons_append, headLines, if_neg some]
    congr 1
    rw [splitHead] at is
    split at is
    case isTrue blankHere =>
      obtain ⟨more, parts⟩ := List.isPrefixOf_iff_prefix.mp blankHere
      rw [blankLine] at parts
      simp only [List.cons_append, List.nil_append, List.cons.injEq, true_and] at parts
      rw [← parts]
      simp [headLines]
    case isFalse =>
      obtain ⟨m, here, -⟩ := Option.map_eq_some_iff.mp is
      obtain ⟨k, there⟩ := splitHead_tail here (by simp)
      exact ih there
  | case3 line c tail other ih =>
    obtain ⟨m, here⟩ := splitHead_tail is other
    obtain ⟨d, tail, rfl⟩ : ∃ d tail', tail = d :: tail' := by
      cases tail with
      | nil => cases here
      | cons d tail => exact ⟨d, tail, rfl⟩
    rw [List.cons_append, headLines, ih here]
    intro rest' cr lf
    rw [List.cons_append, List.cons.injEq] at lf
    exact other tail cr (by rw [lf.1])
  | case4 => cases is

/-- A head: its blank line ends it, and the array holds it. -/
structure IsHead (head : Text) : Prop where
  ends : splitHead head = some head.length
  plain : nul ∉ head
  fits : head.length < headMax

theorem cstring_append {a : Text} (plain : nul ∉ a) (b : Text) :
    cstring (a ++ b) = a ++ cstring b := by
  rw [cstring, List.takeWhile_append_of_pos]
  · rfl
  · intro c inside
    have differ : c ≠ nul := fun same => plain (same ▸ inside)
    simpa using differ

theorem IsHead.split {head : Text} (is : IsHead head) (rest : Text) :
    splitHead (cstring (head ++ rest)) = some head.length := by
  rw [cstring_append is.plain]
  exact splitHead_append _ is.ends

/-- Less than the head has no end of it. -/
theorem IsHead.split_part {part more : Text} (is : IsHead (part ++ more)) (some : more ≠ []) :
    splitHead (cstring part) = none := by
  have plain : nul ∉ part := fun inside => is.plain (List.mem_append_left _ inside)
  rw [cstring_of_nul_not_mem plain]
  cases found : splitHead part with
  | none => rfl
  | some n =>
    have same := splitHead_append more found
    rw [is.ends, Option.some.injEq] at same
    have within := (splitHead_bounds found).2
    rw [List.length_append] at same
    have := List.length_pos_iff.mpr some
    omega

theorem IsHead.readHead {head : Text} (is : IsHead head) (asked : Asked) (f : Fields)
    (rest : Text) : readHead asked f (head ++ rest) = readHead asked f head := by
  rw [Http.readHead, Http.readHead, cstring_append is.plain, headLines_append [] _ is.ends,
    cstring_of_nul_not_mem is.plain]

/-! ## The body, piece by piece -/

def readBody (kind : BodyKind) (b : Body) (bytes : Text) : Body :=
  match kind with
  | .chunked => feedChunked b bytes
  | _ => { b with bytes := append b.bytes bytes }

/-- There is no more of the body to wait for. -/
def complete (f : Fields) (b : Body) : Bool :=
  match f.kind with
  | .untilClose => false
  | .length => f.announced ≤ b.bytes.length
  | .chunked => b.done

theorem readBody_seamless (kind : BodyKind) : Seamless (readBody kind) := by
  cases kind
  case chunked => exact feedChunked_seamless
  all_goals exact ⟨fun b => by simp [readBody, append_nil],
    fun b x y => by simp [readBody, append_append]⟩

theorem deliver_eq (r : Request) (bytes : Text) :
    deliver r bytes =
      if complete r.fields (readBody r.fields.kind r.body bytes) then
        finishOk r.fields (readBody r.fields.kind r.body bytes).bytes
      else .waiting { r with body := readBody r.fields.kind r.body bytes } := by
  unfold deliver complete readBody
  cases r.fields.kind <;> simp

/-- What a body that has been read so far comes to when nothing more does. -/
def settle (asked : Asked) (f : Fields) (b : Body) : Outcome :=
  if f.kind = .untilClose ∨ complete f b = true then finishOk f b.bytes
  else finishFailed f (endedEarly asked)

theorem closed_eq (asked : Asked) {r : Request} {reason : Reason} (body : r.headDone = true)
    (plain : r.fields.kind = .chunked → r.body.done = false)
    (trusted : ∀ why, reason ≠ .untrusted why) :
    closed asked r reason = settle asked r.fields r.body := by
  have same : closed asked r reason =
      if r.fields.kind = .untilClose then finishOk r.fields r.body.bytes
      else if r.fields.kind = .length ∧ r.body.bytes.length ≥ r.fields.announced then
        finishOk r.fields r.body.bytes
      else finishFailed r.fields (endedEarly asked) := by
    cases reason
    case untrusted why => exact absurd rfl (trusted why)
    all_goals
      unfold closed
      simp only [body, true_and, not_true, if_false]
  rw [same, settle, complete]
  cases kind : r.fields.kind with
  | untilClose => simp
  | length => simp
  | chunked => simp [plain kind]

theorem finishOk_andThen (f : Fields) (body : Text) (next : Request → Outcome) :
    (finishOk f body).andThen next = finishOk f body := by
  unfold finishOk
  split
  · rfl
  · split <;> rfl

/-- Once the head is read, the reads are fed to the body until it is complete. -/
theorem hear_body (asked : Asked) {r : Request} {reason : Reason} (body : r.headDone = true)
    (plain : r.fields.kind = .chunked → r.body.done = false)
    (trusted : ∀ why, reason ≠ .untrusted why) (reads : List Text) :
    hear asked reason r reads =
      settle asked r.fields
        (feedUntil (readBody r.fields.kind) (complete r.fields) r.body reads) := by
  induction reads generalizing r with
  | nil => exact closed_eq asked body plain trusted
  | cons bytes rest ih =>
    rw [hear, received, if_pos body, deliver_eq, feedUntil]
    by_cases finished : complete r.fields (readBody r.fields.kind r.body bytes) = true
    · rw [if_pos finished, if_pos finished, settle, if_pos (Or.inr finished), finishOk_andThen]
    · rw [if_neg finished, if_neg finished, Outcome.andThen]
      apply ih (r := { r with body := readBody r.fields.kind r.body bytes }) body
      intro chunked
      have kind : r.fields.kind = .chunked := chunked
      simpa [complete, kind] using finished

/-! ## From the head to the body -/

/-- What the read that ends the head leaves behind it in the head's array, what of that read the
array could not take, and the reads after it. -/
structure Arrival where
  inHead : Text
  spilled : Text
  later : List Text
  deriving DecidableEq

def arrive (headLength gathered : Nat) : List Text → Arrival
  | [] => ⟨[], [], []⟩
  | bytes :: rest =>
    let taken := bytes.take (headMax - gathered - 1)
    if gathered + taken.length < headLength then arrive headLength (gathered + taken.length) rest
    else ⟨taken.drop (headLength - gathered), bytes.drop (headMax - gathered - 1), rest⟩

def Arrival.pieces (a : Arrival) : List Text :=
  (if a.inHead = [] then [] else [a.inHead]) ++ (if a.spilled = [] then [] else [a.spilled]) ++
    a.later

theorem Arrival.pieces_flatten (a : Arrival) :
    a.pieces.flatten = a.inHead ++ a.spilled ++ a.later.flatten := by
  unfold Arrival.pieces
  split <;> split <;> simp_all

/-- The request as its head is read. -/
def opened (asked : Asked) (f : Fields) (head inHead : Text) : Request :=
  ⟨head ++ inHead, true, readHead asked f head, .empty (readHead asked f head).inSize⟩

/-- What is done with an arrival. -/
def hearArrival (asked : Asked) (reason : Reason) (r : Request) (a : Arrival) : Outcome :=
  (spill (if a.inHead = [] then .waiting r else deliver r a.inHead) a.spilled).andThen fun r =>
    hear asked reason r a.later

theorem take_ne_of_short {bytes : Text} {n : Nat} (short : (bytes.take n).length < n) :
    bytes.take n = bytes := by
  rw [List.length_take] at short
  exact List.take_of_length_le (by omega)

/-- **However the head is cut**, it is read once, and the body begins where it ends. -/
theorem hear_head (asked : Asked) (reason : Reason) {head rest : Text} (is : IsHead head)
    (f : Fields) (b : Body) (part : Text) {reads : List Text} (short : part.length < head.length)
    (whole : part ++ reads.flatten = head ++ rest) :
    let a := arrive head.length part.length reads
    hear asked reason ⟨part, false, f, b⟩ reads =
        hearArrival asked reason (opened asked f head a.inHead) a ∧
      a.inHead ++ a.spilled ++ a.later.flatten = rest := by
  induction reads generalizing part with
  | nil =>
    have := congrArg List.length whole
    simp at this
    omega
  | cons bytes later ih =>
    dsimp only
    have fits := is.fits
    have both : part ++ (bytes.take (headMax - part.length - 1) ++
        (bytes.drop (headMax - part.length - 1) ++ later.flatten)) = head ++ rest := by
      rw [← List.append_assoc (bytes.take _), List.take_append_drop]
      exact whole
    rw [hear, received, arrive]
    dsimp only
    simp only [Bool.false_eq_true, if_false]
    by_cases going : part.length + (bytes.take (headMax - part.length - 1)).length < head.length
    · have all : bytes.take (headMax - part.length - 1) = bytes := take_ne_of_short (by omega)
      have front : part ++ bytes <+: head := by
        refine List.prefix_of_prefix_length_le (?_ : _ <+: head ++ rest) ?_ ?_
        · exact ⟨later.flatten, by rw [← whole]; simp⟩
        · exact List.prefix_append _ _
        · rw [all] at going
          rw [List.length_append]
          omega
      obtain ⟨more, parts⟩ := front
      have some : more ≠ [] := fun none => by
        rw [all] at going
        have := congrArg List.length parts
        simp [none] at this
        omega
      rw [if_pos going, all, IsHead.split_part (parts ▸ is) some]
      dsimp only
      rw [if_neg (by omega)]
      rw [Outcome.andThen]
      have next := ih (part ++ bytes) (by rw [List.length_append, ← all]; omega)
        (by rw [← whole]; simp)
      rw [List.length_append] at next
      exact next
    · have front : head <+: part ++ bytes.take (headMax - part.length - 1) := by
        refine List.prefix_of_prefix_length_le (?_ : _ <+: head ++ rest) ?_ ?_
        · exact List.prefix_append _ _
        · exact ⟨bytes.drop (headMax - part.length - 1) ++ later.flatten, by rw [← both]; simp⟩
        · rw [List.length_append]
          omega
      obtain ⟨inHead, parts⟩ := front
      have after : (bytes.take (headMax - part.length - 1)).drop (head.length - part.length) =
          inHead := by
        have dropped := congrArg (List.drop head.length) parts
        rw [List.drop_left, List.drop_append, List.drop_eq_nil_of_le (Nat.le_of_lt short),
          List.nil_append] at dropped
        exact dropped.symm
      rw [if_neg going, ← parts, is.split inHead]
      dsimp only
      rw [after, is.readHead, List.drop_left]
      refine ⟨?_, ?_⟩
      · unfold hearArrival opened
        dsimp only
        by_cases none : inHead = []
        · rw [if_pos none, none, if_neg (by simp)]
        · have some : 0 < inHead.length := List.length_pos_iff.mpr none
          rw [if_neg none, if_pos (by rw [List.length_append]; omega)]
      · refine List.append_cancel_left (?_ : head ++ _ = head ++ _)
        rw [← both, ← List.append_assoc part, ← parts]
        simp

end ReconOS.Http
