import ReconOS.Http.Arrival

/-! One stream cut into reads in every way: when the reply that is handed on is the one its framing
says. -/
namespace ReconOS.Http
open Libc Lib

/-- The body, where the stream reaches its end. -/
def framed (f : Fields) (rest : Text) : Option Text :=
  match f.kind with
  | .untilClose => some rest
  | .length => if f.announced ≤ rest.length then some (rest.take f.announced) else none
  | .chunked => if (chunks rest).2 then some (chunkData rest) else none

/-- What is handed on, but for the words of an error. -/
structure Told where
  ok : Bool
  body : Option Text
  length : Nat
  contentType : Text
  deriving DecidableEq

/-- What the one call of `done` says, where there is one. -/
def Outcome.told : Outcome → Option Told
  | .finished d => some ⟨d.ok, d.body, d.length, d.contentType⟩
  | _ => none

/-- A body that ended, under a status that is a page's, or a failure. -/
def tell (f : Fields) (body : Option Text) : Told :=
  match body with
  | some body =>
    if fine f.status then ⟨true, some body, body.length, f.contentType⟩
    else ⟨false, none, 0, f.contentType⟩
  | none => ⟨false, none, 0, f.contentType⟩

/-- The reads come to one call of `done`, with the body the framing says. -/
def ReadRight (asked : Asked) (reason : Reason) (jar : Option Cookies.Jar) (head rest : Text)
    (reads : List Text) : Prop :=
  let f := readHead asked (.fresh jar) head
  (hear asked reason (.begun jar) reads).told = some (tell f ((framed f rest).map clip))

instance (asked : Asked) (reason : Reason) (jar : Option Cookies.Jar) (head rest : Text)
    (reads : List Text) : Decidable (ReadRight asked reason jar head rest reads) :=
  inferInstanceAs (Decidable (_ = _))

/-- Where the reads end matters in two places. -/
structure Lands (f : Fields) (rest : Text) (a : Arrival) : Prop where
  /-- A read that ends the head and overflows its array leaves no whole body in the array. -/
  alive : a.spilled = [] ∨ a.inHead = [] ∨ f.kind = .untilClose ∨ framed f a.inHead = none
  /-- A body of an announced length is one that is kept, and some read ends where it does. -/
  exact : fine f.status = true → f.kind = .length → f.announced ≤ rest.length →
    f.announced < bodyMax ∧ (f.announced + 1 = bodyMax ∨ rest = [] ∨
      ∃ taken left, a.pieces = taken ++ left ∧ taken ≠ [] ∧ taken.flatten.length = f.announced)

/-! ## The head's own facts -/

theorem readCookie_kind (asked : Asked) (f : Fields) (cut : Bool) (value : Text) :
    (readCookie asked f cut value).kind = f.kind ∧
      (readCookie asked f cut value).inSize = f.inSize := by
  unfold readCookie
  split
  · exact ⟨rfl, rfl⟩
  · split
    · exact ⟨rfl, rfl⟩
    · split <;> exact ⟨rfl, rfl⟩

theorem readHeader_inSize (asked : Asked) {f : Fields} (line : Text)
    (start : f.kind = .chunked → f.inSize = true) :
    (readHeader asked f line).kind = .chunked → (readHeader asked f line).inSize = true := by
  unfold readHeader
  dsimp only
  split
  · exact start
  split
  · exact start
  split
  · intro not
    cases not
  · intro not
    cases not
  split
  · obtain ⟨kind, inSize⟩ := readCookie_kind asked f (decide (line.length ≥ lineMax)) ‹_›
    rw [kind, inSize]
    exact start
  split
  · split
    · exact fun _ => rfl
    · exact start
  · exact start

/-- A chunked body begins at a chunk's size. -/
theorem readHead_inSize (asked : Asked) (jar : Option Cookies.Jar) (head : Text) :
    (readHead asked (.fresh jar) head).kind = .chunked →
      (readHead asked (.fresh jar) head).inSize = true := by
  unfold readHead
  split
  case h_1 =>
    intro not
    cases not
  case h_2 first lines _ =>
    have keeps : ∀ f : Fields, (f.kind = .chunked → f.inSize = true) →
        (lines.foldl (readHeader asked) f).kind = .chunked →
          (lines.foldl (readHeader asked) f).inSize = true := by
      clear * -
      induction lines with
      | nil => exact fun f start => start
      | cons line lines ih => exact fun f start => ih _ (readHeader_inSize asked line start)
    apply keeps
    intro not
    cases not

theorem arrive_inHead_length (headLength gathered : Nat) (reads : List Text) :
    (arrive headLength gathered reads).inHead.length < headMax := by
  induction reads generalizing gathered with
  | nil => exact (by decide : 0 < headMax)
  | cons bytes rest ih =>
    unfold arrive
    dsimp only
    split
    · exact ih _
    · rw [List.length_drop, List.length_take]
      have : 0 < headMax := by decide
      omega

/-! ## What is read of each framing -/

theorem finishOk_told {f : Fields} (stays : redirects f = false) (body : Text) :
    (finishOk f body).told = some (tell f (some body)) := by
  unfold finishOk tell
  rw [if_neg (by simp [stays])]
  split
  · simp [Outcome.told, *]
  · simp [Outcome.told, failed, *]

theorem settle_told (asked : Asked) {f : Fields} (stays : redirects f = false) (b : Body) :
    (settle asked f b).told =
      some (tell f (if f.kind = .untilClose ∨ complete f b = true then some b.bytes else none)) := by
  unfold settle
  split
  · exact finishOk_told stays b.bytes
  · rfl

/-- A body is complete where its framing says, as far as so much of it can tell. -/
theorem complete_iff {f : Fields} {bytes : Text} (kind : f.kind ≠ .untilClose)
    (begins : f.kind = .chunked → f.inSize = true)
    (clear : f.kind = .chunked → legible bytes = true)
    (short : bytes.length < bodyMax) :
    complete f (readBody f.kind (.empty f.inSize) bytes) = true ↔ framed f bytes ≠ none := by
  unfold complete readBody framed
  cases is : f.kind with
  | untilClose => exact absurd is kind
  | length =>
    have whole : min bytes.length (bodyMax - 1) = bytes.length := by omega
    simp [Body.empty, append_start, clip_length, whole]
  | chunked =>
    have read := (feedChunked_chunks [] bytes (clear is)).1
    rw [Body.atSize] at read
    simp [Body.empty, begins is, read]

theorem hearArrival_alive (asked : Asked) {reason : Reason}
    (trusted : ∀ why, reason ≠ .untrusted why) {r : Request} (body : r.headDone = true)
    (plain : r.fields.kind = .chunked → r.body.done = false)
    {a : Arrival} (alive : a.spilled = [] ∨ a.inHead = [] ∨
      complete r.fields (readBody r.fields.kind r.body a.inHead) = false) :
    hearArrival asked reason r a =
      settle asked r.fields
        (feedUntil (readBody r.fields.kind) (complete r.fields) r.body a.pieces) := by
  have same : hearArrival asked reason r a = hear asked reason r a.pieces := by
    unfold hearArrival spill Arrival.pieces
    by_cases none : a.inHead = []
    · by_cases fits : a.spilled = []
      · simp [none, fits]
      · simp [none, fits, hear, received, body]
    · by_cases fits : a.spilled = []
      · simp [none, fits, hear, received, body]
      · have going : complete r.fields (readBody r.fields.kind r.body a.inHead) = false :=
          (alive.resolve_left fits).resolve_left none
        simp [none, fits, hear, received, body, deliver_eq r a.inHead, going]
  rw [same]
  exact hear_body asked body plain trusted a.pieces

theorem hearArrival_astray (asked : Asked) (reason : Reason) {r : Request}
    (stays : redirects r.fields = false) {a : Arrival} (finished : a.spilled ≠ [])
    (some : a.inHead ≠ [])
    (done : complete r.fields (readBody r.fields.kind r.body a.inHead) = true) :
    hearArrival asked reason r a = .astray := by
  have told := finishOk_told stays (readBody r.fields.kind r.body a.inHead).bytes
  unfold hearArrival
  rw [if_neg some, deliver_eq, if_pos done]
  unfold spill
  rw [if_neg finished]
  cases result : finishOk r.fields (readBody r.fields.kind r.body a.inHead).bytes with
  | finished => rfl
  | _ => rw [result] at told; cases told

/-! ## An announced length -/

theorem tell_inj {f : Fields} (ok : fine f.status = true) {x y : Option Text}
    (same : tell f x = tell f y) : x = y := by
  cases x <;> cases y <;> simp_all [tell]

theorem tell_not_fine {f : Fields} (not : ¬fine f.status = true) (x y : Option Text) :
    tell f x = tell f y := by
  cases x <;> cases y <;> simp [tell, not]

/-- The pieces that are taken of a body of an announced length. -/
theorem length_taken {f : Fields} (kind : f.kind = .length) (pieces : List Text) :
    ∃ taken left, pieces = taken ++ left ∧
      (feedUntil (readBody f.kind) (complete f) (.empty f.inSize) pieces).bytes =
        clip taken.flatten ∧
      (pieces ≠ [] → taken ≠ []) ∧
      (min taken.flatten.length (bodyMax - 1) < f.announced → left = []) ∧
      ∀ front back, taken = front ++ back → front ≠ [] → back ≠ [] →
        min front.flatten.length (bodyMax - 1) < f.announced := by
  obtain ⟨taken, left, parts, result, takes⟩ :=
    (readBody_seamless f.kind).feedUntil_takes (complete f) (.empty f.inSize) pieces
  have reads : ∀ bytes, (readBody .length (.empty f.inSize) bytes).bytes = clip bytes :=
    append_start
  have finished : ∀ bytes, complete f (readBody f.kind (.empty f.inSize) bytes) = false ↔
      min bytes.length (bodyMax - 1) < f.announced := fun bytes => by
    rw [complete, kind]
    dsimp only
    rw [reads, clip_length, decide_eq_false_iff_not]
    exact Nat.not_le
  refine ⟨taken, left, parts, by rw [result, kind, reads], ?_, ?_, ?_⟩
  · exact fun some => takes.some (parts ▸ some)
  · exact fun short => takes.all ((finished _).mpr short)
  · exact fun front back is some more => (finished _).mp (takes.first front back is some more)

/-- What is taken is the announced body where it ends with it, or where no more of it is kept. -/
theorem clip_taken_iff {taken left : Text} {n : Nat} (there : n ≤ (taken ++ left).length) :
    (n ≤ min taken.length (bodyMax - 1) ∧ clip taken = clip ((taken ++ left).take n)) ↔
      n < bodyMax ∧ n ≤ taken.length ∧ (n + 1 = bodyMax ∨ taken.length = n) := by
  have some : 0 < bodyMax := by decide
  constructor
  · rintro ⟨finished, same⟩
    have lengths := congrArg List.length same
    rw [clip_length, clip_length, List.length_take] at lengths
    omega
  · rintro ⟨kept, within, ends⟩
    refine ⟨by omega, ?_⟩
    rw [List.take_append_of_le_length within, clip, clip, List.take_take,
      Nat.min_eq_right (by omega)]
    cases ends with
    | inl full => rw [← full, Nat.add_sub_cancel]
    | inr all => rw [List.take_of_length_le (by omega), List.take_of_length_le (by omega)]

/-- An announced body is read right exactly where some read ends with it. -/
theorem length_right_iff (asked : Asked) {f : Fields} (kind : f.kind = .length)
    (stays : redirects f = false) {rest : Text} {pieces : List Text}
    (whole : pieces.flatten = rest) :
    (settle asked f (feedUntil (readBody f.kind) (complete f) (.empty f.inSize) pieces)).told =
        some (tell f ((framed f rest).map clip)) ↔
      (fine f.status = true → f.announced ≤ rest.length →
        f.announced < bodyMax ∧ (f.announced + 1 = bodyMax ∨ rest = [] ∨
          ∃ taken left, pieces = taken ++ left ∧ taken ≠ [] ∧
            taken.flatten.length = f.announced)) := by
  obtain ⟨taken, left, parts, bytes, filled, all, first⟩ := length_taken kind pieces
  have front : rest = taken.flatten ++ left.flatten := by
    rw [← whole, parts, List.flatten_append]
  have finished : (f.kind = .untilClose ∨
      complete f (feedUntil (readBody f.kind) (complete f) (.empty f.inSize) pieces) = true) ↔
      f.announced ≤ min taken.flatten.length (bodyMax - 1) := by
    rw [complete, bytes, clip_length]
    simp [kind]
  rw [settle_told asked stays, Option.some_inj, bytes]
  simp only [finished]
  by_cases ok : fine f.status = true
  case neg => exact ⟨fun _ ok' => absurd ok' ok, fun _ => tell_not_fine ok _ _⟩
  by_cases there : f.announced ≤ rest.length
  case neg =>
    have short : ¬f.announced ≤ min taken.flatten.length (bodyMax - 1) := by
      rw [front, List.length_append] at there
      omega
    rw [if_neg short, framed, kind]
    simp [there]
  have framedHere : (framed f rest).map clip = some (clip (rest.take f.announced)) := by
    rw [framed, kind]
    simp [there]
  have reaches : f.announced < bodyMax → f.announced ≤ taken.flatten.length := by
    intro kept
    by_contra short
    have none := all (by omega)
    rw [front, none, List.flatten_nil, List.append_nil] at there
    omega
  have taken_iff := clip_taken_iff (front ▸ there)
  rw [← front] at taken_iff
  have both : (tell f (if f.announced ≤ min taken.flatten.length (bodyMax - 1) then
        some (clip taken.flatten) else none) = tell f ((framed f rest).map clip)) ↔
      (f.announced ≤ min taken.flatten.length (bodyMax - 1) ∧
        clip taken.flatten = clip (rest.take f.announced)) := by
    rw [framedHere]
    constructor
    · intro same
      have eq := tell_inj ok same
      split at eq
      case isTrue finished => exact ⟨finished, Option.some.inj eq⟩
      case isFalse => cases eq
    · rintro ⟨finished, same⟩
      rw [if_pos finished, same]
  rw [both, taken_iff]
  constructor
  · rintro ⟨kept, -, ends⟩ - -
    refine ⟨kept, ends.imp_right fun all' => ?_⟩
    by_cases some : pieces = []
    · exact .inl (by rw [← whole, some, List.flatten_nil])
    · exact .inr ⟨taken, left, parts, filled some, all'⟩
  · intro lands
    obtain ⟨kept, ends⟩ := lands ok there
    refine ⟨kept, reaches kept, ?_⟩
    rcases ends with full | none | ⟨taken', left', parts', some, length⟩
    · exact .inl full
    · have nothing := List.append_eq_nil_iff.mp (front ▸ none)
      rw [none, List.length_nil, Nat.le_zero] at there
      exact .inr (by rw [nothing.1, there, List.length_nil])
    · right
      rw [parts'] at parts
      rcases List.append_eq_append_iff.mp parts with ⟨more, is, -⟩ | ⟨more, is, -⟩
      · by_cases stop : more = []
        · rw [is, stop, List.append_nil, length]
        · have := first taken' more is some stop
          omega
      · have := reaches kept
        rw [is, List.flatten_append, List.length_append] at length
        omega

/-- A framing in which more reads make no difference is read right however they are cut. -/
theorem stable_right (asked : Asked) {f : Fields} (kind : f.kind ≠ .length)
    (begins : f.kind = .chunked → f.inSize = true) (stays : redirects f = false) {rest : Text}
    (clear : f.kind = .chunked → legible rest = true) {pieces : List Text}
    (whole : pieces.flatten = rest) :
    (settle asked f (feedUntil (readBody f.kind) (complete f) (.empty f.inSize) pieces)).told =
        some (tell f ((framed f rest).map clip)) := by
  have still : ∀ b bytes, complete f b = true → readBody f.kind b bytes = b := by
    intro b bytes finished
    unfold complete at finished
    unfold readBody
    cases is : f.kind with
    | untilClose => simp [is] at finished
    | length => exact absurd is kind
    | chunked => exact feedChunked_done (by simpa [is] using finished) bytes
  rw [(readBody_seamless f.kind).feedUntil_eq still, whole, settle_told asked stays]
  congr 2
  cases is : f.kind with
  | untilClose => simp [framed, is, readBody, Body.empty, append_start]
  | length => exact absurd is kind
  | chunked =>
    obtain ⟨ended, reads⟩ := feedChunked_chunks [] rest (clear is)
    rw [Body.atSize] at ended reads
    rw [complete, framed, is, Body.empty, begins is]
    simp only [reduceCtorEq, false_or, readBody, ended]
    by_cases all : (chunks rest).2 = true
    · rw [if_pos all, if_pos all, reads all, append_start, Option.map_some]
    · rw [if_neg all, if_neg all, Option.map_none]

/-- **A reply is read right, however the network cuts it, exactly where its reads land**: no whole
body is in the array of the head when that overflows, and an announced body is one that is kept and
ends where some read does. -/
theorem read_right_iff (asked : Asked) (jar : Option Cookies.Jar) {reason : Reason}
    (trusted : ∀ why, reason ≠ .untrusted why) {head rest : Text} (is : IsHead head)
    (reads : List Text) (whole : reads.flatten = head ++ rest)
    (stays : redirects (readHead asked (.fresh jar) head) = false)
    (clear : (readHead asked (.fresh jar) head).kind = .chunked → legible rest = true) :
    ReadRight asked reason jar head rest reads ↔
      Lands (readHead asked (.fresh jar) head) rest (arrive head.length 0 reads) := by
  obtain ⟨heard, parts⟩ := hear_head asked reason is (.fresh jar) (.empty false) []
    (Nat.lt_of_lt_of_le (by decide) (splitHead_bounds is.ends).1) whole
  have begins := readHead_inSize asked jar head
  have short := arrive_inHead_length head.length 0 reads
  rw [List.length_nil] at heard parts
  unfold ReadRight Request.begun
  dsimp only
  rw [heard, opened]
  generalize readHead asked (.fresh jar) head = f at *
  generalize arrive head.length 0 reads = a at *
  have flat : a.pieces.flatten = rest := by rw [a.pieces_flatten, parts]
  have front : f.kind = .chunked → legible a.inHead = true := by
    intro chunked
    apply legible_front (a.spilled ++ a.later.flatten)
    rw [← List.append_assoc, parts]
    exact clear chunked
  have finished : f.kind ≠ .untilClose →
      (complete f (readBody f.kind (.empty f.inSize) a.inHead) = true ↔ framed f a.inHead ≠ none) :=
    fun kind => complete_iff kind begins front (Nat.lt_trans short (by decide))
  by_cases alive : a.spilled = [] ∨ a.inHead = [] ∨
      complete f (readBody f.kind (.empty f.inSize) a.inHead) = false
  · have lives : a.spilled = [] ∨ a.inHead = [] ∨ f.kind = .untilClose ∨
        framed f a.inHead = none := by
      refine alive.imp_right (Or.imp_right fun going => ?_)
      by_cases kind : f.kind = .untilClose
      · exact .inl kind
      · rw [← Bool.not_eq_true, finished kind, not_not] at going
        exact .inr going
    rw [hearArrival_alive asked trusted rfl (fun _ => rfl) alive]
    dsimp only
    by_cases kind : f.kind = .length
    · rw [length_right_iff asked kind stays flat]
      exact ⟨fun right => ⟨lives, fun ok _ => right ok⟩, fun lands ok => lands.exact ok kind⟩
    · exact ⟨fun _ => ⟨lives, fun _ not => absurd not kind⟩,
        fun _ => stable_right asked kind begins stays clear flat⟩
  · rw [not_or, not_or, Bool.not_eq_false] at alive
    obtain ⟨spilled, some, done⟩ := alive
    rw [hearArrival_astray asked reason stays spilled some done]
    constructor
    · intro not
      cases not
    · intro lands
      by_cases kind : f.kind = .untilClose
      · simp [complete, kind] at done
      · have whole := (finished kind).mp done
        rcases lands.alive with none | none | not | not
        · exact absurd none spilled
        · exact absurd none some
        · exact absurd not kind
        · exact absurd not whole

def page : Asked := ⟨['h'], ['/'], false, 0⟩

/-- A head that announces one byte. -/
def oneByte : Text := "HTTP/1.1 200 OK\r\nContent-Length: 1\r\n\r\n".toList

theorem oneByte_isHead : IsHead oneByte := by
  unfold oneByte
  rw [String.toList_ofList]
  constructor <;> decide +kernel

theorem oneByte_fields : (readHead page (.fresh none) oneByte).kind = .length ∧
    (readHead page (.fresh none) oneByte).announced = 1 ∧
    redirects (readHead page (.fresh none) oneByte) = false ∧
    arrive oneByte.length 0 [oneByte ++ ['a'], ['b']] = ⟨['a'], [], [['b']]⟩ := by
  unfold oneByte
  rw [String.toList_ofList]
  decide +kernel

theorem oneByte_read_alone :
    ReadRight page .ok none oneByte ['a', 'b'] [oneByte ++ ['a'], ['b']] := by
  obtain ⟨kind, announced, stays, arrives⟩ := oneByte_fields
  apply (read_right_iff page none (by simp) oneByte_isHead _ (by simp) stays (by simp [kind])).mpr
  rw [arrives]
  refine ⟨.inl rfl, fun _ _ _ => ?_⟩
  rw [announced]
  exact ⟨by decide, .inr (.inr ⟨[['a']], [['b']], rfl, by simp, rfl⟩)⟩

/-- A byte that shares the read with the last wanted one is handed on with it, and in a read of its
own it is not. -/
theorem oneByte_read_together :
    ¬ReadRight page .ok none oneByte ['a', 'b'] [oneByte ++ ['a', 'b']] ∧
      (hear page .ok (.begun none) [oneByte ++ ['a', 'b']]).told =
        some ⟨true, some ['a', 'b'], 2, []⟩ ∧
      (hear page .ok (.begun none) [oneByte ++ ['a'], ['b']]).told =
        some ⟨true, some ['a'], 1, []⟩ := by
  unfold oneByte
  rw [String.toList_ofList]
  decide +kernel

end ReconOS.Http
