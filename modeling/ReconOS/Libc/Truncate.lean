import ReconOS.Libc.Format

/-! The text each conversion writes, whatever room there is for it. -/
namespace ReconOS.Libc

/-- Spaces, sign, prefix, zeros and digits. -/
def numberText (f : Spec) (rev sign lead : Text) : Text :=
  let short := f.precision.getD 0 - rev.length
  let body := sign.length + lead.length + short + rev.length
  let filled : Bool := f.zero && !f.left && f.precision.isNone && body < f.width
  let zeros := if filled then short + (f.width - body) else short
  let pad := if filled then 0 else f.width - body
  let number := sign ++ lead ++ List.replicate zeros '0' ++ rev.reverse
  if f.left then number ++ List.replicate pad ' ' else List.replicate pad ' ' ++ number

def signedText (f : Spec) (v : Int) : Text :=
  let sign := if v < 0 then ['-'] else if f.plus then ['+'] else if f.space then [' '] else []
  numberText f (digitsOf v.natAbs 10 false) sign []

def unsignedText (f : Spec) (c : Char) (v : Nat) : Text :=
  let upper : Bool := c = 'X'
  let base := if c = 'o' then 8 else if c = 'x' ∨ c = 'X' then 16 else 10
  let lead := if base = 16 ∧ f.alt ∧ v ≠ 0 then (if upper then ['0', 'X'] else ['0', 'x']) else []
  numberText f (digitsOf v base upper) [] lead

def fieldText (f : Spec) (text : Text) : Text :=
  let pad := List.replicate (f.width - text.length) ' '
  if f.left then text ++ pad else pad ++ text

theorem emitNumber_eq (s : Sink) (f : Spec) (rev sign lead : Text) :
    emitNumber s f rev sign lead = s.putBytes (numberText f rev sign lead) := by
  unfold emitNumber numberText
  dsimp only
  generalize f.precision.getD 0 - rev.length = short
  generalize sign.length + lead.length + short + rev.length = body
  generalize (f.zero && !f.left && f.precision.isNone && decide (body < f.width)) = filled
  have pad : f.width - (if filled = true then f.width else body) =
      if filled = true then 0 else f.width - body := by
    split
    · exact Nat.sub_self f.width
    · rfl
  rw [pad]
  generalize (if filled = true then 0 else f.width - body) = pad
  generalize (if filled = true then short + (f.width - body) else short) = zeros
  cases f.left <;> simp [Sink.putRepeat, putBytes_append]

theorem emitSigned_eq (s : Sink) (f : Spec) (v : Int) :
    emitSigned s f v = s.putBytes (signedText f v) := emitNumber_eq s f _ _ _

theorem emitUnsigned_eq (s : Sink) (f : Spec) (c : Char) (v : Nat) :
    emitUnsigned s f c v = s.putBytes (unsignedText f c v) := emitNumber_eq s f _ _ _

theorem emitText_eq (s : Sink) (f : Spec) (text : Text) :
    emitText s f text = s.putBytes (fieldText f text) := by
  unfold emitText fieldText
  cases f.left <;> simp [Sink.putRepeat, putBytes_append]

/-! What `vsnprintf` stores and returns, for every room. -/

variable {Double : Type}

/-! ## One directive -/

/-- What stands between `%` and the conversion, read. -/
def directive (at' : Text) (args : List (Arg Double)) :
    Option (Spec × Length × Text × List (Arg Double)) := do
  let (f, rest) := readFlags {} at'
  let (f, rest, args) ← readWidth f rest args
  let (f, rest, args) ← readPrecision f rest args
  let (len, rest) := readLength rest
  return (f, len, rest, args)

def afterWidth : Text → Text
  | '*' :: at' => at'
  | at' => (readNat 0 at').2

def afterPrecision : Text → Text
  | '.' :: '*' :: at' => at'
  | '.' :: at' => (readNat 0 at').2
  | at' => at'

/-- From behind `%` to the conversion, whatever the arguments. -/
def afterDirective (at' : Text) : Text :=
  (readLength (afterPrecision (afterWidth (readFlags {} at').2))).2

/-- The text of a conversion that is not floating, the rest of the format and of the arguments. A
conversion the format has no room for is copied as it is written. -/
def convertText (f : Spec) (len : Length) (start at' : Text) (args : List (Arg Double)) :
    Option (Text × Text × List (Arg Double)) :=
  match at', args with
  | 'd' :: at', .int v :: args | 'i' :: at', .int v :: args =>
    some (signedText f (len.signed v), at', args)
  | 'u' :: at', .int v :: args => some (unsignedText f 'u' (len.unsigned v), at', args)
  | 'o' :: at', .int v :: args => some (unsignedText f 'o' (len.unsigned v), at', args)
  | 'x' :: at', .int v :: args => some (unsignedText f 'x' (len.unsigned v), at', args)
  | 'X' :: at', .int v :: args => some (unsignedText f 'X' (len.unsigned v), at', args)
  | 'c' :: at', .int v :: args =>
    some (fieldText f [Char.ofNat (v.setWidth 8).toNat], at', args)
  | 's' :: at', .text t :: args =>
    let text := t.getD "(null)".toList
    let text := match f.precision with
      | some n => text.take n
      | none => text
    some (fieldText f text, at', args)
  | 'p' :: at', .int v :: args =>
    some (numberText { f with precision := none } (digitsOf v.toNat 16 false) [] ['0', 'x'],
      at', args)
  | c :: at', args =>
    if c ∈ "diuoxXcspfF".toList then none
    else some (start.take (start.length - at'.length), at', args)
  | [], args => some (start, [], args)

/-! ## The whole format -/

/-- The text of a format: `none` where an argument is missing or of another type, or a conversion is
floating. -/
def expandLoop : Nat → Text → List (Arg Double) → Option Text
  | 0, _, _ => some []
  | _, [], _ => some []
  | turns + 1, '%' :: '%' :: at', args => (expandLoop turns at' args).map ('%' :: ·)
  | turns + 1, '%' :: at', args => do
    let (f, len, rest, args) ← directive at' args
    let (text, rest, args) ← convertText f len ('%' :: at') rest args
    (expandLoop turns rest args).map (text ++ ·)
  | turns + 1, c :: at', args => (expandLoop turns at' args).map (c :: ·)

def expand (format : Text) (args : List (Arg Double)) : Option Text :=
  expandLoop format.length format args

/-- The format ends inside a conversion. -/
def cutLoop : Nat → Text → Bool
  | 0, _ => false
  | _, [] => false
  | turns + 1, '%' :: '%' :: at' => cutLoop turns at'
  | turns + 1, '%' :: at' =>
    match afterDirective at' with
    | [] => true
    | _ :: rest => cutLoop turns rest
  | turns + 1, _ :: at' => cutLoop turns at'

def cutOff (format : Text) : Bool := cutLoop format.length format

/-- Whatever the room, what was wanted is the text's length, and its front is stored. -/
def Steady (emitDouble : Sink → Spec → Double → Sink) (format : Text) (args : List (Arg Double))
    (text : Text) : Prop :=
  ∀ room, vsnprintf emitDouble room format args = some ⟨text.take (room - 1), text.length⟩

/-! ## Reading a directive -/

theorem readWidth_rest {f f' : Spec} {at' rest : Text} {args args' : List (Arg Double)}
    (read : readWidth f at' args = some (f', rest, args')) : rest = afterWidth at' := by
  unfold readWidth at read
  split at read
  · simp only [Option.bind_eq_bind, Option.bind_eq_some_iff] at read
    obtain ⟨⟨width, left⟩, -, same⟩ := read
    cases same
    rfl
  · cases read
    exact (afterWidth.eq_2 at' ‹_›).symm

theorem readPrecision_rest {f f' : Spec} {at' rest : Text} {args args' : List (Arg Double)}
    (read : readPrecision f at' args = some (f', rest, args')) : rest = afterPrecision at' := by
  unfold readPrecision at read
  split at read
  · simp only [Option.bind_eq_bind, Option.bind_eq_some_iff] at read
    obtain ⟨⟨precision, left⟩, -, same⟩ := read
    cases same
    rfl
  · cases read
    exact (afterPrecision.eq_2 _ ‹_›).symm
  · cases read
    exact (afterPrecision.eq_3 _ ‹_› ‹_›).symm

theorem directive_rest {f : Spec} {len : Length} {at' rest : Text} {args args' : List (Arg Double)}
    (read : directive at' args = some (f, len, rest, args')) : rest = afterDirective at' := by
  unfold directive at read
  simp only [Option.bind_eq_bind, Option.bind_eq_some_iff] at read
  obtain ⟨⟨f₁, rest₁, args₁⟩, width, ⟨f₂, rest₂, args₂⟩, precision, same⟩ := read
  have first := readWidth_rest width
  have second := readPrecision_rest precision
  cases same
  rw [second, first]
  rfl

theorem convertText_rest {f : Spec} {len : Length} {start at' text rest : Text}
    {args args' : List (Arg Double)}
    (written : convertText f len start at' args = some (text, rest, args')) : rest = at'.tail := by
  unfold convertText at written
  split at written
  all_goals first
    | (cases written; rfl)
    | (split at written
       · cases written
       · cases written; rfl)

/-! ## What a conversion writes -/

theorem convert_unknown (emitDouble : Sink → Spec → Double → Sink) (s : Sink) (f : Spec)
    (len : Length) (start at' : Text) (args : List (Arg Double)) {c : Char}
    (unknown : c ∉ "diuoxXcspfF".toList) :
    convert emitDouble s f len start (c :: at') args =
      some (s.putBytes (start.take (start.length - at'.length)), at', args) := by
  unfold convert
  split
  case h_12 =>
    cases ‹c :: at' = _ :: _›
    rw [if_neg unknown]
  case h_13 none => cases none
  all_goals
    cases ‹c :: at' = _ :: _›
    simp at unknown

/-- A conversion puts its text; one that is cut off is followed by the format's terminator. -/
theorem convert_text (emitDouble : Sink → Spec → Double → Sink) (s : Sink) {f : Spec} {len : Length}
    {start at' text rest : Text} {args args' : List (Arg Double)}
    (written : convertText f len start at' args = some (text, rest, args')) :
    convert emitDouble s f len start at' args =
      some (s.putBytes (text ++ if at' = [] then ['\x00'] else []), rest, args') := by
  unfold convertText at written
  split at written
  case h_10 =>
    split at written
    · cases written
    · cases written
      rw [convert_unknown emitDouble s f len start _ _ ‹_›]
      simp
  case h_11 =>
    cases written
    simp [convert, putBytes_append]
    rfl
  case h_8 =>
    cases written
    rw [if_neg (List.cons_ne_nil _ _), List.append_nil]
    exact congrArg (fun s => some (s, _, _)) (emitText_eq s f _)
  all_goals
    cases written
    simp [convert, emitSigned_eq, emitUnsigned_eq, emitText_eq, emitNumber_eq]

/-! ## Runs -/

/-- A turn that meets a directive. -/
theorem formatLoop_directive (emitDouble : Sink → Spec → Double → Sink) (turns : Nat) (s : Sink)
    {at' : Text} (args : List (Arg Double)) (single : ∀ rest, at' ≠ '%' :: rest) :
    formatLoop emitDouble (turns + 1) s ('%' :: at') args =
      (directive at' args).bind fun (f, len, rest, args) =>
        (convert emitDouble s f len ('%' :: at') rest args).bind fun (s, rest, args) =>
          formatLoop emitDouble turns s rest args := by
  rw [formatLoop.eq_4 emitDouble s args turns at' single]
  simp only [directive, Option.bind_eq_bind, Option.bind_assoc]
  rfl

theorem formatLoop_text (emitDouble : Sink → Spec → Double → Sink) (turns : Nat) {s : Sink}
    {at' text : Text} {args : List (Arg Double)} (written : expandLoop turns at' args = some text) :
    formatLoop emitDouble turns s at' args =
      some (s.putBytes (text ++ if cutLoop turns at' then ['\x00'] else [])) := by
  fun_induction expandLoop turns at' args generalizing s text with
  | case1 =>
    cases written
    simp [formatLoop, cutLoop]
  | case2 turns =>
    cases written
    cases turns <;> simp [formatLoop, cutLoop]
  | case3 turns at' args ih =>
    obtain ⟨rest, after, same⟩ := Option.map_eq_some_iff.mp written
    cases same
    rw [formatLoop, cutLoop, ih after]
    rfl
  | case4 turns at' args single ih =>
    simp only [Option.bind_eq_bind, Option.bind_eq_some_iff] at written
    obtain ⟨⟨f, len, rest, args₁⟩, read, ⟨first, rest₁, args₂⟩, converted, written⟩ := written
    obtain ⟨more, after, same⟩ := Option.map_eq_some_iff.mp written
    cases same
    have conv := convert_text emitDouble s converted
    have tail := convertText_rest converted
    have stops := directive_rest read
    rw [formatLoop_directive emitDouble turns s args single, read, Option.bind_some]
    dsimp only
    rw [conv, Option.bind_some]
    dsimp only
    rw [ih rest₁ args₂ after, cutLoop.eq_4 turns at' single, ← stops]
    cases rest with
    | nil =>
      rw [tail] at after ⊢
      have none : more = [] := by
        cases turns <;> simpa [expandLoop, eq_comm] using after
      have uncut : cutLoop turns [] = false := by cases turns <;> rfl
      simp [none, uncut]
    | cons c rest =>
      rw [tail, ← putBytes_append]
      simp
      rfl
  | case5 turns c at' args double plain ih =>
    obtain ⟨rest, after, same⟩ := Option.map_eq_some_iff.mp written
    cases same
    rw [formatLoop.eq_5 emitDouble s args turns c at' double plain,
      cutLoop.eq_5 turns c at' double plain, ih after]
    rfl

/-! ## The room -/

/-- As much of `text` is stored as there is room for. -/
structure Filled (s : Sink) (text : Text) : Prop where
  out : s.out = text.take (s.room - 1)
  wanted : s.wanted = text.length

theorem Filled.put {s : Sink} {text : Text} (h : Filled s text) (c : Char) :
    Filled (s.put c) (text ++ [c]) ∧ (s.put c).room = s.room := by
  refine ⟨⟨?_, ?_⟩, rfl⟩
  · change (if s.out.length + 1 < s.room then s.out ++ [c] else s.out) = (text ++ [c]).take (s.room - 1)
    rw [h.out, List.length_take]
    split
    case isTrue room =>
      have whole : text.length ≤ s.room - 1 := by omega
      rw [List.take_of_length_le whole, List.take_of_length_le]
      rw [List.length_append, List.length_singleton]
      omega
    case isFalse full =>
      rw [List.take_append_of_le_length (by omega)]
  · change s.wanted + 1 = _
    rw [h.wanted, List.length_append, List.length_singleton]

theorem Filled.putBytes {s : Sink} {text : Text} (h : Filled s text) (cs : Text) :
    Filled (s.putBytes cs) (text ++ cs) ∧ (s.putBytes cs).room = s.room := by
  induction cs generalizing s text with
  | nil => exact ⟨by simpa using h, rfl⟩
  | cons c cs ih =>
    obtain ⟨one, room⟩ := h.put c
    obtain ⟨rest, room'⟩ := ih one
    rw [List.append_assoc] at rest
    exact ⟨rest, room'.trans room⟩

theorem vsnprintf_text (emitDouble : Sink → Spec → Double → Sink) (room : Nat) {format text : Text}
    {args : List (Arg Double)} (written : expand format args = some text) :
    let whole := text ++ if cutOff format then ['\x00'] else []
    vsnprintf emitDouble room format args =
      some ⟨whole.take (room - 1), (whole.length : Int).bmod (2 ^ 32)⟩ := by
  have ran : formatLoop emitDouble format.length ⟨room, [], 0⟩ format args =
      some ((⟨room, [], 0⟩ : Sink).putBytes (text ++ if cutOff format then ['\x00'] else [])) :=
    formatLoop_text emitDouble format.length written
  generalize text ++ (if cutOff format then ['\x00'] else []) = whole at ran ⊢
  have start : Filled ⟨room, [], 0⟩ [] := ⟨by simp, rfl⟩
  obtain ⟨⟨out, wanted⟩, size⟩ := start.putBytes whole
  rw [size] at out
  unfold vsnprintf
  rw [ran, Option.map_some, out, wanted]
  rfl

theorem bmod_of_small {n : Nat} (small : n < 2 ^ 31) : (n : Int).bmod (2 ^ 32) = n := by
  rw [Int.bmod_def]
  omega

theorem bmod_of_large {n : Nat} (large : 2 ^ 31 ≤ n) : (n : Int).bmod (2 ^ 32) ≠ n := by
  rw [Int.bmod_def]
  omega

/-- **The room changes neither the answer nor the text exactly when the format does not end inside a
conversion and the text's length is an `int`.** -/
theorem truncation_steady_iff (emitDouble : Sink → Spec → Double → Sink) (format text : Text)
    (args : List (Arg Double)) (written : expand format args = some text) :
    Steady emitDouble format args text ↔ cutOff format = false ∧ text.length < 2 ^ 31 := by
  have printed := fun room => vsnprintf_text emitDouble room written
  dsimp only at printed
  unfold Steady
  constructor
  · intro steady
    have zero := (printed 0).symm.trans (steady 0)
    have returned := congrArg Printed.returned (Option.some.inj zero)
    dsimp only at returned
    cases cut : cutOff format with
    | true =>
      rw [cut] at returned
      simp only [if_true, List.length_append, List.length_singleton] at returned
      rw [Int.bmod_def] at returned
      omega
    | false =>
      rw [cut] at returned
      simp only [Bool.false_eq_true, if_false, List.append_nil] at returned
      exact ⟨rfl, Nat.lt_of_not_le fun large => bmod_of_large large returned⟩
  · rintro ⟨whole, small⟩ room
    rw [printed room, whole]
    simp only [Bool.false_eq_true, if_false, List.append_nil]
    rw [bmod_of_small small]

def noDouble : Sink → Spec → Empty → Sink := fun s _ _ => s

theorem whole_conversion_steady :
    vsnprintf noDouble 4 "a%5d".toList [.int 42] = some ⟨"a  ".toList, 6⟩ :=
  (truncation_steady_iff noDouble "a%5d".toList "a   42".toList [.int 42] (by decide +kernel)).mpr
    (by decide +kernel) 4

/-- A format that ends in a conversion prints its own terminator. -/
theorem cut_conversion_prints_nul :
    expand "50%".toList ([] : List (Arg Empty)) = some "50%".toList ∧
      vsnprintf noDouble 80 "50%".toList [] = some ⟨"50%\x00".toList, 4⟩ ∧
      ¬Steady noDouble "50%".toList [] "50%".toList := by
  have printed : vsnprintf noDouble 80 "50%".toList [] = some ⟨"50%\x00".toList, 4⟩ := by
    decide +kernel
  refine ⟨by decide +kernel, printed, fun steady => ?_⟩
  have other := steady 80
  rw [printed] at other
  revert other
  decide +kernel

end ReconOS.Libc
