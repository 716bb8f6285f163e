import ReconOS.Libc.Number
import Mathlib.Data.List.TakeWhile
import Mathlib.Data.Bool.AllAny

/-! What `strtol` and its relatives take of any text: the longest part at its front that spells a
number. -/
namespace ReconOS.Libc

/-! ## The standard -/

/-- `lead` may stand in front of the digits `cs`, which are then digits of base `b`. -/
inductive Based (base : Nat) : Text → Text → Nat → Prop where
  | given (cs : Text) (some : base ≠ 0) : Based base [] cs base
  | hex (cs : Text) {x : Char} (here : base = 0 ∨ base = 16) (letter : x = 'x' ∨ x = 'X') :
      Based base ['0', x] cs 16
  | binary (cs : Text) {x : Char} (here : base = 0 ∨ base = 2) (letter : x = 'b' ∨ x = 'B') :
      Based base ['0', x] cs 2
  | octal (cs : Text) (none : base = 0) : Based base [] ('0' :: cs) 8
  | decimal (c : Char) (cs : Text) (none : base = 0) (other : c ≠ '0') : Based base [] (c :: cs) 10

/-- `text` is space, a sign or none, a prefix or none, the digits `cs` of base `b`, and `rest`. -/
structure Subject (base : Nat) (text sign cs rest : Text) (b : Nat) : Prop where
  split : ∃ ws lead, (∀ c ∈ ws, isSpace c = true) ∧ Based base lead cs b ∧
    text = ws ++ (sign ++ (lead ++ (cs ++ rest)))
  sign : sign ∈ [[], ['+'], ['-']]
  some : cs ≠ []
  digits : ∀ c ∈ cs, (digitIn b c).isSome

/-- No other way to read the front of the text leaves less of it. -/
structure Longest (base : Nat) (text sign cs rest : Text) (b : Nat) : Prop where
  subject : Subject base text sign cs rest b
  least : ∀ sign' cs' rest' b', Subject base text sign' cs' rest' b' → rest.length ≤ rest'.length

def valueOf (b : Nat) (cs : Text) : Nat := Numeral.value b 0 (cs.filterMap (digitIn b))

/-- A value in the range of a `long`, or the end of the range it is past. -/
def clampLong (v : Int) : Int := max (-longMax - 1) (min longMax v)

def signedValue (sign : Text) (n : Nat) : Int := if sign = ['-'] then -n else n

/-- A value in the range of an `unsigned long`, negated modulo `2^64` behind a minus. -/
def unsignedValue (sign : Text) (n : Nat) : Nat :=
  if ulongMax < n then ulongMax else if sign = ['-'] then (2 ^ 64 - n) % 2 ^ 64 else n

/-- A call as its caller sees it: the value, `*end` and `errno`, which nothing here writes. -/
def seen {α : Type} (errno : Nat) (r : α × Text) : α × Text × Nat := (r.1, r.2, errno)

def erange : Nat := 34

/-! ## Reading -/

variable {base b : Nat} {text sign lead cs rest : Text}

/-- A prefix and a digit of its base. -/
theorem prefixed_iff {at' : Text} {lower upper : Char} {b : Nat} :
    prefixed at' lower upper b = true ↔ ∃ x d tail, at' = '0' :: x :: d :: tail ∧
      (x = lower ∨ x = upper) ∧ (digitIn b d).isSome := by
  match at' with
  | [] => simp [prefixed]
  | [_] => simp [prefixed]
  | [_, _] => simp [prefixed]
  | a :: x :: d :: tail =>
    simp only [prefixed, List.getElem?_cons_zero, List.getElem?_cons_succ, Option.some.injEq,
      Option.bind_some, Bool.and_eq_true, Bool.or_eq_true, decide_eq_true_eq]
    constructor
    · rintro ⟨⟨rfl, letter⟩, digit⟩
      exact ⟨x, d, tail, rfl, letter, digit⟩
    · rintro ⟨x', d', tail', same, letter, digit⟩
      cases same
      exact ⟨⟨rfl, letter⟩, digit⟩

theorem digitIn_value {c : Char} (digit : (digitIn b c).isSome) : (digitValue c).isSome := by
  unfold digitIn at digit
  cases is : digitValue c with
  | none => simp [is] at digit
  | some d => rfl

theorem digitIn_small {c : Char} {d : Nat} (digit : digitIn b c = some d) : d < b := by
  unfold digitIn at digit
  simpa using (Option.filter_eq_some_iff.mp digit).2

variable (rest) in
/-- What follows the sign begins with a digit. -/
theorem Based.front (based : Based base lead cs b) (some : cs ≠ [])
    (digits : ∀ c ∈ cs, (digitIn b c).isSome) :
    ∃ c at', lead ++ (cs ++ rest) = c :: at' ∧ (digitValue c).isSome := by
  cases based with
  | hex | binary => exact ⟨'0', _, rfl, rfl⟩
  | octal => exact ⟨'0', _, rfl, rfl⟩
  | decimal c => exact ⟨c, _, rfl, digitIn_value (digits c List.mem_cons_self)⟩
  | given =>
    cases cs with
    | nil => exact absurd rfl some
    | cons c cs => exact ⟨c, _, rfl, digitIn_value (digits c List.mem_cons_self)⟩

/-- The space and the sign are what the code takes them for. -/
theorem skip_front {ws : Text} (space : ∀ c ∈ ws, isSpace c = true)
    (signs : sign ∈ [[], ['+'], ['-']]) {c : Char} (at' : Text) (digit : (digitValue c).isSome) :
    (ws ++ (sign ++ c :: at')).dropWhile isSpace = sign ++ c :: at' ∧
      decide ((sign ++ c :: at')[0]? = some '-') = decide (sign = ['-']) ∧
      (if isSign (sign ++ c :: at')[0]? then (sign ++ c :: at').drop 1 else sign ++ c :: at') =
        c :: at' := by
  have spaceless := digit_not_space digit
  have signless := digit_not_sign digit
  have minus : c ≠ '-' := by
    rintro rfl
    exact absurd signless (by decide)
  rw [List.dropWhile_append_of_pos space]
  simp only [List.mem_cons, List.not_mem_nil, or_false] at signs
  have plus : isSpace '+' = false := by decide
  have dash : isSpace '-' = false := by decide
  rcases signs with rfl | rfl | rfl
  · simp [spaceless, signless, minus]
  · simp [plus, isSign]
  · simp [dash, isSign]

theorem digitRun_append (digits : ∀ c ∈ cs, (digitIn b c).isSome)
    (stops : ∀ c ∈ rest.head?, digitIn b c = none) :
    digitRun b (cs ++ rest) = cs.filterMap (digitIn b) ∧
      (cs.filterMap (digitIn b)).length = cs.length := by
  induction cs with
  | nil =>
    cases rest with
    | nil => exact ⟨rfl, rfl⟩
    | cons c rest =>
      have none := stops c rfl
      simp [digitRun, none]
  | cons c cs ih =>
    obtain ⟨d, digit⟩ := Option.isSome_iff_exists.mp (digits c List.mem_cons_self)
    obtain ⟨run, length⟩ := ih fun c mem => digits c (List.mem_cons_of_mem _ mem)
    simp [digitRun, digit, run, length]

theorem Based.snoc (based : Based base lead cs b) (some : cs ≠ []) (c : Char) :
    Based base lead (cs ++ [c]) b := by
  cases based with
  | given _ some' => exact .given _ some'
  | hex _ here letter => exact .hex _ here letter
  | binary _ here letter => exact .binary _ here letter
  | octal _ none => exact .octal _ none
  | decimal a _ none other => exact .decimal a _ none other

/-- The longest part stops where its digits do. -/
theorem Longest.stops (longest : Longest base text sign cs rest b) :
    ∀ c ∈ rest.head?, digitIn b c = none := by
  intro c first
  obtain ⟨⟨⟨ws, lead, space, based, split⟩, signs, some, digits⟩, least⟩ := longest
  cases rest with
  | nil => cases first
  | cons a rest =>
    cases first
    by_contra digit
    have longer : Subject base text sign (cs ++ [c]) rest b := by
      refine ⟨⟨ws, lead, space, based.snoc some c, ?_⟩, signs, by simp, ?_⟩
      · rw [split, List.append_assoc, List.singleton_append]
      · intro c mem
        cases List.mem_append.mp mem with
        | inl old => exact digits c old
        | inr new =>
          rw [List.mem_singleton.mp new]
          exact Option.isSome_iff_ne_none.mpr digit
    have := least _ _ _ _ longer
    rw [List.length_cons] at this
    omega

/-- A prefix and its first digit are a subject of their own, so the longest one takes them. -/
theorem Longest.takes_prefix (longest : Longest base text sign cs rest b) {ws at' tail : Text}
    {x d : Char} {b' : Nat} (space : ∀ c ∈ ws, isSpace c = true)
    (split : text = ws ++ (sign ++ at')) (here : at' = '0' :: x :: d :: tail)
    (based : Based base ['0', x] [d] b') (digit : (digitIn b' d).isSome) :
    rest.length ≤ tail.length := by
  apply longest.least sign [d] tail b'
  refine ⟨⟨ws, ['0', x], space, based, ?_⟩, longest.subject.sign, by simp, by simpa using digit⟩
  rw [split, here]
  rfl

/-- The code works the same base and prefix out. -/
theorem Longest.based (longest : Longest base text sign cs rest b) :
    ∃ ws lead, (∀ c ∈ ws, isSpace c = true) ∧ Based base lead cs b ∧
      text = ws ++ (sign ++ (lead ++ (cs ++ rest))) ∧
      prefixOf base (lead ++ (cs ++ rest)) = (b, lead.length) := by
  obtain ⟨⟨ws, lead, space, based, split⟩, -, some, digits⟩ := longest.subject
  refine ⟨ws, lead, space, based, split, ?_⟩
  -- Behind "0x" there are more characters than a reading without it takes.
  have unprefixed : ∀ {lower upper : Char} {b' : Nat}, lead = [] →
      (∀ x, x = lower ∨ x = upper → digitIn b x = none) →
      (∀ d x, x = lower ∨ x = upper → Based base ['0', x] [d] b') →
      prefixed (lead ++ (cs ++ rest)) lower upper b' = false := by
    intro lower upper b' bare letters prefixes
    rw [← Bool.not_eq_true, prefixed_iff]
    rintro ⟨x, d, tail, here, letter, digit⟩
    have least := longest.takes_prefix space split here (prefixes d x letter) digit
    rw [bare, List.nil_append] at here
    cases cs with
    | nil => exact some rfl
    | cons c cs =>
      cases cs with
      | nil =>
        have length := congrArg List.length here
        simp only [List.length_append, List.length_cons, List.length_nil] at length
        omega
      | cons y more =>
        simp only [List.cons_append, List.cons.injEq] at here
        obtain ⟨-, rfl, -⟩ := here
        have is := digits y (by simp)
        rw [letters y letter] at is
        cases is
  cases based with
  | given =>
    unfold prefixOf
    split
    case isTrue chosen =>
      obtain ⟨here, hex⟩ := chosen
      obtain rfl : base = 16 := here.resolve_left ‹base ≠ 0›
      rw [unprefixed rfl (by rintro x (rfl | rfl) <;> decide)
        (fun d x letter => .hex _ (.inr rfl) letter)] at hex
      cases hex
    case isFalse =>
      split
      case isTrue chosen =>
        obtain ⟨here, binary⟩ := chosen
        obtain rfl : base = 2 := here.resolve_left ‹base ≠ 0›
        rw [unprefixed rfl (by rintro x (rfl | rfl) <;> decide)
          (fun d x letter => .binary _ (.inr rfl) letter)] at binary
        cases binary
      case isFalse => simp [‹base ≠ 0›]
  | @hex _ x here letter =>
    cases cs with
    | nil => exact absurd rfl some
    | cons d cs =>
      have chosen : prefixed (['0', x] ++ (d :: cs ++ rest)) 'x' 'X' 16 = true :=
        prefixed_iff.mpr ⟨x, d, _, rfl, letter, digits d List.mem_cons_self⟩
      rw [prefixOf, if_pos ⟨here, chosen⟩]
      rfl
  | @binary _ x here letter =>
    cases cs with
    | nil => exact absurd rfl some
    | cons d cs =>
      have chosen : prefixed (['0', x] ++ (d :: cs ++ rest)) 'b' 'B' 2 = true :=
        prefixed_iff.mpr ⟨x, d, _, rfl, letter, digits d List.mem_cons_self⟩
      have other : prefixed (['0', x] ++ (d :: cs ++ rest)) 'x' 'X' 16 = false := by
        rcases letter with rfl | rfl <;> simp [prefixed]
      have unchosen : ¬((base = 0 ∨ base = 16) ∧
          prefixed (['0', x] ++ (d :: cs ++ rest)) 'x' 'X' 16 = true) := by
        rw [other]
        simp
      rw [prefixOf, if_neg unchosen, if_pos ⟨here, chosen⟩]
      rfl
  | octal cs none =>
    subst none
    have hex : prefixed ([] ++ ('0' :: cs ++ rest)) 'x' 'X' 16 = false :=
      unprefixed rfl (by rintro x (rfl | rfl) <;> decide)
        fun d x letter => .hex _ (.inl rfl) letter
    have binary : prefixed ([] ++ ('0' :: cs ++ rest)) 'b' 'B' 2 = false :=
      unprefixed rfl (by rintro x (rfl | rfl) <;> decide)
        fun d x letter => .binary _ (.inl rfl) letter
    rw [prefixOf, hex, binary]
    simp
  | decimal c cs none other =>
    subst none
    have unprefixed' : ∀ l u k, prefixed ([] ++ (c :: cs ++ rest)) l u k = false := by
      intro l u k
      simp [prefixed, other]
    rw [prefixOf, unprefixed', unprefixed']
    simp [other]

/-- What is read of a text with a number at its front. -/
theorem parse_longest (longest : Longest base text sign cs rest b) (limit : Nat) :
    parse text base limit =
      ⟨(Numeral.checked limit b 0 (cs.filterMap (digitIn b))).1, sign = ['-'],
        (Numeral.checked limit b 0 (cs.filterMap (digitIn b))).2, rest⟩ := by
  obtain ⟨ws, lead, space, based, split, chosen⟩ := longest.based
  obtain ⟨-, signs, some, digits⟩ := longest.subject
  obtain ⟨run, length⟩ := digitRun_append digits longest.stops
  obtain ⟨c, at', front, digit⟩ := based.front rest some digits
  obtain ⟨skipped, negative, past⟩ := skip_front space signs at' digit
  rw [front] at split
  have behind : (c :: at').drop lead.length = cs ++ rest := by
    rw [← front, List.drop_left]
  have some' : cs.filterMap (digitIn b) ≠ [] := by
    rw [← List.length_pos_iff, length, List.length_pos_iff]
    exact some
  rw [front] at chosen
  unfold parse
  rw [split]
  simp only [skipped, negative, past, chosen, behind, run, if_neg some', length, List.drop_left]

/-! ## When there is a number -/

/-- Where the code finds a digit there is a subject. -/
theorem prefixOf_based {at' tail : Text} {c : Char}
    (here : at'.drop (prefixOf base at').2 = c :: tail)
    (digit : (digitIn (prefixOf base at').1 c).isSome) :
    ∃ lead, Based base lead [c] (prefixOf base at').1 ∧ at' = lead ++ ([c] ++ tail) := by
  unfold prefixOf at here digit ⊢
  split
  case isTrue chosen =>
    simp only [chosen, and_self, ↓reduceIte] at here
    obtain ⟨x, d, more, rfl, letter, -⟩ := prefixed_iff.mp chosen.2
    cases here
    exact ⟨['0', x], .hex _ chosen.1 letter, rfl⟩
  case isFalse first =>
    simp only [first, ↓reduceIte] at here digit
    split
    case isTrue chosen =>
      simp only [chosen, and_self, ↓reduceIte] at here
      obtain ⟨x, d, more, rfl, letter, -⟩ := prefixed_iff.mp chosen.2
      cases here
      exact ⟨['0', x], .binary _ chosen.1 letter, rfl⟩
    case isFalse second =>
      simp only [second, ↓reduceIte] at here digit
      split
      case isTrue chosen =>
        simp only [chosen, and_self, ↓reduceIte, List.drop_zero] at here
        obtain ⟨rfl, zero⟩ := chosen
        rw [here] at zero
        cases zero
        exact ⟨[], .octal [] rfl, here⟩
      case isFalse third =>
        simp only [third, ↓reduceIte] at here digit
        split
        case isTrue none =>
          simp only [none, ↓reduceIte, List.drop_zero] at here
          refine ⟨[], .decimal c [] none ?_, here⟩
          rintro rfl
          exact third ⟨none, by rw [here]; rfl⟩
        case isFalse given =>
          simp only [given, ↓reduceIte, List.drop_zero] at here
          exact ⟨[], .given _ given, here⟩

/-- With no subject nothing is taken. -/
theorem parse_no_subject (none : ¬ ∃ sign cs rest b, Subject base text sign cs rest b)
    (limit : Nat) : ∃ negative, parse text base limit = ⟨0, negative, false, text⟩ := by
  obtain ⟨sign, signs, split⟩ : ∃ sign, sign ∈ [[], ['+'], ['-']] ∧
      text.dropWhile isSpace = sign ++ (if isSign (text.dropWhile isSpace)[0]?
        then (text.dropWhile isSpace).drop 1 else text.dropWhile isSpace) := by
    cases text.dropWhile isSpace with
    | nil => exact ⟨[], by simp, by simp [isSign]⟩
    | cons c more =>
      by_cases isSign' : isSign (some c) = true
      · refine ⟨[c], ?_, by simp [isSign']⟩
        simpa [isSign] using isSign'
      · exact ⟨[], by simp, by simp [isSign']⟩
  have no_digits : ∀ at', at' = (if isSign (text.dropWhile isSpace)[0]?
      then (text.dropWhile isSpace).drop 1 else text.dropWhile isSpace) →
      digitRun (prefixOf base at').1 (at'.drop (prefixOf base at').2) = [] := by
    intro at' is
    rw [← is] at split
    cases here : at'.drop (prefixOf base at').2 with
    | nil => rfl
    | cons c tail =>
      cases digit : digitIn (prefixOf base at').1 c with
      | none => simp only [digitRun, digit]
      | some d =>
        have isSome : (digitIn (prefixOf base at').1 c).isSome := by rw [digit]; rfl
        obtain ⟨lead, based, front⟩ := prefixOf_based here isSome
        refine absurd ⟨sign, [c], tail, _, ⟨text.takeWhile isSpace, lead, ?_, based, ?_⟩, signs,
          by simp, by simpa using isSome⟩ none
        · intro c mem
          exact List.mem_takeWhile_imp mem
        · rw [← front, ← split, List.takeWhile_append_dropWhile]
  refine ⟨(text.dropWhile isSpace)[0]? = some '-', ?_⟩
  unfold parse
  simp only [no_digits _ rfl, ↓reduceIte]
  rfl

/-- Of the ways to read a number at the front of a text one is longest. -/
theorem Longest.exists (some : ∃ sign cs rest b, Subject base text sign cs rest b) :
    ∃ sign cs rest b, Longest base text sign cs rest b := by
  classical
  have lengths : ∃ n sign cs rest b, Subject base text sign cs rest b ∧ rest.length = n := by
    obtain ⟨sign, cs, rest, b, subject⟩ := some
    exact ⟨rest.length, sign, cs, rest, b, subject, rfl⟩
  obtain ⟨sign, cs, rest, b, subject, length⟩ := Nat.find_spec lengths
  refine ⟨sign, cs, rest, b, subject, ?_⟩
  intro sign' cs' rest' b' other
  rw [length]
  exact Nat.find_min' lengths ⟨sign', cs', rest', b', other, rfl⟩

/-! ## What is answered -/

theorem Subject.base_small (subject : Subject base text sign cs rest b) (bases : base ≤ 36) :
    0 < b ∧ b ≤ 36 := by
  obtain ⟨⟨ws, lead, -, based, -⟩, -, some, digits⟩ := subject
  cases based with
  | given _ given => exact ⟨by omega, bases⟩
  | hex | binary | octal | decimal => exact ⟨by decide, by decide⟩

/-- The number is read exactly, or flagged when it is past the limit. -/
theorem Subject.checked (subject : Subject base text sign cs rest b) (bases : base ≤ 36)
    (limit : Nat) (large : 36 ≤ limit) :
    if valueOf b cs ≤ limit then
      Numeral.checked limit b 0 (cs.filterMap (digitIn b)) = (valueOf b cs, false)
    else (Numeral.checked limit b 0 (cs.filterMap (digitIn b))).2 = true := by
  obtain ⟨positive, small⟩ := subject.base_small bases
  split
  case isTrue fits => exact Numeral.checked_exact positive fits
  case isFalse past =>
    apply Numeral.checked_past positive
    · intro d mem
      obtain ⟨c, -, digit⟩ := List.mem_filterMap.mp mem
      have := digitIn_small digit
      omega
    · omega
    · exact Nat.lt_of_not_le past

theorem strtol_longest (longest : Longest base text sign cs rest b) (bases : base ≤ 36) :
    strtol text base = (clampLong (signedValue sign (valueOf b cs)), rest) := by
  have exact := longest.subject.checked bases (longMax + 1) (by simp [longMax])
  unfold strtol
  rw [parse_longest longest]
  split at exact
  case isTrue fits =>
    rw [exact]
    simp only [decide_eq_true_eq, Bool.false_eq_true, false_or, clampLong, signedValue]
    split
    · congr 1
      omega
    · congr 1
      omega
  case isFalse past =>
    simp only [exact, decide_eq_true_eq, true_or, ↓reduceIte, clampLong, signedValue]
    split
    · congr 1
      omega
    · congr 1
      omega

theorem strtoull_longest (longest : Longest base text sign cs rest b) (bases : base ≤ 36) :
    strtoull text base = (unsignedValue sign (valueOf b cs), rest) := by
  have exact := longest.subject.checked bases ulongMax (by simp [ulongMax])
  unfold strtoull
  rw [parse_longest longest]
  split at exact
  case isTrue fits =>
    simp [exact, unsignedValue, Nat.not_lt.mpr fits]
  case isFalse past =>
    simp [exact, unsignedValue, Nat.lt_of_not_le past]

/-- The longest number at the front of a text, clamped to the range of the type, and the text behind
it; no number at all is 0 and the whole text. `errno` is as it was. -/
theorem integer_parsing (text : Text) (base errno : Nat) (bases : base = 0 ∨ 2 ≤ base ∧ base ≤ 36) :
    ((∃ sign cs rest b, Subject base text sign cs rest b) →
      ∃ sign cs rest b, Longest base text sign cs rest b) ∧
    (∀ sign cs rest b, Longest base text sign cs rest b →
      seen errno (strtol text base) =
        (clampLong (signedValue sign (valueOf b cs)), rest, errno) ∧
      seen errno (strtoll text base) =
        (clampLong (signedValue sign (valueOf b cs)), rest, errno) ∧
      seen errno (strtoul text base) = (unsignedValue sign (valueOf b cs), rest, errno) ∧
      seen errno (strtoull text base) = (unsignedValue sign (valueOf b cs), rest, errno)) ∧
    ((¬ ∃ sign cs rest b, Subject base text sign cs rest b) →
      seen errno (strtol text base) = (0, text, errno) ∧
      seen errno (strtoll text base) = (0, text, errno) ∧
      seen errno (strtoul text base) = (0, text, errno) ∧
      seen errno (strtoull text base) = (0, text, errno)) := by
  have small : base ≤ 36 := by omega
  refine ⟨Longest.exists, ?_, ?_⟩
  · intro sign cs rest b longest
    have signed := strtol_longest longest small
    have unsigned := strtoull_longest longest small
    refine ⟨?_, ?_, ?_, ?_⟩
    · rw [seen, signed]
    · rw [seen, strtoll, signed]
    · rw [seen, strtoul, unsigned]
    · rw [seen, unsigned]
  · intro none
    obtain ⟨_, signed⟩ := parse_no_subject none (longMax + 1)
    obtain ⟨_, unsigned⟩ := parse_no_subject none ulongMax
    refine ⟨?_, ?_, ?_, ?_⟩
    · simp [seen, strtol, signed]
    · simp [seen, strtoll, strtol, signed]
    · simp [seen, strtoul, strtoull, unsigned]
    · simp [seen, strtoull, unsigned]

/-- The text "-12" is all number. -/
theorem minus_twelve_longest : Longest 10 ['-', '1', '2'] ['-'] ['1', '2'] [] 10 where
  subject :=
    { split := ⟨[], [], by simp, .given _ (by decide), rfl⟩
      sign := by decide
      some := by decide
      digits := List.all_iff_forall_prop.1 (by decide) }
  least := fun _ _ _ _ _ => Nat.zero_le _

theorem integer_parsing_minus_twelve :
    seen 7 (strtol ['-', '1', '2'] 10) =
      (clampLong (signedValue ['-'] (valueOf 10 ['1', '2'])), [], 7) :=
  ((integer_parsing ['-', '1', '2'] 10 7 (by decide)).2.1 _ _ _ _ minus_twelve_longest).1

example : strtol "0xg".toList 16 = (0, "xg".toList) := by decide

/-- `2^63` is past the range of a `long`, and `errno` stays 0. -/
theorem range_error_unset :
    ∃ cs, Longest 10 "9223372036854775808".toList [] cs [] 10 ∧
      (longMax : Int) < signedValue [] (valueOf 10 cs) ∧
      (seen 0 (strtol "9223372036854775808".toList 10)).2.2 ≠ erange := by
  refine ⟨"9223372036854775808".toList, ⟨⟨⟨[], [], by simp, .given _ (by decide), by simp⟩,
    by decide, by decide, List.all_iff_forall_prop.1 (by decide +kernel)⟩,
    fun _ _ _ _ _ => Nat.zero_le _⟩, ?_, ?_⟩
  · decide +kernel
  · decide

end ReconOS.Libc
