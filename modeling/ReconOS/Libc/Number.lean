import ReconOS.Lib.Numeral
import Mathlib.Tactic.NormNum

/-! Numbers out of text: `strtol` and its relatives. A text ends where its list does, and `*end` is
the text from there on. -/
namespace ReconOS.Libc

abbrev Text := List Char

/-- One digit in a base. Letters continue past 'f', so that base 36 works. -/
def digitValue (c : Char) : Option Nat :=
  if '0' ≤ c ∧ c ≤ '9' then some (c.toNat - '0'.toNat)
  else if 'a' ≤ c ∧ c ≤ 'z' then some (c.toNat - 'a'.toNat + 10)
  else if 'A' ≤ c ∧ c ≤ 'Z' then some (c.toNat - 'A'.toNat + 10)
  else none

def digitIn (base : Nat) (c : Char) : Option Nat :=
  (digitValue c).filter (· < base)

def isSpace (c : Char) : Bool :=
  c = ' ' || c = '\t' || c = '\n' || c = '\r' || c = '\x0b' || c = '\x0c'

def isSign (c : Option Char) : Bool := c = some '+' || c = some '-'

/-- A prefix letter after '0', and a digit of its base after that. -/
def prefixed (at' : Text) (lower upper : Char) (base : Nat) : Bool :=
  at'[0]? = some '0' && (at'[1]? = some lower || at'[1]? = some upper) &&
    (at'[2]?.bind (digitIn base)).isSome

/-- The base to read in, and the length of the prefix that says so. Base 0 means "work it out". -/
def prefixOf (base : Nat) (at' : Text) : Nat × Nat :=
  if (base = 0 ∨ base = 16) ∧ prefixed at' 'x' 'X' 16 then (16, 2)
  else if (base = 0 ∨ base = 2) ∧ prefixed at' 'b' 'B' 2 then (2, 2)
  else if base = 0 ∧ at'[0]? = some '0' then (8, 0)
  else if base = 0 then (10, 0)
  else (base, 0)

/-- The digits at the front. -/
def digitRun (base : Nat) : Text → List Nat
  | [] => []
  | c :: at' =>
    match digitIn base c with
    | some d => d :: digitRun base at'
    | none => []

structure Parsed where
  value : Nat
  negative : Bool
  overflowed : Bool
  rest : Text
  deriving DecidableEq

/-- The shared body. With no digits nothing is consumed. -/
def parse (text : Text) (base limit : Nat) : Parsed :=
  let at' := text.dropWhile isSpace
  let negative : Bool := at'[0]? = some '-'
  let at' := if isSign at'[0]? then at'.drop 1 else at'
  let (base, skip) := prefixOf base at'
  let at' := at'.drop skip
  let digits := digitRun base at'
  let r := Numeral.checked limit base 0 digits
  if digits = [] then ⟨0, negative, r.2, text⟩
  else ⟨r.1, negative, r.2, at'.drop digits.length⟩

def longMax : Nat := 0x7FFFFFFFFFFFFFFF
def ulongMax : Nat := 0xFFFFFFFFFFFFFFFF

/-- Past the limit the answer is the limit. -/
def strtol (text : Text) (base : Nat) : Int × Text :=
  let p := parse text base (longMax + 1)
  if p.negative then
    (if p.overflowed ∨ longMax + 1 < p.value then -longMax - 1 else -p.value, p.rest)
  else (if p.overflowed ∨ longMax < p.value then longMax else p.value, p.rest)

/-- `strtol` under another name: a `long` has 64 bits. -/
def strtoll (text : Text) (base : Nat) : Int × Text := strtol text base

/-- A leading minus negates. -/
def strtoull (text : Text) (base : Nat) : Nat × Text :=
  let p := parse text base ulongMax
  (if p.overflowed then ulongMax
    else if p.negative then (2 ^ 64 - p.value) % 2 ^ 64 else p.value, p.rest)

def strtoul (text : Text) (base : Nat) : Nat × Text := strtoull text base

/-! ## Text that spells a number -/

/-- All of `cs` is digits of `base`, one at least, and `n` is their value. -/
structure Spells (base : Nat) (cs : Text) (n : Nat) : Prop where
  nonempty : cs ≠ []
  digits : ∃ ds, cs.map (digitIn base) = ds.map some ∧ Numeral.value base 0 ds = n

theorem digitRun_all {base : Nat} {cs : Text} {ds : List Nat}
    (digits : cs.map (digitIn base) = ds.map some) : digitRun base cs = ds := by
  induction cs generalizing ds with
  | nil => simpa [digitRun] using digits
  | cons c cs ih =>
    cases ds with
    | nil => simp at digits
    | cons d ds =>
      simp only [List.map_cons, List.cons.injEq] at digits
      simp only [digitRun, digits.1, ih digits.2]

theorem Spells.digit {base n : Nat} {cs : Text} (spells : Spells base cs n) :
    ∀ c ∈ cs, (digitIn base c).isSome := by
  obtain ⟨ds, digits, -⟩ := spells.digits
  intro c inside
  have mapped : digitIn base c ∈ ds.map some := digits ▸ List.mem_map_of_mem inside
  obtain ⟨d, -, is⟩ := List.mem_map.mp mapped
  rw [← is]
  rfl

theorem Spells.zeros {base n : Nat} {cs : Text} (positive : 0 < base) (k : Nat)
    (spells : Spells base cs n) : Spells base (List.replicate k '0' ++ cs) n := by
  obtain ⟨ds, digits, value⟩ := spells.digits
  have zero : digitIn base '0' = some 0 := by
    simp [digitIn, show digitValue '0' = some 0 from by decide, positive]
  refine ⟨by simp [spells.nonempty], List.replicate k 0 ++ ds, ?_, ?_⟩
  · simp only [List.map_append, List.map_replicate, zero, digits]
  · rw [Numeral.value_append, Numeral.value_zeros, value]

theorem digit_not_space {c : Char} (digit : (digitValue c).isSome) : isSpace c = false := by
  by_contra space
  simp only [isSpace, Bool.not_eq_false, Bool.or_eq_true, decide_eq_true_eq] at space
  rcases space with ((((rfl | rfl) | rfl) | rfl) | rfl) | rfl <;> exact absurd digit (by decide)

theorem digit_not_sign {c : Char} (digit : (digitValue c).isSome) : isSign (some c) = false := by
  by_contra sign
  simp only [isSign, Bool.not_eq_false, Bool.or_eq_true, decide_eq_true_eq, Option.some.injEq]
    at sign
  rcases sign with rfl | rfl <;> exact absurd digit (by decide)

/-- A sign, a prefix of `base` and the digits after it. -/
structure NumeralText (base b : Nat) (sign lead cs : Text) : Prop where
  sign : sign ∈ [[], ['+'], ['-']]
  front : ∃ c, (lead ++ cs)[0]? = some c ∧ (digitValue c).isSome
  based : prefixOf base (lead ++ cs) = (b, lead.length)

theorem NumeralText.not_space {base b : Nat} {sign lead cs : Text}
    (numeral : NumeralText base b sign lead cs) :
    (sign ++ lead ++ cs).dropWhile isSpace = sign ++ lead ++ cs := by
  obtain ⟨c, first, digit⟩ := numeral.front
  have signs := numeral.sign
  cases whole : lead ++ cs with
  | nil => simp [whole] at first
  | cons a rest =>
    obtain rfl : a = c := by simpa [whole] using first
    have space := digit_not_space digit
    simp only [List.mem_cons, List.not_mem_nil, or_false] at signs
    have plus : isSpace '+' = false := by decide
    have minus : isSpace '-' = false := by decide
    rcases signs with rfl | rfl | rfl <;> simp [whole, space, plus, minus]

/-- A number after any space is read whole. -/
theorem parse_numeral {pad sign lead cs : Text} {base b n limit : Nat}
    (padding : ∀ c ∈ pad, isSpace c = true) (numeral : NumeralText base b sign lead cs)
    (positive : 0 < b) (spells : Spells b cs n) (fits : n ≤ limit) :
    parse (pad ++ (sign ++ lead ++ cs)) base limit = ⟨n, sign = ['-'], false, []⟩ := by
  have skipped : (pad ++ (sign ++ lead ++ cs)).dropWhile isSpace = sign ++ lead ++ cs := by
    rw [List.dropWhile_append_of_pos padding, numeral.not_space]
  obtain ⟨c, first, digit⟩ := numeral.front
  have unsigned : isSign (lead ++ cs)[0]? = false := by rw [first]; exact digit_not_sign digit
  have negative : (decide ((sign ++ lead ++ cs)[0]? = some '-') : Bool) = decide (sign = ['-']) := by
    have signs := numeral.sign
    simp only [List.mem_cons, List.not_mem_nil, or_false] at signs
    rcases signs with rfl | rfl | rfl
    · have : (lead ++ cs)[0]? ≠ some '-' := by
        intro minus
        simp [minus, isSign] at unsigned
      simpa using this
    · simp
    · simp
  have past : (if isSign (sign ++ lead ++ cs)[0]? then (sign ++ lead ++ cs).drop 1
      else sign ++ lead ++ cs) = lead ++ cs := by
    have signs := numeral.sign
    simp only [List.mem_cons, List.not_mem_nil, or_false] at signs
    rcases signs with rfl | rfl | rfl
    · simp only [List.nil_append, unsigned, Bool.false_eq_true, ↓reduceIte]
    · simp [isSign]
    · simp [isSign]
  obtain ⟨ds, digits, worth⟩ := spells.digits
  have some_digit : ds ≠ [] := by
    rintro rfl
    exact spells.nonempty (by simpa using digits)
  have length : ds.length = cs.length := by simpa using (congrArg List.length digits).symm
  have within : Numeral.value b 0 ds ≤ limit := worth ▸ fits
  simp only [parse, skipped, past, numeral.based, negative, List.drop_left, digitRun_all digits,
    some_digit, ↓reduceIte, Numeral.checked_exact positive within, worth, length, List.drop_length]

theorem strtoll_numeral {pad sign lead cs : Text} {base b n : Nat}
    (padding : ∀ c ∈ pad, isSpace c = true) (numeral : NumeralText base b sign lead cs)
    (positive : 0 < b) (spells : Spells b cs n)
    (range : if sign = ['-'] then n ≤ 2 ^ 63 else n < 2 ^ 63) :
    strtoll (pad ++ (sign ++ lead ++ cs)) base = (if sign = ['-'] then -(n : Int) else n, []) := by
  have fits : n ≤ longMax + 1 := by
    simp only [longMax]
    split at range <;> omega
  simp only [strtoll, strtol, parse_numeral padding numeral positive spells fits]
  by_cases minus : sign = ['-']
  · simp only [minus, decide_true, ↓reduceIte, Bool.false_eq_true, false_or, Nat.not_lt.mpr fits]
  · simp only [minus, ↓reduceIte] at range
    have small : ¬ longMax < n := by simp only [longMax]; omega
    simp only [minus, decide_false, ↓reduceIte, Bool.false_eq_true, false_or, small]

theorem strtoull_numeral {pad sign lead cs : Text} {base b n : Nat}
    (padding : ∀ c ∈ pad, isSpace c = true) (numeral : NumeralText base b sign lead cs)
    (plain : sign ≠ ['-']) (positive : 0 < b) (spells : Spells b cs n) (range : n < 2 ^ 64) :
    strtoull (pad ++ (sign ++ lead ++ cs)) base = (n, []) := by
  have fits : n ≤ ulongMax := by simp only [ulongMax]; omega
  simp only [strtoull, parse_numeral padding numeral positive spells fits, plain, decide_false,
    Bool.false_eq_true, ↓reduceIte]

end ReconOS.Libc
