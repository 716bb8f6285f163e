import ReconOS.Libc.Truncate
import ReconOS.Libc.RoundTrip
import Mathlib.Data.Bool.AllAny

/-! The integer conversions of `vsnprintf` beside those of the C standard. -/
namespace ReconOS.Libc

/-! ## Directives -/

inductive Flag where
  | minus | plus | space | alt | zero
  deriving DecidableEq

def Flag.char : Flag → Char
  | .minus => '-'
  | .plus => '+'
  | .space => ' '
  | .alt => '#'
  | .zero => '0'

/-- No width, a width as it is written, or the `int` of an argument. -/
inductive WidthField where
  | absent
  | number (w : Nat) (some : 0 < w)
  | star (v : BitVec 64)

/-- No precision, a precision as it is written behind zeros, or the `int` of an argument. A point
alone is followed by no zeros and no number. -/
inductive PrecisionField where
  | absent
  | number (zeros p : Nat)
  | star (v : BitVec 64)

inductive Modifier where
  | plain | hh | h | l | ll | j | z | t
  deriving DecidableEq

inductive IntConv where
  | d | i | u | o | x | X | b
  deriving DecidableEq

def IntConv.char : IntConv → Char
  | .d => 'd'
  | .i => 'i'
  | .u => 'u'
  | .o => 'o'
  | .x => 'x'
  | .X => 'X'
  | .b => 'b'

/-- What stands between `%` and the conversion. -/
structure Directive where
  flags : List Flag
  width : WidthField
  precision : PrecisionField
  modifier : Modifier

def WidthField.text : WidthField → Text
  | .absent => []
  | .number w _ => Nat.toDigits 10 w
  | .star _ => ['*']

def PrecisionField.text : PrecisionField → Text
  | .absent => []
  | .number zeros p => '.' :: (List.replicate zeros '0' ++ if p = 0 then [] else Nat.toDigits 10 p)
  | .star _ => ['.', '*']

def Modifier.text : Modifier → Text
  | .plain => []
  | .hh => ['h', 'h']
  | .h => ['h']
  | .l => ['l']
  | .ll => ['l', 'l']
  | .j => ['j']
  | .z => ['z']
  | .t => ['t']

/-- The directive, with its conversion. -/
def Directive.text (d : Directive) (conv : IntConv) : Text :=
  '%' :: (d.flags.map Flag.char ++ (d.width.text ++ (d.precision.text ++
    (d.modifier.text ++ [conv.char]))))

section
variable {Double : Type}

def WidthField.args : WidthField → List (Arg Double)
  | .star v => [.int v]
  | _ => []

def PrecisionField.args : PrecisionField → List (Arg Double)
  | .star v => [.int v]
  | _ => []

/-- The arguments a directive takes before the one it converts. -/
def Directive.args (d : Directive) : List (Arg Double) := d.width.args ++ d.precision.args

end

/-! ## The standard -/

/-- An argument of type `int`. -/
def intOf (v : BitVec 64) : Int := (v.setWidth 32).toInt

/-- The width asked for; of a negative one its magnitude. -/
def WidthField.size : WidthField → Nat
  | .absent => 0
  | .number w _ => w
  | .star v => (intOf v).natAbs

/-- A negative width is a `-` flag. -/
def WidthField.negative : WidthField → Bool
  | .star v => intOf v < 0
  | _ => false

/-- A negative precision is none. -/
def PrecisionField.given : PrecisionField → Option Nat
  | .absent => none
  | .number _ p => some p
  | .star v => if intOf v < 0 then none else some (intOf v).toNat

def Modifier.bits : Modifier → Nat
  | .plain => 32
  | .hh => 8
  | .h => 16
  | .l | .ll | .j | .z | .t => 64

def IntConv.signed (conv : IntConv) : Bool := conv = .d || conv = .i

def IntConv.base : IntConv → Nat
  | .d | .i | .u => 10
  | .o => 8
  | .x | .X => 16
  | .b => 2

/-- The value of the argument, in the type the modifier names. -/
def Directive.value (d : Directive) (conv : IntConv) (v : BitVec 64) : Int :=
  if conv.signed then (v.setWidth d.modifier.bits).toInt else (v.setWidth d.modifier.bits).toNat

def Directive.left (d : Directive) : Bool := .minus ∈ d.flags || d.width.negative

def hexChar (conv : IntConv) (digit : Nat) : Char :=
  if conv = .X then digit.digitChar.toUpper else digit.digitChar

/-- The digits of `n`, no fewer than the precision, which is 1 where none is given: of zero to the
precision zero there are none. -/
def standardDigits (conv : IntConv) (precision : Option Nat) (n : Nat) : Text :=
  let digits := ((Nat.digits conv.base n).map (hexChar conv)).reverse
  List.replicate (precision.getD 1 - digits.length) '0' ++ digits

/-- With `#` the first octal digit is a zero. -/
def alternative (conv : IntConv) (alt : Bool) (digits : Text) : Text :=
  if conv = .o ∧ alt ∧ digits.head? ≠ some '0' then '0' :: digits else digits

/-- With `#` a value that is not zero has its base in front of it. -/
def basePrefix (conv : IntConv) (alt : Bool) (n : Nat) : Text :=
  if alt ∧ n ≠ 0 then
    match conv with
    | .x => ['0', 'x']
    | .X => ['0', 'X']
    | .b => ['0', 'b']
    | _ => []
  else []

/-- A minus; or what the flags put where there is none, `+` before space. -/
def signText (flags : List Flag) (conv : IntConv) (value : Int) : Text :=
  if value < 0 then ['-']
  else if conv.signed ∧ .plus ∈ flags then ['+']
  else if conv.signed ∧ .space ∈ flags then [' ']
  else []

/-- What is printed, in its field. -/
def fielded (left zeros : Bool) (width : Nat) (front digits : Text) : Text :=
  let pad := width - (front ++ digits).length
  if left then front ++ digits ++ List.replicate pad ' '
  else if zeros then front ++ List.replicate pad '0' ++ digits
  else List.replicate pad ' ' ++ front ++ digits

/-- What the standard says a conversion writes. Zeros fill the field only where no precision and no
`-` is given. -/
def standardText (d : Directive) (conv : IntConv) (v : BitVec 64) : Text :=
  let value := d.value conv v
  let alt : Bool := .alt ∈ d.flags
  fielded d.left (.zero ∈ d.flags && d.precision.given.isNone) d.width.size
    (signText d.flags conv value ++ basePrefix conv alt value.natAbs)
    (alternative conv alt (standardDigits conv d.precision.given value.natAbs))

/-- Where the two part: a zero to the precision zero, which is printed; and `%#o` of any other value
whose digits have no zero in front of them for another reason, a precision or a zero filled field. -/
def Parts (d : Directive) (conv : IntConv) (v : BitVec 64) : Prop :=
  let n := (d.value conv v).natAbs
  let count := (Nat.digits conv.base n).length
  let octal : Prop := conv = .o ∧ .alt ∈ d.flags
  n = 0 ∧ d.precision.given = some 0 ∧ ¬octal ∨
    octal ∧ n ≠ 0 ∧ d.precision.given.getD 0 ≤ count ∧
      ¬(.zero ∈ d.flags ∧ d.left = false ∧ d.precision.given = none ∧ count < d.width.size)

/-! ## Reading a directive -/

/-- What the code makes of the flags and fields. -/
def Directive.spec (d : Directive) : Spec where
  left := d.left
  zero := .zero ∈ d.flags
  plus := .plus ∈ d.flags
  space := .space ∈ d.flags
  alt := .alt ∈ d.flags
  width := d.width.size
  precision := d.precision.given

def Modifier.length : Modifier → Length
  | .plain => .int
  | .hh => .char
  | .h => .short
  | .l => .long
  | .ll | .j | .t => .llong
  | .z => .size

variable {Double : Type}

/-- The text begins with none of these. -/
def Avoids (chars : List Char) (text : Text) : Prop := ∀ c ∈ text.head?, c ∉ chars

theorem readFlags_stops {text : Text} (avoids : Avoids ['-', '0', '+', ' ', '#'] text) (f : Spec) :
    readFlags f text = (f, text) := by
  cases text with
  | nil => rfl
  | cons c rest =>
    have other := avoids c rfl
    simp only [List.mem_cons, List.not_mem_nil, or_false, not_or] at other
    obtain ⟨h₁, h₂, h₃, h₄, h₅⟩ := other
    rw [readFlags, if_neg h₁, if_neg h₂, if_neg h₃, if_neg h₄, if_neg h₅]

theorem readFlags_flags (flags : List Flag) {rest : Text}
    (stops : ∀ f, readFlags f rest = (f, rest)) (f : Spec) :
    readFlags f (flags.map Flag.char ++ rest) =
      ({ f with
          left := f.left || decide (.minus ∈ flags)
          zero := f.zero || decide (.zero ∈ flags)
          plus := f.plus || decide (.plus ∈ flags)
          space := f.space || decide (.space ∈ flags)
          alt := f.alt || decide (.alt ∈ flags) }, rest) := by
  induction flags generalizing f with
  | nil => simp [stops]
  | cons flag flags ih => cases flag <;> simp [Flag.char, readFlags, ih]

theorem readNat_stops {text : Text}
    (avoids : Avoids ['0', '1', '2', '3', '4', '5', '6', '7', '8', '9'] text) (n : Nat) :
    readNat n text = (n, text) := by
  cases text with
  | nil => rfl
  | cons c rest =>
    have other := avoids c rfl
    rw [readNat, if_neg]
    rintro ⟨low, high⟩
    have low' : 48 ≤ c.toNat := low
    have high' : c.toNat ≤ 57 := high
    have same : c = Char.ofNat c.toNat := (Char.ofNat_toNat c).symm
    generalize c.toNat = k at low' high' same
    subst same
    revert other
    interval_cases k <;> decide

/-- The modifier and the conversion are letters. -/
theorem letters_first (m : Modifier) (conv : IntConv) :
    ∃ c rest, m.text ++ [conv.char] = c :: rest ∧ c ∈ "hljztdiuoxXb".toList := by
  cases m <;> cases conv <;> exact ⟨_, _, rfl, by decide⟩

theorem letters_avoid (m : Modifier) (conv : IntConv) {chars : List Char}
    (apart : ∀ c ∈ "hljztdiuoxXb".toList, c ∉ chars) : Avoids chars (m.text ++ [conv.char]) := by
  obtain ⟨c, rest, text, letter⟩ := letters_first m conv
  intro a first
  rw [text] at first
  cases first
  exact apart c letter

theorem readLength_modifier (m : Modifier) (conv : IntConv) :
    readLength (m.text ++ [conv.char]) = (m.length, [conv.char]) := by
  cases m <;> cases conv <;> rfl

theorem precision_avoid (p : PrecisionField) {chars : List Char} {rest : Text}
    (point : '.' ∉ chars) (after : Avoids chars rest) : Avoids chars (p.text ++ rest) := by
  cases p with
  | absent => exact after
  | number | star =>
    intro c first
    cases first
    exact point

theorem width_avoid (w : WidthField) {chars : List Char} {rest : Text} (star : '*' ∉ chars)
    (digits : ∀ c ∈ chars, c.isDigit = true → c = '0') (after : Avoids chars rest) :
    Avoids chars (w.text ++ rest) := by
  cases w with
  | absent => exact after
  | star =>
    intro c first
    cases first
    exact star
  | number w some =>
    cases written : Nat.toDigits 10 w with
    | nil => exact absurd written Nat.toDigits_ne_nil
    | cons c cs =>
      obtain ⟨digit, nonzero⟩ := width_leading some c cs written
      intro a first
      simp only [WidthField.text, written] at first
      cases first
      exact fun mem => nonzero (digits c mem digit)

theorem readWidth_field (w : WidthField) (f : Spec) {rest : Text} (args : List (Arg Double))
    (avoids : Avoids ['*', '0', '1', '2', '3', '4', '5', '6', '7', '8', '9'] rest) :
    readWidth f (w.text ++ rest) (w.args ++ args) =
      some ({ f with left := f.left || w.negative, width := w.size }, rest, args) := by
  have stops : ∀ n, readNat n rest = (n, rest) :=
    readNat_stops fun c first mem => avoids c first (List.mem_cons_of_mem _ mem)
  cases w with
  | star v => rfl
  | absent =>
    have starless : ∀ at', rest ≠ '*' :: at' := by
      rintro at' rfl
      exact avoids '*' rfl List.mem_cons_self
    change readWidth f rest args = _
    rw [readWidth.eq_2 f rest args starless, stops]
    simp [WidthField.negative, WidthField.size]
  | number w some =>
    have digits : ∀ c ∈ Nat.toDigits 10 w, c.isDigit = true :=
      fun c inside => Nat.isDigit_of_mem_toDigits (by decide) (by decide) inside
    have starless : ∀ at', Nat.toDigits 10 w ++ rest ≠ '*' :: at' := by
      intro at' same
      cases written : Nat.toDigits 10 w with
      | nil => exact absurd written Nat.toDigits_ne_nil
      | cons c cs =>
        rw [written] at same digits
        cases same
        have := digits '*' List.mem_cons_self
        revert this
        decide
    change readWidth f (Nat.toDigits 10 w ++ rest) args = _
    rw [readWidth.eq_2 f _ args starless, readNat_append digits stops, Nat.ofDigitChars_ten_toDigits]
    simp [WidthField.negative, WidthField.size]

theorem readPrecision_field (p : PrecisionField) {f : Spec} (unset : f.precision = none) {rest : Text}
    (args : List (Arg Double))
    (avoids : Avoids ['.', '*', '0', '1', '2', '3', '4', '5', '6', '7', '8', '9'] rest) :
    readPrecision f (p.text ++ rest) (p.args ++ args) =
      some ({ f with precision := p.given }, rest, args) := by
  have stops : ∀ n, readNat n rest = (n, rest) :=
    readNat_stops fun c first mem =>
      avoids c first (List.mem_cons_of_mem _ (List.mem_cons_of_mem _ mem))
  cases p with
  | star v => rfl
  | absent =>
    have pointless : ∀ at', rest ≠ '.' :: at' := by
      rintro at' rfl
      exact avoids '.' rfl List.mem_cons_self
    change readPrecision f rest args = _
    rw [readPrecision.eq_3 f rest args (fun at' => pointless _) pointless]
    cases f
    cases unset
    rfl
  | number zeros p =>
    have digits : ∀ c ∈ List.replicate zeros '0' ++ (if p = 0 then [] else Nat.toDigits 10 p),
        c.isDigit = true := by
      intro c mem
      cases List.mem_append.mp mem with
      | inl zero =>
        rw [List.eq_of_mem_replicate zero]
        rfl
      | inr digit =>
        split at digit
        · cases digit
        · exact Nat.isDigit_of_mem_toDigits (by decide) (by decide) digit
    have zero : ∀ k, Nat.ofDigitChars 10 (List.replicate k '0') 0 = 0 := by
      intro k
      induction k with
      | zero => rfl
      | succ k ih => exact ih
    have value : Nat.ofDigitChars 10 (List.replicate zeros '0' ++
        (if p = 0 then [] else Nat.toDigits 10 p)) 0 = p := by
      rw [Nat.ofDigitChars_append, zero]
      split
      case isTrue none => exact none.symm
      case isFalse => exact Nat.ofDigitChars_ten_toDigits
    have starless : ∀ at', List.replicate zeros '0' ++ (if p = 0 then [] else Nat.toDigits 10 p) ++
        rest ≠ '*' :: at' := by
      intro at' same
      generalize List.replicate zeros '0' ++ (if p = 0 then [] else Nat.toDigits 10 p) = cs at *
      cases cs with
      | nil =>
        rw [List.nil_append] at same
        exact avoids '*' (by rw [same]; rfl) (by decide)
      | cons c cs =>
        cases same
        have := digits '*' List.mem_cons_self
        revert this
        decide
    change readPrecision f ('.' :: (List.replicate zeros '0' ++
      (if p = 0 then [] else Nat.toDigits 10 p) ++ rest)) args = _
    rw [readPrecision.eq_2 f args _ starless, readNat_append digits stops, value]
    rfl

/-- The code reads of a directive what the standard does. -/
theorem directive_read (d : Directive) (conv : IntConv) (v : BitVec 64) :
    directive (d.flags.map Flag.char ++ (d.width.text ++ (d.precision.text ++
        (d.modifier.text ++ [conv.char])))) (d.args ++ [(.int v : Arg Double)]) =
      some (d.spec, d.modifier.length, [conv.char], [.int v]) := by
  have letters := fun {chars : List Char} (h : ∀ c ∈ "hljztdiuoxXb".toList, c ∉ chars) =>
    letters_avoid d.modifier conv h
  have fields : Avoids ['-', '0', '+', ' ', '#'] (d.width.text ++ (d.precision.text ++
      (d.modifier.text ++ [conv.char]))) :=
    width_avoid d.width (by decide) (List.all_iff_forall_prop.1 (by decide))
      (precision_avoid d.precision (by decide) (letters (List.all_iff_forall_prop.1 (by decide))))
  unfold directive
  rw [readFlags_flags d.flags (readFlags_stops fields) {}]
  dsimp only
  rw [Directive.args, List.append_assoc,
    readWidth_field d.width _ _ (precision_avoid d.precision (by decide)
      (letters (List.all_iff_forall_prop.1 (by decide))))]
  simp only [Option.bind_eq_bind, Option.bind_some]
  rw [readPrecision_field d.precision rfl _ (letters (List.all_iff_forall_prop.1 (by decide)))]
  simp only [Option.bind_some, readLength_modifier]
  simp [Directive.spec, Directive.left]

/-! ## Writing a number -/

theorem numberText_fielded (f : Spec) (rev sign lead : Text) :
    numberText f rev sign lead = fielded f.left (f.zero && f.precision.isNone) f.width (sign ++ lead)
      (List.replicate (f.precision.getD 0 - rev.length) '0' ++ rev.reverse) := by
  have length : (sign ++ lead ++ (List.replicate (f.precision.getD 0 - rev.length) '0' ++
      rev.reverse)).length =
      sign.length + lead.length + (f.precision.getD 0 - rev.length) + rev.length := by
    simp only [List.length_append, List.length_replicate, List.length_reverse]
    omega
  unfold numberText fielded
  dsimp only
  rw [length]
  generalize body : sign.length + lead.length + (f.precision.getD 0 - rev.length) + rev.length = n
  by_cases filled : (f.zero && !f.left && f.precision.isNone && decide (n < f.width)) = true
  · simp only [Bool.and_eq_true, Bool.not_eq_true', Option.isNone_iff_eq_none,
      decide_eq_true_eq] at filled
    obtain ⟨⟨⟨zero, right⟩, none⟩, short⟩ := filled
    simp [zero, right, none, short]
  · rw [Bool.not_eq_true] at filled
    rw [filled]
    cases left : f.left with
    | true => simp
    | false =>
      cases fill : f.zero && f.precision.isNone with
      | false => simp
      | true =>
        -- The field is no wider than the number.
        have narrow : f.width - n = 0 := by
          simp only [Bool.and_eq_true] at fill
          simp [left, fill.1, fill.2] at filled
          omega
        simp [narrow]

/-! ## The digits -/

def IntConv.upper (conv : IntConv) : Bool := conv.char = 'X'

theorem hexChar_eq (conv : IntConv) {digit : Nat} (small : digit < 16) :
    hexChar conv digit = digitChar conv.upper digit := by
  cases conv <;> revert digit <;> decide

theorem base_bounds {conv : IntConv} (known : conv ≠ .b) : 8 ≤ conv.base ∧ conv.base ≤ 16 := by
  cases conv <;> first | decide | exact absurd rfl known

/-- A value that is not zero has the same digits, the last of them first in the code's buffer. -/
theorem digitsOf_standard {conv : IntConv} (known : conv ≠ .b) {n : Nat} (range : n < 2 ^ 64)
    (nonzero : n ≠ 0) :
    (digitsOf n conv.base conv.upper).reverse =
      ((Nat.digits conv.base n).map (hexChar conv)).reverse := by
  obtain ⟨big, small⟩ := base_bounds known
  rw [digitsOf_eq conv.upper big range nonzero, ← List.map_reverse]
  apply List.map_congr_left
  intro digit mem
  have below := Nat.digits_lt_base (by omega) (List.mem_reverse.mp mem)
  exact (hexChar_eq conv (Nat.lt_of_lt_of_le below small)).symm

/-- The digits the code prints, with the zeros the precision asks for. -/
def printedDigits (conv : IntConv) (precision : Option Nat) (n : Nat) : Text :=
  let rev := digitsOf n conv.base conv.upper
  List.replicate (precision.getD 0 - rev.length) '0' ++ rev.reverse

theorem standardDigits_zero (conv : IntConv) (precision : Option Nat) :
    standardDigits conv precision 0 = List.replicate (precision.getD 1) '0' := by
  simp [standardDigits]

theorem printedDigits_zero (conv : IntConv) (precision : Option Nat) :
    printedDigits conv precision 0 = List.replicate (precision.getD 0 - 1 + 1) '0' := by
  simp [printedDigits, digitsOf, List.replicate_succ']

theorem standardDigits_eq {conv : IntConv} (known : conv ≠ .b) {precision : Option Nat} {n : Nat}
    (range : n < 2 ^ 64) (some : ¬(n = 0 ∧ precision = some 0)) :
    standardDigits conv precision n = printedDigits conv precision n := by
  by_cases zero : n = 0
  · subst zero
    rw [standardDigits_zero, printedDigits_zero]
    congr 1
    cases precision with
    | none => rfl
    | some p =>
      have : p ≠ 0 := fun none => some ⟨rfl, congrArg Option.some none⟩
      simp only [Option.getD_some]
      omega
  · have digits := digitsOf_standard known range zero
    have length := congrArg List.length digits
    rw [List.length_reverse] at length
    have first : 0 < (digitsOf n conv.base conv.upper).length := by
      rw [length, List.length_reverse, List.length_map, List.length_pos_iff]
      exact Nat.digits_ne_nil_iff_ne_zero.mpr zero
    unfold standardDigits printedDigits
    dsimp only
    rw [← digits, List.length_reverse]
    cases precision with
    | some p => rfl
    | none =>
      simp only [Option.getD_none]
      rw [Nat.sub_eq_zero_of_le first, Nat.zero_sub]

/-- With `#` the code's octal digits have a zero in front of them, if the two do not part, or get
one where the field is filled with zeros. -/
theorem fielded_octal {width n : Nat} {precision : Option Nat} {left zeros : Bool}
    (range : n < 2 ^ 64)
    (agree : n = 0 ∨ (Nat.digits 8 n).length < precision.getD 0 ∨
      zeros = true ∧ left = false ∧ precision = none ∧ (Nat.digits 8 n).length < width) :
    fielded left zeros width [] (printedDigits .o precision n) =
      fielded left zeros width [] (alternative .o true (standardDigits .o precision n)) := by
  by_cases zero : n = 0
  · subst zero
    rw [standardDigits_zero, printedDigits_zero]
    cases precision with
    | none => rfl
    | some p =>
      cases p with
      | zero => rfl
      | succ p => simp [alternative, List.replicate_succ]
  have octal : IntConv.o ≠ .b := by decide
  have digits := digitsOf_standard octal range zero
  have count : (digitsOf n 8 false).length = (Nat.digits 8 n).length := by
    have length := congrArg List.length digits
    simpa [IntConv.base, IntConv.upper, IntConv.char] using length
  rw [standardDigits_eq (by decide) range fun both => zero both.1]
  rcases agree with none | more | ⟨rfl, rfl, rfl, short⟩
  · exact absurd none zero
  · have head : (printedDigits .o precision n).head? = some '0' := by
      change (List.replicate (precision.getD 0 - (digitsOf n 8 false).length) '0' ++ _).head? = _
      rw [count]
      obtain ⟨k, more⟩ := Nat.exists_eq_add_of_lt more
      rw [show precision.getD 0 - (Nat.digits 8 n).length = k + 1 by omega]
      rfl
    simp [alternative, head]
  · have leading := digitsOf_leading false (Nat.le_refl 8) (by decide) range zero
    have plain : printedDigits .o none n = (digitsOf n 8 false).reverse := by
      simp [printedDigits, IntConv.base, IntConv.upper, IntConv.char]
    have length : (digitsOf n 8 false).reverse.length = (Nat.digits 8 n).length := by
      rw [List.length_reverse, count]
    rw [plain]
    generalize (digitsOf n 8 false).reverse = printed at leading length ⊢
    rw [List.head?_eq_getElem?.symm] at leading
    have fill : width - printed.length = width - (printed.length + 1) + 1 := by omega
    simp [fielded, alternative, leading, fill, List.replicate_succ']

/-! ## One conversion -/

theorem Modifier.signed_eq (m : Modifier) (v : BitVec 64) :
    m.length.signed v = (v.setWidth m.bits).toInt := by
  cases m with
  | plain | hh | h => rfl
  | l | ll | j | z | t => exact congrArg BitVec.toInt (BitVec.setWidth_eq v).symm

theorem Modifier.unsigned_eq (m : Modifier) (v : BitVec 64) :
    m.length.unsigned v = (v.setWidth m.bits).toNat := by
  cases m with
  | plain | hh | h => rfl
  | l | ll | j | z | t => exact congrArg BitVec.toNat (BitVec.setWidth_eq v).symm

theorem value_range (d : Directive) (conv : IntConv) (v : BitVec 64) :
    (d.value conv v).natAbs < 2 ^ 64 := by
  have bits : d.modifier.bits ≤ 64 := by cases d.modifier <;> decide
  have power : 2 ^ d.modifier.bits ≤ 2 ^ 64 := Nat.pow_le_pow_right (by decide) bits
  unfold Directive.value
  generalize v.setWidth d.modifier.bits = x
  have range := x.isLt
  split
  · have low := BitVec.toInt_eq_toNat_cond x
    split at low <;> omega
  · omega

/-- Sign, prefix and digits of a value in its field. -/
def codeText (d : Directive) (conv : IntConv) (value : Int) : Text :=
  fielded d.left (.zero ∈ d.flags && d.precision.given.isNone) d.width.size
    (signText d.flags conv value ++ basePrefix conv (.alt ∈ d.flags) value.natAbs)
    (printedDigits conv d.precision.given value.natAbs)

theorem signedText_code (d : Directive) (conv : IntConv) (signed : conv.signed = true)
    (value : Int) : signedText d.spec value = codeText d conv value := by
  have base : conv.base = 10 ∧ conv.upper = false := by
    cases conv <;> first | decide | cases signed
  have bare : basePrefix conv (decide (.alt ∈ d.flags)) value.natAbs = [] := by
    unfold basePrefix
    split
    · cases conv <;> first | rfl | cases signed
    · rfl
  unfold signedText codeText
  dsimp only
  rw [numberText_fielded, bare]
  unfold signText printedDigits
  simp only [Directive.spec, signed, base.1, base.2, true_and, decide_eq_true_eq]

theorem unsignedText_code (d : Directive) (conv : IntConv) (known : conv ≠ .b)
    (unsigned : conv.signed = false) (n : Nat) :
    unsignedText d.spec conv.char n = codeText d conv n := by
  have signless : signText d.flags conv (n : Int) = [] := by
    have positive : ¬(n : Int) < 0 := by omega
    simp [signText, unsigned, positive]
  unfold unsignedText codeText
  rw [signless]
  dsimp only
  rw [numberText_fielded, Int.natAbs_natCast]
  cases conv with
  | b => exact absurd rfl known
  | d | i => cases unsigned
  | u | o => simp [Directive.spec, printedDigits, basePrefix, IntConv.char, IntConv.base, IntConv.upper]
  | x | X => simp [Directive.spec, printedDigits, basePrefix, IntConv.char, IntConv.base, IntConv.upper]

theorem convertText_code (d : Directive) {conv : IntConv} (known : conv ≠ .b) (v : BitVec 64)
    (start : Text) :
    convertText d.spec d.modifier.length start [conv.char] [(.int v : Arg Double)] =
      some (codeText d conv (d.value conv v), [], []) := by
  have whole : ∀ {text : Text}, text = codeText d conv (d.value conv v) →
      some (text, ([] : Text), ([] : List (Arg Double))) =
        some (codeText d conv (d.value conv v), [], []) := by
    rintro text rfl
    rfl
  have signed := d.modifier.signed_eq v
  have unsigned := d.modifier.unsigned_eq v
  cases conv with
  | b => exact absurd rfl known
  | d => exact whole (by rw [signed]; exact signedText_code d .d rfl _)
  | i => exact whole (by rw [signed]; exact signedText_code d .i rfl _)
  | u => exact whole (by rw [unsigned]; exact unsignedText_code d .u known rfl _)
  | o => exact whole (by rw [unsigned]; exact unsignedText_code d .o known rfl _)
  | x => exact whole (by rw [unsigned]; exact unsignedText_code d .x known rfl _)
  | X => exact whole (by rw [unsigned]; exact unsignedText_code d .X known rfl _)

/-- The code's text is the standard's, where the two do not part. -/
theorem codeText_standard {d : Directive} {conv : IntConv} (known : conv ≠ .b) {v : BitVec 64}
    (agree : ¬Parts d conv v) : codeText d conv (d.value conv v) = standardText d conv v := by
  have range := value_range d conv v
  have positive : conv.signed = false → 0 ≤ d.value conv v := by
    intro unsigned
    unfold Directive.value
    rw [if_neg (by simp [unsigned])]
    exact Int.natCast_nonneg _
  unfold Parts at agree
  unfold codeText standardText
  generalize d.value conv v = value at agree range positive ⊢
  dsimp only at agree ⊢
  by_cases octal : conv = .o ∧ .alt ∈ d.flags
  · obtain ⟨rfl, alt⟩ := octal
    have front : signText d.flags .o value ++ basePrefix .o (decide (.alt ∈ d.flags)) value.natAbs =
        [] := by
      have := positive rfl
      simp [signText, basePrefix, IntConv.signed, this]
    rw [front, decide_eq_true alt]
    apply fielded_octal range
    by_contra other
    simp only [not_or] at other
    obtain ⟨nonzero, few, unfilled⟩ := other
    refine agree (.inr ⟨⟨rfl, alt⟩, nonzero, Nat.le_of_not_lt few, ?_⟩)
    rintro ⟨zero, right, none, short⟩
    exact unfilled ⟨by simp [zero, none], right, none, short⟩
  · have same : alternative conv (decide (.alt ∈ d.flags))
        (standardDigits conv d.precision.given value.natAbs) =
        standardDigits conv d.precision.given value.natAbs := by
      unfold alternative
      rw [if_neg]
      rintro ⟨o, alt, -⟩
      exact octal ⟨o, by simpa using alt⟩
    rw [same, standardDigits_eq known range]
    rintro ⟨zero, none⟩
    exact agree (.inl ⟨zero, none, octal⟩)

/-! ## The whole format -/

theorem directive_single (d : Directive) (conv : IntConv) (rest : Text) :
    d.flags.map Flag.char ++ (d.width.text ++ (d.precision.text ++
      (d.modifier.text ++ [conv.char]))) ≠ '%' :: rest := by
  have fields : Avoids ['%'] (d.flags.map Flag.char ++ (d.width.text ++ (d.precision.text ++
      (d.modifier.text ++ [conv.char])))) := by
    have letters : Avoids ['%'] (d.modifier.text ++ [conv.char]) :=
      letters_avoid d.modifier conv (List.all_iff_forall_prop.1 (by decide))
    have later : Avoids ['%'] (d.width.text ++ (d.precision.text ++
        (d.modifier.text ++ [conv.char]))) :=
      width_avoid d.width (by decide) (List.all_iff_forall_prop.1 (by decide))
        (precision_avoid d.precision (by decide) letters)
    cases d.flags with
    | nil => exact later
    | cons flag flags =>
      intro c first
      cases first
      cases flag <;> decide
  intro same
  exact fields '%' (by rw [same]; rfl) (by decide)

/-- A format of one directive is that conversion's text. -/
theorem expand_directive (d : Directive) (conv : IntConv) (v : BitVec 64) {text : Text}
    {args : List (Arg Double)}
    (written : convertText d.spec d.modifier.length (d.text conv) [conv.char]
      [(.int v : Arg Double)] = some (text, [], args)) :
    expand (d.text conv) (d.args ++ [(.int v : Arg Double)]) = some text ∧
      cutOff (d.text conv) = false := by
  have read : directive _ (d.args ++ [(.int v : Arg Double)]) = _ := directive_read d conv v
  have single := directive_single d conv
  have stops := directive_rest read
  unfold expand cutOff
  unfold Directive.text at written ⊢
  generalize d.flags.map Flag.char ++ (d.width.text ++ (d.precision.text ++
    (d.modifier.text ++ [conv.char]))) = body at *
  rw [List.length_cons, expandLoop.eq_4 _ _ _ single, cutLoop.eq_4 _ _ single, ← stops, read]
  constructor
  · simp only [Option.bind_eq_bind, Option.bind_some, written]
    cases body.length <;> simp [expandLoop]
  · cases body.length <;> rfl

theorem vsnprintf_directive (emitDouble : Sink → Spec → Double → Sink) (d : Directive)
    (conv : IntConv) (v : BitVec 64) (room : Nat) {text : Text} {args : List (Arg Double)}
    (written : convertText d.spec d.modifier.length (d.text conv) [conv.char]
      [(.int v : Arg Double)] = some (text, [], args)) (short : text.length < 2 ^ 31) :
    vsnprintf emitDouble room (d.text conv) (d.args ++ [.int v]) =
      some ⟨text.take (room - 1), text.length⟩ := by
  obtain ⟨expanded, whole⟩ := expand_directive d conv v written
  have printed := vsnprintf_text emitDouble room expanded
  rw [whole] at printed
  simp only [Bool.false_eq_true, if_false, List.append_nil] at printed
  rw [printed, bmod_of_small short]

/-- **For every flag, width, precision, modifier and value the integer conversions print what the
standard says, where the two do not part; and `%b`, which there is none of, goes out as it came in.**
A text that is longer than an `int` counts has no standard. -/
theorem integer_conversions_standard (emitDouble : Sink → Spec → Double → Sink) (d : Directive)
    (v : BitVec 64) (room : Nat) :
    (∀ conv, conv ≠ .b → ¬Parts d conv v → (standardText d conv v).length < 2 ^ 31 →
      vsnprintf emitDouble room (d.text conv) (d.args ++ [.int v]) =
        some ⟨(standardText d conv v).take (room - 1), (standardText d conv v).length⟩) ∧
    ((d.text .b).length < 2 ^ 31 →
      vsnprintf emitDouble room (d.text .b) (d.args ++ [.int v]) =
        some ⟨(d.text .b).take (room - 1), (d.text .b).length⟩) := by
  constructor
  · intro conv known agree short
    have written : convertText d.spec d.modifier.length (d.text conv) [conv.char]
        [(.int v : Arg Double)] = _ := convertText_code d known v (d.text conv)
    rw [codeText_standard known agree] at written
    exact vsnprintf_directive emitDouble d conv v room written short
  · intro short
    have written : convertText d.spec d.modifier.length (d.text .b) [IntConv.b.char]
        [(.int v : Arg Double)] = some (d.text .b, [], [.int v]) := by
      simp [convertText, IntConv.char]
    exact vsnprintf_directive emitDouble d .b v room written short

/-- `%+06`, `%`, `%.0` and `%#`. -/
def signedField : Directive := ⟨[.plus, .zero], .number 6 (by decide), .absent, .plain⟩
def bare : Directive := ⟨[], .absent, .absent, .plain⟩
def toZero : Directive := ⟨[], .absent, .number 1 0, .plain⟩
def alternate : Directive := ⟨[.alt], .absent, .absent, .plain⟩

theorem signed_field_standard :
    vsnprintf noDouble 80 "%+06d".toList [.int 42] =
        some ⟨(standardText signedField .d 42).take 79, (standardText signedField .d 42).length⟩ ∧
      vsnprintf noDouble 80 "%+06b".toList [.int 42] = some ⟨"%+06b".toList, 5⟩ := by
  have agree : ¬Parts signedField .d 42 := by
    rintro (⟨zero, -⟩ | ⟨⟨octal, -⟩, -⟩)
    · revert zero
      decide
    · cases octal
  constructor
  · exact (integer_conversions_standard noDouble signedField 42 80).1 .d (by decide) agree
      (by decide +kernel)
  · exact (integer_conversions_standard noDouble signedField 42 80).2 (by decide +kernel)

/-- There is no `%b`; a zero to the precision zero is printed; and `%#o` puts no zero in front. -/
theorem conversions_differ :
    (standardText bare .b 5 = "101".toList ∧
      vsnprintf noDouble 80 "%b".toList [.int 5] = some ⟨"%b".toList, 2⟩) ∧
    (standardText toZero .d 0 = [] ∧
      vsnprintf noDouble 80 "%.0d".toList [.int 0] = some ⟨"0".toList, 1⟩) ∧
    standardText alternate .o 8 = "010".toList ∧
      vsnprintf noDouble 80 "%#o".toList [.int 8] = some ⟨"10".toList, 2⟩ := by
  refine ⟨⟨?_, ?_⟩, ⟨?_, ?_⟩, ?_, ?_⟩ <;> decide +kernel

end ReconOS.Libc
