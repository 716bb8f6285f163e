import ReconOS.Libc.Format
import ReconOS.Libc.Longest

/-! The programmer calculator: whole numbers of 64 bits, kept as the text on its display in one of
four bases. -/
namespace ReconOS.Calculator

open Libc

/-- `char entry[48]`. -/
def entrySize : Nat := 48
def digitsMax : Nat := 16

inductive Base where
  | hex
  | dec
  | oct
  | bin
  deriving DecidableEq, Repr

def Base.value : Base → Nat
  | .hex => 16
  | .dec => 10
  | .oct => 8
  | .bin => 2

inductive Op where
  | add
  | sub
  | mul
  | div
  | and
  | or
  | xor
  | shl
  | shr
  deriving DecidableEq, Repr

/-- What programmer mode uses of `struct recon_calc`: the text on the display up to its NUL, the
number last shown, the running one, the operator that waits for its right-hand side, whether the
entry is the user's, whether it is an error's. -/
structure Calc where
  entry : Text
  base : Base
  whole : BitVec 64
  accumulator : BitVec 64
  op : Option Op
  entering : Bool
  error : Bool
  deriving DecidableEq

/-! ## Reading and showing -/

/-- `whole_value`: the entry, read in the base showing. -/
def wholeValue (c : Calc) : BitVec 64 := BitVec.ofInt 64 (strtoll c.entry c.base.value).1

/-- `%lld`. -/
def signedText (v : BitVec 64) : Text :=
  if v.toInt < 0 then '-' :: (digitsOf v.toInt.natAbs 10 false).reverse
  else (digitsOf v.toNat 10 false).reverse

/-- The binary digits, built backwards in an array of 72. -/
def binaryText (v : BitVec 64) : Text :=
  (if v.toNat = 0 then ['0'] else digitsLoop 2 false 71 v.toNat).reverse

/-- What a number is written as. -/
def Base.text : Base → BitVec 64 → Text
  | .dec, v => signedText v
  | .hex, v => (digitsOf v.toNat 16 true).reverse
  | .oct, v => (digitsOf v.toNat 8 false).reverse
  | .bin, v => binaryText v

/-- `show_whole`. `none` when the text and its NUL go past the end of the entry. -/
def showWhole (c : Calc) (v : BitVec 64) : Option Calc :=
  let text := c.base.text v
  if text.length < entrySize then some { c with entry := text, whole := v } else none

/-! ## The keys -/

/-- The processor's division, which traps where the quotient has no `long long`. -/
def divide (a b : BitVec 64) : Option (BitVec 64) :=
  if a = BitVec.intMin 64 ∧ b = -1 then none else some (a.sdiv b)

def failWith (c : Calc) (text : Text) : Calc := { c with error := true, op := none, entry := text }

def finish (c : Calc) (acc : BitVec 64) : Option Calc := showWhole { c with accumulator := acc } acc

/-- `apply_whole_pending`. -/
def applyWholePending (c : Calc) : Option Calc :=
  let rhs := wholeValue c
  let acc := c.accumulator
  match c.op with
  | some .add => finish c (acc + rhs)
  | some .sub => finish c (acc - rhs)
  | some .mul => finish c (acc * rhs)
  | some .div =>
    if rhs = 0 then some (failWith c "Cannot divide by zero".toList)
    else (divide acc rhs).bind (finish c)
  | some .and => finish c (acc &&& rhs)
  | some .or => finish c (acc ||| rhs)
  | some .xor => finish c (acc ^^^ rhs)
  | some .shl =>
    if rhs.toInt < 0 ∨ 63 < rhs.toInt then some (failWith c "Shift 0 to 63".toList)
    else finish c (acc <<< rhs.toNat)
  | some .shr =>
    if rhs.toInt < 0 ∨ 63 < rhs.toInt then some (failWith c "Shift 0 to 63".toList)
    else finish c (acc >>> rhs.toNat)
  | none => finish c rhs

/-- How a calculator reads the number on its display, shows another, and applies the operator that
waits. `none` is a trap, or a write outside the display. -/
structure Arithmetic where
  wholeValue : Calc → BitVec 64
  showWhole : Calc → BitVec 64 → Option Calc
  applyPending : Calc → Option Calc

def code : Arithmetic := ⟨wholeValue, showWhole, applyWholePending⟩

/-- `clear_all`. -/
def clearAll (c : Calc) : Calc :=
  { c with
    entry := ['0'], entering := false, error := false, whole := 0, accumulator := 0, op := none }

/-- `digit_fits`. -/
def digitFits (base : Base) (digit : Char) : Bool :=
  if '0' ≤ digit ∧ digit ≤ '9' then digit.toNat - '0'.toNat < base.value
  else if 'A' ≤ digit ∧ digit ≤ 'F' then 10 + (digit.toNat - 'A'.toNat) < base.value
  else false

/-- `append_digit`. -/
def appendDigit (c : Calc) (digit : Char) : Calc :=
  let c := if c.error then clearAll c else c
  let c := if c.entering then c else { c with entry := [], entering := true }
  if digitsMax ≤ c.entry.length then c
  else if c.entry = ['0'] then { c with entry := [digit] }
  else { c with entry := c.entry ++ [digit] }

/-- `backspace`. -/
def backspace (c : Calc) : Calc :=
  if c.error then clearAll c
  else if 1 < c.entry.length then { c with entry := c.entry.dropLast }
  else { c with entry := ['0'], entering := false }

/-- The keys of programmer mode. -/
inductive Key where
  | digit (value : Char)
  | op (value : Op)
  | not
  | base (value : Base)
  | equals
  | clear
  | backspace
  | sign
  deriving DecidableEq

/-- An operator: the one that waits, if the entry is its right-hand side, is applied first. -/
def pressOp (m : Arithmetic) (c : Calc) (value : Op) : Option Calc :=
  let applied :=
    if c.op ≠ none ∧ c.entering = true then m.applyPending c
    else some { c with accumulator := m.wholeValue c }
  applied.map fun c => { c with op := some value, entering := false }

/-- `press_key`, in programmer mode. -/
def pressKey (m : Arithmetic) (c : Calc) : Key → Option Calc
  | .digit value => some (if digitFits c.base value then appendDigit c value else c)
  | .op value => pressOp m c value
  | .not => (m.showWhole c (~~~ m.wholeValue c)).map fun c => { c with entering := false }
  | .base value =>
    let held := if c.error then 0 else m.wholeValue c
    (m.showWhole { c with base := value, error := false } held).map fun c =>
      { c with entering := false }
  | .equals =>
    if c.op ≠ none then
      (m.applyPending c).map fun c => { c with op := none, entering := false }
    else some c
  | .clear => m.showWhole (clearAll c) 0
  | .backspace => some (backspace c)
  | .sign => m.showWhole c (-m.wholeValue c)

/-- A run of keys. -/
def press (m : Arithmetic) : Calc → List Key → Option Calc
  | c, [] => some c
  | c, k :: rest => (pressKey m c k).bind fun c => press m c rest

/-- As programmer mode starts. -/
def fresh (base : Base) : Calc := ⟨['0'], base, 0, 0, none, false, false⟩

/-! The calculator against one that reads back all that it shows. -/

variable {c : Calc} {base : Base} {v : BitVec 64} {k : Key} {keys : List Key}

/-! ## The number that a text is -/

/-- The number at the front of a text, however long it is. -/
def written (text : Text) (base : Nat) : Int :=
  let at' := text.dropWhile isSpace
  let negative : Bool := at'[0]? = some '-'
  let at' := if isSign at'[0]? then at'.drop 1 else at'
  let (base, skip) := prefixOf base at'
  let n := Numeral.value base 0 (digitRun base (at'.drop skip))
  if negative then -n else n

/-- Whether a `long long` has it. -/
def InRange (n : Int) : Prop := -0x8000000000000000 ≤ n ∧ n ≤ 0x7FFFFFFFFFFFFFFF

instance (n : Int) : Decidable (InRange n) := inferInstanceAs (Decidable (_ ∧ _))

theorem digitRun_small {b : Nat} (text : Text) : ∀ d ∈ digitRun b text, d < b := by
  induction text with
  | nil =>
    intro d mem
    cases mem
  | cons ch text ih =>
    intro d mem
    unfold digitRun at mem
    split at mem
    · rename_i d' digit
      cases List.mem_cons.1 mem with
      | inl same => exact same ▸ digitIn_small digit
      | inr later => exact ih d later
    · cases mem

theorem prefixOf_between (at' : Text) {b : Nat} (low : 2 ≤ b) (high : b ≤ 16) :
    2 ≤ (prefixOf b at').1 ∧ (prefixOf b at').1 ≤ 16 := by
  unfold prefixOf
  split
  · exact ⟨by decide, by decide⟩
  split
  · exact ⟨by decide, by decide⟩
  split
  · omega
  split
  · omega
  · exact ⟨low, high⟩

/-- Reading stops at the ends of what a `long long` has. -/
theorem strtoll_written (text : Text) {b : Nat} (low : 2 ≤ b) (high : b ≤ 16) :
    (strtoll text b).1 = clampLong (written text b) := by
  unfold strtoll strtol parse written
  dsimp only
  generalize text.dropWhile isSpace = at'
  generalize (if isSign at'[0]? then at'.drop 1 else at') = rest
  obtain ⟨low', high'⟩ := prefixOf_between rest low high
  generalize prefixOf b rest = p at low' high' ⊢
  have small := digitRun_small (b := p.1) (rest.drop p.2)
  generalize digitRun p.1 (rest.drop p.2) = ds at small ⊢
  have some_value : ds = [] → Numeral.value p.1 0 ds = 0 := by
    rintro rfl
    rfl
  by_cases fits : Numeral.value p.1 0 ds ≤ longMax + 1
  · rw [Numeral.checked_exact (by omega) fits]
    dsimp only
    generalize Numeral.value p.1 0 ds = n at fits some_value ⊢
    unfold clampLong longMax at *
    by_cases none_ : ds = []
    · rw [if_pos none_, some_value none_]
      by_cases negative : at'[0]? = some '-'
      · rw [decide_eq_true negative]
        rfl
      · rw [decide_eq_false negative]
        rfl
    · rw [if_neg none_]
      by_cases negative : at'[0]? = some '-'
      · rw [decide_eq_true negative]
        dsimp only
        simp only [if_true, Bool.false_eq_true, false_or]
        rw [if_neg (by omega)]
        omega
      · rw [decide_eq_false negative]
        dsimp only
        simp only [Bool.false_eq_true, if_false, false_or]
        split
        · omega
        · omega
  · have past := @Numeral.checked_past (longMax + 1) _ 0 _ (by omega)
      (fun d mem => by have := small d mem; unfold longMax; omega) (Nat.zero_le _)
      (Nat.lt_of_not_le fits)
    have some_ : ds ≠ [] := by
      rintro rfl
      exact fits (Nat.zero_le _)
    rw [if_neg some_]
    dsimp only
    rw [past]
    generalize Numeral.value p.1 0 ds = n at fits ⊢
    unfold clampLong longMax at *
    by_cases negative : at'[0]? = some '-'
    · rw [decide_eq_true negative]
      simp only [if_true, true_or]
      omega
    · rw [decide_eq_false negative]
      simp only [Bool.false_eq_true, if_false, true_or, if_true]
      omega

/-- A sign and digits are the number that they spell. -/
theorem written_numeral {sign cs : Text} {b n : Nat} (numeral : NumeralText b b sign [] cs)
    (low : 2 ≤ b) (high : b ≤ 16) (spells : Spells b cs n) :
    written (sign ++ cs) b = if sign = ['-'] then -(n : Int) else n := by
  have read (limit : Nat) (fits : n ≤ limit) := @parse_numeral [] sign [] cs b b n limit
    (by intro c mem; cases mem) numeral (by omega) spells fits
  simp only [List.nil_append, List.append_nil] at read
  unfold parse at read
  unfold written
  dsimp only at read ⊢
  generalize (sign ++ cs).dropWhile isSpace = at' at read ⊢
  generalize (if isSign at'[0]? then at'.drop 1 else at') = rest at read ⊢
  obtain ⟨low', -⟩ := prefixOf_between rest low high
  generalize prefixOf b rest = p at low' read ⊢
  generalize digitRun p.1 (rest.drop p.2) = ds at read ⊢
  have parsed := read (max n (Numeral.value p.1 0 ds)) (Nat.le_max_left ..)
  rw [Numeral.checked_exact (by omega) (Nat.le_max_right ..)] at parsed
  have both : decide (at'[0]? = some '-') = decide (sign = ['-']) ∧
      Numeral.value p.1 0 ds = n := by
    by_cases none_ : ds = []
    · rw [if_pos none_] at parsed
      injection parsed with value negative
      subst none_
      exact ⟨negative, value⟩
    · rw [if_neg none_] at parsed
      injection parsed with value negative
      exact ⟨negative, value⟩
  rw [both.1, both.2]
  by_cases minus : sign = ['-']
  · rw [decide_eq_true minus, if_pos minus]
    rfl
  · rw [decide_eq_false minus, if_neg minus]
    rfl

/-- Digits of a base are no prefix of it. -/
theorem prefixOf_digits {b : Nat} {cs : Text} (known : b = 16 ∨ b = 10 ∨ b = 8 ∨ b = 2)
    (digits : ∀ c ∈ cs, (digitIn b c).isSome) : prefixOf b cs = (b, 0) := by
  have none_ (lower upper : Char) (other : (digitIn b lower).isSome = false)
      (other' : (digitIn b upper).isSome = false) (b' : Nat) :
      prefixed cs lower upper b' = false := by
    by_contra here
    obtain ⟨x, d, tail, rfl, letter, -⟩ := prefixed_iff.1 (Bool.not_eq_false _ ▸ here)
    have digit := digits x (List.mem_cons_of_mem _ List.mem_cons_self)
    cases letter with
    | inl same => rw [same, other] at digit; cases digit
    | inr same => rw [same, other'] at digit; cases digit
  unfold prefixOf
  rcases known with rfl | rfl | rfl | rfl
  · rw [none_ 'x' 'X' (by decide) (by decide)]
    rfl
  · rfl
  · rfl
  · rw [none_ 'b' 'B' (by decide) (by decide)]
    rfl

theorem digits_numeral {b n : Nat} {cs : Text} (sign : Text) (signs : sign ∈ [[], ['-']])
    (known : b = 16 ∨ b = 10 ∨ b = 8 ∨ b = 2) (spells : Spells b cs n) :
    NumeralText b b sign [] cs where
  sign := by
    simp only [List.mem_cons, List.not_mem_nil, or_false] at signs ⊢
    rcases signs with rfl | rfl
    · exact .inl rfl
    · exact .inr (.inr rfl)
  front := by
    obtain ⟨c, rest, rfl⟩ := List.exists_cons_of_ne_nil spells.nonempty
    exact ⟨c, rfl, digitIn_value (spells.digit c List.mem_cons_self)⟩
  based := prefixOf_digits known spells.digit

theorem base_known (base : Base) :
    base.value = 16 ∨ base.value = 10 ∨ base.value = 8 ∨ base.value = 2 := by
  cases base with
  | hex => exact .inl rfl
  | dec => exact .inr (.inl rfl)
  | oct => exact .inr (.inr (.inl rfl))
  | bin => exact .inr (.inr (.inr rfl))

theorem base_between (base : Base) : 2 ≤ base.value ∧ base.value ≤ 16 := by
  rcases base_known base with eq | eq | eq | eq
  all_goals omega

theorem binary_spells (v : BitVec 64) : Spells 2 (binaryText v) v.toNat := by
  unfold binaryText
  have range := v.isLt
  generalize v.toNat = n at range ⊢
  by_cases zero : n = 0
  · subst zero
    exact ⟨by decide, [0], by decide, rfl⟩
  · rw [if_neg zero, digitsLoop_eq (by decide) false (Nat.lt_trans range (by decide)),
      ← List.map_reverse]
    refine ⟨?_, (Nat.digits 2 n).reverse, ?_, Numeral.value_digits 2 n⟩
    · simpa using Nat.digits_ne_nil_iff_ne_zero.2 zero
    · rw [List.map_map]
      apply List.map_congr_left
      intro d inside
      have digit := Nat.digits_lt_base (by decide) (List.mem_reverse.1 inside)
      exact digitIn_digitChar false (by decide) digit

/-- The number that a value is shown as: a signed one in decimal alone. -/
def shownAs : Base → BitVec 64 → Int
  | .dec, v => v.toInt
  | .hex, v | .oct, v | .bin, v => v.toNat

theorem written_text (base : Base) (v : BitVec 64) :
    written (base.text v) base.value = shownAs base v := by
  have range := v.isLt
  obtain ⟨low, high⟩ := base_between base
  have plain {cs : Text} {n : Nat} (spells : Spells base.value cs n) :
      written cs base.value = n :=
    (written_numeral (digits_numeral [] (by decide) (base_known base) spells) low high spells).trans
      (if_neg (by decide))
  cases base with
  | hex => exact plain (digitsOf_spells true (by decide) (by decide) range)
  | oct => exact plain (digitsOf_spells false (by decide) (by decide) range)
  | bin => exact plain (binary_spells v)
  | dec =>
    change written (signedText v) 10 = v.toInt
    unfold signedText
    split
    · rename_i negative
      have least := BitVec.le_toInt v
      have spells : Spells 10 (digitsOf v.toInt.natAbs 10 false).reverse v.toInt.natAbs :=
        digitsOf_spells false (by decide) (by decide) (by omega)
      refine (written_numeral (digits_numeral ['-'] (by decide) (by decide) spells) (by decide)
        (by decide) spells).trans ?_
      rw [if_pos rfl]
      omega
    · rename_i positive
      rw [BitVec.toInt_eq_toNat_of_msb]
      · exact plain (digitsOf_spells false (by decide) (by decide) range)
      · exact BitVec.msb_eq_false_iff_two_mul_lt.2 (by have := BitVec.toInt_eq_toNat_cond v; omega)

theorem text_length (base : Base) (v : BitVec 64) :
    (base.text v).length < entrySize ↔ base = .bin → v.toNat < 0x800000000000 := by
  have decimal (n : Nat) (upper : Bool) (b : Nat) : (digitsOf n b upper).length ≤ 24 :=
    digitsOf_length b upper n
  unfold entrySize
  cases base with
  | hex =>
    have := decimal v.toNat true 16
    refine iff_of_true ?_ (by intro other; cases other)
    change ((digitsOf v.toNat 16 true).reverse).length < 48
    rw [List.length_reverse]
    omega
  | oct =>
    have := decimal v.toNat false 8
    refine iff_of_true ?_ (by intro other; cases other)
    change ((digitsOf v.toNat 8 false).reverse).length < 48
    rw [List.length_reverse]
    omega
  | dec =>
    refine iff_of_true ?_ (by intro other; cases other)
    change (signedText v).length < 48
    unfold signedText
    split
    · have := decimal v.toInt.natAbs false 10
      rw [List.length_cons, List.length_reverse]
      omega
    · have := decimal v.toNat false 10
      rw [List.length_reverse]
      omega
  | bin =>
    rw [forall_prop_of_true rfl]
    change (binaryText v).length < 48 ↔ _
    unfold binaryText
    have range := v.isLt
    generalize v.toNat = n at range ⊢
    by_cases zero : n = 0
    · subst zero
      decide
    · rw [if_neg zero, digitsLoop_eq (by decide) false (Nat.lt_trans range (by decide)),
        List.length_reverse, List.length_map, Nat.lt_succ_iff]
      exact Nat.digits_length_le_iff (by decide) n

/-! ## One value -/

/-- What is shown has its NUL inside the entry, and is read as the value. -/
def RoundTrips (c : Calc) (v : BitVec 64) : Prop :=
  ∃ c', showWhole c v = some c' ∧ c'.entry.length < entrySize ∧ wholeValue c' = v

/-- In decimal any value does; in the others one with its top bit clear, and in binary with no more
than 47 digits. -/
def Roundable : Base → BitVec 64 → Prop
  | .dec, _ => True
  | .hex, v | .oct, v => v.toNat < 0x8000000000000000
  | .bin, v => v.toNat < 0x800000000000

theorem clampLong_of {n : Int} (range : InRange n) : clampLong n = n := by
  obtain ⟨low, high⟩ := range
  unfold clampLong longMax
  omega

theorem ofInt_shownAs (base : Base) (v : BitVec 64) : BitVec.ofInt 64 (shownAs base v) = v := by
  have natural : BitVec.ofInt 64 (v.toNat : Int) = v := by
    rw [BitVec.ofInt_natCast, BitVec.ofNat_toNat, BitVec.setWidth_eq]
  cases base with
  | dec => exact BitVec.ofInt_toInt
  | hex | oct | bin => exact natural

theorem shown_inRange {base : Base} {v : BitVec 64} (round : Roundable base v) :
    InRange (shownAs base v) := by
  have low := BitVec.le_toInt v
  have high := BitVec.toInt_lt (x := v)
  unfold InRange
  cases base with
  | dec =>
    change _ ≤ v.toInt ∧ v.toInt ≤ _
    omega
  | hex | oct | bin =>
    change _ ≤ (v.toNat : Int) ∧ (v.toNat : Int) ≤ _
    change v.toNat < _ at round
    omega

theorem roundTrips_iff (c : Calc) (v : BitVec 64) : RoundTrips c v ↔ Roundable c.base v := by
  have read : (strtoll (c.base.text v) c.base.value).1 = clampLong (shownAs c.base v) := by
    obtain ⟨low, high⟩ := base_between c.base
    rw [strtoll_written _ low high, written_text]
  constructor
  · rintro ⟨c', shown, inside, same⟩
    unfold showWhole at shown
    dsimp only at shown
    split at shown
    · rename_i short
      cases shown
      unfold wholeValue at same
      dsimp only at same
      rw [read] at same
      have whole : BitVec.toNat (BitVec.ofInt 64 (clampLong (shownAs c.base v))) = v.toNat :=
        congrArg BitVec.toNat same
      have positive (natural : shownAs c.base v = v.toNat) : v.toNat < 0x8000000000000000 := by
        rw [natural, BitVec.toNat_ofInt] at whole
        unfold clampLong longMax at whole
        omega
      cases base : c.base with
      | dec => trivial
      | hex => exact positive (by rw [base]; rfl)
      | oct => exact positive (by rw [base]; rfl)
      | bin => exact (text_length _ _).1 (base ▸ short) rfl
    · cases shown
  · intro round
    have short : (c.base.text v).length < entrySize := by
      rw [text_length]
      intro binary
      rw [binary] at round
      exact round
    refine ⟨{ c with entry := c.base.text v, whole := v }, if_pos short, short, ?_⟩
    unfold wholeValue
    dsimp only
    rw [read, clampLong_of (shown_inRange round)]
    exact ofInt_shownAs c.base v

/-! ## The reference -/

/-- The number on the display, all of it. -/
def exact (c : Calc) : BitVec 64 := BitVec.ofInt 64 (written c.entry c.base.value)

/-- What an operator makes of two numbers of 64 bits, if they have a result. -/
def combine : Option Op → BitVec 64 → BitVec 64 → Option (BitVec 64)
  | some .add, a, b => some (a + b)
  | some .sub, a, b => some (a - b)
  | some .mul, a, b => some (a * b)
  | some .div, a, b => if b = 0 then none else some (a.sdiv b)
  | some .and, a, b => some (a &&& b)
  | some .or, a, b => some (a ||| b)
  | some .xor, a, b => some (a ^^^ b)
  | some .shl, a, b => if b.toNat ≤ 63 then some (a <<< b.toNat) else none
  | some .shr, a, b => if b.toNat ≤ 63 then some (a >>> b.toNat) else none
  | none, _, b => some b

/-- One that reads all that it shows, has room for it, and whose operators are those of the numbers:
the result in the accumulator and on the display, or an error. -/
def reference : Arithmetic where
  wholeValue := exact
  showWhole c v := some { c with entry := c.base.text v, whole := v }
  applyPending c := some <|
    match combine c.op c.accumulator (exact c) with
    | some v => { c with accumulator := v, entry := c.base.text v, whole := v }
    | none =>
      failWith c (if c.op = some .div then "Cannot divide by zero".toList else "Shift 0 to 63".toList)

/-- The reference shows what it reads back. -/
theorem reference_reads (c : Calc) (v : BitVec 64) :
    (reference.showWhole c v).map reference.wholeValue = some v := by
  change some (BitVec.ofInt 64 (written (c.base.text v) c.base.value)) = some v
  rw [written_text, ofInt_shownAs]

theorem shift_refused (b : BitVec 64) : (b.toInt < 0 ∨ 63 < b.toInt) ↔ ¬b.toNat ≤ 63 := by
  have range := b.isLt
  have cond := BitVec.toInt_eq_toNat_cond b
  omega

/-- A waiting operator leaves its result in the accumulator and on the display, or an error. -/
theorem apply_combine (c : Calc) (divides : c.op = some .div →
    divide c.accumulator (wholeValue c) = some (c.accumulator.sdiv (wholeValue c))) :
    applyWholePending c = (combine c.op c.accumulator (wholeValue c)).elim
      (some (failWith c (if c.op = some .div then "Cannot divide by zero".toList
        else "Shift 0 to 63".toList))) (finish c) := by
  unfold applyWholePending combine
  dsimp only
  generalize wholeValue c = rhs at divides ⊢
  cases op : c.op with
  | none => rfl
  | some o =>
    cases o with
    | add | sub | mul | and | or | xor => rfl
    | div =>
      dsimp only
      by_cases zero : rhs = 0
      · rw [if_pos zero, if_pos zero]
        rfl
      · rw [if_neg zero, if_neg zero, divides op]
        rfl
    | shl | shr =>
      dsimp only
      by_cases fits : rhs.toNat ≤ 63
      · rw [if_neg (by rw [shift_refused]; exact not_not.2 fits), if_pos fits]
        rfl
      · rw [if_pos ((shift_refused rhs).2 fits), if_neg fits]
        rfl

/-! ## What a run is to meet -/

/-- The number on the display is one that a `long long` has. -/
def Readable (c : Calc) : Prop := InRange (written c.entry c.base.value)

/-- In binary there is room for 47 digits. -/
def HasRoom (base : Base) (v : BitVec 64) : Prop := base = .bin → v.toNat < 0x800000000000

/-- A waiting operator has a number to read, and room for its result, which is not the quotient that
the processor traps on. -/
structure Appliable (c : Calc) : Prop where
  reads : Readable c
  divides : c.op = some .div → ¬(c.accumulator = BitVec.intMin 64 ∧ exact c = -1)
  room : ∀ v ∈ combine c.op c.accumulator (exact c), HasRoom c.base v

/-- What a key asks of the display and of the numbers. -/
def Sound (c : Calc) : Key → Prop
  | .digit _ | .backspace | .clear => True
  | .op _ => Readable c ∧ (c.op ≠ none → c.entering = true → Appliable c)
  | .not => Readable c ∧ HasRoom c.base (~~~ exact c)
  | .base value => c.error = false → Readable c ∧ HasRoom value (exact c)
  | .equals => c.op ≠ none → Appliable c
  | .sign => Readable c ∧ HasRoom c.base (-exact c)

/-- Each key of a run of the reference. -/
def AllSound : Calc → List Key → Prop
  | _, [] => True
  | c, k :: rest => Sound c k ∧ ∀ c' ∈ pressKey reference c k, AllSound c' rest

instance (c : Calc) : Decidable (Readable c) := inferInstanceAs (Decidable (_ ∧ _))

instance (base : Base) (v : BitVec 64) : Decidable (HasRoom base v) :=
  inferInstanceAs (Decidable (_ → _))

instance (c : Calc) : Decidable (Appliable c) :=
  decidable_of_iff (Readable c ∧ (c.op = some .div →
      ¬(c.accumulator = BitVec.intMin 64 ∧ exact c = -1)) ∧
      (combine c.op c.accumulator (exact c)).all (fun v => decide (HasRoom c.base v)) = true)
    ⟨fun all => ⟨all.1, all.2.1, fun v mem =>
        of_decide_eq_true ((Option.all_eq_true _ _).1 all.2.2 v mem)⟩,
      fun all => ⟨all.reads, all.divides, (Option.all_eq_true _ _).2 fun v mem =>
        decide_eq_true (all.room v mem)⟩⟩

instance (c : Calc) : (k : Key) → Decidable (Sound c k)
  | .digit _ | .backspace | .clear => inferInstanceAs (Decidable True)
  | .op _ => inferInstanceAs (Decidable (_ ∧ (_ → _ → _)))
  | .not | .sign => inferInstanceAs (Decidable (_ ∧ _))
  | .base _ => inferInstanceAs (Decidable (_ → _ ∧ _))
  | .equals => inferInstanceAs (Decidable (_ → _))

instance decidableAllSound : (c : Calc) → (keys : List Key) → Decidable (AllSound c keys)
  | _, [] => inferInstanceAs (Decidable True)
  | c, k :: rest =>
    have := fun c' => decidableAllSound c' rest
    inferInstanceAs (Decidable (Sound c k ∧ ∀ c' ∈ pressKey reference c k, AllSound c' rest))

theorem wholeValue_exact (reads : Readable c) : wholeValue c = exact c := by
  obtain ⟨low, high⟩ := base_between c.base
  unfold wholeValue exact
  rw [strtoll_written _ low high, clampLong_of reads]

theorem showWhole_reference (room : HasRoom c.base v) :
    code.showWhole c v = reference.showWhole c v :=
  if_pos ((text_length c.base v).2 room)

theorem apply_reference (sound : Appliable c) :
    code.applyPending c = reference.applyPending c := by
  have same : wholeValue c = exact c := wholeValue_exact sound.reads
  have quotient (op : c.op = some .div) : divide c.accumulator (exact c) =
      some (c.accumulator.sdiv (exact c)) := if_neg (sound.divides op)
  change applyWholePending c = reference.applyPending c
  rw [apply_combine c fun op => by rw [same]; exact quotient op, same]
  have room := sound.room
  unfold reference
  dsimp only
  generalize combine c.op c.accumulator (exact c) = result at room ⊢
  cases result with
  | none => rfl
  | some v => exact @showWhole_reference { c with accumulator := v } v (room v rfl)

theorem pressKey_reference (sound : Sound c k) : pressKey code c k = pressKey reference c k := by
  cases k with
  | digit value => rfl
  | backspace => rfl
  | clear => exact @showWhole_reference (clearAll c) 0 fun _ => by decide
  | op value =>
    have same : code.wholeValue c = reference.wholeValue c := wholeValue_exact sound.1
    change pressOp code c value = pressOp reference c value
    unfold pressOp
    dsimp only
    by_cases waits : c.op ≠ none ∧ c.entering = true
    · rw [if_pos waits, if_pos waits, apply_reference (sound.2 waits.1 waits.2)]
    · rw [if_neg waits, if_neg waits, same]
  | not =>
    have same : code.wholeValue c = reference.wholeValue c := wholeValue_exact sound.1
    have shown := showWhole_reference sound.2
    unfold pressKey
    dsimp only
    rw [same]
    exact congrArg (Option.map _) shown
  | sign =>
    have same : code.wholeValue c = reference.wholeValue c := wholeValue_exact sound.1
    have shown := showWhole_reference sound.2
    change code.showWhole c (-code.wholeValue c) = reference.showWhole c (-reference.wholeValue c)
    rw [same]
    exact shown
  | base value =>
    have held : (if c.error then 0 else code.wholeValue c) =
        if c.error then 0 else reference.wholeValue c := by
      cases error : c.error with
      | true => rfl
      | false => exact wholeValue_exact (sound error).1
    have room : HasRoom value (if c.error then 0 else reference.wholeValue c) := by
      cases error : c.error with
      | true => exact fun _ => (by decide : BitVec.toNat (0 : BitVec 64) < 0x800000000000)
      | false => exact (sound error).2
    have shown := @showWhole_reference { c with base := value, error := false } _ room
    unfold pressKey
    dsimp only
    rw [held]
    exact congrArg (Option.map _) shown
  | equals =>
    unfold pressKey
    dsimp only
    by_cases waits : c.op ≠ none
    · rw [if_pos waits, if_pos waits, apply_reference (sound waits)]
    · rw [if_neg waits, if_neg waits]

theorem press_reference (sound : AllSound c keys) : press code c keys = press reference c keys := by
  induction keys generalizing c with
  | nil => rfl
  | cons k rest ih =>
    obtain ⟨here, later⟩ := sound
    unfold press
    rw [pressKey_reference here]
    cases left : pressKey reference c k with
    | none => rfl
    | some c' => exact ih (later c' left)

/-- The reference has an answer to any key. -/
theorem reference_answers (c : Calc) (keys : List Key) : (press reference c keys).isSome := by
  induction keys generalizing c with
  | nil => rfl
  | cons k rest ih =>
    have one : ∃ c', pressKey reference c k = some c' := by
      cases k with
      | digit | backspace | clear | not | sign | base => exact ⟨_, rfl⟩
      | op value =>
        change ∃ c', pressOp reference c value = some c'
        unfold pressOp
        dsimp only
        split
        · exact ⟨_, rfl⟩
        · exact ⟨_, rfl⟩
      | equals =>
        unfold pressKey
        dsimp only
        split
        · exact ⟨_, rfl⟩
        · exact ⟨_, rfl⟩
    obtain ⟨c', eq⟩ := one
    unfold press
    rw [eq]
    exact ih c'

/-- A value is read back as it is shown when it has its top bit clear or is in decimal, and in binary
has 47 digits at the most, and only then; and a run of keys, each of which finds numbers that are so,
leaves the calculator as the reference leaves it. -/
theorem computes_what_it_shows (c : Calc) :
    (∀ v, RoundTrips c v ↔ Roundable c.base v) ∧
    ∀ keys, AllSound c keys →
      press code c keys = press reference c keys ∧ (press reference c keys).isSome :=
  ⟨roundTrips_iff c, fun keys sound => ⟨press_reference sound, reference_answers c keys⟩⟩

/-- In hexadecimal F times 9, the product shown in decimal, and negated. -/
def product : List Key := [.digit 'F', .op .mul, .digit '9', .equals, .base .dec, .sign]

theorem computes_what_it_shows_product : AllSound (fresh .hex) product ∧
    press code (fresh .hex) product = press reference (fresh .hex) product ∧
    (press reference (fresh .hex) product).map Calc.entry = some "-135".toList := by
  have sound : AllSound (fresh .hex) product := by decide +kernel
  exact ⟨sound, ((computes_what_it_shows (fresh .hex)).2 product sound).1, by decide +kernel⟩

/-- Five, in hexadecimal, negated: the number read back is the greatest there is, and one more than
that is not one more than minus five. -/
theorem negative_is_lost :
    ¬RoundTrips (fresh .hex) (-5) ∧ ¬RoundTrips (fresh .bin) (-1) ∧
      press code (fresh .hex) [.digit '5', .sign, .op .add, .digit '1', .equals] ≠
        press reference (fresh .hex) [.digit '5', .sign, .op .add, .digit '1', .equals] := by
  refine ⟨?_, ?_, by decide +kernel⟩
  · rw [roundTrips_iff]
    exact (by decide : ¬((-5 : BitVec 64).toNat < 0x8000000000000000))
  · rw [roundTrips_iff]
    exact (by decide : ¬((-1 : BitVec 64).toNat < 0x800000000000))

end ReconOS.Calculator
