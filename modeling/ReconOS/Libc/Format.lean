import ReconOS.Libc.Number
import Mathlib.Data.BitVec
import Mathlib.Data.Nat.Digits.Lemmas

/-! `vsnprintf`: a format and its arguments into a buffer of a given size. -/
namespace ReconOS.Libc

/-! ## Where the output goes -/

/-- `out` is the `used` bytes that landed; `wanted` counts every byte the format asked for. -/
structure Sink where
  room : Nat
  out : Text
  wanted : Nat
  deriving DecidableEq

def Sink.put (s : Sink) (c : Char) : Sink :=
  { s with out := if s.out.length + 1 < s.room then s.out ++ [c] else s.out
           wanted := s.wanted + 1 }

def Sink.putBytes (s : Sink) (cs : Text) : Sink := cs.foldl Sink.put s

def Sink.putRepeat (s : Sink) (c : Char) (times : Nat) : Sink :=
  s.putBytes (List.replicate times c)

@[simp] theorem putBytes_nil (s : Sink) : s.putBytes [] = s := rfl

theorem putBytes_append (s : Sink) (as bs : Text) :
    s.putBytes (as ++ bs) = (s.putBytes as).putBytes bs :=
  List.foldl_append

theorem putBytes_wanted (s : Sink) (cs : Text) :
    (s.putBytes cs).wanted = s.wanted + cs.length := by
  induction cs generalizing s with
  | nil => rfl
  | cons c cs ih =>
    have rest := ih (s.put c)
    simp only [Sink.putBytes, List.foldl_cons, Sink.put, List.length_cons] at rest ⊢
    omega

theorem putBytes_fits {s : Sink} {cs : Text} (fits : s.out.length + cs.length < s.room) :
    (s.putBytes cs).out = s.out ++ cs := by
  induction cs generalizing s with
  | nil => simp
  | cons c cs ih =>
    rw [List.length_cons] at fits
    have here : s.out.length + 1 < s.room ∨ cs = [] ∧ s.out.length + 1 < s.room := by omega
    have put : s.put c = { s with out := s.out ++ [c], wanted := s.wanted + 1 } := by
      simp only [Sink.put, here.elim id And.right, ↓reduceIte]
    have rest := ih (s := s.put c) (by rw [put]; simp; omega)
    calc ((s.put c).putBytes cs).out = (s.put c).out ++ cs := rest
      _ = s.out ++ c :: cs := by rw [put]; simp

/-! ## Numbers -/

def digitsMax : Nat := 24

def digitChar (upper : Bool) (d : Nat) : Char :=
  (if upper then "0123456789ABCDEF" else "0123456789abcdef").toList.getD d '0'

def digitsLoop (base : Nat) (upper : Bool) : Nat → Nat → Text
  | 0, _ => []
  | room + 1, value =>
    if value = 0 then []
    else digitChar upper (value % base) :: digitsLoop base upper room (value / base)

/-- The digits, the least significant first. -/
def digitsOf (value base : Nat) (upper : Bool) : Text :=
  if value = 0 then ['0'] else digitsLoop base upper digitsMax value

structure Spec where
  left : Bool := false
  zero : Bool := false
  plus : Bool := false
  space : Bool := false
  alt : Bool := false
  width : Nat := 0
  precision : Option Nat := none
  deriving DecidableEq

/-- Sign, prefix, zeros and digits, with the space the width asks for on either side. A precision
turns off zero padding. -/
def emitNumber (s : Sink) (f : Spec) (rev sign lead : Text) : Sink :=
  let zeros := f.precision.getD 0 - rev.length
  let body := sign.length + lead.length + zeros + rev.length
  let filled := f.zero && !f.left && f.precision.isNone && body < f.width
  let zeros := if filled then zeros + (f.width - body) else zeros
  let body := if filled then f.width else body
  let pad := f.width - body
  let s := if f.left then s else s.putRepeat ' ' pad
  let s := (((s.putBytes sign).putBytes lead).putRepeat '0' zeros).putBytes rev.reverse
  if f.left then s.putRepeat ' ' pad else s

/-! ## The engine -/

/-- An argument. An integer has the bits of its register; a pointer is one too. -/
inductive Arg (Double : Type) where
  | int (v : BitVec 64)
  | text (s : Option Text)
  | double (d : Double)

inductive Length where
  | int | char | short | long | llong | size
  deriving DecidableEq

/-- Of the value the bits the length says, with its sign. -/
def Length.signed (len : Length) (v : BitVec 64) : Int :=
  match len with
  | .int => (v.setWidth 32).toInt
  | .char => (v.setWidth 8).toInt
  | .short => (v.setWidth 16).toInt
  | .long | .llong | .size => v.toInt

def Length.unsigned (len : Length) (v : BitVec 64) : Nat :=
  match len with
  | .int => (v.setWidth 32).toNat
  | .char => (v.setWidth 8).toNat
  | .short => (v.setWidth 16).toNat
  | .long | .llong | .size => v.toNat

def readFlags (f : Spec) : Text → Spec × Text
  | [] => (f, [])
  | c :: at' =>
    if c = '-' then readFlags { f with left := true } at'
    else if c = '0' then readFlags { f with zero := true } at'
    else if c = '+' then readFlags { f with plus := true } at'
    else if c = ' ' then readFlags { f with space := true } at'
    else if c = '#' then readFlags { f with alt := true } at'
    else (f, c :: at')

/-- A run of decimal digits after the number `n`. The `int` it is kept in is not exceeded. -/
def readNat (n : Nat) : Text → Nat × Text
  | [] => (n, [])
  | c :: at' =>
    if '0' ≤ c ∧ c ≤ '9' then readNat (n * 10 + (c.toNat - '0'.toNat)) at' else (n, c :: at')

section
variable {Double : Type}

/-- `va_arg` of an `int`. -/
def intArg : List (Arg Double) → Option (Int × List (Arg Double))
  | .int v :: args => some (Length.int.signed v, args)
  | _ => none

/-- A negative width is '-'. -/
def readWidth (f : Spec) (at' : Text) (args : List (Arg Double)) :
    Option (Spec × Text × List (Arg Double)) :=
  match at' with
  | '*' :: at' => do
    let (width, args) ← intArg args
    return ({ f with left := f.left || width < 0, width := width.natAbs }, at', args)
  | at' =>
    let (width, at') := readNat 0 at'
    some ({ f with width := width }, at', args)

/-- A negative precision is as if none were given. -/
def readPrecision (f : Spec) (at' : Text) (args : List (Arg Double)) :
    Option (Spec × Text × List (Arg Double)) :=
  match at' with
  | '.' :: '*' :: at' => do
    let (precision, args) ← intArg args
    return ({ f with precision := if precision < 0 then none else some precision.toNat }, at', args)
  | '.' :: at' =>
    let (precision, at') := readNat 0 at'
    some ({ f with precision := some precision }, at', args)
  | at' => some (f, at', args)

def readLength : Text → Length × Text
  | 'h' :: 'h' :: at' => (.char, at')
  | 'h' :: at' => (.short, at')
  | 'l' :: 'l' :: at' => (.llong, at')
  | 'l' :: at' => (.long, at')
  | 'z' :: at' => (.size, at')
  | 'j' :: at' | 't' :: at' | 'L' :: at' => (.llong, at')
  | at' => (.int, at')

def emitSigned (s : Sink) (f : Spec) (v : Int) : Sink :=
  let sign := if v < 0 then ['-'] else if f.plus then ['+'] else if f.space then [' '] else []
  emitNumber s f (digitsOf v.natAbs 10 false) sign []

def emitUnsigned (s : Sink) (f : Spec) (c : Char) (v : Nat) : Sink :=
  let upper : Bool := c = 'X'
  let base := if c = 'o' then 8 else if c = 'x' ∨ c = 'X' then 16 else 10
  let lead := if base = 16 ∧ f.alt ∧ v ≠ 0 then (if upper then ['0', 'X'] else ['0', 'x']) else []
  emitNumber s f (digitsOf v base upper) [] lead

/-- One field of text in its width. -/
def emitText (s : Sink) (f : Spec) (text : Text) : Sink :=
  let pad := f.width - text.length
  let s := if f.left then s else s.putRepeat ' ' pad
  let s := s.putBytes text
  if f.left then s.putRepeat ' ' pad else s

-- What `%f` writes is left to `emitDouble`.
variable (emitDouble : Sink → Spec → Double → Sink)

/-- One conversion, its flags and lengths read. `start` is the directive as it came in: one this
does not have goes out verbatim, and its argument is not consumed. -/
def convert (s : Sink) (f : Spec) (len : Length) (start at' : Text) (args : List (Arg Double)) :
    Option (Sink × Text × List (Arg Double)) :=
  match at', args with
  | 'd' :: at', .int v :: args | 'i' :: at', .int v :: args =>
    some (emitSigned s f (len.signed v), at', args)
  | 'u' :: at', .int v :: args => some (emitUnsigned s f 'u' (len.unsigned v), at', args)
  | 'o' :: at', .int v :: args => some (emitUnsigned s f 'o' (len.unsigned v), at', args)
  | 'x' :: at', .int v :: args => some (emitUnsigned s f 'x' (len.unsigned v), at', args)
  | 'X' :: at', .int v :: args => some (emitUnsigned s f 'X' (len.unsigned v), at', args)
  | 'c' :: at', .int v :: args =>
    some (emitText s f [Char.ofNat (v.setWidth 8).toNat], at', args)
  | 's' :: at', .text t :: args =>
    let text := t.getD "(null)".toList
    let text := match f.precision with
      | some n => text.take n
      | none => text
    some (emitText s f text, at', args)
  | 'p' :: at', .int v :: args =>
    some (emitNumber s { f with precision := none } (digitsOf v.toNat 16 false) [] ['0', 'x'],
      at', args)
  | 'f' :: at', .double d :: args | 'F' :: at', .double d :: args =>
    some (emitDouble s f d, at', args)
  | c :: at', args =>
    if c ∈ "diuoxXcspfF".toList then none
    else some (s.putBytes (start.take (start.length - at'.length)), at', args)
  | [], args => some ((s.putBytes start).put '\x00', [], args)

/-- `none` is an argument missing or of another type, which the caller has promised against. Each
turn takes a character of the format at least. -/
def formatLoop : Nat → Sink → Text → List (Arg Double) → Option Sink
  | 0, s, _, _ => some s
  | _, s, [], _ => some s
  | turns + 1, s, '%' :: '%' :: at', args => formatLoop turns (s.put '%') at' args
  | turns + 1, s, '%' :: at', args => do
    let (f, rest) := readFlags {} at'
    let (f, rest, args) ← readWidth f rest args
    let (f, rest, args) ← readPrecision f rest args
    let (len, rest) := readLength rest
    let (s, rest, args) ← convert emitDouble s f len ('%' :: at') rest args
    formatLoop turns s rest args
  | turns + 1, s, c :: at', args => formatLoop turns (s.put c) at' args

structure Printed where
  text : Text
  returned : Int
  deriving DecidableEq

/-- The text up to its NUL, which is written where there is any room, and what would have been
written as an `int`. -/
def vsnprintf (room : Nat) (format : Text) (args : List (Arg Double)) : Option Printed :=
  (formatLoop emitDouble format.length ⟨room, [], 0⟩ format args).map fun s =>
    ⟨s.out, (s.wanted : Int).bmod (2 ^ 32)⟩

end

/-! ## What a number is printed as -/

theorem digitsLoop_eq {base : Nat} (big : 1 < base) (upper : Bool) {room value : Nat}
    (fits : value < base ^ room) :
    digitsLoop base upper room value = (Nat.digits base value).map (digitChar upper) := by
  induction room generalizing value with
  | zero =>
    obtain rfl : value = 0 := by simpa using fits
    simp [digitsLoop]
  | succ room ih =>
    by_cases zero : value = 0
    · simp [digitsLoop, zero]
    · have less : value / base < base ^ room :=
        Nat.div_lt_of_lt_mul (by rwa [Nat.pow_succ, Nat.mul_comm] at fits)
      rw [Nat.digits_def' big (by omega)]
      simp only [digitsLoop, zero, ↓reduceIte, ih less, List.map_cons]

theorem digitValue_digitChar : ∀ d < 16, ∀ upper, digitValue (digitChar upper d) = some d := by
  decide

theorem digitIn_digitChar {base d : Nat} (upper : Bool) (small : base ≤ 16) (digit : d < base) :
    digitIn base (digitChar upper d) = some d := by
  have whole := digitValue_digitChar d (by omega) upper
  simp only [digitIn, whole, Option.filter_some, digit, decide_true, ↓reduceIte]

/-- The digits of a 64-bit value, in a base the engine uses. -/
theorem digitsOf_eq {base v : Nat} (upper : Bool) (big : 8 ≤ base) (range : v < 2 ^ 64)
    (nonzero : v ≠ 0) :
    (digitsOf v base upper).reverse = ((Nat.digits base v).reverse).map (digitChar upper) := by
  have fits : v < base ^ digitsMax :=
    calc v < 2 ^ 64 := range
      _ ≤ 8 ^ digitsMax := by decide
      _ ≤ base ^ digitsMax := Nat.pow_le_pow_left big _
  simp only [digitsOf, nonzero, ↓reduceIte, digitsLoop_eq (by omega) upper fits, List.map_reverse]

theorem digitsOf_spells {base v : Nat} (upper : Bool) (big : 8 ≤ base) (small : base ≤ 16)
    (range : v < 2 ^ 64) : Spells base (digitsOf v base upper).reverse v := by
  by_cases zero : v = 0
  · subst zero
    have digit := digitIn_digitChar false small (show 0 < base by omega)
    exact ⟨by simp [digitsOf], [0], by simpa [digitsOf, digitChar] using digit, by simp⟩
  · rw [digitsOf_eq upper big range zero]
    refine ⟨by simpa using Nat.digits_ne_nil_iff_ne_zero.mpr zero, (Nat.digits base v).reverse, ?_,
      Numeral.value_digits base v⟩
    rw [List.map_map]
    apply List.map_congr_left
    intro d inside
    have digit := Nat.digits_lt_base (by omega) (List.mem_reverse.mp inside)
    exact digitIn_digitChar upper small digit

theorem digitsOf_leading {base v : Nat} (upper : Bool) (big : 8 ≤ base) (small : base ≤ 16)
    (range : v < 2 ^ 64) (nonzero : v ≠ 0) :
    (digitsOf v base upper).reverse[0]? ≠ some '0' := by
  have some_digit : Nat.digits base v ≠ [] := Nat.digits_ne_nil_iff_ne_zero.mpr nonzero
  have last := Nat.getLast_digit_ne_zero base nonzero
  have below : (Nat.digits base v).getLast some_digit < base :=
    Nat.digits_lt_base (by omega) (List.getLast_mem some_digit)
  rw [digitsOf_eq upper big range nonzero, List.getElem?_map, ← List.head?_eq_getElem?,
    List.head?_reverse, List.getLast?_eq_some_getLast some_digit]
  intro zero
  have is_zero : digitChar upper ((Nat.digits base v).getLast some_digit) = '0' := by
    simpa using zero
  have value := digitValue_digitChar _ (Nat.lt_of_lt_of_le below small) upper
  rw [is_zero] at value
  have : ((Nat.digits base v).getLast some_digit) = 0 := by
    simpa using (Option.some.inj (value.symm.trans (by decide : digitValue '0' = some 0)))
  exact last this

theorem digitsLoop_length (base : Nat) (upper : Bool) (room value : Nat) :
    (digitsLoop base upper room value).length ≤ room := by
  induction room generalizing value with
  | zero => simp [digitsLoop]
  | succ room ih =>
    have rest := ih (value / base)
    simp only [digitsLoop]
    split <;> simp
    exact rest

theorem digitsOf_length (base : Nat) (upper : Bool) (value : Nat) :
    (digitsOf value base upper).length ≤ digitsMax := by
  simp only [digitsOf]
  split
  · decide
  · exact digitsLoop_length base upper digitsMax value

/-- A number with no precision, on the right of its field. -/
theorem emitNumber_text (s : Sink) {f : Spec} (rev sign lead : Text) (right : f.left = false)
    (plain : f.precision = none) :
    ∃ pad zeros, emitNumber s f rev sign lead = s.putBytes (List.replicate pad ' ' ++
        (sign ++ lead ++ (List.replicate zeros '0' ++ rev.reverse))) ∧
      (f.zero = false → zeros = 0) ∧
      pad + (sign.length + lead.length + (zeros + rev.length)) =
        max f.width (sign.length + lead.length + rev.length) := by
  by_cases fill : f.zero = true ∧ sign.length + lead.length + rev.length < f.width
  · refine ⟨0, f.width - (sign.length + lead.length + rev.length), ?_, by simp [fill.1], by omega⟩
    simp [emitNumber, right, plain, fill.1, fill.2, Sink.putRepeat, putBytes_append]
  · refine ⟨f.width - (sign.length + lead.length + rev.length), 0, ?_, fun _ => rfl, by omega⟩
    have unfilled : (f.zero && decide (sign.length + lead.length + rev.length < f.width)) = false := by
      simpa using fill
    simp [emitNumber, right, plain, unfilled, Sink.putRepeat, putBytes_append]

end ReconOS.Libc
