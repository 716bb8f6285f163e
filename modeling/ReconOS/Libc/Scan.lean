import ReconOS.Libc.Format

/-! `vsscanf`: values out of text, as a format says. -/
namespace ReconOS.Libc

def numberMax : Nat := 96

/-- The digits offered after `n` characters. `taken` of the field's width is `n` too. Base 0 decides
itself from the prefix, so it is offered everything up to a hex digit. -/
def gatherDigits (room width base : Nat) : Nat → Text → Text
  | _, [] => []
  | n, c :: p =>
    if n + 1 < room ∧ (width = 0 ∨ n < width) ∧
        (digitIn (if base = 0 then 16 else base) c).isSome then
      c :: gatherDigits room width base (n + 1) p
    else []

/-- How much text to offer to `strtol`. -/
def gatherNumber (at' : Text) (room width base : Nat) (allowSign : Bool) : Text :=
  let sign := if allowSign ∧ isSign at'[0]? ∧ (width = 0 ∨ 0 < width) then at'.take 1 else []
  let p := at'.drop sign.length
  let lead :=
    if (base = 16 ∨ base = 0) ∧ p[0]? = some '0' ∧ (p[1]? = some 'x' ∨ p[1]? = some 'X') ∧
        (width = 0 ∨ sign.length + 2 ≤ width) ∧ sign.length + 2 < room then p.take 2
    else []
  sign ++ lead ++ gatherDigits room width base (sign.length + lead.length) (p.drop lead.length)

/-- What one conversion writes through its pointer. -/
inductive Stored (Double : Type) where
  | int (v : Int)
  | chars (cs : Text) (ended : Bool)
  | double (narrow : Bool) (d : Double)
  deriving DecidableEq

section
variable {Double : Type}

def storeSigned (len : Length) (v : Int) : Stored Double :=
  match len with
  | .size => .int (BitVec.ofInt 64 v).toNat
  | len => .int (len.signed (BitVec.ofInt 64 v))

def storeUnsigned (len : Length) (v : Nat) : Stored Double :=
  .int (len.unsigned (BitVec.ofNat 64 v))

/-- `struct scan`, and what has been stored so far, in the order of the pointers. -/
structure Scan (Double : Type) where
  start : Text
  at' : Text
  stored : List (Stored Double)
  assigned : Nat
  ranOut : Bool

def Scan.skipSpace (s : Scan Double) : Scan Double := { s with at' := s.at'.dropWhile isSpace }

def Scan.store (s : Scan Double) (suppress : Bool) (v : Stored Double) : Scan Double :=
  if suppress then s else { s with stored := s.stored ++ [v], assigned := s.assigned + 1 }

/-- An integer conversion. An error is a `goto done`. -/
def scanNumber (s : Scan Double) (suppress : Bool) (width : Nat) (len : Length) (isSigned : Bool)
    (base : Nat) : Except (Scan Double) (Scan Double) :=
  let s := s.skipSpace
  if s.at' = [] then .error { s with ranOut := true }
  else
    let buffer := gatherNumber s.at' numberMax width base true
    if buffer = [] then .error s
    else
      let r : Stored Double × Text :=
        if isSigned then (storeSigned len (strtol buffer base).1, (strtol buffer base).2)
        else (storeUnsigned len (strtoull buffer base).1, (strtoull buffer base).2)
      if r.2 = buffer then .error s
      else .ok ({ s with at' := s.at'.drop (buffer.length - r.2.length) }.store suppress r.1)

/-- A floating conversion: the text is copied generously, and `strtod` decides where it ends. -/
def scanDouble (strtod : Text → Double × Text) (s : Scan Double) (suppress : Bool) (width : Nat)
    (len : Length) : Except (Scan Double) (Scan Double) :=
  let s := s.skipSpace
  if s.at' = [] then .error { s with ranOut := true }
  else
    let longest := if width = 0 then numberMax - 1 else min (numberMax - 1) width
    let buffer := (s.at'.take longest).takeWhile fun c => !isSpace c
    let (value, rest) := strtod buffer
    let narrow := match len with
      | .long | .llong => false
      | _ => true
    if rest = buffer then .error s
    else
      .ok ({ s with at' := s.at'.drop (buffer.length - rest.length) }.store suppress
        (.double narrow value))

def scanString (s : Scan Double) (suppress : Bool) (width : Nat) :
    Except (Scan Double) (Scan Double) :=
  let s := s.skipSpace
  if s.at' = [] then .error { s with ranOut := true }
  else
    let run := (if width = 0 then s.at' else s.at'.take width).takeWhile fun c => !isSpace c
    if run = [] then .error s
    else .ok ({ s with at' := s.at'.drop run.length }.store suppress (.chars run true))

/-- No leading space is skipped. What was there is written even when it was not enough. -/
def scanChars (s : Scan Double) (suppress : Bool) (width : Nat) :
    Except (Scan Double) (Scan Double) :=
  let wanted := if width = 0 then 1 else width
  if s.at' = [] then .error { s with ranOut := true }
  else
    let run := s.at'.take wanted
    let s := { s with at' := s.at'.drop wanted }
    if run.length < wanted then
      .error (if suppress then s else { s with stored := s.stored ++ [.chars run false] })
    else .ok (s.store suppress (.chars run false))

/-- How far the scan has got, which is not an assignment. -/
def scanCount (s : Scan Double) (suppress : Bool) (len : Length) : Scan Double :=
  if suppress then s
  else { s with stored := s.stored ++ [storeSigned len (s.start.length - s.at'.length)] }

def scanLength : Text → Length × Text
  | 'h' :: 'h' :: f => (.char, f)
  | 'h' :: f => (.short, f)
  | 'l' :: 'l' :: f => (.llong, f)
  | 'l' :: f => (.long, f)
  | 'z' :: f => (.size, f)
  | 'j' :: f => (.llong, f)
  | f => (.int, f)

variable (strtod : Text → Double × Text)

/-- One conversion. One this does not have stops the scan. -/
def scanConvert (s : Scan Double) (suppress : Bool) (width : Nat) (len : Length) (c : Char) :
    Except (Scan Double) (Scan Double) :=
  if c ∈ ['d', 'i', 'u', 'o', 'x', 'X'] then
    let base := if c = 'i' then 0 else if c = 'o' then 8 else if c = 'x' ∨ c = 'X' then 16 else 10
    scanNumber s suppress width len (c = 'd' ∨ c = 'i') base
  else if c ∈ ['f', 'e', 'E', 'g', 'G', 'a'] then scanDouble strtod s suppress width len
  else if c = 's' then scanString s suppress width
  else if c = 'c' then scanChars s suppress width
  else if c = 'n' then .ok (scanCount s suppress len)
  else .error s

/-- The format, a character of it at least each turn. -/
def scanLoop : Nat → Scan Double → Text → Scan Double
  | 0, s, _ => s
  | _, s, [] => s
  | turns + 1, s, '%' :: '%' :: f =>
    if s.at'[0]? = some '%' then scanLoop turns { s with at' := s.at'.drop 1 } f else s
  | turns + 1, s, '%' :: f =>
    let suppress : Bool := f[0]? = some '*'
    let (width, f) := readNat 0 (if suppress then f.drop 1 else f)
    let (len, f) := scanLength f
    match f with
    | [] => s
    | c :: f =>
      match scanConvert strtod s suppress (width % 2 ^ 32) len c with
      | .error s => s
      | .ok s => scanLoop turns s f
  | turns + 1, s, c :: f =>
    if isSpace c then scanLoop turns s.skipSpace (f.dropWhile isSpace)
    else if s.at'[0]? = some c then scanLoop turns { s with at' := s.at'.drop 1 } f
    else { s with ranOut := s.ranOut || s.at' = [] }

/-- EOF when the input ran out before anything was converted. -/
def vsscanf (text format : Text) : Int × List (Stored Double) :=
  let s := scanLoop strtod format.length ⟨text, text, [], 0, false⟩ format
  (if s.assigned = 0 ∧ s.ranOut then -1 else s.assigned, s.stored)

end

/-! ## A number is gathered whole -/

theorem gatherDigits_all {room base n : Nat} {cs : Text}
    (digits : ∀ c ∈ cs, (digitIn (if base = 0 then 16 else base) c).isSome)
    (fits : n + cs.length < room) : gatherDigits room 0 base n cs = cs := by
  induction cs generalizing n with
  | nil => rfl
  | cons c cs ih =>
    rw [List.length_cons] at fits
    have here := digits c List.mem_cons_self
    have later := ih (n := n + 1) (fun c inside => digits c (List.mem_cons_of_mem _ inside))
      (by omega)
    simp only [gatherDigits, show n + 1 < room by omega, true_or, here, and_self, ↓reduceIte, later]

theorem gatherNumber_whole {base b : Nat} {sign lead cs : Text}
    (numeral : NumeralText base b sign lead cs)
    (leads : lead = [] ∨ (base = 16 ∨ base = 0) ∧ lead ∈ [['0', 'x'], ['0', 'X']])
    (digits : ∀ c ∈ cs, (digitIn (if base = 0 then 16 else base) c).isSome)
    (fits : (sign ++ lead ++ cs).length < numberMax) :
    gatherNumber (sign ++ lead ++ cs) numberMax 0 base true = sign ++ lead ++ cs := by
  obtain ⟨c, first, digit⟩ := numeral.front
  have unsigned : isSign (lead ++ cs)[0]? = false := by rw [first]; exact digit_not_sign digit
  have signed : (if isSign (sign ++ lead ++ cs)[0]? then (sign ++ lead ++ cs).take 1 else []) =
      sign := by
    have signs := numeral.sign
    simp only [List.mem_cons, List.not_mem_nil, or_false] at signs
    rcases signs with rfl | rfl | rfl
    · simp only [List.nil_append, unsigned, Bool.false_eq_true, ↓reduceIte]
    · simp [isSign]
    · simp [isSign]
  have past : (sign ++ lead ++ cs).drop sign.length = lead ++ cs := by simp
  simp only [List.length_append] at fits
  simp only [gatherNumber, true_and, true_or, and_true, signed, past]
  rcases leads with rfl | ⟨based, leads⟩
  · simp only [List.nil_append, List.append_nil]
    split
    · rename_i two
      have rest (c : Char) (inside : c ∈ cs.drop (cs.take 2).length) :=
        digits c (List.mem_of_mem_drop inside)
      have all := gatherDigits_all rest
        (show sign.length + (cs.take 2).length + (cs.drop (cs.take 2).length).length < numberMax by
          simp at fits ⊢
          omega)
      have long : 2 ≤ cs.length := by
        rcases two.2.2.1 with letter | letter <;> exact (List.getElem?_eq_some_iff.mp letter).1
      rw [all, List.append_assoc, List.length_take, Nat.min_eq_left long, List.take_append_drop]
    · have all := gatherDigits_all digits
        (show sign.length + cs.length < numberMax by simpa using fits)
      simp [all]
  · have two : lead.length = 2 ∧ (lead ++ cs).take 2 = lead ∧ (lead ++ cs)[0]? = some '0' ∧
        ((lead ++ cs)[1]? = some 'x' ∨ (lead ++ cs)[1]? = some 'X') := by
      simp only [List.mem_cons, List.not_mem_nil, or_false] at leads
      rcases leads with rfl | rfl <;> simp
    obtain ⟨length, taken, zero, letter⟩ := two
    have room : sign.length + 2 < numberMax := by omega
    have all := gatherDigits_all digits
      (show sign.length + lead.length + cs.length < numberMax by omega)
    simp only [based, zero, letter, room, and_self, ↓reduceIte, taken, List.drop_left, all]

end ReconOS.Libc
