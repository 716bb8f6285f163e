import Mathlib.Data.List.Basic

/-! Expressions, evaluated as they are parsed. -/
namespace ReconOS.Expr

abbrev Text := List Char

/-- A `double` and what is done with one. `strtod` is the number that a text begins with, and how
much of the text that is. -/
structure Arith (V : Type) where
  zero : V
  one : V
  pi : V
  e : V
  add : V → V → V
  sub : V → V → V
  mul : V → V → V
  div : V → V → V
  pow : V → V → V
  neg : V → V
  call : Text → V → V
  isFinite : V → Bool
  isZero : V → Bool
  strtod : Text → V × Nat
  strtod_le : ∀ text, (strtod text).2 ≤ text.length

/-- The names in `FUNCTIONS`. -/
def functions : List Text :=
  ["sin".toList, "cos".toList, "tan".toList, "asin".toList, "acos".toList, "atan".toList,
    "sqrt".toList, "cbrt".toList, "ln".toList, "log".toList, "exp".toList, "abs".toList,
    "floor".toList, "ceil".toList, "round".toList]

/-- `struct parser`, but for the variable; `why` is there where `bad` is set. -/
structure Parser where
  rest : Text
  ended : Bool
  undefined : Bool
  why : Option Text
  deriving DecidableEq

namespace Parser

variable (p : Parser)

def bad : Bool := p.why.isSome

/-- The first complaint is kept. -/
def fail (what : Text) : Parser :=
  if p.bad then p else { p with why := some (what.take 127) }

def skip : Parser := { p with rest := p.rest.dropWhile fun c => c = ' ' || c = '\t' }

def past (rest : Text) : Parser := { p with rest := rest }

end Parser

/-- A value begins here: a letter or an opening bracket, and not a digit. -/
def aValueBegins : Text → Bool
  | c :: _ => c.isAlpha || c = '('
  | [] => false

/-- The letters a name is read of, and what is left. A name has room for fifteen. -/
def nameAt (text : Text) : Text × Text :=
  let letters := (text.takeWhile Char.isAlpha).take 15
  (letters.map Char.toLower, text.drop letters.length)

variable {V : Type} (M : Arith V) (x : V) (var : Text)

def checked (p : Parser) (v : V) : V × Parser :=
  if M.isFinite v then (v, p) else (M.zero, { p with undefined := true })

/-- What a name is that has no argument. -/
def named (name : Text) : Option V :=
  if name = "x".toList then some x
  else if name = "pi".toList then some M.pi
  else if name = "e".toList then some M.e
  else if var ≠ [] ∧ name = var then some x
  else none

def callFunction (p : Parser) (name : Text) (arg : V) : V × Parser :=
  if name ∈ functions then checked M p (M.call name arg)
  else (M.zero, p.fail ("There is no function called '".toList ++ name ++ "'.".toList))

/-- A quotient; the asymptote is no error. -/
def quotient (left right : V) (p : Parser) : V × Parser :=
  if M.isZero right then (M.zero, { p with undefined := true }) else checked M p (M.div left right)

/-! ## Descent -/

mutual

/-- The answer is `none` where the recursion has not come to its end. -/
def parseExpression : Nat → Parser → Option (V × Parser)
  | 0, _ => none
  | n + 1, p => (parseTerm n p).bind fun r => moreTerms n r.1 r.2

def moreTerms : Nat → V → Parser → Option (V × Parser)
  | 0, _, _ => none
  | n + 1, left, p =>
    match p.skip.rest with
    | '+' :: rest => (parseTerm n (p.skip.past rest)).bind fun r =>
      nextTerm n (checked M r.2 (M.add left r.1))
    | '-' :: rest => (parseTerm n (p.skip.past rest)).bind fun r =>
      nextTerm n (checked M r.2 (M.sub left r.1))
    | _ => some (left, p.skip)

def nextTerm : Nat → V × Parser → Option (V × Parser)
  | 0, _ => none
  | n + 1, r => if r.2.bad then some (M.zero, r.2) else moreTerms n r.1 r.2

def parseTerm : Nat → Parser → Option (V × Parser)
  | 0, _ => none
  | n + 1, p => (parseUnary n p).bind fun r => moreFactors n r.1 r.2

def moreFactors : Nat → V → Parser → Option (V × Parser)
  | 0, _, _ => none
  | n + 1, left, p =>
    match p.skip.rest with
    | '*' :: rest => (parseUnary n (p.skip.past rest)).bind fun r =>
      nextFactor n (checked M r.2 (M.mul left r.1))
    | '/' :: rest => (parseUnary n (p.skip.past rest)).bind fun r =>
      nextFactor n (quotient M left r.1 r.2)
    | rest =>
      if p.ended && aValueBegins rest then
        (parseUnary n p.skip).bind fun r => nextFactor n (checked M r.2 (M.mul left r.1))
      else some (left, p.skip)

def nextFactor : Nat → V × Parser → Option (V × Parser)
  | 0, _ => none
  | n + 1, r => if r.2.bad then some (M.zero, r.2) else moreFactors n r.1 r.2

def parseUnary : Nat → Parser → Option (V × Parser)
  | 0, _ => none
  | n + 1, p =>
    match p.skip.rest with
    | '-' :: rest => (parseUnary n (p.skip.past rest)).map fun r => (M.neg r.1, r.2)
    | '+' :: rest => parseUnary n (p.skip.past rest)
    | _ => parsePower n p.skip

def parsePower : Nat → Parser → Option (V × Parser)
  | 0, _ => none
  | n + 1, p => (parsePrimary n p).bind fun r =>
    match r.2.skip.rest with
    | '^' :: rest => (parseUnary n (r.2.skip.past rest)).map fun s => checked M s.2 (M.pow r.1 s.1)
    | _ => some (r.1, r.2.skip)

def parsePrimary : Nat → Parser → Option (V × Parser)
  | 0, _ => none
  | n + 1, p => (parsePrimaryValue n { p with ended := false }).map fun r =>
    (r.1, { r.2 with ended := !r.2.bad })

def parsePrimaryValue : Nat → Parser → Option (V × Parser)
  | 0, _ => none
  | n + 1, p =>
    match p.skip.rest with
    | [] => some (M.zero, p.skip.fail "The expression stops before it says anything.".toList)
    | '(' :: rest => (parseExpression n (p.skip.past rest)).map fun r =>
      match r.2.skip.rest with
      | ')' :: rest => (r.1, r.2.skip.past rest)
      | _ => (r.1, r.2.skip.fail "A bracket was opened and not closed.".toList)
    | c :: rest =>
      if c.isDigit || c = '.' then
        if (M.strtod (c :: rest)).2 = 0 then
          some (M.zero, p.skip.fail "That is not a number.".toList)
        else
          some ((M.strtod (c :: rest)).1, p.skip.past ((c :: rest).drop (M.strtod (c :: rest)).2))
      else if c.isAlpha then parseName n (p.skip.past (nameAt (c :: rest)).2) (nameAt (c :: rest)).1
      else some (M.zero, p.skip.fail ("'".toList ++ c :: "' does not belong here.".toList))

/-- What a name that has been read is, or is applied to. -/
def parseName : Nat → Parser → Text → Option (V × Parser)
  | 0, _, _ => none
  | n + 1, p, name =>
    match named M x var name with
    | some v => some (v, p)
    | none =>
      match p.skip.rest with
      | '(' :: rest => (parseExpression n (p.skip.past rest)).map fun r =>
        match r.2.skip.rest with
        | ')' :: rest => callFunction M (r.2.skip.past rest) name r.1
        | _ => (M.zero, r.2.skip.fail "A function's bracket was opened and not closed.".toList)
      | _ =>
        some (M.zero, p.skip.fail ("'".toList ++ name ++ "' is not something this knows.".toList))

end

/-! ## The whole text -/

/-- What an expression comes to. -/
inductive Outcome (V : Type) where
  | ok (v : V)
  | bad (why : Text)
  | undefined
  deriving DecidableEq

/-- What is made of where the parsing ended. -/
def outcome (r : V × Parser) : Outcome V :=
  let p := if r.2.bad then r.2
    else match r.2.skip.rest with
      | [] => r.2.skip
      | left => r.2.skip.fail
          ("There is '".toList ++ left ++ "' left over at the end.".toList)
  match p.why with
  | some why => .bad why
  | none => if p.undefined || !M.isFinite r.1 then .undefined else .ok r.1

/-- What the caller's variable is called: as much of its name as there is room for. -/
def variableName (name : Text) : Text := (name.take 15).map Char.toLower

/-- A recursion deep enough for a text. -/
def enough (text : Text) : Nat := 10 * text.length + 10

/-- `recon_expr_eval_named`. -/
def evalNamed (text name : Text) : Option (Outcome V) :=
  if text = [] then some (.bad "There is nothing to work out.".toList)
  else (parseExpression M x (variableName name) (enough text) ⟨text, false, false, none⟩).map
    (outcome M)

/-- `recon_expr_valid_named`. -/
def validNamed (text name : Text) : Bool :=
  match evalNamed M M.one text name with
  | some (.bad _) => false
  | _ => true

end ReconOS.Expr

/-! The grammar, and what a tree of it means. -/
namespace ReconOS.Expr

variable {V : Type}

inductive Tree (V : Type) where
  | number (v : V)
  | x
  | pi
  | e
  | neg (t : Tree V)
  | add (t u : Tree V)
  | sub (t u : Tree V)
  | mul (t u : Tree V)
  | div (t u : Tree V)
  | pow (t u : Tree V)
  | call (name : Text) (t : Tree V)

namespace Arith

variable (M : Arith V)

def check (v : V) : Option V := if M.isFinite v then some v else none

def quotient? (a b : V) : Option V := if M.isZero b then none else M.check (M.div a b)

/-- The whole of an expression has to be finite as well. -/
def finish : Option V → Outcome V
  | none => .undefined
  | some v => if M.isFinite v then .ok v else .undefined

end Arith

variable (M : Arith V) (x : V) (var : Text)

/-- What a tree comes to; there is no value where any part of it has none. -/
def meaning : Tree V → Option V
  | .number v => some v
  | .x => some x
  | .pi => some M.pi
  | .e => some M.e
  | .neg t => (meaning t).map M.neg
  | .add t u => (meaning t).bind fun a => (meaning u).bind fun b => M.check (M.add a b)
  | .sub t u => (meaning t).bind fun a => (meaning u).bind fun b => M.check (M.sub a b)
  | .mul t u => (meaning t).bind fun a => (meaning u).bind fun b => M.check (M.mul a b)
  | .div t u => (meaning t).bind fun a => (meaning u).bind fun b => M.quotient? a b
  | .pow t u => (meaning t).bind fun a => (meaning u).bind fun b => M.check (M.pow a b)
  | .call name t => (meaning t).bind fun a => M.check (M.call name a)

/-- Lowest binding first. -/
inductive Level where
  | expression
  | term
  | unary
  | power
  | primary

def Blank (c : Char) : Prop := c = ' ' ∨ c = '\t'

/-- A text spells a tree. There may be blanks before anything and after it. -/
inductive Spells : Level → Tree V → Text → Prop where
  | before {l t a c} (blank : Blank c) (s : Spells l t a) : Spells l t (c :: a)
  | after {l t a c} (blank : Blank c) (s : Spells l t a) : Spells l t (a ++ [c])
  | term {t a} (s : Spells .term t a) : Spells .expression t a
  | add {t u a b} (s : Spells .expression t a) (s' : Spells .term u b) :
    Spells .expression (.add t u) (a ++ '+' :: b)
  | sub {t u a b} (s : Spells .expression t a) (s' : Spells .term u b) :
    Spells .expression (.sub t u) (a ++ '-' :: b)
  | unary {t a} (s : Spells .unary t a) : Spells .term t a
  | mul {t u a b} (s : Spells .term t a) (s' : Spells .unary u b) :
    Spells .term (.mul t u) (a ++ '*' :: b)
  | div {t u a b} (s : Spells .term t a) (s' : Spells .unary u b) :
    Spells .term (.div t u) (a ++ '/' :: b)
  /-- Multiplication that nobody wrote. -/
  | times {t u a b} (s : Spells .term t a) (s' : Spells .unary u b)
    (begins : aValueBegins b = true) : Spells .term (.mul t u) (a ++ b)
  | power {t a} (s : Spells .power t a) : Spells .unary t a
  | minus {t a} (s : Spells .unary t a) : Spells .unary (.neg t) ('-' :: a)
  | plus {t a} (s : Spells .unary t a) : Spells .unary t ('+' :: a)
  | primary {t a} (s : Spells .primary t a) : Spells .power t a
  | pow {t u a b} (s : Spells .primary t a) (s' : Spells .unary u b) :
    Spells .power (.pow t u) (a ++ '^' :: b)
  | number {a : Text} (rest : Text) (any : a ≠ []) (is : (M.strtod (a ++ rest)).2 = a.length) :
    Spells .primary (.number (M.strtod (a ++ rest)).1) a
  | x {a : Text} (letters : ∀ c ∈ a, c.isAlpha = true) (any : a ≠ [])
    (is : a.map Char.toLower = "x".toList ∨ a.map Char.toLower = var) : Spells .primary .x a
  | pi {a : Text} (is : a.map Char.toLower = "pi".toList) : Spells .primary .pi a
  | e {a : Text} (is : a.map Char.toLower = "e".toList) : Spells .primary .e a
  | brackets {t a} (s : Spells .expression t a) : Spells .primary t ('(' :: a ++ [')'])
  | call {t a} {name blanks : Text} (is : name.map Char.toLower ∈ functions)
    (blank : ∀ c ∈ blanks, Blank c) (s : Spells .expression t a) :
    Spells .primary (.call (name.map Char.toLower) t) (name ++ blanks ++ '(' :: a ++ [')'])

variable {M x var} {l : Level} {t u : Tree V} {a : Text}

theorem Spells.ne_nil (s : Spells M var l t a) : a ≠ [] := by
  induction s with
  | before => exact List.cons_ne_nil _ _
  | after | add | sub | mul | div | pow | call | brackets => simp
  | term _ ih | unary _ ih | power _ ih | primary _ ih => exact ih
  | times _ _ _ ih _ => simp [ih]
  | minus | plus => exact List.cons_ne_nil _ _
  | number rest any is => exact any
  | x letters any is => exact any
  | pi is | e is =>
    rintro rfl
    cases is

theorem Spells.befores (s : Spells M var l t a) :
    ∀ blanks : Text, (∀ c ∈ blanks, Blank c) → Spells M var l t (blanks ++ a)
  | [], _ => s
  | _ :: blanks, blank => .before (blank _ List.mem_cons_self)
    (s.befores blanks fun c mem => blank c (List.mem_cons_of_mem _ mem))

theorem Spells.afters (blanks : Text) :
    ∀ {a : Text}, (∀ c ∈ blanks, Blank c) → Spells M var l t a →
      Spells M var l t (a ++ blanks) := by
  induction blanks with
  | nil =>
    intro a _ s
    rw [List.append_nil]
    exact s
  | cons c blanks ih =>
    intro a blank s
    have more := ih (fun d mem => blank d (List.mem_cons_of_mem _ mem))
      (Spells.after (blank c List.mem_cons_self) s)
    rwa [List.append_assoc] at more

/-! ## Values -/

/-- A value read, and whether there is one, are what a tree means; `before` is whether there was
none already. -/
structure Means (M : Arith V) (x : V) (t : Tree V) (v : V) (before after : Bool) : Prop where
  undefined : after = (before || (meaning M x t).isNone)
  value : ∀ w, meaning M x t = some w → v = w

/-- A value, or the note that there is none. -/
def keep (M : Arith V) (p : Parser) : Option V → V × Parser
  | some v => (v, p)
  | none => (M.zero, { p with undefined := true })

theorem checked_eq (p : Parser) (v : V) : checked M p v = keep M p (M.check v) := by
  unfold checked Arith.check
  split
  · rfl
  · rfl

theorem quotient_eq (p : Parser) (left right : V) :
    quotient M left right p = keep M p (M.quotient? left right) := by
  unfold quotient Arith.quotient?
  split
  · rfl
  · exact checked_eq p _

@[simp] theorem keep_rest (p : Parser) (o : Option V) : (keep M p o).2.rest = p.rest := by
  cases o with
  | none => rfl
  | some v => rfl

@[simp] theorem keep_why (p : Parser) (o : Option V) : (keep M p o).2.why = p.why := by
  cases o with
  | none => rfl
  | some v => rfl

theorem keep_undefined (p : Parser) (o : Option V) :
    (keep M p o).2.undefined = (p.undefined || o.isNone) := by
  cases o with
  | none => exact (Bool.or_true _).symm
  | some v => exact (Bool.or_false _).symm

theorem keep_value (p : Parser) (o : Option V) {w : V} (is : o = some w) : (keep M p o).1 = w := by
  rw [is]
  rfl

namespace Means

variable {v b : V} {first second : Bool}

theorem of_some (is : meaning M x t = some v) : Means M x t v first first := by
  constructor
  · rw [is, Option.isNone_some, Bool.or_false]
  · intro w is'
    rw [is] at is'
    exact Option.some.inj is'

theorem neg (h : Means M x t v first second) : Means M x (.neg t) (M.neg v) first second := by
  constructor
  · rw [h.undefined, meaning, Option.isNone_map]
  · intro w is
    rw [meaning, Option.map_eq_some_iff] at is
    obtain ⟨v', is, rfl⟩ := is
    rw [h.value v' is]

/-- One operand; where there is none, nothing is made of what stands for it. -/
theorem one {p : Parser} (op : V → Option V) (h : Means M x t v first p.undefined)
    (is : meaning M x u = (meaning M x t).bind op) :
    Means M x u (keep M p (op v)).1 first (keep M p (op v)).2.undefined := by
  cases some_ : meaning M x t with
  | none =>
    rw [some_, Option.bind_none] at is
    have undefined := h.undefined
    rw [some_, Option.isNone_none, Bool.or_true] at undefined
    constructor
    · rw [keep_undefined, undefined, is, Option.isNone_none, Bool.true_or, Bool.or_true]
    · intro w is'
      rw [is] at is'
      cases is'
  | some v' =>
    have same := h.value v' some_
    have undefined := h.undefined
    rw [some_, Option.isNone_some, Bool.or_false] at undefined
    rw [some_, Option.bind_some, ← same] at is
    constructor
    · rw [keep_undefined, undefined, is]
    · intro w is'
      rw [is] at is'
      exact keep_value p _ is'

/-- Two operands, the second read after the first. -/
theorem two {s : Tree V} {p : Parser} (op : V → V → Option V)
    (h : Means M x t v first second) (h' : Means M x u b second p.undefined)
    (is : meaning M x s = (meaning M x t).bind fun a => (meaning M x u).bind fun b => op a b) :
    Means M x s (keep M p (op v b)).1 first (keep M p (op v b)).2.undefined := by
  cases some_ : meaning M x t with
  | none =>
    rw [some_, Option.bind_none] at is
    have undefined := h.undefined
    rw [some_, Option.isNone_none, Bool.or_true] at undefined
    constructor
    · rw [keep_undefined, h'.undefined, undefined, is, Option.isNone_none, Bool.true_or,
        Bool.true_or, Bool.or_true]
    · intro w is'
      rw [is] at is'
      cases is'
  | some v' =>
    have undefined := h.undefined
    rw [some_, Option.isNone_some, Bool.or_false] at undefined
    rw [some_, Option.bind_some, ← h.value v' some_] at is
    rw [undefined] at h'
    exact h'.one (op v) is

end Means

end ReconOS.Expr
