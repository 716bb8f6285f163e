import ReconOS.Expr.Everywhere

/-! Trees written out, with the brackets that are needed, and read again. -/
namespace ReconOS.Expr

variable {V : Type} (M : Arith V) (x : V) (var : Text)

/-! ## A deeper recursion comes to the same -/

structure Deeper (n : Nat) : Prop where
  expression : ∀ {p r}, parseExpression M x var n p = some r →
    parseExpression M x var (n + 1) p = some r
  moreTerms : ∀ {v p r}, moreTerms M x var n v p = some r → moreTerms M x var (n + 1) v p = some r
  nextTerm : ∀ {r s}, nextTerm M x var n r = some s → nextTerm M x var (n + 1) r = some s
  term : ∀ {p r}, parseTerm M x var n p = some r → parseTerm M x var (n + 1) p = some r
  moreFactors : ∀ {v p r}, moreFactors M x var n v p = some r →
    moreFactors M x var (n + 1) v p = some r
  nextFactor : ∀ {r s}, nextFactor M x var n r = some s → nextFactor M x var (n + 1) r = some s
  unary : ∀ {p r}, parseUnary M x var n p = some r → parseUnary M x var (n + 1) p = some r
  power : ∀ {p r}, parsePower M x var n p = some r → parsePower M x var (n + 1) p = some r
  primary : ∀ {p r}, parsePrimary M x var n p = some r → parsePrimary M x var (n + 1) p = some r
  value : ∀ {p r}, parsePrimaryValue M x var n p = some r →
    parsePrimaryValue M x var (n + 1) p = some r
  name : ∀ {p name r}, parseName M x var n p name = some r →
    parseName M x var (n + 1) p name = some r

section
variable {M x var}

/-- What is done first, and then with its result, is done as well where both may go deeper. -/
theorem bind_deeper {R S : Type} {o o' : Option R} {f g : R → Option S} {s : S}
    (h : o.bind f = some s) (first : ∀ r, o = some r → o' = some r)
    (next : ∀ r, f r = some s → g r = some s) : o'.bind g = some s := by
  rw [Option.bind_eq_some_iff] at h ⊢
  obtain ⟨r, is, more⟩ := h
  exact ⟨r, first r is, next r more⟩

theorem map_deeper {R S : Type} {o o' : Option R} {f : R → S} {s : S}
    (h : o.map f = some s) (first : ∀ r, o = some r → o' = some r) : o'.map f = some s := by
  rw [Option.map_eq_some_iff] at h ⊢
  obtain ⟨r, is, more⟩ := h
  exact ⟨r, first r is, more⟩

theorem deeper_loops {n : Nat} (ih : Deeper M x var n) :
    (∀ {v p r}, moreTerms M x var (n + 1) v p = some r →
      moreTerms M x var (n + 2) v p = some r) ∧
    (∀ {v p r}, moreFactors M x var (n + 1) v p = some r →
      moreFactors M x var (n + 2) v p = some r) := by
  constructor
  · intro v p r h
    rw [moreTerms] at h ⊢
    split at h
    · exact bind_deeper h (fun _ => ih.term) fun _ => ih.nextTerm
    · exact bind_deeper h (fun _ => ih.term) fun _ => ih.nextTerm
    · exact h
  · intro v p r h
    rw [moreFactors] at h ⊢
    split at h
    · exact bind_deeper h (fun _ => ih.unary) fun _ => ih.nextFactor
    · exact bind_deeper h (fun _ => ih.unary) fun _ => ih.nextFactor
    · split at h
      · rename_i begins
        rw [if_pos begins]
        exact bind_deeper h (fun _ => ih.unary) fun _ => ih.nextFactor
      · rename_i no
        rw [if_neg no]
        exact h

end

theorem deeper (n : Nat) : Deeper M x var n := by
  induction n with
  | zero =>
    constructor
    all_goals
      intros
      contradiction
  | succ n ih =>
    constructor
    case moreTerms => exact (deeper_loops ih).1
    case moreFactors => exact (deeper_loops ih).2
    case expression =>
      intro p r h
      rw [parseExpression] at h ⊢
      exact bind_deeper h (fun _ => ih.term) fun _ => ih.moreTerms
    case nextTerm =>
      intro r s h
      rw [nextTerm] at h ⊢
      split at h
      · rename_i bad
        rw [if_pos bad]
        exact h
      · rename_i fine
        rw [if_neg fine]
        exact ih.moreTerms h
    case term =>
      intro p r h
      rw [parseTerm] at h ⊢
      exact bind_deeper h (fun _ => ih.unary) fun _ => ih.moreFactors
    case nextFactor =>
      intro r s h
      rw [nextFactor] at h ⊢
      split at h
      · rename_i bad
        rw [if_pos bad]
        exact h
      · rename_i fine
        rw [if_neg fine]
        exact ih.moreFactors h
    case unary =>
      intro p r h
      rw [parseUnary] at h ⊢
      split at h
      · exact map_deeper h fun _ => ih.unary
      · exact ih.unary h
      · exact ih.power h
    case power =>
      intro p r h
      rw [parsePower] at h ⊢
      apply bind_deeper h (fun _ => ih.primary)
      intro s h
      split at h
      · exact map_deeper h fun _ => ih.unary
      · exact h
    case primary =>
      intro p r h
      rw [parsePrimary] at h ⊢
      exact map_deeper h fun _ => ih.value
    case value =>
      intro p r h
      rw [parsePrimaryValue] at h ⊢
      split at h
      · exact h
      · exact map_deeper h fun _ => ih.expression
      · split at h
        · rename_i digit
          rw [if_pos digit]
          exact h
        · rename_i digit
          rw [if_neg digit]
          split at h
          · rename_i alpha
            rw [if_pos alpha]
            exact ih.name h
          · rename_i alpha
            rw [if_neg alpha]
            exact h
    case name =>
      intro p name r h
      rw [parseName] at h ⊢
      split at h
      · exact h
      · split at h
        · exact map_deeper h fun _ => ih.expression
        · exact h

theorem rise {S : Type} {g : Nat → Option S} (step : ∀ n s, g n = some s → g (n + 1) = some s)
    {n m : Nat} {s : S} (h : g n = some s) (le : n ≤ m) : g m = some s := by
  induction le with
  | refl => exact h
  | step _ ih => exact step _ s ih

/-! ## What follows -/

/-- What comes after a text is its end or one of these. -/
def Follow (cs rest : Text) : Prop := ∀ c ∈ rest.head?, c ∈ cs

def afterPrimary : Text := [')', '+', '-', '*', '/', '^']
def afterUnary : Text := [')', '+', '-', '*', '/']
def afterTerm : Text := [')', '+', '-']
def afterExpression : Text := [')']

/-- Where a value has just been read. -/
def after (rest : Text) (undefined : Bool) : Parser := ⟨rest, true, undefined, none⟩

@[simp] theorem after_rest (rest : Text) (u : Bool) : (after rest u).rest = rest := rfl
@[simp] theorem after_bad (rest : Text) (u : Bool) : (after rest u).bad = false := rfl

section
variable {M x var} {cs ds rest : Text}

theorem Follow.mono (h : Follow cs rest) (sub : cs ⊆ ds) : Follow ds rest :=
  fun c is => sub (h c is)

theorem Follow.cons {c : Char} (mem : c ∈ cs) : Follow cs (c :: rest) := by
  intro d is
  cases is
  exact mem

theorem skip_of_head {p : Parser} {c : Char} {tail : Text} (is : p.rest = c :: tail)
    (space : c ≠ ' ') (tab : c ≠ '\t') : p.skip = p := by
  cases p with
  | mk rest ended undefined why =>
    dsimp only at is
    subst is
    simp [Parser.skip, space, tab]

theorem skip_after (h : Follow afterPrimary rest) (u : Bool) :
    (after rest u).skip = after rest u := by
  cases rest with
  | nil => rfl
  | cons c tail =>
    have mem := h c rfl
    apply skip_of_head rfl
    · rintro rfl
      revert mem
      decide
    · rintro rfl
      revert mem
      decide

end

/-! ## Reading what is written -/

/-- A text that starts neither with a sign nor with a blank. -/
def Starts (s : Text) : Prop := ∃ c tail, s = c :: tail ∧ c ∉ ['+', '-', ' ', '\t']

/-- `s` is read as `t` where a primary is wanted. -/
def AsPrimary (s : Text) (t : Tree V) : Prop := Starts s ∧ ∀ p rest, p.rest = s ++ rest →
  p.why = none → Follow afterPrimary rest → ∃ v u, Means M x t v p.undefined u ∧
    ∃ n, parsePrimary M x var n p = some (v, after rest u)

def AsUnary (s : Text) (t : Tree V) : Prop := ∀ p rest, p.rest = s ++ rest →
  p.why = none → Follow afterUnary rest → ∃ v u, Means M x t v p.undefined u ∧
    ∃ n, parseUnary M x var n p = some (v, after rest u)

/-- A term is read as far as `s`, and then on from there. -/
def AsTerm (s : Text) (t : Tree V) : Prop := ∀ p rest, p.rest = s ++ rest →
  p.why = none → Follow afterUnary rest → ∃ v u, Means M x t v p.undefined u ∧
    ∀ n r, moreFactors M x var n v (after rest u) = some r → ∃ m, parseTerm M x var m p = some r

def AsExpression (s : Text) (t : Tree V) : Prop := ∀ p rest, p.rest = s ++ rest →
  p.why = none → Follow afterTerm rest → ∃ v u, Means M x t v p.undefined u ∧
    ∀ n r, moreTerms M x var n v (after rest u) = some r →
      ∃ m, parseExpression M x var m p = some r

section
variable {M x var} {s s' : Text} {t t' : Tree V}

/-- No operator comes after it. -/
theorem AsTerm.close (h : AsTerm M x var s t) {p : Parser} {rest : Text} (is : p.rest = s ++ rest)
    (fine : p.why = none) (follow : Follow afterTerm rest) : ∃ v u, Means M x t v p.undefined u ∧
      ∃ n, parseTerm M x var n p = some (v, after rest u) := by
  obtain ⟨v, u, means, go⟩ := h p rest is fine (follow.mono (by decide))
  refine ⟨v, u, means, go 1 _ ?_⟩
  have skip := skip_after (follow.mono (by decide)) u
  rw [moreFactors, skip]
  cases rest with
  | nil => rfl
  | cons c tail =>
    have mem := follow c rfl
    simp only [afterTerm, List.mem_cons, List.not_mem_nil, or_false] at mem
    obtain rfl | rfl | rfl := mem
    · rfl
    · rfl
    · rfl

theorem AsExpression.close (h : AsExpression M x var s t) {p : Parser} {rest : Text}
    (is : p.rest = s ++ rest) (fine : p.why = none) (follow : Follow afterExpression rest) :
    ∃ v u, Means M x t v p.undefined u ∧
      ∃ n, parseExpression M x var n p = some (v, after rest u) := by
  obtain ⟨v, u, means, go⟩ := h p rest is fine (follow.mono (by decide))
  refine ⟨v, u, means, go 1 _ ?_⟩
  have skip := skip_after (follow.mono (by decide)) u
  rw [moreTerms, skip]
  cases rest with
  | nil => rfl
  | cons c tail =>
    have mem := follow c rfl
    simp only [afterExpression, List.mem_cons, List.not_mem_nil, or_false] at mem
    subst mem
    rfl

/-! ### A tighter level where a looser one is wanted -/

theorem Starts.head (h : Starts s) {p : Parser} {rest : Text} (is : p.rest = s ++ rest) :
    ∃ c tail, p.rest = c :: tail ∧ c ∉ ['+', '-', ' ', '\t'] := by
  obtain ⟨c, tail, rfl, no⟩ := h
  exact ⟨c, tail ++ rest, is, no⟩

theorem unary_of_power {p : Parser} {n : Nat} {r : V × Parser} (starts : Starts s) {rest : Text}
    (is : p.rest = s ++ rest) (h : parsePower M x var n p = some r) :
    parseUnary M x var (n + 1) p = some r := by
  obtain ⟨c, tail, head, no⟩ := starts.head is
  simp only [List.mem_cons, List.not_mem_nil, or_false, not_or] at no
  obtain ⟨plus, minus, space, tab⟩ := no
  have skip := skip_of_head head space tab
  rw [parseUnary, skip, head]
  split
  · rename_i is
    exact absurd (List.cons.inj is).1 minus
  · rename_i is
    exact absurd (List.cons.inj is).1 plus
  · exact h

theorem AsPrimary.unary (h : AsPrimary M x var s t) : AsUnary M x var s t := by
  intro p rest is fine follow
  have follow' : Follow afterPrimary rest := follow.mono (by decide)
  obtain ⟨v, u, means, n, read⟩ := h.2 p rest is fine follow'
  refine ⟨v, u, means, n + 2, unary_of_power h.1 is ?_⟩
  rw [parsePower, read, Option.bind_some, skip_after follow']
  cases rest with
  | nil => rfl
  | cons c tail =>
    have mem := follow c rfl
    have no : c ≠ '^' := by
      rintro rfl
      revert mem
      decide
    simp only [after]
    split
    · rename_i is
      exact absurd (List.cons.inj is).1 no
    · rfl

theorem AsUnary.term (h : AsUnary M x var s t) : AsTerm M x var s t := by
  intro p rest is fine follow
  obtain ⟨v, u, means, n, read⟩ := h p rest is fine follow
  refine ⟨v, u, means, fun m r more => ⟨max n m + 1, ?_⟩⟩
  rw [parseTerm, rise (fun n _ => (deeper M x var n).unary) read (Nat.le_max_left n m),
    Option.bind_some]
  exact rise (fun n _ => (deeper M x var n).moreFactors) more (Nat.le_max_right n m)

theorem AsTerm.expression (h : AsTerm M x var s t) : AsExpression M x var s t := by
  intro p rest is fine follow
  obtain ⟨v, u, means, n, read⟩ := h.close is fine follow
  refine ⟨v, u, means, fun m r more => ⟨max n m + 1, ?_⟩⟩
  rw [parseExpression, rise (fun n _ => (deeper M x var n).term) read (Nat.le_max_left n m),
    Option.bind_some]
  exact rise (fun n _ => (deeper M x var n).moreTerms) more (Nat.le_max_right n m)

/-! ### Operators -/

theorem AsUnary.neg (h : AsUnary M x var s t) : AsUnary M x var ('-' :: s) (.neg t) := by
  intro p rest is fine follow
  have skip := skip_of_head is (by decide) (by decide)
  obtain ⟨v, u, means, n, read⟩ := h (p.past (s ++ rest)) rest rfl fine follow
  refine ⟨M.neg v, u, means.neg, n + 1, ?_⟩
  rw [parseUnary, skip, is]
  simp only [List.cons_append, read, Option.map_some]

/-- What is made of two operands is a value with no complaint. -/
theorem made {a b : V} {u u' first : Bool} {rest : Text} {f : Tree V → Tree V → Tree V}
    (op : V → V → Option V) (means : Means M x t a first u) (means' : Means M x t' b u u')
    (is : meaning M x (f t t') =
      (meaning M x t).bind fun a => (meaning M x t').bind fun b => op a b) :
    ∃ v u'', keep M (after rest u') (op a b) = (v, after rest u'') ∧
      Means M x (f t t') v first u'' := by
  have meant := means.two (p := after rest u') op means' is
  cases made : op a b with
  | none =>
    rw [made] at meant
    exact ⟨M.zero, true, rfl, meant⟩
  | some v =>
    rw [made] at meant
    exact ⟨v, u', rfl, meant⟩

theorem AsPrimary.pow (h : AsPrimary M x var s t) (h' : AsUnary M x var s' t') :
    AsUnary M x var (s ++ '^' :: s') (.pow t t') := by
  intro p rest is fine follow
  rw [List.append_assoc, List.cons_append] at is
  have follow' : Follow afterPrimary ('^' :: (s' ++ rest)) := .cons (by decide)
  obtain ⟨a, u, means, n, read⟩ := h.2 p ('^' :: (s' ++ rest)) is fine follow'
  obtain ⟨b, u', means', m, read'⟩ := h' ((after ('^' :: (s' ++ rest)) u).past (s' ++ rest)) rest
    rfl rfl follow
  obtain ⟨v, u'', kept, meant⟩ := made (f := .pow) (fun a b => M.check (M.pow a b)) means means' rfl
  refine ⟨v, u'', meant, max n m + 2, unary_of_power h.1 is ?_⟩
  have skip := skip_after follow' u
  rw [parsePower, rise (fun n _ => (deeper M x var n).primary) read (Nat.le_max_left n m),
    Option.bind_some]
  simp only [skip, after_rest]
  rw [rise (fun n _ => (deeper M x var n).unary) read' (Nat.le_max_right n m), Option.map_some,
    checked_eq, kept]

/-- An operator of terms is read on from the left, whatever it makes. -/
theorem AsTerm.op {c : Char} {f : Tree V → Tree V → Tree V} (op : V → V → Option V)
    (h : AsTerm M x var s t) (h' : AsUnary M x var s' t') (mem : c ∈ afterUnary)
    (meant : meaning M x (f t t') =
      (meaning M x t).bind fun a => (meaning M x t').bind fun b => op a b)
    (go : ∀ n a p rest, p.skip.rest = c :: rest → moreFactors M x var (n + 1) a p =
      (parseUnary M x var n (p.skip.past rest)).bind fun r =>
        nextFactor M x var n (keep M r.2 (op a r.1))) :
    AsTerm M x var (s ++ c :: s') (f t t') := by
  intro p rest is fine follow
  rw [List.append_assoc, List.cons_append] at is
  have follow' : Follow afterUnary (c :: (s' ++ rest)) := .cons mem
  obtain ⟨a, u, means, more⟩ := h p (c :: (s' ++ rest)) is fine follow'
  obtain ⟨b, u', means', m, read'⟩ := h' ((after (c :: (s' ++ rest)) u).past (s' ++ rest)) rest
    rfl rfl follow
  obtain ⟨v, u'', kept, meant⟩ := made op means means' meant
  refine ⟨v, u'', meant, fun n r rest_ => more (max n m + 2) r ?_⟩
  have skip := skip_after (follow'.mono (by decide)) u
  rw [go (max n m + 1) a _ _ (congrArg Parser.rest skip), skip,
    rise (fun n _ => (deeper M x var n).unary) read' (by omega), Option.bind_some, kept, nextFactor]
  simp only [after_bad]
  exact rise (fun n _ => (deeper M x var n).moreFactors) rest_ (Nat.le_max_left n m)

theorem AsTerm.mul (h : AsTerm M x var s t) (h' : AsUnary M x var s' t') :
    AsTerm M x var (s ++ '*' :: s') (.mul t t') := by
  apply h.op (fun a b => M.check (M.mul a b)) h' (by decide) rfl
  intro n a p rest is
  rw [moreFactors, is]
  simp only [checked_eq]

theorem AsTerm.div (h : AsTerm M x var s t) (h' : AsUnary M x var s' t') :
    AsTerm M x var (s ++ '/' :: s') (.div t t') := by
  apply h.op M.quotient? h' (by decide) rfl
  intro n a p rest is
  rw [moreFactors, is]
  simp only [quotient_eq]

theorem AsExpression.op {c : Char} {f : Tree V → Tree V → Tree V} (op : V → V → Option V)
    (h : AsExpression M x var s t) (h' : AsTerm M x var s' t') (mem : c ∈ afterTerm)
    (meant : meaning M x (f t t') =
      (meaning M x t).bind fun a => (meaning M x t').bind fun b => op a b)
    (go : ∀ n a p rest, p.skip.rest = c :: rest → moreTerms M x var (n + 1) a p =
      (parseTerm M x var n (p.skip.past rest)).bind fun r =>
        nextTerm M x var n (keep M r.2 (op a r.1))) :
    AsExpression M x var (s ++ c :: s') (f t t') := by
  intro p rest is fine follow
  rw [List.append_assoc, List.cons_append] at is
  have follow' : Follow afterTerm (c :: (s' ++ rest)) := .cons mem
  obtain ⟨a, u, means, more⟩ := h p (c :: (s' ++ rest)) is fine follow'
  obtain ⟨b, u', means', m, read'⟩ := h'.close
    (p := (after (c :: (s' ++ rest)) u).past (s' ++ rest)) rfl rfl follow
  obtain ⟨v, u'', kept, meant⟩ := made op means means' meant
  refine ⟨v, u'', meant, fun n r rest_ => more (max n m + 2) r ?_⟩
  have skip := skip_after (follow'.mono (by decide)) u
  rw [go (max n m + 1) a _ _ (congrArg Parser.rest skip), skip,
    rise (fun n _ => (deeper M x var n).term) read' (by omega), Option.bind_some, kept, nextTerm]
  simp only [after_bad]
  exact rise (fun n _ => (deeper M x var n).moreTerms) rest_ (Nat.le_max_left n m)

theorem AsExpression.add (h : AsExpression M x var s t) (h' : AsTerm M x var s' t') :
    AsExpression M x var (s ++ '+' :: s') (.add t t') := by
  apply h.op (fun a b => M.check (M.add a b)) h' (by decide) rfl
  intro n a p rest is
  rw [moreTerms, is]
  simp only [checked_eq]

theorem AsExpression.sub (h : AsExpression M x var s t) (h' : AsTerm M x var s' t') :
    AsExpression M x var (s ++ '-' :: s') (.sub t t') := by
  apply h.op (fun a b => M.check (M.sub a b)) h' (by decide) rfl
  intro n a p rest is
  rw [moreTerms, is]
  simp only [checked_eq]

/-! ### Primaries -/

/-- What is read as a value is read as a primary. -/
theorem primary_of_value {p : Parser} {n : Nat} {v : V} {rest : Text} {u ended : Bool}
    (h : parsePrimaryValue M x var n { p with ended := false } = some (v, ⟨rest, ended, u, none⟩)) :
    parsePrimary M x var (n + 1) p = some (v, after rest u) := by
  rw [parsePrimary, h]
  rfl

theorem AsExpression.value (h : AsExpression M x var s t) {p : Parser} {rest : Text}
    (is : p.rest = '(' :: (s ++ ')' :: rest)) (fine : p.why = none) :
    ∃ v u, Means M x t v p.undefined u ∧
      ∃ n, parsePrimaryValue M x var n p = some (v, ⟨rest, true, u, none⟩) := by
  have skip := skip_of_head is (by decide) (by decide)
  have follow : Follow afterExpression (')' :: rest) := .cons (by decide)
  obtain ⟨v, u, means, n, read⟩ := h.close (p := p.past (s ++ ')' :: rest)) rfl fine follow
  refine ⟨v, u, means, n + 1, ?_⟩
  have closed := skip_after (follow.mono (by decide)) u
  rw [parsePrimaryValue, skip, is]
  change Option.map _ (parseExpression M x var n (p.past (s ++ ')' :: rest))) = _
  rw [read, Option.map_some]
  simp only [closed, after_rest]
  rfl

theorem AsExpression.brackets (h : AsExpression M x var s t) :
    AsPrimary M x var ('(' :: s ++ [')']) t := by
  refine ⟨⟨'(', s ++ [')'], rfl, by decide⟩, ?_⟩
  intro p rest is fine follow
  rw [← List.append_cons] at is
  obtain ⟨v, u, means, n, read⟩ := h.value (p := { p with ended := false }) is fine
  exact ⟨v, u, means, n + 1, primary_of_value read⟩

/-- A name, and not the beginning of a longer one. -/
structure Name (a : Text) : Prop where
  any : a ≠ []
  letters : ∀ c ∈ a, c.isAlpha = true
  short : a.length ≤ 15
  lower : a.map Char.toLower = a

theorem Name.of {a : Text} (is : (!a.isEmpty && a.all Char.isAlpha && a.length ≤ 15 &&
    a.map Char.toLower == a) = true) : Name a := by
  simp only [Bool.and_eq_true, Bool.not_eq_true', List.isEmpty_eq_false_iff, List.all_eq_true,
    decide_eq_true_eq, beq_iff_eq] at is
  obtain ⟨⟨⟨any, letters⟩, short⟩, lower⟩ := is
  exact ⟨any, letters, short, lower⟩

theorem Name.at {a rest : Text} (name : Name a) (ends : ∀ c ∈ rest.head?, c.isAlpha = false) :
    nameAt (a ++ rest) = (a, rest) := by
  have taken : (a ++ rest).takeWhile Char.isAlpha = a := by
    rw [List.takeWhile_append_of_pos name.letters]
    cases rest with
    | nil => simp
    | cons c rest => rw [List.takeWhile_cons_of_neg (by simp [ends c rfl]), List.append_nil]
  have cut : a.take 15 = a := List.take_of_length_le name.short
  simp only [nameAt, taken, cut, name.lower, List.drop_left]

theorem not_digit {c : Char} (alpha : c.isAlpha = true) : c.isDigit = false := by
  cases digit : c.isDigit with
  | false => rfl
  | true =>
    have letter : (decide (c.val ≥ 'A'.val ∧ c.val ≤ 'Z'.val) ||
        (decide (c.val ≥ 'a'.val) && decide (c.val ≤ 'z'.val))) = true := alpha
    rw [Char.isDigit] at digit
    simp [UInt32.le_iff_toNat_le] at letter digit
    omega

/-- A letter begins neither a number nor a bracket. -/
theorem letter {c : Char} (alpha : c.isAlpha = true) :
    (c.isDigit || c = '.') = false ∧ c ≠ '(' ∧ c ∉ ['+', '-', ' ', '\t'] := by
  refine ⟨?_, ?_, ?_⟩
  · rw [not_digit alpha, Bool.false_or, decide_eq_false_iff_not]
    rintro rfl
    cases alpha
  · rintro rfl
    cases alpha
  · simp only [List.mem_cons, List.not_mem_nil, or_false]
    rintro (rfl | rfl | rfl | rfl)
    all_goals cases alpha

theorem value_of_name {a rest : Text} (name : Name a) (ends : ∀ c ∈ rest.head?, c.isAlpha = false)
    {p : Parser} (is : p.rest = a ++ rest) (n : Nat) :
    parsePrimaryValue M x var (n + 1) p = parseName M x var n (p.past rest) a := by
  obtain ⟨c, tail, rfl⟩ := List.exists_cons_of_ne_nil name.any
  have alpha := name.letters c List.mem_cons_self
  obtain ⟨digit, bracket, no⟩ := letter alpha
  simp only [List.mem_cons, List.not_mem_nil, or_false, not_or] at no
  have skip := skip_of_head is no.2.2.1 no.2.2.2
  have at_ := name.at ends
  rw [List.cons_append] at is at_
  rw [parsePrimaryValue, skip, is]
  split
  · rename_i none
    cases none
  · rename_i is
    exact absurd (List.cons.inj is).1 bracket
  · rename_i d tail' _ is
    cases is
    rw [digit, alpha, at_]
    rfl

theorem AsPrimary.of_named {a : Text} (name : Name a) {v : V} (is : named M x var a = some v)
    (means : meaning M x t = some v) : AsPrimary M x var a t := by
  obtain ⟨c, tail, eq⟩ := List.exists_cons_of_ne_nil name.any
  have alpha := name.letters c (by rw [eq]; exact List.mem_cons_self)
  refine ⟨⟨c, tail, eq, (letter alpha).2.2⟩, ?_⟩
  intro p rest here fine follow
  have ends : ∀ c ∈ rest.head?, c.isAlpha = false := by
    intro c mem
    have one := follow c mem
    simp only [afterPrimary, List.mem_cons, List.not_mem_nil, or_false] at one
    obtain rfl | rfl | rfl | rfl | rfl | rfl := one
    all_goals rfl
  refine ⟨v, p.undefined, .of_some means, 3, ?_⟩
  apply @primary_of_value V M x var p 2 v rest p.undefined false
  rw [value_of_name (p := { p with ended := false }) name ends here, parseName, is, Parser.past]
  simp only [fine]

/-- How a number is written. -/
structure Literal (M : Arith V) (lit : Text) : Prop where
  begins : ∃ c tail, lit = c :: tail ∧ (c.isDigit || c = '.') = true
  whole : ∀ rest, Follow afterPrimary rest → M.strtod (lit ++ rest) = ((M.strtod lit).1, lit.length)

theorem Literal.primary {lit : Text} (h : Literal M lit) :
    AsPrimary M x var lit (.number (M.strtod lit).1) := by
  obtain ⟨c, tail, rfl, digit⟩ := h.begins
  have no : c ∉ ['(', '+', '-', ' ', '\t'] := by
    simp only [List.mem_cons, List.not_mem_nil, or_false]
    rintro (rfl | rfl | rfl | rfl | rfl)
    all_goals
      revert digit
      decide
  simp only [List.mem_cons, List.not_mem_nil, or_false, not_or] at no
  obtain ⟨bracket, plus, minus, space, tab⟩ := no
  refine ⟨⟨c, tail, rfl, by simp [plus, minus, space, tab]⟩, ?_⟩
  intro p rest is fine follow
  have whole := h.whole rest follow
  rw [List.cons_append] at is whole
  refine ⟨(M.strtod (c :: tail)).1, p.undefined, .of_some rfl, 2, ?_⟩
  apply @primary_of_value V M x var p 1 _ rest p.undefined false
  have is' : ({ p with ended := false } : Parser).rest = c :: (tail ++ rest) := is
  rw [parsePrimaryValue, skip_of_head is' space tab, is']
  split
  · rename_i none
    cases none
  · rename_i is
    exact absurd (List.cons.inj is).1 bracket
  · rename_i d tail' _ is
    cases is
    rw [if_pos digit, whole]
    simp [Parser.past, fine]

theorem function_name : ∀ name ∈ functions, Name name ∧
    name ∉ ["x".toList, "pi".toList, "e".toList] := by
  intro name mem
  have all : functions.all (fun a => (!a.isEmpty && a.all Char.isAlpha && a.length ≤ 15 &&
      a.map Char.toLower == a) && !(["x".toList, "pi".toList, "e".toList].contains a)) = true := by
    decide
  have this := List.all_eq_true.mp all name mem
  rw [Bool.and_eq_true, Bool.not_eq_true'] at this
  refine ⟨.of this.1, ?_⟩
  intro known
  rw [List.contains_iff_mem.mpr known] at this
  cases this.2

theorem AsExpression.call {name : Text} (h : AsExpression M x var s t) (known : name ∈ functions)
    (free : name ≠ var) : AsPrimary M x var (name ++ '(' :: s ++ [')']) (.call name t) := by
  obtain ⟨is_name, no⟩ := function_name name known
  simp only [List.mem_cons, List.not_mem_nil, or_false, not_or] at no
  obtain ⟨c, tail, eq⟩ := List.exists_cons_of_ne_nil is_name.any
  have alpha := is_name.letters c (by rw [eq]; exact List.mem_cons_self)
  refine ⟨⟨c, tail ++ '(' :: s ++ [')'], by rw [eq]; rfl, (letter alpha).2.2⟩, ?_⟩
  intro p rest is fine follow
  have is' : p.rest = name ++ '(' :: (s ++ ')' :: rest) := by
    rw [is]
    simp only [List.append_assoc, List.cons_append, List.nil_append]
  have opened : ({ p with ended := false }.past ('(' :: (s ++ ')' :: rest))).skip = _ :=
    skip_of_head rfl (by decide) (by decide)
  have follow' : Follow afterExpression (')' :: rest) := .cons (by decide)
  obtain ⟨a, u, means, n, read⟩ := h.close (p := { p with ended := false }.past (s ++ ')' :: rest))
    rfl fine follow'
  have closed := skip_after (follow'.mono (by decide)) u
  have unnamed : named M x var name = none := by
    unfold named
    rw [if_neg no.1, if_neg no.2.1, if_neg no.2.2, if_neg fun is => free is.2]
  have meant : meaning M x (.call name t) = (meaning M x t).bind fun a => M.check (M.call name a) :=
    rfl
  have meant := means.one (p := ⟨rest, true, u, none⟩) _ meant
  have comes : ∃ v u', keep M ⟨rest, true, u, none⟩ (M.check (M.call name a)) =
      (v, ⟨rest, true, u', none⟩) := by
    cases M.check (M.call name a) with
    | none => exact ⟨M.zero, true, rfl⟩
    | some v => exact ⟨v, u, rfl⟩
  obtain ⟨v, u', kept⟩ := comes
  rw [kept] at meant
  have bracket : ∀ c ∈ ('(' :: (s ++ ')' :: rest)).head?, c.isAlpha = false := by
    rintro c ⟨⟩
    rfl
  refine ⟨v, u', meant, n + 3, @primary_of_value V M x var p (n + 2) v rest u' true ?_⟩
  rw [value_of_name (p := { p with ended := false }) is_name bracket is', parseName, unnamed,
    opened]
  change Option.map _ (parseExpression M x var n
    ({ p with ended := false }.past (s ++ ')' :: rest))) = _
  rw [read, Option.map_some]
  simp only [closed, after_rest, callFunction, if_pos known, checked_eq]
  exact congrArg some kept

end

/-! ## Writing -/

/-- How tightly a tree binds: as an expression, a term, a unary, a power or a primary. -/
def Tree.binding : Tree V → Nat
  | .add _ _ | .sub _ _ => 0
  | .mul _ _ | .div _ _ => 1
  | .neg _ => 2
  | .pow _ _ => 3
  | _ => 4

/-- Brackets, where what is in them binds too loosely. -/
def bracketed (wanted binding : Nat) (s : Text) : Text :=
  if wanted ≤ binding then s else '(' :: s ++ [')']

def print : Tree Text → Text
  | .number lit => lit
  | .x => "x".toList
  | .pi => "pi".toList
  | .e => "e".toList
  | .neg t => '-' :: bracketed 2 t.binding (print t)
  | .add t u => bracketed 0 t.binding (print t) ++ '+' :: bracketed 1 u.binding (print u)
  | .sub t u => bracketed 0 t.binding (print t) ++ '-' :: bracketed 1 u.binding (print u)
  | .mul t u => bracketed 1 t.binding (print t) ++ '*' :: bracketed 2 u.binding (print u)
  | .div t u => bracketed 1 t.binding (print t) ++ '/' :: bracketed 2 u.binding (print u)
  | .pow t u => bracketed 4 t.binding (print t) ++ '^' :: bracketed 2 u.binding (print u)
  | .call name t => name ++ '(' :: print t ++ [')']

/-- The tree of numbers that a tree of literals stands for. -/
def Tree.value (M : Arith V) : Tree Text → Tree V
  | .number lit => .number (M.strtod lit).1
  | .x => .x
  | .pi => .pi
  | .e => .e
  | .neg t => .neg (t.value M)
  | .add t u => .add (t.value M) (u.value M)
  | .sub t u => .sub (t.value M) (u.value M)
  | .mul t u => .mul (t.value M) (u.value M)
  | .div t u => .div (t.value M) (u.value M)
  | .pow t u => .pow (t.value M) (u.value M)
  | .call name t => .call name (t.value M)

/-- Its numbers are numbers, and its functions are known ones that no variable is called. -/
def Sayable (M : Arith V) (var : Text) : Tree Text → Prop
  | .number lit => Literal M lit
  | .x | .pi | .e => True
  | .neg t => Sayable M var t
  | .add t u | .sub t u | .mul t u | .div t u | .pow t u => Sayable M var t ∧ Sayable M var u
  | .call name t => name ∈ functions ∧ name ≠ var ∧ Sayable M var t

/-- `s` is read as `t` where something that binds like this is wanted. -/
def ReadAs (binding : Nat) (s : Text) (t : Tree V) : Prop :=
  match binding with
  | 0 => AsExpression M x var s t
  | 1 => AsTerm M x var s t
  | 2 => AsUnary M x var s t
  | 3 => AsUnary M x var s t
  | _ => AsPrimary M x var s t

section
variable {M x var}

/-- What binds tightly enough is read where something looser is wanted. -/
theorem ReadAs.loosen {k : Nat} {s : Text} {t : Tree V} (h : ReadAs M x var k s t) (small : k ≤ 4) :
    (4 ≤ k → AsPrimary M x var s t) ∧ (2 ≤ k → AsUnary M x var s t) ∧
      (1 ≤ k → AsTerm M x var s t) ∧ AsExpression M x var s t := by
  obtain _ | _ | _ | _ | _ | k := k
  · exact ⟨by omega, by omega, by omega, h⟩
  · exact ⟨by omega, by omega, fun _ => h, AsTerm.expression h⟩
  · have term := AsUnary.term h
    exact ⟨by omega, fun _ => h, fun _ => term, term.expression⟩
  · have term := AsUnary.term h
    exact ⟨by omega, fun _ => h, fun _ => term, term.expression⟩
  · have unary := AsPrimary.unary h
    exact ⟨fun _ => h, fun _ => unary, fun _ => unary.term, unary.term.expression⟩
  · omega

/-- Where it binds too loosely it is read in brackets. -/
theorem ReadAs.wanted {k : Nat} {s : Text} {t : Tree V} (h : ReadAs M x var k s t) (small : k ≤ 4) :
    AsPrimary M x var (bracketed 4 k s) t ∧ AsUnary M x var (bracketed 2 k s) t ∧
      AsTerm M x var (bracketed 1 k s) t ∧ AsExpression M x var (bracketed 0 k s) t := by
  obtain ⟨primary, unary, term, expression⟩ := h.loosen small
  have brackets := expression.brackets
  refine ⟨?_, ?_, ?_, ?_⟩
  · unfold bracketed
    split
    · rename_i tight
      exact primary tight
    · exact brackets
  · unfold bracketed
    split
    · rename_i tight
      exact unary tight
    · exact brackets.unary
  · unfold bracketed
    split
    · rename_i tight
      exact term tight
    · exact brackets.unary.term
  · rw [bracketed, if_pos (Nat.zero_le k)]
    exact expression

theorem binding_le (t : Tree V) : t.binding ≤ 4 := by
  cases t
  all_goals exact Nat.le_of_ble_eq_true rfl

/-- Every tree is read as itself, where something that binds as it does is wanted. -/
theorem print_reads : ∀ t : Tree Text, Sayable M var t →
    ReadAs M x var t.binding (print t) (t.value M)
  | .number lit, h => Literal.primary h
  | .x, _ => AsPrimary.of_named (v := x) (.of (by decide)) rfl rfl
  | .pi, _ => AsPrimary.of_named (v := M.pi) (.of (by decide)) rfl rfl
  | .e, _ => AsPrimary.of_named (v := M.e) (.of (by decide)) rfl rfl
  | .neg t, h => ((print_reads t h).wanted (binding_le t)).2.1.neg
  | .add t u, h => ((print_reads t h.1).wanted (binding_le t)).2.2.2.add
    ((print_reads u h.2).wanted (binding_le u)).2.2.1
  | .sub t u, h => ((print_reads t h.1).wanted (binding_le t)).2.2.2.sub
    ((print_reads u h.2).wanted (binding_le u)).2.2.1
  | .mul t u, h => ((print_reads t h.1).wanted (binding_le t)).2.2.1.mul
    ((print_reads u h.2).wanted (binding_le u)).2.1
  | .div t u, h => ((print_reads t h.1).wanted (binding_le t)).2.2.1.div
    ((print_reads u h.2).wanted (binding_le u)).2.1
  | .pow t u, h => ((print_reads t h.1).wanted (binding_le t)).1.pow
    ((print_reads u h.2).wanted (binding_le u)).2.1
  | .call _ t, h => ((print_reads t h.2.2).loosen (binding_le t)).2.2.2.call h.1 h.2.1

end

/-- A tree that is written out, with no more brackets than it needs, comes to what it means. -/
theorem evalNamed_print (M : Arith V) (x : V) (name : Text) (t : Tree Text)
    (sayable : Sayable M (variableName name) t) :
    evalNamed M x (print t) name = some (M.finish (meaning M x (t.value M))) := by
  have reads : ReadAs M x (variableName name) t.binding (print t) (t.value M) :=
    print_reads t sayable
  obtain ⟨v, u, means, n, read⟩ := (reads.loosen (binding_le t)).2.2.2.close
    (p := ⟨print t, false, false, none⟩) (List.append_nil _).symm rfl (by rintro c ⟨⟩)
  have any : print t ≠ [] := by
    have shorter := ((sound M x _ n).expression read).length_lt rfl
    intro empty
    rw [empty] at shorter
    exact absurd shorter (Nat.not_lt_zero _)
  obtain ⟨r, read'⟩ := (ends M x (variableName name) (enough (print t))).expression
    ⟨print t, false, false, none⟩ (Nat.le_refl _)
  -- as deep as either goes, both come to one answer
  have same : r = (v, after [] u) := by
    have one := rise (fun n _ => (deeper M x (variableName name) n).expression) read
      (Nat.le_max_left n (enough (print t)))
    have other := rise (fun n _ => (deeper M x (variableName name) n).expression) read'
      (Nat.le_max_right n (enough (print t)))
    rw [one] at other
    exact (Option.some.inj other).symm
  rw [evalNamed, if_neg any, read', same, Option.map_some]
  exact congrArg some (outcome_means rfl rfl means)

/-- Whole numbers, each written as its digits. -/
def integers : Arith Int where
  zero := 0
  one := 1
  pi := 3
  e := 2
  add := (· + ·)
  sub := (· - ·)
  mul := (· * ·)
  div := (· / ·)
  pow := fun a b => Int.pow a b.toNat
  neg := fun a => -a
  call := fun _ a => a
  isFinite := fun _ => true
  isZero := (· == 0)
  strtod := fun text =>
    let digits := text.takeWhile Char.isDigit
    (digits.foldl (fun n c => 10 * n + (c.toNat - 48)) 0, digits.length)
  strtod_le := fun _ => (List.takeWhile_prefix _).length_le

theorem literal_two : Literal integers "2".toList := by
  refine ⟨⟨'2', [], rfl, by decide⟩, ?_⟩
  intro rest follow
  cases rest with
  | nil => rfl
  | cons c tail =>
    have mem := follow c rfl
    simp only [afterPrimary, List.mem_cons, List.not_mem_nil, or_false] at mem
    obtain rfl | rfl | rfl | rfl | rfl | rfl := mem
    all_goals rfl

/-- The minus is on the square. -/
theorem evalNamed_print_square : evalNamed integers 5 "-2^2".toList [] = some (.ok (-4)) :=
  evalNamed_print integers 5 [] (.neg (.pow (.number "2".toList) (.number "2".toList)))
    ⟨literal_two, literal_two⟩

end ReconOS.Expr
