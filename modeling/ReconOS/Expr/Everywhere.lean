import ReconOS.Expr.Sound

/-! The whole text: an answer is always come to, and it is a complaint or what a tree means. -/
namespace ReconOS.Expr

variable {V : Type} {M : Arith V} {x : V} {var : Text}

/-! ## The depth of the recursion -/

namespace Reads

variable {l : Level} {p : Parser} {r : V × Parser}

theorem length_le (h : Reads M x var l p r) : r.2.rest.length ≤ p.rest.length :=
  h.suffix.length_le

theorem length_lt (h : Reads M x var l p r) (fine : r.2.why = none) :
    r.2.rest.length < p.rest.length := by
  obtain ⟨t, a, eq, spells, -⟩ := h.spelled fine
  have := List.length_pos_of_ne_nil spells.ne_nil
  rw [eq, List.length_append]
  omega

end Reads

theorem skip_length (p : Parser) : p.skip.rest.length ≤ p.rest.length :=
  (skip_suffix p).length_le

theorem after_length {p : Parser} {c : Char} {rest : Text} (is : p.skip.rest = c :: rest) :
    rest.length < p.rest.length := by
  have := skip_length p
  rw [is, List.length_cons] at this
  exact this

variable (M x var) in
/-- Each function comes to its end where it may go this deep. -/
structure Ends (n : Nat) : Prop where
  expression : ∀ p, 10 * p.rest.length + 10 ≤ n → ∃ r, parseExpression M x var n p = some r
  moreTerms : ∀ left p, 10 * p.rest.length + 9 ≤ n → ∃ r, moreTerms M x var n left p = some r
  nextTerm : ∀ r, 1 ≤ n → (r.2.why = none → 10 * r.2.rest.length + 10 ≤ n) →
    ∃ s, nextTerm M x var n r = some s
  term : ∀ p, 10 * p.rest.length + 8 ≤ n → ∃ r, parseTerm M x var n p = some r
  moreFactors : ∀ left p, 10 * p.rest.length + 7 ≤ n →
    ∃ r, moreFactors M x var n left p = some r
  nextFactor : ∀ r, 1 ≤ n → (r.2.why = none → 10 * r.2.rest.length + 8 ≤ n) →
    ∃ s, nextFactor M x var n r = some s
  unary : ∀ p, 10 * p.rest.length + 5 ≤ n → ∃ r, parseUnary M x var n p = some r
  power : ∀ p, 10 * p.rest.length + 4 ≤ n → ∃ r, parsePower M x var n p = some r
  primary : ∀ p, 10 * p.rest.length + 3 ≤ n → ∃ r, parsePrimary M x var n p = some r
  value : ∀ p, 10 * p.rest.length + 2 ≤ n → ∃ r, parsePrimaryValue M x var n p = some r
  name : ∀ p name, 10 * p.rest.length + 1 ≤ n → ∃ r, parseName M x var n p name = some r

variable {n : Nat}

theorem ends_expression (ih : Ends M x var n) (p : Parser)
    (room : 10 * p.rest.length + 10 ≤ n + 1) :
    ∃ r, parseExpression M x var (n + 1) p = some r := by
  obtain ⟨s, read⟩ := ih.term p (by omega)
  have shorter := ((sound M x var n).term read).length_le
  obtain ⟨r, more⟩ := ih.moreTerms s.1 s.2 (by omega)
  exists r
  rw [parseExpression, read, Option.bind_some, more]

theorem ends_term (ih : Ends M x var n) (p : Parser) (room : 10 * p.rest.length + 8 ≤ n + 1) :
    ∃ r, parseTerm M x var (n + 1) p = some r := by
  obtain ⟨s, read⟩ := ih.unary p (by omega)
  have shorter := ((sound M x var n).unary read).length_le
  obtain ⟨r, more⟩ := ih.moreFactors s.1 s.2 (by omega)
  exists r
  rw [parseTerm, read, Option.bind_some, more]

theorem ends_nextTerm (ih : Ends M x var n) (r : V × Parser)
    (room : r.2.why = none → 10 * r.2.rest.length + 10 ≤ n + 1) :
    ∃ s, nextTerm M x var (n + 1) r = some s := by
  rw [nextTerm]
  split
  · exact ⟨_, rfl⟩
  · rename_i fine
    rw [bad_eq, not_not] at fine
    exact ih.moreTerms r.1 r.2 (by have := room fine; omega)

theorem ends_nextFactor (ih : Ends M x var n) (r : V × Parser)
    (room : r.2.why = none → 10 * r.2.rest.length + 8 ≤ n + 1) :
    ∃ s, nextFactor M x var (n + 1) r = some s := by
  rw [nextFactor]
  split
  · exact ⟨_, rfl⟩
  · rename_i fine
    rw [bad_eq, not_not] at fine
    exact ih.moreFactors r.1 r.2 (by have := room fine; omega)

/-- A term read on the right leaves room to go on. -/
theorem ends_right_term (ih : Ends M x var n) (p : Parser) {op : V × Parser → V × Parser}
    (room : 10 * p.rest.length + 18 ≤ n) (rest : ∀ r, (op r).2.rest = r.2.rest) :
    ∃ s, ((parseTerm M x var n p).bind fun r => nextTerm M x var n (op r)) = some s := by
  obtain ⟨r, read⟩ := ih.term p (by omega)
  have shorter := ((sound M x var n).term read).length_le
  rw [read, Option.bind_some]
  apply ih.nextTerm
  · omega
  · intro _
    rw [rest]
    omega

theorem ends_right_factor (ih : Ends M x var n) (p : Parser) {op : V × Parser → V × Parser}
    (room : 10 * p.rest.length + 5 ≤ n) (rest : ∀ r, (op r).2.rest = r.2.rest)
    (why : ∀ r, (op r).2.why = r.2.why) :
    ∃ s, ((parseUnary M x var n p).bind fun r => nextFactor M x var n (op r)) = some s := by
  obtain ⟨r, read⟩ := ih.unary p (by omega)
  rw [read, Option.bind_some]
  apply ih.nextFactor
  · omega
  · intro fine
    rw [why] at fine
    have shorter := ((sound M x var n).unary read).length_lt fine
    rw [rest]
    omega

theorem ends_moreTerms (ih : Ends M x var n) (left : V) (p : Parser)
    (room : 10 * p.rest.length + 9 ≤ n + 1) :
    ∃ r, moreTerms M x var (n + 1) left p = some r := by
  rw [moreTerms]
  split
  · rename_i rest is
    have := after_length is
    apply ends_right_term ih
    · rw [past_rest]
      omega
    · intro r
      rw [checked_eq, keep_rest]
  · rename_i rest is
    have := after_length is
    apply ends_right_term ih
    · rw [past_rest]
      omega
    · intro r
      rw [checked_eq, keep_rest]
  · exact ⟨_, rfl⟩

theorem ends_moreFactors (ih : Ends M x var n) (left : V) (p : Parser)
    (room : 10 * p.rest.length + 7 ≤ n + 1) :
    ∃ r, moreFactors M x var (n + 1) left p = some r := by
  rw [moreFactors]
  split
  · rename_i rest is
    have := after_length is
    apply ends_right_factor ih
    · rw [past_rest]
      omega
    · intro r
      rw [checked_eq, keep_rest]
    · intro r
      rw [checked_eq, keep_why]
  · rename_i rest is
    have := after_length is
    apply ends_right_factor ih
    · rw [past_rest]
      omega
    · intro r
      rw [quotient_eq, keep_rest]
    · intro r
      rw [quotient_eq, keep_why]
  · split
    · have := skip_length p
      apply ends_right_factor ih
      · omega
      · intro r
        rw [checked_eq, keep_rest]
      · intro r
        rw [checked_eq, keep_why]
    · exact ⟨_, rfl⟩

theorem ends_unary (ih : Ends M x var n) (p : Parser) (room : 10 * p.rest.length + 5 ≤ n + 1) :
    ∃ r, parseUnary M x var (n + 1) p = some r := by
  rw [parseUnary]
  split
  · rename_i rest is
    have := after_length is
    obtain ⟨r, read⟩ := ih.unary (p.skip.past rest) (by rw [past_rest]; omega)
    rw [read]
    exact ⟨_, rfl⟩
  · rename_i rest is
    have := after_length is
    exact ih.unary (p.skip.past rest) (by rw [past_rest]; omega)
  · have := skip_length p
    exact ih.power p.skip (by omega)

theorem ends_power (ih : Ends M x var n) (p : Parser) (room : 10 * p.rest.length + 4 ≤ n + 1) :
    ∃ r, parsePower M x var (n + 1) p = some r := by
  obtain ⟨s, read⟩ := ih.primary p (by omega)
  have shorter := ((sound M x var n).primary read).length_le
  rw [parsePower, read, Option.bind_some]
  split
  · rename_i rest is
    have := after_length is
    obtain ⟨r, read'⟩ := ih.unary (s.2.skip.past rest) (by rw [past_rest]; omega)
    rw [read']
    exact ⟨_, rfl⟩
  · exact ⟨_, rfl⟩

theorem ends_primary (ih : Ends M x var n) (p : Parser)
    (room : 10 * p.rest.length + 3 ≤ n + 1) : ∃ r, parsePrimary M x var (n + 1) p = some r := by
  obtain ⟨s, read⟩ := ih.value { p with ended := false } (by dsimp only; omega)
  rw [parsePrimary, read]
  exact ⟨_, rfl⟩

theorem ends_value (ih : Ends M x var n) (p : Parser) (room : 10 * p.rest.length + 2 ≤ n + 1) :
    ∃ r, parsePrimaryValue M x var (n + 1) p = some r := by
  rw [parsePrimaryValue]
  split
  · exact ⟨_, rfl⟩
  · rename_i rest is
    have := after_length is
    obtain ⟨r, read⟩ := ih.expression (p.skip.past rest) (by rw [past_rest]; omega)
    rw [read]
    exact ⟨_, rfl⟩
  · rename_i c rest _ is
    split
    · split
      · exact ⟨_, rfl⟩
      · exact ⟨_, rfl⟩
    · split
      · rename_i alpha
        obtain ⟨a, eq, -, any, -⟩ := @nameAt_split c rest alpha
        have length := congrArg List.length eq
        have := List.length_pos_of_ne_nil any
        have := after_length is
        rw [List.length_append, List.length_cons] at length
        exact ih.name _ _ (by rw [past_rest]; omega)
      · exact ⟨_, rfl⟩

theorem ends_name (ih : Ends M x var n) (p : Parser) (name : Text)
    (room : 10 * p.rest.length + 1 ≤ n + 1) :
    ∃ r, parseName M x var (n + 1) p name = some r := by
  rw [parseName]
  split
  · exact ⟨_, rfl⟩
  · split
    · rename_i rest is
      have := after_length is
      obtain ⟨r, read⟩ := ih.expression (p.skip.past rest) (by rw [past_rest]; omega)
      rw [read]
      exact ⟨_, rfl⟩
    · exact ⟨_, rfl⟩

variable (M x var) in
theorem ends (n : Nat) : Ends M x var n := by
  induction n with
  | zero =>
    constructor
    all_goals
      intros
      omega
  | succ n ih =>
    constructor
    case expression => exact ends_expression ih
    case moreTerms => exact ends_moreTerms ih
    case nextTerm => exact fun r _ => ends_nextTerm ih r
    case term => exact ends_term ih
    case moreFactors => exact ends_moreFactors ih
    case nextFactor => exact fun r _ => ends_nextFactor ih r
    case unary => exact ends_unary ih
    case power => exact ends_power ih
    case primary => exact ends_primary ih
    case value => exact ends_value ih
    case name => exact ends_name ih

/-! ## The whole text -/

/-- Where the text was read to its end with no complaint, what it came to is what was meant. -/
theorem outcome_means {r : V × Parser} {t : Tree V} (fine : r.2.why = none)
    (none_left : r.2.skip.rest = []) (means : Means M x t r.1 false r.2.undefined) :
    outcome M r = M.finish (meaning M x t) := by
  have not_bad : ¬ r.2.bad = true := fun bad => (bad_eq r.2).mp bad fine
  have undefined := means.undefined
  rw [Bool.false_or] at undefined
  simp only [outcome, if_neg not_bad, none_left, skip_why, fine, skip_undefined]
  cases is : meaning M x t with
  | none =>
    rw [is, Option.isNone_none] at undefined
    simp only [undefined, Bool.true_or, if_true, Arith.finish]
  | some v =>
    rw [is, Option.isNone_some] at undefined
    rw [means.value v is, undefined, Bool.false_or]
    cases finite : M.isFinite v with
    | false => simp [Arith.finish, finite]
    | true => simp [Arith.finish, finite]

/-- For every text there is an answer, and unless it is a complaint there is a tree that the text
spells, of which it is the meaning. -/
theorem evalNamed_means (M : Arith V) (x : V) (text name : Text) :
    ∃ o, evalNamed M x text name = some o ∧ ((∃ why, o = .bad why) ∨
      ∃ t, Spells M (variableName name) .expression t text ∧ o = M.finish (meaning M x t)) := by
  unfold evalNamed
  split
  · exact ⟨_, rfl, .inl ⟨_, rfl⟩⟩
  · obtain ⟨r, read⟩ := (ends M x (variableName name) (enough text)).expression
      ⟨text, false, false, none⟩ (Nat.le_refl _)
    rw [read]
    refine ⟨outcome M r, rfl, ?_⟩
    have reads := (sound M x (variableName name) (enough text)).expression read
    cases why : r.2.why with
    | some what =>
      apply Or.inl
      have bad : r.2.bad = true := (bad_eq r.2).mpr (by rw [why]; exact Option.some_ne_none _)
      simp [outcome, bad, why]
    | none =>
      have not_bad : ¬ r.2.bad = true := fun bad => (bad_eq r.2).mp bad why
      obtain ⟨t, a, eq, spells, means⟩ := reads.trailing.spelled why
      cases left : r.2.skip.rest with
      | nil =>
        apply Or.inr
        dsimp only at eq
        rw [left, List.append_nil] at eq
        rw [eq]
        exact ⟨t, spells, outcome_means why left means⟩
      | cons c rest =>
        apply Or.inl
        have complaint := fail_why r.2.skip
          ("There is '".toList ++ r.2.skip.rest ++ "' left over at the end.".toList)
        rw [left] at complaint
        obtain ⟨what, is⟩ := Option.ne_none_iff_exists'.mp complaint
        exists what
        simp only [outcome, if_neg not_bad, left, is]

end ReconOS.Expr

/-! What a text is blamed for is the same wherever it is asked. -/
namespace ReconOS.Expr

variable {V : Type} (M : Arith V) (x y : V) (var : Text)

/-- Two runs that came to no end, or to the same place with the same complaint. -/
inductive Alike : Option (V × Parser) → Option (V × Parser) → Prop where
  | unended : Alike none none
  | ended (v w : V) (p : Parser) (u : Bool) :
    Alike (some (v, p)) (some (w, { p with undefined := u }))

variable {M x y var}

theorem Alike.bind {o o' : Option (V × Parser)} {f g : V × Parser → Option (V × Parser)}
    (h : Alike o o') (next : ∀ v w p u, Alike (f (v, p)) (g (w, { p with undefined := u }))) :
    Alike (o.bind f) (o'.bind g) := by
  cases h with
  | unended => exact .unended
  | ended v w p u => exact next v w p u

theorem Alike.map {o o' : Option (V × Parser)} {f g : V × Parser → V × Parser} (h : Alike o o')
    (next : ∀ v w p u, Alike (some (f (v, p))) (some (g (w, { p with undefined := u })))) :
    Alike (o.map f) (o'.map g) := by
  cases h with
  | unended => exact .unended
  | ended v w p u => exact next v w p u

theorem fail_alike (v w : V) (p : Parser) (u : Bool) (what : Text) :
    Alike (some (v, p.fail what)) (some (w, { p with undefined := u }.fail what)) := by
  unfold Parser.fail Parser.bad
  dsimp only
  split
  · exact .ended v w p u
  · exact .ended v w _ u

theorem keep_alike (p : Parser) (u : Bool) (v w : Option V) :
    Alike (some (keep M p v)) (some (keep M { p with undefined := u } w)) := by
  cases v with
  | none =>
    cases w with
    | none => exact .ended _ _ { p with undefined := true } true
    | some w => exact .ended _ _ { p with undefined := true } u
  | some v =>
    cases w with
    | none => exact .ended _ _ p true
    | some w => exact .ended _ _ p u

theorem callFunction_alike (p : Parser) (u : Bool) (name : Text) (v w : V) :
    Alike (some (callFunction M p name v))
      (some (callFunction M { p with undefined := u } name w)) := by
  unfold callFunction
  split
  · rw [checked_eq, checked_eq]
    exact keep_alike p u _ _
  · exact fail_alike _ _ p u _

/-- A name is a value at both or at neither. -/
theorem named_alike (name : Text) : (named M x var name).isSome = (named M y var name).isSome := by
  unfold named
  split
  · rfl
  · split
    · rfl
    · split
      · rfl
      · split
        · rfl
        · rfl

variable (M x y var) in
/-- Each function at `x` and at `y`, as deep as `n`. -/
structure Agrees (n : Nat) : Prop where
  expression : ∀ p u, Alike (parseExpression M x var n p)
    (parseExpression M y var n { p with undefined := u })
  moreTerms : ∀ v w p u, Alike (moreTerms M x var n v p)
    (moreTerms M y var n w { p with undefined := u })
  nextTerm : ∀ {r s}, Alike (some r) (some s) →
    Alike (nextTerm M x var n r) (nextTerm M y var n s)
  term : ∀ p u, Alike (parseTerm M x var n p) (parseTerm M y var n { p with undefined := u })
  moreFactors : ∀ v w p u, Alike (moreFactors M x var n v p)
    (moreFactors M y var n w { p with undefined := u })
  nextFactor : ∀ {r s}, Alike (some r) (some s) →
    Alike (nextFactor M x var n r) (nextFactor M y var n s)
  unary : ∀ p u, Alike (parseUnary M x var n p) (parseUnary M y var n { p with undefined := u })
  power : ∀ p u, Alike (parsePower M x var n p) (parsePower M y var n { p with undefined := u })
  primary : ∀ p u, Alike (parsePrimary M x var n p)
    (parsePrimary M y var n { p with undefined := u })
  value : ∀ p u, Alike (parsePrimaryValue M x var n p)
    (parsePrimaryValue M y var n { p with undefined := u })
  name : ∀ p u name, Alike (parseName M x var n p name)
    (parseName M y var n { p with undefined := u } name)

variable {n : Nat}

theorem agrees_expression (ih : Agrees M x y var n) (p : Parser) (u : Bool) :
    Alike (parseExpression M x var (n + 1) p)
      (parseExpression M y var (n + 1) { p with undefined := u }) := by
  rw [parseExpression, parseExpression]
  exact (ih.term p u).bind ih.moreTerms

theorem agrees_term (ih : Agrees M x y var n) (p : Parser) (u : Bool) :
    Alike (parseTerm M x var (n + 1) p) (parseTerm M y var (n + 1) { p with undefined := u }) := by
  rw [parseTerm, parseTerm]
  exact (ih.unary p u).bind ih.moreFactors

theorem agrees_nextTerm (ih : Agrees M x y var n) {r s : V × Parser}
    (h : Alike (some r) (some s)) :
    Alike (nextTerm M x var (n + 1) r) (nextTerm M y var (n + 1) s) := by
  cases h with
  | ended v w p u =>
    rw [nextTerm, nextTerm]
    change Alike (if p.bad then _ else _) (if p.bad then _ else _)
    split
    · exact .ended _ _ p u
    · exact ih.moreTerms v w p u

theorem agrees_nextFactor (ih : Agrees M x y var n) {r s : V × Parser}
    (h : Alike (some r) (some s)) :
    Alike (nextFactor M x var (n + 1) r) (nextFactor M y var (n + 1) s) := by
  cases h with
  | ended v w p u =>
    rw [nextFactor, nextFactor]
    change Alike (if p.bad then _ else _) (if p.bad then _ else _)
    split
    · exact .ended _ _ p u
    · exact ih.moreFactors v w p u

theorem agrees_moreTerms (ih : Agrees M x y var n) (v w : V) (p : Parser) (u : Bool) :
    Alike (moreTerms M x var (n + 1) v p)
      (moreTerms M y var (n + 1) w { p with undefined := u }) := by
  have same : ({ p with undefined := u } : Parser).skip.rest = p.skip.rest := rfl
  rw [moreTerms, moreTerms, same]
  split
  · rename_i rest is
    apply (ih.term (p.skip.past rest) u).bind
    intro v w q u
    rw [checked_eq, checked_eq]
    exact ih.nextTerm (keep_alike q u _ _)
  · rename_i rest is
    apply (ih.term (p.skip.past rest) u).bind
    intro v w q u
    rw [checked_eq, checked_eq]
    exact ih.nextTerm (keep_alike q u _ _)
  · exact .ended v w p.skip u

theorem agrees_moreFactors (ih : Agrees M x y var n) (v w : V) (p : Parser) (u : Bool) :
    Alike (moreFactors M x var (n + 1) v p)
      (moreFactors M y var (n + 1) w { p with undefined := u }) := by
  have same : ({ p with undefined := u } : Parser).skip.rest = p.skip.rest := rfl
  rw [moreFactors, moreFactors, same]
  split
  · rename_i rest is
    apply (ih.unary (p.skip.past rest) u).bind
    intro v w q u
    rw [checked_eq, checked_eq]
    exact ih.nextFactor (keep_alike q u _ _)
  · rename_i rest is
    apply (ih.unary (p.skip.past rest) u).bind
    intro v w q u
    rw [quotient_eq, quotient_eq]
    exact ih.nextFactor (keep_alike q u _ _)
  · dsimp only
    split
    · apply (ih.unary p.skip u).bind
      intro v w q u
      rw [checked_eq, checked_eq]
      exact ih.nextFactor (keep_alike q u _ _)
    · exact .ended v w p.skip u

theorem agrees_unary (ih : Agrees M x y var n) (p : Parser) (u : Bool) :
    Alike (parseUnary M x var (n + 1) p)
      (parseUnary M y var (n + 1) { p with undefined := u }) := by
  have same : ({ p with undefined := u } : Parser).skip.rest = p.skip.rest := rfl
  rw [parseUnary, parseUnary, same]
  split
  · rename_i rest is
    apply (ih.unary (p.skip.past rest) u).map
    intro v w q u
    exact .ended _ _ q u
  · rename_i rest is
    exact ih.unary (p.skip.past rest) u
  · exact ih.power p.skip u

theorem agrees_power (ih : Agrees M x y var n) (p : Parser) (u : Bool) :
    Alike (parsePower M x var (n + 1) p)
      (parsePower M y var (n + 1) { p with undefined := u }) := by
  rw [parsePower, parsePower]
  apply (ih.primary p u).bind
  intro v w q u
  have same : ({ q with undefined := u } : Parser).skip.rest = q.skip.rest := rfl
  dsimp only
  rw [same]
  split
  · rename_i rest is
    apply (ih.unary (q.skip.past rest) u).map
    intro v w q u
    rw [checked_eq, checked_eq]
    exact keep_alike q u _ _
  · exact .ended v w q.skip u

theorem agrees_primary (ih : Agrees M x y var n) (p : Parser) (u : Bool) :
    Alike (parsePrimary M x var (n + 1) p)
      (parsePrimary M y var (n + 1) { p with undefined := u }) := by
  rw [parsePrimary, parsePrimary]
  apply (ih.value { p with ended := false } u).map
  intro v w q u
  exact .ended v w { q with ended := !q.bad } u

theorem agrees_value (ih : Agrees M x y var n) (p : Parser) (u : Bool) :
    Alike (parsePrimaryValue M x var (n + 1) p)
      (parsePrimaryValue M y var (n + 1) { p with undefined := u }) := by
  have same : ({ p with undefined := u } : Parser).skip.rest = p.skip.rest := rfl
  rw [parsePrimaryValue, parsePrimaryValue, same]
  split
  · exact fail_alike _ _ p.skip u _
  · rename_i rest is
    apply (ih.expression (p.skip.past rest) u).map
    intro v w q u
    have same : ({ q with undefined := u } : Parser).skip.rest = q.skip.rest := rfl
    dsimp only
    rw [same]
    split
    · rename_i after closed
      exact .ended v w (q.skip.past after) u
    · exact fail_alike _ _ q.skip u _
  · rename_i c rest _ is
    split
    · split
      · exact fail_alike _ _ p.skip u _
      · exact .ended _ _ (p.skip.past _) u
    · split
      · exact ih.name (p.skip.past _) u _
      · exact fail_alike _ _ p.skip u _

theorem agrees_name (ih : Agrees M x y var n) (p : Parser) (u : Bool) (name : Text) :
    Alike (parseName M x var (n + 1) p name)
      (parseName M y var (n + 1) { p with undefined := u } name) := by
  have same : ({ p with undefined := u } : Parser).skip.rest = p.skip.rest := rfl
  have both : (named M x var name).isSome = (named M y var name).isSome := named_alike name
  rw [parseName, parseName, same]
  cases is : named M x var name with
  | some v =>
    rw [is, Option.isSome_some] at both
    obtain ⟨w, is'⟩ := Option.isSome_iff_exists.mp both.symm
    rw [is']
    exact .ended v w p u
  | none =>
    rw [is, Option.isSome_none] at both
    rw [Option.isSome_eq_false_iff.mp both.symm |> Option.isNone_iff_eq_none.mp]
    dsimp only
    split
    · rename_i rest is
      apply (ih.expression (p.skip.past rest) u).map
      intro v w q u
      have same : ({ q with undefined := u } : Parser).skip.rest = q.skip.rest := rfl
      dsimp only
      rw [same]
      split
      · rename_i after closed
        exact callFunction_alike (q.skip.past after) u name v w
      · exact fail_alike _ _ q.skip u _
    · exact fail_alike _ _ p.skip u _

variable (M x y var) in
theorem agrees (n : Nat) : Agrees M x y var n := by
  induction n with
  | zero =>
    constructor
    all_goals
      intros
      exact .unended
  | succ n ih =>
    constructor
    case expression => exact agrees_expression ih
    case moreTerms => exact agrees_moreTerms ih
    case nextTerm => exact agrees_nextTerm ih
    case term => exact agrees_term ih
    case moreFactors => exact agrees_moreFactors ih
    case nextFactor => exact agrees_nextFactor ih
    case unary => exact agrees_unary ih
    case power => exact agrees_power ih
    case primary => exact agrees_primary ih
    case value => exact agrees_value ih
    case name => exact agrees_name ih

/-! ## The whole text -/

/-- What is left over at the end is a complaint of its own. -/
def leftOver (p : Parser) : Parser :=
  if p.bad then p
  else match p.skip.rest with
    | [] => p.skip
    | left => p.skip.fail ("There is '".toList ++ left ++ "' left over at the end.".toList)

theorem outcome_bad (r : V × Parser) (why : Text) :
    outcome M r = .bad why ↔ (leftOver r.2).why = some why := by
  unfold outcome leftOver
  dsimp only
  generalize (if r.2.bad = true then r.2 else _ : Parser) = p
  cases p.why with
  | some what => simp
  | none =>
    dsimp only
    split
    · simp
    · simp

theorem fail_why_alike (p : Parser) (u : Bool) (what : Text) :
    ({ p with undefined := u }.fail what).why = (p.fail what).why := by
  unfold Parser.fail Parser.bad
  dsimp only
  split
  · rfl
  · rfl

theorem leftOver_why (p : Parser) (u : Bool) :
    (leftOver { p with undefined := u }).why = (leftOver p).why := by
  have same : ({ p with undefined := u } : Parser).skip.rest = p.skip.rest := rfl
  unfold leftOver
  rw [same]
  change (if p.bad then _ else _ : Parser).why = _
  split
  · rfl
  · split
    · rfl
    · exact fail_why_alike p.skip u _

theorem evalNamed_bad (text name why : Text) (at_x : evalNamed M x text name = some (.bad why)) :
    evalNamed M y text name = some (.bad why) := by
  unfold evalNamed at at_x ⊢
  split
  · rename_i empty
    rw [if_pos empty] at at_x
    exact at_x
  · rename_i some_
    rw [if_neg some_] at at_x
    have alike := (agrees M x y (variableName name) (enough text)).expression
      ⟨text, false, false, none⟩ false
    generalize parseExpression M x _ _ _ = o at alike at_x
    generalize parseExpression M y _ _ _ = o' at alike ⊢
    cases alike with
    | unended => cases at_x
    | ended v w p u =>
      have bad := (outcome_bad (v, p) why).mp (Option.some.inj at_x)
      apply congrArg some
      rw [outcome_bad]
      exact (leftOver_why p u).trans bad

/-- A text has the same complaint made of it at every value of the variable or at none, and trying
one is enough to know. -/
theorem bad_everywhere (M : Arith V) (text name : Text) :
    (∀ x y why, evalNamed M x text name = some (.bad why) ↔
      evalNamed M y text name = some (.bad why)) ∧
    (validNamed M text name = true ↔ ∀ x why, evalNamed M x text name ≠ some (.bad why)) := by
  constructor
  · intro x y why
    exact ⟨evalNamed_bad text name why, evalNamed_bad text name why⟩
  · constructor
    · intro valid x why bad
      rw [validNamed, evalNamed_bad text name why bad] at valid
      cases valid
    · intro never
      have one := never M.one
      unfold validNamed
      split
      · rename_i why bad
        exact absurd bad (one why)
      · rfl

end ReconOS.Expr
