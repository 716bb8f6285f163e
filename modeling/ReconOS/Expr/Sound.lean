import ReconOS.Expr.Grammar

/-! What is read is the grammar's: each function of the descent, and then the whole text. -/
namespace ReconOS.Expr

variable {V : Type} {M : Arith V} {x : V} {var : Text}

/-! ## The parser's fields -/

@[simp] theorem skip_why (p : Parser) : p.skip.why = p.why := rfl
@[simp] theorem skip_undefined (p : Parser) : p.skip.undefined = p.undefined := rfl
@[simp] theorem skip_ended (p : Parser) : p.skip.ended = p.ended := rfl
@[simp] theorem past_rest (p : Parser) (rest : Text) : (p.past rest).rest = rest := rfl
@[simp] theorem past_why (p : Parser) (rest : Text) : (p.past rest).why = p.why := rfl
@[simp] theorem past_undefined (p : Parser) (rest : Text) :
    (p.past rest).undefined = p.undefined := rfl

theorem bad_eq (p : Parser) : p.bad = true ↔ p.why ≠ none := by
  rw [Parser.bad, Option.isSome_iff_ne_none]

theorem fail_why (p : Parser) (what : Text) : (p.fail what).why ≠ none := by
  unfold Parser.fail
  split
  · rename_i bad
    exact (bad_eq p).mp bad
  · exact Option.some_ne_none _

@[simp] theorem fail_rest (p : Parser) (what : Text) : (p.fail what).rest = p.rest := by
  unfold Parser.fail
  split
  · rfl
  · rfl

theorem fail_suffix (p : Parser) (what : Text) : (p.fail what).rest <:+ p.rest :=
  (fail_rest p what).symm ▸ List.suffix_refl p.rest

/-- The blanks that are skipped, and what is after them. -/
theorem skip_split (p : Parser) :
    ∃ blanks, p.rest = blanks ++ p.skip.rest ∧ ∀ c ∈ blanks, Blank c := by
  exists p.rest.takeWhile fun c => c = ' ' || c = '\t'
  constructor
  · exact List.takeWhile_append_dropWhile.symm
  · intro c mem
    have blank := List.all_eq_true.mp List.all_takeWhile c mem
    simpa [Blank] using blank

theorem skip_suffix (p : Parser) : p.skip.rest <:+ p.rest := List.dropWhile_suffix _

/-! ## Readings -/

/-- What reading at one level came to. -/
structure Reads (M : Arith V) (x : V) (var : Text) (l : Level) (p : Parser) (r : V × Parser) :
    Prop where
  suffix : r.2.rest <:+ p.rest
  was : r.2.why = none → p.why = none
  spelled : r.2.why = none → ∃ t a, p.rest = a ++ r.2.rest ∧ Spells M var l t a ∧
    Means M x t r.1 p.undefined r.2.undefined

/-- What reading on came to, where what is on the left has been read. -/
structure Extends (M : Arith V) (x : V) (var : Text) (l : Level) (left : V) (p : Parser)
    (r : V × Parser) : Prop where
  suffix : r.2.rest <:+ p.rest
  was : r.2.why = none → p.why = none
  spelled : r.2.why = none → ∀ t a first, Spells M var l t a →
    Means M x t left first p.undefined → ∃ u c, p.rest = c ++ r.2.rest ∧ Spells M var l u (a ++ c) ∧
      Means M x u r.1 first r.2.undefined

namespace Reads

variable {l l' : Level} {p : Parser} {r s : V × Parser}

theorem raise (h : Reads M x var l p r)
    (up : ∀ t a, Spells M var l t a → Spells M var l' t a) : Reads M x var l' p r := by
  constructor
  · exact h.suffix
  · exact h.was
  · intro fine
    obtain ⟨t, a, eq, spells, means⟩ := h.spelled fine
    exact ⟨t, a, eq, up t a spells, means⟩

theorem skip (h : Reads M x var l p.skip r) : Reads M x var l p r := by
  constructor
  · exact h.suffix.trans (skip_suffix p)
  · exact h.was
  · intro fine
    obtain ⟨t, a, eq, spells, means⟩ := h.spelled fine
    obtain ⟨blanks, before, blank⟩ := skip_split p
    refine ⟨t, blanks ++ a, ?_, spells.befores blanks blank, means⟩
    rw [before, eq, List.append_assoc]

theorem trailing (h : Reads M x var l p r) : Reads M x var l p (r.1, r.2.skip) := by
  constructor
  · exact (skip_suffix r.2).trans h.suffix
  · exact h.was
  · intro fine
    obtain ⟨t, a, eq, spells, means⟩ := h.spelled fine
    obtain ⟨blanks, after, blank⟩ := skip_split r.2
    refine ⟨t, a ++ blanks, ?_, Spells.afters blanks blank spells, means⟩
    rw [eq, List.append_assoc, ← after]

/-- One is read, and read on from. -/
theorem extend (h : Reads M x var l p r) (h' : Extends M x var l r.1 r.2 s) :
    Reads M x var l p s := by
  constructor
  · exact h'.suffix.trans h.suffix
  · intro fine
    exact h.was (h'.was fine)
  · intro fine
    obtain ⟨t, a, eq, spells, means⟩ := h.spelled (h'.was fine)
    obtain ⟨u, c, eq', spells', means'⟩ := h'.spelled fine t a p.undefined spells means
    refine ⟨u, a ++ c, ?_, spells', means'⟩
    rw [eq, eq', List.append_assoc]

/-- Nothing was read, and there is a complaint. -/
theorem failed {v : V} {q : Parser} (suffix : q.rest <:+ p.rest) (why : q.why ≠ none) :
    Reads M x var l p (v, q) :=
  ⟨suffix, fun fine => absurd fine why, fun fine => absurd fine why⟩

end Reads

namespace Extends

variable {l l' : Level} {p : Parser} {left : V} {r s : V × Parser}

/-- There is no more than blanks. -/
theorem stop : Extends M x var l left p (left, p.skip) := by
  constructor
  · exact skip_suffix p
  · exact id
  · intro _ t a first spells means
    obtain ⟨blanks, after, blank⟩ := skip_split p
    exact ⟨t, blanks, after, Spells.afters blanks blank spells, means⟩

/-- An operator, what is on its right, and what is read on from there. -/
theorem op {sep rest : Text} {f : Tree V → Tree V → Tree V} {made : Option V}
    (split : p.skip.rest = sep ++ rest) (h : Reads M x var l' (p.skip.past rest) r)
    (spell : ∀ t u a b, Spells M var l t a → Spells M var l' u b → b ++ r.2.rest = rest →
      Spells M var l (f t u) (a ++ (sep ++ b)))
    (mean : ∀ t u first, Means M x t left first p.undefined →
      Means M x u r.1 p.undefined r.2.undefined →
      Means M x (f t u) (keep M r.2 made).1 first (keep M r.2 made).2.undefined)
    (h' : Extends M x var l (keep M r.2 made).1 (keep M r.2 made).2 s) :
    Extends M x var l left p s := by
  have tail : r.2.rest <:+ p.rest := by
    apply h.suffix.trans
    rw [past_rest]
    have := skip_suffix p
    rw [split] at this
    exact (List.suffix_append sep rest).trans this
  have suffix' := h'.suffix
  have was' := h'.was
  rw [keep_rest] at suffix'
  rw [keep_why] at was'
  constructor
  · exact suffix'.trans tail
  · intro fine
    exact h.was (was' fine)
  · intro fine t a first spells means
    obtain ⟨u, b, eq, spells', means'⟩ := h.spelled (was' fine)
    obtain ⟨blanks, before, blank⟩ := skip_split p
    obtain ⟨w, c, eq', spelled, meant⟩ := h'.spelled fine (f t u) _ first
      (spell t u (a ++ blanks) b (Spells.afters blanks blank spells) spells' eq.symm)
      (mean t u first means means')
    rw [past_rest] at eq
    rw [keep_rest] at eq'
    refine ⟨w, blanks ++ (sep ++ b) ++ c, ?_, ?_, meant⟩
    · rw [before, split, eq, eq']
      simp only [List.append_assoc]
    · simpa only [List.append_assoc] using spelled

end Extends

/-! ## Names -/

theorem nameAt_split {c : Char} {rest : Text} (alpha : c.isAlpha = true) :
    ∃ a, c :: rest = a ++ (nameAt (c :: rest)).2 ∧
      (nameAt (c :: rest)).1 = a.map Char.toLower ∧ a ≠ [] ∧ ∀ c ∈ a, c.isAlpha = true := by
  have short : ((c :: rest).takeWhile Char.isAlpha).take 15 <+: c :: rest :=
    (List.take_prefix 15 _).trans (List.takeWhile_prefix _)
  refine ⟨((c :: rest).takeWhile Char.isAlpha).take 15, ?_, rfl, ?_, ?_⟩
  · exact (List.prefix_iff_eq_append.mp short).symm
  · rw [List.takeWhile_cons_of_pos alpha]
    exact List.cons_ne_nil _ _
  · intro c mem
    exact List.all_eq_true.mp List.all_takeWhile c (List.mem_of_mem_take mem)

theorem nameAt_suffix (text : Text) : (nameAt text).2 <:+ text := List.drop_suffix _ _

theorem named_spells {a : Text} {v : V} (any : a ≠ []) (letters : ∀ c ∈ a, c.isAlpha = true)
    (is : named M x var (a.map Char.toLower) = some v) :
    ∃ t, Spells M var .primary t a ∧ meaning M x t = some v := by
  unfold named at is
  split at is
  · rename_i isX
    exact ⟨.x, .x letters any (.inl isX), is⟩
  · split at is
    · rename_i isPi
      exact ⟨.pi, .pi isPi, is⟩
    · split at is
      · rename_i isE
        exact ⟨.e, .e isE, is⟩
      · split at is
        · rename_i isVar
          exact ⟨.x, .x letters any (.inr isVar.2), is⟩
        · cases is

/-- What is read after a name's letters `a`. -/
structure Names (M : Arith V) (x : V) (var : Text) (a : Text) (p : Parser) (r : V × Parser) :
    Prop where
  suffix : r.2.rest <:+ p.rest
  was : r.2.why = none → p.why = none
  spelled : r.2.why = none → ∃ t c, p.rest = c ++ r.2.rest ∧
    Spells M var .primary t (a ++ c) ∧ Means M x t r.1 p.undefined r.2.undefined

theorem Names.failed {a : Text} {p q : Parser} {v : V} (suffix : q.rest <:+ p.rest)
    (why : q.why ≠ none) : Names M x var a p (v, q) :=
  ⟨suffix, fun fine => absurd fine why, fun fine => absurd fine why⟩

theorem callFunction_rest (p : Parser) (name : Text) (v : V) :
    (callFunction M p name v).2.rest = p.rest := by
  unfold callFunction
  split
  · rw [checked_eq, keep_rest]
  · exact fail_rest p _

theorem callFunction_known {p : Parser} {name : Text} {v : V}
    (fine : (callFunction M p name v).2.why = none) :
    name ∈ functions ∧ p.why = none ∧
      callFunction M p name v = keep M p (M.check (M.call name v)) := by
  unfold callFunction at fine ⊢
  split
  · rename_i known
    rw [if_pos known, checked_eq, keep_why] at fine
    exact ⟨known, fine, checked_eq p _⟩
  · rename_i unknown
    rw [if_neg unknown] at fine
    exact absurd fine (fail_why p _)

/-! ## The descent -/

variable (M x var) in
/-- What each function does, as deep as `n`. -/
structure Sound (n : Nat) : Prop where
  expression : ∀ {p r}, parseExpression M x var n p = some r → Reads M x var .expression p r
  moreTerms : ∀ {left p r}, moreTerms M x var n left p = some r →
    Extends M x var .expression left p r
  nextTerm : ∀ {r s}, nextTerm M x var n r = some s → Extends M x var .expression r.1 r.2 s
  term : ∀ {p r}, parseTerm M x var n p = some r → Reads M x var .term p r
  moreFactors : ∀ {left p r}, moreFactors M x var n left p = some r →
    Extends M x var .term left p r
  nextFactor : ∀ {r s}, nextFactor M x var n r = some s → Extends M x var .term r.1 r.2 s
  unary : ∀ {p r}, parseUnary M x var n p = some r → Reads M x var .unary p r
  power : ∀ {p r}, parsePower M x var n p = some r → Reads M x var .power p r
  primary : ∀ {p r}, parsePrimary M x var n p = some r → Reads M x var .primary p r
  value : ∀ {p r}, parsePrimaryValue M x var n p = some r → Reads M x var .primary p r
  name : ∀ {a p r}, a ≠ [] → (∀ c ∈ a, c.isAlpha = true) →
    parseName M x var n p (a.map Char.toLower) = some r → Names M x var a p r

variable {n : Nat} {p : Parser} {left : V} {r s : V × Parser}

theorem sound_expression (ih : Sound M x var n)
    (h : parseExpression M x var (n + 1) p = some r) : Reads M x var .expression p r := by
  rw [parseExpression, Option.bind_eq_some_iff] at h
  obtain ⟨s, first, more⟩ := h
  exact ((ih.term first).raise fun _ _ => Spells.term).extend (ih.moreTerms more)

theorem sound_term (ih : Sound M x var n)
    (h : parseTerm M x var (n + 1) p = some r) : Reads M x var .term p r := by
  rw [parseTerm, Option.bind_eq_some_iff] at h
  obtain ⟨s, first, more⟩ := h
  exact ((ih.unary first).raise fun _ _ => Spells.unary).extend (ih.moreFactors more)

/-- A complaint in what was read on the right is kept, and ends the loop. -/
theorem bad_extends {l : Level} {v : V} (bad : r.2.bad = true) :
    Extends M x var l r.1 r.2 (v, r.2) := by
  have why := (bad_eq r.2).mp bad
  exact ⟨List.suffix_refl _, id, fun fine => absurd fine why⟩

theorem sound_nextTerm (ih : Sound M x var n)
    (h : nextTerm M x var (n + 1) r = some s) : Extends M x var .expression r.1 r.2 s := by
  rw [nextTerm] at h
  split at h
  · rename_i bad
    cases h
    exact bad_extends bad
  · exact ih.moreTerms h

theorem sound_nextFactor (ih : Sound M x var n)
    (h : nextFactor M x var (n + 1) r = some s) : Extends M x var .term r.1 r.2 s := by
  rw [nextFactor] at h
  split at h
  · rename_i bad
    cases h
    exact bad_extends bad
  · exact ih.moreFactors h

theorem sound_moreTerms (ih : Sound M x var n)
    (h : moreTerms M x var (n + 1) left p = some r) : Extends M x var .expression left p r := by
  rw [moreTerms] at h
  split at h
  · rename_i rest is
    rw [Option.bind_eq_some_iff] at h
    obtain ⟨s, read, more⟩ := h
    rw [checked_eq] at more
    refine Extends.op (f := .add) (show p.skip.rest = ['+'] ++ rest from is) (ih.term read) ?_ ?_
      (ih.nextTerm more)
    · intro t u a b spells spells' _
      exact .add spells spells'
    · intro t u first means means'
      exact means.two (fun a b => M.check (M.add a b)) means' rfl
  · rename_i rest is
    rw [Option.bind_eq_some_iff] at h
    obtain ⟨s, read, more⟩ := h
    rw [checked_eq] at more
    refine Extends.op (f := .sub) (show p.skip.rest = ['-'] ++ rest from is) (ih.term read) ?_ ?_
      (ih.nextTerm more)
    · intro t u a b spells spells' _
      exact .sub spells spells'
    · intro t u first means means'
      exact means.two (fun a b => M.check (M.sub a b)) means' rfl
  · cases h
    exact .stop

theorem sound_moreFactors (ih : Sound M x var n)
    (h : moreFactors M x var (n + 1) left p = some r) : Extends M x var .term left p r := by
  rw [moreFactors] at h
  split at h
  · rename_i rest is
    rw [Option.bind_eq_some_iff] at h
    obtain ⟨s, read, more⟩ := h
    rw [checked_eq] at more
    refine Extends.op (f := .mul) (show p.skip.rest = ['*'] ++ rest from is) (ih.unary read) ?_ ?_
      (ih.nextFactor more)
    · intro t u a b spells spells' _
      exact .mul spells spells'
    · intro t u first means means'
      exact means.two (fun a b => M.check (M.mul a b)) means' rfl
  · rename_i rest is
    rw [Option.bind_eq_some_iff] at h
    obtain ⟨s, read, more⟩ := h
    rw [quotient_eq] at more
    refine Extends.op (f := .div) (show p.skip.rest = ['/'] ++ rest from is) (ih.unary read) ?_ ?_
      (ih.nextFactor more)
    · intro t u a b spells spells' _
      exact .div spells spells'
    · intro t u first means means'
      exact means.two M.quotient? means' rfl
  · split at h
    · rename_i begins
      rw [Option.bind_eq_some_iff] at h
      obtain ⟨s, read, more⟩ := h
      rw [checked_eq] at more
      refine Extends.op (f := .mul) (show p.skip.rest = [] ++ p.skip.rest from rfl)
        (ih.unary read) ?_ ?_ (ih.nextFactor more)
      · intro t u a b spells spells' is
        apply Spells.times spells spells'
        -- what begins is the first of what was read
        rw [Bool.and_eq_true, ← is] at begins
        cases b with
        | nil => exact absurd rfl spells'.ne_nil
        | cons c b => exact begins.2
      · intro t u first means means'
        exact means.two (fun a b => M.check (M.mul a b)) means' rfl
    · cases h
      exact .stop

theorem sound_unary (ih : Sound M x var n)
    (h : parseUnary M x var (n + 1) p = some r) : Reads M x var .unary p r := by
  rw [parseUnary] at h
  split at h
  · rename_i rest is
    rw [Option.map_eq_some_iff] at h
    obtain ⟨s, read, rfl⟩ := h
    have reads := ih.unary read
    apply Reads.skip
    constructor
    · rw [is]
      exact reads.suffix.trans (List.suffix_cons _ _)
    · exact reads.was
    · intro fine
      obtain ⟨t, a, eq, spells, means⟩ := reads.spelled fine
      refine ⟨.neg t, '-' :: a, ?_, .minus spells, means.neg⟩
      rw [past_rest] at eq
      rw [is, eq, List.cons_append]
  · rename_i rest is
    have reads := ih.unary h
    apply Reads.skip
    constructor
    · rw [is]
      exact reads.suffix.trans (List.suffix_cons _ _)
    · exact reads.was
    · intro fine
      obtain ⟨t, a, eq, spells, means⟩ := reads.spelled fine
      refine ⟨t, '+' :: a, ?_, .plus spells, means⟩
      rw [past_rest] at eq
      rw [is, eq, List.cons_append]
  · exact ((ih.power h).raise fun _ _ => Spells.power).skip

theorem sound_power (ih : Sound M x var n)
    (h : parsePower M x var (n + 1) p = some r) : Reads M x var .power p r := by
  rw [parsePower, Option.bind_eq_some_iff] at h
  obtain ⟨s, first, more⟩ := h
  have base := ih.primary first
  split at more
  · rename_i rest is
    rw [Option.map_eq_some_iff] at more
    obtain ⟨s', read, rfl⟩ := more
    have reads := ih.unary read
    rw [checked_eq]
    have tail : rest <:+ s.2.rest := by
      have := skip_suffix s.2
      rw [is] at this
      exact (List.suffix_cons _ _).trans this
    constructor
    · rw [keep_rest]
      exact reads.suffix.trans (tail.trans base.suffix)
    · intro fine
      rw [keep_why] at fine
      exact base.was (reads.was fine)
    · intro fine
      rw [keep_why] at fine
      obtain ⟨u, b, eq, spells', means'⟩ := reads.spelled fine
      obtain ⟨t, a, eq', spells, means⟩ := base.spelled (reads.was fine)
      obtain ⟨blanks, before, blank⟩ := skip_split s.2
      refine ⟨.pow t u, (a ++ blanks) ++ '^' :: b, ?_,
        .pow (Spells.afters blanks blank spells) spells',
        means.two (fun a b => M.check (M.pow a b)) means' rfl⟩
      rw [past_rest] at eq
      rw [keep_rest, eq', before, is, eq]
      simp only [List.append_assoc, List.cons_append]
  · cases more
    exact (base.raise fun _ _ => Spells.primary).trailing

theorem sound_primary (ih : Sound M x var n)
    (h : parsePrimary M x var (n + 1) p = some r) : Reads M x var .primary p r := by
  rw [parsePrimary, Option.map_eq_some_iff] at h
  obtain ⟨s, read, rfl⟩ := h
  have reads := ih.value read
  exact ⟨reads.suffix, reads.was, reads.spelled⟩

/-- What is between a bracket and the one that closes it. -/
theorem between {q : Parser} {rest after : Text} (reads : Reads M x var .expression (q.past rest) s)
    (closed : s.2.skip.rest = ')' :: after) (fine : s.2.why = none) :
    ∃ t a, rest = a ++ ')' :: after ∧ Spells M var .expression t a ∧
      Means M x t s.1 q.undefined s.2.undefined := by
  obtain ⟨t, a, eq, spells, means⟩ := reads.trailing.spelled fine
  rw [past_rest] at eq
  dsimp only at eq
  rw [closed] at eq
  exact ⟨t, a, eq, spells, means⟩

theorem sound_value (ih : Sound M x var n)
    (h : parsePrimaryValue M x var (n + 1) p = some r) : Reads M x var .primary p r := by
  apply Reads.skip
  rw [parsePrimaryValue] at h
  split at h
  · cases h
    apply Reads.failed
    · exact fail_suffix _ _
    · exact fail_why _ _
  · rename_i rest is
    rw [Option.map_eq_some_iff] at h
    obtain ⟨s, read, rfl⟩ := h
    have reads := ih.expression read
    split
    · rename_i after closed
      constructor
      · rw [is]
        have := (skip_suffix s.2).trans reads.suffix
        rw [closed] at this
        exact (List.suffix_cons _ _).trans (this.trans (List.suffix_cons _ _))
      · exact reads.was
      · intro fine
        obtain ⟨t, a, eq, spells, means⟩ := between reads closed fine
        refine ⟨t, '(' :: a ++ [')'], ?_, .brackets spells, means⟩
        rw [is, eq, past_rest, List.append_assoc]
        rfl
    · apply Reads.failed
      · rw [fail_rest, is]
        exact (skip_suffix s.2).trans (reads.suffix.trans (List.suffix_cons _ _))
      · exact fail_why _ _
  · rename_i c rest _ is
    split at h
    · split at h
      · cases h
        apply Reads.failed
        · exact fail_suffix _ _
        · exact fail_why _ _
      · rename_i any
        cases h
        have is' := (List.take_append_drop (M.strtod (c :: rest)).2 (c :: rest)).symm
        have length := List.length_take_of_le (M.strtod_le (c :: rest))
        constructor
        · rw [is]
          exact List.drop_suffix _ _
        · exact id
        · intro _
          refine ⟨.number (M.strtod (c :: rest)).1, (c :: rest).take (M.strtod (c :: rest)).2,
            is.trans is', ?_, .of_some rfl⟩
          have spells := @Spells.number V M var ((c :: rest).take (M.strtod (c :: rest)).2)
            ((c :: rest).drop (M.strtod (c :: rest)).2)
          rw [← is'] at spells
          apply spells _ length.symm
          intro none
          rw [none] at length
          exact any length.symm
    · split at h
      · rename_i alpha
        obtain ⟨a, eq, name, some, letters⟩ := nameAt_split alpha
        rw [name] at h
        have names := ih.name some letters h
        constructor
        · rw [is]
          exact names.suffix.trans (nameAt_suffix _)
        · exact names.was
        · intro fine
          obtain ⟨t, d, eq', spells, means⟩ := names.spelled fine
          refine ⟨t, a ++ d, ?_, spells, means⟩
          rw [past_rest] at eq'
          rw [is, eq, eq', List.append_assoc]
      · cases h
        apply Reads.failed
        · exact fail_suffix _ _
        · exact fail_why _ _

theorem sound_name {a : Text} (ih : Sound M x var n) (any : a ≠ [])
    (letters : ∀ c ∈ a, c.isAlpha = true)
    (h : parseName M x var (n + 1) p (a.map Char.toLower) = some r) : Names M x var a p r := by
  rw [parseName] at h
  split at h
  · rename_i v is
    cases h
    obtain ⟨t, spells, means⟩ := named_spells any letters is
    refine ⟨List.suffix_refl _, id, fun _ => ⟨t, [], rfl, ?_, .of_some means⟩⟩
    rwa [List.append_nil]
  · split at h
    · rename_i rest is
      rw [Option.map_eq_some_iff] at h
      obtain ⟨s, read, rfl⟩ := h
      have reads := ih.expression read
      have tail := skip_suffix p
      rw [is] at tail
      split
      · rename_i after closed
        constructor
        · rw [callFunction_rest]
          have := (skip_suffix s.2).trans reads.suffix
          rw [closed] at this
          exact (List.suffix_cons _ _).trans (this.trans ((List.suffix_cons _ _).trans tail))
        · intro fine
          exact reads.was (callFunction_known fine).2.1
        · intro fine
          obtain ⟨known, fine', is'⟩ := callFunction_known fine
          obtain ⟨t, d, eq, spells, means⟩ := between reads closed fine'
          obtain ⟨blanks, before, blank⟩ := skip_split p
          refine ⟨.call (a.map Char.toLower) t, blanks ++ '(' :: d ++ [')'], ?_, ?_, ?_⟩
          · rw [callFunction_rest, before, is, eq, past_rest]
            simp only [List.append_assoc, List.cons_append, List.nil_append]
          · have spelled := Spells.call known blank spells
            simpa only [List.append_assoc] using spelled
          · rw [is']
            have meant : meaning M x (.call (a.map Char.toLower) t) = (meaning M x t).bind fun v =>
              M.check (M.call (a.map Char.toLower) v) := rfl
            have means' : Means M x t s.1 p.undefined (s.2.skip.past after).undefined := means
            exact means'.one _ meant
      · apply Names.failed
        · rw [fail_rest]
          exact (skip_suffix s.2).trans (reads.suffix.trans ((List.suffix_cons _ _).trans tail))
        · exact fail_why _ _
    · cases h
      apply Names.failed
      · rw [fail_rest]
        exact skip_suffix p
      · exact fail_why _ _

variable (M x var) in
/-- The induction is on the depth of the recursion; each function calls those one level down. -/
theorem sound (n : Nat) : Sound M x var n := by
  induction n with
  | zero =>
    constructor
    all_goals
      intros
      contradiction
  | succ n ih =>
    constructor
    case expression => exact sound_expression ih
    case moreTerms => exact sound_moreTerms ih
    case nextTerm => exact sound_nextTerm ih
    case term => exact sound_term ih
    case moreFactors => exact sound_moreFactors ih
    case nextFactor => exact sound_nextFactor ih
    case unary => exact sound_unary ih
    case power => exact sound_power ih
    case primary => exact sound_primary ih
    case value => exact sound_value ih
    case name => exact sound_name ih

end ReconOS.Expr
