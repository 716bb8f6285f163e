import ReconOS.Firewall.Restart

/-! A rules file with one value in it damaged: what is made of it, and what it opens. -/
namespace ReconOS.Firewall
open Libc Lib

/-! ## One value of a file -/

inductive Field where
  | enabled | direction | protocol | ports | program | action | name
  deriving DecidableEq

/-- The switch, a default, or one field of the rule at a place. -/
inductive Part where
  | switch
  | default (d : Direction)
  | rule (i : Nat) (k : Field)
  deriving DecidableEq

def Fields.replace (f : Fields) (k : Field) (t : Text) : Fields :=
  match k with
  | .enabled => { f with enabled := t }
  | .direction => { f with direction := t }
  | .protocol => { f with protocol := t }
  | .ports => { f with ports := t }
  | .program => { f with program := t }
  | .action => { f with action := t }
  | .name => { f with name := t }

/-- The file `write_rules` makes of `fw`, with `t` in the place of one value. -/
def damagedText (fw : Policy) (part : Part) (t : Text) : Text :=
  let defaultIn := actionName fw.defaultIn
  let defaultOut := actionName fw.defaultOut
  let rules := fw.rules.map fieldsOf
  match part with
  | .switch => fileText t defaultIn defaultOut rules
  | .default .fwIn => fileText (yesWord fw.on) t defaultOut rules
  | .default .fwOut => fileText (yesWord fw.on) defaultIn t rules
  | .rule i k => fileText (yesWord fw.on) defaultIn defaultOut (rules.modify i (·.replace k t))

/-- Text that stands in one place of the file: it ends no line, and in a rule no field. -/
structure OneValue (part : Part) (t : Text) : Prop where
  line : OneLine t
  field : ∀ i k, part = .rule i k → '|' ∉ t

/-- Not one of the words of that field. Ports, programs and names have no words, and all text is
meant. -/
def Illegal (part : Part) (t : Text) : Prop :=
  match part with
  | .switch => yesOrNo (trim t) = none
  | .default _ => actionFromChecked (trim t) = none
  | .rule _ .enabled =>
    sameText (trim t) "on".toList = false ∧ sameText (trim t) "off".toList = false
  | .rule _ .direction =>
    sameText (trim t) "in".toList = false ∧ sameText (trim t) "out".toList = false
  | .rule _ .protocol => sameText (trim t) "tcp".toList = false ∧
      sameText (trim t) "udp".toList = false ∧ sameText (trim t) "any".toList = false
  | .rule _ .action => actionFromChecked (trim t) = none
  | .rule _ .ports => True
  | .rule _ .program => True
  | .rule _ .name => True

/-! ## What becomes of it -/

/-- Each field's fallback: off, outgoing, any protocol, numbers as far as they go, a program as far
as it fits, block. -/
def reread (k : Field) (t : Text) (r : Rule) : Rule :=
  match k with
  | .enabled => { r with enabled := false }
  | .direction => { r with direction := some .fwOut }
  | .protocol => { r with protocol := .any }
  | .ports =>
    { r with portFrom := (parsePorts (trim t)).1
             portTo := (parsePorts (trim t)).2
             ints := parsePorts_ints _ }
  | .program => { r with program := .copy (if trim t = ['*'] then [] else trim t) }
  | .action => { r with action := .block }
  | .name => { r with name := .copy (trim t) }

/-- The policy the damaged file is read as. -/
def damaged (fw : Policy) (part : Part) (t : Text) : Policy :=
  match part with
  | .switch => { fw with on := true }
  | .default .fwIn => { fw with defaultIn := .block }
  | .default .fwOut => { fw with defaultOut := .allow }
  | .rule i k =>
    { fw with rules := fw.rules.modify i (reread k t)
              room := by rw [List.length_modify]; exact fw.room }

theorem ruleOf_replace {r : Rule} (kept : r.Kept) {i : Nat} {k : Field} {t : Text}
    (illegal : Illegal (.rule i k) t) :
    ruleOf ((fieldsOf r).replace k t).trimmed = reread k t r := by
  have whole := (reread_iff kept.oneField).mpr kept
  have name := congrArg (·.name) whole
  have direction := congrArg (·.direction) whole
  have protocol := congrArg (·.protocol) whole
  have portFrom := congrArg (·.portFrom) whole
  have portTo := congrArg (·.portTo) whole
  have program := congrArg (·.program) whole
  have action := congrArg (·.action) whole
  have enabled := congrArg (·.enabled) whole
  cases k with
  | enabled => exact Rule.ext name direction protocol portFrom portTo program action illegal.1
  | direction =>
    refine Rule.ext name ?_ protocol portFrom portTo program action enabled
    show some (if sameText (trim t) "in".toList then Direction.fwIn else .fwOut) = some .fwOut
    rw [illegal.1, if_neg Bool.false_ne_true]
  | protocol =>
    refine Rule.ext name direction ?_ portFrom portTo program action enabled
    show protocolFrom (trim t) = .any
    rw [protocolFrom, illegal.1, illegal.2.1]
    rfl
  | ports => exact Rule.ext name direction protocol rfl rfl program action enabled
  | program => exact Rule.ext name direction protocol portFrom portTo rfl action enabled
  | action =>
    refine Rule.ext name direction protocol portFrom portTo program ?_ enabled
    show actionFrom (trim t) .block = .block
    rw [actionFrom, illegal]
    rfl
  | name => exact Rule.ext rfl direction protocol portFrom portTo program action enabled

theorem Fields.Plain.replace {f : Fields} (plain : f.Plain) (k : Field) {t : Text}
    (line : OneLine t) (field : '|' ∉ t) : (f.replace k t).Plain := by
  have without {c : Char} (before : f.Without c) (new : c ∉ t) : (f.replace k t).Without c := by
    obtain ⟨enabled, direction, protocol, ports, program, action, name⟩ := before
    cases k <;> constructor <;> assumption
  exact ⟨without plain.bars field, without plain.lines line.1, without plain.ends line.2⟩

theorem map_modify_congr {α β : Type} {g : α → β} {f : α → α} {h : β → β} {l : List α}
    (same : ∀ x ∈ l, g (f x) = h (g x)) (i : Nat) :
    (l.modify i f).map g = (l.map g).modify i h := by
  induction l generalizing i with
  | nil => simp
  | cons x l ih =>
    cases i with
    | zero => simp [same x List.mem_cons_self]
    | succ i =>
      have rest := ih (fun y inside => same y (List.mem_cons_of_mem _ inside)) i
      simpa using rest

/-- **What a damaged file is read as.** -/
theorem readRules_damagedText {fw : Policy} (kept : ∀ r ∈ fw.rules, r.Kept) {part : Part}
    {t : Text} (one : OneValue part t) (illegal : Illegal part t) :
    readRules (damagedText fw part t) = damaged fw part t := by
  have plain : ∀ f ∈ fw.rules.map fieldsOf, f.Plain := by
    intro f inside
    obtain ⟨r, is, rfl⟩ := List.mem_map.mp inside
    exact fieldsOf_plain (kept r is).oneField
  have word : ∀ a, OneLine (actionName a) := by
    intro a
    exact ⟨(words_without (by simp)).2.2.2 a, (words_without (by simp)).2.2.2 a⟩
  have switch : OneLine (yesWord fw.on) ∧ yesOrNo (trim (yesWord fw.on)) = some fw.on := by
    cases fw.on <;> exact ⟨⟨by decide, by decide⟩, by decide⟩
  have room : (fw.rules.map fieldsOf).length ≤ rulesMax := by
    rw [List.length_map]
    exact fw.room
  have on : (yesOrNo (trim (yesWord fw.on))).getD true = fw.on := by
    rw [switch.2, Option.getD_some]
  have defaultIn : (actionFromChecked (trim (actionName fw.defaultIn))).getD .block =
      fw.defaultIn := by
    rw [actionName_read, Option.getD_some]
  have defaultOut : (actionFromChecked (trim (actionName fw.defaultOut))).getD .allow =
      fw.defaultOut := by
    rw [actionName_read, Option.getD_some]
  have rules : (fw.rules.map fieldsOf).map (ruleOf ·.trimmed) = fw.rules := by
    calc (fw.rules.map fieldsOf).map (ruleOf ·.trimmed)
        = fw.rules.map fun r => ruleOf (fieldsOf r).trimmed := List.map_map
      _ = fw.rules.map id := List.map_congr_left fun r inside =>
          (reread_iff (kept r inside).oneField).mpr (kept r inside)
      _ = fw.rules := List.map_id _
  match part with
  | .switch =>
    have fallback : (yesOrNo (trim t)).getD true = true := by
      rw [show yesOrNo (trim t) = none from illegal]
      rfl
    rw [damagedText, readRules_fileText one.line (word _) (word _) plain room]
    exact Policy.ext fallback defaultIn defaultOut rules
  | .default .fwIn =>
    have fallback : (actionFromChecked (trim t)).getD .block = .block := by
      rw [show actionFromChecked (trim t) = none from illegal]
      rfl
    rw [damagedText, readRules_fileText switch.1 one.line (word _) plain room]
    exact Policy.ext on fallback defaultOut rules
  | .default .fwOut =>
    have fallback : (actionFromChecked (trim t)).getD .allow = .allow := by
      rw [show actionFromChecked (trim t) = none from illegal]
      rfl
    rw [damagedText, readRules_fileText switch.1 (word _) one.line plain room]
    exact Policy.ext on defaultIn fallback rules
  | .rule i k =>
    have plain' : ∀ f ∈ (fw.rules.map fieldsOf).modify i (·.replace k t), f.Plain := by
      intro f inside
      obtain ⟨j, less, rfl⟩ := List.mem_iff_getElem.mp inside
      rw [List.getElem_modify]
      split
      · exact (plain _ (List.getElem_mem _)).replace k one.line (one.field i k rfl)
      · exact plain _ (List.getElem_mem _)
    have changed : ((fw.rules.map fieldsOf).modify i (·.replace k t)).map (ruleOf ·.trimmed) =
        fw.rules.modify i (reread k t) := by
      rw [map_modify_congr (h := reread k t), rules]
      intro f inside
      obtain ⟨r, is, rfl⟩ := List.mem_map.mp inside
      rw [(reread_iff (kept r is).oneField).mpr (kept r is)]
      exact ruleOf_replace (kept r is) illegal
    rw [damagedText, readRules_fileText switch.1 (word _) (word _) plain'
      (by rw [List.length_modify]; exact room)]
    exact Policy.ext on defaultIn defaultOut changed

/-! ## What it opens -/

/-- What a list of rules and a default say: the first that matches decides. -/
def verdict (rules : List Rule) (default : Action) (q : Query) : Bool :=
  match rules.find? (ruleMatches · q) with
  | some r => r.action = .allow
  | none => default = .allow

theorem allows_on {p : Policy} (on : p.on = true) (q : Query) :
    (allows p q).1 = verdict p.rules (p.default q.direction) q := by
  unfold allows verdict
  rw [on]
  cases p.rules.find? (ruleMatches · q) <;> rfl

theorem allows_off {fw : Policy} (off : fw.on = false) (q : Query) : (allows fw q).1 = true := by
  simp [allows, off]

theorem verdict_cons (r : Rule) (rules : List Rule) (default : Action) (q : Query) :
    verdict (r :: rules) default q =
      if ruleMatches r q then decide (r.action = .allow) else verdict rules default q := by
  unfold verdict
  rw [List.find?_cons]
  cases ruleMatches r q <;> rfl

/-- Rules that all pass a query by leave it to the ones after them. -/
theorem verdict_append {front : List Rule} {q : Query} (rest : List Rule) (default : Action)
    (passed : ∀ r ∈ front, ruleMatches r q = false) :
    verdict (front ++ rest) default q = verdict rest default q := by
  induction front with
  | nil => rfl
  | cons r front ih =>
    rw [List.cons_append, verdict_cons, passed r List.mem_cons_self, if_neg Bool.false_ne_true]
    exact ih fun r' inside => passed r' (List.mem_cons_of_mem _ inside)

/-- Where one of them matches, what is after them does not count. -/
theorem verdict_append_of_mem {front rest : List Rule} {q : Query} (rest' : List Rule)
    (default : Action) (decided : ∃ r ∈ front, ruleMatches r q = true) :
    verdict (front ++ rest) default q = verdict (front ++ rest') default q := by
  induction front with
  | nil => simp at decided
  | cons r front ih =>
    rw [List.cons_append, List.cons_append, verdict_cons, verdict_cons]
    split
    case isTrue => rfl
    case isFalse other =>
      apply ih
      obtain ⟨r', inside, is⟩ := decided
      cases List.mem_cons.mp inside with
      | inl first => exact absurd (first ▸ is) other
      | inr later => exact ⟨r', later, is⟩

/-- The query comes as far as the rule at this place. -/
def Reaches (fw : Policy) (i : Nat) (q : Query) : Prop :=
  ∀ r ∈ fw.rules.take i, ruleMatches r q = false

/-- What the rules after this place, and the default, say. -/
def after (fw : Policy) (i : Nat) (q : Query) : Bool :=
  verdict (fw.rules.drop (i + 1)) (fw.default q.direction) q

/-- A blocking rule that lets go of no traffic the rest would let through, an allowing one that
takes none the rest would stop. -/
structure Holds (fw : Policy) (i : Nat) (r r' : Rule) : Prop where
  block : r.action = .block → ∀ q, Reaches fw i q → ruleMatches r q = true →
    ruleMatches r' q = false → after fw i q = false
  allow : r.action = .allow → ∀ q, Reaches fw i q → ruleMatches r' q = true →
    ruleMatches r q = false → after fw i q = true

/-- Where damage opens nothing. The switch and `default in` fall back to the safe side whatever they
were; `default out` does not, and only rules can stand in for it. A damaged action is block. -/
def Safe (fw : Policy) (part : Part) (t : Text) : Prop :=
  match part with
  | .switch => True
  | .default .fwIn => True
  | .default .fwOut => fw.on = true → fw.defaultOut = .block →
      ∀ q : Query, q.direction = .fwOut → ∃ r ∈ fw.rules, ruleMatches r q = true
  | .rule _ .action => True
  | .rule _ .name => True
  | .rule i k => fw.on = true → ∀ r, fw.rules[i]? = some r → Holds fw i r (reread k t r)

/-- Nothing that `fw` blocks does `fw'` let through. -/
def OpensNothing (fw fw' : Policy) : Prop :=
  ∀ q, (allows fw' q).1 = true → (allows fw q).1 = true

theorem opensNothing_refl (fw : Policy) : OpensNothing fw fw := fun _ => id

theorem opensNothing_switch (fw : Policy) : OpensNothing fw { fw with on := true } := by
  intro q
  cases on : fw.on with
  | false => exact fun _ => allows_off on q
  | true =>
    have same : { fw with on := true } = fw := Policy.ext on.symm rfl rfl rfl
    rw [same]
    exact id

/-- Where no rule decides, the default does. -/
theorem verdict_unmatched {rules : List Rule} {q : Query} (default : Action)
    (passed : ∀ r ∈ rules, ruleMatches r q = false) :
    verdict rules default q = decide (default = .allow) := by
  have here := verdict_append [] default passed
  rw [List.append_nil] at here
  exact here

/-- Where one does, the default does not count. -/
theorem verdict_matched {rules : List Rule} {q : Query} (a b : Action)
    (decided : ∃ r ∈ rules, ruleMatches r q = true) : verdict rules a q = verdict rules b q := by
  unfold verdict
  cases found : rules.find? (ruleMatches · q) with
  | some r => rfl
  | none =>
    obtain ⟨r, inside, is⟩ := decided
    have passed := List.find?_eq_none.mp found r inside
    exact absurd is passed

theorem matched_or_passed (rules : List Rule) (q : Query) :
    (∃ r ∈ rules, ruleMatches r q = true) ∨ ∀ r ∈ rules, ruleMatches r q = false := by
  by_cases decided : ∃ r ∈ rules, ruleMatches r q = true
  · exact .inl decided
  · refine .inr fun r inside => ?_
    by_contra is
    exact decided ⟨r, inside, by simpa using is⟩

theorem opensNothing_in (fw : Policy) : OpensNothing fw { fw with defaultIn := .block } := by
  intro q opened
  cases on : fw.on with
  | false => exact allows_off on q
  | true =>
    rw [allows_on on]
    rw [allows_on (p := { fw with defaultIn := .block }) on] at opened
    cases matched_or_passed fw.rules q with
    | inl decided =>
      rw [verdict_matched _ _ decided]
      exact opened
    | inr passed =>
      rw [verdict_unmatched _ passed] at opened ⊢
      cases direction : q.direction with
      | fwIn => simp [direction, Policy.default] at opened
      | fwOut =>
        rw [direction] at opened
        exact opened

theorem opensNothing_out_iff (fw : Policy) :
    OpensNothing fw { fw with defaultOut := .allow } ↔
      (fw.on = true → fw.defaultOut = .block →
        ∀ q : Query, q.direction = .fwOut → ∃ r ∈ fw.rules, ruleMatches r q = true) := by
  constructor
  · intro nothing on block q out
    cases matched_or_passed fw.rules q with
    | inl decided => exact decided
    | inr passed =>
      have opened : (allows { fw with defaultOut := .allow } q).1 = true := by
        rw [allows_on (p := { fw with defaultOut := .allow }) on, verdict_unmatched _ passed, out]
        rfl
      have before := nothing q opened
      rw [allows_on on, verdict_unmatched _ passed, out] at before
      simp [Policy.default, block] at before
  · intro covered q opened
    cases on : fw.on with
    | false => exact allows_off on q
    | true =>
      rw [allows_on on]
      rw [allows_on (p := { fw with defaultOut := .allow }) on] at opened
      cases matched_or_passed fw.rules q with
      | inl decided =>
        rw [verdict_matched _ _ decided]
        exact opened
      | inr passed =>
        rw [verdict_unmatched _ passed] at opened ⊢
        cases direction : q.direction with
        | fwIn =>
          rw [direction] at opened
          exact opened
        | fwOut =>
          cases default : fw.defaultOut with
          | allow => simp [Policy.default, default]
          | block =>
            obtain ⟨r, inside, is⟩ := covered on default q direction
            simp [passed r inside] at is

/-! ## A damaged rule -/

section
variable {fw fw' : Policy} {i : Nat} {r r' : Rule}

/-- One rule for another, and all else the same. -/
structure Exchanged (fw fw' : Policy) (i : Nat) (r r' : Rule) : Prop where
  at_i : fw.rules[i]? = some r
  rules : fw'.rules = fw.rules.take i ++ r' :: fw.rules.drop (i + 1)
  on : fw'.on = fw.on
  default : ∀ d, fw'.default d = fw.default d

theorem Exchanged.before (e : Exchanged fw fw' i r r') :
    fw.rules = fw.rules.take i ++ r :: fw.rules.drop (i + 1) := by
  obtain ⟨less, is⟩ := List.getElem?_eq_some_iff.mp e.at_i
  rw [← is, List.getElem_cons_drop, List.take_append_drop]

/-- A query that an earlier rule decides. -/
theorem Exchanged.decided (e : Exchanged fw fw' i r r') {q : Query}
    (decided : ∃ r ∈ fw.rules.take i, ruleMatches r q = true) :
    verdict fw.rules (fw.default q.direction) q =
      verdict fw'.rules (fw'.default q.direction) q := by
  have whole := congrArg (verdict · (fw.default q.direction) q) e.before
  rw [whole, verdict_append_of_mem (r' :: fw.rules.drop (i + 1)) _ decided, ← e.rules,
    ← e.default]

/-- A query that comes as far as the rule: it decides, or the rest does. -/
theorem Exchanged.verdicts (e : Exchanged fw fw' i r r') {q : Query} (reaches : Reaches fw i q) :
    verdict fw.rules (fw.default q.direction) q =
        (if ruleMatches r q then decide (r.action = .allow) else after fw i q) ∧
      verdict fw'.rules (fw'.default q.direction) q =
        (if ruleMatches r' q then decide (r'.action = .allow) else after fw i q) := by
  constructor
  · have whole := congrArg (verdict · (fw.default q.direction) q) e.before
    rw [whole, verdict_append _ _ reaches, verdict_cons]
    rfl
  · rw [e.rules, verdict_append _ _ reaches, verdict_cons, e.default]
    rfl

theorem Exchanged.opensNothing_iff (e : Exchanged fw fw' i r r') (action : r'.action = r.action) :
    OpensNothing fw fw' ↔ (fw.on = true → Holds fw i r r') := by
  constructor
  · intro nothing on
    have on' : fw'.on = true := e.on.trans on
    have opened {q : Query} (reaches : Reaches fw i q)
        (new : (if ruleMatches r' q then decide (r'.action = .allow) else after fw i q) = true) :
        (if ruleMatches r q then decide (r.action = .allow) else after fw i q) = true := by
      obtain ⟨old, changed⟩ := e.verdicts reaches
      rw [← old, ← allows_on on]
      apply nothing
      rw [allows_on on', changed, new]
    refine ⟨fun block q reaches matched passed => ?_, fun allow q reaches matched passed => ?_⟩
    · by_contra through
      rw [Bool.not_eq_false] at through
      have is := opened reaches (by simp [passed, through])
      simp [matched, block] at is
    · have is := opened reaches (by simp [matched, action, allow])
      simpa [passed] using is
  · intro holds q opened
    cases on : fw.on with
    | false => exact allows_off on q
    | true =>
      have on' : fw'.on = true := e.on.trans on
      rw [allows_on on]
      rw [allows_on on'] at opened
      cases matched_or_passed (fw.rules.take i) q with
      | inl decided =>
        rw [e.decided decided]
        exact opened
      | inr reaches =>
        obtain ⟨old, changed⟩ := e.verdicts reaches
        rw [changed, action] at opened
        rw [old]
        obtain ⟨block, allow⟩ := holds on
        cases matched : ruleMatches r q with
        | true =>
          cases matched' : ruleMatches r' q with
          | true => simpa [matched, matched'] using opened
          | false =>
            have through : after fw i q = true := by simpa [matched'] using opened
            cases is : r.action with
            | allow => simp
            | block => simp [block is q reaches matched matched'] at through
        | false =>
          cases matched' : ruleMatches r' q with
          | false => simpa [matched, matched'] using opened
          | true =>
            have is : r.action = .allow := by simpa [matched'] using opened
            simpa using allow is q reaches matched' matched

/-- A rule that blocks what it matched before opens nothing. -/
theorem Exchanged.opensNothing_block (e : Exchanged fw fw' i r r') (action : r'.action = .block)
    (matches' : ∀ q, ruleMatches r' q = ruleMatches r q) : OpensNothing fw fw' := by
  intro q opened
  cases on : fw.on with
  | false => exact allows_off on q
  | true =>
    have on' : fw'.on = true := e.on.trans on
    rw [allows_on on]
    rw [allows_on on'] at opened
    cases matched_or_passed (fw.rules.take i) q with
    | inl decided =>
      rw [e.decided decided]
      exact opened
    | inr reaches =>
      obtain ⟨old, changed⟩ := e.verdicts reaches
      rw [changed, matches', action] at opened
      rw [old]
      cases matched : ruleMatches r q with
      | true => simp [matched] at opened
      | false => simpa [matched] using opened

end

theorem reread_exchanged {fw : Policy} {i : Nat} {k : Field} {t : Text} {r : Rule}
    (at_i : fw.rules[i]? = some r) :
    Exchanged fw (damaged fw (.rule i k) t) i r (reread k t r) := by
  obtain ⟨less, is⟩ := List.getElem?_eq_some_iff.mp at_i
  refine ⟨at_i, ?_, rfl, fun d => ?_⟩
  · show fw.rules.modify i (reread k t) = _
    rw [List.modify_eq_take_cons_drop less, is]
  · cases d <;> rfl

theorem damaged_past {fw : Policy} {i : Nat} {k : Field} {t : Text}
    (past : fw.rules[i]? = none) : damaged fw (.rule i k) t = fw := by
  refine Policy.ext rfl rfl rfl ?_
  exact List.modify_eq_self (List.getElem?_eq_none_iff.mp past)

/-- What a damaged rule opens, field by field. -/
theorem opensNothing_rule_iff (fw : Policy) (i : Nat) (k : Field) (t : Text) :
    OpensNothing fw (damaged fw (.rule i k) t) ↔ Safe fw (.rule i k) t := by
  cases at_i : fw.rules[i]? with
  | none =>
    rw [damaged_past at_i]
    refine iff_of_true (opensNothing_refl fw) ?_
    cases k <;> first | trivial | exact fun _ r is => absurd (at_i.symm.trans is) (by simp)
  | some r =>
    have e := reread_exchanged (k := k) (t := t) at_i
    have sameAction (action : (reread k t r).action = r.action) :
        OpensNothing fw (damaged fw (.rule i k) t) ↔
          (fw.on = true → ∀ r, fw.rules[i]? = some r → Holds fw i r (reread k t r)) := by
      rw [e.opensNothing_iff action]
      constructor
      · intro holds on r'' is
        obtain rfl := Option.some.inj (at_i.symm.trans is)
        exact holds on
      · exact fun holds on => holds on r at_i
    cases k with
    | enabled => exact sameAction rfl
    | direction => exact sameAction rfl
    | protocol => exact sameAction rfl
    | ports => exact sameAction rfl
    | program => exact sameAction rfl
    | action => exact iff_of_true (e.opensNothing_block rfl fun _ => rfl) trivial
    | name =>
      refine iff_of_true ((e.opensNothing_iff rfl).mpr fun _ => ⟨?_, ?_⟩) trivial
      · intro _ q _ matched passed
        exact absurd (matched.symm.trans passed) (by decide)
      · intro _ q _ matched passed
        exact absurd (matched.symm.trans passed) (by decide)

theorem init_some (text : Text) : (init .lands (some text)).1.fw = readRules text := rfl

/-- **What damage opens.** For any policy the file can carry and any one value of that file replaced
by text that is not a word of its field: nothing is let through that was not, exactly where `Safe`
says. -/
theorem damage_opensNothing_iff (fw : Policy) (kept : ∀ r ∈ fw.rules, r.Kept) (part : Part)
    (t : Text) (one : OneValue part t) (illegal : Illegal part t) :
    OpensNothing (init .lands (some (rulesText fw))).1.fw
      (init .lands (some (damagedText fw part t))).1.fw ↔ Safe fw part t := by
  rw [init_some, init_some, (readRules_rulesText_iff fw).mpr kept, readRules_damagedText kept one illegal]
  match part with
  | .switch => exact iff_of_true (opensNothing_switch fw) trivial
  | .default .fwIn => exact iff_of_true (opensNothing_in fw) trivial
  | .default .fwOut => exact opensNothing_out_iff fw
  | .rule i k => exact opensNothing_rule_iff fw i k t

/-- The rules as shipped, and everything else stopped. -/
def guarded : Policy := { writeDefaults with defaultOut := .block }

/-- A rule that allows the web out, whose `on` has a letter too many, allows nothing. -/
theorem damage_opensNothing_rule : OpensNothing (init .lands (some (rulesText guarded))).1.fw
    (init .lands (some (damagedText guarded (.rule 15 .enabled) "onn".toList))).1.fw := by
  have safe : Safe guarded (.rule 15 .enabled) "onn".toList := by
    intro _ r at_
    have allows : ∀ r ∈ defaults, r.action = .allow := by decide +kernel
    refine ⟨fun blocks => ?_, fun _ q _ matched => ?_⟩
    · exact absurd ((allows r (List.mem_of_getElem? at_)).symm.trans blocks) (by decide)
    · cases matched
  exact (damage_opensNothing_iff guarded defaults_kept (.rule 15 .enabled) "onn".toList
    ⟨⟨by decide, by decide⟩, fun _ _ _ => by decide⟩ ⟨by decide, by decide⟩).mpr safe

/-- Everything stopped. -/
def stopped : Policy := ⟨true, .block, .block, [], Nat.zero_le _⟩

/-- A program asking for the web. -/
def web : Query := ⟨.fwOut, .tcp, 80, none⟩

/-- A firewall that stops everything, its `default out` one letter short, lets it out. -/
theorem damage_opens_out : Illegal (.default .fwOut) "bloc".toList ∧
    (allows (init .lands (some (rulesText stopped))).1.fw web).1 = false ∧
    (allows (init .lands
      (some (damagedText stopped (.default .fwOut) "bloc".toList))).1.fw web).1 = true := by
  have illegal : Illegal (.default .fwOut) "bloc".toList := by
    show actionFromChecked _ = none
    decide
  have none : ∀ r ∈ stopped.rules, r.Kept := by simp [stopped]
  have read := readRules_damagedText none
    (⟨⟨by decide, by decide⟩, by simp⟩ : OneValue (.default .fwOut) "bloc".toList) illegal
  refine ⟨illegal, ?_, ?_⟩
  · rw [init_some, (readRules_rulesText_iff stopped).mpr none]
    rfl
  · rw [init_some, read]
    rfl

end ReconOS.Firewall
