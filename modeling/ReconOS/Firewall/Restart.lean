import ReconOS.Firewall.Lines

/-! The firewall across a restart: which rules the file carries, and what is in force once it is
read. -/
namespace ReconOS.Firewall
open Libc Lib

/-! ## The buffer never fills -/

theorem bar_length : bar.length = 3 := by decide

theorem onWord_length (on : Bool) : (onWord on).length ≤ 3 := by cases on <;> decide

theorem directionName_length (d : Option Direction) : (directionName d).length ≤ 3 := by
  cases d with
  | none => decide
  | some d => cases d <;> decide

theorem protocolName_length (p : Protocol) : (protocolName p).length ≤ 3 := by cases p <;> decide

theorem actionName_length (a : Action) : (actionName a).length ≤ 5 := by cases a <;> decide

theorem printPorts_length {r : Rule} : (printPorts r.portFrom r.portTo).length ≤ 23 := by
  have first := printInt_length r.ints.1
  have second := printInt_length r.ints.2
  rw [printPorts, List.length_append, List.length_cons]
  omega

theorem joinFields_length (f : Fields) : (joinFields f).length =
    f.enabled.length + f.direction.length + f.protocol.length + f.ports.length +
      f.program.length + f.action.length + f.name.length + 18 := by
  simp only [joinFields, List.length_append, bar_length]
  omega

theorem front_length : "rule = ".toList.length = 7 := by decide

theorem fieldsLine_length (f : Fields) : (fieldsLine f).length = (joinFields f).length + 8 := by
  unfold fieldsLine
  rw [List.length_append, List.length_append]
  rw [front_length, List.length_singleton]
  omega

theorem ruleLine_length (r : Rule) : (ruleLine r).length ≤ 157 := by
  have enabled := onWord_length r.enabled
  have direction := directionName_length r.direction
  have protocol := protocolName_length r.protocol
  have ports := printPorts_length (r := r)
  have action := actionName_length r.action
  have name : r.name.text.length ≤ 47 := Nat.le_of_lt_succ r.name.fits
  have program : (fieldsOf r).program.length ≤ 47 := by
    unfold fieldsOf
    dsimp only
    split
    · decide
    · exact Nat.le_of_lt_succ r.program.fits
  have line := fieldsLine_length (fieldsOf r)
  have fields := joinFields_length (fieldsOf r)
  rw [ruleLine]
  simp only [fieldsOf] at line fields program ⊢
  omega

theorem comments_length : comments.length = 386 := by
  have lines := commentLines_plain.2
  have ended : ∀ l : List Text,
      (l.flatMap (· ++ ['\n'])).length = (l.map List.length).sum + l.length := by
    intro l
    induction l with
    | nil => rfl
    | cons line l ih =>
      simp only [List.flatMap_cons, List.length_append, ih, List.map_cons, List.sum_cons,
        List.length_cons, List.length_nil]
      omega
  have count : commentLines.length = 11 := rfl
  rw [comments, ended, lines, count]

theorem fileHeader_length (on : Bool) (defaultIn defaultOut : Action) :
    (fileHeader (yesWord on) (actionName defaultIn) (actionName defaultOut)).length ≤ 450 := by
  have first := actionName_length defaultIn
  have second := actionName_length defaultOut
  have switch : (yesWord on).length ≤ 3 := by cases on <;> decide
  have on' : "on = ".toList.length = 5 := rfl
  have in' : "default in = ".toList.length = 13 := rfl
  have out' : "default out = ".toList.length = 14 := rfl
  simp only [fileHeader, List.append_assoc]
  rw [List.length_append, comments_length]
  simp only [List.length_append, on', in', out', List.length_singleton]
  omega

theorem writeLoop_eq {text : Text} {rules : List Rule}
    (room : text.length + 157 * rules.length < textSize) :
    writeLoop text rules = text ++ rules.flatMap ruleLine := by
  induction rules generalizing text with
  | nil => simp [writeLoop]
  | cons r rules ih =>
    have one := ruleLine_length r
    rw [List.length_cons] at room
    rw [writeLoop, if_pos (by omega), if_neg (by omega),
      ih (by rw [List.length_append]; omega), List.flatMap_cons, List.append_assoc]

/-- What is written is all of it. -/
theorem rulesText_eq (fw : Policy) : rulesText fw = fileText (yesWord fw.on)
    (actionName fw.defaultIn) (actionName fw.defaultOut) (fw.rules.map fieldsOf) := by
  have header := fileHeader_length fw.on fw.defaultIn fw.defaultOut
  have count := fw.room
  have size : textSize = 16512 := rfl
  rw [rulesMax] at count
  rw [rulesText, writeLoop_eq (by omega), fileText, List.flatMap_map]
  rfl

/-! ## Which rules the file carries -/

/-- Text that is a field as it stands. -/
structure FieldText (w : Text) : Prop where
  tidy : trim w = w
  oneField : '|' ∉ w
  oneLine : '\n' ∉ w

instance (w : Text) : Decidable (FieldText w) :=
  decidable_of_iff (trim w = w ∧ '|' ∉ w ∧ '\n' ∉ w)
    ⟨fun h => ⟨h.1, h.2.1, h.2.2⟩, fun h => ⟨h.tidy, h.oneField, h.oneLine⟩⟩

/-- A rule that seven trimmed fields of one line can hold. -/
structure Rule.Kept (r : Rule) : Prop where
  name : FieldText r.name.text
  program : FieldText r.program.text
  notStar : r.program.text ≠ ['*']
  direction : r.direction ≠ none
  ports : 0 ≤ r.portFrom

instance (r : Rule) : Decidable r.Kept :=
  decidable_of_iff (FieldText r.name.text ∧ FieldText r.program.text ∧ r.program.text ≠ ['*'] ∧
      r.direction ≠ none ∧ 0 ≤ r.portFrom)
    ⟨fun h => ⟨h.1, h.2.1, h.2.2.1, h.2.2.2.1, h.2.2.2.2⟩,
      fun h => ⟨h.name, h.program, h.notStar, h.direction, h.ports⟩⟩

theorem printInt_without {v : Int} (is : IsInt v) {c : Char} (notDigit : digitValue c = none)
    (notMinus : c ≠ '-') : c ∉ printInt v := by
  intro inside
  cases printInt_chars is c inside with
  | inl minus => exact notMinus minus.1
  | inr digit => simp [notDigit] at digit

theorem printPorts_without (r : Rule) {c : Char} (notDigit : digitValue c = none)
    (notMinus : c ≠ '-') : c ∉ printPorts r.portFrom r.portTo := by
  simp [printPorts, printInt_without r.ints.1 notDigit notMinus,
    printInt_without r.ints.2 notDigit notMinus, notMinus]

/-- The words of a rule are letters. -/
theorem words_without {c : Char} (other : c ∈ ['|', '\n', nul]) :
    (∀ on, c ∉ onWord on) ∧ (∀ d, c ∉ directionName d) ∧ (∀ p, c ∉ protocolName p) ∧
      ∀ a, c ∉ actionName a := by
  simp only [List.mem_cons, List.not_mem_nil, or_false] at other
  refine ⟨fun on => ?_, fun d => ?_, fun p => ?_, fun a => ?_⟩
  · cases on <;> rcases other with rfl | rfl | rfl <;> decide
  · rcases d with _ | _ | _ <;> rcases other with rfl | rfl | rfl <;> decide
  · cases p <;> rcases other with rfl | rfl | rfl <;> decide
  · cases a <;> rcases other with rfl | rfl | rfl <;> decide

theorem fieldsOf_without {r : Rule} {c : Char} (other : c ∈ ['|', '\n', nul])
    (name : c ∉ r.name.text) (program : c ∉ r.program.text) : (fieldsOf r).Without c := by
  obtain ⟨enabled, direction, protocol, action⟩ := words_without other
  have notDigit : digitValue c = none ∧ c ≠ '-' ∧ c ≠ '*' := by
    simp only [List.mem_cons, List.not_mem_nil, or_false] at other
    rcases other with rfl | rfl | rfl <;> decide
  refine ⟨enabled _, direction _, protocol _, ?_, ?_, action _, name⟩
  · exact printPorts_without r notDigit.1 notDigit.2.1
  · unfold fieldsOf
    dsimp only
    split
    · simp [notDigit.2.2]
    · exact program

/-- Names with no bar and no new line in them. -/
def Rule.OneField (r : Rule) : Prop :=
  ('|' ∉ r.name.text ∧ '|' ∉ r.program.text) ∧ '\n' ∉ r.name.text ∧ '\n' ∉ r.program.text

theorem fieldsOf_plain {r : Rule} (one : r.OneField) : (fieldsOf r).Plain where
  bars := fieldsOf_without (by simp) one.1.1 one.1.2
  lines := fieldsOf_without (by simp) one.2.1 one.2.2
  ends := fieldsOf_without (by simp) r.name.ends r.program.ends

/-! ## What a rule reads back as -/

theorem cut_printPorts {r : Rule} (ports : 0 ≤ r.portFrom) :
    parsePorts (printPorts r.portFrom r.portTo) = (r.portFrom, r.portTo) := by
  have noDash : '-' ∉ printInt r.portFrom := by
    intro inside
    cases printInt_chars r.ints.1 _ inside with
    | inl minus => omega
    | inr digit => exact absurd digit (by decide)
  rw [parsePorts, printPorts, Text.cut_append noDash]
  simp only [atoi_printInt r.ints.1, atoi_printInt r.ints.2]

/-- A first port below zero is taken for the dash. -/
theorem parsePorts_negative {r : Rule} (negative : r.portFrom < 0) :
    (parsePorts (printPorts r.portFrom r.portTo)).1 = 0 := by
  have shape : printPorts r.portFrom r.portTo = [] ++ '-' ::
      ((digitsOf (-r.portFrom).toNat 10 false).reverse ++ '-' :: printInt r.portTo) := by
    simp [printPorts, printInt, negative]
  have zero : atoi [] = 0 := by decide
  rw [parsePorts, shape, Text.cut_append List.not_mem_nil]
  exact zero

theorem trim_printPorts (r : Rule) : trim (printPorts r.portFrom r.portTo) =
    printPorts r.portFrom r.portTo := by
  apply trim_word
  intro c inside
  have space := printPorts_without r (c := ' ') (by decide) (by decide)
  have tab := printPorts_without r (c := '\t') (by decide) (by decide)
  have back := printPorts_without r (c := '\r') (by decide) (by decide)
  have a : c ≠ ' ' := fun same => space (same ▸ inside)
  have b : c ≠ '\t' := fun same => tab (same ▸ inside)
  have d : c ≠ '\r' := fun same => back (same ▸ inside)
  simp [trailing, a, b, d]

theorem onWord_read (on : Bool) : sameText (trim (onWord on)) "on".toList = on := by
  cases on <;> decide

theorem directionName_read (d : Option Direction) :
    (if sameText (trim (directionName d)) "in".toList then Direction.fwIn else .fwOut) =
      d.getD .fwOut := by
  rcases d with _ | _ | _ <;> decide

theorem protocolName_read (p : Protocol) : protocolFrom (trim (protocolName p)) = p := by
  cases p <;> decide

theorem actionName_read (a : Action) : actionFromChecked (trim (actionName a)) = some a := by
  cases a <;> decide

theorem copy_text {w : Text} (l : Label) (short : w.length ≤ l.text.length)
    (inside : ∀ c ∈ w, c ∈ l.text) : (Label.copy w).text = w := by
  have ends : nul ∉ w := fun has => l.ends (inside _ has)
  show textCopy nameMax (cstring w) = w
  rw [cstring_of_nul_not_mem ends]
  exact textCopy_fits (Nat.lt_of_le_of_lt short l.fits)

theorem copy_trim (l : Label) : (Label.copy (trim l.text)).text = trim l.text :=
  copy_text l (trim_length _) fun _ => mem_of_mem_trim

/-- A program that is not named is written as a star, and a star names none. -/
theorem copy_program (l : Label) :
    (Label.copy (if trim (if l.text.isEmpty then ['*'] else l.text) = ['*'] then []
      else trim (if l.text.isEmpty then ['*'] else l.text))).text =
      if l.text = [] ∨ trim l.text = ['*'] then [] else trim l.text := by
  have star : trim ['*'] = ['*'] := by decide
  by_cases empty : l.text = []
  · simp only [empty, List.isEmpty_nil, if_true, star, true_or]
    rfl
  · have some : l.text.isEmpty = false := by simpa using empty
    simp only [some, Bool.false_eq_true, if_false, empty, false_or]
    split
    · rfl
    · exact copy_trim l

/-- **A rule reads back as itself exactly when it is one the file can carry.** -/
theorem reread_iff {r : Rule} (one : r.OneField) : ruleOf (fieldsOf r).trimmed = r ↔ r.Kept := by
  have program' := copy_program r.program
  constructor
  · intro same
    have name := congrArg (·.name.text) same
    have direction := congrArg (·.direction) same
    have portFrom := congrArg (·.portFrom) same
    have program := program'.symm.trans (congrArg (·.program.text) same)
    simp only [ruleOf, Fields.trimmed, fieldsOf] at name direction portFrom
    rw [copy_trim] at name
    rw [trim_printPorts] at portFrom
    refine ⟨⟨name, one.1.1, one.2.1⟩, ⟨?_, one.1.2, one.2.2⟩, ?_, ?_, ?_⟩
    · split at program
      case isTrue =>
        rw [← program]
        rfl
      case isFalse => exact program
    · intro isStar
      rw [isStar] at program
      revert program
      decide
    · rw [← direction]
      exact Option.some_ne_none _
    · by_contra negative
      rw [parsePorts_negative (by omega)] at portFrom
      omega
  · intro kept
    have name : (Label.copy (trim r.name.text)).text = r.name.text := by
      rw [copy_trim, kept.name.tidy]
    have program : (ruleOf (fieldsOf r).trimmed).program.text = r.program.text := by
      refine program'.trans ?_
      rw [kept.program.tidy]
      split
      case isTrue either => exact (either.resolve_right kept.notStar).symm
      case isFalse => rfl
    obtain ⟨d, is⟩ := Option.ne_none_iff_exists'.mp kept.direction
    apply Rule.ext
    · exact Label.ext name
    · simp only [ruleOf, Fields.trimmed, fieldsOf, directionName_read, is, Option.getD_some]
    · exact protocolName_read r.protocol
    · simp only [ruleOf, Fields.trimmed, fieldsOf, trim_printPorts, cut_printPorts kept.ports]
    · simp only [ruleOf, Fields.trimmed, fieldsOf, trim_printPorts, cut_printPorts kept.ports]
    · exact Label.ext program
    · simp only [ruleOf, Fields.trimmed, fieldsOf, actionFrom, actionName_read, Option.getD_some]
    · exact onWord_read r.enabled

theorem Rule.Kept.oneField {r : Rule} (kept : r.Kept) : r.OneField :=
  ⟨⟨kept.name.oneField, kept.program.oneField⟩, kept.name.oneLine, kept.program.oneLine⟩

/-- What a policy whose names are of one field each reads back as. -/
theorem readRules_rulesText {fw : Policy} (one : ∀ r ∈ fw.rules, r.OneField) :
    readRules (rulesText fw) =
      { fw with rules := fw.rules.map fun r => ruleOf (fieldsOf r).trimmed
                room := by rw [List.length_map]; exact fw.room } := by
  have plain : ∀ f ∈ fw.rules.map fieldsOf, f.Plain := by
    intro f inside
    obtain ⟨r, is, rfl⟩ := List.mem_map.mp inside
    exact fieldsOf_plain (one r is)
  have word : ∀ a, OneLine (actionName a) := by
    intro a
    exact ⟨(words_without (by simp)).2.2.2 a, (words_without (by simp)).2.2.2 a⟩
  have switch : OneLine (yesWord fw.on) ∧ yesOrNo (trim (yesWord fw.on)) = some fw.on := by
    cases fw.on <;> exact ⟨⟨by decide, by decide⟩, by decide⟩
  rw [rulesText_eq, readRules_fileText switch.1 (word _) (word _) plain
    (by rw [List.length_map]; exact fw.room)]
  refine Policy.ext ?_ ?_ ?_ ?_
  · show (yesOrNo (trim (yesWord fw.on))).getD true = fw.on
    rw [switch.2, Option.getD_some]
  · show (actionFromChecked (trim (actionName fw.defaultIn))).getD .block = fw.defaultIn
    rw [actionName_read, Option.getD_some]
  · show (actionFromChecked (trim (actionName fw.defaultOut))).getD .allow = fw.defaultOut
    rw [actionName_read, Option.getD_some]
  · exact List.map_map

/-! ## What can be read at all -/

theorem ruleOf_oneField {f : Fields} (bars : f.Without '|') (lines : f.Without '\n') :
    (ruleOf f).OneField := by
  have copied : ∀ (w : Text) (c : Char), c ∉ w → c ∉ (Label.copy w).text := by
    intro w c apart inside
    exact apart (List.takeWhile_sublist _ |>.mem (List.mem_of_mem_take inside))
  have program : ∀ c : Char, c ∉ f.program → c ∉ (ruleOf f).program.text := by
    intro c apart
    apply copied
    split
    · exact List.not_mem_nil
    · exact apart
  exact ⟨⟨copied _ _ bars.name, program _ bars.program⟩, copied _ _ lines.name,
    program _ lines.program⟩

theorem splitFields_without {value : Text} {f : Fields} (split : splitFields value = some f) :
    f.Without '|' ∧ ∀ c, c ∉ value → f.Without c := by
  have from' : ∀ part ∈ value.splitOn '|', ∀ x ∈ trim part, x ≠ '|' ∧ x ∈ value := by
    intro part is x inside
    have here := mem_of_mem_trim inside
    exact ⟨fun bar => Text.not_mem_splitOn is (bar ▸ here), Text.mem_of_mem_splitOn is x here⟩
  unfold splitFields at split
  split at split
  case h_2 => cases split
  case h_1 f0 f1 f2 f3 f4 f5 f6 rest parts =>
    obtain rfl := Option.some.inj split
    rw [parts] at from'
    have fields : ∀ c, (c = '|' ∨ c ∉ value) → ∀ part ∈ [f0, f1, f2, f3, f4, f5, f6],
        c ∉ trim part := by
      intro c out part is inside
      have listed : part ∈ f0 :: f1 :: f2 :: f3 :: f4 :: f5 :: f6 :: rest := by
        simp only [List.mem_cons, List.not_mem_nil, or_false] at is ⊢
        tauto
      obtain ⟨notBar, has⟩ := from' part listed c inside
      exact out.elim notBar (absurd has)
    have whole : ∀ c, (c = '|' ∨ c ∉ value) → Fields.Without
        ⟨trim f0, trim f1, trim f2, trim f3, trim f4, trim f5, trim f6⟩ c := by
      intro c out
      have each := fields c out
      constructor <;> exact each _ (by simp)
    exact ⟨whole _ (.inl rfl), fun c out => whole c (.inr out)⟩

theorem setting_oneField {fw : Policy} {key value : Text} (before : ∀ r ∈ fw.rules, r.OneField)
    (oneLine : '\n' ∉ value) : ∀ r ∈ (setting fw key value).rules, r.OneField := by
  unfold setting
  split
  · split <;> exact before
  split
  · split <;> exact before
  split
  · split <;> exact before
  split
  case isFalse => exact before
  case isTrue =>
    split
    case h_2 => exact before
    case h_1 r parsed =>
      obtain ⟨f, split, rfl⟩ := Option.map_eq_some_iff.mp parsed
      obtain ⟨bars, others⟩ := splitFields_without split
      unfold Policy.push
      split
      case isFalse => exact before
      case isTrue =>
        intro r inside
        cases List.mem_append.mp inside with
        | inl old => exact before r old
        | inr new =>
          rw [List.mem_singleton.mp new]
          exact ruleOf_oneField bars (others _ oneLine)

theorem lineParts_mem {line key value : Text} (parts : lineParts line = some (key, value)) :
    ∀ c ∈ value, c ∈ line := by
  unfold lineParts at parts
  dsimp only at parts
  split at parts
  case isTrue => cases parts
  case isFalse =>
    obtain ⟨⟨before, after⟩, cut, same⟩ := Option.map_eq_some_iff.mp parts
    obtain ⟨-, rfl⟩ := Prod.mk.inj same
    obtain ⟨whole, -⟩ := Text.eq_of_cut cut
    intro c inside
    apply mem_of_mem_trim
    rw [whole]
    simp [mem_of_mem_trim inside]

/-- A rule that was read has names of one field each. -/
theorem readRules_oneField (text : Text) : ∀ r ∈ (readRules text).rules, r.OneField := by
  have all : ∀ (lines : List Text) (fw : Policy), (∀ line ∈ lines, '\n' ∉ line) →
      (∀ r ∈ fw.rules, r.OneField) → ∀ r ∈ (lines.foldl readLine fw).rules, r.OneField := by
    intro lines
    induction lines with
    | nil => exact fun _ _ before => before
    | cons line lines ih =>
      intro fw oneLine before
      apply ih _ fun l inside => oneLine l (List.mem_cons_of_mem _ inside)
      unfold readLine
      split
      case h_1 key value parts =>
        exact setting_oneField before fun newline =>
          oneLine line List.mem_cons_self (lineParts_mem parts _ newline)
      case h_2 => exact before
  exact all _ _ (fun _ is => Text.not_mem_tokens is) (by simp [fresh])

/-- **A file carries a policy exactly when it carries each of its rules.** -/
theorem readRules_rulesText_iff (fw : Policy) :
    readRules (rulesText fw) = fw ↔ ∀ r ∈ fw.rules, r.Kept := by
  constructor
  · intro same
    have one : ∀ r ∈ fw.rules, r.OneField := by
      have read := readRules_oneField (rulesText fw)
      rwa [same] at read
    rw [readRules_rulesText one] at same
    have rules : fw.rules.map (fun r => ruleOf (fieldsOf r).trimmed) = fw.rules.map id := by
      rw [List.map_id]
      exact congrArg (·.rules) same
    intro r inside
    exact (reread_iff (one r inside)).mp (List.map_inj_left.mp rules r inside)
  · intro kept
    rw [readRules_rulesText fun r inside => (kept r inside).oneField]
    refine Policy.ext rfl rfl rfl ?_
    calc fw.rules.map (fun r => ruleOf (fieldsOf r).trimmed) = fw.rules.map id :=
          List.map_congr_left fun r inside =>
            (reread_iff (kept r inside).oneField).mpr (kept r inside)
      _ = fw.rules := List.map_id _

/-! ## Runs -/

/-- The file is what is in force, written out. -/
def Current (s : State) : Prop := s.file = some (rulesText s.fw)

theorem writeRules_current {w : Write} {s : State} (ok : (writeRules w s).2 = true) :
    Current (writeRules w s).1 := by
  cases w with
  | lands => rfl
  | fails left => cases ok

theorem called_current {s : State} {m : Move} (ok : (called s m).2 = true) :
    Current (step s m) := by
  obtain ⟨call, w⟩ := m
  unfold step
  unfold called at ok ⊢
  cases call with
  | setOn on => exact writeRules_current ok
  | setDefault direction a =>
    cases direction with
    | none => cases ok
    | some d => exact writeRules_current ok
  | add r =>
    dsimp only [add] at ok ⊢
    split at ok
    · cases ok
    split at ok
    · cases ok
    split at ok
    · cases ok
    rename_i room named ports
    rw [if_neg room, if_neg named, if_neg ports]
    exact writeRules_current ok
  | remove index =>
    dsimp only [remove] at ok ⊢
    split at ok
    · cases ok
    split at ok
    · cases ok
    rename_i inside own
    rw [if_neg inside, if_neg own]
    exact writeRules_current ok
  | setRuleOn index on =>
    dsimp only [setRuleOn] at ok ⊢
    split at ok
    · cases ok
    rename_i inside
    rw [if_neg inside]
    exact writeRules_current ok
  | move index by' =>
    dsimp only [move] at ok ⊢
    split at ok
    · cases ok
    rename_i inside
    rw [if_neg inside]
    exact writeRules_current ok

theorem run_current {s : State} {m : Move} {moves : List Move}
    (succeed : Allows step (fun s m => (called s m).2 = true) s (m :: moves)) :
    Current (run step s (m :: moves)) := by
  show Current (run step (step s m) moves)
  exact run_keeps (fun _ _ ok _ => called_current ok) succeed.2 (called_current succeed.1)

theorem defaults_kept : ∀ r ∈ defaults, r.Kept := by decide +kernel

theorem restart_current {s : State} (current : Current s) :
    (init .lands s.file).1.fw = s.fw ↔ ∀ r ∈ s.fw.rules, r.Kept := by
  rw [current]
  exact readRules_rulesText_iff s.fw

/-- **When the firewall after a restart is the firewall before it.** From whatever the file said at
first, after any calls that all returned true: exactly when every rule in force has names that are
one trimmed field of one line, a program that is not a star, a direction there is, and a first
port that is not below zero. -/
theorem restart_same_iff (file : Option Text) (moves : List Move)
    (succeed : Allows step (fun s m => (called s m).2 = true) (init .lands file).1 moves) :
    let s := run step (init .lands file).1 moves;
    let again := (init .lands s.file).1;
    (again.fw = s.fw ∧ ∀ q, allows again.fw q = allows s.fw q) ↔
      (moves = [] ∨ ∀ r ∈ s.fw.rules, r.Kept) := by
  dsimp only
  have same : ∀ a b : Policy, (a = b ∧ ∀ q, allows a q = allows b q) ↔ a = b := fun a b =>
    ⟨And.left, fun is => ⟨is, fun q => by rw [is]⟩⟩
  rw [same]
  cases moves with
  | cons m moves =>
    rw [restart_current (run_current succeed)]
    simp
  | nil =>
    refine iff_of_true ?_ (.inl rfl)
    cases file with
    | some text => rfl
    | none => exact (restart_current (s := (init .lands none).1) rfl).mpr defaults_kept

theorem restart_same_after_setOn :
    let s := run step (init .lands none).1 [⟨.setOn false, .lands⟩];
    (init .lands s.file).1.fw = s.fw :=
  ((restart_same_iff none [⟨.setOn false, .lands⟩] ⟨rfl, trivial⟩).mpr (.inr defaults_kept)).1

theorem bar_fits : "a|b".toList.length < nameMax ∧ nul ∉ "a|b".toList := by decide

theorem web_ports :
    ((0 : Int) ≤ 80 ∧ (80 : Int) < 65536) ∧ (0 : Int) ≤ 80 ∧ (80 : Int) < 65536 := by decide

/-- A rule with a bar in its name. -/
def barRule : Rule := shipped "a|b".toList .fwIn .tcp 80 80 true bar_fits web_ports

theorem add_shipped {r : Rule} (named : r.name.text.isEmpty = false)
    (ports : ¬(r.portFrom < 0 ∨ r.portTo > 65535 ∨ r.portFrom > r.portTo)) :
    add .lands (init .lands none).1 r =
      (⟨writeDefaults.push r, some (rulesText (writeDefaults.push r))⟩, true) := by
  have room : ¬writeDefaults.rules.length ≥ rulesMax := by decide
  show (if writeDefaults.rules.length ≥ rulesMax then _ else _) = _
  rw [if_neg room, named, if_neg Bool.false_ne_true, if_neg ports]
  rfl

theorem mem_push (r : Rule) : r ∈ (writeDefaults.push r).rules := by
  rw [Policy.push, dif_pos (by decide)]
  exact List.mem_append_right _ List.mem_cons_self

/-- `add` takes it and says so, and after a restart the rules are not the ones there were. -/
theorem restart_loses_bar :
    (add .lands (init .lands none).1 barRule).2 = true ∧
      (init .lands (add .lands (init .lands none).1 barRule).1.file).1.fw ≠
        (add .lands (init .lands none).1 barRule).1.fw := by
  have inside := mem_push barRule
  rw [add_shipped (by decide) (by decide)]
  generalize writeDefaults.push barRule = fw at inside ⊢
  refine ⟨rfl, fun same => ?_⟩
  have kept := (readRules_rulesText_iff fw).mp same
  exact absurd (kept barRule inside) (by decide)

end ReconOS.Firewall
