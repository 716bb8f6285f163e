import ReconOS.Firewall.Rules

/-! One line of the rules file: what is read of a setting and of a rule's seven fields. -/
namespace ReconOS.Firewall
open Libc Lib

/-! ## Trimming -/

theorem trim_rdrop (x : Text) : trim (x.rdropWhile trailing) = trim x := by
  rw [trim, trim, Text.dropWhile_rdropWhile, List.rdropWhile_idempotent,
    ← Text.dropWhile_rdropWhile]

theorem trim_drop (x : Text) : trim (x.dropWhile blank) = trim x := by
  rw [trim, trim, List.dropWhile_idempotent]

@[simp] theorem trim_space_cons (x : Text) : trim (' ' :: x) = trim x := by
  rw [trim, List.dropWhile_cons_of_pos (by decide), trim]

@[simp] theorem trim_concat_space (x : Text) : trim (x ++ [' ']) = trim x := by
  rw [← trim_rdrop, List.rdropWhile_concat_pos trailing x ' ' (by decide), trim_rdrop]

theorem mem_of_mem_trim {x : Text} {c : Char} (inside : c ∈ trim x) : c ∈ x :=
  (List.dropWhile_sublist _).mem ((List.rdropWhile_prefix _ _).sublist.mem inside)

theorem trim_length (x : Text) : (trim x).length ≤ x.length :=
  Nat.le_trans (List.rdropWhile_prefix _ _).length_le (List.length_dropWhile_le _ _)

/-! ## A setting -/

/-- The words a line begins with. -/
structure Key (key : Text) : Prop where
  nonempty : key ≠ []
  first : key.head? ≠ some '#'
  tidy : trim key = key
  plain : '=' ∉ key

/-- Text that trimming leaves alone begins with nothing to trim. -/
theorem head_of_trim {w : Text} (tidy : trim w = w) {c : Char} (first : w.head? = some c) :
    blank c = false := by
  by_contra drop
  rw [Bool.not_eq_false] at drop
  obtain ⟨rest, rfl⟩ : ∃ rest, w = c :: rest := by
    cases w with
    | nil => simp at first
    | cons d rest =>
      simp only [List.head?_cons, Option.some.injEq] at first
      exact ⟨rest, by rw [first]⟩
  have shorter : (trim (c :: rest)).length ≤ rest.length := by
    rw [trim, List.dropWhile_cons_of_pos drop]
    exact trim_length rest
  rw [tidy, List.length_cons] at shorter
  omega

/-- What is written as `key = value`. -/
def settingText (key value : Text) : Text := key ++ " = ".toList ++ value

theorem lineParts_settingText {key : Text} (k : Key key) (value : Text) :
    lineParts (settingText key value) = some (key, trim value) := by
  obtain ⟨c, rest, is⟩ := List.exists_cons_of_ne_nil k.nonempty
  have notBlank : blank c = false := head_of_trim k.tidy (by simp [is])
  have notHash : c ≠ '#' := fun same => k.first (by simp [is, same])
  have shape : settingText key value = (key ++ [' ']) ++ '=' :: ' ' :: value := by
    simp [settingText]
  have trimmed : trim (settingText key value) =
      (key ++ [' ']) ++ '=' :: (' ' :: value).rdropWhile trailing := by
    rw [trim, shape, is, List.cons_append, List.cons_append, Text.dropWhile_stop notBlank,
      ← List.cons_append, ← List.cons_append, Text.rdropWhile_append_stop (by decide)]
  have notSkipped : ((trim (settingText key value)).isEmpty ||
      decide ((trim (settingText key value)).head? = some '#')) = false := by
    rw [trimmed, is]
    simp [notHash]
  have noEquals : '=' ∉ key ++ [' '] := by simp [k.plain]
  rw [lineParts]
  dsimp only
  rw [notSkipped, trimmed, Text.cut_append noEquals]
  simp only [Bool.false_eq_true, if_false, Option.map_some, trim_concat_space, k.tidy]
  rw [trim_rdrop, trim_space_cons]

/-! ## A rule's fields -/

def Fields.trimmed (f : Fields) : Fields where
  enabled := trim f.enabled
  direction := trim f.direction
  protocol := trim f.protocol
  ports := trim f.ports
  program := trim f.program
  action := trim f.action
  name := trim f.name

/-- A character in none of the fields. -/
structure Fields.Without (f : Fields) (c : Char) : Prop where
  enabled : c ∉ f.enabled
  direction : c ∉ f.direction
  protocol : c ∉ f.protocol
  ports : c ∉ f.ports
  program : c ∉ f.program
  action : c ∉ f.action
  name : c ∉ f.name

/-- **Seven fields with no bar in them are read as they were written**, but for what is trimmed. -/
theorem splitFields_joinFields {f : Fields} (plain : f.Without '|') :
    splitFields (trim (joinFields f)) = some f.trimmed := by
  have shape : joinFields f = (f.enabled ++ [' ']) ++ '|' :: ((' ' :: f.direction ++ [' ']) ++
      '|' :: ((' ' :: f.protocol ++ [' ']) ++ '|' :: ((' ' :: f.ports ++ [' ']) ++
      '|' :: ((' ' :: f.program ++ [' ']) ++ '|' :: ((' ' :: f.action ++ [' ']) ++
      '|' :: (' ' :: f.name)))))) := by
    simp [joinFields, bar]
  have stop : blank '|' = false := by decide
  have stop' : trailing '|' = false := by decide
  have left : (joinFields f).dropWhile blank = (f.enabled ++ [' ']).dropWhile blank ++
      '|' :: ((' ' :: f.direction ++ [' ']) ++
      '|' :: ((' ' :: f.protocol ++ [' ']) ++ '|' :: ((' ' :: f.ports ++ [' ']) ++
      '|' :: ((' ' :: f.program ++ [' ']) ++ '|' :: ((' ' :: f.action ++ [' ']) ++
      '|' :: (' ' :: f.name)))))) := by
    rw [shape, Text.dropWhile_append_stop stop]
  have trimmed : trim (joinFields f) = (f.enabled ++ [' ']).dropWhile blank ++
      '|' :: ((' ' :: f.direction ++ [' ']) ++
      '|' :: ((' ' :: f.protocol ++ [' ']) ++ '|' :: ((' ' :: f.ports ++ [' ']) ++
      '|' :: ((' ' :: f.program ++ [' ']) ++ '|' :: ((' ' :: f.action ++ [' ']) ++
      '|' :: (' ' :: f.name).rdropWhile trailing))))) := by
    rw [trim, left]
    simp only [Text.rdropWhile_append_stop stop']
  have first : '|' ∉ (f.enabled ++ [' ']).dropWhile blank := fun inside =>
    plain.enabled (by simpa using (List.dropWhile_sublist _).mem inside)
  have last : '|' ∉ (' ' :: f.name).rdropWhile trailing := fun inside =>
    plain.name (by simpa using (List.rdropWhile_prefix _ _).sublist.mem inside)
  have middle {w : Text} (none : '|' ∉ w) : '|' ∉ ' ' :: w ++ [' '] := by simp [none]
  have parts : (trim (joinFields f)).splitOn '|' =
      [(f.enabled ++ [' ']).dropWhile blank, ' ' :: f.direction ++ [' '],
        ' ' :: f.protocol ++ [' '], ' ' :: f.ports ++ [' '], ' ' :: f.program ++ [' '],
        ' ' :: f.action ++ [' '], (' ' :: f.name).rdropWhile trailing] := by
    rw [trimmed, List.splitOn_append_cons_self_of_not_mem first,
      List.splitOn_append_cons_self_of_not_mem (middle plain.direction),
      List.splitOn_append_cons_self_of_not_mem (middle plain.protocol),
      List.splitOn_append_cons_self_of_not_mem (middle plain.ports),
      List.splitOn_append_cons_self_of_not_mem (middle plain.program),
      List.splitOn_append_cons_self_of_not_mem (middle plain.action),
      List.splitOn_eq_singleton last]
  rw [splitFields, parts]
  simp only [trim_drop, trim_rdrop, List.cons_append, trim_space_cons, trim_concat_space]
  rfl

theorem parseRule_joinFields {f : Fields} (plain : f.Without '|') :
    parseRule (trim (joinFields f)) = some (ruleOf f.trimmed) := by
  rw [parseRule, splitFields_joinFields plain, Option.map_some]

/-! ## The lines of a file -/

theorem trim_word {w : Text} (plain : ∀ c ∈ w, trailing c = false) : trim w = w := by
  have notBlank : ∀ c ∈ w, blank c = false := by
    intro c inside
    have is := plain c inside
    simp only [trailing, Bool.or_eq_false_iff] at is
    simp [blank, is.1.1, is.1.2]
  rw [trim, Text.dropWhile_eq_of_head fun c first => notBlank c (List.mem_of_mem_head? first),
    Text.rdropWhile_eq_of_last fun c last => plain c (List.mem_of_getLast? last)]

/-- A file as its settings and its rules' fields. -/
def fileText (on defaultIn defaultOut : Text) (rules : List Fields) : Text :=
  fileHeader on defaultIn defaultOut ++ rules.flatMap fieldsLine

/-- Nothing in it ends a line or the text. -/
def OneLine (w : Text) : Prop := '\n' ∉ w ∧ nul ∉ w

theorem OneLine.append {a b : Text} (ha : OneLine a) (hb : OneLine b) : OneLine (a ++ b) :=
  ⟨by simp [ha.1, hb.1], by simp [ha.2, hb.2]⟩

/-- Text a rule's fields can be put together from. -/
structure Fields.Plain (f : Fields) : Prop where
  bars : f.Without '|'
  lines : f.Without '\n'
  ends : f.Without nul

theorem Fields.Plain.oneLine {f : Fields} (plain : f.Plain) : OneLine (joinFields f) := by
  have lines := plain.lines
  have ends := plain.ends
  constructor
  · simp [joinFields, bar, lines.enabled, lines.direction, lines.protocol, lines.ports,
      lines.program, lines.action, lines.name]
  · have other : nul ∉ bar := by decide
    simp [joinFields, other, ends.enabled, ends.direction, ends.protocol, ends.ports,
      ends.program, ends.action, ends.name]

theorem commentLines_plain : (∀ line ∈ commentLines,
    line.head? = some '#' ∧ '\n' ∉ line ∧ nul ∉ line) ∧
      (commentLines.map List.length).sum = 375 := by
  unfold commentLines
  repeat rw [String.toList_ofList]
  decide +kernel

theorem lineParts_comment {line : Text} (hash : line.head? = some '#') : lineParts line = none := by
  obtain ⟨rest, rfl⟩ : ∃ rest, line = '#' :: rest := by
    cases line with
    | nil => simp at hash
    | cons c rest =>
      simp only [List.head?_cons, Option.some.injEq] at hash
      exact ⟨rest, by rw [hash]⟩
  have trimmed : trim ('#' :: rest) = '#' :: rest.rdropWhile trailing := by
    rw [trim, Text.dropWhile_stop (by decide)]
    exact Text.rdropWhile_append_stop (a := []) (by decide)
  simp [lineParts, trimmed]

theorem comments_tokens : Text.tokens '\n' comments = commentLines := by
  apply Text.tokens_lines
  intro line inside
  obtain ⟨hash, oneLine, -⟩ := commentLines_plain.1 line inside
  refine ⟨oneLine, fun empty => ?_⟩
  simp [empty] at hash

theorem comments_ends : nul ∉ comments := by
  intro inside
  obtain ⟨line, isLine, has⟩ := List.mem_flatMap.mp inside
  cases List.mem_append.mp has with
  | inl inLine => exact (commentLines_plain.1 line isLine).2.2 inLine
  | inr newline => exact absurd newline (by decide)

theorem key_on : Key "on".toList := by constructor <;> decide
theorem key_in : Key "default in".toList := by constructor <;> decide
theorem key_out : Key "default out".toList := by constructor <;> decide
theorem key_rule : Key "rule".toList := by constructor <;> decide

theorem settingText_oneLine {key value : Text} (first : OneLine key) (rest : OneLine value) :
    OneLine (settingText key value) :=
  (first.append ⟨by decide, by decide⟩).append rest

theorem fileText_tokens {on defaultIn defaultOut : Text} {rules : List Fields}
    (oneOn : OneLine on) (oneIn : OneLine defaultIn) (oneOut : OneLine defaultOut)
    (plain : ∀ f ∈ rules, f.Plain) :
    Text.tokens '\n' (cstring (fileText on defaultIn defaultOut rules)) =
      commentLines ++ settingText "on".toList on ::
        settingText "default in".toList defaultIn :: settingText "default out".toList defaultOut ::
        rules.map fun f => settingText "rule".toList (joinFields f) := by
  have lineOn := settingText_oneLine (⟨by decide, by decide⟩ : OneLine "on".toList) oneOn
  have lineIn := settingText_oneLine (⟨by decide, by decide⟩ : OneLine "default in".toList) oneIn
  have lineOut := settingText_oneLine (⟨by decide, by decide⟩ : OneLine "default out".toList) oneOut
  have ruleLines : ∀ line ∈ rules.map fun f => settingText "rule".toList (joinFields f),
      OneLine line := by
    intro line inside
    obtain ⟨f, is, rfl⟩ := List.mem_map.mp inside
    exact settingText_oneLine ⟨by decide, by decide⟩ (plain f is).oneLine
  have body : rules.flatMap fieldsLine =
      (rules.map fun f => settingText "rule".toList (joinFields f)).flatMap (· ++ ['\n']) := by
    rw [List.flatMap_map]
    rfl
  have shape : fileText on defaultIn defaultOut rules = comments ++ '\n' ::
      (settingText "on".toList on ++ '\n' ::
        (settingText "default in".toList defaultIn ++ '\n' ::
          (settingText "default out".toList defaultOut ++ '\n' :: ([] ++ '\n' ::
            (rules.map fun f => settingText "rule".toList (joinFields f)).flatMap
              (· ++ ['\n']))))) := by
    rw [fileText, body]
    simp [fileHeader, settingText]
  have noNul : nul ∉ fileText on defaultIn defaultOut rules := by
    have newline : nul ≠ '\n' := by decide
    rw [shape]
    simp only [List.mem_append, List.mem_cons, List.not_mem_nil, List.mem_flatMap,
      comments_ends, lineOn.2, lineIn.2, lineOut.2, newline, or_false, false_or]
    rintro ⟨line, inside, has⟩
    exact (ruleLines line inside).2 has
  have nonempty : ∀ key value : Text, settingText key value ≠ [] := by
    intro key value
    simp [settingText]
  rw [cstring_of_nul_not_mem noNul, shape, Text.tokens_append, comments_tokens, Text.tokens_append,
    Text.tokens_append, Text.tokens_append, Text.tokens_append, Text.tokens_nil,
    Text.tokens_line lineOn.1 (nonempty _ _), Text.tokens_line lineIn.1 (nonempty _ _),
    Text.tokens_line lineOut.1 (nonempty _ _), Text.tokens_lines]
  · rfl
  · intro line inside
    refine ⟨(ruleLines line inside).1, ?_⟩
    obtain ⟨f, -, rfl⟩ := List.mem_map.mp inside
    exact nonempty _ _

/-! ## Reading them -/

theorem readLine_settingText {key : Text} (k : Key key) (fw : Policy) (value : Text) :
    readLine fw (settingText key value) = setting fw key (trim value) := by
  rw [readLine, lineParts_settingText k]

theorem readLine_skipped {lines : List Text} (skipped : ∀ line ∈ lines, lineParts line = none)
    (fw : Policy) : lines.foldl readLine fw = fw := by
  induction lines with
  | nil => rfl
  | cons line lines ih =>
    have here : readLine fw line = fw := by rw [readLine, skipped line List.mem_cons_self]
    rw [List.foldl_cons, here]
    exact ih fun l inside => skipped l (List.mem_cons_of_mem _ inside)

theorem setting_on (fw : Policy) (value : Text) :
    setting fw "on".toList value = { fw with on := (yesOrNo value).getD fw.on } := by
  rw [setting, if_pos (by decide)]
  cases yesOrNo value <;> rfl

theorem setting_in (fw : Policy) (value : Text) : setting fw "default in".toList value =
    { fw with defaultIn := (actionFromChecked value).getD fw.defaultIn } := by
  rw [setting, if_neg (by decide), if_pos (by decide)]
  cases actionFromChecked value <;> rfl

theorem setting_out (fw : Policy) (value : Text) : setting fw "default out".toList value =
    { fw with defaultOut := (actionFromChecked value).getD fw.defaultOut } := by
  rw [setting, if_neg (by decide), if_neg (by decide), if_pos (by decide)]
  cases actionFromChecked value <;> rfl

theorem setting_rule (fw : Policy) {f : Fields} (plain : f.Without '|') :
    setting fw "rule".toList (trim (joinFields f)) = fw.push (ruleOf f.trimmed) := by
  rw [setting, if_neg (by decide), if_neg (by decide), if_neg (by decide), if_pos (by decide),
    parseRule_joinFields plain]

@[ext] theorem Policy.ext {a b : Policy} (on : a.on = b.on) (defaultIn : a.defaultIn = b.defaultIn)
    (defaultOut : a.defaultOut = b.defaultOut) (rules : a.rules = b.rules) : a = b := by
  cases a
  cases b
  simp_all

theorem foldl_rules {rules : List Fields} (plain : ∀ f ∈ rules, f.Plain) (fw : Policy)
    (room : fw.rules.length + rules.length ≤ rulesMax) :
    (rules.map fun f => settingText "rule".toList (joinFields f)).foldl readLine fw =
      { fw with rules := fw.rules ++ rules.map (ruleOf ·.trimmed)
                room := by rw [List.length_append, List.length_map]; exact room } := by
  induction rules generalizing fw with
  | nil => exact Policy.ext rfl rfl rfl (by simp)
  | cons f rules ih =>
    rw [List.length_cons] at room
    have here : readLine fw (settingText "rule".toList (joinFields f)) =
        fw.push (ruleOf f.trimmed) := by
      rw [readLine_settingText key_rule, setting_rule fw (plain f List.mem_cons_self).bars]
    have pushed : (fw.push (ruleOf f.trimmed)).rules = fw.rules ++ [ruleOf f.trimmed] := by
      rw [Policy.push, dif_pos (by omega)]
    have same : fw.push (ruleOf f.trimmed) =
        { fw with rules := fw.rules ++ [ruleOf f.trimmed]
                  room := by rw [List.length_append, List.length_singleton]; omega } := by
      rw [Policy.push, dif_pos (by omega)]
    have rest := ih (fun g inside => plain g (List.mem_cons_of_mem _ inside))
      (fw.push (ruleOf f.trimmed))
      (by rw [pushed, List.length_append, List.length_singleton]; omega)
    rw [List.map_cons, List.foldl_cons, here, rest]
    refine Policy.ext ?_ ?_ ?_ ?_
    · show (fw.push _).on = fw.on
      rw [same]
    · show (fw.push _).defaultIn = fw.defaultIn
      rw [same]
    · show (fw.push _).defaultOut = fw.defaultOut
      rw [same]
    · simp [pushed]

/-- **What a file says is what is in force after it is read**: its settings where they are
understood, the shipped ones where not, and its rules in order. -/
theorem readRules_fileText {on defaultIn defaultOut : Text} {rules : List Fields}
    (oneOn : OneLine on) (oneIn : OneLine defaultIn) (oneOut : OneLine defaultOut)
    (plain : ∀ f ∈ rules, f.Plain) (room : rules.length ≤ rulesMax) :
    readRules (fileText on defaultIn defaultOut rules) =
      { on := (yesOrNo (trim on)).getD true
        defaultIn := (actionFromChecked (trim defaultIn)).getD .block
        defaultOut := (actionFromChecked (trim defaultOut)).getD .allow
        rules := rules.map (ruleOf ·.trimmed)
        room := by rw [List.length_map]; exact room } := by
  rw [readRules, fileText_tokens oneOn oneIn oneOut plain, List.foldl_append,
    readLine_skipped fun line inside => lineParts_comment (commentLines_plain.1 line inside).1,
    List.foldl_cons, List.foldl_cons, List.foldl_cons,
    readLine_settingText key_on, readLine_settingText key_in, readLine_settingText key_out,
    setting_on, setting_in, setting_out, foldl_rules plain]
  · exact Policy.ext rfl rfl rfl rfl
  · simpa [fresh] using room

end ReconOS.Firewall
