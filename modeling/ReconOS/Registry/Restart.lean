import ReconOS.Registry.Hive

/-! The registry and its files: what was written last is what a restart reads. -/
namespace ReconOS.Registry
open Libc Lib

/-! ## One value -/

theorem escapeChar_length (atAnEnd : Bool) (c : Char) : (escapeChar atAnEnd c).length ≤ 2 := by
  unfold escapeChar
  split
  · exact Nat.le_refl _
  split
  · exact Nat.le_refl _
  split
  · exact Nat.le_refl _
  split
  · exact Nat.le_refl _
  · exact Nat.le_succ 1

theorem escapeLoop_length (size : Nat) (first : Bool) (used : Nat) (value : Text) :
    (escapeLoop size first used value).length ≤ 2 * value.length := by
  induction value generalizing first used with
  | nil => exact Nat.le_refl _
  | cons c rest ih =>
    unfold escapeLoop
    split
    · have here := escapeChar_length (first || rest.isEmpty) c
      have later := ih false (used + (escapeChar (first || rest.isEmpty) c).length)
      simp only [List.length_append, List.length_cons]
      omega
    · exact Nat.zero_le _

/-- A written character, read back. -/
theorem unescape_escapeChar (atAnEnd : Bool) (c : Char) (room : Nat) (rest : Text) :
    unescapeLoop (room + 1) (escapeChar atAnEnd c ++ rest) = c :: unescapeLoop room rest := by
  unfold escapeChar
  split
  case isTrue is => simp [unescapeLoop, unescapeChar, is]
  case isFalse notBackslash =>
  split
  case isTrue is => simp [unescapeLoop, unescapeChar, is]
  case isFalse notNewline =>
  split
  case isTrue is => simp [unescapeLoop, unescapeChar, is]
  case isFalse notReturn =>
  split
  case isTrue space =>
    have blankOnly : c = ' ' ∨ c = '\t' := by
      simpa [blank] using (Bool.and_eq_true_iff.mp space).2
    cases blankOnly with
    | inl is => simp [unescapeLoop, unescapeChar, is]
    | inr is => simp [unescapeLoop, unescapeChar, is]
  case isFalse => simp [unescapeLoop, notBackslash]

theorem unescape_escapeLoop {size : Nat} {value : Text} (room : Nat) (first : Bool) (used : Nat)
    (space : used + 2 * value.length < size) (fits : value.length ≤ room) :
    unescapeLoop room (escapeLoop size first used value) = value := by
  induction value generalizing first used room with
  | nil =>
    cases room with
    | zero => rfl
    | succ room => rfl
  | cons c rest ih =>
    rw [List.length_cons] at space fits
    obtain ⟨left, rfl⟩ : ∃ left, room = left + 1 := ⟨room - 1, by omega⟩
    have short := escapeChar_length (first || rest.isEmpty) c
    have later := ih left false (used + (escapeChar (first || rest.isEmpty) c).length)
      (by omega) (by omega)
    rw [escapeLoop, if_pos (by omega), unescape_escapeChar, later]

/-- **What is written reads back as the same value**, whatever is in it and at its ends. -/
theorem unescape_escape {value : Text} (fits : value.length < valueMax) :
    unescape (escape value (valueMax * 2 + 4)) valueMax = value := by
  apply unescape_escapeLoop
  · have : valueMax = 512 := rfl
    omega
  · omega

/-- Everything that ends a line or a string is spelled out. -/
theorem escapeChar_plain (atAnEnd : Bool) {c : Char} (some : c ≠ nul) :
    ∀ d ∈ escapeChar atAnEnd c, d ≠ '\n' ∧ d ≠ nul := by
  unfold escapeChar
  split
  · simp [nul]
  split
  · simp [nul]
  split
  · simp [nul]
  case isFalse notNewline _ =>
  split
  · intro d inside
    rcases List.mem_cons.mp inside with rfl | rest
    · decide
    · rw [List.mem_singleton] at rest
      exact rest ▸ ⟨notNewline, some⟩
  · intro d inside
    rw [List.mem_singleton] at inside
    exact inside ▸ ⟨notNewline, some⟩

theorem escapeLoop_plain (size : Nat) (first : Bool) (used : Nat) {value : Text}
    (whole : nul ∉ value) : ∀ d ∈ escapeLoop size first used value, d ≠ '\n' ∧ d ≠ nul := by
  induction value generalizing first used with
  | nil => simp [escapeLoop]
  | cons c rest ih =>
    rw [List.mem_cons, not_or] at whole
    unfold escapeLoop
    split
    · intro d inside
      cases List.mem_append.mp inside with
      | inl here => exact escapeChar_plain _ (Ne.symm whole.1) d here
      | inr later => exact ih _ _ whole.2 d later
    · simp

theorem escapeChar_first (c : Char) : ∃ d ds, escapeChar true c = d :: ds ∧ blank d = false := by
  unfold escapeChar
  split
  · exact ⟨'\\', ['\\'], rfl, by decide⟩
  split
  · exact ⟨'\\', ['n'], rfl, by decide⟩
  split
  · exact ⟨'\\', ['r'], rfl, by decide⟩
  split
  · exact ⟨'\\', [c], rfl, by decide⟩
  case isFalse inner =>
    rw [Bool.true_and, Bool.not_eq_true] at inner
    exact ⟨c, [], rfl, inner⟩

/-- The space the reader takes off is never the value's own. -/
theorem escape_head (value : Text) (size : Nat) :
    ∀ x, (escape value size).head? = some x → blank x = false := by
  intro x
  cases value with
  | nil => simp [escape, escapeLoop]
  | cons c rest =>
    rw [escape, escapeLoop]
    split
    case isFalse => simp
    case isTrue =>
      obtain ⟨d, ds, first, notBlank⟩ := escapeChar_first c
      simp only [Bool.true_or, first, List.cons_append, List.head?_cons, Option.some.injEq]
      exact fun is => is ▸ notBlank

/-! ## One line -/

theorem keyLoop_chars {slash : Bool} {key : Text} (valid : keyLoop slash key = true) :
    ∀ c ∈ key, c = '/' ∨ c.isAlphanum = true ∨ c = '-' ∨ c = '_' ∨ c = '.' := by
  induction key generalizing slash with
  | nil => simp
  | cons c rest ih =>
    unfold keyLoop at valid
    split at valid
    case isTrue is =>
      intro d inside
      rcases List.mem_cons.mp inside with rfl | later
      · exact .inl is
      · exact ih (Bool.and_eq_true_iff.mp valid).2 d later
    case isFalse =>
      obtain ⟨here, after⟩ := Bool.and_eq_true_iff.mp valid
      intro d inside
      rcases List.mem_cons.mp inside with rfl | later
      · simp only [Bool.or_eq_true, decide_eq_true_eq] at here
        tauto
      · exact ih after d later

structure KeyText (key : Text) : Prop where
  some : key ≠ []
  short : key.length < keyMax
  chars : ∀ c ∈ key, c = '/' ∨ c.isAlphanum = true ∨ c = '-' ∨ c = '_' ∨ c = '.'

theorem keyText {key : Text} (valid : keyIsValid key = true) : KeyText key := by
  simp only [keyIsValid, Bool.and_eq_true, Bool.not_eq_true', List.isEmpty_eq_false_iff,
    decide_eq_true_eq] at valid
  obtain ⟨⟨⟨⟨some, short⟩, -⟩, -⟩, chars⟩ := valid
  exact ⟨some, short, keyLoop_chars chars⟩

/-- A character that is not a letter, a digit or one of the marks is in no key. -/
theorem KeyText.not_mem {key : Text} (k : KeyText key) {c : Char}
    (other : (c = '/' || c.isAlphanum || c = '-' || c = '_' || c = '.') = false) : c ∉ key := by
  intro inside
  have is := k.chars c inside
  simp only [Bool.or_eq_false_iff, decide_eq_false_iff_not] at other
  obtain ⟨⟨⟨⟨a, b⟩, d⟩, e⟩, f⟩ := other
  simp [a, b, d, e, f] at is

/-- What is written of an entry, without the end of its line. -/
def entryText (e : Entry) : Text :=
  e.key ++ " = ".toList ++ escape e.value (valueMax * 2 + 4)

theorem entryLine_eq (e : Entry) : entryLine e = entryText e ++ ['\n'] := rfl

theorem readLine_entryText (e : Entry) :
    readLine (entryText e) = some (e.key, escape e.value (valueMax * 2 + 4)) := by
  have k := keyText e.keyValid
  obtain ⟨c, rest, is⟩ := List.exists_cons_of_ne_nil k.some
  have first : c ∈ e.key := by simp [is]
  have notBlank : blank c = false := by
    have noSpace := k.not_mem (c := ' ') (by decide)
    have noTab := k.not_mem (c := '\t') (by decide)
    have a : c ≠ ' ' := fun same => noSpace (same ▸ first)
    have b : c ≠ '\t' := fun same => noTab (same ▸ first)
    simp [blank, a, b]
  have notHash : c ≠ '#' := fun same => k.not_mem (c := '#') (by decide) (same ▸ first)
  have spaced : '=' ∉ e.key ++ [' '] := by
    simp [k.not_mem (c := '=') (by decide)]
  have keyEnd : ∀ y, e.key.getLast? = some y → blank y = false := by
    intro y last
    have inside := List.mem_of_getLast? last
    have a : y ≠ ' ' := fun same => k.not_mem (c := ' ') (by decide) (same ▸ inside)
    have b : y ≠ '\t' := fun same => k.not_mem (c := '\t') (by decide) (same ▸ inside)
    simp [blank, a, b]
  have split : Text.cut '=' (entryText e) =
      some (e.key ++ [' '], ' ' :: escape e.value (valueMax * 2 + 4)) := by
    have shape : entryText e =
        (e.key ++ [' ']) ++ '=' :: ' ' :: escape e.value (valueMax * 2 + 4) := by
      simp [entryText]
    rw [shape, Text.cut_append spaced]
  have front : (entryText e).dropWhile blank = entryText e := by
    rw [entryText, is, List.cons_append, List.cons_append]
    exact Text.dropWhile_stop notBlank
  have notSkipped :
      ((entryText e).isEmpty || decide ((entryText e).head? = some '#')) = false := by
    simp [entryText, is, notHash]
  rw [readLine]
  dsimp only
  rw [front, notSkipped, split]
  simp only [Bool.false_eq_true, if_false, Option.map_some]
  rw [Text.rdropWhile_concat_stop (by decide) keyEnd, List.dropWhile_cons_of_pos (by decide),
    Text.dropWhile_eq_of_head (escape_head _ _)]

theorem entryText_plain (e : Entry) : ∀ d ∈ entryText e, d ≠ '\n' ∧ d ≠ nul := by
  have k := keyText e.keyValid
  intro d inside
  simp only [entryText, List.mem_append] at inside
  rcases inside with (inKey | inMiddle) | inValue
  · refine ⟨fun same => ?_, fun same => ?_⟩
    · exact k.not_mem (c := '\n') (by decide) (same ▸ inKey)
    · exact k.not_mem (c := nul) (by decide) (same ▸ inKey)
  · revert d
    simp [nul]
  · exact escapeLoop_plain _ _ _ e.valueEnds d inValue

theorem entryOf_escape (e : Entry) :
    entryOf e.key (escape e.value (valueMax * 2 + 4)) e.keyValid = e := by
  have ends : nul ∉ escape e.value (valueMax * 2 + 4) := fun inside =>
    (escapeLoop_plain _ _ _ e.valueEnds _ inside).2 rfl
  apply Entry.ext
  · rfl
  · calc unescape (cstring (escape e.value (valueMax * 2 + 4))) valueMax
        = unescape (escape e.value (valueMax * 2 + 4)) valueMax := by
          rw [cstring_of_nul_not_mem ends]
      _ = e.value := unescape_escape e.valueFits

/-! ## The file -/

theorem entryLine_length (e : Entry) :
    (entryLine e).length + 2 ≤ keyMax + valueMax * 2 + 4 := by
  have key := (keyText e.keyValid).short
  have value := escapeLoop_length (valueMax * 2 + 4) true 0 e.value
  have fits := e.valueFits
  have middle : " = ".toList.length = 3 := rfl
  simp only [entryLine, escape, List.length_append, middle, List.length_cons, List.length_nil]
  omega

theorem print_fits {d : Draft} (line : Text) (exact' : d.used = d.text.length)
    (fits : d.used + line.length < capacity) :
    (d.print line).text = d.text ++ line ∧ (d.print line).used = (d.print line).text.length := by
  have copied : textCopy (capacity - d.used) line = line := textCopy_fits (by omega)
  constructor
  · rw [Draft.print, copied]
  · rw [Draft.print]
    dsimp only
    rw [copied, List.length_append, exact']

/-- The draft never fills: each entry has room for its longest line. -/
theorem saveLoop_text {d : Draft} {slots : List (Option Entry)} (exact' : d.used = d.text.length)
    (fits : d.used + slots.length * (keyMax + valueMax * 2 + 4) < capacity) :
    (saveLoop d slots).text = d.text ++ (slots.reduceOption).flatMap entryLine ∧
      (saveLoop d slots).used = (saveLoop d slots).text.length := by
  induction slots generalizing d with
  | nil => simp [saveLoop, exact']
  | cons slot rest ih =>
    have one : (slot :: rest).length * (keyMax + valueMax * 2 + 4) =
        rest.length * (keyMax + valueMax * 2 + 4) + (keyMax + valueMax * 2 + 4) :=
      Nat.succ_mul rest.length _
    unfold saveLoop
    rw [if_pos (by omega)]
    cases slot with
    | none => simpa using ih exact' (by omega)
    | some e =>
      have long := entryLine_length e
      obtain ⟨text, exact''⟩ := print_fits (entryLine e) exact' (by omega)
      have used : (d.print (entryLine e)).used = d.used + (entryLine e).length := rfl
      obtain ⟨whole, counted⟩ := ih exact'' (by omega)
      dsimp only
      refine ⟨?_, counted⟩
      rw [whole, text]
      simp

/-- The header is a few whole lines, and the reader passes by each of them. -/
theorem header_lines (scope : Scope) :
    (header scope).length < 256 ∧ nul ∉ header scope ∧
      header scope = (header scope).dropLast ++ ['\n'] ∧
      ∀ line ∈ Text.tokens '\n' (header scope).dropLast, readLine line = none := by
  unfold header
  repeat rw [String.toList_ofList]
  cases scope <;> decide +kernel

theorem saveText_eq (scope : Scope) {slots : List (Option Entry)}
    (size : slots.length = entriesMax) :
    saveText scope slots = header scope ++ (slots.reduceOption).flatMap entryLine := by
  have short := (header_lines scope).1
  have room : capacity = entriesMax * (keyMax + valueMax * 2 + 4) + entriesMax * 4 + 256 := rfl
  obtain ⟨start, exact'⟩ := print_fits (d := ⟨[], 0⟩) (header scope) rfl
    (by simpa using (by omega : (header scope).length < capacity))
  have used : (Draft.print ⟨[], 0⟩ (header scope)).used = (header scope).length := Nat.zero_add _
  obtain ⟨text, counted⟩ := saveLoop_text exact' (by rw [used, size]; omega)
  rw [saveText, counted, List.take_length, text, start, List.nil_append]

/-! ## Reading it back -/

theorem saveText_lines (scope : Scope) {slots : List (Option Entry)}
    (size : slots.length = entriesMax) :
    ∃ comments, (∀ line ∈ comments, readLine line = none) ∧
      Text.tokens '\n' (cstring (saveText scope slots)) =
        comments ++ (slots.reduceOption).map entryText := by
  have lines : ∀ line ∈ (slots.reduceOption).map entryText, '\n' ∉ line ∧ line ≠ [] := by
    intro line inside
    obtain ⟨e, -, rfl⟩ := List.mem_map.mp inside
    refine ⟨fun newline => (entryText_plain e _ newline).1 rfl, ?_⟩
    simp [entryText, (keyText e.keyValid).some]
  have body : (slots.reduceOption).flatMap entryLine =
      ((slots.reduceOption).map entryText).flatMap (· ++ ['\n']) := by
    rw [List.flatMap_map]
    rfl
  obtain ⟨-, noNulAbove, ends, skipped⟩ := header_lines scope
  have noNul : nul ∉ saveText scope slots := by
    rw [saveText_eq scope size, List.mem_append, not_or]
    refine ⟨noNulAbove, fun inside => ?_⟩
    obtain ⟨e, -, inLine⟩ := List.mem_flatMap.mp inside
    rw [entryLine_eq, List.mem_append] at inLine
    cases inLine with
    | inl inText => exact (entryText_plain e _ inText).2 rfl
    | inr atEnd => exact absurd atEnd (by decide)
  refine ⟨Text.tokens '\n' (header scope).dropLast, skipped, ?_⟩
  rw [cstring_of_nul_not_mem noNul, saveText_eq scope size, ends, List.append_assoc,
    List.singleton_append, Text.tokens_append, body, Text.tokens_lines lines,
    List.dropLast_concat]

theorem fill_comments (h : Hive) {comments : List Text}
    (skipped : ∀ line ∈ comments, readLine line = none) (rest : List Text) :
    fill h (comments ++ rest) = fill h rest := by
  induction comments with
  | nil => rfl
  | cons line comments ih =>
    rw [List.cons_append, fill, skipped line List.mem_cons_self]
    exact ih fun l inside => skipped l (List.mem_cons_of_mem _ inside)

/-- Slot by slot: the used ones first. -/
structure Packed (h : Hive) (used : List Entry) : Prop where
  entries : h.entries = used.map some ++ List.replicate (entriesMax - used.length) none
  count : h.count = used.length

theorem Packed.short {h : Hive} {used : List Entry} (packed : Packed h used) :
    used.length ≤ entriesMax := by
  have size := h.slots
  rw [packed.entries, List.length_append, List.length_map] at size
  omega

theorem Packed.eq {g h : Hive} {used : List Entry} (a : Packed g used) (b : Packed h used) :
    g = h := by
  obtain ⟨entries, count, slots⟩ := g
  obtain ⟨entries', count', slots'⟩ := h
  have sameEntries : entries = entries' := a.entries.trans b.entries.symm
  have sameCount : count = count' := a.count.trans b.count.symm
  simp only [sameEntries, sameCount]

theorem Packed.firstUnused {h : Hive} {used : List Entry} (packed : Packed h used)
    (room : used.length < entriesMax) : h.firstUnused = some used.length := by
  obtain ⟨left, is⟩ : ∃ left, entriesMax - used.length = left + 1 :=
    ⟨entriesMax - used.length - 1, by omega⟩
  rw [Hive.firstUnused, packed.entries, List.findIdx?_append, is, List.replicate_succ]
  have noneBefore : (used.map some).findIdx? Option.isNone = none := by
    rw [List.findIdx?_eq_none_iff]
    intro slot inside
    obtain ⟨e, -, rfl⟩ := List.mem_map.mp inside
    rfl
  rw [noneBefore]
  simp [List.findIdx?_cons]

theorem Packed.put {h : Hive} {used : List Entry} (packed : Packed h used) (e : Entry)
    (room : used.length < entriesMax) :
    Packed (h.put used.length (some e) 1) (used ++ [e]) := by
  obtain ⟨left, is⟩ : ∃ left, entriesMax - used.length = left + 1 :=
    ⟨entriesMax - used.length - 1, by omega⟩
  constructor
  · have rest : entriesMax - (used ++ [e]).length = left := by
      rw [List.length_append, List.length_singleton]
      omega
    rw [Hive.put, rest]
    dsimp only
    rw [packed.entries, is, List.replicate_succ, List.set_append_right _ _ (by simp)]
    simp
  · simp [Hive.put, packed.count]

theorem fill_entries {h : Hive} {used : List Entry} (new : List Entry) (packed : Packed h used)
    (room : used.length + new.length ≤ entriesMax) :
    Packed (fill h (new.map entryText)) (used ++ new) := by
  induction new generalizing h used with
  | nil => simpa [fill] using packed
  | cons e new ih =>
    rw [List.length_cons] at room
    have notFull : ¬h.count ≥ entriesMax := by
      rw [packed.count]
      omega
    have next := packed.put e (by omega)
    have later := ih next (by rw [List.length_append, List.length_singleton]; omega)
    rw [List.map_cons, fill, readLine_entryText]
    dsimp only
    rw [dif_pos e.keyValid, if_neg notFull, packed.firstUnused (by omega), entryOf_escape]
    simpa using later

theorem empty_packed : Packed .empty [] := ⟨rfl, rfl⟩

/-- **A file reads back as the hive it was written from**, when that hive has its used entries
first. -/
theorem parse_saveText (scope : Scope) {h : Hive} {used : List Entry} (packed : Packed h used) :
    parse (saveText scope h.entries) = h := by
  have inUse : h.entries.reduceOption = used := by
    rw [packed.entries, List.reduceOption_append, List.reduceOption_replicate_none,
      List.append_nil]
    simp [List.reduceOption]
  obtain ⟨comments, skipped, lines⟩ := saveText_lines scope h.slots
  have read := fill_entries used empty_packed (by simpa using packed.short)
  rw [parse, lines, fill_comments _ skipped, inUse]
  exact Packed.eq (by simpa using read) packed

/-! ## Sorting -/

theorem notAfter_none {l : List (Option Entry)} (after : ∀ slot ∈ l, notAfter none slot = true) :
    l = List.replicate l.length none := by
  apply List.eq_replicate_of_mem
  intro slot inside
  cases slot with
  | none => rfl
  | some e => cases after _ inside

/-- Where the comparison puts unused slots last, the used ones are a run at the front. -/
theorem eq_of_ordered {l : List (Option Entry)}
    (ordered : l.Pairwise fun a b => notAfter a b = true) :
    l = (l.reduceOption).map some ++
      List.replicate (l.length - (l.reduceOption).length) none := by
  induction l with
  | nil => rfl
  | cons slot l ih =>
    obtain ⟨first, rest⟩ := List.pairwise_cons.mp ordered
    cases slot with
    | some e =>
      have later := ih rest
      rw [List.reduceOption_cons_of_some, List.map_cons, List.length_cons, List.length_cons,
        List.cons_append, Nat.add_sub_add_right, ← later]
    | none =>
      have empty := notAfter_none first
      rw [empty]
      simp [List.replicate_succ]

def Hive.Counted (h : Hive) : Prop := h.count = h.used.length

theorem sortHive_used (q : Qsort) (h : Hive) : (sortHive q h).used.length = h.used.length :=
  ((q.perm h.entries).filterMap id).length_eq

theorem sortHive_packed (q : Qsort) {h : Hive} (counted : h.Counted) :
    Packed (sortHive q h) (sortHive q h).used := by
  constructor
  · have shape := eq_of_ordered (q.ordered h.entries)
    have size : (q.sort h.entries).length = entriesMax := (sortHive q h).slots
    rw [size] at shape
    exact shape
  · calc (sortHive q h).count = h.count := rfl
      _ = h.used.length := counted
      _ = (sortHive q h).used.length := by rw [sortHive_used]

/-! ## The count -/

theorem length_used_set {l : List (Option Entry)} {i : Nat} {old : Option Entry}
    (at_i : l[i]? = some old) (slot : Option Entry) :
    ((l.set i slot).reduceOption).length + old.toList.length =
      (l.reduceOption).length + slot.toList.length := by
  induction l generalizing i with
  | nil => simp at at_i
  | cons first rest ih =>
    cases i with
    | zero =>
      simp only [List.getElem?_cons_zero, Option.some.injEq] at at_i
      subst at_i
      cases slot <;> cases first <;> simp
    | succ i =>
      have later := ih (i := i) (by simpa using at_i)
      cases first with
      | none => simpa using later
      | some e =>
        rw [List.set_cons_succ, List.reduceOption_cons_of_some, List.reduceOption_cons_of_some,
          List.length_cons, List.length_cons]
        omega

theorem Hive.Counted.put {h : Hive} (counted : h.Counted) {i : Nat} {old slot : Option Entry}
    {change : Int} (at_i : h.entries[i]? = some old)
    (by' : change = slot.toList.length - old.toList.length) : (h.put i slot change).Counted := by
  have moved := length_used_set at_i slot
  have start : h.count = ((h.entries.reduceOption).length : Int) := counted
  show h.count + change = (((h.entries.set i slot).reduceOption).length : Int)
  omega

theorem find_some {h : Hive} {key : Text} {i : Nat} (found : h.find key = some i) :
    ∃ e, h.entries[i]? = some (some e) ∧ e.key = key := by
  obtain ⟨less, is, -⟩ := List.findIdx?_eq_some_iff_getElem.mp found
  cases at_i : h.entries[i] with
  | none => simp [at_i] at is
  | some e => exact ⟨e, by rw [List.getElem?_eq_getElem less, at_i], by simpa [at_i] using is⟩

theorem firstUnused_some {h : Hive} {i : Nat} (found : h.firstUnused = some i) :
    h.entries[i]? = some none := by
  obtain ⟨less, is, -⟩ := List.findIdx?_eq_some_iff_getElem.mp found
  rw [List.getElem?_eq_getElem less, Option.isNone_iff_eq_none.mp is]

theorem fill_counted {h : Hive} (counted : h.Counted) (lines : List Text) :
    (fill h lines).Counted := by
  fun_induction fill h lines with
  | case1 => exact counted
  | case2 h line rest skipped ih => exact ih counted
  | case3 h line rest key value read valid full ih => exact ih counted
  | case4 => exact counted
  | case5 h line rest key value read valid room i free ih =>
    exact ih (counted.put (firstUnused_some free) (by simp))
  | case6 h line rest key value read invalid ih => exact ih counted

theorem empty_counted : Hive.empty.Counted := by
  simp [Hive.Counted, Hive.used, Hive.empty]

theorem parse_counted (text : Text) : (parse text).Counted :=
  fill_counted empty_counted _

theorem length_clearUnder (pre : Text) (l : List (Option Entry)) :
    ((clearUnder pre l).1.reduceOption).length + (clearUnder pre l).2 =
      (l.reduceOption).length := by
  induction l with
  | nil => rfl
  | cons slot rest ih =>
    unfold clearUnder
    dsimp only
    cases slot with
    | none => simpa using ih
    | some e =>
      rw [List.reduceOption_cons_of_some, List.length_cons]
      split
      · rw [List.reduceOption_cons_of_none]
        omega
      · rw [List.reduceOption_cons_of_some, List.length_cons]
        omega

theorem Hive.Counted.removeUnder {h : Hive} (counted : h.Counted) (pre : Text) :
    (h.removeUnder pre).Counted := by
  have fewer := length_clearUnder pre h.entries
  have start : h.count = ((h.entries.reduceOption).length : Int) := counted
  show h.count - (clearUnder pre h.entries).2 =
    (((clearUnder pre h.entries).1.reduceOption).length : Int)
  omega

/-! ## What a call leaves -/

/-- No two used entries have one key. -/
def Hive.Distinct (h : Hive) : Prop := (h.used.map Entry.key).Nodup

instance (h : Hive) : Decidable h.Distinct := inferInstanceAs (Decidable (List.Nodup _))

/-- The used entries are those of `h` with another key than this, and `new`. -/
def Hive.Changed (h g : Hive) (key : Text) (new : Option Entry) : Prop :=
  g.used.Perm (new.toList ++ h.used.filter fun e => e.key ≠ key)

variable {h g : Hive} {key value other : Text} {new : Option Entry}

theorem mem_used {e : Entry} : e ∈ h.used ↔ some e ∈ h.entries := List.reduceOption_mem_iff

theorem Hive.get_eq_none : h.get key = none ↔ ∀ e ∈ h.used, e.key ≠ key := by
  constructor
  · intro absent e there same
    cases found : h.find key with
    | none =>
      have none_ := List.findIdx?_eq_none_iff.mp found _ (mem_used.mp there)
      simp [same] at none_
    | some i =>
      obtain ⟨d, at_i, -⟩ := find_some found
      simp [Hive.get, found, at_i] at absent
  · intro absent
    cases found : h.find key with
    | none => simp [Hive.get, found]
    | some i =>
      obtain ⟨d, at_i, is⟩ := find_some found
      exact absurd is (absent d (mem_used.mpr (List.mem_of_getElem? at_i)))

theorem Hive.Distinct.get (distinct : h.Distinct) {e : Entry} (there : e ∈ h.used) :
    h.get e.key = some e.value := by
  cases found : h.find e.key with
  | none =>
    have none_ := List.findIdx?_eq_none_iff.mp found _ (mem_used.mp there)
    simp at none_
  | some i =>
    obtain ⟨d, at_i, same⟩ := find_some found
    have mem : d ∈ h.used := mem_used.mpr (List.mem_of_getElem? at_i)
    rw [← List.inj_on_of_nodup_map distinct mem there same]
    simp [Hive.get, same, found, at_i]

/-- Two hives with the same entries of a key have the same value for it. -/
theorem Hive.Distinct.get_congr (distinct : h.Distinct) (distinct' : g.Distinct)
    (same : ∀ e : Entry, e.key = key → (e ∈ g.used ↔ e ∈ h.used)) : g.get key = h.get key := by
  by_cases there : ∃ e ∈ h.used, e.key = key
  · obtain ⟨e, mem, rfl⟩ := there
    rw [distinct.get mem, distinct'.get ((same e rfl).mpr mem)]
  · have absent : ∀ e ∈ h.used, e.key ≠ key := fun e mem is => there ⟨e, mem, is⟩
    rw [Hive.get_eq_none.mpr absent, Hive.get_eq_none.mpr]
    exact fun e mem is => absent e ((same e is).mp mem) is

theorem Hive.Changed.distinct (changed : h.Changed g key new) (distinct : h.Distinct)
    (newKey : ∀ e ∈ new, e.key = key) : g.Distinct := by
  refine (changed.map Entry.key).nodup_iff.mpr ?_
  have rest : ((h.used.filter fun e => e.key ≠ key).map Entry.key).Nodup :=
    distinct.sublist (List.filter_sublist.map _)
  cases new with
  | none => exact rest
  | some e =>
    refine List.nodup_cons.mpr ⟨fun inside => ?_, rest⟩
    obtain ⟨d, mem, same⟩ := List.mem_map.mp inside
    rw [newKey e rfl] at same
    simp [same] at mem

theorem Hive.Changed.here (changed : h.Changed g key new) (distinct : g.Distinct)
    (newKey : ∀ e ∈ new, e.key = key) : g.get key = new.map Entry.value := by
  cases new with
  | none =>
    refine Hive.get_eq_none.mpr fun e mem => ?_
    simpa using (List.mem_filter.mp (changed.mem_iff.mp mem)).2
  | some e =>
    rw [← newKey e rfl]
    exact distinct.get (changed.mem_iff.mpr List.mem_cons_self)

theorem Hive.Changed.elsewhere (changed : h.Changed g key new) (distinct : h.Distinct)
    (newKey : ∀ e ∈ new, e.key = key) (differs : other ≠ key) : g.get other = h.get other := by
  refine distinct.get_congr (changed.distinct distinct newKey) fun e is => ?_
  have notKey : e.key ≠ key := is ▸ differs
  have notNew : e ∉ new.toList := fun mem => notKey (newKey e (Option.mem_toList.mp mem))
  rw [changed.mem_iff, List.mem_append, List.mem_filter]
  simp [notNew, notKey]

theorem sortHive_perm (q : Qsort) (h : Hive) : (sortHive q h).used.Perm h.used :=
  (q.perm h.entries).filterMap id

theorem Hive.Changed.sorted (changed : h.Changed g key new) (q : Qsort) :
    h.Changed (sortHive q g) key new := (sortHive_perm q g).trans changed

/-- A slot that holds the entry with a key, or an unused one where no entry has it, is written. -/
theorem put_changed (distinct : h.Distinct) {i : Nat} {old : Option Entry} {change : Int}
    (at_i : h.entries[i]? = some old) (oldKey : ∀ d ∈ old, d.key = key)
    (absent : old = none → ∀ e ∈ h.used, e.key ≠ key) : h.Changed (h.put i new change) key new := by
  obtain ⟨less, is⟩ := List.getElem?_eq_some_iff.mp at_i
  have split (slot : Option Entry) : (h.entries.set i slot).reduceOption =
      (h.entries.take i).reduceOption ++ (slot.toList ++ (h.entries.drop (i + 1)).reduceOption) := by
    rw [List.set_eq_take_append_cons_drop, if_pos less, List.reduceOption_append]
    cases slot <;> simp
  have whole : h.used = (h.entries.take i).reduceOption ++
      (old.toList ++ (h.entries.drop (i + 1)).reduceOption) := by
    rw [← split, ← is, List.set_getElem_self]
    rfl
  have others : ∀ e ∈ (h.entries.take i).reduceOption ++ (h.entries.drop (i + 1)).reduceOption,
      e.key ≠ key := by
    intro e mem
    cases old with
    | none => exact absent rfl e (by rw [whole]; simpa using mem)
    | some d =>
      intro same
      have apart : ((d :: ((h.entries.take i).reduceOption ++
          (h.entries.drop (i + 1)).reduceOption)).map Entry.key).Nodup := by
        refine (List.Perm.map _ ?_).nodup_iff.mp distinct
        rw [whole]
        exact List.perm_middle
      refine (List.nodup_cons.mp apart).1 (List.mem_map.mpr ⟨e, mem, ?_⟩)
      rw [same, oldKey d rfl]
  have rest : (h.used.filter fun e => e.key ≠ key) =
      (h.entries.take i).reduceOption ++ (h.entries.drop (i + 1)).reduceOption := by
    have none_ : (old.toList.filter fun e => e.key ≠ key) = [] := by
      cases old with
      | none => rfl
      | some d => simp [oldKey d rfl]
    have kept := List.filter_eq_self.mpr fun e mem => decide_eq_true (others e mem)
    rw [List.filter_append] at kept
    rw [whole, List.filter_append, List.filter_append, none_, List.nil_append, kept]
  rw [Hive.Changed, rest]
  show ((h.entries.set i new).reduceOption).Perm _
  rw [split, ← List.append_assoc, ← List.append_assoc]
  exact List.perm_append_comm.append_right _

theorem Hive.Distinct.unchanged (distinct : h.Distinct) {e : Entry} (there : e ∈ h.used) :
    h.Changed h e.key (some e) := by
  obtain ⟨before, after, whole⟩ := List.append_of_mem there
  have apart : ((e :: (before ++ after)).map Entry.key).Nodup := by
    refine (List.Perm.map _ ?_).nodup_iff.mp distinct
    rw [whole]
    exact List.perm_middle
  have kept : ((before ++ after).filter fun d => d.key ≠ e.key) = before ++ after := by
    refine List.filter_eq_self.mpr fun d mem => decide_eq_true fun same => ?_
    exact (List.nodup_cons.mp apart).1 (List.mem_map.mpr ⟨d, mem, same⟩)
  have rest : (h.used.filter fun d => d.key ≠ e.key) = before ++ after := by
    rw [List.filter_append] at kept
    rw [whole, List.filter_append, List.filter_cons_of_neg (by simp), kept]
  rw [Hive.Changed, rest, whole]
  exact List.perm_middle

theorem clearUnder_used (pre : Text) (l : List (Option Entry)) :
    (clearUnder pre l).1.reduceOption = l.reduceOption.filter fun e => !keyUnder e.key pre := by
  induction l with
  | nil => rfl
  | cons slot rest ih =>
    unfold clearUnder
    dsimp only
    cases slot with
    | none => simpa using ih
    | some e =>
      by_cases under : keyUnder e.key pre = true
      · simp [under, ih]
      · simp [under, ih]

section Calls

variable {q : Qsort} {scope : Scope} {s : Side}

/-- A set that is answered true leaves an entry of the key and the value, and the others. -/
theorem set_changed (distinct : s.hive.Distinct)
    (answered : (set q scope .lands s key value).2 = true) :
    ∃ e : Entry, e.key = cstring key ∧ e.value = cstring value ∧
      s.hive.Changed (set q scope .lands s key value).1.hive (cstring key) (some e) := by
  unfold set at answered ⊢
  split at answered
  case isFalse => cases answered
  case isTrue valid =>
  split at answered
  case isTrue => cases answered
  case isFalse long =>
  rw [dif_pos valid, dif_neg long]
  dsimp only at answered ⊢
  split
  case isTrue there =>
    obtain ⟨e, mem, same⟩ : ∃ e ∈ s.hive.used, e.key = cstring key := by
      by_contra none_
      have absent := Hive.get_eq_none.mpr fun e mem same => none_ ⟨e, mem, same⟩
      rw [absent] at there
      cases there
    refine ⟨e, same, ?_, same ▸ distinct.unchanged mem⟩
    rw [← same, distinct.get mem] at there
    exact Option.some.inj there
  case isFalse differs =>
    rw [if_neg differs] at answered
    cases found : s.hive.find (cstring key) with
    | some i =>
      obtain ⟨d, at_i, same⟩ := find_some found
      refine ⟨_, rfl, rfl, (put_changed distinct at_i ?_ ?_).sorted q⟩
      · rintro _ ⟨⟩
        exact same
      · intro none_
        cases none_
    | none =>
      have absent : ∀ e ∈ s.hive.used, e.key ≠ cstring key := by
        intro e mem same
        have none_ := List.findIdx?_eq_none_iff.mp found _ (mem_used.mp mem)
        simp [same] at none_
      simp only [found] at answered ⊢
      cases free : s.hive.firstUnused with
      | none => simp [free] at answered
      | some i =>
        refine ⟨_, rfl, rfl, (put_changed distinct (firstUnused_some free) ?_ fun _ => absent).sorted q⟩
        intro d none_
        cases none_

theorem remove_changed (distinct : s.hive.Distinct)
    (answered : (remove q scope .lands s key).2 = true) :
    s.hive.Changed (remove q scope .lands s key).1.hive (cstring key) none := by
  unfold remove at answered ⊢
  split at answered
  case isFalse => cases answered
  case isTrue valid =>
  rw [if_pos valid]
  cases found : s.hive.find (cstring key) with
  | none => simp [found] at answered
  | some i =>
    obtain ⟨d, at_i, same⟩ := find_some found
    refine (put_changed distinct at_i ?_ ?_).sorted q
    · rintro _ ⟨⟩
      exact same
    · intro none_
      cases none_

theorem removeAll_used (pre : Text) :
    (removeAll q scope .lands s pre).1.hive.used.Perm
      (s.hive.used.filter fun e => !keyUnder e.key (cstring pre)) := by
  have cleared := clearUnder_used (cstring pre) s.hive.entries
  unfold removeAll
  dsimp only
  split
  · refine (sortHive_perm q _).trans ?_
    show ((clearUnder (cstring pre) s.hive.entries).1.reduceOption).Perm _
    rw [cleared]
    exact .refl _
  · rename_i none_
    have fewer := length_clearUnder (cstring pre) s.hive.entries
    rw [cleared] at fewer
    have whole : (s.hive.used.filter fun e => !keyUnder e.key (cstring pre)).length =
        s.hive.used.length := by
      rw [Hive.used]
      omega
    show s.hive.used.Perm _
    rw [List.filter_eq_self.mpr (List.length_filter_eq_length_iff.mp whole)]

theorem removeAll_distinct (distinct : s.hive.Distinct) (pre : Text) :
    (removeAll q scope .lands s pre).1.hive.Distinct :=
  ((removeAll_used pre).map Entry.key).nodup_iff.mpr (distinct.sublist (List.filter_sublist.map _))

theorem removeAll_get (distinct : s.hive.Distinct) (pre other : Text) :
    (removeAll q scope .lands s pre).1.hive.get other =
      if keyUnder other (cstring pre) then none else s.hive.get other := by
  have left (e : Entry) : e ∈ (removeAll q scope .lands s pre).1.hive.used ↔
      e ∈ s.hive.used ∧ keyUnder e.key (cstring pre) = false := by
    rw [(removeAll_used pre).mem_iff, List.mem_filter, Bool.not_eq_true']
  split
  · rename_i under
    refine Hive.get_eq_none.mpr fun e mem same => ?_
    have kept := ((left e).mp mem).2
    rw [same, under] at kept
    cases kept
  · rename_i outside
    refine distinct.get_congr (removeAll_distinct distinct pre) fun e same => ?_
    rw [left, same]
    simp [outside]

theorem called_distinct (distinct : s.hive.Distinct) (call : Call) :
    (called q scope .lands s call).hive.Distinct := by
  cases call with
  | set key value =>
    cases answered : (set q scope .lands s key value).2 with
    | true =>
      obtain ⟨e, same, -, changed⟩ := set_changed distinct answered
      exact changed.distinct distinct (by rintro _ ⟨⟩; exact same)
    | false =>
      have unchanged : (set q scope .lands s key value).1 = s := by
        unfold set at answered ⊢
        grind [save]
      show (set q scope .lands s key value).1.hive.Distinct
      rw [unchanged]
      exact distinct
  | remove key =>
    cases answered : (remove q scope .lands s key).2 with
    | true => exact (remove_changed distinct answered).distinct distinct (by simp)
    | false =>
      have unchanged : (remove q scope .lands s key).1 = s := by
        unfold remove at answered ⊢
        grind [save]
      show (remove q scope .lands s key).1.hive.Distinct
      rw [unchanged]
      exact distinct
  | removeAll pre => exact removeAll_distinct distinct pre

end Calls

/-! ## Runs -/

/-- What is on disk is what is in memory. -/
structure Kept (q : Qsort) (scope : Scope) (s : Side) : Prop where
  again : (load q scope .lands s.file s.legacy).hive = s.hive
  counted : s.hive.Counted

variable {q : Qsort} {scope : Scope} {s : Side}

theorem save_kept (counted : s.hive.Counted) : Kept q scope (save q scope .lands s).1 where
  again := parse_saveText scope (sortHive_packed q counted)
  counted := (sortHive_packed q counted).count

theorem load_kept (file legacy : Option Text) :
    Kept q scope (load q scope .lands file legacy) := by
  unfold load
  split
  case h_1 text => exact ⟨rfl, parse_counted text⟩
  case h_2 =>
    split
    case h_1 text =>
      have saved : Kept q .user (save q .user .lands ⟨parse text, none, some text⟩).1 :=
        save_kept (parse_counted text)
      exact ⟨saved.again, saved.counted⟩
    case h_2 other =>
      refine ⟨?_, empty_counted⟩
      rw [load]
      exact other

theorem set_kept (kept : Kept q scope s) (key value : Text) :
    Kept q scope (set q scope .lands s key value).1 := by
  unfold set
  split
  case isFalse => exact kept
  case isTrue =>
  split
  case isTrue => exact kept
  case isFalse =>
  dsimp only
  split
  case isTrue => exact kept
  case isFalse =>
  split
  case h_1 i found =>
    obtain ⟨e, at_i, -⟩ := find_some found
    exact save_kept (kept.counted.put at_i (by simp))
  case h_2 =>
    split
    case h_1 => exact kept
    case h_2 i free => exact save_kept (kept.counted.put (firstUnused_some free) (by simp))

theorem remove_kept (kept : Kept q scope s) (key : Text) :
    Kept q scope (remove q scope .lands s key).1 := by
  unfold remove
  split
  case isFalse => exact kept
  case isTrue =>
  split
  case h_1 => exact kept
  case h_2 i found =>
    obtain ⟨e, at_i, -⟩ := find_some found
    exact save_kept (kept.counted.put at_i (by simp))

theorem removeAll_kept (kept : Kept q scope s) (pre : Text) :
    Kept q scope (removeAll q scope .lands s pre).1 := by
  unfold removeAll
  dsimp only
  split
  · exact save_kept (kept.counted.removeUnder _)
  · exact kept

theorem called_kept (kept : Kept q scope s) (call : Call) :
    Kept q scope (called q scope .lands s call) := by
  cases call with
  | set key value => exact set_kept kept key value
  | remove key => exact remove_kept kept key
  | removeAll pre => exact removeAll_kept kept pre

theorem run_kept {h : Hives} {moves : List Move} (kept : ∀ scope, Kept q scope (h scope))
    (saved : ∀ m ∈ moves, m.write = .lands) :
    ∀ scope, Kept q scope (run (step q) h moves scope) := by
  induction moves generalizing h with
  | nil => exact kept
  | cons m moves ih =>
    apply ih
    · intro scope
      unfold step
      by_cases same : scope = m.scope
      · subst same
        rw [Function.update_self, saved m List.mem_cons_self]
        exact called_kept (kept _) _
      · rw [Function.update_of_ne same]
        exact kept scope
    · exact fun m' inside => saved m' (List.mem_cons_of_mem _ inside)

theorem run_distinct {h : Hives} {moves : List Move} (distinct : ∀ scope, (h scope).hive.Distinct)
    (saved : ∀ m ∈ moves, m.write = .lands) :
    ∀ scope, (run (step q) h moves scope).hive.Distinct := by
  induction moves generalizing h with
  | nil => exact distinct
  | cons m moves ih =>
    refine ih (fun scope => ?_) fun m' inside => saved m' (List.mem_cons_of_mem _ inside)
    unfold step
    by_cases same : scope = m.scope
    · subst same
      rw [Function.update_self, saved m List.mem_cons_self]
      exact called_distinct (distinct _) _
    · rw [Function.update_of_ne same]
      exact distinct scope

/-- **The registry survives a restart.** From whatever the files held at first, after any calls on
either hive whose writes landed, loading the file last written gives the hive there was, slot for
slot, and it counts what it holds. And the hive is what was asked for: where no file had a key twice, a
set that is answered true gives its key that value, a removal takes the key out, one by prefix takes
out what is under the prefix, and none of them touches another key. -/
theorem registry_survives (q : Qsort) (files legacy : Scope → Option Text) (moves : List Move)
    (saved : ∀ m ∈ moves, m.write = .lands) (scope : Scope) :
    let now := run (step q) (init q .lands files legacy) moves scope;
    let again := load q scope .lands now.file now.legacy;
    (again.hive = now.hive ∧ (∀ key, again.hive.get key = now.hive.get key) ∧
      again.hive.count = again.hive.used.length) ∧
    ((∀ side, (init q .lands files legacy side).hive.Distinct) →
      (∀ key value, (set q scope .lands now key value).2 = true →
        let after := (set q scope .lands now key value).1.hive;
        after.get (cstring key) = some (cstring value) ∧
          ∀ other, other ≠ cstring key → after.get other = now.hive.get other) ∧
      (∀ key, (remove q scope .lands now key).2 = true →
        let after := (remove q scope .lands now key).1.hive;
        after.get (cstring key) = none ∧
          ∀ other, other ≠ cstring key → after.get other = now.hive.get other) ∧
      ∀ pre other, (removeAll q scope .lands now pre).1.hive.get other =
        if keyUnder other (cstring pre) then none else now.hive.get other) := by
  have kept := run_kept (h := init q .lands files legacy) (fun scope => load_kept _ _) saved scope
  dsimp only
  refine ⟨⟨kept.again, fun key => by rw [kept.again], ?_⟩, fun distinct => ?_⟩
  · rw [kept.again]
    exact kept.counted
  · have distinct := run_distinct (q := q) distinct saved scope
    refine ⟨fun key value answered => ?_, fun key answered => ?_, removeAll_get distinct⟩
    · obtain ⟨e, same, is, changed⟩ := set_changed distinct answered
      have newKey : ∀ d ∈ some e, d.key = cstring key := by
        rintro _ ⟨⟩
        exact same
      refine ⟨?_, fun other => changed.elsewhere distinct newKey⟩
      rw [changed.here (changed.distinct distinct newKey) newKey, Option.map_some, is]
    · have changed := remove_changed distinct answered
      have newKey : ∀ d ∈ (none : Option Entry), d.key = cstring key := by simp
      exact ⟨changed.here (changed.distinct distinct newKey) newKey,
        fun other => changed.elsewhere distinct newKey⟩

instance : IsTrans (Option Entry) fun a b => notAfter a b = true where
  trans a b c ab bc := by
    cases a <;> cases b <;> cases c <;> simp_all [notAfter]
    exact le_trans ab bc

instance : Std.Total fun a b : Option Entry => notAfter a b = true where
  total a b := by
    cases a <;> cases b <;> simp [notAfter]
    exact le_total _ _

/-- A sort there is. -/
def insertionQsort : Qsort where
  sort l := l.insertionSort fun a b => notAfter a b = true
  perm l := List.perm_insertionSort _ l
  ordered l := List.pairwise_insertionSort _ l

def noFiles (_ : Scope) : Option Text := none

/-- A value of spaces that ends in a backslash, and a second key set and removed. -/
def spacedMoves : List Move :=
  [⟨.user, .set "a/b".toList "  \\".toList, .lands⟩, ⟨.user, .set "c".toList [], .lands⟩,
    ⟨.user, .remove "c".toList, .lands⟩]

theorem registry_survives_spaces :
    let now := run (step insertionQsort) (init insertionQsort .lands noFiles noFiles) spacedMoves .user;
    let again := load insertionQsort .user .lands now.file now.legacy;
    again.hive = now.hive ∧ now.hive.get "a/b".toList = some "  \\".toList ∧
      now.hive.get "c".toList = none ∧
      let after := (set insertionQsort .user .lands now "c".toList "\n".toList).1.hive;
      after.get "c".toList = some "\n".toList ∧ after.get "a/b".toList = some "  \\".toList := by
  have survives := registry_survives insertionQsort noFiles noFiles spacedMoves (by decide) .user
  obtain ⟨same, -⟩ := survives.1
  obtain ⟨sets, -⟩ := survives.2 (by intro side; cases side <;> decide +kernel)
  obtain ⟨here, elsewhere⟩ := sets "c".toList "\n".toList (by decide +kernel)
  have value : (run (step insertionQsort) (init insertionQsort .lands noFiles noFiles) spacedMoves
      .user).hive.get "a/b".toList = some "  \\".toList := by decide +kernel
  refine ⟨same, value, by decide +kernel, here, ?_⟩
  exact (elsewhere "a/b".toList (by decide)).trans value

end ReconOS.Registry
