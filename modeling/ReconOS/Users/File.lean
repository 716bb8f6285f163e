import ReconOS.Users.Accounts

/-! The account list as a file: what is read back of what was written. -/
namespace ReconOS.Users
open Libc Lib

/-! ## Bytes -/

theorem hexPairs_toHex (bytes : List UInt8) : hexPairs (toHex bytes) = some bytes := by
  induction bytes with
  | nil => rfl
  | cons b rest ih =>
    have small := b.toNat_lt
    have high : digitIn 16 (digitChar false (b.toNat / 16)) = some (b.toNat / 16) :=
      digitIn_digitChar false (by decide) (by omega)
    have low : digitIn 16 (digitChar false (b.toNat % 16)) = some (b.toNat % 16) :=
      digitIn_digitChar false (by decide) (by omega)
    have whole : UInt8.ofNat (b.toNat / 16 * 16 + b.toNat % 16) = b := by
      rw [Nat.div_add_mod']
      exact UInt8.ofNat_toNat
    show hexPairs (digitChar false (b.toNat / 16) :: digitChar false (b.toNat % 16) :: toHex rest) = _
    rw [hexPairs, high, low, ih]
    dsimp only
    rw [whole]

theorem fromHex_toHex {size : Nat} (bytes : Bytes size) : fromHex size (toHex bytes.1) = some bytes := by
  rw [fromHex, hexPairs_toHex, Option.bind_some, dif_pos bytes.2]

/-- A character that no field is ended by. -/
def Plain (c : Char) : Prop := c ≠ ':' ∧ c ≠ '\n' ∧ c ≠ nul

instance (c : Char) : Decidable (Plain c) := inferInstanceAs (Decidable (_ ∧ _ ∧ _))

theorem Plain.of_all {text : Text} (all : text.all (fun c => decide (Plain c)) = true) :
    ∀ c ∈ text, Plain c := by
  intro c inside
  exact of_decide_eq_true (List.all_eq_true.mp all c inside)

theorem Plain.of_digit {c : Char} (digit : (digitValue c).isSome) : Plain c := by
  refine ⟨?_, ?_, ?_⟩ <;> rintro rfl <;> revert digit <;> decide

theorem toHex_plain (bytes : List UInt8) : ∀ c ∈ toHex bytes, Plain c := by
  intro c inside
  obtain ⟨b, -, here⟩ := List.mem_flatMap.mp inside
  have small := b.toNat_lt
  apply Plain.of_digit
  cases List.mem_cons.mp here with
  | inl high => rw [high, digitValue_digitChar _ (by omega)]; rfl
  | inr low => rw [List.mem_singleton.mp low, digitValue_digitChar _ (by omega)]; rfl

theorem decimal_plain {n : Nat} (range : n < 2 ^ 32) : ∀ c ∈ decimal n, Plain c := by
  intro c inside
  exact .of_digit (digitsOf_chars (by omega) c inside)

theorem strtoul_decimal {n : Nat} (range : n < 2 ^ 32) : (strtoul (decimal n) 10).1 = n := by
  have wide : n < 2 ^ 64 := by omega
  have spells : Spells 10 (decimal n) n := digitsOf_spells false (by decide) (by decide) wide
  have read := strtoull_numeral (by simp : ∀ c ∈ [], isSpace c) (decimal_numeral wide [] (by simp))
    (by simp) (by decide : 0 < 10) spells wide
  exact congrArg Prod.fst read

/-! ## Fields -/

theorem Account.plain (a : Account) : ∀ c ∈ a.name, Plain c := by
  have valid := a.nameValid
  simp only [nameIsValid, Bool.and_eq_true, List.all_eq_true] at valid
  intro c inside
  have each := valid.2 c inside
  simp only [ne_eq, decide_not, Bool.not_eq_eq_eq_not, Bool.not_true, decide_eq_false_iff_not,
    decide_eq_true_eq] at each
  obtain ⟨⟨⟨⟨-, colon⟩, -⟩, newline⟩, printable⟩ := each
  refine ⟨colon, newline, ?_⟩
  rintro rfl
  exact absurd printable (by decide)

/-- It begins with something, and not with a space. -/
theorem Account.head (a : Account) : ∃ c rest, a.name = c :: rest ∧ blank c = false := by
  have valid := a.nameValid
  simp only [nameIsValid, Bool.and_eq_true, List.all_eq_true] at valid
  cases is : a.name with
  | nil => simp [is] at valid
  | cons c rest =>
    refine ⟨c, rest, rfl, ?_⟩
    have notSpace : c ≠ ' ' := by simpa [is] using valid.1.1.2
    have printable := (valid.2 c (by simp [is]))
    simp only [decide_eq_true_eq] at printable
    have notTab : c ≠ '\t' := by
      rintro rfl
      exact absurd printable.2 (by decide)
    simp [blank, notSpace, notTab]

theorem roleText_plain (r : Role) : ∀ c ∈ roleText r, Plain c := by
  cases r with
  | limited => exact .of_all (by decide)
  | administrator => exact .of_all (by decide)

theorem roleOf_roleText (r : Role) : roleOf (roleText r) = r := by
  cases r <;> decide

theorem splitFields_cons {front rest : Text} (whole : ':' ∉ front) (more : Nat) :
    splitFields (more + 1) (front ++ ':' :: rest) = front :: splitFields more rest := by
  rw [splitFields, Text.cut_append whole]

theorem not_colon {text : Text} (plain : ∀ c ∈ text, Plain c) : ':' ∉ text :=
  fun inside => (plain _ inside).1 rfl

/-- The last three fields of a line. -/
def secretFields : Option Secret → List Text
  | some s => [decimal s.iterations, toHex s.salt.1, toHex s.hash.1]
  | none => [decimal 0, [], []]

theorem splitFields_secretText (secret : Option Secret) :
    splitFields 2 (secretText secret) = secretFields secret := by
  cases secret with
  | none => decide
  | some s =>
    have count := not_colon (decimal_plain s.range)
    have salt := not_colon (toHex_plain s.salt.1)
    rw [secretText, List.append_assoc, List.cons_append, splitFields_cons count,
      splitFields_cons salt]
    rfl

theorem splitFields_accountText (a : Account) :
    splitFields 4 (accountText a) = a.name :: roleText a.role :: secretFields a.secret := by
  rw [accountText, List.append_assoc, List.cons_append, splitFields_cons (not_colon a.plain),
    splitFields_cons (not_colon (roleText_plain a.role)), splitFields_secretText]

theorem secretOf_secretFields (secret : Option Secret) :
    ∃ count rest, secretFields secret = count :: rest ∧ secretOf count rest = secret := by
  cases secret with
  | none => exact ⟨_, _, rfl, by decide⟩
  | some s =>
    refine ⟨_, _, rfl, ?_⟩
    have same : (strtoul (decimal s.iterations) 10).1 % 2 ^ 32 = s.iterations := by
      rw [strtoul_decimal s.range, Nat.mod_eq_of_lt s.range]
    unfold secretOf
    simp only [same, s.positive, fromHex_toHex, dite_true]

theorem accountOf_accountText (a : Account) : accountOf (splitFields 4 (accountText a)) = some a := by
  obtain ⟨count, rest, fields, secret⟩ := secretOf_secretFields a.secret
  rw [splitFields_accountText, fields, accountOf, dif_pos a.nameValid, roleOf_roleText, secret]

/-! ## Lines -/

/-- A name that begins as a comment does. -/
def Account.Hidden (a : Account) : Prop := a.name.head? = some '#'

instance (a : Account) : Decidable a.Hidden := inferInstanceAs (Decidable (_ = _))

theorem readLine_accountText (a : Account) :
    readLine (accountText a) = if a.Hidden then none else some a := by
  obtain ⟨c, rest, name, some⟩ := a.head
  have begins : accountText a = c :: (rest ++ ':' :: roleText a.role ++ ':' :: secretText a.secret) := by
    rw [accountText, name]
    rfl
  have same : (accountText a).dropWhile blank = accountText a := by
    rw [begins, Text.dropWhile_stop some]
  unfold readLine
  dsimp only
  rw [same, accountOf_accountText]
  have hidden : a.Hidden ↔ accountText a = [] ∨ (accountText a).head? = Option.some '#' := by
    rw [Account.Hidden, name, begins]
    simp
  simp only [hidden]

theorem accountText_oneLine (a : Account) : '\n' ∉ accountText a ∧ nul ∉ accountText a := by
  have chars : ∀ c ∈ accountText a, c = ':' ∨ Plain c := by
    intro c inside
    simp only [accountText, List.mem_append, List.mem_cons] at inside
    rcases inside with (inName | rfl | inRole) | rfl | inSecret
    · exact .inr (a.plain c inName)
    · exact .inl rfl
    · exact .inr (roleText_plain _ c inRole)
    · exact .inl rfl
    · revert inSecret
      cases a.secret with
      | none =>
        intro inside
        simp only [secretText, List.mem_append, List.mem_cons, List.not_mem_nil, or_false] at inside
        rcases inside with inCount | rfl | rfl
        · exact .inr (decimal_plain (by decide) c inCount)
        · exact .inl rfl
        · exact .inl rfl
      | some s =>
        intro inside
        simp only [secretText, List.mem_append, List.mem_cons] at inside
        rcases inside with (inCount | rfl | inSalt) | rfl | inHash
        · exact .inr (decimal_plain s.range c inCount)
        · exact .inl rfl
        · exact .inr (toHex_plain _ c inSalt)
        · exact .inl rfl
        · exact .inr (toHex_plain _ c inHash)
  constructor
  · intro inside
    rcases chars _ inside with colon | plain
    · exact absurd colon (by decide)
    · exact plain.2.1 rfl
  · intro inside
    rcases chars _ inside with colon | plain
    · exact absurd colon (by decide)
    · exact plain.2.2 rfl

theorem commentLines_plain :
    (∀ line ∈ commentLines, '\n' ∉ line ∧ line ≠ []) ∧ (∀ line ∈ commentLines, nul ∉ line) ∧
      ∀ line ∈ commentLines, readLine line = none := by
  unfold commentLines
  repeat rw [String.toList_ofList]
  decide +kernel

theorem saveText_lines (accounts : List Account) :
    Text.tokens '\n' (cstring (saveText accounts)) =
      commentLines ++ accounts.map accountText := by
  obtain ⟨whole, noNul, -⟩ := commentLines_plain
  have lines : ∀ line ∈ accounts.map accountText, '\n' ∉ line ∧ line ≠ [] := by
    intro line inside
    obtain ⟨a, -, rfl⟩ := List.mem_map.mp inside
    exact ⟨(accountText_oneLine a).1, by simp [accountText]⟩
  have body : (accounts.flatMap fun a => accountText a ++ ['\n']) =
      (accounts.map accountText).flatMap (· ++ ['\n']) := by
    rw [List.flatMap_map]
  have plain : nul ∉ saveText accounts := by
    simp only [saveText, List.mem_append, List.mem_flatMap, List.mem_cons, not_or, not_exists,
      not_and, List.not_mem_nil, or_false]
    refine ⟨fun line inside => ⟨noNul line inside, by decide⟩, by decide, fun a _ =>
      ⟨(accountText_oneLine a).2, by decide⟩⟩
  rw [cstring_of_nul_not_mem plain, saveText, Text.tokens_append, Text.tokens_lines whole, body,
    Text.tokens_lines lines]

/-! ## The table it comes to -/

theorem Table.account_eq (t : Table) (name : Text) :
    t.account name = t.accounts.find? fun a => sameText a.name name :=
  Slots.find_used _ _

theorem Table.find_isSome (t : Table) (name : Text) :
    (t.find name).isSome = t.accounts.any fun a => sameText a.name name :=
  Slots.find_isSome _ _

def Differ (a b : Account) : Prop := sameText a.name b.name = false

theorem differ_symm {a b : Account} (differ : Differ a b) : Differ b a := by
  rw [Differ, sameText, decide_eq_false_iff_not] at *
  exact fun same => differ same.symm

/-- Names are different, ignoring case. -/
def Distinct (accounts : List Account) : Prop := accounts.Pairwise Differ

theorem Distinct.insert {front back : List Account} {a : Account} (distinct : Distinct (front ++ back))
    (apart : ∀ b ∈ front ++ back, Differ b a) : Distinct (front ++ a :: back) := by
  unfold Distinct
  rw [List.pairwise_middle differ_symm, List.pairwise_cons]
  exact ⟨fun b inside => differ_symm (apart b inside), distinct⟩

/-- The used slots come first, and are counted. -/
structure Table.Packed (t : Table) (used : List Account) : Prop where
  slots : t.slots = Slots.packed usersMax used
  count : t.count = used.length

theorem Table.Packed.accounts {t : Table} {used : List Account} (packed : t.Packed used) :
    t.accounts = used := by
  rw [Table.accounts, packed.slots, Slots.packed_used]

theorem empty_packed : Table.empty.Packed [] := ⟨rfl, rfl⟩

theorem fill_comments (t : Table) {comments : List Text}
    (skipped : ∀ line ∈ comments, readLine line = none) (rest : List Text) :
    fill t (comments ++ rest) = fill t rest := by
  induction comments with
  | nil => rfl
  | cons line comments ih =>
    rw [List.cons_append, fill, skipped line List.mem_cons_self]
    exact ih fun l inside => skipped l (List.mem_cons_of_mem _ inside)

theorem fill_accounts {t : Table} {used : List Account} (accounts : List Account)
    (packed : t.Packed used) (distinct : Distinct (used ++ accounts))
    (room : used.length + accounts.length ≤ usersMax) :
    (fill t (accounts.map accountText)).Packed
      (used ++ accounts.filter fun a => ¬a.Hidden) := by
  induction accounts generalizing t used with
  | nil => simpa [fill] using packed
  | cons a rest ih =>
    rw [List.length_cons] at room
    have others : Distinct (used ++ rest) :=
      List.Pairwise.sublist (List.Sublist.append (.refl _) (List.sublist_cons_self _ _)) distinct
    rw [List.map_cons, fill, readLine_accountText]
    by_cases hidden : a.Hidden
    · rw [if_pos hidden, List.filter_cons_of_neg (by simpa using hidden)]
      exact ih packed others (by omega)
    · rw [if_neg hidden, List.filter_cons_of_pos (by simpa using hidden)]
      have absent : (t.find a.name).isSome = false := by
        rw [t.find_isSome, packed.accounts, List.any_eq_false]
        intro b inside
        have differ := (List.pairwise_append.mp distinct).2.2 b inside a List.mem_cons_self
        simpa [Differ] using differ
      dsimp only
      rw [absent, if_neg Bool.false_ne_true, packed.slots, Slots.firstFree_packed (by omega)]
      have next : (t.put used.length (some a) 1).Packed (used ++ [a]) := by
        constructor
        · rw [Table.put]
          dsimp only
          rw [packed.slots, Slots.set_packed (by omega)]
        · rw [Table.put]
          dsimp only
          rw [packed.count, List.length_append]
          rfl
      have shift : used ++ a :: rest = used ++ [a] ++ rest := by simp
      rw [← List.singleton_append, ← List.append_assoc]
      apply ih next
      · rw [← shift]
        exact distinct
      · rw [List.length_append, List.length_singleton]
        omega

/-- **What a saved list reads back as**: the same accounts, but for those whose names begin as a
comment does. -/
theorem load_saveText {accounts : List Account} (distinct : Distinct accounts)
    (room : accounts.length ≤ usersMax) :
    (load (some (saveText accounts))).Packed (accounts.filter fun a => ¬a.Hidden) := by
  rw [load, parse, saveText_lines, fill_comments _ commentLines_plain.2.2]
  exact fill_accounts accounts empty_packed distinct (by simpa using room)

/-! ## Whatever the file is -/

/-- A table as the calls keep it: counted, no name twice. -/
structure Table.Sound (t : Table) : Prop where
  counted : t.count = t.accounts.length
  distinct : Distinct t.accounts

theorem splitFields_prefix {more : Nat} {line field : Text} {rest : List Text}
    (is : splitFields more line = field :: rest) : field <+: line := by
  cases more with
  | zero =>
    rw [splitFields, List.cons.injEq] at is
    exact is.1 ▸ List.prefix_refl _
  | succ more =>
    rw [splitFields] at is
    split at is
    case h_1 first after here =>
      obtain ⟨whole, -⟩ := Text.eq_of_cut here
      rw [List.cons.injEq] at is
      exact ⟨':' :: after, by rw [whole, is.1]⟩
    case h_2 =>
      rw [List.cons.injEq] at is
      exact is.1 ▸ List.prefix_refl _

theorem accountOf_name {fields : List Text} {a : Account} (is : accountOf fields = some a) :
    ∃ rest, fields = a.name :: rest := by
  unfold accountOf at is
  split at is
  case h_1 name role count rest =>
    split at is
    case isTrue valid =>
      cases is
      exact ⟨_, rfl⟩
    case isFalse => cases is
  case h_2 => cases is

theorem readLine_shown {line : Text} {a : Account} (is : readLine line = some a) : ¬a.Hidden := by
  unfold readLine at is
  dsimp only at is
  split at is
  case isTrue => cases is
  case isFalse shown =>
    obtain ⟨rest, fields⟩ := accountOf_name is
    obtain ⟨after, whole⟩ := splitFields_prefix fields
    obtain ⟨c, more, name, -⟩ := a.head
    intro hidden
    rw [Account.Hidden, name] at hidden
    apply shown
    right
    rw [← whole, name]
    exact hidden

theorem Table.accounts_put {t : Table} {i : Nat} {old : Option Account} (here : t.slots[i]? = some old)
    (new : Option Account) (change : Int) :
    ∃ front back, t.accounts = front ++ old.toList ++ back ∧
      (t.put i new change).accounts = front ++ new.toList ++ back := by
  obtain ⟨front, back, parts, length⟩ := Slots.split here
  refine ⟨front.reduceOption, back.reduceOption, ?_, ?_⟩
  · rw [Table.accounts, parts, Slots.used_split]
  · rw [Table.accounts, Table.put]
    dsimp only
    rw [parts, ← length, Slots.set_split, Slots.used_split]

/-- Another account, where a name is free and so is a slot. -/
theorem Table.Sound.put {t : Table} (sound : t.Sound) {a : Account}
    (absent : (t.find a.name).isSome = false) {i : Nat} (free : t.slots[i]? = some none) :
    (t.put i (some a) 1).Sound ∧
      ∃ front back, t.accounts = front ++ back ∧
        (t.put i (some a) 1).accounts = front ++ a :: back := by
  obtain ⟨front, back, before, after⟩ := Table.accounts_put free (some a) 1
  rw [Option.toList_none, List.append_nil] at before
  rw [Option.toList_some, List.append_assoc, List.singleton_append] at after
  refine ⟨⟨?_, ?_⟩, front, back, before, after⟩
  · rw [after, Table.put]
    dsimp only
    rw [sound.counted, before]
    simp only [List.length_append, List.length_cons, Nat.cast_add, Nat.cast_one]
    omega
  · have others : ∀ b ∈ t.accounts, sameText b.name a.name = false := by
      rw [t.find_isSome, List.any_eq_false] at absent
      intro b inside
      simpa using absent b inside
    have distinct := sound.distinct
    rw [before] at distinct others
    rw [after]
    exact distinct.insert others

theorem fill_sound {t : Table} (sound : t.Sound) (lines : List Text)
    (shown : ∀ a ∈ t.accounts, ¬a.Hidden) :
    (fill t lines).Sound ∧ ∀ a ∈ (fill t lines).accounts, ¬a.Hidden := by
  induction lines generalizing t with
  | nil => exact ⟨sound, shown⟩
  | cons line rest ih =>
    rw [fill]
    split
    case h_1 => exact ih sound shown
    case h_2 a is =>
      split
      case isTrue => exact ih sound shown
      case isFalse absent =>
        split
        case h_1 => exact ⟨sound, shown⟩
        case h_2 i free =>
          obtain ⟨next, front, back, before, after⟩ :=
            sound.put (by simpa using absent) (Slots.firstFree_some free)
          apply ih next
          intro b inside
          rw [after, List.mem_append, List.mem_cons] at inside
          rw [before] at shown
          rcases inside with inFront | rfl | inBack
          · exact shown b (List.mem_append_left _ inFront)
          · exact readLine_shown is
          · exact shown b (List.mem_append_right _ inBack)

/-- A table read from a file is counted, with no name twice and none that would not be read
again. -/
theorem load_sound (file : Option Text) :
    (load file).Sound ∧ ∀ a ∈ (load file).accounts, ¬a.Hidden := by
  have none : Table.empty.accounts = [] := empty_packed.accounts
  have start : Table.empty.Sound := ⟨by rw [none]; rfl, by rw [none]; exact .nil⟩
  have shown : ∀ a ∈ Table.empty.accounts, ¬a.Hidden := by
    rw [none]
    simp
  cases file with
  | none => exact ⟨start, shown⟩
  | some text => exact fill_sound start _ shown

end ReconOS.Users
