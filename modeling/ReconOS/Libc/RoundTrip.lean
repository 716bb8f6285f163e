import ReconOS.Libc.Scan

/-! What `snprintf` prints of a 64-bit value is read back. -/
namespace ReconOS.Libc

/-- The flags and the width of an integer conversion. -/
structure Layout where
  flags : Text
  width : Nat
  known : ∀ c ∈ flags, c ∈ [' ', '+', '0', '#']
  width_int : width < 2 ^ 31

def Layout.text (l : Layout) : Text :=
  l.flags ++ if l.width = 0 then [] else Nat.toDigits 10 l.width

/-- `%`, the layout, `ll` and the conversion. -/
def Layout.format (l : Layout) (conv : Char) : Text := '%' :: (l.text ++ ['l', 'l', conv])

def Layout.spec (l : Layout) : Spec :=
  { zero := '0' ∈ l.flags, plus := '+' ∈ l.flags, space := ' ' ∈ l.flags, alt := '#' ∈ l.flags
    width := l.width }

/-! ## Reading the layout -/

theorem readFlags_append {flags rest : Text} (known : ∀ c ∈ flags, c ∈ [' ', '+', '0', '#'])
    (stops : ∀ f, readFlags f rest = (f, rest)) (f : Spec) :
    readFlags f (flags ++ rest) =
      ({ f with zero := f.zero || decide ('0' ∈ flags), plus := f.plus || decide ('+' ∈ flags)
                space := f.space || decide (' ' ∈ flags), alt := f.alt || decide ('#' ∈ flags) },
        rest) := by
  induction flags generalizing f with
  | nil => simp [stops]
  | cons c flags ih =>
    have later := ih fun c inside => known c (List.mem_cons_of_mem _ inside)
    have flag := known c List.mem_cons_self
    simp only [List.mem_cons, List.not_mem_nil, or_false] at flag
    rcases flag with rfl | rfl | rfl | rfl <;> simp [readFlags, later]

theorem readNat_append {cs rest : Text} (digits : ∀ c ∈ cs, c.isDigit = true)
    (stops : ∀ n, readNat n rest = (n, rest)) (n : Nat) :
    readNat n (cs ++ rest) = (Nat.ofDigitChars 10 cs n, rest) := by
  induction cs generalizing n with
  | nil => simp [stops, Nat.ofDigitChars]
  | cons c cs ih =>
    have digit := digits c List.mem_cons_self
    have between : '0' ≤ c ∧ c ≤ '9' := by
      simpa [Char.isDigit, Char.le_def] using digit
    have later := ih (fun c inside => digits c (List.mem_cons_of_mem _ inside))
      (n * 10 + (c.toNat - '0'.toNat))
    simp only [List.cons_append, readNat, between, and_self, ↓reduceIte, later,
      Nat.ofDigitChars, List.foldl_cons, Nat.mul_comm]

theorem width_leading {w : Nat} (positive : 0 < w) (c : Char) (rest : Text)
    (written : Nat.toDigits 10 w = c :: rest) : c.isDigit = true ∧ c ≠ '0' := by
  have digit : c.isDigit = true :=
    Nat.isDigit_of_mem_toDigits (by decide) (by decide) (written ▸ List.mem_cons_self)
  refine ⟨digit, ?_⟩
  induction w using Nat.strong_induction_on generalizing rest with
  | _ w ih =>
    rw [Nat.toDigits_eq_if (by decide)] at written
    split at written
    · rename_i small
      have nonzero : ∀ d < 10, 0 < d → Nat.digitChar d ≠ '0' := by decide
      simp only [List.cons.injEq] at written
      exact written.1 ▸ nonzero w small positive
    · cases front : Nat.toDigits 10 (w / 10) with
      | nil => exact absurd front Nat.toDigits_ne_nil
      | cons a as =>
        rw [front, List.cons_append, List.cons.injEq] at written
        exact written.1 ▸ ih (w / 10) (by omega) (by omega) as (written.1 ▸ front)

/-- What follows the flags starts with no flag, and with no '%'. -/
theorem Layout.field (l : Layout) (conv : Char) :
    ∃ field : Text, l.text ++ ['l', 'l', conv] = l.flags ++ field ∧
      (∀ f, readFlags f field = (f, field)) ∧ field[0]? ≠ some '%' ∧ field[0]? ≠ some '*' ∧
      readNat 0 field = (l.width, ['l', 'l', conv]) := by
  have ends : ∀ n, readNat n ['l', 'l', conv] = (n, ['l', 'l', conv]) := fun n => by simp [readNat]
  by_cases none : l.width = 0
  · refine ⟨['l', 'l', conv], by simp [Layout.text, none], fun f => ?_, by simp, by simp, ?_⟩
    · simp [readFlags]
    · rw [ends, none]
  · have digits : ∀ c ∈ Nat.toDigits 10 l.width, c.isDigit = true :=
      fun c inside => Nat.isDigit_of_mem_toDigits (by decide) (by decide) inside
    cases written : Nat.toDigits 10 l.width with
    | nil => exact absurd written Nat.toDigits_ne_nil
    | cons c rest =>
      obtain ⟨digit, nonzero⟩ := width_leading (by omega) c rest written
      have other : ∀ a : Char, a.isDigit = false → c ≠ a := by
        rintro a plain rfl
        simp [plain] at digit
      refine ⟨c :: rest ++ ['l', 'l', conv], by simp [Layout.text, none, written], fun f => ?_,
        ?_, ?_, ?_⟩
      · simp [readFlags, nonzero, other '-' (by decide), other '+' (by decide),
          other ' ' (by decide), other '#' (by decide)]
      · simpa using other '%' (by decide)
      · simpa using other '*' (by decide)
      · rw [← written, readNat_append digits ends, Nat.ofDigitChars_ten_toDigits]

section
variable {Double : Type} (emitDouble : Sink → Spec → Double → Sink)

/-- The one directive of a layout's format, on its one argument. -/
theorem layout_formatted (l : Layout) (conv : Char) (s : Sink) (v : BitVec 64) :
    formatLoop emitDouble (l.format conv).length s (l.format conv) [.int v] =
      (convert emitDouble s l.spec .llong (l.format conv) [conv] [.int v]).bind
        fun (s, rest, args) => formatLoop emitDouble (l.text.length + 3) s rest args := by
  obtain ⟨field, written, stops, percent, star, number⟩ := l.field conv
  have flags := readFlags_append l.known stops {}
  have first : ∀ at', l.text ++ ['l', 'l', conv] ≠ '%' :: at' := by
    intro at' same
    rw [written] at same
    cases known : l.flags with
    | nil => simp [known] at same; simp [same] at percent
    | cons c rest =>
      have flag := l.known c (by simp [known])
      simp only [known, List.cons_append, List.cons.injEq] at same
      rw [same.1] at flag
      exact absurd flag (by decide)
  have width (f : Spec) : readWidth f field [(.int v : Arg Double)] =
      some ({ f with width := l.width }, ['l', 'l', conv], [.int v]) := by
    unfold readWidth
    split
    · simp at star
    · simp [number]
  have length : (l.format conv).length = (l.text.length + 3) + 1 := by simp [Layout.format]
  rw [length, Layout.format, formatLoop]
  · rw [written, flags]
    simp only [width, readPrecision, readLength, Option.bind_eq_bind, Option.bind_some]
    rfl
  · exact fun at' same => first at' same

/-! ## What is printed -/

def conversions : List Char := ['d', 'i', 'u', 'o', 'x', 'X']

def convBase (conv : Char) : Nat := if conv = 'o' then 8 else if conv = 'x' ∨ conv = 'X' then 16 else 10

/-- The number that a conversion takes the bits of its argument for. -/
def convValue (conv : Char) (v : BitVec 64) : Int :=
  if conv = 'd' ∨ conv = 'i' then v.toInt else v.toNat

/-- Whether '#' writes a prefix, of any value but zero. -/
def Layout.prefixes (l : Layout) (conv : Char) : Bool := convBase conv = 16 ∧ '#' ∈ l.flags

/-- Which sign and prefix are written in front of a number. -/
structure Fronted (l : Layout) (conv : Char) (n : Int) (sign lead : Text) : Prop where
  signs : if n < 0 then sign = ['-'] else sign ∈ [[], ['+'], [' ']]
  leads : if l.prefixes conv ∧ n ≠ 0 then lead = ['0', 'x'] ∨ lead = ['0', 'X'] else lead = []

theorem Fronted.length {l : Layout} {conv : Char} {n : Int} {sign lead : Text}
    (fronted : Fronted l conv n sign lead) : sign.length + lead.length ≤ 3 := by
  have sign_length : sign.length ≤ 1 := by
    have signs := fronted.signs
    split at signs
    · simp [signs]
    · simp only [List.mem_cons, List.not_mem_nil, or_false] at signs
      rcases signs with rfl | rfl | rfl <;> simp
  have lead_length : lead.length ≤ 2 := by
    have leads := fronted.leads
    split at leads
    · rcases leads with rfl | rfl <;> simp
    · simp [leads]
  omega

theorem signed_fronted (l : Layout) {conv : Char} (decimal : convBase conv = 10) (s : Sink)
    (n : Int) :
    ∃ sign lead upper, emitSigned s l.spec n =
        emitNumber s l.spec (digitsOf n.natAbs (convBase conv) upper) sign lead ∧
      Fronted l conv n sign lead := by
  refine ⟨_, _, _, by rw [decimal]; rfl, ?_, ?_⟩
  · split_ifs <;> simp
  · simp [Layout.prefixes, decimal]

theorem unsigned_fronted (l : Layout) (conv : Char) (s : Sink) (n : Nat) :
    ∃ sign lead upper, emitUnsigned s l.spec conv n =
        emitNumber s l.spec (digitsOf (n : Int).natAbs (convBase conv) upper) sign lead ∧
      Fronted l conv n sign lead := by
  refine ⟨_, _, _, rfl, ?_, ?_⟩
  · have positive : ¬ (n : Int) < 0 := by omega
    simp [positive]
  · have base : (if conv = 'o' then 8 else if conv = 'x' ∨ conv = 'X' then 16 else 10) =
        convBase conv := rfl
    simp only [base, Layout.spec, Layout.prefixes, decide_eq_true_eq, and_assoc, ne_eq,
      Int.natCast_eq_zero]
    split_ifs <;> simp

theorem converted (l : Layout) {conv : Char} (known : conv ∈ conversions) (s : Sink)
    (v : BitVec 64) (start : Text) :
    ∃ sign lead upper, convert emitDouble s l.spec .llong start [conv] [.int v] =
        some (emitNumber s l.spec (digitsOf (convValue conv v).natAbs (convBase conv) upper)
          sign lead, [], []) ∧
      Fronted l conv (convValue conv v) sign lead := by
  simp only [conversions, List.mem_cons, List.not_mem_nil, or_false] at known
  by_cases signed : conv = 'd' ∨ conv = 'i'
  · have decimal : convBase conv = 10 := by rcases signed with rfl | rfl <;> rfl
    obtain ⟨sign, lead, upper, emitted, fronted⟩ := signed_fronted l decimal s v.toInt
    have converts : convert emitDouble s l.spec .llong start [conv] [.int v] =
        some (emitSigned s l.spec v.toInt, [], []) := by rcases signed with rfl | rfl <;> rfl
    rw [converts, emitted, convValue, if_pos signed]
    exact ⟨sign, lead, upper, rfl, fronted⟩
  · obtain ⟨sign, lead, upper, emitted, fronted⟩ := unsigned_fronted l conv s v.toNat
    have converts : convert emitDouble s l.spec .llong start [conv] [.int v] =
        some (emitUnsigned s l.spec conv v.toNat, [], []) := by
      rcases known with rfl | rfl | rfl | rfl | rfl | rfl <;> first | rfl | simp at signed
    rw [converts, emitted, convValue, if_neg signed]
    exact ⟨sign, lead, upper, rfl, fronted⟩

/-- A number `n` in its field: space, a sign, a prefix and digits. -/
structure Shown (l : Layout) (conv : Char) (n : Int) (pad sign lead cs : Text) : Prop where
  padding : ∀ c ∈ pad, isSpace c = true
  signs : if n < 0 then sign = ['-'] else sign = [] ∨ sign = ['+']
  leads : if l.prefixes conv ∧ n ≠ 0 then lead = ['0', 'x'] ∨ lead = ['0', 'X'] else lead = []
  spells : Spells (convBase conv) cs n.natAbs
  zero : n = 0 → ∃ k, cs = List.replicate (k + 1) '0'
  leading : '0' ∉ l.flags → n ≠ 0 → cs[0]? ≠ some '0'
  short : ('0' ∈ l.flags → l.width < numberMax) → (sign ++ lead ++ cs).length < numberMax

theorem convBase_between (conv : Char) : 8 ≤ convBase conv ∧ convBase conv ≤ 16 := by
  unfold convBase
  split_ifs <;> decide

theorem convValue_natAbs (conv : Char) (v : BitVec 64) : (convValue conv v).natAbs < 2 ^ 64 := by
  have below := v.isLt
  have signed := BitVec.toInt_lt (x := v)
  have signed' := BitVec.le_toInt v
  unfold convValue
  split <;> omega

theorem fronted_shown {l : Layout} {conv : Char} {n : Int} {sign lead : Text}
    (fronted : Fronted l conv n sign lead) (upper : Bool) (range : n.natAbs < 2 ^ 64)
    {pad zeros : Nat} (unpadded : '0' ∉ l.flags → zeros = 0)
    (total : pad + (sign.length + lead.length +
        (zeros + (digitsOf n.natAbs (convBase conv) upper).length)) =
      max l.width (sign.length + lead.length + (digitsOf n.natAbs (convBase conv) upper).length)) :
    ∃ space sign' cs, List.replicate pad ' ' ++ (sign ++ lead ++ (List.replicate zeros '0' ++
        (digitsOf n.natAbs (convBase conv) upper).reverse)) = space ++ (sign' ++ lead ++ cs) ∧
      Shown l conv n space sign' lead cs := by
  obtain ⟨big, small⟩ := convBase_between conv
  have digits := digitsOf_length (convBase conv) upper n.natAbs
  have front := fronted.length
  have spells := (digitsOf_spells upper big small range).zeros (by omega) zeros
  have zero : n = 0 → ∃ k, List.replicate zeros '0' ++
      (digitsOf n.natAbs (convBase conv) upper).reverse = List.replicate (k + 1) '0' := by
    rintro rfl
    exact ⟨zeros, by simp [digitsOf, List.replicate_succ']⟩
  have leading : '0' ∉ l.flags → n ≠ 0 → (List.replicate zeros '0' ++
      (digitsOf n.natAbs (convBase conv) upper).reverse)[0]? ≠ some '0' := by
    intro plain nonzero
    simpa [unpadded plain] using digitsOf_leading upper big small range (by omega)
  have short : ('0' ∈ l.flags → l.width < numberMax) →
      sign.length + lead.length + (zeros + (digitsOf n.natAbs (convBase conv) upper).length) <
        numberMax := by
    intro narrow
    simp only [numberMax, digitsMax] at *
    by_cases filled : '0' ∈ l.flags
    · have := narrow filled
      omega
    · have := unpadded filled
      omega
  by_cases space : sign = [' ']
  · have nonneg : ¬ n < 0 := by
      intro negative
      have signs := fronted.signs
      simp [negative, space] at signs
    refine ⟨List.replicate pad ' ' ++ [' '], [], List.replicate zeros '0' ++
      (digitsOf n.natAbs (convBase conv) upper).reverse, by simp [space], ?_, by simp [nonneg],
      fronted.leads, spells, zero, leading, fun narrow => ?_⟩
    · intro c inside
      rcases List.mem_append.mp inside with blank | blank
      · obtain rfl := (List.mem_replicate.mp blank).2
        decide
      · obtain rfl := List.mem_singleton.mp blank
        decide
    · have := short narrow
      simp only [space, List.length_append, List.length_replicate, List.length_reverse,
        List.length_nil, List.length_cons] at this ⊢
      omega
  · refine ⟨List.replicate pad ' ', sign, _, rfl, ?_, ?_, fronted.leads, spells, zero, leading,
      fun narrow => ?_⟩
    · intro c inside
      obtain rfl := (List.mem_replicate.mp inside).2
      decide
    · have signs := fronted.signs
      split at signs
      · rename_i negative
        simp [negative, signs]
      · rename_i nonneg
        simpa [nonneg, space] using signs
    · have := short narrow
      simp only [List.length_append, List.length_replicate, List.length_reverse] at this ⊢
      omega

theorem formatLoop_end (turns : Nat) (s : Sink) (args : List (Arg Double)) :
    formatLoop emitDouble turns s [] args = some s := by
  cases turns <;> rfl

theorem Layout.body_fits (l : Layout) {conv : Char} {n : Int} {sign lead : Text}
    (fronted : Fronted l conv n sign lead) {k : Nat} (digits : k ≤ digitsMax) :
    max l.width (sign.length + lead.length + k) < 2 ^ 31 := by
  have width := l.width_int
  have front := fronted.length
  simp only [digitsMax] at digits
  omega

theorem printed (l : Layout) {conv : Char} (known : conv ∈ conversions) (v : BitVec 64)
    (room : Nat) :
    ∃ out pad sign lead cs, vsnprintf emitDouble room (l.format conv) [.int v] = some out ∧
      Shown l conv (convValue conv v) pad sign lead cs ∧
      out.returned = (pad ++ (sign ++ lead ++ cs)).length ∧ out.returned < 2 ^ 31 ∧
      (out.returned < room → out.text = pad ++ (sign ++ lead ++ cs)) := by
  obtain ⟨sign, lead, upper, converts, fronted⟩ :=
    converted emitDouble l known ⟨room, [], 0⟩ v (l.format conv)
  obtain ⟨pad, zeros, emitted, unpadded, total⟩ := emitNumber_text ⟨room, [], 0⟩
    (f := l.spec) (digitsOf (convValue conv v).natAbs (convBase conv) upper) sign lead rfl rfl
  have range := convValue_natAbs conv v
  rw [show l.spec.width = l.width from rfl] at total
  obtain ⟨space, sign', cs, same, shown⟩ := fronted_shown fronted upper range
    (fun plain => unpadded (by simp [Layout.spec, plain])) total
  have fits := l.body_fits fronted (digitsOf_length (convBase conv) upper (convValue conv v).natAbs)
  rw [same] at emitted
  generalize number : space ++ (sign' ++ lead ++ cs) = whole at *
  have length : whole.length < 2 ^ 31 := by
    rw [← same]
    simp only [List.length_append, List.length_replicate, List.length_reverse]
    omega
  have int : (whole.length : Int) < 2 ^ 31 := by omega
  have wanted := putBytes_wanted ⟨room, [], 0⟩ whole
  have small : ((0 + whole.length : Nat) : Int).bmod (2 ^ 32) = whole.length := by
    rw [Int.bmod_eq_of_le] <;> omega
  refine ⟨⟨(Sink.putBytes ⟨room, [], 0⟩ whole).out, whole.length⟩, space, sign', lead, cs, ?_,
    shown, by rw [number], int, ?_⟩
  · simp only [vsnprintf, layout_formatted, converts, emitted, Option.bind_some, formatLoop_end,
      Option.map_some, wanted, small]
  · intro room_left
    have left : whole.length < room := by simpa using room_left
    rw [putBytes_fits (by simpa using left), number]
    rfl

end

/-! ## What is read -/

/-- The base `vsscanf` reads a conversion in. -/
def scanBase (conv : Char) : Nat := if conv = 'i' then 0 else convBase conv

section
variable {Double : Type} (strtod : Text → Double × Text)

def scanFormat (conv : Char) : Text := ['%', 'l', 'l', conv, '%', 'n']

/-- The conversion, then `%n`. -/
theorem scanned {text : Text} {conv : Char} (known : conv ∈ conversions)
    {s : Scan Double}
    (converted : scanNumber ⟨text, text, [], 0, false⟩ false 0 .llong (conv = 'd' ∨ conv = 'i')
      (scanBase conv) = .ok s) :
    scanLoop strtod (scanFormat conv).length ⟨text, text, [], 0, false⟩ (scanFormat conv) =
      scanCount s false .int := by
  have number : scanConvert strtod ⟨text, text, [], 0, false⟩ false 0 .llong conv = .ok s := by
    have integer : conv ∈ ['d', 'i', 'u', 'o', 'x', 'X'] := known
    rw [← converted, scanConvert, if_pos integer]
    rfl
  have percent : conv ≠ '%' := by
    rintro rfl
    exact absurd known (by decide)
  simp only [scanFormat, List.length_cons, List.length_nil]
  rw [scanLoop]
  · simp [readNat, scanLength, number]
    rw [scanLoop]
    · simp [readNat, scanLength, scanConvert, scanLoop]
    · simp
  · simp

theorem scanNumber_whole (isSigned : Bool) {pad number : Text} {base : Nat}
    (padding : ∀ c ∈ pad, isSpace c = true) (front : number.dropWhile isSpace = number)
    (nonempty : number ≠ []) (gathered : gatherNumber number numberMax 0 base true = number)
    (read : (if isSigned then (strtol number base).2 else (strtoull number base).2) = []) :
    scanNumber (⟨pad ++ number, pad ++ number, [], 0, false⟩ : Scan Double) false 0 .llong
        isSigned base =
      .ok ⟨pad ++ number, [], [if isSigned then storeSigned .llong (strtol number base).1
        else storeUnsigned .llong (strtoull number base).1], 1, false⟩ := by
  have skipped : (pad ++ number).dropWhile isSpace = number := by
    rw [List.dropWhile_append_of_pos padding, front]
  have moved : ([] : Text) ≠ number := Ne.symm nonempty
  cases isSigned with
  | true =>
    simp only [↓reduceIte] at read
    simp only [scanNumber, Scan.skipSpace, skipped, nonempty, gathered, ↓reduceIte, read, moved,
      List.length_nil, Nat.sub_zero, List.drop_length, Scan.store, Bool.false_eq_true,
      List.nil_append, Nat.zero_add]
  | false =>
    simp only [Bool.false_eq_true, ↓reduceIte] at read
    simp only [scanNumber, Scan.skipSpace, skipped, nonempty, gathered, ↓reduceIte, read, moved,
      List.length_nil, Nat.sub_zero, List.drop_length, Scan.store, Bool.false_eq_true,
      List.nil_append, Nat.zero_add]

theorem storeSigned_llong {v : Int} (low : -2 ^ 63 ≤ v) (high : v < 2 ^ 63) :
    storeSigned .llong v = (.int v : Stored Double) := by
  simp only [storeSigned, Length.signed, BitVec.toInt_ofInt]
  rw [Int.bmod_eq_of_le] <;> omega

theorem storeSigned_int {v : Int} (low : 0 ≤ v) (high : v < 2 ^ 31) :
    storeSigned .int v = (.int v : Stored Double) := by
  have small : (BitVec.ofInt 64 v).toNat = v.toNat := by
    rw [BitVec.toNat_ofInt]
    omega
  have half : ((BitVec.ofInt 64 v).setWidth 32).toNat = v.toNat := by
    rw [BitVec.toNat_setWidth, small]
    omega
  simp only [storeSigned, Length.signed]
  rw [BitVec.toInt_eq_toNat_of_lt (by omega), half, Int.toNat_of_nonneg low]

theorem storeUnsigned_llong {v : Nat} (range : v < 2 ^ 64) :
    storeUnsigned .llong v = (.int v : Stored Double) := by
  simp only [storeUnsigned, Length.unsigned, BitVec.toNat_ofNat, Nat.mod_eq_of_lt range]

end

/-! ## The base a number is read in -/

/-- The base it was printed in, or 0 where a prefix says so or where it is decimal and does not
start with a zero of the padding. -/
def Layout.readsIn (l : Layout) (conv : Char) (base : Nat) : Prop :=
  base = convBase conv ∨ base = 0 ∧ (l.prefixes conv ∨ convBase conv = 10 ∧ '0' ∉ l.flags)

theorem digitIn_mono {b b' : Nat} (le : b ≤ b') {c : Char} (digit : (digitIn b c).isSome) :
    (digitIn b' c).isSome := by
  unfold digitIn at digit ⊢
  cases value : digitValue c with
  | none => simp [value] at digit
  | some d =>
    have below : d < b := by simpa [value] using digit
    simpa using Nat.lt_of_lt_of_le below le

/-- Digits alone carry no hexadecimal prefix. -/
theorem not_prefixed {b : Nat} (small : b ≤ 16) {cs : Text}
    (digits : ∀ c ∈ cs, (digitIn b c).isSome) : prefixed cs 'x' 'X' 16 = false := by
  have letter : ∀ x ∈ ['x', 'X'], cs[1]? ≠ some x := by
    intro x known at_one
    have digit := digitIn_mono small (digits x (List.mem_of_getElem? at_one))
    simp only [List.mem_cons, List.not_mem_nil, or_false] at known
    rcases known with rfl | rfl <;> exact absurd digit (by decide)
  have lower := letter 'x' (by decide)
  have upper := letter 'X' (by decide)
  simp [prefixed, lower, upper]

theorem prefixed_hex {lead cs : Text} (leads : lead = ['0', 'x'] ∨ lead = ['0', 'X'])
    (nonempty : cs ≠ []) (digits : ∀ c ∈ cs, (digitIn 16 c).isSome) :
    prefixed (lead ++ cs) 'x' 'X' 16 = true := by
  cases cs with
  | nil => exact absurd rfl nonempty
  | cons c cs =>
    have digit := digits c List.mem_cons_self
    rcases leads with rfl | rfl <;> simpa [prefixed] using digit

theorem prefixOf_zeros (k : Nat) : prefixOf 0 (List.replicate (k + 1) '0') = (8, 0) := by
  have no_x : prefixed (List.replicate (k + 1) '0') 'x' 'X' 16 = false :=
    not_prefixed (b := 8) (by decide) fun c inside => by
      rw [(List.mem_replicate.mp inside).2]
      decide
  have no_b : prefixed (List.replicate (k + 1) '0') 'b' 'B' 2 = false := by
    cases k <;> simp [prefixed, List.replicate_succ]
  have zero : (List.replicate (k + 1) '0')[0]? = some '0' := by simp
  simp only [prefixOf, no_x, no_b, zero, Bool.false_eq_true, and_false, and_self, ↓reduceIte]

theorem prefixOf_decimal {cs : Text} (nonzero : cs[0]? ≠ some '0') : prefixOf 0 cs = (10, 0) := by
  simp [prefixOf, prefixed, nonzero]

theorem prefixOf_plain {b : Nat} (big : 8 ≤ b) (small : b ≤ 16) {cs : Text}
    (digits : ∀ c ∈ cs, (digitIn b c).isSome) : prefixOf b cs = (b, 0) := by
  simp [prefixOf, not_prefixed small digits, show b ≠ 0 by omega, show b ≠ 2 by omega]

theorem Shown.based {l : Layout} {conv : Char} {n : Int} {pad sign lead cs : Text}
    (shown : Shown l conv n pad sign lead cs) {base : Nat} (reads : l.readsIn conv base) :
    ∃ b, 0 < b ∧ prefixOf base (lead ++ cs) = (b, lead.length) ∧ Spells b cs n.natAbs := by
  obtain ⟨big, small⟩ := convBase_between conv
  have leads := shown.leads
  have digits := shown.spells.digit
  split at leads
  · rename_i hex
    have sixteen : convBase conv = 16 := by
      have := hex.1
      simp only [Layout.prefixes, decide_eq_true_eq] at this
      exact this.1
    have length : lead.length = 2 := by rcases leads with rfl | rfl <;> rfl
    have prefixed := prefixed_hex leads shown.spells.nonempty (sixteen ▸ digits)
    refine ⟨16, by decide, ?_, sixteen ▸ shown.spells⟩
    have base_hex : base = 0 ∨ base = 16 := by
      rcases reads with rfl | ⟨rfl, -⟩
      · exact .inr sixteen
      · exact .inl rfl
    simp only [prefixOf, base_hex, prefixed, and_self, ↓reduceIte, length]
  · rename_i plain
    subst leads
    rcases reads with rfl | ⟨rfl, known⟩
    · exact ⟨convBase conv, by omega, prefixOf_plain big small digits, shown.spells⟩
    · by_cases zero : n = 0
      · obtain ⟨k, rfl⟩ := shown.zero zero
        refine ⟨8, by decide, prefixOf_zeros k, ?_⟩
        have one : Spells 8 ['0'] 0 := ⟨by simp, [0], by decide, by decide⟩
        have all := one.zeros (by decide) k
        rwa [zero, List.replicate_succ']
      · rcases known with hex | ⟨ten, unfilled⟩
        · exact absurd ⟨hex, zero⟩ plain
        · exact ⟨10, by decide, prefixOf_decimal (shown.leading unfilled zero), ten ▸ shown.spells⟩

/-- A printed number is one the base reads: its prefix says the base its digits are in. -/
theorem Shown.numeral {l : Layout} {conv : Char} {n : Int} {pad sign lead cs : Text}
    (shown : Shown l conv n pad sign lead cs) {base : Nat} (reads : l.readsIn conv base) :
    ∃ b, 0 < b ∧ NumeralText base b sign lead cs ∧ Spells b cs n.natAbs := by
  obtain ⟨b, positive, based, spells⟩ := shown.based reads
  refine ⟨b, positive, ⟨?_, ?_, based⟩, spells⟩
  · have signs := shown.signs
    split at signs
    · simp [signs]
    · rcases signs with rfl | rfl <;> simp
  · have leads := shown.leads
    split at leads
    · rcases leads with rfl | rfl <;> exact ⟨'0', by simp, by decide⟩
    · subst leads
      cases digits : cs with
      | nil => exact absurd digits spells.nonempty
      | cons c rest =>
        refine ⟨c, by simp, ?_⟩
        have digit := spells.digit c (by simp [digits])
        unfold digitIn at digit
        cases value : digitValue c with
        | none => simp [value] at digit
        | some d => rfl

theorem Shown.gathered {l : Layout} {conv : Char} {n : Int} {pad sign lead cs : Text}
    (shown : Shown l conv n pad sign lead cs) {base : Nat} (reads : l.readsIn conv base)
    (narrow : '0' ∈ l.flags → l.width < numberMax) :
    gatherNumber (sign ++ lead ++ cs) numberMax 0 base true = sign ++ lead ++ cs := by
  obtain ⟨b, -, numeral, -⟩ := shown.numeral reads
  have digits := shown.spells.digit
  have small := (convBase_between conv).2
  refine gatherNumber_whole numeral ?_ (fun c inside => ?_) (shown.short narrow)
  · have leads := shown.leads
    split at leads
    · rename_i hex
      have sixteen : convBase conv = 16 := by
        have := hex.1
        simp only [Layout.prefixes, decide_eq_true_eq] at this
        exact this.1
      right
      refine ⟨?_, by simpa using leads⟩
      rcases reads with rfl | ⟨rfl, -⟩
      · exact .inl sixteen
      · exact .inr rfl
    · exact .inl leads
  · rcases reads with rfl | ⟨rfl, -⟩
    · have nonzero : convBase conv ≠ 0 := by have := (convBase_between conv).1; omega
      simpa [nonzero] using digits c inside
    · exact digitIn_mono small (digits c inside)

/-! ## Printing, then reading -/

/-- Who reads a number. `vsscanf` reads it and then asks how far it got. -/
inductive Reader where
  | strtoll (base : Nat)
  | strtoull (base : Nat)
  | sscanf (conv : Char)
  deriving DecidableEq

section
variable {Double : Type}

/-- The number read, and how many characters it took. -/
def Reader.read (strtod : Text → Double × Text) (text : Text) : Reader → Option (Int × Int)
  | .strtoll base =>
    let r := ReconOS.Libc.strtoll text base
    some (r.1, text.length - r.2.length)
  | .strtoull base =>
    let r := ReconOS.Libc.strtoull text base
    some (r.1, text.length - r.2.length)
  | .sscanf conv =>
    match vsscanf strtod text (scanFormat conv) with
    | (1, [.int v, .int count]) => some (v, count)
    | _ => none

/-- A reader whose base and range are the number's. The number `vsscanf` takes has less than
`numberMax` characters, which is short of a field filled with zeros from that width on. -/
def Layout.suits (l : Layout) (conv : Char) (n : Int) : Reader → Prop
  | .strtoll base => l.readsIn conv base ∧ n < 2 ^ 63
  | .strtoull base => l.readsIn conv base ∧ 0 ≤ n
  | .sscanf c => c ∈ conversions ∧ l.readsIn conv (scanBase c) ∧
      (if c = 'd' ∨ c = 'i' then n < 2 ^ 63 else 0 ≤ n) ∧ ('0' ∈ l.flags → l.width < numberMax)

theorem convValue_low (conv : Char) (v : BitVec 64) : -2 ^ 63 ≤ convValue conv v := by
  have low := BitVec.le_toInt v
  unfold convValue
  split <;> omega

theorem Shown.minus {l : Layout} {conv : Char} {n : Int} {pad sign lead cs : Text}
    (shown : Shown l conv n pad sign lead cs) : sign = ['-'] ↔ n < 0 := by
  have signs := shown.signs
  split at signs
  · rename_i negative
    simp [signs, negative]
  · rename_i nonneg
    rcases signs with rfl | rfl <;> simpa using nonneg

theorem Shown.signed {l : Layout} {conv : Char} {n : Int} {pad sign lead cs : Text}
    (shown : Shown l conv n pad sign lead cs) {base : Nat} (reads : l.readsIn conv base)
    (low : -2 ^ 63 ≤ n) (high : n < 2 ^ 63) {space : Text}
    (padding : ∀ c ∈ space, isSpace c = true) :
    strtoll (space ++ (sign ++ lead ++ cs)) base = (n, []) := by
  obtain ⟨b, positive, numeral, spells⟩ := shown.numeral reads
  rw [strtoll_numeral padding numeral positive spells]
  · simp only [shown.minus]
    split <;> congr 1 <;> omega
  · simp only [shown.minus]
    split <;> omega

theorem Shown.unsigned {l : Layout} {conv : Char} {n : Int} {pad sign lead cs : Text}
    (shown : Shown l conv n pad sign lead cs) {base : Nat} (reads : l.readsIn conv base)
    (nonneg : 0 ≤ n) (range : n.natAbs < 2 ^ 64) {space : Text}
    (padding : ∀ c ∈ space, isSpace c = true) :
    strtoull (space ++ (sign ++ lead ++ cs)) base = (n.natAbs, []) := by
  obtain ⟨b, positive, numeral, spells⟩ := shown.numeral reads
  have plain : sign ≠ ['-'] := by
    rw [Ne, shown.minus]
    omega
  exact strtoull_numeral padding numeral plain positive spells range

theorem read_counted (strtod : Text → Double × Text) {conv : Char} {text : Text} {n : Int}
    (int : (text.length : Int) < 2 ^ 31)
    (loop : scanLoop strtod (scanFormat conv).length ⟨text, text, [], 0, false⟩ (scanFormat conv) =
      scanCount ⟨text, [], [.int n], 1, false⟩ false .int) :
    (Reader.sscanf conv).read strtod text = some (n, (text.length : Int)) := by
  have count : storeSigned .int (text.length : Int) = (.int text.length : Stored Double) :=
    storeSigned_int (by omega) int
  simp [Reader.read, vsscanf, loop, scanCount, count]

/-- One conversion and the count after it, when the number offered is all of what is left. -/
theorem sscanf_reads (strtod : Text → Double × Text) {conv : Char} (known : conv ∈ conversions)
    {pad number : Text} (padding : ∀ c ∈ pad, isSpace c = true)
    (front : number.dropWhile isSpace = number) (nonempty : number ≠ [])
    (gathered : gatherNumber number numberMax 0 (scanBase conv) true = number)
    (int : ((pad ++ number).length : Int) < 2 ^ 31) {n : Int} (low : -2 ^ 63 ≤ n)
    (read : if conv = 'd' ∨ conv = 'i' then n < 2 ^ 63 ∧ strtoll number (scanBase conv) = (n, [])
      else ∃ k : Nat, n = k ∧ k < 2 ^ 64 ∧ strtoull number (scanBase conv) = (k, [])) :
    (Reader.sscanf conv).read strtod (pad ++ number) = some (n, ((pad ++ number).length : Int)) := by
  by_cases signed : conv = 'd' ∨ conv = 'i'
  · rw [if_pos signed] at read
    have value : strtol number (scanBase conv) = (n, []) := read.2
    have whole := @scanNumber_whole Double true pad number _ padding front nonempty gathered
      (by simp [value])
    have loop := scanned strtod (s := _) known (by simpa only [signed, decide_true] using whole)
    simp only [↓reduceIte, value, storeSigned_llong low read.1] at loop
    exact read_counted strtod int loop
  · rw [if_neg signed] at read
    obtain ⟨k, rfl, range, value⟩ := read
    have whole := @scanNumber_whole Double false pad number _ padding front nonempty gathered
      (by simp [value])
    have loop := scanned strtod (s := _) known (by simpa only [signed, decide_false] using whole)
    simp only [Bool.false_eq_true, ↓reduceIte, value, storeUnsigned_llong range] at loop
    exact read_counted strtod int loop

/-- A value printed fits the buffer, and comes back from every reader that suits it, with as many
characters taken as were printed. -/
theorem printed_reads_back (emitDouble : Sink → Spec → Double → Sink)
    (strtod : Text → Double × Text) (l : Layout) {conv : Char} (known : conv ∈ conversions)
    (v : BitVec 64) (room : Nat) {reader : Reader} (suits : l.suits conv (convValue conv v) reader) :
    ∃ out, vsnprintf emitDouble room (l.format conv) [.int v] = some out ∧
      (out.returned < room →
        reader.read strtod out.text = some (convValue conv v, out.returned)) := by
  obtain ⟨out, pad, sign, lead, cs, prints, shown, returned, int, text⟩ :=
    printed emitDouble l known v room
  refine ⟨out, prints, fun fits => ?_⟩
  have low := convValue_low conv v
  have range := convValue_natAbs conv v
  rw [returned] at int
  rw [text fits, returned]
  generalize number : sign ++ lead ++ cs = digits at *
  cases reader with
  | strtoll base =>
    have read := shown.signed suits.1 low suits.2 shown.padding
    rw [number] at read
    simp [Reader.read, read]
  | strtoull base =>
    have nonneg := suits.2
    have read := shown.unsigned suits.1 nonneg range shown.padding
    have natAbs : ((convValue conv v).natAbs : Int) = convValue conv v := by omega
    rw [number] at read
    simp [Reader.read, read, natAbs]
  | sscanf c =>
    obtain ⟨letter, reads, inside, narrow⟩ := suits
    have gathered := shown.gathered reads narrow
    obtain ⟨b, -, numeral, spells⟩ := shown.numeral reads
    have front := numeral.not_space
    have nonempty : sign ++ lead ++ cs ≠ [] := by simp [spells.nonempty]
    rw [number] at gathered front nonempty
    refine sscanf_reads strtod letter shown.padding front nonempty gathered int low ?_
    have blank : ∀ c ∈ ([] : Text), isSpace c = true := by simp
    split at inside
    · rename_i signed
      have read := shown.signed reads low inside blank
      rw [List.nil_append, number] at read
      exact (if_pos signed).mpr ⟨inside, read⟩
    · rename_i unsigned
      have read := shown.unsigned reads inside range blank
      rw [List.nil_append, number] at read
      exact (if_neg unsigned).mpr ⟨_, by omega, range, read⟩

end

/-- Every flag, and zeros to a width of 24. -/
def filled : Layout := ⟨['#', '+', ' ', '0'], 24, by simp, by omega⟩

theorem filled_reads_back :
    filled.suits 'x' (2 ^ 64 - 1) (.sscanf 'x') ∧
    ∃ out, vsnprintf (fun s _ (_ : Unit) => s) 64 (filled.format 'x') [.int (-1)] = some out ∧
      (out.returned < 64 → (Reader.sscanf 'x').read (fun text => ((), text)) out.text =
        some (convValue 'x' (-1), out.returned)) :=
  ⟨by simp [Layout.suits, Layout.readsIn, scanBase, conversions, filled, numberMax],
    printed_reads_back (fun s _ _ => s) (fun text => ((), text)) filled (by decide) (-1) 64
      (by simp [Layout.suits, Layout.readsIn, scanBase, conversions, filled, numberMax, convValue])⟩

/-- Base 0 takes the zeros of the padding for an octal number's, and a `long long` ends at its
limit. -/
theorem base_zero_misreads :
    vsnprintf (fun s _ (_ : Unit) => s) 64 "%020lld".toList [.int 10] =
        some ⟨"00000000000000000010".toList, 20⟩ ∧
      (Reader.sscanf 'i').read (fun text => ((), text)) "00000000000000000010".toList =
        some (8, 20) ∧
      vsnprintf (fun s _ (_ : Unit) => s) 64 "%#llx".toList [.int (-1)] =
        some ⟨"0xffffffffffffffff".toList, 18⟩ ∧
      (Reader.sscanf 'i').read (fun text => ((), text)) "0xffffffffffffffff".toList =
        some (2 ^ 63 - 1, 18) := by
  decide +kernel

end ReconOS.Libc
