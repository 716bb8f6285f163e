import ReconOS.Lib.Text
import ReconOS.Libc.Number
import ReconOS.Libc.Format

/-! Strings in fixed arrays: what a copy keeps, where a string ends, comparing without case. -/
namespace ReconOS.Libc

def nul : Char := Char.ofNat 0

/-- A string ends at its first NUL. -/
def cstring (bytes : Text) : Text := bytes.takeWhile (· ≠ nul)

/-- `snprintf(out, size, "%s", text)` and `recon_text_copy`: as much as there is room for. -/
def textCopy (size : Nat) (text : Text) : Text := text.take (size - 1)

def blank (c : Char) : Bool := c = ' ' || c = '\t'

/-- `strcasecmp` says these are the same. -/
def sameText (a b : Text) : Bool := a.map Char.toLower = b.map Char.toLower

/-- The low 32 bits, as the `int` they are read back as. -/
def toInt32 (v : Int) : Int := (v + 0x80000000) % 0x100000000 - 0x80000000

def atoi (text : Text) : Int := toInt32 (strtol text 10).1

theorem textCopy_length (size : Nat) (text : Text) (room : 0 < size) :
    (textCopy size text).length < size := by
  rw [textCopy, List.length_take]
  omega

theorem textCopy_fits {size : Nat} {text : Text} (fits : text.length < size) :
    textCopy size text = text := List.take_of_length_le (by omega)

theorem nul_not_mem_cstring (bytes : Text) : nul ∉ cstring bytes := by
  intro inside
  have kept := List.mem_takeWhile_imp inside
  simp at kept

theorem cstring_of_nul_not_mem {text : Text} (whole : nul ∉ text) : cstring text = text :=
  List.takeWhile_eq_self_iff.mpr fun c inside => by
    have differ : c ≠ nul := fun same => whole (same ▸ inside)
    simpa using differ

theorem sameText_refl (a : Text) : sameText a a = true := by simp [sameText]

/-! Whole numbers in files: `%d`, and `atoi` of it. -/

/-- `%d`. -/
def printInt (v : Int) : Text :=
  if v < 0 then '-' :: (digitsOf (-v).toNat 10 false).reverse
  else (digitsOf v.toNat 10 false).reverse

/-- What an `int` holds. -/
def IsInt (v : Int) : Prop := -0x80000000 ≤ v ∧ v < 0x80000000

instance (v : Int) : Decidable (IsInt v) := inferInstanceAs (Decidable (_ ∧ _))

theorem toInt32_isInt (v : Int) : IsInt (toInt32 v) := by
  unfold toInt32 IsInt
  omega

theorem toInt32_eq {v : Int} (is : IsInt v) : toInt32 v = v := by
  unfold toInt32
  unfold IsInt at is
  omega

theorem atoi_isInt (text : Text) : IsInt (atoi text) := toInt32_isInt _

theorem decimal_numeral {n : Nat} (range : n < 2 ^ 64) (sign : Text)
    (signs : sign ∈ [[], ['+'], ['-']]) :
    NumeralText 10 10 sign [] (digitsOf n 10 false).reverse := by
  have spells : Spells 10 (digitsOf n 10 false).reverse n :=
    digitsOf_spells false (by omega) (by omega) range
  refine ⟨signs, ?_, ?_⟩
  · obtain ⟨c, rest, is⟩ := List.exists_cons_of_ne_nil spells.nonempty
    refine ⟨c, by simp [is], ?_⟩
    have digit := spells.digit c (by simp [is])
    unfold digitIn at digit
    exact Option.isSome_of_isSome_filter _ _ digit
  · simp [prefixOf]

/-- **A printed `int` reads back.** -/
theorem atoi_printInt {v : Int} (is : IsInt v) : atoi (printInt v) = v := by
  have is' := is
  unfold IsInt at is'
  unfold printInt
  split
  case isTrue negative =>
    have range : (-v).toNat < 2 ^ 64 := by omega
    have read := strtoll_numeral (by simp : ∀ c ∈ [], isSpace c)
      (decimal_numeral range ['-'] (by simp)) (by omega)
      (digitsOf_spells false (by decide : 8 ≤ 10) (by decide) range)
      (by rw [if_pos rfl]; omega)
    have value : (strtol ('-' :: (digitsOf (-v).toNat 10 false).reverse) 10).1 = v := by
      have := congrArg Prod.fst read
      simp only [strtoll, List.nil_append, List.append_nil, List.cons_append, if_true] at this
      rw [this]
      omega
    rw [atoi, value, toInt32_eq is]
  case isFalse positive =>
    have range : v.toNat < 2 ^ 64 := by omega
    have read := strtoll_numeral (by simp : ∀ c ∈ [], isSpace c)
      (decimal_numeral range [] (by simp)) (by omega)
      (digitsOf_spells false (by decide : 8 ≤ 10) (by decide) range)
      (by rw [if_neg (by decide)]; omega)
    have value : (strtol (digitsOf v.toNat 10 false).reverse 10).1 = v := by
      have := congrArg Prod.fst read
      simp only [strtoll, List.nil_append] at this
      rw [this, if_neg (by decide)]
      omega
    rw [atoi, value, toInt32_eq is]

/-! ## What it is written with -/

theorem digitsOf_chars {n : Nat} (range : n < 2 ^ 64) :
    ∀ c ∈ (digitsOf n 10 false).reverse, (digitValue c).isSome := by
  intro c inside
  have spells : Spells 10 (digitsOf n 10 false).reverse n :=
    digitsOf_spells false (by omega) (by omega) range
  exact Option.isSome_of_isSome_filter _ _ (spells.digit c inside)

theorem printInt_chars {v : Int} (is : IsInt v) :
    ∀ c ∈ printInt v, c = '-' ∧ v < 0 ∨ (digitValue c).isSome := by
  have is' := is
  unfold IsInt at is'
  unfold printInt
  split
  case isTrue negative =>
    intro c inside
    cases List.mem_cons.mp inside with
    | inl minus => exact .inl ⟨minus, negative⟩
    | inr digit => exact .inr (digitsOf_chars (by omega) c digit)
  case isFalse => exact fun c inside => .inr (digitsOf_chars (by omega) c inside)

theorem digitsOf_short {n k : Nat} (positive : 0 < k) (small : n < 10 ^ k)
    (fits : n < 10 ^ digitsMax) : (digitsOf n 10 false).length ≤ k := by
  unfold digitsOf
  split
  · exact positive
  · rw [digitsLoop_eq (by omega) false fits, List.length_map]
    exact (Nat.digits_length_le_iff (by omega) n).mpr small

theorem printInt_length {v : Int} (is : IsInt v) : (printInt v).length ≤ 11 := by
  unfold IsInt at is
  unfold printInt
  split
  · have short := digitsOf_short (n := (-v).toNat) (k := 10) (by omega) (by omega)
      (by rw [digitsMax]; omega)
    rw [List.length_cons, List.length_reverse]
    omega
  · have short := digitsOf_short (n := v.toNat) (k := 10) (by omega) (by omega)
      (by rw [digitsMax]; omega)
    simp only [List.length_reverse]
    omega

end ReconOS.Libc
