import Mathlib.Data.Nat.Digits.Defs

/-! Numbers as lists of digits, the most significant first, and the value they stand for. -/
namespace ReconOS.Numeral

/-- The value of `ds`, read after a number `start`. -/
def value (base start : Nat) (ds : List Nat) : Nat :=
  ds.foldl (fun n d => n * base + d) start

@[simp] theorem value_nil (base start : Nat) : value base start [] = start := rfl

@[simp] theorem value_cons (base start d : Nat) (ds : List Nat) :
    value base start (d :: ds) = value base (start * base + d) ds := rfl

theorem value_append (base start : Nat) (as bs : List Nat) :
    value base start (as ++ bs) = value base (value base start as) bs :=
  List.foldl_append

theorem value_zeros (base k : Nat) : value base 0 (List.replicate k 0) = 0 := by
  induction k with
  | zero => rfl
  | succ k ih => simpa [List.replicate_succ] using ih

theorem start_le_value {base : Nat} (positive : 0 < base) (start : Nat) (ds : List Nat) :
    start ≤ value base start ds := by
  induction ds generalizing start with
  | nil => exact Nat.le_refl _
  | cons d ds ih =>
    have grown : start ≤ start * base := Nat.le_mul_of_pos_right start positive
    have rest := ih (start * base + d)
    rw [value_cons]
    omega

/-- Mathlib writes the least significant digit first. -/
theorem value_digits (base n : Nat) : value base 0 (Nat.digits base n).reverse = n := by
  have folded : ∀ ds : List Nat, value base 0 ds.reverse = Nat.ofDigits base ds := by
    intro ds
    induction ds with
    | nil => rfl
    | cons d ds ih =>
      rw [List.reverse_cons, value_append, ih, Nat.ofDigits_cons]
      simp only [value_cons, value_nil]
      rw [Nat.mul_comm, Nat.add_comm]
  rw [folded, Nat.ofDigits_digits]

/-! ## Under a limit

Each digit is taken only where the number stays within `limit`, tested before the arithmetic. Once
it would not, the flag is set and the digit is passed over. -/

def take (limit base : Nat) (r : Nat × Bool) (d : Nat) : Nat × Bool :=
  if (limit - d) / base < r.1 then (r.1, true) else (r.1 * base + d, r.2)

def checked (limit base start : Nat) (ds : List Nat) : Nat × Bool :=
  ds.foldl (take limit base) (start, false)

theorem within_iff {limit base d : Nat} (n : Nat) (positive : 0 < base) (small : d ≤ limit) :
    n ≤ (limit - d) / base ↔ n * base + d ≤ limit := by
  rw [Nat.le_div_iff_mul_le positive]
  omega

theorem checked_exact {limit base start : Nat} {ds : List Nat} (positive : 0 < base)
    (fits : value base start ds ≤ limit) :
    checked limit base start ds = (value base start ds, false) := by
  induction ds generalizing start with
  | nil => rfl
  | cons d ds ih =>
    rw [value_cons] at fits ⊢
    have here : start * base + d ≤ limit :=
      Nat.le_trans (start_le_value positive _ ds) fits
    have within := (within_iff start positive (by omega)).mpr here
    have taken : take limit base (start, false) d = (start * base + d, false) := by
      simp only [take, Nat.not_lt.mpr within, ↓reduceIte]
    rw [← ih fits]
    simp only [checked, List.foldl_cons, taken]

theorem take_flagged (limit base : Nat) (n : Nat) (ds : List Nat) :
    (ds.foldl (take limit base) (n, true)).2 = true := by
  induction ds generalizing n with
  | nil => rfl
  | cons d ds ih =>
    rw [List.foldl_cons]
    unfold take
    split
    · exact ih n
    · exact ih (n * base + d)

/-- A number past the limit sets the flag. -/
theorem checked_past {limit base start : Nat} {ds : List Nat} (positive : 0 < base)
    (small : ∀ d ∈ ds, d ≤ limit) (begins : start ≤ limit) (past : limit < value base start ds) :
    (checked limit base start ds).2 = true := by
  induction ds generalizing start with
  | nil => exact absurd begins (Nat.not_le.mpr past)
  | cons d ds ih =>
    have within := within_iff start positive (small d List.mem_cons_self)
    have step : checked limit base start (d :: ds) =
        ds.foldl (take limit base) (take limit base (start, false) d) := rfl
    rw [step, take]
    split
    case isTrue => exact take_flagged limit base start ds
    case isFalse fits =>
      have next := within.mp (Nat.le_of_not_lt fits)
      exact ih (fun d mem => small d (List.mem_cons_of_mem _ mem)) next past

end ReconOS.Numeral
