import Mathlib.Init

/-! Two machines that take the same calls: when one answers as the other. -/
namespace ReconOS.Lib

structure Machine (σ C R : Type) where
  step : σ → C → σ × R

namespace Machine

variable {σ ρ C R : Type}

/-- The answers to a list of calls. -/
def answers (A : Machine σ C R) (s : σ) : List C → List R
  | [] => []
  | c :: rest => (A.step s c).2 :: answers A (A.step s c).1 rest

/-- What a list of calls leaves. -/
def run (A : Machine σ C R) (s : σ) : List C → σ
  | [] => s
  | c :: rest => run A (A.step s c).1 rest

/-- Every call is one that `ok` allows in the state it is made in. -/
def Meets (A : Machine σ C R) (ok : σ → C → Prop) (s : σ) : List C → Prop
  | [] => True
  | c :: rest => ok s c ∧ Meets A ok (A.step s c).1 rest

instance decidableMeets (A : Machine σ C R) (ok : σ → C → Prop) [∀ s c, Decidable (ok s c)] :
    (s : σ) → (calls : List C) → Decidable (A.Meets ok s calls)
  | _, [] => inferInstanceAs (Decidable True)
  | s, c :: rest =>
    have := decidableMeets A ok (A.step s c).1 rest
    inferInstanceAs (Decidable (ok s c ∧ A.Meets ok (A.step s c).1 rest))

/-- `A` answers an allowed call as `B` does, and they stay related. -/
def Refines (A : Machine σ C R) (B : Machine ρ C R) (ok : σ → C → Prop) (rep : σ → ρ → Prop) :
    Prop :=
  ∀ s r c, rep s r → ok s c → (A.step s c).2 = (B.step r c).2 ∧ rep (A.step s c).1 (B.step r c).1

theorem Refines.answers {A : Machine σ C R} {B : Machine ρ C R} {ok : σ → C → Prop}
    {rep : σ → ρ → Prop} (h : Refines A B ok rep) {s : σ} {r : ρ} (start : rep s r)
    {calls : List C} (meets : A.Meets ok s calls) : A.answers s calls = B.answers r calls := by
  induction calls generalizing s r with
  | nil => rfl
  | cons c rest ih =>
    obtain ⟨same, related⟩ := h s r c start meets.1
    rw [Machine.answers, Machine.answers, same, ih related meets.2]

/-- And they are related at the end. -/
theorem Refines.run {A : Machine σ C R} {B : Machine ρ C R} {ok : σ → C → Prop}
    {rep : σ → ρ → Prop} (h : Refines A B ok rep) {s : σ} {r : ρ} (start : rep s r)
    {calls : List C} (meets : A.Meets ok s calls) : rep (A.run s calls) (B.run r calls) := by
  induction calls generalizing s r with
  | nil => exact start
  | cons c rest ih => exact ih (h s r c start meets.1).2 meets.2

/-- Any call may be made. -/
theorem meets_any (A : Machine σ C R) (s : σ) (calls : List C) :
    A.Meets (fun _ _ => True) s calls := by
  induction calls generalizing s with
  | nil => trivial
  | cons c rest ih => exact ⟨trivial, ih _⟩

end Machine

end ReconOS.Lib
