import Mathlib.Data.List.Induction

/-! A machine that takes one move after another, and what all its states have where every move is
one that is allowed where it is made. -/
namespace ReconOS.Lib

variable {σ μ : Type} (step : σ → μ → σ)

def run (s : σ) : List μ → σ
  | [] => s
  | m :: rest => run (step s m) rest

/-- Every move is allowed in the state it is made in. -/
def Allows (ok : σ → μ → Prop) (s : σ) : List μ → Prop
  | [] => True
  | m :: rest => ok s m ∧ Allows ok (step s m) rest

instance decidableAllows (ok : σ → μ → Prop) [∀ s m, Decidable (ok s m)] :
    (s : σ) → (moves : List μ) → Decidable (Allows step ok s moves)
  | _, [] => inferInstanceAs (Decidable True)
  | s, m :: rest =>
    have := decidableAllows ok (step s m) rest
    inferInstanceAs (Decidable (ok s m ∧ Allows step ok (step s m) rest))

variable {step} {ok : σ → μ → Prop} {I : σ → Prop}

/-- What every allowed move keeps, every allowed run keeps. -/
theorem run_keeps (keeps : ∀ s m, ok s m → I s → I (step s m)) {s : σ} {moves : List μ}
    (allowed : Allows step ok s moves) (start : I s) : I (run step s moves) := by
  induction moves generalizing s with
  | nil => exact start
  | cons m rest ih => exact ih allowed.2 (keeps s m allowed.1 start)

/-- What every move keeps, every run keeps. -/
theorem run_always (keeps : ∀ s m, I s → I (step s m)) {s : σ} (moves : List μ) (start : I s) :
    I (run step s moves) := by
  induction moves generalizing s with
  | nil => exact start
  | cons m rest ih => exact ih (keeps s m start)

/-- What a move leaves exactly where it is allowed, a run leaves exactly where all of it is. -/
theorem run_iff (keeps : ∀ s m, I (step s m) ↔ I s ∧ ok s m) (s : σ) (moves : List μ) :
    I (run step s moves) ↔ I s ∧ Allows step ok s moves := by
  induction moves generalizing s with
  | nil => exact ⟨fun here => ⟨here, trivial⟩, fun both => both.1⟩
  | cons m rest ih => rw [run, ih, keeps, Allows, and_assoc]

theorem run_append (s : σ) (l l' : List μ) : run step s (l ++ l') = run step (run step s l) l' := by
  induction l generalizing s with
  | nil => rfl
  | cons m rest ih => exact ih _

theorem allows_append (s : σ) (l l' : List μ) :
    Allows step ok s (l ++ l') ↔ Allows step ok s l ∧ Allows step ok (run step s l) l' := by
  induction l generalizing s with
  | nil => exact ⟨fun later => ⟨trivial, later⟩, fun both => both.2⟩
  | cons m rest ih =>
    rw [List.cons_append, Allows, Allows, ih, and_assoc]
    rfl

/-- In every state that the moves reach, something holds of it and of the moves to come. -/
def Throughout (step : σ → μ → σ) (holds : σ → List μ → Prop) (s : σ) (moves : List μ) : Prop :=
  ∀ front back, moves = front ++ back → holds (run step s front) back

theorem throughout_nil {holds : σ → List μ → Prop} {s : σ} :
    Throughout step holds s [] ↔ holds s [] := by
  constructor
  · exact fun all => all [] [] rfl
  · intro here front back parts
    obtain ⟨rfl, rfl⟩ := List.append_eq_nil_iff.mp parts.symm
    exact here

theorem throughout_cons {holds : σ → List μ → Prop} {s : σ} {m : μ} {moves : List μ} :
    Throughout step holds s (m :: moves) ↔
      holds s (m :: moves) ∧ Throughout step holds (step s m) moves := by
  constructor
  · intro all
    refine ⟨all [] _ rfl, fun front back parts => ?_⟩
    exact all (m :: front) back (by rw [parts]; rfl)
  · rintro ⟨here, later⟩ front back parts
    cases front with
    | nil =>
      rw [List.nil_append] at parts
      exact parts ▸ here
    | cons first front =>
      rw [List.cons_append, List.cons.injEq] at parts
      obtain ⟨rfl, parts⟩ := parts
      exact later front back parts

/-- Where each move keeps something of the states exactly if it is allowed, all the states reached
have it exactly if all the moves are. -/
theorem throughout_iff {H : σ → Prop} {holds : σ → List μ → Prop}
    (keeps : ∀ s m, I s → I (step s m))
    (exact' : ∀ s m, I s → H s → (H (step s m) ↔ ok s m))
    (same : ∀ s moves, I s → (holds s moves ↔ H s)) {s : σ} (moves : List μ) (start : I s)
    (here : H s) : Throughout step holds s moves ↔ Allows step ok s moves := by
  induction moves generalizing s with
  | nil =>
    rw [throughout_nil, same s [] start]
    exact ⟨fun _ => trivial, fun _ => here⟩
  | cons m moves ih =>
    rw [throughout_cons, Allows, same s _ start, ← exact' s m start here]
    constructor
    · rintro ⟨-, later⟩
      have next := (same _ _ (keeps s m start)).mp (later [] moves rfl)
      exact ⟨next, (ih (keeps s m start) next).mp later⟩
    · rintro ⟨next, allowed⟩
      exact ⟨here, (ih (keeps s m start) next).mpr allowed⟩

end ReconOS.Lib

/-! What has happened so far, in order, each thing under a rule about what came before it. -/
namespace ReconOS.Lib

variable {α : Type}

/-- Everything in the trace is as the rule has it after what came before. -/
def Follows (rule : List α → α → Prop) (trace : List α) : Prop :=
  ∀ before x after, trace = before ++ x :: after → rule before x

variable {rule : List α → α → Prop} {trace : List α} {x : α}

theorem follows_nil : Follows rule [] := by
  intro before x after parts
  cases before with
  | nil => cases parts
  | cons => cases parts

theorem follows_concat : Follows rule (trace ++ [x]) ↔ Follows rule trace ∧ rule trace x := by
  constructor
  · intro all
    constructor
    · intro before y after parts
      refine all before y (after ++ [x]) ?_
      rw [parts, List.append_assoc, List.cons_append]
    · exact all trace x [] rfl
  · rintro ⟨all, last⟩ before y after parts
    cases after using List.reverseRecOn with
    | nil =>
      obtain ⟨rfl, same⟩ := List.append_inj' parts rfl
      cases same
      exact last
    | append_singleton after z =>
      rw [← List.cons_append, ← List.append_assoc] at parts
      obtain ⟨same, -⟩ := List.append_inj' parts rfl
      exact all before y after same

end ReconOS.Lib
