import Mathlib.Data.List.Basic

/-! A reader that is fed its input in pieces, until it is done: when the pieces can make no
difference, and which of them it takes where they can. -/
namespace ReconOS.Lib

variable {σ α : Type} (feed : σ → List α → σ) (done : σ → Bool)

/-- Where the input is cut makes no difference to what has been read. -/
structure Seamless : Prop where
  nil : ∀ s, feed s [] = s
  append : ∀ s a b, feed s (a ++ b) = feed (feed s a) b

/-- Piece after piece, until it is done. -/
def feedUntil (s : σ) : List (List α) → σ
  | [] => s
  | piece :: rest => if done (feed s piece) then feed s piece else feedUntil (feed s piece) rest

variable {feed done}

/-- A reader that stays as it is once it is done reads the same however its input is cut. -/
theorem Seamless.feedUntil_eq (seamless : Seamless feed)
    (stays : ∀ s a, done s = true → feed s a = s) (s : σ) (pieces : List (List α)) :
    feedUntil feed done s pieces = feed s pieces.flatten := by
  induction pieces generalizing s with
  | nil => exact (seamless.nil s).symm
  | cons piece rest ih =>
    rw [List.flatten_cons, seamless.append, feedUntil]
    split
    case isTrue finished => exact (stays _ _ finished).symm
    case isFalse => exact ih _

/-- Some of the pieces, from the front, with which it is done and before which it is not. -/
structure Takes (feed : σ → List α → σ) (done : σ → Bool) (s : σ)
    (taken left : List (List α)) : Prop where
  some : taken ++ left ≠ [] → taken ≠ []
  all : done (feed s taken.flatten) = false → left = []
  first : ∀ front back, taken = front ++ back → front ≠ [] → back ≠ [] →
    done (feed s front.flatten) = false

theorem Seamless.feedUntil_takes (seamless : Seamless feed) (done : σ → Bool) (s : σ)
    (pieces : List (List α)) :
    ∃ taken left, pieces = taken ++ left ∧
      feedUntil feed done s pieces = feed s taken.flatten ∧ Takes feed done s taken left := by
  induction pieces generalizing s with
  | nil =>
    refine ⟨[], [], rfl, (seamless.nil s).symm, fun h => absurd rfl h, fun _ => rfl, ?_⟩
    intro front back is some
    exact absurd (List.append_eq_nil_iff.mp is.symm).1 some
  | cons piece rest ih =>
    by_cases finished : done (feed s piece)
    case pos =>
      refine ⟨[piece], rest, rfl, ?_, fun _ => by simp, ?_, ?_⟩
      · simp [feedUntil, finished]
      · intro not
        simp [finished] at not
      · intro front back is some more
        cases front with
        | nil => exact absurd rfl some
        | cons p front =>
          rw [List.cons_append, List.cons.injEq] at is
          exact absurd (List.append_eq_nil_iff.mp is.2.symm).2 more
    case neg =>
      obtain ⟨taken, left, parts, result, takes⟩ := ih (feed s piece)
      refine ⟨piece :: taken, left, by rw [parts, List.cons_append], ?_, fun _ => by simp, ?_, ?_⟩
      · rw [feedUntil, if_neg finished, result, List.flatten_cons, seamless.append]
      · intro not
        rw [List.flatten_cons, seamless.append] at not
        exact takes.all not
      · intro front back is some more
        cases front with
        | nil => exact absurd rfl some
        | cons p front =>
          obtain ⟨rfl, same⟩ := List.cons.inj is
          rw [List.flatten_cons, seamless.append]
          by_cases none : front = []
          · rw [none, List.flatten_nil, seamless.nil]
            simpa using finished
          · exact takes.first front back same none more

end ReconOS.Lib
