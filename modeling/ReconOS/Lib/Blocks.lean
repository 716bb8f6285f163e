import Mathlib.Data.List.Basic

/-! Lists taken in blocks of one length, and folded block by block as they come. -/
namespace ReconOS.Lib

variable {α σ : Type} (n : Nat) (f : σ → List α → σ)

/-- The first `k` blocks. -/
def blocks : Nat → List α → List (List α)
  | 0, _ => []
  | k + 1, l => l.take n :: blocks k (l.drop n)

/-- The whole blocks of a list folded from `s`, and what is left of it. -/
def absorbed (s : σ) (l : List α) : σ × List α :=
  ((blocks n (l.length / n) l).foldl f s, l.drop (n * (l.length / n)))

variable {n f} {s : σ} {l t : List α}

theorem blocks_append {k : Nat} (m : Nat) (whole : l.length = n * k) :
    blocks n (k + m) (l ++ t) = blocks n k l ++ blocks n m t := by
  induction k generalizing l with
  | zero =>
    have empty : l = [] := List.length_eq_zero_iff.mp whole
    rw [empty, Nat.zero_add]
    rfl
  | succ k ih =>
    have long : n ≤ l.length := by
      rw [whole]
      exact Nat.le_mul_of_pos_right n (Nat.succ_pos k)
    have rest : (l.drop n).length = n * k := by
      rw [List.length_drop, whole, Nat.mul_succ, Nat.add_sub_cancel]
    rw [Nat.succ_add, blocks, blocks, List.take_append_of_le_length long,
      List.drop_append_of_le_length long, ih rest, List.cons_append]

theorem blocks_one (whole : t.length = n) : blocks n 1 t = [t] := by
  rw [blocks, blocks, List.take_of_length_le (Nat.le_of_eq whole)]

/-- The whole blocks of a list are those before what is left of it. -/
theorem absorbed_split (s : σ) (l : List α) : ∃ body, l = body ++ (absorbed n f s l).2 ∧
    body.length = n * (l.length / n) ∧
    (absorbed n f s l).1 = (blocks n (l.length / n) body).foldl f s := by
  have most : n * (l.length / n) ≤ l.length := Nat.mul_div_le _ _
  have whole : (l.take (n * (l.length / n))).length = n * (l.length / n) :=
    List.length_take_of_le most
  refine ⟨l.take (n * (l.length / n)), (List.take_append_drop _ _).symm, whole, ?_⟩
  have split := blocks_append (t := l.drop (n * (l.length / n))) 0 whole
  rw [List.take_append_drop, Nat.add_zero, blocks, List.append_nil] at split
  rw [absorbed, split]

theorem absorbed_left_length (s : σ) (l : List α) :
    (absorbed n f s l).2.length = l.length % n := by
  rw [absorbed, List.length_drop]
  have := Nat.div_add_mod l.length n
  omega

theorem absorbed_nil (s : σ) : absorbed n f s [] = (s, []) := by
  rw [absorbed, List.length_nil, Nat.zero_div]
  rfl

/-- What does not fill a block is kept. -/
theorem absorbed_short (short : (absorbed n f s l).2.length + t.length < n) :
    absorbed n f s (l ++ t) = ((absorbed n f s l).1, (absorbed n f s l).2 ++ t) := by
  obtain ⟨body, split, whole, folded⟩ := absorbed_split (n := n) (f := f) s l
  have left := absorbed_left_length (n := n) (f := f) s l
  have same : (l ++ t).length / n = l.length / n := by
    rw [List.length_append, ← Nat.div_add_mod l.length n, ← left, Nat.add_assoc,
      Nat.mul_add_div (Nat.zero_lt_of_lt short), Nat.mul_add_div (Nat.zero_lt_of_lt short),
      Nat.div_eq_of_lt short, Nat.div_eq_of_lt (Nat.lt_of_le_of_lt (Nat.le_add_right _ _) short)]
  have again : l ++ t = body ++ ((absorbed n f s l).2 ++ t) := by
    rw [← List.append_assoc, ← split]
  apply Prod.ext
  · rw [folded, absorbed, same, again]
    have cut := blocks_append (t := (absorbed n f s l).2 ++ t) 0 whole
    rw [Nat.add_zero, blocks, List.append_nil] at cut
    rw [cut]
  · rw [absorbed, same, again, ← whole, List.drop_left]

/-- A block that is filled is folded in. -/
theorem absorbed_full (pos : 0 < n) (full : (absorbed n f s l).2.length + t.length = n) :
    absorbed n f s (l ++ t) = (f (absorbed n f s l).1 ((absorbed n f s l).2 ++ t), []) := by
  obtain ⟨body, split, whole, folded⟩ := absorbed_split (n := n) (f := f) s l
  have left := absorbed_left_length (n := n) (f := f) s l
  have length : (l ++ t).length = n * (l.length / n + 1) := by
    rw [List.length_append, Nat.mul_succ]
    have := Nat.div_add_mod l.length n
    omega
  have one_more : (l ++ t).length / n = l.length / n + 1 := by
    rw [length, Nat.mul_div_cancel_left _ pos]
  have again : l ++ t = body ++ ((absorbed n f s l).2 ++ t) := by
    rw [← List.append_assoc, ← split]
  have block : ((absorbed n f s l).2 ++ t).length = n := by
    rw [List.length_append, full]
  apply Prod.ext
  · have cut := blocks_append (t := (absorbed n f s l).2 ++ t) 1 whole
    rw [blocks_one block] at cut
    rw [folded, absorbed, one_more, again, cut, List.foldl_append]
    rfl
  · rw [absorbed, one_more, ← length, List.drop_length]

/-- A list that is whole blocks leaves nothing. -/
theorem absorbed_whole (whole : l.length % n = 0) :
    absorbed n f s l = ((blocks n (l.length / n) l).foldl f s, []) := by
  apply Prod.ext
  · rfl
  · apply List.eq_nil_of_length_eq_zero
    rw [absorbed_left_length, whole]

end ReconOS.Lib
