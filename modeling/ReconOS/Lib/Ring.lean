import Mathlib.Logic.Function.Basic
import Mathlib.Data.List.Basic
import Mathlib.Data.Nat.ModEq

/-! A circular buffer over a fixed run of cells: what it holds, oldest first, and how appending,
taking and dropping change that. -/
namespace ReconOS

/-- `len` cells are in use from `head` on, around the end of the run where it comes to that. -/
structure Ring (α : Type) (cap : Nat) where
  cells : Nat → α
  head : Nat
  len : Nat
  bound : len ≤ cap

namespace Ring

variable {α : Type} {cap : Nat}

def empty (cells : Nat → α) : Ring α cap := ⟨cells, 0, 0, Nat.zero_le cap⟩

def nth (r : Ring α cap) (k : Nat) : α := r.cells ((r.head + k) % cap)

/-- `n` cells from the one `k` places after the head. -/
def span (r : Ring α cap) (k n : Nat) : List α := (List.range n).map fun j => r.nth (k + j)

/-- What the buffer holds, oldest first. -/
def toList (r : Ring α cap) : List α := r.span 0 r.len

def room (r : Ring α cap) : Nat := cap - r.len

def push (r : Ring α cap) (a : α) (h : r.len < cap) : Ring α cap :=
  ⟨Function.update r.cells ((r.head + r.len) % cap) a, r.head, r.len + 1, h⟩

/-- As many of `xs` as fit, one after the other, and how many that was. -/
def append (r : Ring α cap) : List α → Ring α cap × Nat
  | [] => (r, 0)
  | x :: xs =>
    if h : r.len < cap then
      let next := append (r.push x h) xs
      (next.1, next.2 + 1)
    else (r, 0)

def drop (r : Ring α cap) (n : Nat) : Ring α cap :=
  ⟨r.cells, (r.head + n) % cap, r.len - n, Nat.le_trans (Nat.sub_le _ _) r.bound⟩

/-- At most `n` entries off the front, one after the other. -/
def take (r : Ring α cap) : Nat → List α × Ring α cap
  | 0 => ([], r)
  | n + 1 =>
    if 0 < r.len then
      let rest := take (r.drop 1) n
      (r.nth 0 :: rest.1, rest.2)
    else ([], r)

@[simp] theorem empty_toList (cells : Nat → α) : (empty cells : Ring α cap).toList = [] := rfl

@[simp] theorem span_length (r : Ring α cap) (k n : Nat) : (r.span k n).length = n := by
  simp [span]

@[simp] theorem toList_length (r : Ring α cap) : r.toList.length = r.len := by simp [toList]

@[simp] theorem span_zero (r : Ring α cap) (k : Nat) : r.span k 0 = [] := rfl

theorem span_succ (r : Ring α cap) (k n : Nat) :
    r.span k (n + 1) = r.nth k :: r.span (k + 1) n := by
  simp only [span, List.range_succ_eq_map, List.map_cons, List.map_map, Nat.add_zero]
  congr 1
  apply List.map_congr_left
  intro j _
  simp [Nat.add_assoc, Nat.add_comm 1 j]

theorem span_snoc (r : Ring α cap) (k n : Nat) :
    r.span k (n + 1) = r.span k n ++ [r.nth (k + n)] := by
  simp [span, List.range_succ]

theorem span_take (r : Ring α cap) (k m n : Nat) (h : m ≤ n) :
    (r.span k n).take m = r.span k m := by
  simp only [span, ← List.map_take, List.take_range, Nat.min_eq_left h]

theorem span_drop (r : Ring α cap) (k m n : Nat) : (r.span k n).drop m = r.span (k + m) (n - m) := by
  induction m generalizing k n with
  | zero => simp
  | succ m ih =>
    cases n with
    | zero => simp
    | succ n =>
      rw [span_succ, List.drop_succ_cons, ih]
      congr 1 <;> omega

/-- Reading part of the contents by index is reading it off the list. -/
theorem span_eq (r : Ring α cap) (k n : Nat) (h : k + n ≤ r.len) :
    r.span k n = (r.toList.drop k).take n := by
  rw [toList, span_drop, span_take _ _ _ _ (by omega), Nat.zero_add]

theorem drop_at (r : Ring α cap) (n k : Nat) : (r.drop n).nth k = r.nth (n + k) := by
  simp [drop, nth, Nat.add_assoc]

@[simp] theorem drop_len (r : Ring α cap) (n : Nat) : (r.drop n).len = r.len - n := rfl

theorem drop_toList (r : Ring α cap) (n : Nat) : (r.drop n).toList = r.toList.drop n := by
  rw [toList, toList, span_drop, Nat.zero_add]
  apply List.map_congr_left
  intro j _
  rw [drop_at, Nat.zero_add]

/-- Taking gives the front of the contents and leaves the rest. -/
theorem take_spec (r : Ring α cap) (n : Nat) :
    (r.take n).1 = r.toList.take n ∧ (r.take n).2.toList = r.toList.drop n := by
  induction n generalizing r with
  | zero => exact ⟨rfl, rfl⟩
  | succ n ih =>
    unfold take
    by_cases h : 0 < r.len
    · obtain ⟨front, rest⟩ := ih (r.drop 1)
      have split : r.toList = r.nth 0 :: (r.drop 1).toList := by
        rw [drop_toList, toList]
        obtain ⟨m, hm⟩ : ∃ m, r.len = m + 1 := ⟨r.len - 1, by omega⟩
        rw [hm, span_succ, List.drop_succ_cons, List.drop_zero]
      rw [if_pos h, split]
      exact ⟨by simp [front], by simp [rest]⟩
    · have none : r.toList = [] := List.eq_nil_of_length_eq_zero (by simp; omega)
      rw [if_neg h, none]
      exact ⟨rfl, by simp⟩

theorem push_at (r : Ring α cap) (a : α) (h : r.len < cap) (k : Nat) (hk : k < r.len) :
    (r.push a h).nth k = r.nth k := by
  have apart : (r.head + k) % cap ≠ (r.head + r.len) % cap := by
    intro same
    have := Nat.ModEq.add_left_cancel' r.head same
    rw [Nat.ModEq, Nat.mod_eq_of_lt (by omega), Nat.mod_eq_of_lt h] at this
    omega
  exact Function.update_of_ne apart _ _

theorem push_toList (r : Ring α cap) (a : α) (h : r.len < cap) :
    (r.push a h).toList = r.toList ++ [a] := by
  have last : (r.push a h).nth r.len = a := Function.update_self _ _ _
  rw [toList, toList, show (r.push a h).len = r.len + 1 from rfl, span_snoc, Nat.zero_add, last]
  congr 1
  apply List.map_congr_left
  intro j hj
  rw [Nat.zero_add, push_at r a h j (List.mem_range.1 hj)]

/-- Appending keeps what was there and adds as much of `xs` as there is room for. -/
theorem append_spec (r : Ring α cap) (xs : List α) :
    (r.append xs).1.toList = r.toList ++ xs.take (r.append xs).2 ∧
    (r.append xs).2 = min xs.length r.room := by
  induction xs generalizing r with
  | nil => simp [append]
  | cons x xs ih =>
    unfold append
    by_cases h : r.len < cap
    · obtain ⟨held, count⟩ := ih (r.push x h)
      rw [dif_pos h]
      refine ⟨?_, ?_⟩
      · simp [held, push_toList]
      · have less : (r.push x h).room = r.room - 1 := by simp only [room, push]; omega
        have some : 0 < r.room := by simp only [room]; omega
        simp only [List.length_cons, count, less]
        omega
    · rw [dif_neg h]
      simp only [room, List.take_zero, List.append_nil, true_and]
      omega

theorem append_len (r : Ring α cap) (xs : List α) :
    (r.append xs).1.len = r.len + (r.append xs).2 := by
  obtain ⟨held, count⟩ := append_spec r xs
  have := congrArg List.length held
  simp only [toList_length, List.length_append, List.length_take] at this
  omega

theorem take_len (r : Ring α cap) (n : Nat) : (r.take n).2.len = r.len - n := by
  simpa using congrArg List.length (take_spec r n).2

end Ring

end ReconOS
