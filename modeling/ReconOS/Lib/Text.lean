import Mathlib.Data.List.DropRight
import Mathlib.Data.List.Basic

/-! Lists of symbols as lines and fields: what a writer joined with a separator, a reader takes
apart again. -/
namespace ReconOS.Lib.Text

variable {α : Type} [DecidableEq α]

/-! ## Lines -/

/-- The parts between separators, the empty ones passed by. -/
def tokens (c : α) (text : List α) : List (List α) :=
  (text.splitOn c).filter fun part => !part.isEmpty

@[simp] theorem tokens_nil (c : α) : tokens c [] = [] := by simp [tokens]

theorem tokens_append (c : α) (a b : List α) :
    tokens c (a ++ c :: b) = tokens c a ++ tokens c b := by
  simp only [tokens, List.splitOn_append_cons_self, List.filter_append]

theorem tokens_line {c : α} {line : List α} (whole : c ∉ line) (some : line ≠ []) :
    tokens c line = [line] := by
  rw [tokens, List.splitOn_eq_singleton whole]
  simpa using some

theorem tokens_lines {c : α} {lines : List (List α)}
    (whole : ∀ line ∈ lines, c ∉ line ∧ line ≠ []) :
    tokens c (lines.flatMap (· ++ [c])) = lines := by
  induction lines with
  | nil => simp
  | cons line lines ih =>
    obtain ⟨here, some⟩ := whole line List.mem_cons_self
    have rest := ih fun l inside => whole l (List.mem_cons_of_mem _ inside)
    calc tokens c ((line :: lines).flatMap (· ++ [c]))
        = tokens c (line ++ c :: lines.flatMap (· ++ [c])) := by simp
      _ = tokens c line ++ tokens c (lines.flatMap (· ++ [c])) := tokens_append c _ _
      _ = line :: lines := by rw [tokens_line here some, rest]; rfl

/-- The same where the separator stands before each. -/
theorem tokens_heads {c : α} {lines : List (List α)}
    (whole : ∀ line ∈ lines, c ∉ line ∧ line ≠ []) :
    tokens c (lines.flatMap (c :: ·)) = lines := by
  have after : ∀ line : List α, c ∉ line → line ≠ [] → ∀ lines : List (List α),
      tokens c (lines.flatMap (c :: ·)) = lines →
      tokens c (line ++ lines.flatMap (c :: ·)) = line :: lines := by
    intro line here some lines rest
    cases lines with
    | nil => rw [List.flatMap_nil, List.append_nil, tokens_line here some]
    | cons next lines =>
      rw [List.flatMap_cons, List.cons_append, tokens_append, tokens_line here some]
      rw [List.flatMap_cons, List.cons_append, ← List.nil_append (c :: _), tokens_append,
        tokens_nil, List.nil_append] at rest
      rw [rest]
      rfl
  induction lines with
  | nil => simp
  | cons line lines ih =>
    obtain ⟨here, some⟩ := whole line List.mem_cons_self
    have rest := ih fun l inside => whole l (List.mem_cons_of_mem _ inside)
    rw [List.flatMap_cons, List.cons_append, ← List.nil_append (c :: _), tokens_append,
      tokens_nil, List.nil_append, after line here some lines rest]

/-- A separator is in no part. -/
theorem not_mem_splitOn {c : α} {text part : List α} (is : part ∈ text.splitOn c) : c ∉ part := by
  induction text generalizing part with
  | nil =>
    rw [List.splitOn_nil, List.mem_singleton] at is
    simp [is]
  | cons x text ih =>
    rw [List.splitOn_cons_eq_if_modifyHead] at is
    split at is
    case isTrue =>
      cases List.mem_cons.mp is with
      | inl empty => simp [empty]
      | inr later => exact ih later
    case isFalse other =>
      obtain ⟨head, tail, parts⟩ := List.exists_cons_of_ne_nil (List.splitOn_ne_nil c text)
      rw [parts, List.modifyHead_cons] at is
      cases List.mem_cons.mp is with
      | inl first =>
        have apart : c ∉ head := ih (parts ▸ List.mem_cons_self)
        have differ : c ≠ x := fun same => other (by simp [same])
        simp [first, apart, differ]
      | inr later => exact ih (parts ▸ List.mem_cons_of_mem _ later)

/-- A part is made of the text's own symbols. -/
theorem mem_of_mem_splitOn {c : α} {text part : List α} (is : part ∈ text.splitOn c) :
    ∀ x ∈ part, x ∈ text := by
  induction text generalizing part with
  | nil =>
    rw [List.splitOn_nil, List.mem_singleton] at is
    simp [is]
  | cons y text ih =>
    rw [List.splitOn_cons_eq_if_modifyHead] at is
    split at is
    case isTrue =>
      cases List.mem_cons.mp is with
      | inl empty => simp [empty]
      | inr later => exact fun x inside => List.mem_cons_of_mem _ (ih later x inside)
    case isFalse =>
      obtain ⟨head, tail, parts⟩ := List.exists_cons_of_ne_nil (List.splitOn_ne_nil c text)
      rw [parts, List.modifyHead_cons] at is
      cases List.mem_cons.mp is with
      | inl first =>
        have front : ∀ y ∈ head, y ∈ text := ih (parts ▸ List.mem_cons_self)
        intro x inside
        rw [first, List.mem_cons] at inside
        exact List.mem_cons.mpr (inside.imp_right (front x))
      | inr later =>
        have back := ih (parts ▸ List.mem_cons_of_mem _ later)
        exact fun x inside => List.mem_cons_of_mem _ (back x inside)

theorem not_mem_tokens {c : α} {text line : List α} (is : line ∈ tokens c text) : c ∉ line :=
  not_mem_splitOn (List.mem_of_mem_filter is)

/-! ## Fields -/

/-- Before the first separator, and after it. -/
def cut (c : α) (text : List α) : Option (List α × List α) :=
  if c ∈ text then some (text.takeWhile (· ≠ c), (text.dropWhile (· ≠ c)).tail) else none

theorem cut_append {c : α} {a : List α} (before : c ∉ a) (b : List α) :
    cut c (a ++ c :: b) = some (a, b) := by
  have other : ∀ x ∈ a, (decide (x ≠ c)) = true := fun x inside =>
    decide_eq_true fun same => before (same ▸ inside)
  have front : (a ++ c :: b).takeWhile (· ≠ c) = a := by
    rw [List.takeWhile_append_of_pos other]
    simp
  have back : (a ++ c :: b).dropWhile (· ≠ c) = c :: b := by
    rw [List.dropWhile_append_of_pos other]
    simp
  rw [cut, if_pos (by simp), front, back, List.tail_cons]

theorem eq_of_cut {c : α} {text a b : List α} (is : cut c text = some (a, b)) :
    text = a ++ c :: b ∧ c ∉ a := by
  unfold cut at is
  split at is
  case isFalse => cases is
  case isTrue inside =>
    obtain ⟨before, after, whole, apart⟩ := List.eq_append_cons_of_mem inside
    have cutHere := cut_append apart after
    rw [cut, if_pos (by simp)] at cutHere
    rw [whole] at is
    rw [cutHere] at is
    simp only [Option.some.injEq, Prod.mk.injEq] at is
    obtain ⟨rfl, rfl⟩ := is
    exact ⟨whole, apart⟩

/-! ## Trimming -/

omit [DecidableEq α]
variable {p : α → Bool}

theorem dropWhile_stop {x : α} {l : List α} (stop : p x = false) : (x :: l).dropWhile p = x :: l :=
  List.dropWhile_cons_of_neg (by simp [stop])

/-- Text that does not begin with what is dropped is left as it is. -/
theorem dropWhile_eq_of_head {l : List α} (head : ∀ x, l.head? = some x → p x = false) :
    l.dropWhile p = l := by
  cases l with
  | nil => rfl
  | cons x l => exact dropWhile_stop (head x rfl)

theorem rdropWhile_eq_of_last {l : List α} (last : ∀ x, l.getLast? = some x → p x = false) :
    l.rdropWhile p = l := by
  rw [List.rdropWhile_eq_self_iff]
  intro some
  have is := last (l.getLast some) (List.getLast?_eq_some_getLast some)
  simp [is]

/-- What ends in one symbol to drop, dropped, and then nothing more. -/
theorem rdropWhile_concat_stop {l : List α} {x : α} (drop : p x = true)
    (last : ∀ y, l.getLast? = some y → p y = false) : (l ++ [x]).rdropWhile p = l := by
  rw [List.rdropWhile_concat_pos p l x drop, rdropWhile_eq_of_last last]

theorem rdropWhile_append_stop {a b : List α} {x : α} (stop : p x = false) :
    (a ++ x :: b).rdropWhile p = a ++ x :: b.rdropWhile p := by
  induction b using List.reverseRecOn with
  | nil =>
    rw [List.rdropWhile_concat_neg p a x (by simp [stop])]
    rfl
  | append_singleton b y ih =>
    by_cases drop : p y = true
    · rw [List.rdropWhile_concat_pos p b y drop, ← ih, ← List.cons_append, ← List.append_assoc,
        List.rdropWhile_concat_pos p _ y drop]
    · rw [List.rdropWhile_concat_neg p b y drop, ← List.cons_append, ← List.append_assoc,
        List.rdropWhile_concat_neg p _ y drop]

theorem dropWhile_append_stop {a b : List α} {x : α} (stop : p x = false) :
    (a ++ x :: b).dropWhile p = a.dropWhile p ++ x :: b := by
  induction a with
  | nil => exact dropWhile_stop stop
  | cons y a ih =>
    by_cases drop : p y = true
    · rw [List.cons_append, List.dropWhile_cons_of_pos drop, List.dropWhile_cons_of_pos drop, ih]
    · rw [List.cons_append, List.dropWhile_cons_of_neg drop, List.dropWhile_cons_of_neg drop]
      rfl

/-- Text with something in it that stays: what is at its right end goes, or it is all dropped. -/
theorem rdropWhile_cons (x : α) (l : List α) :
    (x :: l).rdropWhile p = if l.rdropWhile p = [] ∧ p x = true then []
      else x :: l.rdropWhile p := by
  by_cases drop : p x = true
  · by_cases all : l.rdropWhile p = []
    · rw [if_pos ⟨all, drop⟩, List.rdropWhile_eq_nil_iff]
      rw [List.rdropWhile_eq_nil_iff] at all
      intro y inside
      cases List.mem_cons.mp inside with
      | inl first => exact first ▸ drop
      | inr later => exact all y later
    · rw [if_neg fun both => all both.1]
      obtain ⟨y, inside, stop⟩ : ∃ y ∈ l, p y = false := by
        rw [List.rdropWhile_eq_nil_iff] at all
        push Not at all
        obtain ⟨y, inside, stop⟩ := all
        exact ⟨y, inside, by simpa using stop⟩
      obtain ⟨a, b, rfl⟩ := List.append_of_mem inside
      rw [← List.cons_append, rdropWhile_append_stop stop, rdropWhile_append_stop stop,
        List.cons_append]
  · rw [if_neg fun both => drop both.2]
    exact rdropWhile_append_stop (a := []) (by simpa using drop)

/-- The two ends are trimmed in either order. -/
theorem dropWhile_rdropWhile (q : α → Bool) (l : List α) :
    (l.dropWhile p).rdropWhile q = (l.rdropWhile q).dropWhile p := by
  induction l with
  | nil => rfl
  | cons x l ih =>
    by_cases drop : p x = true
    · rw [List.dropWhile_cons_of_pos drop, ih, rdropWhile_cons]
      split
      case isTrue both => rw [both.1]
      case isFalse => rw [List.dropWhile_cons_of_pos drop]
    · rw [List.dropWhile_cons_of_neg drop, rdropWhile_cons]
      split
      case isTrue => rfl
      case isFalse => rw [List.dropWhile_cons_of_neg drop]

end ReconOS.Lib.Text

/-! Bytes as text of sixty-four letters. -/
namespace ReconOS.Lib.Base64

def alphabet : List Char :=
  "ABCDEFGHIJKLMNOPQRSTUVWXYZabcdefghijklmnopqrstuvwxyz0123456789+/".toList

def digit (v : Nat) : Char := alphabet.getD (v % 64) '='

/-- Three bytes to four letters, and a tail that is padded. -/
def encode : List Nat → List Char
  | a :: b :: c :: rest =>
    let v := a * 65536 + b * 256 + c
    digit (v / 262144) :: digit (v / 4096) :: digit (v / 64) :: digit v :: encode rest
  | [a, b] =>
    let v := a * 65536 + b * 256
    [digit (v / 262144), digit (v / 4096), digit (v / 64), '=']
  | [a] =>
    let v := a * 65536
    [digit (v / 262144), digit (v / 4096), '=', '=']
  | [] => []

end ReconOS.Lib.Base64
