import Mathlib.Data.List.Nodup
import Mathlib.Data.Finset.Card
import Mathlib.Logic.Function.Basic

/-! Singly linked lists: a head, a link out of each node, and a value that ends them. -/
namespace ReconOS.Lib

variable {α : Type} (null : α)

/-- The nodes from `head` on. -/
def Chain (next : α → α) : (head : α) → List α → Prop
  | head, [] => head = null
  | head, a :: rest => head = a ∧ a ≠ null ∧ Chain next (next a) rest

/-- Walks on from a node until there is none or `stop` holds, at most `turns` nodes: the node it came
from last, and where it stands. -/
def seek [DecidableEq α] (next : α → α) (stop : α → Bool) :
    Nat → Option α → α → Option (Option α × α)
  | 0, _, _ => none
  | turns + 1, prev, at_ =>
    if at_ = null ∨ stop at_ = true then some (prev, at_)
    else seek next stop turns (some at_) (next at_)

variable {null} {next next' : α → α} {head a : α} {l l' : List α}

namespace Chain

theorem unique (chain : Chain null next head l) (chain' : Chain null next head l') : l = l' := by
  induction l generalizing head l' with
  | nil =>
    cases l' with
    | nil => rfl
    | cons b rest => exact absurd (chain'.1.symm.trans chain) chain'.2.1
  | cons a rest ih =>
    cases l' with
    | nil => exact absurd (chain.1.symm.trans chain') chain.2.1
    | cons b rest' =>
      obtain ⟨rfl, _, further⟩ := chain
      obtain ⟨rfl, _, further'⟩ := chain'
      rw [ih further further']

theorem congr (chain : Chain null next head l) (same : ∀ a ∈ l, next' a = next a) :
    Chain null next' head l := by
  induction l generalizing head with
  | nil => exact chain
  | cons a rest ih =>
    obtain ⟨here, some_, further⟩ := chain
    refine ⟨here, some_, ?_⟩
    rw [same a (List.mem_cons_self ..)]
    exact ih further fun b mem => same b (List.mem_cons_of_mem a mem)

theorem ne_null (chain : Chain null next head l) (mem : a ∈ l) : a ≠ null := by
  induction l generalizing head with
  | nil => cases mem
  | cons b rest ih =>
    obtain ⟨_, some_, further⟩ := chain
    cases List.mem_cons.1 mem with
    | inl same => exact same ▸ some_
    | inr mem => exact ih further mem

theorem drop {before : List α} (chain : Chain null next head (before ++ a :: l)) :
    Chain null next a (a :: l) := by
  induction before generalizing head with
  | nil =>
    obtain ⟨rfl, rest⟩ := chain
    exact ⟨rfl, rest⟩
  | cons b rest ih => exact ih chain.2.2

/-- A list that ends has no node twice. -/
theorem nodup (chain : Chain null next head l) : l.Nodup := by
  induction l generalizing head with
  | nil => exact List.nodup_nil
  | cons a rest ih =>
    refine List.nodup_cons.2 ⟨fun mem => ?_, ih chain.2.2⟩
    obtain ⟨before, after, rfl⟩ := List.append_of_mem mem
    have whole : Chain null next a (a :: after) := chain.2.2.drop
    have again : Chain null next a (a :: (before ++ a :: after)) := ⟨rfl, chain.2.1, chain.2.2⟩
    have lengths := congrArg List.length (again.unique whole)
    simp only [List.length_cons, List.length_append] at lengths
    omega

section

variable [DecidableEq α]

/-- A node put in front. -/
theorem push (chain : Chain null next head l) (some_ : a ≠ null) (new : a ∉ l) :
    Chain null (Function.update next a head) a (a :: l) := by
  refine ⟨rfl, some_, ?_⟩
  rw [Function.update_self]
  refine chain.congr fun b mem => Function.update_of_ne ?_ ..
  rintro rfl
  exact new mem

/-- A node put behind the last. -/
theorem append {b : α} (chain : Chain null next head l) (some_ : a ≠ null) (new : a ∉ l)
    (last : l.getLast? = some b) :
    Chain null (Function.update (Function.update next a null) b a) head (l ++ [a]) := by
  have nodup := chain.nodup
  induction l generalizing head with
  | nil => cases last
  | cons c rest ih =>
    obtain ⟨rfl, here, further⟩ := chain
    obtain ⟨apart, nodup⟩ := List.nodup_cons.1 nodup
    have other : head ≠ a := by
      rintro rfl
      exact new (List.mem_cons_self ..)
    refine ⟨rfl, here, ?_⟩
    cases rest with
    | nil =>
      obtain rfl : head = b := Option.some.inj last
      rw [Function.update_self]
      refine ⟨rfl, some_, ?_⟩
      rw [Function.update_of_ne (Ne.symm other), Function.update_self]
      rfl
    | cons d rest =>
      rw [List.getLast?_cons_cons] at last
      have earlier : head ≠ b := by
        rintro rfl
        exact apart (List.mem_of_getLast? last)
      rw [Function.update_of_ne earlier, Function.update_of_ne other]
      exact ih further (fun mem => new (List.mem_cons_of_mem _ mem)) last nodup

/-- The first node taken out by its link in `prev`, the head when there is none. -/
theorem unlink {before after : List α} (chain : Chain null next head (before ++ a :: after)) :
    match before.getLast? with
    | none => before = [] ∧ Chain null next (next a) after
    | some prev => prev ∈ before ∧ Chain null (Function.update next prev (next a)) head (before ++ after) := by
  have nodup := chain.nodup
  induction before generalizing head with
  | nil => exact ⟨rfl, chain.2.2⟩
  | cons b rest ih =>
    obtain ⟨rfl, some_, further⟩ := chain
    obtain ⟨apart, nodup⟩ := List.nodup_cons.1 nodup
    cases rest with
    | nil =>
      refine ⟨List.mem_cons_self .., rfl, some_, ?_⟩
      obtain ⟨_, _, further⟩ := further
      show Chain null _ (Function.update next head (next a) head) after
      rw [Function.update_self]
      refine further.congr fun c mem => Function.update_of_ne ?_ ..
      rintro rfl
      exact apart (List.mem_append_right _ (List.mem_cons_of_mem _ mem))
    | cons c rest =>
      have shorter := ih further nodup
      rw [List.getLast?_cons_cons]
      split at shorter
      · cases shorter.1
      · rename_i prev last
        obtain ⟨mem, chain⟩ := shorter
        refine ⟨List.mem_cons_of_mem _ mem, rfl, some_, ?_⟩
        have other : head ≠ prev := by
          rintro rfl
          exact apart (List.mem_append_left _ mem)
        rw [Function.update_of_ne other]
        exact chain

/-- With turns enough, a walk stops at the first node it may stop at. -/
theorem seek_spec (chain : Chain null next head l) (stop : α → Bool) {turns : Nat}
    (enough : l.length < turns) (prev : Option α) :
    (∃ before a after, l = before ++ a :: after ∧ stop a = true ∧ (∀ b ∈ before, stop b = false) ∧
      seek null next stop turns prev head = some (before.getLast?.or prev, a)) ∨
    (∀ b ∈ l, stop b = false) ∧ ∃ last, seek null next stop turns prev head = some (last, null) := by
  induction l generalizing head turns prev with
  | nil =>
    obtain ⟨turns, rfl⟩ := Nat.exists_eq_succ_of_ne_zero (Nat.ne_of_gt (Nat.zero_lt_of_lt enough))
    refine .inr ⟨by simp, prev, ?_⟩
    rw [seek, if_pos (.inl chain)]
    exact congrArg some (Prod.ext rfl chain)
  | cons a rest ih =>
    obtain ⟨rfl, some_, further⟩ := chain
    obtain ⟨turns, rfl⟩ := Nat.exists_eq_succ_of_ne_zero (Nat.ne_of_gt (Nat.zero_lt_of_lt enough))
    by_cases here : stop head = true
    · refine .inl ⟨[], head, rest, rfl, here, by simp, ?_⟩
      rw [seek, if_pos (.inr here)]
      rfl
    · have here' : stop head = false := by simpa using here
      have on : seek null next stop (turns + 1) prev head =
          seek null next stop turns (some head) (next head) := by
        rw [seek, if_neg (by rw [not_or]; exact ⟨some_, here⟩)]
      rw [Nat.succ_eq_add_one, on]
      have fewer : rest.length < turns := by simpa using enough
      have shorter := ih further fewer (some head)
      cases shorter with
      | inl found =>
        obtain ⟨before, a, after, rfl, stops, none_, found⟩ := found
        refine .inl ⟨head :: before, a, after, rfl, stops, ?_, ?_⟩
        · intro b mem
          cases List.mem_cons.1 mem with
          | inl same => exact same ▸ here'
          | inr mem => exact none_ b mem
        · rw [found]
          cases before with
          | nil => rfl
          | cons c before =>
            rw [List.getLast?_cons_cons]
            cases last : (c :: before).getLast? with
            | none => simp at last
            | some d => rfl
      | inr none_ =>
        refine .inr ⟨fun b mem => ?_, none_.2⟩
        cases List.mem_cons.1 mem with
        | inl same => exact same ▸ here'
        | inr mem => exact none_.1 b mem

end

end Chain

/-- Numbers below a bound, all different, are no more than the bound. -/
theorem length_le_of_nodup {l : List Nat} (nodup : l.Nodup) {bound : Nat}
    (below : ∀ a ∈ l, a < bound) : l.length ≤ bound := by
  rw [← List.toFinset_card_of_nodup nodup]
  refine (Finset.card_le_card fun a mem => ?_).trans (Finset.card_range bound).le
  exact Finset.mem_range.2 (below a (List.mem_toFinset.1 mem))

end ReconOS.Lib
