import Mathlib.Data.List.ReduceOption
import Mathlib.Logic.Function.Basic

/-! A table of slots, each of which is used or free: what is in the used ones, in slot order, and
what writing one slot makes of that. -/
namespace ReconOS.Lib.Slots

variable {α : Type}

def firstFree (slots : List (Option α)) : Option Nat := slots.findIdx? Option.isNone

/-- The slots before one, the one, and the slots after it. -/
theorem split {slots : List (Option α)} {i : Nat} {slot : Option α} (here : slots[i]? = some slot) :
    ∃ front back, slots = front ++ slot :: back ∧ front.length = i := by
  obtain ⟨inside, is⟩ := List.getElem?_eq_some_iff.mp here
  refine ⟨slots.take i, slots.drop (i + 1), ?_, List.length_take_of_le (Nat.le_of_lt inside)⟩
  rw [← is, List.getElem_cons_drop, List.take_append_drop]

theorem set_split {front back : List (Option α)} {slot : Option α} (new : Option α) :
    (front ++ slot :: back).set front.length new = front ++ new :: back := by
  rw [List.set_append_right _ _ (Nat.le_refl _), Nat.sub_self, List.set_cons_zero]

theorem used_split (front back : List (Option α)) (slot : Option α) :
    (front ++ slot :: back).reduceOption =
      front.reduceOption ++ slot.toList ++ back.reduceOption := by
  rw [List.reduceOption_append]
  cases slot with
  | none => simp [List.reduceOption]
  | some a => simp [List.reduceOption]

theorem firstFree_some {slots : List (Option α)} {i : Nat} (is : firstFree slots = some i) :
    slots[i]? = some none := by
  obtain ⟨inside, free, -⟩ := List.findIdx?_eq_some_iff_getElem.mp is
  rw [List.getElem?_eq_getElem inside]
  simpa using free

theorem firstFree_of_short {slots : List (Option α)}
    (short : slots.reduceOption.length < slots.length) : ∃ i, firstFree slots = some i := by
  cases is : firstFree slots with
  | some i => exact ⟨i, rfl⟩
  | none =>
    rw [firstFree, List.findIdx?_eq_none_iff] at is
    have full : slots.reduceOption.length = slots.length := by
      rw [List.reduceOption_length_eq_iff]
      intro slot inside
      simpa [Option.isSome_iff_ne_none] using is slot inside
    omega

/-- What is in the first slot that something holds of is the first of what is in the used ones. -/
theorem find_used (p : α → Bool) (slots : List (Option α)) :
    ((slots.findIdx? fun slot => slot.any p).bind fun i => slots[i]?.join) =
      slots.reduceOption.find? p := by
  induction slots with
  | nil => rfl
  | cons slot rest ih =>
    cases slot with
    | none =>
      rw [List.reduceOption_cons_of_none, ← ih, List.findIdx?_cons,
        if_neg (by simp), Option.bind_map]
      rfl
    | some a =>
      rw [List.reduceOption_cons_of_some, List.findIdx?_cons, List.find?_cons, ← ih]
      cases is : p a with
      | true => simp [is]
      | false =>
        rw [if_neg (by simp [is]), Option.bind_map]
        rfl

theorem find_isSome (p : α → Bool) (slots : List (Option α)) :
    (slots.findIdx? fun slot => slot.any p).isSome = slots.reduceOption.any p := by
  induction slots with
  | nil => rfl
  | cons slot rest ih =>
    cases slot with
    | none => rw [List.reduceOption_cons_of_none, ← ih, List.findIdx?_cons]; simp
    | some a =>
      rw [List.reduceOption_cons_of_some, List.findIdx?_cons, List.any_cons, ← ih]
      cases is : p a <;> simp [is]

/-- The used slots come first. -/
def packed (size : Nat) (used : List α) : List (Option α) :=
  used.map some ++ List.replicate (size - used.length) none

theorem packed_used (size : Nat) (used : List α) : (packed size used).reduceOption = used := by
  rw [packed, List.reduceOption_append, List.reduceOption_replicate_none, List.append_nil]
  simp [List.reduceOption]

theorem packed_split {size : Nat} {used : List α} (room : used.length < size) :
    packed size used = used.map some ++ none :: List.replicate (size - used.length - 1) none := by
  obtain ⟨left, is⟩ : ∃ left, size - used.length = left + 1 :=
    ⟨size - used.length - 1, by omega⟩
  rw [packed, is, List.replicate_succ, Nat.add_sub_cancel]

theorem firstFree_packed {size : Nat} {used : List α} (room : used.length < size) :
    firstFree (packed size used) = some used.length := by
  rw [firstFree, packed_split room, List.findIdx?_append]
  have none : (used.map some).findIdx? Option.isNone = none := by
    rw [List.findIdx?_eq_none_iff]
    intro slot inside
    obtain ⟨a, -, rfl⟩ := List.mem_map.mp inside
    rfl
  rw [none]
  simp [List.findIdx?_cons]

theorem set_packed {size : Nat} {used : List α} (room : used.length < size) (a : α) :
    (packed size used).set used.length (some a) = packed size (used ++ [a]) := by
  have place : used.length = (used.map some).length := (List.length_map _).symm
  rw [packed_split room, place, set_split, packed, List.map_append, List.length_append,
    List.length_singleton, List.append_assoc, List.length_map, Nat.sub_sub]
  rfl

end ReconOS.Lib.Slots

/-! Tables of slots searched by key: each slot holds a key and its value, or nothing. -/
namespace ReconOS.Lib

abbrev SlotMap (ι K V : Type*) := ι → Option (K × V)

namespace SlotMap

variable {ι K V : Type*} {m : SlotMap ι K V} {i : ι} {k k' : K} {v w : V}

def Holds (m : SlotMap ι K V) (k : K) (v : V) : Prop := ∃ i, m i = some (k, v)

/-- No key is in two slots. -/
def Unique (m : SlotMap ι K V) : Prop :=
  ∀ i j k v w, m i = some (k, v) → m j = some (k, w) → i = j

/-- Key `k` is in slot `i` if it is anywhere. -/
def Fits (m : SlotMap ι K V) (i : ι) (k : K) : Prop := ∀ j v, m j = some (k, v) → j = i

theorem Unique.value (u : m.Unique) (h : m.Holds k v) (h' : m.Holds k w) : v = w := by
  obtain ⟨i, at_i⟩ := h
  obtain ⟨j, at_j⟩ := h'
  obtain rfl := u i j k v w at_i at_j
  rw [at_i] at at_j
  cases at_j
  rfl

theorem Unique.fits (u : m.Unique) (h : m i = some (k, v)) : m.Fits i k :=
  fun j w at_j => u j i k w v at_j h

variable [DecidableEq ι]

theorem Unique.put (u : m.Unique) (fits : m.Fits i k) :
    Unique (Function.update m i (some (k, v))) := by
  intro a b k' x y at_a at_b
  by_cases ai : a = i <;> by_cases bi : b = i
  · exact ai.trans bi.symm
  · subst ai
    rw [Function.update_self] at at_a
    rw [Function.update_of_ne bi] at at_b
    cases at_a
    exact (fits b y at_b).symm
  · subst bi
    rw [Function.update_self] at at_b
    rw [Function.update_of_ne ai] at at_a
    cases at_b
    exact fits a x at_a
  · rw [Function.update_of_ne ai] at at_a
    rw [Function.update_of_ne bi] at at_b
    exact u a b k' x y at_a at_b

theorem Unique.drop (u : m.Unique) : Unique (Function.update m i none) := by
  intro a b k' x y at_a at_b
  by_cases ai : a = i
  · subst ai
    rw [Function.update_self] at at_a
    cases at_a
  · by_cases bi : b = i
    · subst bi
      rw [Function.update_self] at at_b
      cases at_b
    · rw [Function.update_of_ne ai] at at_a
      rw [Function.update_of_ne bi] at at_b
      exact u a b k' x y at_a at_b

theorem holds_put_self : Holds (Function.update m i (some (k, v))) k v :=
  ⟨i, Function.update_self ..⟩

theorem Holds.of_put (h : Holds (Function.update m i (some (k, v))) k' w) :
    k' = k ∧ w = v ∨ m.Holds k' w := by
  obtain ⟨j, at_j⟩ := h
  by_cases ji : j = i
  · subst ji
    rw [Function.update_self] at at_j
    cases at_j
    exact .inl ⟨rfl, rfl⟩
  · rw [Function.update_of_ne ji] at at_j
    exact .inr ⟨j, at_j⟩

theorem Holds.of_drop (h : Holds (Function.update m i none) k w) : m.Holds k w := by
  obtain ⟨j, at_j⟩ := h
  by_cases ji : j = i
  · subst ji
    rw [Function.update_self] at at_j
    cases at_j
  · rw [Function.update_of_ne ji] at at_j
    exact ⟨j, at_j⟩

end SlotMap

end ReconOS.Lib
