import Mathlib.Data.List.Nodup
import Mathlib.Logic.Function.Basic

/-! Tables of tables in memory: a path of indices is followed from one table to the next, until an
entry points at none. -/
namespace ReconOS.Lib.Radix

variable {Page Word Root : Type}

/-- What each page holds at each index. -/
abbrev Store (Page Word : Type) := Page → Nat → Word

def Store.set [DecidableEq Page] (m : Store Page Word) (p : Page) (i : Nat) (w : Word) :
    Store Page Word :=
  fun p' i' => if p' = p ∧ i' = i then w else m p' i'

def Store.clear [DecidableEq Page] (m : Store Page Word) (p : Page) (w : Word) :
    Store Page Word :=
  fun p' i' => if p' = p then w else m p' i'

section

variable (target : Word → Option Page) (m : Store Page Word)

/-- The entries that a path meets; the last of them is the one that decides. -/
def walk : Page → List Nat → List Word
  | _, [] => []
  | p, i :: rest => m p i :: (match target (m p i) with
    | some q => walk q rest
    | none => [])

/-- What a walk finds beyond an entry. -/
def onward (w : Word) (rest : List Nat) : List Word :=
  match target w with
  | some q => walk target m q rest
  | none => []

/-- The table at the end of a path. -/
def reach : Page → List Nat → Option Page
  | p, [] => some p
  | p, i :: rest => match target (m p i) with
    | some q => reach q rest
    | none => none

/-- The indices of the first table that are a root's own; what is behind the others may be
another's. -/
def Owned (own : Root → Nat → Prop) (r : Root) (path : List Nat) : Prop :=
  ∀ i rest, path = i :: rest → own r i

/-- Each table has one place, which is the path to it from its root. -/
def Placed (own : Root → Nat → Prop) (depth : Nat) (home : Page → Option (Root × List Nat)) : Prop :=
  ∀ p r pre i q, home p = some (r, pre) → Owned own r (pre ++ [i]) → pre.length + 1 < depth →
    target (m p i) = some q → home q = some (r, pre ++ [i])

end

variable {target : Word → Option Page} {m m' : Store Page Word} {own : Root → Nat → Prop}
  {depth : Nat} {home : Page → Option (Root × List Nat)} {p q : Page} {r r' : Root}
  {pre path done rest : List Nat} {i j : Nat} {w : Word}

theorem Owned.front (owned : Owned own r (done ++ j :: rest)) : Owned own r (done ++ [j]) := by
  intro i later parts
  cases done with
  | nil =>
    obtain ⟨rfl, -⟩ := List.cons.inj parts
    exact owned j rest rfl
  | cons k done =>
    obtain ⟨rfl, -⟩ := List.cons.inj parts
    exact owned k (done ++ j :: rest) rfl

/-- What a walk finds is in the tables whose place is on its path. The induction is on the path
that is left, `done` being the way so far. -/
theorem walk_congr (placed : Placed target m own depth home) (start : home q = some (r, done))
    (owned : Owned own r (done ++ path)) (short : done.length + path.length ≤ depth)
    (agree : ∀ p pre j, home p = some (r, pre) → pre ++ [j] <+: done ++ path → m' p j = m p j) :
    walk target m' q path = walk target m q path := by
  induction path generalizing q done with
  | nil => rfl
  | cons j rest ih =>
    have front : done ++ [j] <+: done ++ j :: rest := ⟨rest, by rw [List.append_assoc]; rfl⟩
    have here : m' q j = m q j := agree q done j start front
    rw [walk, walk, here]
    cases goes : target (m q j) with
    | none => rfl
    | some next =>
      dsimp only
      cases rest with
      | nil => rfl
      | cons k rest =>
        rw [List.length_cons, List.length_cons] at short
        have place := placed q r done j next start owned.front (by omega) goes
        have same : done ++ [j] ++ k :: rest = done ++ j :: k :: rest := by
          rw [List.append_assoc, List.singleton_append]
        rw [ih place (by rwa [same])
          (by rw [List.length_append, List.length_singleton, List.length_cons]; omega)
          (by rwa [same])]

theorem reach_congr (placed : Placed target m own depth home) (start : home q = some (r, done))
    (owned : Owned own r (done ++ path)) (short : done.length + path.length < depth)
    (agree : ∀ p pre j, home p = some (r, pre) → pre ++ [j] <+: done ++ path → m' p j = m p j) :
    reach target m' q path = reach target m q path := by
  induction path generalizing q done with
  | nil => rfl
  | cons j rest ih =>
    have front : done ++ [j] <+: done ++ j :: rest := ⟨rest, by rw [List.append_assoc]; rfl⟩
    have here : m' q j = m q j := agree q done j start front
    rw [reach, reach, here]
    cases goes : target (m q j) with
    | none => rfl
    | some next =>
      rw [List.length_cons] at short
      have place := placed q r done j next start owned.front (by omega) goes
      have same : done ++ [j] ++ rest = done ++ j :: rest := by
        rw [List.append_assoc, List.singleton_append]
      exact ih place (by rwa [same])
        (by rw [List.length_append, List.length_singleton]; omega) (by rwa [same])

theorem reach_home (placed : Placed target m own depth home) (start : home q = some (r, done))
    (owned : Owned own r (done ++ path)) (short : done.length + path.length < depth)
    (goes : reach target m q path = some p) : home p = some (r, done ++ path) := by
  induction path generalizing q done with
  | nil =>
    rw [reach, Option.some.injEq] at goes
    rwa [List.append_nil, ← goes]
  | cons j rest ih =>
    rw [reach] at goes
    cases next : target (m q j) with
    | none =>
      rw [next] at goes
      cases goes
    | some next_ =>
      rw [next] at goes
      rw [List.length_cons] at short
      have place := placed q r done j next_ start owned.front (by omega) next
      have same : done ++ [j] ++ rest = done ++ j :: rest := by
        rw [List.append_assoc, List.singleton_append]
      rw [← same]
      exact ih place (by rwa [same])
        (by rw [List.length_append, List.length_singleton]; omega) goes

theorem reach_place (placed : Placed target m own depth home) (start : home q = some (r, []))
    (owned : Owned own r pre) (short : pre.length < depth)
    (goes : reach target m q pre = some p) : home p = some (r, pre) :=
  reach_home placed start owned (by rwa [List.length_nil, Nat.zero_add]) goes

theorem walk_append (goes : reach target m q pre = some p) :
    walk target m q (pre ++ rest) = walk target m q pre ++ walk target m p rest := by
  induction pre generalizing q with
  | nil =>
    rw [reach, Option.some.injEq] at goes
    rw [goes]
    rfl
  | cons j pre ih =>
    rw [reach] at goes
    rw [List.cons_append, walk, walk]
    cases next : target (m q j) with
    | none =>
      rw [next] at goes
      cases goes
    | some next_ =>
      rw [next] at goes
      dsimp only
      rw [ih goes, List.cons_append]

theorem reach_append (goes : reach target m q pre = some p) :
    reach target m q (pre ++ rest) = reach target m p rest := by
  induction pre generalizing q with
  | nil =>
    rw [reach, Option.some.injEq] at goes
    rw [goes]
    rfl
  | cons j pre ih =>
    rw [reach] at goes
    rw [List.cons_append, reach]
    cases next : target (m q j) with
    | none =>
      rw [next] at goes
      cases goes
    | some next_ =>
      rw [next] at goes
      exact ih goes

/-- A root's pages lose their places, all of them. -/
theorem Placed.drop (placed : Placed target m own depth home) (gone : Root → Bool) :
    Placed target m own depth fun p => (home p).filter fun at_ => !gone at_.1 := by
  intro p' r' pre' j next here owned short goes
  obtain ⟨here, stays⟩ := Option.filter_eq_some_iff.mp here
  exact Option.filter_eq_some_iff.mpr ⟨placed p' r' pre' j next here owned short goes, stays⟩

/-! ## Changing an entry -/

variable [DecidableEq Page]

theorem set_here : m.set p i w p i = w := if_pos ⟨rfl, rfl⟩

theorem set_other (other : ¬ (q = p ∧ j = i)) : m.set p i w q j = m q j := if_neg other

theorem Placed.set (placed : Placed target m own depth home) (here : home p = some (r, pre))
    (goes : pre.length + 1 < depth → ∀ q, target w = some q → home q = some (r, pre ++ [i])) :
    Placed target (m.set p i w) own depth home := by
  intro p' r' pre' j q at_ owned short next
  by_cases same : p' = p ∧ j = i
  · obtain ⟨rfl, rfl⟩ := same
    rw [set_here] at next
    obtain ⟨rfl, rfl⟩ := Prod.mk.inj (Option.some.inj (here.symm.trans at_))
    exact goes short q next
  · rw [set_other same] at next
    exact placed p' r' pre' j q at_ owned short next

/-- A page that has no place gets one, as a table with nothing in it. -/
theorem Placed.fresh (placed : Placed target m own depth home) (unused : home q = none)
    (empty : target w = none) (at_ : Root × List Nat) :
    Placed target (m.clear q w) own depth (Function.update home q (some at_)) := by
  intro p' r' pre' j next here owned short goes
  by_cases same : p' = q
  · rw [Store.clear, if_pos same, empty] at goes
    cases goes
  · rw [Store.clear, if_neg same] at goes
    rw [Function.update_of_ne same] at here
    have place := placed p' r' pre' j next here owned short goes
    rw [Function.update_of_ne]
    · exact place
    · rintro rfl
      rw [unused] at place
      cases place

/-- A page that has no place is on no path. -/
theorem walk_clear (placed : Placed target m own depth home) (unused : home p = none)
    (start : home q = some (r, [])) (owned : Owned own r path) (short : path.length ≤ depth) :
    walk target (m.clear p w) q path = walk target m q path := by
  refine walk_congr placed start owned (by rwa [List.length_nil, Nat.zero_add]) ?_
  intro p' pre' j place front
  apply if_neg
  rintro rfl
  rw [unused] at place
  cases place

theorem reach_clear (placed : Placed target m own depth home) (unused : home p = none)
    (start : home q = some (r, [])) (owned : Owned own r path) (short : path.length < depth) :
    reach target (m.clear p w) q path = reach target m q path := by
  refine reach_congr placed start owned (by rwa [List.length_nil, Nat.zero_add]) ?_
  intro p' pre' j place front
  apply if_neg
  rintro rfl
  rw [unused] at place
  cases place

/-- Where an entry is not on a path, the path is what it was. -/
theorem walk_set_apart (placed : Placed target m own depth home)
    (start : home q = some (r', [])) (owned : Owned own r' path) (short : path.length ≤ depth)
    (here : home p = some (r, pre)) (apart : ¬ (r' = r ∧ pre ++ [i] <+: path)) :
    walk target (m.set p i w) q path = walk target m q path := by
  refine walk_congr placed start owned (by rwa [List.length_nil, Nat.zero_add]) ?_
  intro p' pre' j place front
  apply set_other
  rintro ⟨rfl, rfl⟩
  obtain ⟨rfl, rfl⟩ := Prod.mk.inj (Option.some.inj (here.symm.trans place))
  exact apart ⟨rfl, front⟩

theorem reach_set (placed : Placed target m own depth home) (start : home q = some (r, []))
    (owned : Owned own r pre) (short : pre.length < depth) (here : home p = some (r, pre)) :
    reach target (m.set p i w) q pre = reach target m q pre := by
  refine reach_congr placed start owned (by rwa [List.length_nil, Nat.zero_add]) ?_
  intro p' pre' j place front
  apply set_other
  rintro ⟨rfl, rfl⟩
  obtain ⟨-, rfl⟩ := Prod.mk.inj (Option.some.inj (here.symm.trans place))
  have long := front.length_le
  rw [List.nil_append, List.length_append, List.length_singleton] at long
  omega

/-- Where it is, the path comes to it as before, and goes on from what it is now. -/
theorem walk_set_on (placed : Placed target m own depth home) (start : home q = some (r, []))
    (owned : Owned own r pre) (short : pre.length < depth)
    (goes : reach target m q pre = some p) :
    walk target (m.set p i w) q (pre ++ i :: rest) =
      walk target m q pre ++ w :: onward target (m.set p i w) w rest := by
  have here := reach_place placed start owned short goes
  have front : walk target (m.set p i w) q pre = walk target m q pre := by
    refine walk_set_apart placed start owned (Nat.le_of_lt short) here ?_
    rintro ⟨-, front⟩
    have long := front.length_le
    rw [List.length_append, List.length_singleton] at long
    omega
  rw [← reach_set placed start owned short here] at goes
  rw [walk_append goes, front, walk, set_here]
  rfl

end ReconOS.Lib.Radix
