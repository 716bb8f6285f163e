import Mathlib.Data.List.Basic

/-! Threads that wait in line for something there is so much of, each woken to look again and not
handed anything. -/
namespace ReconOS.Lib

/-- Where a thread is: in none of the calls; about to look, as a newcomer; in the line; out of it
and about to look again. -/
inductive Place where
  | out
  | fresh
  | queued
  | woken
  deriving DecidableEq, Repr

/-- Where each thread is, and the line, the first in it first. -/
structure Line where
  threads : List Place
  queue : List Nat

namespace Line

variable (l : Line)

def put (i : Nat) (p : Place) : Line := { l with threads := l.threads.set i p }

/-- To the end of the line. -/
def sleep (i : Nat) : Line := ⟨l.threads.set i .queued, l.queue ++ [i]⟩

/-- The first in line, if there is one, is told to look again. -/
def wakeOne : Line :=
  match l.queue with
  | [] => l
  | i :: rest => ⟨l.threads.set i .woken, rest⟩

def spawn : Line := { l with threads := l.threads ++ [.out] }

/-- How many threads are out of the line and have still to look again. -/
def woken : Nat := l.threads.count .woken

/-- The line has each thread that is in it, once. -/
structure Ok : Prop where
  nodup : l.queue.Nodup
  queued : ∀ i, i ∈ l.queue ↔ l.threads[i]? = some .queued

/-- If there is a line, then for all there is of the thing somebody has still to look. -/
def Covered (available : Nat) : Prop := l.queue ≠ [] → available ≤ l.woken

variable {l} {i : Nat} {p q : Place} {available : Nat}

theorem less_of_place (at_i : l.threads[i]? = some p) : i < l.threads.length :=
  (List.getElem?_eq_some_iff.1 at_i).1

theorem place_set {j : Nat} (less : i < l.threads.length) :
    (l.threads.set i q)[j]? = if j = i then some q else l.threads[j]? := by
  by_cases same : j = i
  · rw [if_pos same, same, List.getElem?_set_self less]
  · rw [if_neg same, List.getElem?_set_ne (Ne.symm same)]

/-- What a thread that goes from one place to another does to the count of the woken. -/
theorem count_set {threads : List Place} (at_i : threads[i]? = some p) :
    (threads.set i q).count .woken + (if p = .woken then 1 else 0) =
      threads.count .woken + if q = .woken then 1 else 0 := by
  induction threads generalizing i with
  | nil => cases at_i
  | cons first rest ih =>
    cases i with
    | zero =>
      cases at_i
      simp only [List.set_cons_zero, List.count_cons, beq_iff_eq]
      omega
    | succ i =>
      have moved := ih (i := i) (by simpa using at_i)
      simp only [List.set_cons_succ, List.count_cons, beq_iff_eq]
      omega

theorem Ok.put (ok : l.Ok) (at_i : l.threads[i]? = some p) (before : p ≠ .queued)
    (after : q ≠ .queued) : (l.put i q).Ok := by
  refine ⟨ok.nodup, fun j => ?_⟩
  show j ∈ l.queue ↔ (l.threads.set i q)[j]? = some .queued
  rw [place_set (less_of_place at_i), ok.queued]
  split
  · rename_i same
    rw [same, at_i]
    simp [before, after]
  · exact Iff.rfl

theorem Ok.sleep (ok : l.Ok) (at_i : l.threads[i]? = some p) (before : p ≠ .queued) :
    (l.sleep i).Ok := by
  have absent : i ∉ l.queue := by
    rw [ok.queued, at_i]
    simp [before]
  constructor
  · exact List.nodup_append.2 ⟨ok.nodup, by simp, by
      intro j there k there'
      rw [List.mem_singleton.1 there']
      exact fun same => absent (same ▸ there)⟩
  · intro j
    show j ∈ l.queue ++ [i] ↔ (l.threads.set i .queued)[j]? = some .queued
    rw [place_set (less_of_place at_i), List.mem_append, List.mem_singleton, ok.queued]
    split
    · rename_i same
      simp [same]
    · rename_i differ
      simp [differ]

theorem Ok.wakeOne (ok : l.Ok) : l.wakeOne.Ok := by
  unfold Line.wakeOne
  split
  · exact ok
  · rename_i i rest queue
    have nodup := ok.nodup
    rw [queue] at nodup
    obtain ⟨absent, nodup⟩ := List.nodup_cons.1 nodup
    have at_i := (ok.queued i).1 (queue ▸ List.mem_cons_self ..)
    refine ⟨nodup, fun j => ?_⟩
    show j ∈ rest ↔ (l.threads.set i .woken)[j]? = some .queued
    rw [place_set (less_of_place at_i)]
    split
    · rename_i same
      subst same
      simp [absent]
    · rename_i differ
      rw [← ok.queued, queue, List.mem_cons]
      simp [differ]

theorem Ok.spawn (ok : l.Ok) : l.spawn.Ok := by
  refine ⟨ok.nodup, fun i => ?_⟩
  show i ∈ l.queue ↔ (l.threads ++ [.out])[i]? = some .queued
  rw [ok.queued, List.getElem?_append]
  split
  · exact Iff.rfl
  · rename_i past
    rw [List.getElem?_eq_none (Nat.not_lt.1 past)]
    simp [List.getElem?_singleton]

theorem empty_ok : (Line.mk [] []).Ok := ⟨List.nodup_nil, fun i => by simp⟩

/-! ## Who has still to look -/

theorem Covered.spawn (covered : l.Covered available) : l.spawn.Covered available := by
  intro line
  have some_ := covered line
  show available ≤ (l.threads ++ [Place.out]).count Place.woken
  rw [List.count_append]
  exact Nat.le_add_right_of_le some_

/-- A thread begins to look. -/
theorem Covered.enter (covered : l.Covered available) (at_i : l.threads[i]? = some .out) :
    (l.put i .fresh).Covered available := by
  intro line
  have some_ := covered line
  have count := count_set (q := .fresh) at_i
  simp only [reduceCtorEq, if_false] at count
  show available ≤ (l.threads.set i .fresh).count .woken
  unfold woken at some_
  omega

/-- A thread that looks and finds none leaves nothing uncovered. -/
theorem covered_none : l.Covered 0 := fun _ => Nat.zero_le _

/-- A thread that looks takes one. -/
theorem Covered.take (covered : l.Covered (available + 1)) (at_i : l.threads[i]? = some p) :
    (l.put i .out).Covered available := by
  intro line
  have some_ := covered line
  have count := count_set (q := .out) at_i
  show available ≤ (l.threads.set i .out).count .woken
  unfold woken at some_
  have most : (if p = .woken then 1 else 0) ≤ 1 := by split <;> omega
  simp only [reduceCtorEq, if_false] at count
  omega

/-- There is at most one more, and one is woken. -/
theorem Covered.wakeOne (covered : l.Covered available) (ok : l.Ok) {more : Nat}
    (most : more ≤ available + 1) : l.wakeOne.Covered more := by
  unfold Line.wakeOne
  split
  · rename_i queue
    exact fun line => absurd queue line
  · rename_i i rest queue
    intro _
    have some_ := covered (by rw [queue]; exact List.cons_ne_nil i rest)
    have at_i := (ok.queued i).1 (queue ▸ List.mem_cons_self ..)
    have count := count_set (q := .woken) at_i
    simp only [reduceCtorEq, if_false, if_true] at count
    show more ≤ (l.threads.set i .woken).count .woken
    unfold woken at some_
    omega

end Line

end ReconOS.Lib
