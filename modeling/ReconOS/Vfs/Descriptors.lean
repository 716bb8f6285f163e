import ReconOS.Lib.Tokens
import Mathlib.Algebra.BigOperators.Group.Finset.Basic
import Mathlib.Data.Fintype.Prod
import Mathlib.Algebra.BigOperators.Group.Finset.Piecewise
import Mathlib.Algebra.Order.BigOperators.Group.Finset

/-! Descriptors and the files they name: the calls on the table, and on the references, one hold of
the lock or one reference at a time. -/
namespace ReconOS.Vfs

def processMax : Nat := 32
def fdsMax : Nat := 32
def u32Size : Nat := 0x100000000

abbrev Proc := Fin processMax
abbrev Fd := Fin fdsMax

/-- A slot of a process's descriptors. -/
abbrev Place := Proc × Fd

/-- The tables and the counts. On the side: which files have come to no references and are about to
be closed, how often each has been closed, and whether anything was done through a file that was
not there to do it through. -/
structure Shared where
  fds : Place → Option Nat
  refs : Nat → Nat
  next : Nat
  dying : Nat → Bool
  closes : Nat → Nat
  misused : Bool

namespace Shared

variable (s : Shared)

def boot : Shared := ⟨fun _ => none, fun _ => 0, 0, fun _ => false, fun _ => 0, false⟩

/-- A file that has been made and has not come to no references. -/
def Live (f : Nat) : Prop := f < s.next ∧ s.dying f = false ∧ s.closes f = 0

instance (f : Nat) : Decidable (s.Live f) := inferInstanceAs (Decidable (_ ∧ _))

/-- Something is done through a file. -/
def touch (f : Nat) : Shared := { s with misused := s.misused || !decide (s.Live f) }

/-- `file_hold`. -/
def hold (f : Nat) : Shared :=
  { s.touch f with refs := Function.update s.refs f ((s.refs f + 1) % u32Size) }

/-- The decrement in `file_release`, and whether it was the last. -/
def drop (f : Nat) : Bool × Shared :=
  let left := (s.refs f + u32Size - 1) % u32Size
  (decide (left = 0),
    { s.touch f with
      refs := Function.update s.refs f left
      dying := Function.update s.dying f (decide (left = 0)) })

/-- The file's `close`, and the file freed. -/
def finish (f : Nat) : Shared :=
  { s with
    dying := Function.update s.dying f false
    closes := Function.update s.closes f (s.closes f + 1) }

/-- `file_new`. -/
def fileNew : Shared := { s with refs := Function.update s.refs s.next 1, next := s.next + 1 }

def setFd (p : Proc) (fd : Fd) (f : Option Nat) : Shared :=
  { s with fds := Function.update s.fds (p, fd) f }

/-- The hold of the lock in `fd_install`: the number, if there is one free. -/
def install (p : Proc) (f : Nat) : Option Fd × Shared :=
  match (List.finRange fdsMax).find? fun fd => (s.fds (p, fd)).isNone with
  | some fd => (some fd, (s.setFd p fd (some f)).hold f)
  | none => (none, s)

end Shared

/-! ## Threads -/

/-- What a thread has still to do in the call it is in. -/
inductive Task where
  /-- `fd_install`, of a file that the caller has a reference to. -/
  | install (p : Proc) (f : Nat)
  /-- The two of `sys_pipe`. -/
  | installFirst (p : Proc) (r w : Nat)
  | installSecond (p : Proc) (w : Nat) (first : Option Fd)
  /-- The decrement in `file_release`. -/
  | release (f : Nat)
  /-- The rest of it, where that was the last. -/
  | finish (f : Nat)
  /-- The hold of the lock in `fd_close`. -/
  | closeFd (p : Proc) (fd : Fd)
  deriving DecidableEq, Repr

/-- The references a thread was handed and has not given back, and what it has still to do. -/
structure Thread where
  held : List Nat
  tasks : List Task
  deriving DecidableEq, Repr

/-- What a thread calls next. -/
inductive Call where
  | fileNew
  | install (k : Nat) (p : Proc)
  | get (p : Proc) (fd : Fd)
  /-- An operation, through a file it has a reference to. -/
  | use (k : Nat)
  | release (k : Nat)
  | close (p : Proc) (fd : Fd)
  | closeAll (p : Proc)
  | sysOpen (p : Proc)
  | sysPipe (p : Proc)

/-- What `sys_pipe` gives back when it could not have both numbers. -/
def undo (p : Proc) (first second : Option Fd) : List Task :=
  if first.isSome ∧ second.isSome then []
  else (first.toList ++ second.toList).map (.closeFd p)

def runTask (s : Shared) (rest : List Task) : Task → Shared × List Task
  | .install p f => ((s.install p f).2, rest)
  | .installFirst p r w => ((s.install p r).2, .installSecond p w (s.install p r).1 :: rest)
  | .installSecond p w first => ((s.install p w).2, rest ++ undo p first (s.install p w).1)
  | .release f => ((s.drop f).2, if (s.drop f).1 then .finish f :: rest else rest)
  | .finish f => (s.finish f, rest)
  | .closeFd p fd =>
    match s.fds (p, fd) with
    | some f => (s.setFd p fd none, .release f :: rest)
    | none => (s, rest)

def call (s : Shared) (held : List Nat) : Call → Shared × Thread
  | .fileNew => (s.fileNew, ⟨s.next :: held, []⟩)
  | .install k p =>
    match held[k]? with
    | some f => (s, ⟨held, [.install p f]⟩)
    | none => (s, ⟨held, []⟩)
  | .get p fd =>
    match s.fds (p, fd) with
    | some f => (s.hold f, ⟨f :: held, []⟩)
    | none => (s, ⟨held, []⟩)
  | .use k =>
    match held[k]? with
    | some f => (s.touch f, ⟨held, []⟩)
    | none => (s, ⟨held, []⟩)
  | .release k =>
    match held[k]? with
    | some f => (s, ⟨held.eraseIdx k, [.release f]⟩)
    | none => (s, ⟨held, []⟩)
  | .close p fd => (s, ⟨held, [.closeFd p fd]⟩)
  | .closeAll p => (s, ⟨held, (List.finRange fdsMax).map (.closeFd p)⟩)
  | .sysOpen p => (s.fileNew, ⟨held, [.install p s.next, .release s.next]⟩)
  | .sysPipe p =>
    (s.fileNew.fileNew,
      ⟨held, [.installFirst p s.next (s.next + 1), .release s.next, .release (s.next + 1)]⟩)

def act (c : Call) (s : Shared) (t : Thread) : Shared × Thread :=
  match t.tasks with
  | [] => call s t.held c
  | task :: rest => ((runTask s rest task).1, ⟨t.held, (runTask s rest task).2⟩)

def descriptors : Lib.System Shared Thread Call Unit Empty where
  act := act
  start _ s := (s, ⟨[], []⟩)
  outside o _ := o.elim

def boot : Lib.World Shared Thread := ⟨.boot, []⟩

/-! ## Counting -/

/-- How many descriptors name a file. -/
def Shared.named (s : Shared) (f : Nat) : Nat := ∑ x : Place, if s.fds x = some f then 1 else 0

/-- How many references to a file a thread has been handed and not given back. -/
def Thread.references (f : Nat) (t : Thread) : Nat := t.held.count f + t.tasks.count (.release f)

/-- How many times a thread is about to close a file. -/
def Thread.closing (f : Nat) (t : Thread) : Nat := t.tasks.count (.finish f)

/-! The count of a file is what there is of it: the descriptors that name it, and the references in
threads' hands. -/

open Lib.System

variable {s s' : Shared} {p : Proc} {fd : Fd} {f g : Nat} {held : List Nat} {tasks rest : List Task}
  {t : Thread}

/-! ## Descriptors -/

theorem named_setFd (s : Shared) (p : Proc) (fd : Fd) (v : Option Nat) (f : Nat) :
    (s.setFd p fd v).named f + (if s.fds (p, fd) = some f then 1 else 0) =
      s.named f + (if v = some f then 1 else 0) := by
  let x : Place := (p, fd)
  have now := Finset.add_sum_erase Finset.univ
    (fun y : Place => if (s.setFd p fd v).fds y = some f then 1 else 0) (Finset.mem_univ x)
  have was := Finset.add_sum_erase Finset.univ
    (fun y : Place => if s.fds y = some f then 1 else 0) (Finset.mem_univ x)
  have others : ∑ y ∈ Finset.univ.erase x, (if (s.setFd p fd v).fds y = some f then 1 else 0) =
      ∑ y ∈ Finset.univ.erase x, if s.fds y = some f then 1 else 0 := by
    apply Finset.sum_congr rfl
    intro y mem
    rw [show (s.setFd p fd v).fds y = s.fds y from
      Function.update_of_ne (Finset.ne_of_mem_erase mem) ..]
  have here : (s.setFd p fd v).fds x = v := Function.update_self ..
  rw [here, others] at now
  show (s.setFd p fd v).named f + (if s.fds x = some f then 1 else 0) = _
  unfold Shared.named
  omega

/-- A file that a descriptor names is named. -/
theorem named_pos (at_ : s.fds (p, fd) = some f) : 0 < s.named f := by
  have dropped := named_setFd s p fd none f
  rw [if_pos at_, if_neg (by simp)] at dropped
  omega

/-- The number that `fd_install` finds. -/
theorem install_spec (s : Shared) (p : Proc) (f : Nat) :
    (∃ fd, s.install p f = (some fd, (s.setFd p fd (some f)).hold f) ∧ s.fds (p, fd) = none ∧
      ∀ lower < fd, s.fds (p, lower) ≠ none) ∨
    s.install p f = (none, s) ∧ ∀ fd, s.fds (p, fd) ≠ none := by
  unfold Shared.install
  cases found : (List.finRange fdsMax).find? fun fd => (s.fds (p, fd)).isNone with
  | none =>
    refine .inr ⟨rfl, fun fd none_ => ?_⟩
    rw [List.find?_eq_none] at found
    exact found fd (List.mem_finRange fd) (by rw [none_]; rfl)
  | some fd =>
    refine .inl ⟨fd, rfl, ?_, ?_⟩
    · have free := List.find?_some found
      exact Option.isNone_iff_eq_none.1 free
    · intro lower less none_
      obtain ⟨before, after, split_, occupied⟩ := (List.find?_eq_some_iff_append.1 found).2
      have sorted : (List.finRange fdsMax).Pairwise (· < ·) := List.pairwise_lt_finRange fdsMax
      have mem := List.mem_finRange lower
      rw [split_] at mem sorted
      cases List.mem_append.1 mem with
      | inl early =>
        have taken := occupied lower early
        rw [none_] at taken
        cases taken
      | inr late =>
        have above := (List.pairwise_append.1 sorted).2.1
        cases List.mem_cons.1 late with
        | inl same => exact absurd (same ▸ less) (lt_irrefl fd)
        | inr later => exact absurd (List.rel_of_pairwise_cons above later) (not_lt.2 less.le)

/-! ## Files -/

/-- A file made has references and has not been closed, or has just come to none, or has been closed
once. -/
structure Sound (s : Shared) : Prop where
  used : s.misused = false
  fresh : ∀ f, s.next ≤ f → s.refs f = 0 ∧ s.dying f = false ∧ s.closes f = 0
  made : ∀ f < s.next, (0 < s.refs f ∧ s.dying f = false ∧ s.closes f = 0) ∨
    (s.refs f = 0 ∧ s.dying f = true ∧ s.closes f = 0) ∨
    (s.refs f = 0 ∧ s.dying f = false ∧ s.closes f = 1)

namespace Sound

variable (sound : Sound s)

include sound

theorem live (some_ : 0 < s.refs f) : s.Live f := by
  by_cases made : f < s.next
  · cases sound.made f made with
    | inl live => exact ⟨made, live.2⟩
    | inr gone =>
      have zero : s.refs f = 0 := gone.elim And.left And.left
      omega
  · have zero := (sound.fresh f (Nat.le_of_not_lt made)).1
    omega

theorem touch (some_ : 0 < s.refs f) : s.touch f = s := by
  unfold Shared.touch
  rw [decide_eq_true (sound.live some_), Bool.not_true, Bool.or_false]

/-- With a reference already there, one more. -/
theorem hold (some_ : 0 < s.refs f) (room : s.refs f + 1 < u32Size) :
    Sound (s.hold f) ∧ s.hold f = { s with refs := Function.update s.refs f (s.refs f + 1) } := by
  have eq : s.hold f = { s with refs := Function.update s.refs f (s.refs f + 1) } := by
    unfold Shared.hold
    rw [sound.touch some_, Nat.mod_eq_of_lt room]
  refine ⟨?_, eq⟩
  rw [eq]
  have live := sound.live some_
  refine ⟨sound.used, ?_, ?_⟩
  · intro g new
    have other : g ≠ f := by
      rintro rfl
      exact Nat.not_le.2 live.1 new
    show Function.update s.refs f _ g = 0 ∧ _
    rw [Function.update_of_ne other]
    exact sound.fresh g new
  · intro g made
    show (0 < Function.update s.refs f _ g ∧ s.dying g = false ∧ s.closes g = 0) ∨
      (Function.update s.refs f _ g = 0 ∧ s.dying g = true ∧ s.closes g = 0) ∨
      Function.update s.refs f _ g = 0 ∧ s.dying g = false ∧ s.closes g = 1
    by_cases same : g = f
    · subst same
      rw [Function.update_self]
      exact .inl ⟨Nat.succ_pos _, live.2⟩
    · rw [Function.update_of_ne same]
      exact sound.made g made

/-- A reference given back. -/
theorem drop (some_ : 0 < s.refs f) (room : s.refs f + 1 < u32Size) :
    Sound (s.drop f).2 ∧ s.drop f = (decide (s.refs f = 1),
      { s with
        refs := Function.update s.refs f (s.refs f - 1)
        dying := Function.update s.dying f (decide (s.refs f = 1)) }) := by
  have left : (s.refs f + u32Size - 1) % u32Size = s.refs f - 1 := by
    simp only [u32Size] at *
    omega
  have last : (s.refs f - 1 = 0) = (s.refs f = 1) := propext ⟨by omega, by omega⟩
  have eq : s.drop f = (decide (s.refs f = 1),
      { s with
        refs := Function.update s.refs f (s.refs f - 1)
        dying := Function.update s.dying f (decide (s.refs f = 1)) }) := by
    unfold Shared.drop
    dsimp only
    rw [sound.touch some_, left]
    simp only [last]
  refine ⟨?_, eq⟩
  rw [eq]
  have live := sound.live some_
  refine ⟨sound.used, ?_, ?_⟩
  · intro g new
    have other : g ≠ f := by
      rintro rfl
      exact Nat.not_le.2 live.1 new
    show Function.update s.refs f _ g = 0 ∧ Function.update s.dying f _ g = false ∧ _
    rw [Function.update_of_ne other, Function.update_of_ne other]
    exact sound.fresh g new
  · intro g made
    show (0 < Function.update s.refs f _ g ∧ Function.update s.dying f _ g = false ∧ s.closes g = 0) ∨
      (Function.update s.refs f _ g = 0 ∧ Function.update s.dying f _ g = true ∧ s.closes g = 0) ∨
      Function.update s.refs f _ g = 0 ∧ Function.update s.dying f _ g = false ∧ s.closes g = 1
    by_cases same : g = f
    · subst same
      rw [Function.update_self, Function.update_self]
      by_cases one : s.refs g = 1
      · exact .inr (.inl ⟨by omega, decide_eq_true one, live.2.2⟩)
      · exact .inl ⟨by omega, decide_eq_false one, live.2.2⟩
    · rw [Function.update_of_ne same, Function.update_of_ne same]
      exact sound.made g made

/-- A file that came to no references, closed. -/
theorem finish (dying : s.dying f = true) : Sound (s.finish f) := by
  have state : f < s.next ∧ s.refs f = 0 ∧ s.closes f = 0 := by
    by_cases made : f < s.next
    · cases sound.made f made with
      | inl live => cases live.2.1.symm.trans dying
      | inr gone =>
        cases gone with
        | inl dying => exact ⟨made, dying.1, dying.2.2⟩
        | inr closed => cases closed.2.1.symm.trans dying
    · cases (sound.fresh f (Nat.le_of_not_lt made)).2.1.symm.trans dying
  refine ⟨sound.used, ?_, ?_⟩
  · intro g new
    have other : g ≠ f := by
      rintro rfl
      exact Nat.not_le.2 state.1 new
    show s.refs g = 0 ∧ Function.update s.dying f _ g = false ∧ Function.update s.closes f _ g = 0
    rw [Function.update_of_ne other, Function.update_of_ne other]
    exact sound.fresh g new
  · intro g made
    show (0 < s.refs g ∧ Function.update s.dying f _ g = false ∧ Function.update s.closes f _ g = 0) ∨
      (s.refs g = 0 ∧ Function.update s.dying f _ g = true ∧ Function.update s.closes f _ g = 0) ∨
      s.refs g = 0 ∧ Function.update s.dying f _ g = false ∧ Function.update s.closes f _ g = 1
    by_cases same : g = f
    · subst same
      rw [Function.update_self, Function.update_self]
      exact .inr (.inr ⟨state.2.1, rfl, by omega⟩)
    · rw [Function.update_of_ne same, Function.update_of_ne same]
      exact sound.made g made

theorem fileNew : Sound s.fileNew := by
  refine ⟨sound.used, ?_, ?_⟩
  · intro g new
    have new : s.next + 1 ≤ g := new
    show Function.update s.refs s.next 1 g = 0 ∧ _
    rw [Function.update_of_ne (by omega)]
    exact sound.fresh g (by omega)
  · intro g made
    have made : g < s.next + 1 := made
    show (0 < Function.update s.refs s.next 1 g ∧ s.dying g = false ∧ s.closes g = 0) ∨
      (Function.update s.refs s.next 1 g = 0 ∧ s.dying g = true ∧ s.closes g = 0) ∨
      Function.update s.refs s.next 1 g = 0 ∧ s.dying g = false ∧ s.closes g = 1
    by_cases same : g = s.next
    · subst same
      rw [Function.update_self]
      exact .inl ⟨Nat.one_pos, (sound.fresh s.next (Nat.le_refl _)).2⟩
    · rw [Function.update_of_ne same]
      exact sound.made g (by omega)

theorem setFd (p : Proc) (fd : Fd) (v : Option Nat) : Sound (s.setFd p fd v) :=
  ⟨sound.used, sound.fresh, sound.made⟩

end Sound

end ReconOS.Vfs
