import ReconOS.Vfs.Descriptors

/-! Descriptors and files agree, whichever order the threads' calls run in. -/
namespace ReconOS.Vfs

open Lib Lib.System

variable {s s' : Shared} {p : Proc} {fd : Fd} {f g : Nat} {held : List Nat} {task : Task}
  {tasks rest : List Task} {t : Thread}

/-! ## What the threads have in hand -/

/-- A reference to a file, and the right to close it. -/
inductive Token where
  | ref (f : Nat)
  | fin (f : Nat)

def inShared (s : Shared) : Token → Nat
  | .ref f => s.named f
  | .fin _ => 0

def inHand (t : Thread) : Token → Nat
  | .ref f => t.references f
  | .fin f => t.closing f

def due (s : Shared) : Token → Nat
  | .ref f => s.refs f
  | .fin f => (s.dying f).toNat

/-- The files that a task hands on a reference to. -/
def Task.needs : Task → List Nat
  | .install _ f => [f]
  | .installFirst _ r w => [r, w]
  | .installSecond _ w _ => [w]
  | .release _ | .finish _ | .closeFd _ _ => []

/-- Each task has its references, in the caller's hands or still to be released. -/
def Backed (held : List Nat) : List Task → Prop
  | [] => True
  | task :: rest => (∀ f ∈ task.needs, f ∈ held ∨ .release f ∈ rest) ∧ Backed held rest

/-- No count has reached the last that a `uint32_t` has. -/
def Room (s : Shared) : Prop := ∀ f < s.next, s.refs f + 1 < u32Size

instance (s : Shared) : Decidable (Room s) := inferInstanceAs (Decidable (∀ f < s.next, _))

/-- A file come to no references is closed by the next thing that the thread does. -/
def Prompt (tasks : List Task) : Prop := ∀ f, .finish f ∉ tasks.tail

theorem references_cons (held : List Nat) (task : Task) (rest : List Task) (f : Nat) :
    Thread.references f ⟨held, task :: rest⟩ =
      Thread.references f ⟨held, rest⟩ + if task = .release f then 1 else 0 := by
  simp only [Thread.references, List.count_cons, beq_iff_eq]
  omega

theorem closing_cons (held : List Nat) (task : Task) (rest : List Task) (f : Nat) :
    Thread.closing f ⟨held, task :: rest⟩ =
      Thread.closing f ⟨held, rest⟩ + if task = .finish f then 1 else 0 := by
  simp only [Thread.closing, List.count_cons, beq_iff_eq]

/-- Closing descriptors takes no reference, and gives none back until it has found one. -/
def Quiet (tasks : List Task) : Prop := ∀ task ∈ tasks, ∃ p fd, task = .closeFd p fd

theorem Quiet.counts (quiet : Quiet tasks) :
    (∀ f, tasks.count (.release f) = 0) ∧ ∀ f, tasks.count (.finish f) = 0 := by
  constructor
  · intro f
    apply List.count_eq_zero.2
    intro mem
    obtain ⟨p, fd, eq⟩ := quiet _ mem
    cases eq
  · intro f
    apply List.count_eq_zero.2
    intro mem
    obtain ⟨p, fd, eq⟩ := quiet _ mem
    cases eq

theorem Quiet.backed (quiet : Quiet tasks) : Backed held tasks := by
  induction tasks with
  | nil => trivial
  | cons task rest ih =>
    obtain ⟨p, fd, rfl⟩ := quiet task (List.mem_cons_self ..)
    refine ⟨?_, ih fun other mem => quiet other (List.mem_cons_of_mem _ mem)⟩
    intro f needs
    cases needs

theorem quiet_map (p : Proc) (l : List Fd) : Quiet (l.map (.closeFd p)) := by
  intro task mem
  obtain ⟨fd, -, rfl⟩ := List.mem_map.1 mem
  exact ⟨p, fd, rfl⟩

theorem quiet_undo (p : Proc) (first second : Option Fd) : Quiet (undo p first second) := by
  unfold undo
  split
  · intro task mem
    cases mem
  · exact quiet_map p _

theorem Backed.append (backed : Backed held tasks) (quiet : Quiet rest) :
    Backed held (tasks ++ rest) := by
  induction tasks with
  | nil => exact quiet.backed
  | cons task tasks ih =>
    refine ⟨?_, ih backed.2⟩
    intro f needs
    cases backed.1 f needs with
    | inl mine => exact .inl mine
    | inr later => exact .inr (List.mem_append_left _ later)

/-- What a task needs, its thread has a reference to. -/
theorem Backed.has (backed : Backed held (task :: rest)) (needs : f ∈ task.needs) :
    0 < Thread.references f ⟨held, task :: rest⟩ := by
  unfold Thread.references
  cases backed.1 f needs with
  | inl mine =>
    have := List.count_pos_iff.2 mine
    exact Nat.add_pos_left this _
  | inr later =>
    have := List.count_pos_iff.2 (List.mem_cons_of_mem task later)
    exact Nat.add_pos_right _ this

/-! ## One section -/

/-- What a section changes in the hands of its thread, it changes in what is due. -/
def Balanced (s : Shared) (t : Thread) (s' : Shared) (t' : Thread) : Prop :=
  inShared s' + inHand t' + due s = inShared s + inHand t + due s'

theorem balanced_iff {t' : Thread} : Balanced s t s' t' ↔
    ∀ f, s'.named f + t'.references f + s.refs f = s.named f + t.references f + s'.refs f ∧
      t'.closing f + (s.dying f).toNat = t.closing f + (s'.dying f).toNat := by
  constructor
  · intro balanced f
    have ref := congrFun balanced (.ref f)
    have fin := congrFun balanced (.fin f)
    simp only [Pi.add_apply, inShared, inHand, due, Nat.zero_add] at ref fin
    exact ⟨ref, fin⟩
  · intro each
    funext x
    cases x with
    | ref f =>
      simp only [Pi.add_apply, inShared, inHand, due]
      exact (each f).1
    | fin f =>
      simp only [Pi.add_apply, inShared, inHand, due, Nat.zero_add]
      exact (each f).2

theorem named_update (s : Shared) (refs : Nat → Nat) (dying : Nat → Bool) :
    ({ s with refs, dying } : Shared).named = s.named := rfl

/-- A descriptor made names a file with the reference that it takes. -/
theorem Sound.install (sound : Sound s) (room : Room s) (some_ : 0 < s.refs f) :
    Sound (s.install p f).2 ∧ (s.install p f).2.dying = s.dying ∧
      ∀ g, (s.install p f).2.named g + s.refs g = s.named g + (s.install p f).2.refs g := by
  obtain ⟨fd, eq, free, -⟩ | ⟨eq, -⟩ := install_spec s p f
  · rw [eq]
    dsimp only
    obtain ⟨kept, holds⟩ := (sound.setFd p fd (some f)).hold some_ (room f (sound.live some_).1)
    rw [holds] at kept ⊢
    refine ⟨kept, rfl, ?_⟩
    intro g
    have named : (s.setFd p fd (some f)).named g = s.named g + if f = g then 1 else 0 := by
      have := named_setFd s p fd (some f) g
      rw [free] at this
      simpa using this
    show (s.setFd p fd (some f)).named g + s.refs g =
      s.named g + Function.update s.refs f (s.refs f + 1) g
    rw [named]
    by_cases same : f = g
    · subst same
      rw [if_pos rfl, Function.update_self]
      omega
    · rw [if_neg same, Function.update_of_ne (Ne.symm same), Nat.add_zero]
  · rw [eq]
    exact ⟨sound, rfl, fun _ => rfl⟩

theorem runTask_keeps (sound : Sound s) (room : Room s) (backed : Backed held (task :: rest))
    (within : inShared s + inHand ⟨held, task :: rest⟩ ≤ due s) :
    Sound (runTask s rest task).1 ∧ Backed held (runTask s rest task).2 ∧
      Balanced s ⟨held, task :: rest⟩ (runTask s rest task).1 ⟨held, (runTask s rest task).2⟩ := by
  have counted : ∀ f, s.named f + Thread.references f ⟨held, task :: rest⟩ ≤ s.refs f :=
    fun f => within (.ref f)
  have has : ∀ f ∈ task.needs, 0 < s.refs f := by
    intro f needs
    have := backed.has needs
    have := counted f
    omega
  rw [balanced_iff]
  cases task with
  | install p f =>
    obtain ⟨kept, dying, moved⟩ := sound.install (p := p) room (has f (List.mem_singleton.2 rfl))
    refine ⟨kept, backed.2, ?_⟩
    intro g
    rw [references_cons, closing_cons]
    simp only [runTask, dying, reduceCtorEq, if_false]
    have := moved g
    omega
  | installFirst p r w =>
    obtain ⟨kept, dying, moved⟩ := sound.install (p := p) room (has r (by simp [Task.needs]))
    refine ⟨kept, ⟨?_, backed.2⟩, ?_⟩
    · intro f needs
      rw [List.mem_singleton.1 needs]
      exact backed.1 w (by simp [Task.needs])
    · intro g
      simp only [runTask]
      rw [references_cons, closing_cons, references_cons, closing_cons]
      simp only [dying, reduceCtorEq, if_false]
      have := moved g
      refine ⟨?_, trivial⟩
      omega
  | installSecond p w first =>
    obtain ⟨kept, dying, moved⟩ := sound.install (p := p) room (has w (List.mem_singleton.2 rfl))
    have quiet := quiet_undo p first (s.install p w).1
    refine ⟨kept, backed.2.append quiet, ?_⟩
    intro g
    obtain ⟨noRelease, noFinish⟩ := quiet.counts
    rw [references_cons, closing_cons]
    simp only [runTask, dying, reduceCtorEq, if_false, Thread.references, Thread.closing,
      List.count_append, noRelease, noFinish]
    have := moved g
    refine ⟨?_, trivial⟩
    omega
  | release f =>
    have some_ : 0 < s.refs f := by
      have := counted f
      rw [references_cons, if_pos rfl] at this
      omega
    obtain ⟨kept, drops⟩ := sound.drop some_ (room f (sound.live some_).1)
    have alive := (sound.live some_).2.1
    have runs : runTask s rest (.release f) =
        ((s.drop f).2, if s.refs f = 1 then .finish f :: rest else rest) := by
      simp only [runTask, drops, decide_eq_true_eq]
    rw [runs]
    dsimp only
    rw [drops] at kept ⊢
    dsimp only at kept ⊢
    by_cases last : s.refs f = 1
    · rw [if_pos last]
      refine ⟨kept, ⟨?_, backed.2⟩, ?_⟩
      · intro g needs
        cases needs
      · intro g
        rw [named_update, references_cons, closing_cons, references_cons, closing_cons]
        by_cases same : g = f
        · subst same
          rw [Function.update_self, Function.update_self, alive, last]
          simp
          omega
        · rw [Function.update_of_ne same, Function.update_of_ne same]
          simp [Ne.symm same]
    · rw [if_neg last]
      refine ⟨kept, backed.2, ?_⟩
      intro g
      rw [named_update, references_cons, closing_cons]
      by_cases same : g = f
      · subst same
        rw [Function.update_self, Function.update_self, alive]
        simp [last]
        omega
      · rw [Function.update_of_ne same, Function.update_of_ne same]
        simp [Ne.symm same]
  | finish f =>
    have dying : s.dying f = true := by
      have one : Thread.closing f ⟨held, .finish f :: rest⟩ ≤ (s.dying f).toNat := by
        have := within (.fin f)
        simpa only [Pi.add_apply, inShared, inHand, due, Nat.zero_add] using this
      rw [closing_cons, if_pos rfl] at one
      by_contra alive
      rw [Bool.eq_false_iff.2 alive] at one
      simp at one
    refine ⟨sound.finish dying, backed.2, ?_⟩
    intro g
    rw [references_cons, closing_cons]
    refine ⟨rfl, ?_⟩
    show _ + (s.dying g).toNat = _ + _ + (Function.update s.dying f false g).toNat
    by_cases same : g = f
    · subst same
      rw [Function.update_self, dying]
      simp [runTask]
    · rw [Function.update_of_ne same]
      simp [runTask, Ne.symm same]
  | closeFd p fd =>
    simp only [runTask]
    cases at_ : s.fds (p, fd) with
    | none =>
      refine ⟨sound, backed.2, ?_⟩
      intro g
      rw [references_cons, closing_cons]
      simp
    | some f =>
      refine ⟨sound.setFd p fd none, ⟨?_, backed.2⟩, ?_⟩
      · intro g needs
        cases needs
      · intro g
        have named := named_setFd s p fd none g
        rw [at_] at named
        rw [references_cons, closing_cons, references_cons, closing_cons]
        simp only [reduceCtorEq, if_false, Nat.add_zero, Option.some.injEq,
          Task.release.injEq] at named ⊢
        refine ⟨?_, rfl⟩
        show _ + s.refs g = _ + s.refs g
        omega

theorem Sound.fileNew_refs (sound : Sound s) (g : Nat) :
    s.fileNew.refs g = s.refs g + if g = s.next then 1 else 0 := by
  show Function.update s.refs s.next 1 g = _
  by_cases same : g = s.next
  · rw [same, Function.update_self, if_pos rfl, (sound.fresh s.next (Nat.le_refl _)).1]
  · rw [Function.update_of_ne same, if_neg same, Nat.add_zero]

theorem count_erased {l : List Nat} {k : Nat} (at_k : l[k]? = some f) (g : Nat) :
    l.count g = (l.eraseIdx k).count g + if f = g then 1 else 0 := by
  obtain ⟨within, at_k⟩ := List.getElem?_eq_some_iff.1 at_k
  rw [← (List.getElem_cons_eraseIdx_perm within).count_eq g, List.count_cons, at_k]
  simp only [beq_iff_eq]

theorem call_keeps (sound : Sound s) (room : Room s) (c : Call)
    (within : inShared s + inHand ⟨held, []⟩ ≤ due s) :
    Sound (call s held c).1 ∧ Backed (call s held c).2.held (call s held c).2.tasks ∧
      Balanced s ⟨held, []⟩ (call s held c).1 (call s held c).2 := by
  have counted : ∀ f, s.named f + Thread.references f ⟨held, []⟩ ≤ s.refs f :=
    fun f => within (.ref f)
  have has : ∀ (k f : Nat), held[k]? = some f → 0 < s.refs f := by
    intro k f at_k
    have mine := List.count_pos_iff.2 (List.mem_of_getElem? at_k)
    have := counted f
    simp only [Thread.references] at this
    omega
  rw [balanced_iff]
  cases c with
  | fileNew =>
    refine ⟨sound.fileNew, trivial, ?_⟩
    intro g
    simp only [call, sound.fileNew_refs]
    refine ⟨?_, rfl⟩
    simp only [Thread.references, List.count_cons, List.count_nil, beq_iff_eq, eq_comm (a := g)]
    show s.named g + _ + _ = _
    omega
  | install k p =>
    simp only [call]
    cases at_k : held[k]? with
    | none => exact ⟨sound, trivial, fun _ => ⟨rfl, rfl⟩⟩
    | some f =>
      refine ⟨sound, ⟨?_, trivial⟩, ?_⟩
      · intro g needs
        rw [List.mem_singleton.1 needs]
        exact .inl (List.mem_of_getElem? at_k)
      · intro g
        rw [references_cons, closing_cons]
        simp
  | get p fd =>
    simp only [call]
    cases at_ : s.fds (p, fd) with
    | none => exact ⟨sound, trivial, fun _ => ⟨rfl, rfl⟩⟩
    | some f =>
      have some_ : 0 < s.refs f := by
        have := counted f
        have := named_pos at_
        omega
      obtain ⟨kept, holds⟩ := sound.hold some_ (room f (sound.live some_).1)
      dsimp only
      rw [holds] at kept ⊢
      refine ⟨kept, trivial, ?_⟩
      intro g
      refine ⟨?_, rfl⟩
      simp only [Thread.references, List.count_cons, List.count_nil, beq_iff_eq]
      show s.named g + _ + _ = s.named g + _ + Function.update s.refs f (s.refs f + 1) g
      by_cases same : f = g
      · subst same
        rw [if_pos rfl, Function.update_self]
        omega
      · rw [if_neg same, Function.update_of_ne (Ne.symm same)]
  | use k =>
    simp only [call]
    cases at_k : held[k]? with
    | none => exact ⟨sound, trivial, fun _ => ⟨rfl, rfl⟩⟩
    | some f =>
      dsimp only
      rw [sound.touch (has k f at_k)]
      exact ⟨sound, trivial, fun _ => ⟨rfl, rfl⟩⟩
  | release k =>
    simp only [call]
    cases at_k : held[k]? with
    | none => exact ⟨sound, trivial, fun _ => ⟨rfl, rfl⟩⟩
    | some f =>
      refine ⟨sound, ⟨?_, trivial⟩, ?_⟩
      · intro g needs
        cases needs
      · intro g
        rw [references_cons, closing_cons]
        simp only [Thread.references, Thread.closing, count_erased at_k g, List.count_nil,
          Task.release.injEq, reduceCtorEq, if_false]
        refine ⟨?_, trivial⟩
        omega
  | close p fd =>
    refine ⟨sound, ⟨?_, trivial⟩, ?_⟩
    · intro g needs
      cases needs
    · intro g
      simp only [call]
      rw [references_cons, closing_cons]
      simp
  | closeAll p =>
    have quiet := quiet_map p (List.finRange fdsMax)
    refine ⟨sound, quiet.backed, ?_⟩
    intro g
    obtain ⟨noRelease, noFinish⟩ := quiet.counts
    simp [call, Thread.references, Thread.closing, noRelease, noFinish]
  | sysOpen p =>
    refine ⟨sound.fileNew, ⟨?_, ?_, trivial⟩, ?_⟩
    · intro g needs
      rw [List.mem_singleton.1 needs]
      exact .inr (List.mem_singleton.2 rfl)
    · intro g needs
      cases needs
    · intro g
      simp only [call, sound.fileNew_refs]
      rw [references_cons, closing_cons, references_cons, closing_cons]
      simp only [Task.release.injEq, reduceCtorEq, if_false, eq_comm (a := g)]
      refine ⟨?_, rfl⟩
      show s.named g + _ + _ = _
      omega
  | sysPipe p =>
    refine ⟨sound.fileNew.fileNew, ⟨?_, ?_, ?_, trivial⟩, ?_⟩
    · intro g needs
      cases List.mem_cons.1 needs with
      | inl first =>
        rw [first]
        exact .inr (List.mem_cons_self ..)
      | inr second =>
        rw [List.mem_singleton.1 second]
        exact .inr (List.mem_cons_of_mem _ (List.mem_cons_self ..))
    · intro g needs
      cases needs
    · intro g needs
      cases needs
    · intro g
      have second : s.fileNew.next = s.next + 1 := rfl
      simp only [call, sound.fileNew.fileNew_refs, sound.fileNew_refs, second]
      rw [references_cons, closing_cons, references_cons, closing_cons, references_cons,
        closing_cons]
      simp only [Task.release.injEq, reduceCtorEq, if_false, eq_comm (a := g)]
      refine ⟨?_, rfl⟩
      show s.named g + _ + _ = _
      omega

theorem Quiet.prompt (quiet : Quiet tasks) : Prompt tasks := by
  intro f mem
  obtain ⟨p, fd, eq⟩ := quiet _ (List.mem_of_mem_tail mem)
  cases eq

theorem runTask_prompt (s : Shared) (prompt : Prompt (task :: rest)) :
    Prompt (runTask s rest task).2 := by
  have same : Prompt rest := fun f mem => prompt f (List.mem_of_mem_tail mem)
  cases task with
  | install p f => exact same
  | installFirst p r w => exact prompt
  | installSecond p w first =>
    intro f mem
    cases List.mem_append.1 (List.mem_of_mem_tail mem) with
    | inl rest => exact prompt f rest
    | inr back =>
      obtain ⟨p, fd, eq⟩ := quiet_undo p first (s.install p w).1 _ back
      cases eq
  | release f =>
    simp only [runTask]
    split
    · exact prompt
    · exact same
  | finish f => exact same
  | closeFd p fd =>
    simp only [runTask]
    split
    · exact prompt
    · exact same

theorem call_prompt (s : Shared) (held : List Nat) (c : Call) : Prompt (call s held c).2.tasks := by
  have nothing : Prompt [] := fun f mem => nomatch mem
  have one : ∀ task, Prompt [task] := fun _ f mem => nomatch mem
  cases c with
  | fileNew => exact nothing
  | install k p =>
    simp only [call]
    split
    · exact one _
    · exact nothing
  | get p fd =>
    simp only [call]
    split <;> exact nothing
  | use k =>
    simp only [call]
    split <;> exact nothing
  | release k =>
    simp only [call]
    split
    · exact one _
    · exact nothing
  | close p fd => exact one _
  | closeAll p => exact (quiet_map p _).prompt
  | sysOpen p =>
    intro f mem
    simp [call] at mem
  | sysPipe p =>
    intro f mem
    simp [call] at mem

theorem descriptors_keep :
    descriptors.Keeps (fun _ s _ => Room s) Sound
      (fun _ t => Backed t.held t.tasks ∧ Prompt t.tasks) inShared inHand due where
  act := by
    intro c s t room sound backed within
    obtain ⟨held, tasks⟩ := t
    cases tasks with
    | nil =>
      obtain ⟨kept, backed, balanced⟩ := call_keeps sound room c within
      exact ⟨kept, ⟨backed, call_prompt s held c⟩, balanced⟩
    | cons task rest =>
      obtain ⟨kept, backed', balanced⟩ := runTask_keeps sound room backed.1 within
      exact ⟨kept, ⟨backed', runTask_prompt s backed.2⟩, balanced⟩
  others := by
    intro _ _ _ _ _ _ _ backed _
    exact backed
  start := by
    intro _ s sound
    refine ⟨sound, ⟨trivial, fun f mem => nomatch mem⟩, ?_⟩
    have none_ : inHand ⟨[], []⟩ = 0 := by
      funext x
      cases x <;> rfl
    show inShared s + inHand ⟨[], []⟩ + due s = inShared s + due s
    rw [none_, add_zero]
  startOthers _ _ _ _ backed := backed
  outside o := o.elim
  outsideOthers o := o.elim

theorem boot_kept : Kept Sound (fun _ t => Backed t.held t.tasks ∧ Prompt t.tasks)
    inShared inHand due boot := by
  constructor
  · refine ⟨rfl, fun _ _ => ⟨rfl, rfl, rfl⟩, ?_⟩
    intro f made
    cases made
  · intro t mem
    cases mem
  · funext x
    cases x with
    | ref f => simp [total, boot, Shared.boot, inShared, due, Shared.named]
    | fin f => rfl

/-- While no file has 2 ^ 32 - 1 references, after any moves: a file's count is how many descriptors
name it and how many references to it threads have that they have not given back; a file made has
references, or has come to none and the one thread that gave back the last closes it next, or has
been closed, once; nothing was done through a file with no references, or a closed one; and
`fd_install` finds the lowest number free, unless none is. -/
theorem descriptors_agree {moves : List (Move Call Unit Empty)}
    (room : descriptors.Meets (fun _ s _ => Room s) boot moves) :
    let w := descriptors.play boot moves
    (∀ f, w.shared.refs f = w.shared.named f + (w.threads.map (Thread.references f)).sum) ∧
    (∀ f < w.shared.next,
      (0 < w.shared.refs f ∧ w.shared.closes f = 0 ∧ (w.threads.map (Thread.closing f)).sum = 0) ∨
      (w.shared.refs f = 0 ∧ w.shared.closes f = 0 ∧ (w.threads.map (Thread.closing f)).sum = 1) ∨
      w.shared.refs f = 0 ∧ w.shared.closes f = 1 ∧ (w.threads.map (Thread.closing f)).sum = 0) ∧
    (∀ t ∈ w.threads, ∀ f, 0 < t.closing f → t.tasks.head? = some (.finish f)) ∧
    w.shared.misused = false ∧
    ∀ p f, match (w.shared.install p f).1 with
      | some fd => w.shared.fds (p, fd) = none ∧ ∀ lower < fd, w.shared.fds (p, lower) ≠ none
      | none => ∀ fd, w.shared.fds (p, fd) ≠ none := by
  intro w
  have kept := descriptors_keep.play room boot_kept
  have sound : Sound w.shared := kept.shared
  have closing : ∀ f, (w.threads.map (Thread.closing f)).sum = (w.shared.dying f).toNat := by
    intro f
    have balance := congrFun kept.balance (.fin f)
    simpa [total, sum_apply, inShared, inHand, due] using balance
  refine ⟨?_, ?_, ?_, sound.used, ?_⟩
  · intro f
    have balance := congrFun kept.balance (.ref f)
    simp only [total, Pi.add_apply, sum_apply] at balance
    exact balance.symm
  · intro f made
    rw [closing f]
    obtain ⟨refs, dying, closes⟩ | ⟨refs, dying, closes⟩ | ⟨refs, dying, closes⟩ := sound.made f made
    · rw [dying]
      exact .inl ⟨refs, closes, rfl⟩
    · rw [dying]
      exact .inr (.inl ⟨refs, closes, rfl⟩)
    · rw [dying]
      exact .inr (.inr ⟨refs, closes, rfl⟩)
  · intro t mem f about
    have mem_ := List.count_pos_iff.1 about
    cases tasks : t.tasks with
    | nil =>
      rw [tasks] at mem_
      cases mem_
    | cons task rest =>
      have prompt := (kept.each t mem).2 f
      rw [tasks] at mem_ prompt
      cases List.mem_cons.1 mem_ with
      | inl first => rw [first]; rfl
      | inr later => exact absurd later prompt
  · intro p f
    obtain ⟨fd, eq, free, lowest⟩ | ⟨eq, full⟩ := install_spec w.shared p f
    · rw [eq]
      exact ⟨free, lowest⟩
    · rw [eq]
      exact full

def zeroProc : Proc := ⟨0, by decide⟩
def zeroFd : Fd := ⟨0, by decide⟩

/-- One thread opens a file, and another gets it from its descriptor. -/
def sharedFile : List (Move Call Unit Empty) :=
  [.start (), .start (), .act 0 (.sysOpen zeroProc), .act 0 .fileNew, .act 0 .fileNew,
    .act 1 (.get zeroProc zeroFd)]

/-- The first closes the descriptor; the second uses the file, and gives it back. -/
def givenBack : List (Move Call Unit Empty) :=
  [.act 0 (.close zeroProc zeroFd), .act 0 .fileNew, .act 0 .fileNew, .act 1 (.use 0),
    .act 1 (.release 0), .act 1 .fileNew, .act 1 .fileNew]

theorem descriptors_agree_closed :
    let w := descriptors.play boot sharedFile;
    let w' := descriptors.play boot (sharedFile ++ givenBack);
    (w.shared.refs 0 = 2 ∧ w.shared.named 0 = 1) ∧ w'.shared.refs 0 = 0 ∧ w'.shared.closes 0 = 1 ∧
      w'.shared.misused = false := by
  have room : descriptors.Meets (fun _ s _ => Room s) boot sharedFile := by decide +kernel
  have room' : descriptors.Meets (fun _ s _ => Room s) boot (sharedFile ++ givenBack) := by
    decide +kernel
  obtain ⟨refs, -⟩ := descriptors_agree room
  obtain ⟨-, closed, -, used, -⟩ := descriptors_agree room'
  have two : (descriptors.play boot sharedFile).shared.refs 0 = 2 := by decide +kernel
  have one : ((descriptors.play boot sharedFile).threads.map (Thread.references 0)).sum = 1 := by
    decide +kernel
  have none_ : (descriptors.play boot (sharedFile ++ givenBack)).shared.refs 0 = 0 := by
    decide +kernel
  have nobody : ((descriptors.play boot (sharedFile ++ givenBack)).threads.map
      (Thread.closing 0)).sum = 0 := by decide +kernel
  have named := refs 0
  refine ⟨⟨two, by omega⟩, none_, ?_, used⟩
  have ends := closed 0 (by decide +kernel)
  omega

/-! ## More references than are counted -/

/-- A thread makes a file, and a descriptor that names it. -/
def firstInstall : List (Move Call Unit Empty) :=
  [.start (), .act 0 .fileNew, .act 0 (.install 0 zeroProc), .act 0 .fileNew]

/-- And gets it from there, `n` times. -/
def moreGets (n : Nat) : List (Move Call Unit Empty) :=
  List.replicate n (.act 0 (.get zeroProc zeroFd))

/-- What a run of gets has made of the file. -/
structure Gotten (w : Lib.World Shared Thread) (n : Nat) : Prop where
  threads : w.threads = [⟨List.replicate n 0, []⟩]
  named : w.shared.fds (zeroProc, zeroFd) = some 0 ∧ w.shared.named 0 = 1
  refs : w.shared.refs 0 = (n + 1) % u32Size

theorem Gotten.get {w : Lib.World Shared Thread} {n : Nat} (gotten : Gotten w n) :
    Gotten (descriptors.step w (.act 0 (.get zeroProc zeroFd))) (n + 1) := by
  have played : descriptors.step w (.act 0 (.get zeroProc zeroFd)) =
      ⟨w.shared.hold 0, [⟨List.replicate (n + 1) 0, []⟩]⟩ := by
    simp only [System.step, gotten.threads, List.getElem?_cons_zero]
    show Lib.World.mk (call w.shared _ (.get zeroProc zeroFd)).1
      [(call w.shared _ (.get zeroProc zeroFd)).2] = _
    simp only [call, gotten.named.1]
    rfl
  rw [played]
  refine ⟨rfl, gotten.named, ?_⟩
  show Function.update w.shared.refs 0 ((w.shared.refs 0 + 1) % u32Size) 0 = _
  rw [Function.update_self, gotten.refs, Nat.mod_add_mod]

theorem Gotten.gets {w : Lib.World Shared Thread} {m : Nat} (n : Nat) (gotten : Gotten w m) :
    Gotten (descriptors.play w (moreGets n)) (m + n) := by
  induction n generalizing w m with
  | zero => exact gotten
  | succ n ih =>
    have rest := ih gotten.get
    rw [show m + 1 + n = m + (n + 1) by omega] at rest
    exact rest

theorem firstInstall_gotten : Gotten (descriptors.play boot firstInstall) 1 := by
  constructor <;> decide +kernel

/-- A file of which 2 ^ 32 - 1 references are out, and that one descriptor names, counts none. -/
theorem references_wrap : ¬∀ moves f, (descriptors.play boot moves).shared.refs f =
    (descriptors.play boot moves).shared.named f +
      ((descriptors.play boot moves).threads.map (Thread.references f)).sum := by
  intro always
  have gotten := firstInstall_gotten.gets (u32Size - 2)
  rw [← play_append] at gotten
  have same := always (firstInstall ++ moreGets (u32Size - 2)) 0
  rw [gotten.refs, gotten.named.2, show (1 + (u32Size - 2) + 1) % u32Size = 0 by decide] at same
  omega

end ReconOS.Vfs
