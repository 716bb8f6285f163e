import ReconOS.Processes.Lifecycle
import Mathlib.Data.List.Count

/-! What holds of one process, with its threads, through its life. -/
namespace ReconOS.Processes

variable {i j : Slot} {p : Process} {a : Account} {crew before after : List Thread} {th th' : Thread}
  {id : UInt32} {fd : Fin fdsMax} {code : Int}

def Phase.isLiving : Phase → Bool
  | .living => true
  | .closing _ _ | .done | .reaping _ | .gone => false

def Phase.isClosing : Phase → Bool
  | .closing _ _ => true
  | .living | .done | .reaping _ | .gone => false

def Phase.isGone : Phase → Bool
  | .gone => true
  | .living | .closing _ _ | .done | .reaping _ => false

def living (crew : List Thread) : Nat := crew.countP fun th => th.phase.isLiving

def closers (crew : List Thread) : Nat := crew.countP fun th => th.phase.isClosing

def unfreed (crew : List Thread) : Nat := crew.countP fun th => !th.phase.isGone

/-- The descriptors below `n` have been closed, each once, and the others are as they were. -/
def Closed (p : Process) (a : Account) (n : Nat) : Prop :=
  ∀ k : Fin fdsMax, if k.val < n then p.fds k = none ∧ a.closed k = (a.opened k).toList
    else p.fds k = a.opened k ∧ a.closed k = []

/-- A process in the entry `i`, what came of it, and its threads. -/
structure Good (i : Slot) (p : Process) (a : Account) (crew : List Thread) : Prop where
  used : p.state ≠ .free
  links : ∀ th ∈ crew, th.link.process = if th.phase.isLiving then p.id else 0
  threads : p.threads = living crew
  unreaped : p.unreaped = unfreed crew
  exitCode : p.exitCode = 0
  space : p.space = a.given ∧ a.released = 0
  reported : a.reported = []
  running : p.state = .running → a.ended = false ∧ (crew ≠ [] → 0 < living crew) ∧ closers crew = 0
  ended : p.state = .ended → a.ended = true ∧ crew ≠ [] ∧ living crew = 0 ∧ closers crew ≤ 1 ∧
    (closers crew = 0 → Closed p a fdsMax)
  closing : ∀ th ∈ crew, ∀ j fd, th.phase = .closing j fd → j = i ∧ Closed p a fd.val
  reaping : ∀ th ∈ crew, ∀ found, th.phase = .reaping found → found = some i

/-- A process whose entry is free again. -/
structure Gone (a : Account) (crew : List Thread) : Prop where
  ended : a.ended = true ∧ crew ≠ []
  closed : ∀ k, a.closed k = (a.opened k).toList
  crew : ∀ th ∈ crew, th.phase = .gone
  released : a.released = a.given.toList.length
  reported : ∀ code ∈ a.reported, code = firstFailure a.codes

/-! ## Counting -/

theorem living_cons : living (before ++ th :: after) =
    living (before ++ after) + th.phase.isLiving.toNat := by
  unfold living
  rw [List.countP_append, List.countP_append, List.countP_cons]
  cases th.phase.isLiving <;> simp [Nat.add_assoc]

theorem closers_cons : closers (before ++ th :: after) =
    closers (before ++ after) + th.phase.isClosing.toNat := by
  unfold closers
  rw [List.countP_append, List.countP_append, List.countP_cons]
  cases th.phase.isClosing <;> simp [Nat.add_assoc]

theorem unfreed_cons : unfreed (before ++ th :: after) =
    unfreed (before ++ after) + (!th.phase.isGone).toNat := by
  unfold unfreed
  rw [List.countP_append, List.countP_append, List.countP_cons]
  cases th.phase.isGone <;> simp [Nat.add_assoc]

theorem mem_crew (mem : th' ∈ before ++ th :: after) : th' = th ∨ th' ∈ before ++ after := by
  rw [List.mem_append, List.mem_cons] at mem
  rw [List.mem_append]
  tauto

theorem mem_rest (mem : th' ∈ before ++ after) (th : Thread) : th' ∈ before ++ th :: after := by
  rw [List.mem_append] at mem
  rw [List.mem_append, List.mem_cons]
  tauto

theorem crew_ne (before after : List Thread) (th : Thread) : before ++ th :: after ≠ [] :=
  List.append_ne_nil_of_right_ne_nil _ (List.cons_ne_nil _ _)

/-- Where nobody is left to be freed, all have been. -/
theorem all_gone (none_ : unfreed crew = 0) (th : Thread) (mem : th ∈ crew) : th.phase = .gone := by
  have gone := List.countP_eq_zero.1 none_ th mem
  cases at_ : th.phase with
  | gone => rfl
  | living => rw [at_] at gone; exact absurd rfl gone
  | closing j fd => rw [at_] at gone; exact absurd rfl gone
  | done => rw [at_] at gone; exact absurd rfl gone
  | reaping found => rw [at_] at gone; exact absurd rfl gone

theorem closers_of_gone (gone : ∀ th ∈ crew, th.phase = .gone) : closers crew = 0 := by
  refine List.countP_eq_zero.2 fun th mem => ?_
  rw [gone th mem]
  exact Bool.false_ne_true

/-! ## While it runs -/

theorem good_created (i : Slot) (id : UInt32) :
    Good i { Process.zero with state := .running, id := id } .blank [] := by
  constructor
  case used => exact ProcessState.noConfusion
  case links => exact fun th mem => absurd mem List.not_mem_nil
  case threads => rfl
  case unreaped => rfl
  case exitCode => rfl
  case space => exact ⟨rfl, rfl⟩
  case reported => rfl
  case running => exact fun _ => ⟨rfl, fun no => absurd rfl no, rfl⟩
  case ended => exact fun no => ProcessState.noConfusion no
  case closing => exact fun th mem => absurd mem List.not_mem_nil
  case reaping => exact fun th mem => absurd mem List.not_mem_nil

/-- No thread closes descriptors of a process that has not ended. -/
theorem Good.not_closing (good : Good i p a crew) (running : p.state = .running) (mem : th ∈ crew)
    (j : Slot) (fd : Fin fdsMax) : th.phase ≠ .closing j fd := by
  intro closing
  have none_ := List.countP_eq_zero.1 (good.running running).2.2 th mem
  rw [closing] at none_
  exact none_ rfl

/-- What its own threads do to a process, but for ending. -/
theorem Good.within {p' : Process} {a' : Account} (good : Good i p a crew)
    (running : p.state = .running) (same : p'.state = p.state ∧ p'.id = p.id ∧
      p'.threads = p.threads ∧ p'.unreaped = p.unreaped ∧ p'.exitCode = p.exitCode)
    (space : p'.space = a'.given ∧ a'.released = 0)
    (past : a'.ended = a.ended ∧ a'.reported = a.reported) : Good i p' a' crew := by
  obtain ⟨state, id, threads, unreaped, exitCode⟩ := same
  constructor
  case used =>
    rw [state]
    exact good.used
  case links =>
    rw [id]
    exact good.links
  case threads => exact threads.trans good.threads
  case unreaped => exact unreaped.trans good.unreaped
  case exitCode => exact exitCode.trans good.exitCode
  case space => exact space
  case reported => exact past.2.trans good.reported
  case running =>
    rw [past.1]
    exact fun _ => good.running running
  case ended =>
    intro ended
    rw [state, running] at ended
    cases ended
  case closing => exact fun th mem j fd closing => absurd closing (good.not_closing running mem j fd)
  case reaping => exact good.reaping

theorem Good.attach (good : Good i p a crew) (running : p.state = .running) :
    Good i { p with threads := p.threads + 1, unreaped := p.unreaped + 1 } a
      (crew ++ [⟨⟨p.id, p.id⟩, .living⟩]) := by
  have mems (th : Thread) (mem : th ∈ crew ++ [⟨⟨p.id, p.id⟩, .living⟩]) :
      th ∈ crew ∨ th = ⟨⟨p.id, p.id⟩, .living⟩ := by
    rw [List.mem_append, List.mem_singleton] at mem
    exact mem
  have livings : living (crew ++ [⟨⟨p.id, p.id⟩, .living⟩]) = living crew + 1 := by
    unfold living
    rw [List.countP_append]
    rfl
  have unfreeds : unfreed (crew ++ [⟨⟨p.id, p.id⟩, .living⟩]) = unfreed crew + 1 := by
    unfold unfreed
    rw [List.countP_append]
    rfl
  have closings : closers (crew ++ [⟨⟨p.id, p.id⟩, .living⟩]) = closers crew := by
    unfold closers
    rw [List.countP_append]
    rfl
  constructor
  case used => exact good.used
  case links =>
    intro th mem
    cases mems th mem with
    | inl old => exact good.links th old
    | inr new =>
      rw [new]
      rfl
  case threads =>
    rw [livings]
    exact congrArg (· + 1) good.threads
  case unreaped =>
    rw [unfreeds]
    exact congrArg (· + 1) good.unreaped
  case exitCode => exact good.exitCode
  case space => exact good.space
  case reported => exact good.reported
  case running =>
    intro _
    obtain ⟨past, _, none_⟩ := good.running running
    rw [livings, closings]
    exact ⟨past, fun _ => Nat.succ_pos _, none_⟩
  case ended =>
    intro ended
    have ended : p.state = .ended := ended
    rw [running] at ended
    cases ended
  case closing =>
    intro th mem j fd closing
    cases mems th mem with
    | inl old => exact absurd closing (good.not_closing running old j fd)
    | inr new =>
      rw [new] at closing
      cases closing
  case reaping =>
    intro th mem found reaping
    cases mems th mem with
    | inl old => exact good.reaping th old found reaping
    | inr new =>
      rw [new] at reaping
      cases reaping

/-! ## A thread that ends -/

/-- A process with a thread in it has not ended. -/
theorem Good.running_of_living (good : Good i p a (before ++ th :: after))
    (lives : th.phase = .living) : p.state = .running := by
  cases at_ : p.state with
  | running => rfl
  | free => exact absurd at_ good.used
  | ended =>
    have none_ := (good.ended at_).2.2.1
    rw [living_cons, lives] at none_
    cases none_

/-- What its last thread leaves of a process, or another. -/
def endPhase (p : Process) (i : Slot) : Phase :=
  if p.threads - 1 = 0 then .closing i firstFd else .done

def endAccount (p : Process) (a : Account) (code : Int) : Account :=
  if p.threads - 1 = 0 then
    { a with codes := a.codes ++ [code], ended := true, opened := p.fds, closed := fun _ => [] }
  else { a with codes := a.codes ++ [code] }

theorem Good.exit (good : Good i p a (before ++ th :: after)) (lives : th.phase = .living)
    (code : Int) : Good i (p.threadEnded 0) (endAccount p a code)
      (before ++ ⟨{ th.link with process := 0 }, endPhase p i⟩ :: after) := by
  have running := good.running_of_living lives
  obtain ⟨past, _, none_⟩ := good.running running
  have count : p.threads - 1 = living (before ++ after) := by
    rw [good.threads, living_cons, lives]
    rfl
  have unreaped : p.unreaped = unfreed (before ++ after) + 1 := by
    rw [good.unreaped, unfreed_cons, lives]
    rfl
  rw [closers_cons, lives] at none_
  have none_ : closers (before ++ after) = 0 := none_
  have notLiving : (endPhase p i).isLiving = false := by
    unfold endPhase
    split <;> rfl
  have notGone : (endPhase p i).isGone = false := by
    unfold endPhase
    split <;> rfl
  have livings : living (before ++ ⟨{ th.link with process := 0 }, endPhase p i⟩ :: after) =
      p.threads - 1 := by
    rw [living_cons, notLiving, count]
    rfl
  have state : (p.threadEnded 0).state = if p.threads - 1 = 0 then .ended else .running := by
    unfold Process.threadEnded
    dsimp only
    rw [running]
  constructor
  case used =>
    rw [state]
    split <;> exact ProcessState.noConfusion
  case links =>
    intro th' mem
    cases mem_crew mem with
    | inl new =>
      rw [new, notLiving]
      rfl
    | inr old => exact good.links th' (mem_rest old th)
  case threads => exact livings.symm
  case unreaped =>
    rw [unfreed_cons, notGone]
    exact unreaped
  case exitCode =>
    unfold Process.threadEnded
    dsimp only
    rw [if_pos good.exitCode]
  case space =>
    unfold endAccount
    split <;> exact good.space
  case reported =>
    unfold endAccount
    split <;> exact good.reported
  case running =>
    intro running
    rw [state] at running
    split at running
    · cases running
    · rename_i others
      unfold endAccount
      rw [if_neg others, livings, closers_cons]
      refine ⟨past, fun _ => Nat.pos_of_ne_zero others, ?_⟩
      rw [none_]
      unfold endPhase
      rw [if_neg others]
      rfl
  case ended =>
    intro ended
    rw [state] at ended
    split at ended
    swap
    · cases ended
    rename_i last
    have one : closers (before ++ ⟨{ th.link with process := 0 }, endPhase p i⟩ :: after) = 1 := by
      rw [closers_cons, none_]
      unfold endPhase
      rw [if_pos last]
      rfl
    rw [livings, one]
    unfold endAccount
    rw [if_pos last]
    exact ⟨rfl, crew_ne _ _ _, last, Nat.le_refl 1, fun no => Nat.noConfusion no⟩
  case closing =>
    intro th' mem j fd closing
    cases mem_crew mem with
    | inl new =>
      rw [new] at closing
      have closing : endPhase p i = .closing j fd := closing
      unfold endPhase at closing
      split at closing
      · rename_i last
        cases closing
        unfold endAccount
        rw [if_pos last]
        refine ⟨rfl, fun k => ?_⟩
        have none_ : ¬k.val < firstFd.val := Nat.not_lt_zero _
        rw [if_neg none_]
        exact ⟨rfl, rfl⟩
      · cases closing
    | inr old => exact absurd closing (good.not_closing running (mem_rest old th) j fd)
  case reaping =>
    intro th' mem found reaping
    cases mem_crew mem with
    | inl new =>
      rw [new] at reaping
      have reaping : endPhase p i = .reaping found := reaping
      unfold endPhase at reaping
      split at reaping <;> cases reaping
    | inr old => exact good.reaping th' (mem_rest old th) found reaping

/-! ## Its descriptors -/

/-- The descriptor `fd` of `fd_close_all`. -/
def closeAccount (p : Process) (a : Account) (fd : Fin fdsMax) : Account :=
  { a with closed := Function.update a.closed fd ((p.fds fd).toList ++ a.closed fd) }

theorem Closed.next (closed : Closed p a fd.val) :
    Closed (p.closeFd fd) (closeAccount p a fd) (fd.val + 1) := by
  intro k
  have was := closed k
  show if k.val < fd.val + 1 then Function.update p.fds fd none k = none ∧
      Function.update a.closed fd ((p.fds fd).toList ++ a.closed fd) k = (a.opened k).toList
    else Function.update p.fds fd none k = a.opened k ∧
      Function.update a.closed fd ((p.fds fd).toList ++ a.closed fd) k = []
  by_cases here : k = fd
  · rw [here, if_neg (Nat.lt_irrefl _)] at was
    rw [here, if_pos (Nat.lt_succ_self _), Function.update_self, Function.update_self, was.1, was.2,
      List.append_nil]
    exact ⟨rfl, rfl⟩
  · rw [Function.update_of_ne here, Function.update_of_ne here]
    have other : k.val ≠ fd.val := fun same => here (Fin.ext same)
    by_cases less : k.val < fd.val
    · rw [if_pos less] at was
      rw [if_pos (by omega)]
      exact was
    · rw [if_neg less] at was
      rw [if_neg (by omega)]
      exact was

theorem next_living (i : Slot) (fd : Fin fdsMax) : (Phase.next i fd).isLiving = false := by
  unfold Phase.next
  split <;> rfl

theorem next_gone (i : Slot) (fd : Fin fdsMax) : (Phase.next i fd).isGone = false := by
  unfold Phase.next
  split <;> rfl

theorem Good.closeNext (good : Good i p a (before ++ th :: after)) (closes : th.phase = .closing j fd) :
    j = i ∧ Good i (p.closeFd fd) (closeAccount p a fd)
      (before ++ ⟨th.link, Phase.next j fd⟩ :: after) := by
  have mem : th ∈ before ++ th :: after := by simp
  obtain ⟨here, closed⟩ := good.closing th mem j fd closes
  have ended : p.state = .ended := by
    cases at_ : p.state with
    | ended => rfl
    | free => exact absurd at_ good.used
    | running => exact absurd closes (good.not_closing at_ mem j fd)
  obtain ⟨past, _, none_, one, _⟩ := good.ended ended
  rw [living_cons, closes] at none_
  have none_ : living (before ++ after) = 0 := none_
  rw [closers_cons, closes] at one
  have only : closers (before ++ after) = 0 := by
    have one : closers (before ++ after) + 1 ≤ 1 := one
    omega
  have others (th' : Thread) (mem : th' ∈ before ++ after) (j : Slot) (fd : Fin fdsMax) :
      th'.phase ≠ .closing j fd := by
    intro closing
    have not_ := List.countP_eq_zero.1 only th' mem
    rw [closing] at not_
    exact not_ rfl
  have livings : living (before ++ ⟨th.link, Phase.next j fd⟩ :: after) = 0 := by
    rw [living_cons, none_, next_living]
    rfl
  refine ⟨here, ?_⟩
  constructor
  case used => exact good.used
  case links =>
    intro th' mem'
    cases mem_crew mem' with
    | inl new =>
      have link := good.links th mem
      rw [closes] at link
      rw [new, next_living]
      exact link
    | inr old => exact good.links th' (mem_rest old th)
  case threads =>
    rw [livings]
    refine good.threads.trans ?_
    rw [living_cons, none_, closes]
    rfl
  case unreaped =>
    rw [unfreed_cons, next_gone]
    refine good.unreaped.trans ?_
    rw [unfreed_cons, closes]
    rfl
  case exitCode => exact good.exitCode
  case space => exact good.space
  case reported => exact good.reported
  case running =>
    intro running
    have running : p.state = .running := running
    rw [ended] at running
    cases running
  case ended =>
    intro _
    refine ⟨past, crew_ne _ _ _, livings, ?_, ?_⟩
    · rw [closers_cons, only]
      cases (Phase.next j fd).isClosing <;> decide
    · intro all
      rw [closers_cons, only] at all
      unfold Phase.next at all
      split at all
      · cases all
      · rename_i last
        have last : fd.val + 1 = fdsMax := by omega
        rw [← last]
        exact closed.next
  case closing =>
    intro th' mem' j' fd' closing
    cases mem_crew mem' with
    | inl new =>
      rw [new] at closing
      have closing : Phase.next j fd = .closing j' fd' := closing
      unfold Phase.next at closing
      split at closing
      · cases closing
        exact ⟨here, closed.next⟩
      · cases closing
    | inr old => exact absurd closing (others th' old j' fd')
  case reaping =>
    intro th' mem' found reaping
    cases mem_crew mem' with
    | inl new =>
      rw [new] at reaping
      have reaping : Phase.next j fd = .reaping found := reaping
      unfold Phase.next at reaping
      split at reaping <;> cases reaping
    | inr old => exact good.reaping th' (mem_rest old th) found reaping

/-! ## Its threads are freed -/

/-- A thread that neither is in its program nor closes descriptors goes one further. -/
theorem Good.rephase {phase : Phase} {unreaped : Nat} (good : Good i p a (before ++ th :: after))
    (was : th.phase.isLiving = false ∧ th.phase.isClosing = false)
    (now : phase.isLiving = false ∧ phase.isClosing = false)
    (found : ∀ found, phase = .reaping found → found = some i)
    (count : unreaped = unfreed (before ++ ⟨th.link, phase⟩ :: after)) :
    Good i { p with unreaped := unreaped } a (before ++ ⟨th.link, phase⟩ :: after) := by
  have mem : th ∈ before ++ th :: after := by simp
  have livings : living (before ++ ⟨th.link, phase⟩ :: after) = living (before ++ th :: after) := by
    rw [living_cons, living_cons, was.1, now.1]
  have closings : closers (before ++ ⟨th.link, phase⟩ :: after) = closers (before ++ th :: after) := by
    rw [closers_cons, closers_cons, was.2, now.2]
  constructor
  case used => exact good.used
  case links =>
    intro th' mem'
    cases mem_crew mem' with
    | inl new =>
      have link := good.links th mem
      rw [was.1] at link
      rw [new, now.1]
      exact link
    | inr old => exact good.links th' (mem_rest old th)
  case threads =>
    rw [livings]
    exact good.threads
  case unreaped => exact count
  case exitCode => exact good.exitCode
  case space => exact good.space
  case reported => exact good.reported
  case running =>
    rw [livings, closings]
    exact fun running => ⟨(good.running running).1, fun _ => (good.running running).2.1 (crew_ne _ _ _),
      (good.running running).2.2⟩
  case ended =>
    rw [livings, closings]
    exact fun ended => ⟨(good.ended ended).1, crew_ne _ _ _, (good.ended ended).2.2⟩
  case closing =>
    intro th' mem' j fd closing
    cases mem_crew mem' with
    | inl new =>
      rw [new] at closing
      have closing : phase = .closing j fd := closing
      rw [closing] at now
      cases now.2
    | inr old => exact good.closing th' (mem_rest old th) j fd closing
  case reaping =>
    intro th' mem' there reaping
    cases mem_crew mem' with
    | inl new =>
      rw [new] at reaping
      exact found there reaping
    | inr old => exact good.reaping th' (mem_rest old th) there reaping

/-- A thread whose end-of-process work is done goes on to being freed. -/
theorem Good.find (good : Good i p a (before ++ th :: after)) (done : th.phase = .done) :
    Good i p a (before ++ ⟨th.link, .reaping (some i)⟩ :: after) := by
  refine good.rephase ?_ ⟨rfl, rfl⟩ (fun found here => ?_) ?_
  · rw [done]
    exact ⟨rfl, rfl⟩
  · cases here
    rfl
  · rw [good.unreaped, unfreed_cons, unfreed_cons, done]
    rfl

/-- A process whose threads have all been freed, taken from its entry. -/
theorem Good.gone (good : Good i p a crew) (ended : p.state = .ended) (none_ : unfreed crew = 0)
    (reported : List Int) (right : ∀ code ∈ reported, code = firstFailure a.codes) :
    Gone { a with reported := reported, released := a.released + p.space.toList.length } crew := by
  obtain ⟨past, some_, _, _, closed⟩ := good.ended ended
  have gone := all_gone none_
  constructor
  case ended => exact ⟨past, some_⟩
  case closed =>
    intro k
    have all := closed (closers_of_gone gone) k
    rw [if_pos k.isLt] at all
    exact all.2
  case crew => exact gone
  case released =>
    show a.released + _ = _
    rw [good.space.1, good.space.2, Nat.zero_add]
  case reported => exact right

/-- A thread is freed: the process goes with the last, or is there yet. -/
theorem Good.reaped {found : Option Slot} (good : Good i p a (before ++ th :: after))
    (reaping : th.phase = .reaping found) :
    found = some i ∧
    ((p.threadReaped.state = .free ∧ p.state = .ended ∧
      Gone { a with released := a.released + p.space.toList.length }
        (before ++ ⟨th.link, .gone⟩ :: after)) ∨
    (p.threadReaped.state = p.state ∧
      Good i p.threadReaped a (before ++ ⟨th.link, .gone⟩ :: after))) := by
  refine ⟨good.reaping th (by simp) found reaping, ?_⟩
  have unreaped : p.unreaped - 1 = unfreed (before ++ ⟨th.link, .gone⟩ :: after) := by
    rw [good.unreaped, unfreed_cons, unfreed_cons, reaping]
    rfl
  have less : Good i { p with unreaped := p.unreaped - 1 } a (before ++ ⟨th.link, .gone⟩ :: after) := by
    refine good.rephase ?_ ⟨rfl, rfl⟩ (fun found here => by cases here) unreaped
    rw [reaping]
    exact ⟨rfl, rfl⟩
  unfold Process.threadReaped
  dsimp only
  split
  · rename_i last
    rw [unreaped] at last
    refine .inl ⟨rfl, last.2.1, less.gone last.2.1 last.1 a.reported ?_⟩
    rw [good.reported]
    exact fun code mem => absurd mem List.not_mem_nil
  · exact .inr ⟨rfl, less⟩

end ReconOS.Processes
