import Mathlib.Logic.Function.Basic
import ReconOS.Lib.Run

/-! Threads, processors and the ring, from one hold of the ring lock to the next. -/
namespace ReconOS.Sched

inductive State where
  | ready
  | running
  | blocked
  | finished
  deriving DecidableEq, Repr

/-- How far a thread is in `thread_exit`: at the work for its process and the queueing of the
reaper, past that, or past its last switch. -/
inductive Exit where
  | unmade
  | living
  | ending
  | ended
  | left
  deriving DecidableEq, Repr

/-- `struct thread`; and beside it whether it is on a wait queue, where it is in `thread_exit`, how
often that work came to its end, and how often the thread was freed. -/
structure Thread where
  state : State
  offCpu : Bool
  idleFor : Option Nat
  pinnedTo : Option Nat
  boot : Bool
  queued : Bool
  exit : Exit
  works : Nat
  freed : Nat
  deriving DecidableEq, Repr

/-- What `thread_create_stopped` makes, before it is anywhere. -/
def Thread.unmade : Thread := ⟨.ready, true, none, none, false, false, .unmade, 0, 0⟩

/-- Where a processor is: in its thread, between the queueing of its thread and the switch, or
between the lock and the release that follows the switch. -/
inductive Point where
  | running
  | sleeping
  | switched
  deriving DecidableEq, Repr

/-- `struct cpu_local`. -/
structure Cpu where
  current : Nat
  leaving : Option Nat
  idle : Option Nat
  point : Point
  deriving DecidableEq, Repr

/-- The threads and processors by number, the ring from the thread it is named by, and whether the
machine has stopped itself. -/
structure Machine where
  threads : Nat → Thread
  cpus : Nat → Option Cpu
  ring : List Nat
  stopped : Bool

/-! ## The ring -/

/-- `ring_insert`. -/
def ringInsert (t : Nat) : List Nat → List Nat
  | [] => [t]
  | first :: rest => first :: t :: rest

/-- `ring_remove`. -/
def ringRemove (t : Nat) : List Nat → List Nat
  | [] => []
  | first :: rest =>
    if first = t then
      match rest.getLast? with
      | none => []
      | some before => before :: rest.dropLast
    else first :: rest.erase t

/-- The others, in the order `pick_next` comes to them. -/
def others (ring : List Nat) (cur : Nat) : List Nat :=
  (ring.dropWhile (· ≠ cur)).tail ++ ring.takeWhile (· ≠ cur)

namespace Machine

variable (m : Machine)

def put (t : Nat) (th : Thread) : Machine := { m with threads := Function.update m.threads t th }

def putCpu (c : Nat) (k : Cpu) : Machine := { m with cpus := Function.update m.cpus c (some k) }

def stop : Machine := { m with stopped := true }

/-! ## Switching -/

/-- A thread that may be chosen, by the processor `me`. -/
def Willing (me t : Nat) : Prop :=
  (m.threads t).state = .ready ∧ (m.threads t).offCpu = true ∧
    ((m.threads t).idleFor = none ∨ (m.threads t).idleFor = some me) ∧
    ((m.threads t).pinnedTo = none ∨ (m.threads t).pinnedTo = some me)

instance (me t : Nat) : Decidable (m.Willing me t) := inferInstanceAs (Decidable (_ ∧ _))

/-- `pick_next`. -/
def pickNext (cur me : Nat) : Option Nat :=
  let willing := (others m.ring cur).filter fun t => decide (m.Willing me t)
  match willing.find? fun t => (m.threads t).idleFor.isNone with
  | some t => some t
  | none =>
    if (m.threads cur).state = .running then some cur
    else willing.find? fun t => (m.threads t).idleFor.isSome

/-- The idle thread that is left when nothing was picked. -/
def idleOf (k : Cpu) : Option Nat :=
  k.idle.filter fun i => decide ((m.threads i).state ≠ .finished)

/-- What is behind the work of `thread_exit` is its last switch. -/
def leave (t : Nat) : Machine :=
  if (m.threads t).exit = .ended then m.put t { m.threads t with exit := .left } else m

/-- The thread goes on without a switch, which the end of `thread_exit` does not survive. -/
def stay (c : Nat) (k : Cpu) : Machine :=
  if (m.threads k.current).exit = .left then m.stop else m.putCpu c { k with point := .running }

/-- The processor is `next`'s, and the thread it had is leaving it. -/
def turnTo (c : Nat) (k : Cpu) (next : Nat) : Machine :=
  (m.put next { m.threads next with state := .running, offCpu := false }).putCpu c
    { k with current := next, leaving := some k.current, point := .switched }

/-- `sched_switch`, as far as it holds the ring lock before the switch. -/
def schedSwitch (c : Nat) (k : Cpu) : Machine :=
  match ((m.leave k.current).pickNext k.current c).or ((m.leave k.current).idleOf k) with
  | none => m.stop
  | some next =>
    if next = k.current then (m.leave k.current).stay c k else (m.leave k.current).turnTo c k next

/-- `release_leaving`, and the thread goes on where it was. -/
def releaseLeaving (c : Nat) (k : Cpu) : Machine :=
  match k.leaving with
  | none => m.stay c k
  | some gone =>
    let th := m.threads gone
    let state := if th.state = .running then .ready else th.state
    (m.put gone { th with state := state, offCpu := true }).stay c { k with leaving := none }

/-- `wait_sleep`, before the switch; an idle thread does not. -/
def waitSleep (c : Nat) (k : Cpu) : Machine :=
  let th := m.threads k.current
  if th.idleFor ≠ none ∨ th.exit = .ended then m
  else
    (m.put k.current { th with state := .blocked, queued := true }).putCpu c
      { k with point := .sleeping }

/-- `wake`, of a thread taken from its queue. -/
def wake (t : Nat) : Machine :=
  let th := m.threads t
  if th.queued then
    m.put t { th with queued := false, state := if th.state = .blocked then .ready else th.state }
  else m

/-! ## Ending -/

/-- `thread_exit`, to where it calls `process_thread_ended`. No idle thread comes there. -/
def threadExit (t : Nat) : Machine :=
  let th := m.threads t
  if th.exit = .living ∧ th.idleFor = none then m.put t { th with state := .finished, exit := .ending }
  else m

/-- `process_thread_ended` has come back, and the reaper is queued. -/
def endWork (t : Nat) : Machine :=
  let th := m.threads t
  if th.exit = .ending then m.put t { th with exit := .ended, works := th.works + 1 } else m

/-- A thread `reap` may take. -/
def Dead (self t : Nat) : Prop :=
  (m.threads t).state = .finished ∧ (m.threads t).offCpu = true ∧ t ≠ self ∧
    (m.threads t).boot = false

instance (self t : Nat) : Decidable (m.Dead self t) := inferInstanceAs (Decidable (_ ∧ _))

/-- One round of `reap`, by the thread `self`. -/
def reap (self : Nat) : Machine :=
  match m.ring.find? fun t => decide (m.Dead self t) with
  | none => m
  | some victim =>
    { m.put victim { m.threads victim with freed := (m.threads victim).freed + 1 } with
      ring := ringRemove victim m.ring }

/-- `thread_start`, of a new thread. -/
def threadStart (t : Nat) (pinnedTo : Option Nat) : Machine :=
  if (m.threads t).exit = .unmade then
    { m.put t { Thread.unmade with pinnedTo := pinnedTo, exit := .living } with
      ring := ringInsert t m.ring }
  else m

end Machine

/-! ## Runs -/

/-- What the processors do: a tick or a yield, and what follows a thread's queueing; the release
after a switch; a thread begins to wait, is woken, ends; the reaper. -/
inductive Move where
  | start (t : Nat) (pinnedTo : Option Nat)
  | switch (c : Nat)
  | arrive (c : Nat)
  | sleep (c : Nat)
  | wake (t : Nat)
  | exit (c : Nat)
  | work (c : Nat)
  | reap (c : Nat)
  deriving DecidableEq, Repr

namespace Machine

variable (m : Machine)

/-- What a processor does where it is in its thread. -/
def within (c : Nat) (f : Cpu → Machine) : Machine :=
  match m.cpus c with
  | none => m
  | some k => if k.point = .running then f k else m

def take : Move → Machine
  | .start t pinnedTo => m.threadStart t pinnedTo
  | .switch c =>
    match m.cpus c with
    | none => m
    | some k => if k.point = .switched then m else m.schedSwitch c k
  | .arrive c =>
    match m.cpus c with
    | none => m
    | some k => if k.point = .switched then m.releaseLeaving c k else m
  | .sleep c => m.within c fun k => m.waitSleep c k
  | .wake t => m.wake t
  | .exit c => m.within c fun k => m.threadExit k.current
  | .work c => m.within c fun k => m.endWork k.current
  | .reap c => m.within c fun k => m.reap k.current

def step (move : Move) : Machine := if m.stopped then m else m.take move

/-- The thread of a processor that is at its end-of-process work. -/
def Ending (c : Nat) : Prop := ∃ k ∈ m.cpus c, (m.threads k.current).exit = .ending

instance (c : Nat) : Decidable (m.Ending c) :=
  match h : m.cpus c with
  | none => .isFalse fun ⟨k, mem, _⟩ => by rw [h] at mem; cases mem
  | some k =>
    decidable_of_iff ((m.threads k.current).exit = .ending)
      ⟨fun ending => ⟨k, h, ending⟩, fun ⟨_, mem, ending⟩ => by rw [h] at mem; cases mem; exact ending⟩

/-- No thread is preempted, and none sleeps, at its end-of-process work. -/
def Unbroken : Move → Prop
  | .switch c | .sleep c => ¬m.Ending c
  | .start .. | .arrive _ | .wake _ | .exit _ | .work _ | .reap _ => True

instance (move : Move) : Decidable (m.Unbroken move) :=
  match move with
  | .switch c | .sleep c => inferInstanceAs (Decidable ¬m.Ending c)
  | .start .. | .arrive _ | .wake _ | .exit _ | .work _ | .reap _ => inferInstanceAs (Decidable True)

end Machine

/-- A machine whose processors have just come up: each is in a thread of its own; the threads of the
ring that none is in are ready; and a processor's idle thread is in the ring, and marked as its. -/
structure Machine.Started (m : Machine) : Prop where
  going : m.stopped = false
  apart : ∀ c c' k k', m.cpus c = some k → m.cpus c' = some k' → k.current = k'.current → c = c'
  current : ∀ c k, m.cpus c = some k → k.leaving = none ∧ k.point = .running ∧ k.current ∈ m.ring ∧
    ∀ home, (m.threads k.current).idleFor = some home → home = c
  threads : ∀ t ∈ m.ring, (m.threads t).queued = false ∧ (m.threads t).exit = .living ∧
    (m.threads t).works = 0 ∧ (m.threads t).freed = 0
  on : ∀ c k, m.cpus c = some k →
    (m.threads k.current).state = .running ∧ (m.threads k.current).offCpu = false
  off : ∀ t ∈ m.ring, (∀ c k, m.cpus c = some k → k.current ≠ t) →
    (m.threads t).state = .ready ∧ (m.threads t).offCpu = true
  unmade : ∀ t, t ∉ m.ring → m.threads t = .unmade
  nodup : m.ring.Nodup
  idle : ∀ c k i, m.cpus c = some k → k.idle = some i → i ∈ m.ring ∧
    (m.threads i).idleFor = some c ∧
    ((m.threads i).pinnedTo = none ∨ (m.threads i).pinnedTo = some c)

end ReconOS.Sched
