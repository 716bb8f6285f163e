import Mathlib.Logic.Function.Basic
import Mathlib.Data.List.FinRange
import Mathlib.Data.UInt
import ReconOS.Lib.Run

/-! The process table: what is done to it at each hold of its lock. -/
namespace ReconOS.Processes

def processMax : Nat := 32
def fdsMax : Nat := 32

inductive ProcessState where
  | free
  | running
  | ended
  deriving DecidableEq, Repr

/-- `struct process`. A file and an address space go by a number. -/
structure Process where
  state : ProcessState
  id : UInt32
  unreaped : Nat
  statusWanted : Bool
  threads : Nat
  exitCode : Int
  space : Option Nat
  fds : Fin fdsMax → Option Nat

namespace Process

/-- A process of zeros. -/
def zero : Process := ⟨.free, 0, 0, false, 0, 0, none, fun _ => none⟩

/-- One of its threads has ended. -/
def threadEnded (p : Process) (code : Int) : Process :=
  { p with
    exitCode := if p.exitCode = 0 then code else p.exitCode
    threads := p.threads - 1
    state := if p.threads - 1 = 0 then .ended else p.state }

/-- One of its threads has been freed, and nobody is to collect it if that was the last. -/
def threadReaped (p : Process) : Process :=
  let left := p.unreaped - 1
  if left = 0 ∧ p.state = .ended ∧ ¬p.statusWanted then
    { p with unreaped := left, space := none, state := .free }
  else { p with unreaped := left }

end Process

/-- An entry of the table. -/
abbrev Slot := Fin processMax

/-- The table, and the next number. -/
structure Table where
  procs : Slot → Process
  nextId : UInt32

/-- What of a thread the table's functions look at and change. -/
structure Link where
  process : UInt32
  countedBy : UInt32
  deriving DecidableEq

namespace Table

variable (T : Table)

def boot : Table := ⟨fun _ => .zero, 1⟩

def set (i : Slot) (p : Process) : Table := { T with procs := Function.update T.procs i p }

/-- The first entry that `p` holds of. -/
def first (p : Process → Bool) : Option Slot :=
  (List.finRange processMax).find? fun i => p (T.procs i)

/-- The hold of the lock in `process_create`. -/
def create : Option Slot × Table :=
  match T.first fun p => p.state = .free with
  | none => (none, T)
  | some i =>
    (some i, { T.set i { Process.zero with state := .running, id := T.nextId } with
      nextId := T.nextId + 1 })

/-- `process_by_id`. -/
def byId (id : UInt32) : Option Slot :=
  if id = 0 then none else T.first fun p => p.state ≠ .free ∧ p.id = id

/-- `process_attach`. -/
def attach (i : Slot) : Link × Table :=
  let p := T.procs i
  (⟨p.id, p.id⟩, T.set i { p with threads := p.threads + 1, unreaped := p.unreaped + 1 })

/-- The hold of the lock in `process_thread_ended`: the process, where it has ended. -/
def threadEnded (t : Link) (code : Int) : Option Slot × Link × Table :=
  if t.process = 0 then (none, t, T)
  else
    match T.first fun p => p.state = .running ∧ p.id = t.process with
    | none => (none, { t with process := 0 }, T)
    | some i =>
      let p := (T.procs i).threadEnded code
      (if p.state = .ended then some i else none, { t with process := 0 }, T.set i p)

/-- The hold of the lock in `process_thread_reaped`, of the process found: its space, if it is to be
released. -/
def threadReaped (i : Slot) : Option Nat × Table :=
  let p := (T.procs i).threadReaped
  (if p.state = (T.procs i).state then none else (T.procs i).space, T.set i p)

/-- The hold of the lock in `process_reap`: the exit code, and the space to be released. -/
def reap (id : UInt32) : Option (Int × Option Nat) × Table :=
  match T.first fun p => p.state = .ended ∧ p.id = id with
  | none => (none, T)
  | some i =>
    let p := T.procs i
    (some (p.exitCode, p.space), T.set i { p with space := none, state := .free })

/-- `process_set_space`. -/
def setSpace (i : Slot) (space : Nat) : Table := T.set i { T.procs i with space := some space }

/-- The entries in use, in order. -/
def used : List Slot := (List.finRange processMax).filter fun i => (T.procs i).state ≠ .free

/-- `process_at`. -/
def processAt (n : Nat) : Option Slot := T.used[n]?

end Table

/-! A process from its creation to when its entry is free again: the holds of the table's lock and
the closing of its descriptors one by one, in any order that its threads come to them. -/

/-- The first of the codes that is not zero. -/
def firstFailure (codes : List Int) : Int := (codes.find? fun code => code ≠ 0).getD 0

/-- Where a thread is: in its program; at `fd_close_all`, before the descriptor `fd` of the entry
`i`; past `thread_exit`; with the reaper, that has looked its process up; or freed. -/
inductive Phase where
  | living
  | closing (i : Slot) (fd : Fin fdsMax)
  | done
  | reaping (found : Option Slot)
  | gone
  deriving DecidableEq

structure Thread where
  link : Link
  phase : Phase
  deriving DecidableEq

/-- What came of a process: the codes its threads passed to `SYS_EXIT`, in the order they ended, and
those that were reported of it; whether it has ended, what was open then, and what was closed of it
since; its space, and how often that was released. -/
structure Account where
  codes : List Int
  reported : List Int
  ended : Bool
  opened : Fin fdsMax → Option Nat
  closed : Fin fdsMax → List Nat
  given : Option Nat
  released : Nat

def Account.blank : Account := ⟨[], [], false, fun _ => none, fun _ => [], none, 0⟩

/-- The table and the threads; beside them what came of each process by its number, the numbers that
have been given, and the closings of a descriptor of another process. -/
structure World where
  table : Table
  threads : List Thread
  accounts : UInt32 → Account
  made : List UInt32
  strays : Nat

/-- What is done at a hold of the table's lock or to one descriptor; and the lookup of
`process_thread_reaped`, which is at none. -/
inductive Event where
  | create
  | attach (i : Slot)
  | install (i : Slot) (file : Nat)
  | close (i : Slot) (fd : Fin fdsMax)
  | setSpace (i : Slot) (space : Nat)
  | expectStatus (i : Slot)
  | exit (t : Nat) (code : Int)
  | closeNext (t : Nat)
  | find (t : Nat)
  | reaped (t : Nat)
  | collect (id : UInt32)

namespace Process

/-- `fd_install`: the lowest number that is free. -/
def install (p : Process) (file : Nat) : Process :=
  match (List.finRange fdsMax).find? fun k => (p.fds k).isNone with
  | none => p
  | some k => { p with fds := Function.update p.fds k (some file) }

/-- `fd_close`, as far as the table of descriptors goes. -/
def closeFd (p : Process) (fd : Fin fdsMax) : Process :=
  { p with fds := Function.update p.fds fd none }

end Process

def firstFd : Fin fdsMax := ⟨0, by decide⟩

/-- The next descriptor of `fd_close_all`, or its end. -/
def Phase.next (i : Slot) (fd : Fin fdsMax) : Phase :=
  if less : fd.val + 1 < fdsMax then .closing i ⟨fd.val + 1, less⟩ else .done

namespace World

variable (w : World)

def boot : World := ⟨.boot, [], fun _ => .blank, [], 0⟩

def setThread (t : Nat) (th : Thread) : World := { w with threads := w.threads.set t th }

def setAccount (id : UInt32) (a : Account) : World :=
  { w with accounts := Function.update w.accounts id a }

def setTable (T : Table) : World := { w with table := T }

/-- `process_create`, to where it opens the descriptors. -/
def create : World :=
  match w.table.create with
  | (none, _) => w
  | (some _, T) => { w with table := T, made := w.table.nextId :: w.made }

def attach (i : Slot) : World :=
  { w with
    table := (w.table.attach i).2
    threads := w.threads ++ [⟨(w.table.attach i).1, .living⟩] }

/-- Something done to a process by its own threads, or by who made it before they start. -/
def whileRunning (i : Slot) (f : Process → Process) : World :=
  if (w.table.procs i).state = .running then w.setTable (w.table.set i (f (w.table.procs i))) else w

def setSpace (i : Slot) (space : Nat) : World :=
  let p := w.table.procs i
  let a := w.accounts p.id
  if p.state = .running ∧ a.given = none then
    (w.setTable (w.table.setSpace i space)).setAccount p.id { a with given := some space }
  else w

/-- `sys_exit`, which passes its code to nobody, and `thread_exit` to the hold of the lock in
`process_thread_ended`. -/
def exit (t : Nat) (th : Thread) (code : Int) : World :=
  let a := { w.accounts th.link.countedBy with codes := (w.accounts th.link.countedBy).codes ++ [code] }
  match w.table.threadEnded th.link 0 with
  | (none, link, T) =>
    ((w.setTable T).setThread t ⟨link, .done⟩).setAccount th.link.countedBy a
  | (some i, link, T) =>
    ((w.setTable T).setThread t ⟨link, .closing i firstFd⟩).setAccount th.link.countedBy
      { a with ended := true, opened := (w.table.procs i).fds, closed := fun _ => [] }

/-- One `fd_close` of `fd_close_all`. -/
def closeNext (t : Nat) (th : Thread) (i : Slot) (fd : Fin fdsMax) : World :=
  let p := w.table.procs i
  let a := w.accounts p.id
  let closed := Function.update a.closed fd ((p.fds fd).toList ++ a.closed fd)
  let strays := if p.id = th.link.countedBy then w.strays else w.strays + (p.fds fd).toList.length
  { ((w.setTable (w.table.set i (p.closeFd fd))).setThread t ⟨th.link, Phase.next i fd⟩).setAccount
      p.id { a with closed := closed } with
    strays := strays }

/-- The rest of `process_thread_reaped`, with `addrspace_release` of what may be no space. -/
def reaped (t : Nat) (th : Thread) : Option Slot → World
  | none => w.setThread t ⟨th.link, .gone⟩
  | some i =>
    let a := w.accounts (w.table.procs i).id
    ((w.setTable (w.table.threadReaped i).2).setThread t ⟨th.link, .gone⟩).setAccount
      (w.table.procs i).id
      { a with released := a.released + (w.table.threadReaped i).1.toList.length }

/-- `process_reap`. -/
def collect (id : UInt32) : World :=
  match w.table.reap id with
  | (none, _) => w
  | (some (code, space), T) =>
    let a := w.accounts id
    (w.setTable T).setAccount id
      { a with reported := a.reported ++ [code], released := a.released + space.toList.length }

def step : Event → World
  | .create => w.create
  | .attach i => w.attach i
  | .install i file => w.whileRunning i fun p => p.install file
  | .close i fd => w.whileRunning i fun p => p.closeFd fd
  | .setSpace i space => w.setSpace i space
  | .expectStatus i => w.whileRunning i fun p => { p with statusWanted := true }
  | .exit t code =>
    match w.threads[t]? with
    | none => w
    | some th => if th.phase = .living then w.exit t th code else w
  | .closeNext t =>
    match w.threads[t]? with
    | none => w
    | some th =>
      match th.phase with
      | .closing i fd => w.closeNext t th i fd
      | .living | .done | .reaping _ | .gone => w
  | .find t =>
    match w.threads[t]? with
    | none => w
    | some th =>
      match th.phase with
      | .closing _ _ | .done => w.setThread t ⟨th.link, .reaping (w.table.byId th.link.countedBy)⟩
      | .living | .reaping _ | .gone => w
  | .reaped t =>
    match w.threads[t]? with
    | none => w
    | some th =>
      match th.phase with
      | .reaping found => w.reaped t th found
      | .living | .closing _ _ | .done | .gone => w
  | .collect id => w.collect id

/-- The condition: numbers are not given twice; a thread is attached to a process that has not
ended, and freed when its end-of-process work is done; and a process is collected when all its
threads have been freed, none of which passed a code other than zero to `SYS_EXIT`. -/
def Fair : Event → Prop
  | .create => w.table.nextId ≠ 0 ∧ w.table.nextId ∉ w.made
  | .attach i => (w.table.procs i).state = .running
  | .find t => ∀ th ∈ w.threads[t]?, ∀ i fd, th.phase ≠ .closing i fd
  | .collect id => ∀ i, (w.table.procs i).state = .ended → (w.table.procs i).id = id →
      (w.table.procs i).unreaped = 0 ∧ ∀ code ∈ (w.accounts id).codes, code = 0
  | .install .. | .close .. | .setSpace .. | .expectStatus _ | .exit .. | .closeNext _ | .reaped _ => True

instance : (e : Event) → Decidable (w.Fair e)
  | .create => inferInstanceAs (Decidable (_ ∧ _))
  | .attach i => inferInstanceAs (Decidable ((w.table.procs i).state = .running))
  | .find t =>
    inferInstanceAs (Decidable (∀ th ∈ w.threads[t]?, ∀ i fd, th.phase ≠ .closing i fd))
  | .collect id => inferInstanceAs (Decidable (∀ i, (w.table.procs i).state = .ended →
      (w.table.procs i).id = id →
      (w.table.procs i).unreaped = 0 ∧ ∀ code ∈ (w.accounts id).codes, code = 0))
  | .install .. | .close .. | .setSpace .. | .expectStatus _ | .exit .. | .closeNext _ | .reaped _ =>
    inferInstanceAs (Decidable True)

end World

end ReconOS.Processes
