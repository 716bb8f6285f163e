import ReconOS.Lib.Memory
import ReconOS.Lib.Run
import ReconOS.Processes.Lifecycle

/-! Signals: recorded in the table's order, acted on when a thread returns to user mode. -/
namespace ReconOS.Signal

open ReconOS.Processes

def sigMax : Nat := 16
def sigKill : Nat := 9

def pageSize : Nat := 0x1000
def userLimit : Nat := 0x800000000000
def u64Size : Nat := 0x10000000000000000

/-- `user_range_ok`. -/
def userRangeOk (addr len : Nat) : Bool :=
  if len = 0 then true
  else
    let stop := (addr + len) % u64Size
    if stop < addr then false
    else if addr < pageSize then false
    else stop ≤ userLimit

/-! ## The interrupted context -/

/-- The registers that delivering a signal needs, and the one that a return address goes to where
it does not go on the stack. -/
structure Context where
  pc : Nat
  sp : Nat
  flags : Nat
  arg0 : Nat
  arg1 : Nat
  arg2 : Nat
  link : Nat
  deriving DecidableEq

inductive Arch where
  | x86_64
  | aarch64
  deriving DecidableEq

/-- `arch_sig_safe_flags`. -/
def Arch.safeFlags : Arch → Nat → Nat
  | .x86_64, flags => (flags &&& 0x0CD5) ||| 0x202
  | .aarch64, flags => flags &&& 0xF0000000

/-- `arch_sig_place_return`. -/
def Arch.placeReturn (m : Mem) (ctx : Context) (sp restorer : Nat) : Arch → Mem × Context × Nat
  | .x86_64 => (m.store (sp - 8) restorer, ctx, sp - 8)
  | .aarch64 => (m, { ctx with link := restorer }, sp)

def sigFrameMagic : Nat := 0x5265636F6E536967

def frameSize : Nat := 56

/-- A frame at `sp`: the context, and what says that it is one. -/
def pushFrame (m : Mem) (sp : Nat) (ctx : Context) : Mem :=
  let m := ((m.store sp ctx.pc).store (sp + 8) ctx.sp).store (sp + 16) ctx.flags
  let m := ((m.store (sp + 24) ctx.arg0).store (sp + 32) ctx.arg1).store (sp + 40) ctx.arg2
  m.store (sp + 48) sigFrameMagic

inductive Status where
  | ok
  | fault
  | perm
  deriving DecidableEq

/-- `signal_return`. -/
def signalReturn (arch : Arch) (m : Mem) (ctx : Context) : Status × Context :=
  let sp := ctx.sp
  if ¬userRangeOk sp frameSize then (.fault, ctx)
  else if m.load (sp + 48) ≠ sigFrameMagic then (.perm, ctx)
  else
    (.ok, { ctx with
      pc := m.load sp
      sp := m.load (sp + 8)
      flags := arch.safeFlags (m.load (sp + 16))
      arg0 := m.load (sp + 24)
      arg1 := m.load (sp + 32)
      arg2 := m.load (sp + 40) })

/-! ## Actions -/

def sigActionDefault : Nat := 0
def sigActionIgnore : Nat := 1
def sigActionHandler : Nat := 2

/-- `struct sig_action`. -/
structure SigAction where
  what : Nat
  handler : Nat
  restorer : Nat
  deriving DecidableEq

/-- Whether a signal that nothing was said about ends the process. -/
def defaultIsFatal (sig : Nat) : Bool := sig ∈ [1, 2, 3, 4, 6, 8, 9, 11, 13, 14, 15]

/-- What is done about a signal. -/
inductive Doing where
  | default
  | ignore
  | handler (handler restorer : Nat)
  deriving DecidableEq

/-- What `signal_on_return` takes an action to mean. -/
def SigAction.doing (a : SigAction) : Doing :=
  if a.what = sigActionDefault then .default
  else if a.what = sigActionIgnore then .ignore
  else .handler a.handler a.restorer

/-- The context that a handler is entered in, and memory with the frame; none, where there is no
room for one on the stack. -/
def enterHandler (arch : Arch) (m : Mem) (ctx : Context) (sig handler restorer : Nat) :
    Option (Mem × Context) :=
  if ctx.sp < frameSize + 256 then none
  else
    let sp := (ctx.sp - frameSize) / 16 * 16
    if ¬userRangeOk sp frameSize then none
    else
      let (m, ctx, sp) := arch.placeReturn (pushFrame m sp ctx) ctx sp restorer
      some (m, { ctx with sp := sp, pc := handler, arg0 := sig })

/-! ## The tables -/

/-- A thread: what the process table knows it by, and what signals look at. -/
structure Thread where
  link : Link
  mask : BitVec 32
  restoring : Bool
  deriving DecidableEq

/-- What happened to a signal: who is meant goes by number. -/
inductive Event where
  | created (id : UInt32)
  | sent (id : UInt32) (sig : Nat)
  | set (id : UInt32) (sig : Nat) (what : Doing)
  | taken (id : UInt32) (sig : Nat) (what : Doing)
  deriving DecidableEq

/-- The process table, the two tables that go by a position in it, and the threads. On the side:
what happened, the latest first, and the contexts that were made for a return to user mode. -/
structure State where
  table : Table
  actions : Nat → Nat → SigAction
  pending : Nat → BitVec 32
  threads : List Thread
  history : List Event
  placed : List Context

namespace State

variable (s : State)

def boot : State := ⟨.boot, fun _ _ => ⟨0, 0, 0⟩, fun _ => 0, [], [], []⟩

/-- `slot_of`; nothing for `PROCESS_MAX`. -/
def slotOf (id : UInt32) : Option Nat :=
  (List.range processMax).find? fun n => (s.table.processAt n).any fun i => (s.table.procs i).id = id

/-- `signal_send`. -/
def send (id : UInt32) (sig : Nat) : Bool × State :=
  if sig = 0 ∨ sigMax ≤ sig then (false, s)
  else
    match s.slotOf id with
    | none => (false, s)
    | some n =>
      (true, { s with
        pending := Function.update s.pending n (s.pending n ||| BitVec.twoPow 32 sig)
        history := .sent id sig :: s.history })

/-- `signal_set_action`, of a thread. -/
def setAction (t : Thread) (sig what handler restorer : Nat) : Bool × State :=
  if sig = 0 ∨ sigMax ≤ sig then (false, s)
  else if sig = sigKill then (false, s)
  else
    match s.slotOf t.link.process with
    | none => (false, s)
    | some n =>
      if what = sigActionHandler ∧ (handler = 0 ∨ restorer = 0 ∨ ¬userRangeOk handler 1 ∨
          ¬userRangeOk restorer 1) then (false, s)
      else
        let a : SigAction := ⟨what, handler, restorer⟩
        (true, { s with
          actions := Function.update s.actions n (Function.update (s.actions n) sig a)
          history := .set t.link.process sig a.doing :: s.history })

/-- `next_for`, of a mask. -/
def nextFor (mask : BitVec 32) (n : Nat) : Option Nat :=
  (List.range' 1 (sigMax - 1)).find? fun sig => (s.pending n &&& ~~~mask).getLsbD sig

/-- What `signal_on_return` is going to do something about: where, which signal, and what. -/
def taking (t : Thread) : Option (Nat × Nat × Doing) :=
  match s.slotOf t.link.process with
  | none => none
  | some n =>
    match s.nextFor t.mask n with
    | none => none
    | some sig => some (n, sig, if sig = sigKill then .default else (s.actions n sig).doing)

/-- The signal is no longer pending, and something is done about it. -/
def take (t : Thread) (n sig : Nat) (what : Doing) : State :=
  { s with
    pending := Function.update s.pending n (s.pending n &&& ~~~BitVec.twoPow 32 sig)
    history := .taken t.link.process sig what :: s.history }

def setThread (k : Nat) (t : Thread) : State := { s with threads := s.threads.set k t }

/-- `process_thread_ended`, of the `k`-th thread. -/
def threadEnded (k : Nat) (t : Thread) (code : Int) : State :=
  let (_, link, table) := s.table.threadEnded t.link code
  { s.setThread k { t with link := link } with table := table }

/-- `signal_on_return`, of the `k`-th thread. -/
def onReturn (arch : Arch) (k : Nat) (t : Thread) (m : Mem) (ctx : Context) : Bool × State :=
  if t.restoring then
    let (status, ctx) := signalReturn arch m ctx
    let s := s.setThread k { t with restoring := false }
    (true, if status = .ok then { s with placed := ctx :: s.placed } else s)
  else
    match s.taking t with
    | none => (false, s)
    | some (n, sig, what) =>
      let s := s.take t n sig what
      match what with
      | .default => if ¬defaultIsFatal sig then (false, s) else (true, s.threadEnded k t 0)
      | .ignore => (false, s)
      | .handler handler restorer =>
        match enterHandler arch m ctx sig handler restorer with
        | none => (false, s)
        | some (_, ctx) => (true, { s with placed := ctx :: s.placed })

end State

/-- What can happen: a thread calls something, or the process table changes. -/
inductive Move where
  | create
  | attach (i : Slot)
  | threadEnded (k : Nat) (code : Int)
  | threadReaped (i : Slot)
  | reap (id : UInt32)
  | send (id : UInt32) (sig : Nat)
  | setAction (k sig what handler restorer : Nat)
  | setMask (k : Nat) (mask : BitVec 32)
  | sigreturn (k : Nat)
  | onReturn (k : Nat) (m : Mem) (ctx : Context)

namespace State

variable (arch : Arch) (s : State)

/-- The `k`-th thread, where there is one, does something. -/
def byThread (k : Nat) (f : Thread → State) : State :=
  match s.threads[k]? with
  | none => s
  | some t => f t

def step : Move → State
  | .create =>
    match s.table.create with
    | (none, _) => s
    | (some _, table) => { s with table := table, history := .created s.table.nextId :: s.history }
  | .attach i =>
    { s with table := (s.table.attach i).2, threads := s.threads ++ [⟨(s.table.attach i).1, 0, false⟩] }
  | .threadEnded k code => s.byThread k fun t => s.threadEnded k t code
  | .threadReaped i => { s with table := (s.table.threadReaped i).2 }
  | .reap id => { s with table := (s.table.reap id).2 }
  | .send id sig => (s.send id sig).2
  | .setAction k sig what handler restorer =>
    s.byThread k fun t => (s.setAction t sig what handler restorer).2
  | .setMask k mask =>
    s.byThread k fun t => s.setThread k { t with mask := mask &&& ~~~BitVec.twoPow 32 sigKill }
  | .sigreturn k => s.byThread k fun t => s.setThread k { t with restoring := true }
  | .onReturn k m ctx => s.byThread k fun t => (s.onReturn arch k t m ctx).2

end State

end ReconOS.Signal
