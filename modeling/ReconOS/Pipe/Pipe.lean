import ReconOS.Lib.Ring
import ReconOS.Lib.Interleave

/-! The pipe's ring: `head`, `tail` and `count` over one page of bytes. -/
namespace ReconOS.Pipe

abbrev pipeCapacity : Nat := 4096

/-- `head` is the next byte to read, `tail` the next place to write. -/
structure Buf where
  buf : Nat → UInt8
  head : Nat
  tail : Nat
  count : Nat

def Buf.blank : Buf := ⟨fun _ => 0, 0, 0, 0⟩

def ringPut (p : Buf) (byte : UInt8) : Buf :=
  { p with
    buf := Function.update p.buf p.tail byte
    tail := (p.tail + 1) % pipeCapacity
    count := p.count + 1 }

def ringTake (p : Buf) : UInt8 × Buf :=
  (p.buf p.head, { p with head := (p.head + 1) % pipeCapacity, count := p.count - 1 })

/-- `while (got < len && p->count) dst[got++] = ring_take(p)`, for the `len` still wanted. -/
def takeUpTo (p : Buf) : Nat → List UInt8 × Buf
  | 0 => ([], p)
  | len + 1 =>
    if p.count = 0 then ([], p)
    else
      let rest := takeUpTo (ringTake p).2 len
      ((ringTake p).1 :: rest.1, rest.2)

/-- `while (done < len && p->count < PIPE_CAPACITY) ring_put(p, src[done++])`, for the bytes still
to go, and how many went. -/
def putUpTo (p : Buf) : List UInt8 → Buf × Nat
  | [] => (p, 0)
  | byte :: rest =>
    if p.count < pipeCapacity then
      let next := putUpTo (ringPut p byte) rest
      (next.1, next.2 + 1)
    else (p, 0)

/-! ## What the ring holds -/

/-- `head`, `tail` and `count` say the same. -/
structure Buf.Agree (p : Buf) : Prop where
  head : p.head < pipeCapacity
  count : p.count ≤ pipeCapacity
  tail : p.tail = (p.head + p.count) % pipeCapacity

def Buf.ring (p : Buf) (h : p.Agree) : Ring UInt8 pipeCapacity := ⟨p.buf, p.head, p.count, h.count⟩

/-- What is in the ring, oldest first. -/
def Buf.contents (p : Buf) : List UInt8 :=
  (List.range p.count).map fun j => p.buf ((p.head + j) % pipeCapacity)

variable {p : Buf}

theorem Buf.contents_eq (h : p.Agree) : p.contents = (p.ring h).toList := by
  simp [Buf.contents, Ring.toList, Ring.span, Ring.nth, Buf.ring]

theorem ringPut_spec (h : p.Agree) (room : p.count < pipeCapacity) (byte : UInt8) :
    (ringPut p byte).Agree ∧ (ringPut p byte).contents = p.contents ++ [byte] := by
  have agree : (ringPut p byte).Agree := by
    refine ⟨h.head, room, ?_⟩
    show (p.tail + 1) % pipeCapacity = (p.head + (p.count + 1)) % pipeCapacity
    rw [h.tail, Nat.mod_add_mod, Nat.add_assoc]
  refine ⟨agree, ?_⟩
  have room' : (p.ring h).len < pipeCapacity := room
  have pushed : (ringPut p byte).ring agree = (p.ring h).push byte room' := by
    simp only [Buf.ring, ringPut, Ring.push, h.tail]
  rw [Buf.contents_eq agree, Buf.contents_eq h, pushed]
  exact Ring.push_toList _ _ _

theorem ringTake_spec (h : p.Agree) (some_ : 0 < p.count) :
    (ringTake p).2.Agree ∧ p.contents = (ringTake p).1 :: (ringTake p).2.contents := by
  have agree : (ringTake p).2.Agree := by
    refine ⟨Nat.mod_lt _ (by decide), Nat.le_trans (Nat.sub_le _ _) h.count, ?_⟩
    show p.tail = ((p.head + 1) % pipeCapacity + (p.count - 1)) % pipeCapacity
    rw [Nat.mod_add_mod, h.tail]
    congr 1
    omega
  refine ⟨agree, ?_⟩
  have dropped : (ringTake p).2.ring agree = (p.ring h).drop 1 := rfl
  have first : (p.ring h).nth 0 = (ringTake p).1 := by
    show p.buf ((p.head + 0) % pipeCapacity) = p.buf p.head
    rw [Nat.add_zero, Nat.mod_eq_of_lt h.head]
  obtain ⟨n, count⟩ : ∃ n, (p.ring h).len = n + 1 := ⟨p.count - 1, by simp only [Buf.ring]; omega⟩
  rw [Buf.contents_eq h, Buf.contents_eq agree, dropped, Ring.drop_toList, Ring.toList, count,
    Ring.span_succ, first, List.drop_succ_cons, List.drop_zero]

theorem takeUpTo_spec (h : p.Agree) (len : Nat) :
    (takeUpTo p len).2.Agree ∧ p.contents = (takeUpTo p len).1 ++ (takeUpTo p len).2.contents ∧
      (takeUpTo p len).1.length = min len p.count := by
  induction len generalizing p with
  | zero => exact ⟨h, rfl, by simp [takeUpTo]⟩
  | succ len ih =>
    unfold takeUpTo
    split
    · rename_i none_
      exact ⟨h, rfl, by simp [none_]⟩
    · obtain ⟨agree, split_⟩ := ringTake_spec h (by omega)
      obtain ⟨agree', rest, length⟩ := ih agree
      have fewer : (ringTake p).2.count = p.count - 1 := rfl
      refine ⟨agree', ?_, ?_⟩
      · rw [split_, rest]
        rfl
      · simp only [List.length_cons, length, fewer]
        omega

theorem putUpTo_spec (h : p.Agree) (bytes : List UInt8) :
    (putUpTo p bytes).1.Agree ∧
      (putUpTo p bytes).1.contents = p.contents ++ bytes.take (putUpTo p bytes).2 ∧
      (putUpTo p bytes).2 = min bytes.length (pipeCapacity - p.count) := by
  induction bytes generalizing p with
  | nil => exact ⟨h, by simp [putUpTo], by simp [putUpTo]⟩
  | cons byte rest ih =>
    unfold putUpTo
    split
    · rename_i room
      obtain ⟨agree, put⟩ := ringPut_spec h room byte
      obtain ⟨agree', more, length⟩ := ih agree
      have grown : (ringPut p byte).count = p.count + 1 := rfl
      refine ⟨agree', ?_, ?_⟩
      · rw [more, put]
        simp
      · simp only [List.length_cons, length, grown]
        omega
    · exact ⟨h, by simp, by simp only [List.length_cons]; omega⟩

end ReconOS.Pipe

/-! A pipe, and the descriptors that name its two ends: the calls on it, section by section. -/
namespace ReconOS.Pipe

inductive End where
  | read
  | write
  deriving DecidableEq, Repr

/-- What a call gives back. -/
inductive Result where
  | read (len : Nat) (bytes : List UInt8)
  | wrote (done : Nat)
  | again
  | brokenPipe
  | permission
  | badDescriptor
  | closed
  | duplicated
  | noDescriptor
  deriving DecidableEq, Repr

/-- The pipe, and the open file of each end: its references, and how many of them are descriptors'.
On the side: the calls made, what each write was given, the bytes accepted from writes and those
handed to reads, in order, each with its call. -/
structure Shared where
  ring : Buf
  ends : End → Nat
  refs : End → Nat
  fds : End → Nat
  freed : Bool
  calls : Nat
  source : Nat → List UInt8
  accepted : List (Nat × UInt8)
  taken : List (Nat × UInt8)

/-- As `pipe_create` and the two `fd_install`s leave it: each end open once, by one descriptor. -/
def Shared.made : Shared :=
  ⟨.blank, fun _ => 1, fun _ => 1, fun _ => 1, false, 0, fun _ => [], [], []⟩

inductive Point where
  | reading (len : Nat)
  | writing (done : Nat)
  | installing (e : End)
  /-- With a reference to give up, and an answer to go back with. -/
  | releasing (e : End) (r : Result)
  | closing (e : End) (r : Result)
  | returned (r : Result)
  deriving DecidableEq, Repr

/-- A call under way, and which one it is. -/
structure Thread where
  call : Nat
  point : Point
  deriving DecidableEq, Repr

/-- One hold of the lock in `pipe_read`, `canSleep` being what `wait_sleep` would answer. A thread
that sleeps looks again when it is next run, woken or not. -/
def pipeRead (canSleep : Bool) (s : Shared) (call len : Nat) : Shared × Point :=
  if len = 0 then (s, .releasing .read (.read 0 []))
  else if s.ring.count = 0 then
    if s.ends .write = 0 then (s, .releasing .read (.read len []))
    else if canSleep then (s, .reading len)
    else (s, .releasing .read .again)
  else
    let got := takeUpTo s.ring len
    ({ s with ring := got.2, taken := s.taken ++ got.1.map (call, ·) },
      .releasing .read (.read len got.1))

/-- `done ? (i64)done : error`. -/
def doneOr (done : Nat) (error : Result) : Result := if done = 0 then error else .wrote done

/-- The turns of the loop in one hold of the lock in `pipe_write`; `turns` bounds them. -/
def pipeWrite (canSleep : Bool) (call : Nat) : Nat → Shared → Nat → Shared × Point
  | 0, s, done => (s, .writing done)
  | turns + 1, s, done =>
    if done < (s.source call).length then
      if s.ring.count = pipeCapacity then
        if s.ends .read = 0 then (s, .releasing .write (doneOr done .brokenPipe))
        else if canSleep then (s, .writing done)
        else (s, .releasing .write (doneOr done .again))
      else if s.ends .read = 0 then (s, .releasing .write (doneOr done .brokenPipe))
      else
        let put := putUpTo s.ring ((s.source call).drop done)
        pipeWrite canSleep call turns
          { s with
            ring := put.1
            accepted := s.accepted ++ (((s.source call).drop done).take put.2).map (call, ·) }
          (done + put.2)
    else (s, .releasing .write (.wrote done))

/-- `pipe_close_read` and `pipe_close_write`. -/
def pipeClose (s : Shared) (e : End) : Shared :=
  let ends := Function.update s.ends e (s.ends e - 1)
  { s with ends := ends, freed := s.freed || (ends .read == 0 && ends .write == 0) }

/-- What a section meets: whether the thread can sleep, and whether a descriptor is free. -/
structure Around where
  canSleep : Bool
  fdFree : Bool

def advance (a : Around) (s : Shared) (call : Nat) : Point → Shared × Point
  | .reading len => pipeRead a.canSleep s call len
  | .writing done =>
    pipeWrite a.canSleep call ((s.source call).length - done + 1) s done
  | .installing e =>
    if a.fdFree then
      ({ s with
        fds := Function.update s.fds e (s.fds e + 1)
        refs := Function.update s.refs e (s.refs e + 1) }, .releasing e .duplicated)
    else (s, .releasing e .noDescriptor)
  | .releasing e r =>
    ({ s with refs := Function.update s.refs e (s.refs e - 1) },
      if s.refs e = 1 then .closing e r else .returned r)
  | .closing e r => (pipeClose s e, .returned r)
  | .returned r => (s, .returned r)

/-- One section of a call. -/
def act (a : Around) (s : Shared) (t : Thread) : Shared × Thread :=
  let next := advance a s t.call t.point
  (next.1, ⟨t.call, next.2⟩)

/-- A call on a descriptor of one of the ends. -/
inductive Entry where
  | read (e : End) (len : Nat)
  | write (e : End) (bytes : List UInt8)
  | close (e : End)
  | duplicate (e : End)

def Entry.of : Entry → End
  | .read e _ | .write e _ | .close e | .duplicate e => e

/-- What a call does under the descriptor table's lock: `fd_get` takes a reference, `fd_close` takes
the descriptor's own. -/
def enter (k : Entry) (s : Shared) : Shared × Thread :=
  let s' := { s with calls := s.calls + 1 }
  if s.fds k.of = 0 then (s', ⟨s.calls, .returned .badDescriptor⟩)
  else
    let held := { s' with refs := Function.update s.refs k.of (s.refs k.of + 1) }
    match k with
    | .read .read len => (held, ⟨s.calls, .reading len⟩)
    | .write .write bytes =>
      ({ held with source := Function.update s.source s.calls bytes }, ⟨s.calls, .writing 0⟩)
    | .read .write _ => (held, ⟨s.calls, .releasing .write .permission⟩)
    | .write .read _ => (held, ⟨s.calls, .releasing .read .permission⟩)
    | .close e =>
      ({ s' with fds := Function.update s.fds e (s.fds e - 1) }, ⟨s.calls, .releasing e .closed⟩)
    | .duplicate e => (held, ⟨s.calls, .installing e⟩)

def pipe : Lib.System Shared Thread Around Entry Empty where
  act := act
  start := enter
  outside o _ := o.elim

def made : Lib.World Shared Thread := ⟨.made, []⟩

end ReconOS.Pipe
