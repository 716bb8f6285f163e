import ReconOS.Lib.Ring
import ReconOS.Net.Device

/-! One TCP connection: what it holds, the segments it sends, and what an arriving segment, the
clock and its owner do to it. -/
namespace ReconOS.Tcp

open Net

abbrev maxConnections : Nat := 16
instance : NeZero maxConnections := ⟨by decide⟩
abbrev Slot := Fin maxConnections
def bufferSize : Nat := 4096
def rtoNs : Nat := 500 * 1000000
def maxRetries : Nat := 6
def timeWaitNs : Nat := 2 * 1000000000

/-- The most a `chunk` on the stack holds, and so the most one data segment carries. -/
def chunkSize : Nat := 512

def tcpFin : U8 := 0x01
def tcpSyn : U8 := 0x02
def tcpRst : U8 := 0x04
def tcpPsh : U8 := 0x08
def tcpAck : U8 := 0x10

/-- `flags & f`, as a test. -/
def has (flags f : U8) : Bool := flags &&& f != 0

inductive State where
  | closed | listen | synSent | synReceived | established | finWait1 | finWait2 | closeWait
  | closing | lastAck | timeWait
  deriving DecidableEq, Repr

structure Segment where
  srcPort : U16
  dstPort : U16
  seq : U32
  ack : U32
  flags : U8
  window : U16
  payload : List U8
  deriving DecidableEq, Repr

/-- A segment handed to `ip_transmit`, with the addresses its checksum was made with. -/
structure Outgoing where
  src : Ipv4Addr
  dst : Ipv4Addr
  seg : Segment
  deriving DecidableEq, Repr

/-- What a call meets outside this file: the clock, the entropy pool, the page allocator (with
what the pages hold), and, for each segment it tries to send, whether there is a buffer for it. -/
structure Env where
  now : Nat
  random : Option U32
  txPage : Option (Nat → U8)
  rxPage : Option (Nat → U8)
  netbuf : Nat → Bool

/-- `struct tcp_conn`. Each buffer is kept with its head and length, and an index that is not a
slot of the table (-1 in the source) is `none`. -/
structure Conn where
  used : Bool
  state : State
  localIp : Ipv4Addr
  remoteIp : Ipv4Addr
  localPort : U16
  remotePort : U16
  sndUna : U32
  sndNxt : U32
  sndWnd : U32
  rcvNxt : U32
  tx : Ring U8 bufferSize
  rx : Ring U8 bufferSize
  retransmitAt : Nat
  retries : Nat
  timeWaitUntil : Nat
  listening : Bool
  peerClosed : Bool
  reset : Bool
  acceptOf : Option Slot
  acceptPending : Bool

/-- A slot `kmemset` has cleared: its `accept_of` names slot 0. -/
def Conn.zero : Conn where
  used := false
  state := .closed
  localIp := 0
  remoteIp := 0
  localPort := 0
  remotePort := 0
  sndUna := 0
  sndNxt := 0
  sndWnd := 0
  rcvNxt := 0
  tx := .empty fun _ => 0
  rx := .empty fun _ => 0
  retransmitAt := 0
  retries := 0
  timeWaitUntil := 0
  listening := false
  peerClosed := false
  reset := false
  acceptOf := some 0
  acceptPending := false

def freeConn (c : Conn) : Conn := if c.used then { Conn.zero with acceptOf := none } else c

/-- Sequence numbers are compared by difference. -/
def seqLe (a b : U32) : Bool := decide ((a - b).toInt ≤ 0)

def rxFree (c : Conn) : Nat := c.rx.room

/-- One segment, when there is a buffer that holds it. -/
def sendSegment (ok : Bool) (c : Conn) (flags : U8) (seq : U32) (payload : List U8) :
    List Outgoing :=
  if ok = true ∧ payload.length ≤ netBufCapacity - netHeadroom then
    [⟨c.localIp, c.remoteIp, ⟨c.localPort, c.remotePort, seq, c.rcvNxt, flags,
      BitVec.ofNat 16 (rxFree c), payload⟩⟩]
  else []

/-! ## Receiving -/

/-- What fits goes into the buffer, and only that is acknowledged. -/
def deliver (c : Conn) (data : List U8) : Conn :=
  let fit := c.rx.append data
  { c with rx := fit.1, rcvNxt := c.rcvNxt + BitVec.ofNat 32 fit.2 }

/-- The acknowledgement of a segment for a connection that carries data. -/
def onAck (c : Conn) (s : Segment) : Conn :=
  if has s.flags tcpAck then
    let c' :=
      if seqLe c.sndUna s.ack && seqLe s.ack c.sndNxt then
        let acked := (s.ack - c.sndUna).toNat
        { c with
          tx := if acked ≤ c.tx.len then c.tx.drop acked else c.tx
          sndUna := s.ack
          retries := 0 }
      else c
    { c' with sndWnd := s.window.setWidth 32 }
  else c

def onPayload (ok : Bool) (c : Conn) (s : Segment) : Conn × List Outgoing :=
  if s.payload = [] then (c, [])
  else if s.seq = c.rcvNxt then
    let c' := deliver c s.payload
    (c', sendSegment ok c' tcpAck c'.sndNxt [])
  else (c, sendSegment ok c tcpAck c.sndNxt [])

def onFin (now : Nat) (ok : Bool) (c : Conn) (s : Segment) : Conn × List Outgoing :=
  if has s.flags tcpFin = true ∧ s.seq = c.rcvNxt then
    let c' := { c with rcvNxt := c.rcvNxt + 1, peerClosed := true }
    ({ c' with
        state := if c'.state = .established then .closeWait else .timeWait
        timeWaitUntil := now + timeWaitNs },
      sendSegment ok c' tcpAck c'.sndNxt [])
  else if c.state = .finWait1 ∧ has s.flags tcpAck = true ∧ s.ack = c.sndNxt then
    ({ c with state := .finWait2 }, [])
  else (c, [])

/-- A segment for a connection in `ESTABLISHED`, `FIN_WAIT_1` or `FIN_WAIT_2`. -/
def onStream (env : Env) (c : Conn) (s : Segment) : Conn × List Outgoing :=
  let c₁ := onAck c s
  let r₂ := onPayload (env.netbuf 0) c₁ s
  let r₃ := onFin env.now (env.netbuf 1) r₂.1 s
  (r₃.1, r₂.2 ++ r₃.2)

/-- A segment without `RST`, for a connection that is not listening. -/
def arrive (env : Env) (c : Conn) (s : Segment) : Conn × List Outgoing :=
  match c.state with
  | .synSent =>
    if s.flags &&& (tcpSyn ||| tcpAck) = tcpSyn ||| tcpAck ∧ s.ack = c.sndNxt then
      let c' := { c with
        rcvNxt := s.seq + 1
        sndUna := s.ack
        sndWnd := s.window.setWidth 32
        state := .established
        retries := 0 }
      (c', sendSegment (env.netbuf 0) c' tcpAck c'.sndNxt [])
    else (c, [])
  | .synReceived =>
    if has s.flags tcpAck = true ∧ s.ack = c.sndNxt then
      ({ c with sndUna := s.ack, state := .established, acceptPending := true, retries := 0 }, [])
    else (c, [])
  | .established | .finWait1 | .finWait2 => onStream env c s
  | .lastAck => if has s.flags tcpAck = true ∧ s.ack = c.sndNxt then (freeConn c, []) else (c, [])
  | .listen | .closeWait | .closing | .timeWait | .closed => (c, [])

/-! ## Time -/

/-- How long after its `retries`-th sending a segment is sent again. -/
def backoff (retries : Nat) : Nat := rtoNs <<< (if retries < 5 then retries else 5)

/-- What a tick does to a slot; `ok` says whether a retransmission would get a buffer. -/
def tickConn (now : Nat) (ok : Bool) (c : Conn) : Conn × List Outgoing :=
  if !c.used then (c, [])
  else if c.state = .timeWait ∧ c.timeWaitUntil ≤ now then (freeConn c, [])
  else if c.tx.len ≠ 0 ∧ c.retransmitAt ≠ 0 ∧ c.retransmitAt ≤ now then
    if maxRetries ≤ c.retries then ({ c with state := .closed, reset := true }, [])
    else
      let c' := { c with retries := c.retries + 1 }
      ({ c' with retransmitAt := now + backoff c'.retries },
        sendSegment ok c' (tcpAck ||| tcpPsh) c.sndUna (c.tx.span 0 (min c.tx.len chunkSize)))
  else (c, [])

/-! ## What its owner asks -/

/-- How much of `n` newly buffered bytes goes out at once. -/
def sendNow (c : Conn) (n : Nat) : Nat :=
  if c.sndWnd ≠ 0 ∧ c.sndWnd.toNat < min n chunkSize then c.sndWnd.toNat else min n chunkSize

/-- A write on an established connection: what it buffers, what it sends, how much it took. -/
def writeConn (now : Nat) (ok : Bool) (c : Conn) (data : List U8) : Conn × List Outgoing × Nat :=
  let fit := c.tx.append data
  let n := fit.2
  let c' := { c with tx := fit.1 }
  if n ≠ 0 ∧ sendNow c n ≠ 0 then
    ({ c' with
        sndNxt := c.sndNxt + BitVec.ofNat 32 (sendNow c n)
        retransmitAt := now + rtoNs
        retries := 0 },
      sendSegment ok c' (tcpAck ||| tcpPsh) c.sndNxt (c'.tx.span (c'.tx.len - n) (sendNow c n)),
      n)
  else (c', [], n)

def readConn (c : Conn) (len : Nat) : Conn × List U8 :=
  let got := c.rx.take len
  ({ c with rx := got.2 }, got.1)

def shutdownConn (ok : Bool) (c : Conn) : Conn × List Outgoing :=
  match c.state with
  | .established =>
    ({ c with sndNxt := c.sndNxt + 1, state := .finWait1 },
      sendSegment ok c (tcpFin ||| tcpAck) c.sndNxt [])
  | .closeWait =>
    ({ c with sndNxt := c.sndNxt + 1, state := .lastAck },
      sendSegment ok c (tcpFin ||| tcpAck) c.sndNxt [])
  | .listen | .synSent => (freeConn c, [])
  | _ => (c, [])

/-! What handling a segment does to a connection, and what it keeps. -/

/-- The fields the handling of a data segment leaves alone. -/
structure Kept (c c' : Conn) : Prop where
  used : c'.used = c.used
  retransmitAt : c'.retransmitAt = c.retransmitAt
  acceptOf : c'.acceptOf = c.acceptOf
  acceptPending : c'.acceptPending = c.acceptPending
  reset : c'.reset = c.reset

theorem Kept.trans {a b c : Conn} (h : Kept a b) (k : Kept b c) : Kept a c :=
  ⟨k.used.trans h.used, k.retransmitAt.trans h.retransmitAt, k.acceptOf.trans h.acceptOf,
    k.acceptPending.trans h.acceptPending, k.reset.trans h.reset⟩

theorem onAck_kept (c : Conn) (s : Segment) : Kept c (onAck c s) ∧ (onAck c s).state = c.state := by
  unfold onAck
  split
  · dsimp only
    split <;> exact ⟨⟨rfl, rfl, rfl, rfl, rfl⟩, rfl⟩
  · exact ⟨⟨rfl, rfl, rfl, rfl, rfl⟩, rfl⟩

theorem onPayload_kept (ok : Bool) (c : Conn) (s : Segment) :
    Kept c (onPayload ok c s).1 ∧ (onPayload ok c s).1.state = c.state := by
  unfold onPayload
  split
  · exact ⟨⟨rfl, rfl, rfl, rfl, rfl⟩, rfl⟩
  · split <;> exact ⟨⟨rfl, rfl, rfl, rfl, rfl⟩, rfl⟩

/-- The states a data segment can lead to from each state it is handled in. -/
inductive Streamed : State → State → Prop where
  | stay (a : State) : Streamed a a
  | closeWait : Streamed .established .closeWait
  | finWait2 : Streamed .finWait1 .finWait2
  | timeWait (a : State) (h : a ≠ .established) : Streamed a .timeWait

theorem onFin_kept (now : Nat) (ok : Bool) (c : Conn) (s : Segment) :
    Kept c (onFin now ok c s).1 ∧ Streamed c.state (onFin now ok c s).1.state := by
  unfold onFin
  split
  · refine ⟨⟨rfl, rfl, rfl, rfl, rfl⟩, ?_⟩
    dsimp only
    split
    case isTrue h => rw [h]; exact .closeWait
    case isFalse h => exact .timeWait _ h
  · split
    case isTrue h =>
      refine ⟨⟨rfl, rfl, rfl, rfl, rfl⟩, ?_⟩
      rw [h.1]
      exact .finWait2
    case isFalse => exact ⟨⟨rfl, rfl, rfl, rfl, rfl⟩, .stay _⟩

theorem onStream_kept (env : Env) (c : Conn) (s : Segment) :
    Kept c (onStream env c s).1 ∧ Streamed c.state (onStream env c s).1.state := by
  obtain ⟨ack, ackState⟩ := onAck_kept c s
  obtain ⟨data, dataState⟩ := onPayload_kept (env.netbuf 0) (onAck c s) s
  obtain ⟨fin, finState⟩ := onFin_kept env.now (env.netbuf 1) (onPayload (env.netbuf 0) (onAck c s) s).1 s
  rw [dataState, ackState] at finState
  exact ⟨(ack.trans data).trans fin, finState⟩

/-- Everything a segment without `RST` does to a connection that is not listening. -/
inductive Arrived (env : Env) (c : Conn) (s : Segment) : Conn → List Outgoing → Prop where
  | ignored : Arrived env c s c []
  | synAck (opening : c.state = .synSent)
      (flags : s.flags &&& (tcpSyn ||| tcpAck) = tcpSyn ||| tcpAck) (covers : s.ack = c.sndNxt) :
      Arrived env c s
        { c with
          rcvNxt := s.seq + 1
          sndUna := s.ack
          sndWnd := s.window.setWidth 32
          state := .established
          retries := 0 }
        (arrive env c s).2
  | handshake (opening : c.state = .synReceived) (ack : has s.flags tcpAck = true)
      (covers : s.ack = c.sndNxt) :
      Arrived env c s
        { c with sndUna := s.ack, state := .established, acceptPending := true, retries := 0 } []
  | stream (up : c.state = .established ∨ c.state = .finWait1 ∨ c.state = .finWait2) :
      Arrived env c s (onStream env c s).1 (onStream env c s).2
  | finished (last : c.state = .lastAck) : Arrived env c s (freeConn c) []

theorem arrive_cases (env : Env) (c : Conn) (s : Segment) :
    Arrived env c s (arrive env c s).1 (arrive env c s).2 := by
  cases state : c.state with
  | synSent =>
    by_cases h : s.flags &&& (tcpSyn ||| tcpAck) = tcpSyn ||| tcpAck ∧ s.ack = c.sndNxt
    · have : Arrived env c s _ _ := .synAck state h.1 h.2
      simpa only [arrive, state, h, and_self, if_true] using this
    · simp only [arrive, state, h, if_false]
      exact .ignored
  | synReceived =>
    by_cases h : has s.flags tcpAck = true ∧ s.ack = c.sndNxt
    · have : Arrived env c s _ _ := .handshake state h.1 h.2
      simpa only [arrive, state, h, and_self, if_true] using this
    · simp only [arrive, state, h, if_false]
      exact .ignored
  | established | finWait1 | finWait2 =>
    simp only [arrive, state]
    exact .stream (by simp [state])
  | lastAck =>
    by_cases h : has s.flags tcpAck = true ∧ s.ack = c.sndNxt
    · simp only [arrive, state, h, and_self, if_true]
      exact .finished state
    · simp only [arrive, state, h, if_false]
      exact .ignored
  | listen | closeWait | closing | timeWait | closed =>
    simp only [arrive, state]
    exact .ignored

end ReconOS.Tcp
