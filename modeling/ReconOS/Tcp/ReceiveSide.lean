import ReconOS.Tcp.Conn
import ReconOS.Tcp.Table
import ReconOS.Tcp.Moves
import Mathlib.Tactic.Ring

/-! The bytes a connection receives: that what `tcp_read` hands back is the front of what the other
end sent, and what `rcv_nxt` counts. -/
namespace ReconOS.Tcp

open Net

/-- A connection that takes in data and has taken in none yet. -/
structure Receiving (irs : U32) (c : Conn) : Prop where
  used : c.used = true
  up : c.state = .established ∨ c.state = .finWait1 ∨ c.state = .finWait2
  next : c.rcvNxt = irs + 1
  empty : c.rx.len = 0
  more : c.peerClosed = false

/-- `s` carries the bytes of `stream` from offset `o` on. -/
structure Piece (irs : U32) (stream : List U8) (s : Segment) (o : Nat) : Prop where
  seq : s.seq = irs + 1 + BitVec.ofNat 32 o
  within : o + s.payload.length ≤ stream.length
  bytes : s.payload = (stream.drop o).take s.payload.length

/-! ## Runs -/

/-- What has passed over one slot: the bytes `tcp_read` handed back, and how many bytes were taken
into the receive buffer. -/
structure ReadLog where
  table : Table
  read : List U8
  accepted : Nat

def readBy (i : Slot) (e : Effect) : Call → List U8
  | .read idx _ => if idx = some i then e.bytes else []
  | _ => []

def acceptedBy (i : Slot) (t : Table) (e : Effect) : Call → Nat
  | .receive _ => (e.table i).rx.len - (t i).rx.len
  | _ => 0

def ReadLog.next (i : Slot) (l : ReadLog) (env : Env) (call : Call) : ReadLog :=
  let e := step env l.table call
  ⟨e.table, l.read ++ readBy i e call, l.accepted + acceptedBy i l.table e call⟩

def ReadLog.run (i : Slot) (l : ReadLog) : List (Env × Call) → ReadLog
  | [] => l
  | (env, call) :: rest => (l.next i env call).run i rest

/-- Every data segment that arrives for slot `i` is a piece of `stream`, at an offset that is
`near` the number of bytes accepted by then. -/
def ReadLog.Pieces (near : Nat → Nat → Prop) (irs : U32) (stream : List U8) (i : Slot)
    (l : ReadLog) : List (Env × Call) → Prop
  | [] => True
  | (env, call) :: rest =>
    (∀ p s, call = .receive p → parse p = some s → slotFor l.table p s = some i → s.payload ≠ [] →
      ∃ o, Piece irs stream s o ∧ near o l.accepted) ∧
    (l.next i env call).Pieces near irs stream i rest

/-- The numbers that stand for two offsets tell them apart: they are not a multiple of `2^32` away
from each other. -/
def Apart (o accepted : Nat) : Prop := BitVec.ofNat 32 o = BitVec.ofNat 32 accepted → o = accepted

/-! ## The invariant -/

/-- How the connection stands to what was read and accepted. -/
structure Receives (irs : U32) (stream : List U8) (l : ReadLog) (c : Conn) : Prop where
  used : c.used = true
  up : c.state = .established ∨ c.state = .finWait1 ∨ c.state = .finWait2 ∨ c.state = .closeWait ∨
    c.state = .timeWait ∨ c.state = .closed
  finished : c.peerClosed = true → c.state ≠ .established ∧ c.state ≠ .finWait1 ∧ c.state ≠ .finWait2
  whole : l.read ++ c.rx.toList = stream.take l.accepted
  within : l.accepted ≤ stream.length
  next : c.rcvNxt = irs + 1 + BitVec.ofNat 32 l.accepted + if c.peerClosed then 1 else 0

variable {irs : U32} {stream : List U8} {l : ReadLog} {c c' : Conn}

theorem Receiving.receives {t : Table} (h : Receiving irs c) : Receives irs stream ⟨t, [], 0⟩ c where
  used := h.used
  up := by rcases h.up with up | up | up <;> simp [up]
  finished := by simp [h.more]
  whole := by
    rw [List.take_zero, List.nil_append]
    exact List.eq_nil_of_length_eq_zero (by simp [h.empty])
  within := Nat.zero_le _
  next := by simp [h.next, h.more]

/-- Nothing of the receive side changed. -/
structure SameRx (c c' : Conn) : Prop where
  used : c'.used = c.used
  rx : c'.rx = c.rx
  rcvNxt : c'.rcvNxt = c.rcvNxt
  peerClosed : c'.peerClosed = c.peerClosed

theorem Receives.of_same (h : Receives irs stream l c) (same : SameRx c c')
    (up : c'.state = c.state ∨ c'.state = .finWait2 ∧ c.state = .finWait1 ∨ c'.state = .closed) :
    Receives irs stream l c' where
  used := same.used.trans h.used
  up := by
    rcases up with up | up | up
    · rw [up]; exact h.up
    · simp [up.1]
    · simp [up]
  finished := by
    intro closed
    rw [same.peerClosed] at closed
    have := h.finished closed
    rcases up with up | up | up
    · rwa [up]
    · exact absurd up.2 this.2.1
    · simp [up]
  whole := by rw [same.rx]; exact h.whole
  within := h.within
  next := by rw [same.rcvNxt, same.peerClosed]; exact h.next

theorem onAck_rx (c : Conn) (s : Segment) : SameRx c (onAck c s) := by
  unfold onAck
  split
  · dsimp only
    split <;> exact ⟨rfl, rfl, rfl, rfl⟩
  · exact ⟨rfl, rfl, rfl, rfl⟩

/-- A piece that starts where the receiver stands goes in as far as there is room. -/
theorem deliver_receives (h : Receives irs stream l c) (more : c.peerClosed = false) (s : Segment)
    (piece : Piece irs stream s l.accepted) :
    Receives irs stream { l with accepted := l.accepted + (c.rx.append s.payload).2 }
      (deliver c s.payload) := by
  obtain ⟨held, count⟩ := Ring.append_spec c.rx s.payload
  have short : (c.rx.append s.payload).2 ≤ s.payload.length := by omega
  have within := piece.within
  refine ⟨h.used, h.up, h.finished, ?whole, ?within, ?next⟩
  case whole =>
    dsimp only [deliver]
    rw [held, ← List.append_assoc, h.whole, List.take_add]
    congr 1
    rw [piece.bytes, List.take_take, ← piece.bytes, Nat.min_eq_left short]
  case within =>
    dsimp only
    omega
  case next =>
    have := h.next
    simp only [more, Bool.false_eq_true, if_false] at this
    simp only [deliver, more, Bool.false_eq_true, if_false, this, BitVec.ofNat_add]
    ring

theorem onPayload_receives (h : Receives irs stream l c) (more : c.peerClosed = false) (ok : Bool)
    (s : Segment)
    (piece : s.payload ≠ [] → ∃ o, Piece irs stream s o ∧ Apart o l.accepted) :
    Receives irs stream
      { l with accepted := l.accepted + ((onPayload ok c s).1.rx.len - c.rx.len) }
      (onPayload ok c s).1 ∧ (onPayload ok c s).1.peerClosed = false := by
  unfold onPayload
  split
  case isTrue =>
    rw [Nat.sub_self, Nat.add_zero]
    exact ⟨h, more⟩
  case isFalse some =>
    split
    case isFalse =>
      rw [Nat.sub_self, Nat.add_zero]
      exact ⟨h, more⟩
    case isTrue here =>
      obtain ⟨o, at_o, apart⟩ := piece some
      have place : o = l.accepted := by
        have := h.next
        simp only [more, Bool.false_eq_true, if_false] at this
        rw [at_o.seq, this, add_zero] at here
        exact apart (add_left_cancel here)
      subst place
      have grown : (deliver c s.payload).rx.len - c.rx.len = (c.rx.append s.payload).2 := by
        rw [show (deliver c s.payload).rx = (c.rx.append s.payload).1 from rfl, Ring.append_len]
        omega
      dsimp only
      rw [grown]
      exact ⟨deliver_receives h more s at_o, more⟩

theorem onFin_receives (h : Receives irs stream l c) (more : c.peerClosed = false) (now : Nat)
    (ok : Bool) (s : Segment) :
    Receives irs stream l (onFin now ok c s).1 ∧ (onFin now ok c s).1.rx = c.rx := by
  have next := h.next
  simp only [more, Bool.false_eq_true, if_false, add_zero] at next
  unfold onFin
  split
  case isTrue =>
    refine ⟨⟨h.used, ?_, ?_, h.whole, h.within, ?_⟩, rfl⟩
    · dsimp only
      split <;> simp
    · intro _
      dsimp only
      split <;> simp
    · simp [next]
  case isFalse =>
    split
    case isTrue wait =>
      exact ⟨h.of_same ⟨rfl, rfl, rfl, rfl⟩ (.inr (.inl ⟨rfl, wait.1⟩)), rfl⟩
    case isFalse => exact ⟨h, rfl⟩

/-- A segment for a connection that takes in data. -/
theorem onStream_receives (h : Receives irs stream l c) (env : Env) (s : Segment)
    (up : c.state = .established ∨ c.state = .finWait1 ∨ c.state = .finWait2)
    (piece : s.payload ≠ [] → ∃ o, Piece irs stream s o ∧ Apart o l.accepted) :
    Receives irs stream
      { l with accepted := l.accepted + ((onStream env c s).1.rx.len - c.rx.len) }
      (onStream env c s).1 := by
  have more : c.peerClosed = false := by
    by_contra closed
    have := h.finished (by simpa using closed)
    rcases up with up | up | up <;> simp [up] at this
  have ack := onAck_rx c s
  have acked : Receives irs stream l (onAck c s) := h.of_same ack (.inl (onAck_kept c s).2)
  obtain ⟨data, still⟩ := onPayload_receives acked (ack.peerClosed.trans more) (env.netbuf 0) s piece
  obtain ⟨fin, rx⟩ := onFin_receives data still env.now (env.netbuf 1) s
  have same : (onStream env c s).1.rx.len - c.rx.len =
      (onPayload (env.netbuf 0) (onAck c s) s).1.rx.len - (onAck c s).rx.len := by
    rw [ack.rx]
    exact congrArg (fun r => r.len - c.rx.len) rx
  rw [same]
  exact fin

/-! ## One call -/

/-- A read hands back the front of the buffer. -/
theorem read_effect {t : Table} {i : Slot} (len : Nat) (used : (t i).used = true) :
    (tcpRead t (some i) len).table i = (readConn (t i) len).1 ∧
    (tcpRead t (some i) len).bytes = (readConn (t i) len).2 := by
  have there : ¬(!(t i).used) = true := by simp [used]
  simp only [tcpRead, if_neg there]
  exact ⟨Effect.of_at _, trivial⟩

theorem read_receives (h : Receives irs stream l c) (len : Nat) :
    Receives irs stream { l with read := l.read ++ (readConn c len).2 } (readConn c len).1 := by
  obtain ⟨front, rest⟩ := Ring.take_spec c.rx len
  refine ⟨h.used, h.up, h.finished, ?_, h.within, h.next⟩
  dsimp only [readConn]
  rw [front, rest, List.append_assoc, List.take_append_drop]
  exact h.whole

theorem writeConn_rx (now : Nat) (ok : Bool) (c : Conn) (data : List U8) :
    SameRx c (writeConn now ok c data).1 ∧ (writeConn now ok c data).1.state = c.state := by
  unfold writeConn
  dsimp only
  split <;> exact ⟨⟨rfl, rfl, rfl, rfl⟩, rfl⟩

theorem acceptedBy_same {t : Table} {i : Slot} {e : Effect} (call : Call)
    (same : (e.table i).rx = (t i).rx) : acceptedBy i t e call = 0 := by
  cases call <;> simp [acceptedBy, same]

theorem Receives.accept_none (h : Receives irs stream l c) {n : Nat} (none : n = 0) :
    Receives irs stream { l with accepted := l.accepted + n } c := by
  rw [none]
  exact h

/-- A call that is neither a read of slot `i` nor one that could end its connection. -/
theorem moves_receives {env : Env} {t : Table} {i : Slot} {call : Call} {e : Effect}
    {out : List Outgoing} (m : Moves env t i call (e.table i) out)
    (h : Receives irs stream l (t i))
    (piece : ∀ p s, call = .receive p → parse p = some s → slotFor t p s = some i → s.payload ≠ [] →
      ∃ o, Piece irs stream s o ∧ Apart o l.accepted)
    (quiet : ∀ len, call ≠ .read (some i) len) (open' : call ≠ .shutdown (some i))
    (still : call ≠ .tick) :
    Receives irs stream { l with accepted := l.accepted + acceptedBy i t e call } (e.table i) := by
  have unused : ∀ b, (t i).used = b → b = true := fun b eq => eq ▸ h.used
  have kept : ∀ c, e.table i = c → SameRx (t i) c →
      (c.state = (t i).state ∨ c.state = .finWait2 ∧ (t i).state = .finWait1 ∨ c.state = .closed) →
      Receives irs stream { l with accepted := l.accepted + acceptedBy i t e call } c := by
    intro c at_c same up
    exact (h.of_same same up).accept_none (acceptedBy_same call (by rw [at_c, same.rx]))
  generalize new : e.table i = c at m
  cases m with
  | stay => exact kept _ new ⟨rfl, rfl, rfl, rfl⟩ (.inl rfl)
  | vacant _ _ was | opens _ _ _ _ _ _ _ was | listens _ _ _ _ was
  | passive _ _ _ _ _ _ was => cases unused _ was
  | accepts => exact kept _ new ⟨rfl, rfl, rfl, rfl⟩ (.inl rfl)
  | writes data =>
    obtain ⟨same, up⟩ := writeConn_rx env.now (env.netbuf 0) (t i) data
    exact kept _ new same (.inl up)
  | reads len => exact absurd rfl (quiet len)
  | shuts => exact absurd rfl open'
  | ticks => exact absurd rfl still
  | resets => exact kept _ new ⟨rfl, rfl, rfl, rfl⟩ (.inr (.inr rfl))
  | arrives p s ok found =>
    have arrived := arrive_cases env (t i) s
    generalize (arrive env (t i) s).1 = c at *
    generalize (arrive env (t i) s).2 = out at *
    have live : ∀ a, (t i).state = a → a = .established ∨ a = .finWait1 ∨ a = .finWait2 ∨
        a = .closeWait ∨ a = .timeWait ∨ a = .closed := fun a eq => eq ▸ h.up
    cases arrived with
    | ignored => exact kept _ new ⟨rfl, rfl, rfl, rfl⟩ (.inl rfl)
    | synAck state | handshake state | finished state => simpa using live _ state
    | stream up =>
      have := onStream_receives h env s up (piece p s rfl ok found)
      rw [acceptedBy, new]
      exact this

/-! ## Runs again -/

theorem readBy_other {i : Slot} {call : Call} (e : Effect) (quiet : ∀ len, call ≠ .read (some i) len) :
    readBy i e call = [] := by
  cases call with
  | read idx len =>
    have other : idx ≠ some i := fun eq => quiet len (by rw [eq])
    simp [readBy, other]
  | _ => rfl

theorem next_receives {i : Slot} (env : Env) (call : Call)
    (h : Receives irs stream l (l.table i))
    (piece : ∀ p s, call = .receive p → parse p = some s → slotFor l.table p s = some i →
      s.payload ≠ [] → ∃ o, Piece irs stream s o ∧ Apart o l.accepted)
    (open' : call ≠ .shutdown (some i)) (still : call ≠ .tick) :
    Receives irs stream (l.next i env call) ((l.next i env call).table i) := by
  by_cases quiet : ∀ len, call ≠ .read (some i) len
  · have := moves_receives (moves env l.table i call) h piece quiet open' still
    unfold ReadLog.next
    dsimp only
    rw [readBy_other _ quiet, List.append_nil]
    exact ⟨this.used, this.up, this.finished, this.whole, this.within, this.next⟩
  · simp only [ne_eq, not_forall, not_not] at quiet
    obtain ⟨len, rfl⟩ := quiet
    obtain ⟨table, bytes⟩ := read_effect (t := l.table) len h.used
    have := read_receives h len
    unfold ReadLog.next
    dsimp only [step]
    rw [table, readBy, if_pos rfl, bytes]
    exact ⟨this.used, this.up, this.finished, this.whole, this.within, this.next⟩

theorem run_receives {i : Slot} (calls : List (Env × Call)) (h : Receives irs stream l (l.table i))
    (pieces : l.Pieces Apart irs stream i calls)
    (lives : ∀ c ∈ calls, c.2 ≠ .shutdown (some i) ∧ c.2 ≠ .tick) :
    Receives irs stream (l.run i calls) ((l.run i calls).table i) := by
  induction calls generalizing l with
  | nil => exact h
  | cons c rest ih =>
    obtain ⟨open', still⟩ := lives c List.mem_cons_self
    exact ih (next_receives c.1 c.2 h pieces.1 open' still) pieces.2
      fun d mem => lives d (List.mem_cons_of_mem _ mem)

/-- From a connection that has taken in nothing yet, through segments that carry pieces of the
other end's stream in any order, and reads of any size: what was read is the front of the stream,
and `rcv_nxt` counts what was accepted, and one more exactly when the `FIN` was. -/
theorem stream_received {t : Table} {i : Slot} (h : Receiving irs (t i)) (calls : List (Env × Call))
    (pieces : ReadLog.Pieces Apart irs stream i ⟨t, [], 0⟩ calls)
    (lives : ∀ c ∈ calls, c.2 ≠ .shutdown (some i) ∧ c.2 ≠ .tick) :
    (ReadLog.run i ⟨t, [], 0⟩ calls).read <+: stream ∧
    ((ReadLog.run i ⟨t, [], 0⟩ calls).table i).rcvNxt - (irs + 1) =
      BitVec.ofNat 32 (ReadLog.run i ⟨t, [], 0⟩ calls).accepted +
      if ((ReadLog.run i ⟨t, [], 0⟩ calls).table i).peerClosed then 1 else 0 := by
  have good := run_receives calls (l := ⟨t, [], 0⟩) h.receives pieces lives
  generalize ReadLog.run i ⟨t, [], 0⟩ calls = l at *
  constructor
  · have front : l.read <+: l.read ++ (l.table i).rx.toList := List.prefix_append _ _
    rw [good.whole] at front
    exact front.trans (List.take_prefix _ _)
  · rw [good.next]
    ring

/-! ## A stream longer than the sequence space -/

theorem ReadLog.run_append (i : Slot) (l : ReadLog) (a b : List (Env × Call)) :
    l.run i (a ++ b) = (l.run i a).run i b := by
  induction a generalizing l with
  | nil => rfl
  | cons c rest ih => exact ih _

theorem ReadLog.pieces_append {near : Nat → Nat → Prop} {i : Slot} {l : ReadLog}
    {a b : List (Env × Call)} (first : l.Pieces near irs stream i a)
    (second : (l.run i a).Pieces near irs stream i b) : l.Pieces near irs stream i (a ++ b) := by
  induction a generalizing l with
  | nil => exact second
  | cons c rest ih => exact ⟨first.1, ih first.2 second⟩

/-- `n` zeros and a one. -/
def zerosThenOne (n : Nat) : List U8 := List.replicate n 0 ++ [1]

def fromPeer (payload : List U8) (o : Nat) : Segment :=
  ⟨80, 50000, 101 + BitVec.ofNat 32 o, 0, tcpPsh, 65535, payload⟩

def asPacket (s : Segment) : Packet :=
  ⟨0x0A000009, 0x0A000005, segmentBytes 0x0A000009 0x0A000005 s⟩

/-- `payload` at offset `o`, read as soon as it has come. -/
def arriveAndRead (payload : List U8) (o : Nat) : List (Env × Call) :=
  [(calmEnv, .receive (asPacket (fromPeer payload o))), (calmEnv, .read (some 0) payload.length)]

/-- `n` segments of `k` zeros, from offset `o` on. -/
def zeros (k : Nat) : Nat → Nat → List (Env × Call)
  | 0, _ => []
  | n + 1, o => arriveAndRead (List.replicate k 0) o ++ zeros k n (o + k)

/-- The connection of `answered`, with `n` bytes accepted and all of them read. -/
structure CaughtUp (n : Nat) (c : Conn) : Prop where
  used : c.used = true
  up : c.state = .established
  ends : c.localIp = 0x0A000005 ∧ c.remoteIp = 0x0A000009 ∧ c.localPort = 50000 ∧ c.remotePort = 80
  next : c.rcvNxt = 101 + BitVec.ofNat 32 n
  empty : c.rx.len = 0

theorem CaughtUp.slotFor {t : Table} {n : Nat} (h : CaughtUp n (t 0)) (payload : List U8) (o : Nat) :
    slotFor t (asPacket (fromPeer payload o)) (fromPeer payload o) = some 0 := by
  obtain ⟨localIp, remoteIp, localPort, remotePort⟩ := h.ends
  have first : List.finRange maxConnections = 0 :: (List.finRange maxConnections).tail := by decide
  rw [Tcp.slotFor, findConn, first]
  simp [findFrom, h.used, localPort, fromPeer, asPacket, matchesAll, h.up, remoteIp, remotePort, localIp]

/-- A segment with data alone, at the number expected, is delivered and nothing else. -/
theorem onStream_deliver (env : Env) {c : Conn} {payload : List U8} {o : Nat}
    (some : payload ≠ []) (here : (fromPeer payload o).seq = c.rcvNxt) :
    (onStream env c (fromPeer payload o)).1 = deliver c payload := by
  have bare : has (fromPeer payload o).flags tcpAck = false := by
    change has tcpPsh tcpAck = false
    decide
  have last : has (fromPeer payload o).flags tcpFin = false := by
    change has tcpPsh tcpFin = false
    decide
  have acked : onAck c (fromPeer payload o) = c := by simp [onAck, bare]
  have filled : (fromPeer payload o).payload = payload := rfl
  have taken : (onPayload (env.netbuf 0) c (fromPeer payload o)).1 = deliver c payload := by
    rw [onPayload, filled, if_neg some, if_pos here]
  unfold onStream
  dsimp only
  rw [acked, taken]
  simp [onFin, last, bare]

/-- One segment that starts where the receiver stands, read at once. -/
theorem caughtUp_read {l : ReadLog} {n o : Nat} (h : CaughtUp n (l.table 0)) (payload : List U8)
    (some' : payload ≠ []) (fits : payload.length ≤ 1024)
    (here : BitVec.ofNat 32 o = BitVec.ofNat 32 n) :
    CaughtUp (n + payload.length) ((l.run 0 (arriveAndRead payload o)).table 0) ∧
    (l.run 0 (arriveAndRead payload o)).read = l.read ++ payload := by
  have ok : parse (asPacket (fromPeer payload o)) = some (fromPeer payload o) :=
    parse_segmentBytes _ _ _ _ (by simp only [fromPeer, tcpHdrLen]; omega) rfl
  have calm : has (fromPeer payload o).flags tcpRst = false := by
    change has tcpPsh tcpRst = false
    decide
  have at_next : (fromPeer payload o).seq = (l.table 0).rcvNxt := by
    rw [h.next, ← here]
    rfl
  -- The segment is delivered whole: the buffer was empty.
  have received : (tcpReceive calmEnv l.table (asPacket (fromPeer payload o))).table 0 =
      deliver (l.table 0) payload := by
    simp only [tcpReceive, ok, h.slotFor payload o, deliverTo, calm, h.up, Bool.false_eq_true,
      if_false, reduceCtorEq, Effect.of_at, arrive]
    exact onStream_deliver calmEnv some' at_next
  obtain ⟨held, count⟩ := Ring.append_spec (l.table 0).rx payload
  have nothing : (l.table 0).rx.toList = [] := List.eq_nil_of_length_eq_zero (by simp [h.empty])
  have all : ((l.table 0).rx.append payload).2 = payload.length := by
    rw [count]
    apply Nat.min_eq_left
    simp only [Ring.room, h.empty, bufferSize]
    omega
  rw [all, nothing, List.nil_append, List.take_length] at held
  have used : ((tcpReceive calmEnv l.table (asPacket (fromPeer payload o))).table 0).used = true := by
    rw [received]
    exact h.used
  obtain ⟨table, bytes⟩ := read_effect payload.length used
  obtain ⟨front, rest⟩ := Ring.take_spec ((l.table 0).rx.append payload).1 payload.length
  rw [held] at front rest
  rw [received] at table bytes
  simp only [arriveAndRead, ReadLog.run, ReadLog.next, step, readBy, if_true, List.append_nil]
  constructor
  · rw [table]
    refine ⟨h.used, h.up, h.ends, ?_, ?_⟩
    · change (l.table 0).rcvNxt + BitVec.ofNat 32 ((l.table 0).rx.append payload).2 = _
      rw [h.next, all, BitVec.add_assoc, ← BitVec.ofNat_add]
    · have := congrArg List.length rest
      simpa [readConn, deliver] using this
  · rw [bytes]
    exact congrArg (l.read ++ ·) (front.trans (List.take_length))

theorem fromPeer_parse (payload : List U8) (o : Nat) (fits : payload.length ≤ 1024) :
    parse (asPacket (fromPeer payload o)) = some (fromPeer payload o) :=
  parse_segmentBytes _ _ _ _ (by simp only [fromPeer, tcpHdrLen]; omega) rfl

/-- A piece of the stream, sent and read, is a piece that arrived. -/
theorem pieces_read {near : Nat → Nat → Prop} {l : ReadLog} {payload : List U8} {o : Nat}
    (fits : payload.length ≤ 1024) (piece : Piece irs stream (fromPeer payload o) o)
    (close : near o l.accepted) :
    l.Pieces near irs stream 0 (arriveAndRead payload o) := by
  refine ⟨?_, ?_, trivial⟩
  · intro p s same ok _ _
    cases same
    rw [fromPeer_parse payload o fits] at ok
    cases ok
    exact ⟨o, piece, close⟩
  · intro p s same
    cases same

theorem zeros_piece (k N o : Nat) (within : o + k ≤ N) :
    Piece 100 (zerosThenOne N) (fromPeer (List.replicate k 0) o) o := by
  have length : (fromPeer (List.replicate k 0) o).payload.length = k := List.length_replicate
  refine ⟨rfl, ?_, ?_⟩
  · rw [length, zerosThenOne, List.length_append, List.length_replicate]
    omega
  · rw [length, zerosThenOne, List.drop_append_of_le_length (by rw [List.length_replicate]; omega),
      List.drop_replicate,
      List.take_append_of_le_length (by rw [List.length_replicate]; omega), List.take_replicate,
      Nat.min_eq_left (by omega)]
    rfl

/-- `n` segments of `k` zeros, each read as it comes, at a receiver that has caught up. -/
theorem caughtUp_zeros {l : ReadLog} {k N : Nat} (some : 0 < k) (fits : k ≤ 1024) (n o : Nat)
    (h : CaughtUp o (l.table 0)) (read : l.read = List.replicate o 0) (within : o + k * n ≤ N) :
    CaughtUp (o + k * n) ((l.run 0 (zeros k n o)).table 0) ∧
    (l.run 0 (zeros k n o)).read = List.replicate (o + k * n) 0 ∧
    l.Pieces (fun _ _ => True) 100 (zerosThenOne N) 0 (zeros k n o) := by
  induction n generalizing l o with
  | zero => exact ⟨h, read, trivial⟩
  | succ n ih =>
    have length : (List.replicate k (0 : U8)).length = k := List.length_replicate
    have some' : List.replicate k (0 : U8) ≠ [] := by simp; omega
    obtain ⟨caught, front⟩ := caughtUp_read (o := o) h _ some' (length.le.trans fits) rfl
    rw [length] at caught
    rw [read, List.replicate_append_replicate] at front
    have total : o + k + k * n = o + k * (n + 1) := by
      rw [Nat.mul_succ]
      omega
    obtain ⟨caught', front', pieces⟩ := ih (o + k) caught front (by omega)
    rw [total] at caught' front'
    have first : o + k ≤ N := by omega
    rw [zeros, ReadLog.run_append]
    exact ⟨caught', front',
      ReadLog.pieces_append (pieces_read (length.le.trans fits) (zeros_piece k N o first) trivial)
        pieces⟩

theorem answered_receiving : Receiving 100 (answered 0) := by
  refine ⟨by decide, .inl (by decide), by decide, by decide, by decide⟩

theorem answered_reads :
    (ReadLog.run 0 ⟨answered, [], 0⟩ (arriveAndRead [5, 6] 0)).read <+: [5, 6] := by
  refine (stream_received answered_receiving (arriveAndRead [5, 6] 0) ?_ ?_).1
  · exact pieces_read (by decide) ⟨rfl, by decide, rfl⟩ fun _ => rfl
  · simp [arriveAndRead]

theorem zeros_live (k n o : Nat) : ∀ c ∈ zeros k n o, c.2 ≠ .shutdown (some 0) ∧ c.2 ≠ .tick := by
  induction n generalizing o with
  | zero => simp [zeros]
  | succ n ih =>
    intro c mem
    cases List.mem_append.1 mem with
    | inl first =>
      simp only [arriveAndRead, List.mem_cons, List.not_mem_nil, or_false] at first
      rcases first with rfl | rfl <;> simp
    | inr rest => exact ih _ c rest

/-- Four gigabytes of zeros, a kilobyte at a time, and then the first of them again. -/
def lap : List (Env × Call) := zeros 1024 (2 ^ 22) 0 ++ arriveAndRead [0] 0

/-- After `2^32` bytes the first byte's number is the next one's, and a late copy of it is taken
for the next byte. -/
theorem lap_not_prefix :
    Receiving 100 (answered 0) ∧ (∀ c ∈ lap, c.2 ≠ .shutdown (some 0) ∧ c.2 ≠ .tick) ∧
    ReadLog.Pieces (fun _ _ => True) 100 (zerosThenOne (2 ^ 32)) 0 ⟨answered, [], 0⟩ lap ∧
    ¬(ReadLog.run 0 ⟨answered, [], 0⟩ lap).read <+: zerosThenOne (2 ^ 32) := by
  have start : CaughtUp 0 ((⟨answered, [], 0⟩ : ReadLog).table 0) := by
    constructor <;> decide
  have round : BitVec.ofNat 32 0 = BitVec.ofNat 32 (0 + 1024 * 2 ^ 22) := by decide
  have size : 0 + 1024 * 2 ^ 22 = 2 ^ 32 := by decide
  obtain ⟨caught, front, pieces⟩ :=
    caughtUp_zeros (l := ⟨answered, [], 0⟩) (N := 2 ^ 32) (by decide) (by decide) (2 ^ 22) 0 start rfl
      size.le
  have again : Piece 100 (zerosThenOne (2 ^ 32)) (fromPeer [0] 0) 0 :=
    zeros_piece 1 (2 ^ 32) 0 (by decide)
  rw [lap]
  refine ⟨answered_receiving, ?_, ?_, ?_⟩
  · intro c mem
    cases List.mem_append.1 mem with
    | inl first => exact zeros_live _ _ _ c first
    | inr rest =>
      simp only [arriveAndRead, List.mem_cons, List.not_mem_nil, or_false] at rest
      rcases rest with rfl | rfl <;> simp
  · exact ReadLog.pieces_append pieces (pieces_read (by decide) again trivial)
  · obtain ⟨-, last⟩ := caughtUp_read (o := 0) caught [0] (by decide) (by decide) round
    rw [ReadLog.run_append, last, front, size, zerosThenOne]
    intro front'
    have := (List.prefix_append_right_inj _).1 front'
    revert this
    decide

end ReconOS.Tcp
