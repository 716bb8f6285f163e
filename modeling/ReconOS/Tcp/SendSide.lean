import ReconOS.Tcp.Conn
import ReconOS.Tcp.Moves
import Mathlib.Tactic.IntervalCases
import Mathlib.Tactic.Ring

/-! The bytes a connection sends: where in the written stream each data segment comes from, and
what takes a byte out of the transmit buffer. -/
namespace ReconOS.Tcp

open Net

/-! ## Sequence numbers -/

theorem seqLe_iff (a b : U32) : seqLe a b = true ↔ (b - a).toNat ≤ 2 ^ 31 := by
  have ha := a.isLt
  have hb := b.isLt
  simp only [seqLe, decide_eq_true_eq, BitVec.toInt_eq_toNat_cond, BitVec.toNat_sub]
  split <;> omega

/-- With `f` numbers outstanding, an acknowledgement in the window names one of them, or is the
number half the circle away when there are none. -/
theorem ack_in_flight {una ack : U32} {f : Nat} (small : f ≤ bufferSize)
    (low : seqLe una ack = true) (high : seqLe ack (una + BitVec.ofNat 32 f) = true)
    (half : ¬(f = 0 ∧ ack = una + 0x80000000#32)) :
    (ack - una).toNat ≤ f := by
  rw [seqLe_iff] at low high
  have sum : (ack - una) + (una + BitVec.ofNat 32 f - ack) = BitVec.ofNat 32 f := by ring
  have sum' := congrArg BitVec.toNat sum
  rw [BitVec.toNat_add, BitVec.toNat_ofNat] at sum'
  have apart : ¬(f = 0 ∧ (ack - una).toNat = 2 ^ 31) := by
    rintro ⟨none, far⟩
    have far' : ack - una = 0x80000000#32 := BitVec.eq_of_toNat_eq far
    exact half ⟨none, by rw [← far']; ring⟩
  simp only [bufferSize] at small
  generalize (ack - una).toNat = x at *
  generalize (una + BitVec.ofNat 32 f - ack).toNat = y at *
  omega

/-! ## The stream -/

/-- A connection that has just come up: nothing written, nothing outstanding. -/
structure Opened (iss : U32) (c : Conn) : Prop where
  used : c.used = true
  up : c.state = .established
  una : c.sndUna = iss + 1
  nxt : c.sndNxt = iss + 1
  empty : c.tx.len = 0

/-- `seg`, sent when `n` bytes had been written, carries the bytes of the stream from the offset
its sequence number stands for. The offset is one of the last `bufferSize`, so there is only one. -/
def FromStream (iss : U32) (written : List U8) (seg : Segment) (n : Nat) : Prop :=
  ∃ k, seg.seq = iss + 1 + BitVec.ofNat 32 k ∧ k + seg.payload.length ≤ n ∧ n ≤ k + bufferSize ∧
    seg.payload = (written.drop k).take seg.payload.length

/-- How the connection stands to what has been written and to the acknowledgements that came. -/
structure Streams (iss : U32) (written : List U8) (acked : List U32) (c : Conn) : Prop where
  used : c.used = true
  up : c.state = .established ∨ c.state = .closeWait ∨ c.state = .closed
  len : c.tx.len ≤ written.length
  held : c.tx.toList = written.drop (written.length - c.tx.len)
  una : c.sndUna = iss + 1 + BitVec.ofNat 32 (written.length - c.tx.len)
  flight : ∃ f, f ≤ c.tx.len ∧ c.sndNxt = c.sndUna + BitVec.ofNat 32 f
  covered : c.tx.len = written.length ∨
    iss + 1 + BitVec.ofNat 32 (written.length - c.tx.len) ∈ acked

variable {iss : U32} {written : List U8} {acked : List U32} {c c' : Conn}

theorem Opened.streams (h : Opened iss c) : Streams iss [] [] c where
  used := h.used
  up := .inl h.up
  len := by simp [h.empty]
  held := by
    rw [List.drop_nil]
    exact List.eq_nil_of_length_eq_zero (by simp [h.empty])
  una := by simp [h.una]
  flight := ⟨0, Nat.zero_le _, by simp [h.una, h.nxt]⟩
  covered := .inl h.empty

theorem Streams.more_acks (h : Streams iss written acked c) (more : List U32) :
    Streams iss written (acked ++ more) c :=
  { h with covered := h.covered.imp_right (List.mem_append_left _) }

/-- Nothing of the send side changed. -/
theorem Streams.of_eq (h : Streams iss written acked c) (used : c'.used = c.used)
    (up : c'.state = .established ∨ c'.state = .closeWait ∨ c'.state = .closed)
    (tx : c'.tx = c.tx) (una : c'.sndUna = c.sndUna) (nxt : c'.sndNxt = c.sndNxt) :
    Streams iss written acked c' where
  used := used.trans h.used
  up := up
  len := by rw [tx]; exact h.len
  held := by rw [tx]; exact h.held
  una := by rw [tx, una]; exact h.una
  flight := by rw [tx, una, nxt]; exact h.flight
  covered := by rw [tx]; exact h.covered

theorem mem_sendSegment {ok : Bool} {flags : U8} {seq : U32} {payload : List U8} {o : Outgoing}
    (h : o ∈ sendSegment ok c flags seq payload) : o.seg.seq = seq ∧ o.seg.payload = payload := by
  unfold sendSegment at h
  split at h
  · rw [List.mem_singleton.1 h]
    exact ⟨rfl, rfl⟩
  · cases h

/-- An acknowledgement takes out of the buffer what it covers and nothing else. -/
theorem onAck_streams (h : Streams iss written acked c) (s : Segment)
    (calm : has s.flags tcpAck = true →
      ¬(c.sndUna = c.sndNxt ∧ s.ack = c.sndUna + 0x80000000#32)) :
    Streams iss written (acked ++ if has s.flags tcpAck then [s.ack] else []) (onAck c s) := by
  unfold onAck
  split
  case isFalse => simpa using h
  case isTrue ack =>
    obtain ⟨f, short, nxt⟩ := h.flight
    dsimp only
    split
    case isFalse => exact (h.more_acks _).of_eq rfl h.up rfl rfl rfl
    case isTrue window =>
      simp only [Bool.and_eq_true] at window
      have half : ¬(f = 0 ∧ s.ack = c.sndUna + 0x80000000#32) := by
        rintro ⟨rfl, far⟩
        exact calm ack ⟨by simp [nxt], far⟩
      have inside : (s.ack - c.sndUna).toNat ≤ f :=
        ack_in_flight (Nat.le_trans short c.tx.bound) window.1 (nxt ▸ window.2) half
      have ack_eq : s.ack = c.sndUna + BitVec.ofNat 32 (s.ack - c.sndUna).toNat := by
        rw [BitVec.ofNat_toNat, BitVec.setWidth_eq]
        ring
      generalize (s.ack - c.sndUna).toNat = a at *
      rw [if_pos (Nat.le_trans inside short)]
      have gone : written.length - (c.tx.len - a) = written.length - c.tx.len + a := by
        have := h.len
        omega
      have at_ack : iss + 1 + BitVec.ofNat 32 (written.length - (c.tx.len - a)) = s.ack := by
        rw [gone, ack_eq, h.una, BitVec.ofNat_add]
        ring
      refine ⟨h.used, h.up, ?len, ?held, at_ack.symm, ?flight, ?covered⟩
      case len => exact Nat.le_trans (Nat.sub_le _ _) h.len
      case held =>
        rw [Ring.drop_toList, h.held, List.drop_drop, Ring.drop_len, gone]
      case flight =>
        refine ⟨f - a, by simp only [Ring.drop_len]; omega, ?_⟩
        dsimp only
        rw [nxt, ack_eq, BitVec.add_assoc, ← BitVec.ofNat_add, Nat.add_sub_cancel' inside]
      case covered =>
        right
        exact List.mem_append_right _ (List.mem_singleton.2 at_ack)

theorem onPayload_sendSide (ok : Bool) (c : Conn) (s : Segment) :
    (onPayload ok c s).1.tx = c.tx ∧ (onPayload ok c s).1.sndUna = c.sndUna ∧
    (onPayload ok c s).1.sndNxt = c.sndNxt ∧
    ∀ o ∈ (onPayload ok c s).2, o.seg.payload = [] := by
  unfold onPayload
  split
  · simp
  · split <;> exact ⟨rfl, rfl, rfl, fun o sent => (mem_sendSegment sent).2⟩

theorem onFin_sendSide (now : Nat) (ok : Bool) (c : Conn) (s : Segment) :
    (onFin now ok c s).1.tx = c.tx ∧ (onFin now ok c s).1.sndUna = c.sndUna ∧
    (onFin now ok c s).1.sndNxt = c.sndNxt ∧
    ∀ o ∈ (onFin now ok c s).2, o.seg.payload = [] := by
  unfold onFin
  split
  · exact ⟨rfl, rfl, rfl, fun o sent => (mem_sendSegment sent).2⟩
  · split <;> simp

/-- A data segment that arrives changes the send side by its acknowledgement only, and what it
sends is bare. -/
theorem onStream_streams (h : Streams iss written acked c) (env : Env) (s : Segment)
    (up : c.state = .established)
    (calm : has s.flags tcpAck = true →
      ¬(c.sndUna = c.sndNxt ∧ s.ack = c.sndUna + 0x80000000#32)) :
    Streams iss written (acked ++ if has s.flags tcpAck then [s.ack] else []) (onStream env c s).1 ∧
    ∀ o ∈ (onStream env c s).2, o.seg.payload = [] := by
  have ack := onAck_streams h s calm
  obtain ⟨kept, streamed⟩ := onStream_kept env c s
  obtain ⟨tx₁, una₁, nxt₁, bare₁⟩ := onPayload_sendSide (env.netbuf 0) (onAck c s) s
  obtain ⟨tx₂, una₂, nxt₂, bare₂⟩ :=
    onFin_sendSide env.now (env.netbuf 1) (onPayload (env.netbuf 0) (onAck c s) s).1 s
  refine ⟨ack.of_eq ?used ?up (tx₂.trans tx₁) (una₂.trans una₁) (nxt₂.trans nxt₁), ?bare⟩
  case used => exact kept.used.trans (onAck_kept c s).1.used.symm
  case up =>
    rw [up] at streamed
    generalize (onStream env c s).1.state = b at streamed
    cases streamed with
    | stay => exact .inl rfl
    | closeWait => exact .inr (.inl rfl)
    | timeWait _ other => exact absurd rfl other
  case bare =>
    intro o sent
    cases List.mem_append.1 sent with
    | inl first => exact bare₁ o first
    | inr second => exact bare₂ o second

/-- What a tick sends is the front of the buffer, from its own place in the stream. -/
theorem tick_streams (h : Streams iss written acked c) (now : Nat) (ok : Bool) :
    Streams iss written acked (tickConn now ok c).1 ∧
    ∀ o ∈ (tickConn now ok c).2, FromStream iss written o.seg written.length := by
  have open' : ¬(c.state = .timeWait ∧ c.timeWaitUntil ≤ now) := by
    rintro ⟨waits, -⟩
    rcases h.up with up | up | up <;> simp [up] at waits
  unfold tickConn
  rw [if_neg (by simp [h.used]), if_neg open']
  split
  case isFalse => exact ⟨h, by simp⟩
  split
  case isTrue => exact ⟨h.of_eq rfl (.inr (.inr rfl)) rfl rfl rfl, by simp⟩
  case isFalse =>
    refine ⟨h.of_eq rfl h.up rfl rfl rfl, ?_⟩
    intro o sent
    obtain ⟨seq, payload⟩ := mem_sendSegment sent
    have length : o.seg.payload.length = min c.tx.len chunkSize := by
      rw [payload, Ring.span_length]
    have bound := c.tx.bound
    have len := h.len
    refine ⟨written.length - c.tx.len, seq.trans h.una, by omega, by omega, ?_⟩
    rw [length, ← h.held, payload, Ring.span_eq _ _ _ (by omega), List.drop_zero]

/-- The bytes a write takes go behind the others, and what it sends at once is the first of them,
as long as everything buffered earlier had been sent. -/
theorem write_streams (h : Streams iss written acked c) (now : Nat) (ok : Bool) (data : List U8)
    (sent : (c.tx.append data).2 ≠ 0 → c.sndNxt - c.sndUna = BitVec.ofNat 32 c.tx.len) :
    Streams iss (written ++ data.take (c.tx.append data).2) acked (writeConn now ok c data).1 ∧
    ∀ o ∈ (writeConn now ok c data).2.1, FromStream iss
      (written ++ data.take (c.tx.append data).2) o.seg
      (written ++ data.take (c.tx.append data).2).length := by
  obtain ⟨held, count⟩ := Ring.append_spec c.tx data
  have grown := Ring.append_len c.tx data
  have took : (data.take (c.tx.append data).2).length = (c.tx.append data).2 := by
    rw [List.length_take]
    omega
  obtain ⟨f, short, nxt⟩ := h.flight
  have len := h.len
  have bound := (c.tx.append data).1.bound
  unfold writeConn
  generalize c.tx.append data = fit at *
  have gone : (written ++ data.take fit.2).length - fit.1.len = written.length - c.tx.len := by
    rw [List.length_append, took, grown]
    omega
  have held' : fit.1.toList = (written ++ data.take fit.2).drop (written.length - c.tx.len) := by
    rw [held, h.held, List.drop_append_of_le_length (by omega)]
  have base : Streams iss (written ++ data.take fit.2) acked { c with tx := fit.1 } := by
    refine ⟨h.used, h.up, ?_, ?_, ?_, ⟨f, ?_, nxt⟩, ?_⟩
    · rw [List.length_append, took]
      dsimp only
      omega
    · dsimp only
      rw [gone, held']
    · dsimp only
      rw [gone, h.una]
    · dsimp only
      omega
    · dsimp only
      rw [gone]
      exact h.covered.imp_left fun all => by rw [List.length_append, took, grown, all]
  dsimp only
  split
  case isFalse => exact ⟨base, by simp⟩
  case isTrue some =>
    have within : sendNow c fit.2 ≤ fit.2 := by
      unfold sendNow
      split <;> omega
    have all : f = c.tx.len := by
      have := sent some.1
      rw [nxt, add_sub_cancel_left, ← BitVec.toNat_inj, BitVec.toNat_ofNat,
        BitVec.toNat_ofNat] at this
      have := c.tx.bound
      simp only [bufferSize] at this
      omega
    constructor
    · refine ⟨h.used, h.up, base.len, base.held, base.una, ⟨f + sendNow c fit.2, ?_, ?_⟩, base.covered⟩
      · dsimp only
        omega
      · dsimp only
        rw [nxt, BitVec.add_assoc, ← BitVec.ofNat_add]
    · intro o sent
      obtain ⟨seq, payload⟩ := mem_sendSegment sent
      have length : o.seg.payload.length = sendNow c fit.2 := by rw [payload, Ring.span_length]
      have place : fit.1.len - fit.2 = c.tx.len := by omega
      refine ⟨written.length, ?_, ?_, ?_, ?_⟩
      · rw [seq, nxt, h.una, all, BitVec.add_assoc (iss + 1), ← BitVec.ofNat_add,
          Nat.sub_add_cancel len]
      · rw [List.length_append, took, length]
        omega
      · rw [List.length_append, took]
        omega
      · rw [length, payload, place, Ring.span_eq _ _ _ (by omega), held', List.drop_drop,
          Nat.sub_add_cancel len]

/-! ## Runs -/

/-- What has passed over one slot: the bytes `tcp_write` took, in order; the segments sent, each
with the number of bytes written by then; and the acknowledgement numbers that came. -/
structure SendLog where
  table : Table
  written : List U8
  sent : List (Segment × Nat)
  acked : List U32

def writtenBy (i : Slot) (e : Effect) : Call → List U8
  | .write idx data => if idx = some i then data.take (e.taken.getD 0) else []
  | _ => []

def ackedBy (i : Slot) (t : Table) : Call → List U32
  | .receive p =>
    match parse p with
    | none => []
    | some s => if slotFor t p s = some i ∧ has s.flags tcpAck = true then [s.ack] else []
  | _ => []

def SendLog.next (i : Slot) (l : SendLog) (env : Env) (call : Call) : SendLog :=
  let e := step env l.table call
  let written := l.written ++ writtenBy i e call
  ⟨e.table, written, l.sent ++ (e.sentBy i).map fun o => (o.seg, written.length),
    l.acked ++ ackedBy i l.table call⟩

def SendLog.run (i : Slot) (l : SendLog) : List (Env × Call) → SendLog
  | [] => l
  | (env, call) :: rest => (l.next i env call).run i rest

/-- A write that takes anything finds all that was buffered before already sent, and no segment
acknowledges the number half the circle away from an idle sender's. -/
def InStep (i : Slot) (t : Table) : Call → Prop
  | .write idx data =>
    idx = some i → (t i).state = .established → ((t i).tx.append data).2 ≠ 0 →
      (t i).sndNxt - (t i).sndUna = BitVec.ofNat 32 (t i).tx.len
  | .receive p => ∀ s, parse p = some s → slotFor t p s = some i → (t i).state = .established →
    has s.flags tcpAck = true →
      ¬((t i).sndUna = (t i).sndNxt ∧ s.ack = (t i).sndUna + 0x80000000#32)
  | _ => True

def SendLog.InStep (i : Slot) (l : SendLog) : List (Env × Call) → Prop
  | [] => True
  | (env, call) :: rest => Tcp.InStep i l.table call ∧ (l.next i env call).InStep i rest

/-- Everything sent so far is part of the stream, and the connection stands as it should. -/
structure SendLog.Good (iss : U32) (i : Slot) (l : SendLog) : Prop where
  sent : ∀ x ∈ l.sent, x.1.payload ≠ [] → FromStream iss l.written x.1 x.2 ∧ x.2 ≤ l.written.length
  conn : Streams iss l.written l.acked (l.table i)

theorem FromStream.extend {seg : Segment} {n : Nat} (h : FromStream iss written seg n)
    (within : n ≤ written.length) (more : List U8) : FromStream iss (written ++ more) seg n := by
  obtain ⟨k, seq, stop, start, bytes⟩ := h
  refine ⟨k, seq, stop, start, ?_⟩
  rw [List.drop_append_of_le_length (by omega), List.take_append_of_le_length, ← bytes]
  rw [List.length_drop]
  omega

/-- A call that is neither a write to slot `i` nor its shutdown. -/
theorem moves_streams {env : Env} {t : Table} {i : Slot} {call : Call} {c : Conn}
    {out : List Outgoing} (m : Moves env t i call c out) (h : Streams iss written acked (t i))
    (meets : InStep i t call) (quiet : ∀ data, call ≠ .write (some i) data)
    (open' : call ≠ .shutdown (some i)) :
    Streams iss written (acked ++ ackedBy i t call) c ∧
    ∀ o ∈ out, o.seg.payload ≠ [] → FromStream iss written o.seg written.length := by
  have unused : ∀ b, (t i).used = b → b = true := fun b eq => eq ▸ h.used
  cases m with
  | stay => exact ⟨h.more_acks _, by simp⟩
  | vacant _ _ was | opens _ _ _ _ _ _ _ was | listens _ _ _ _ was
  | passive _ _ _ _ _ _ was => cases unused _ was
  | accepts => exact ⟨(h.more_acks _).of_eq rfl h.up rfl rfl rfl, by simp⟩
  | writes data => exact absurd rfl (quiet data)
  | reads => exact ⟨(h.more_acks _).of_eq rfl h.up rfl rfl rfl, by simp⟩
  | shuts => exact absurd rfl open'
  | resets => exact ⟨(h.more_acks _).of_eq rfl (.inr (.inr rfl)) rfl rfl rfl, by simp⟩
  | ticks =>
    obtain ⟨conn, sent⟩ := tick_streams h env.now (env.netbuf i)
    exact ⟨conn.more_acks _, fun o mem _ => sent o mem⟩
  | arrives p s ok found =>
    have arrived := arrive_cases env (t i) s
    generalize (arrive env (t i) s).1 = c' at *
    generalize (arrive env (t i) s).2 = out' at *
    have live : ∀ a, (t i).state = a → a = .established ∨ a = .closeWait ∨ a = .closed :=
      fun a eq => eq ▸ h.up
    cases arrived with
    | ignored => exact ⟨h.more_acks _, by simp⟩
    | synAck state | handshake state | finished state => simpa using live _ state
    | stream state =>
      have up : (t i).state = .established := by
        rcases state with up | up | up
        · exact up
        · simpa using live _ up
        · simpa using live _ up
      obtain ⟨conn, bare⟩ := onStream_streams h env s up (meets s ok found up)
      refine ⟨?_, fun o mem some => absurd (bare o mem) some⟩
      simpa only [ackedBy, ok, found, true_and] using conn

/-- A write on an established connection, seen from its slot. -/
theorem write_effect (env : Env) {t : Table} {i : Slot} (data : List U8) (used : (t i).used = true)
    (up : (t i).state = .established) :
    (tcpWrite env t (some i) data).table i = (writeConn env.now (env.netbuf 0) (t i) data).1 ∧
    (tcpWrite env t (some i) data).sentBy i = (writeConn env.now (env.netbuf 0) (t i) data).2.1 ∧
    (tcpWrite env t (some i) data).taken = some ((t i).tx.append data).2 := by
  have took : (writeConn env.now (env.netbuf 0) (t i) data).2.2 = ((t i).tx.append data).2 := by
    unfold writeConn
    dsimp only
    split <;> rfl
  have taken : ¬((!(t i).used) = true ∨ (t i).state ≠ .established) := by simp [used, up]
  simp only [tcpWrite, if_neg taken]
  exact ⟨Effect.of_at _, Effect.of_sentBy (t := t) _, congrArg some took⟩

theorem write_next (env : Env) {t : Table} {i : Slot} {data : List U8}
    (h : Streams iss written acked (t i)) (meets : InStep i t (.write (some i) data)) :
    Streams iss (written ++ writtenBy i (tcpWrite env t (some i) data) (.write (some i) data)) acked
      ((tcpWrite env t (some i) data).table i) ∧
    ∀ o ∈ (tcpWrite env t (some i) data).sentBy i, FromStream iss
      (written ++ writtenBy i (tcpWrite env t (some i) data) (.write (some i) data)) o.seg
      (written ++ writtenBy i (tcpWrite env t (some i) data) (.write (some i) data)).length := by
  by_cases up : (t i).state = .established
  · obtain ⟨table, sent, taken⟩ := write_effect env data h.used up
    rw [table, sent, writtenBy, taken, if_pos rfl, Option.getD_some]
    exact write_streams h env.now (env.netbuf 0) data (meets rfl up)
  · have eq : tcpWrite env t (some i) data = .idle t := by simp [tcpWrite, up]
    have nothing : writtenBy i (Effect.idle t) (.write (some i) data) = [] := by
      simp [writtenBy, Effect.idle]
    rw [eq, nothing, List.append_nil]
    exact ⟨h, by simp⟩

theorem writtenBy_other {i : Slot} {call : Call} (e : Effect)
    (quiet : ∀ data, call ≠ .write (some i) data) : writtenBy i e call = [] := by
  cases call with
  | write idx data =>
    have other : idx ≠ some i := fun eq => quiet data (by rw [eq])
    simp [writtenBy, other]
  | _ => rfl

/-- The log stays good under one more call, whatever the call adds to the stream. -/
theorem SendLog.Good.extend {i : Slot} {l : SendLog} (h : l.Good iss i) (more : List U8)
    {table : Table} {acks : List U32} {out : List Outgoing}
    (conn : Streams iss (l.written ++ more) (l.acked ++ acks) (table i))
    (sent : ∀ o ∈ out, o.seg.payload ≠ [] →
      FromStream iss (l.written ++ more) o.seg (l.written ++ more).length) :
    SendLog.Good iss i ⟨table, l.written ++ more,
      l.sent ++ out.map fun o => (o.seg, (l.written ++ more).length), l.acked ++ acks⟩ := by
  refine ⟨?_, conn⟩
  intro x mem some
  cases List.mem_append.1 mem with
  | inl old =>
    obtain ⟨part, within⟩ := h.sent x old some
    refine ⟨part.extend within more, ?_⟩
    rw [List.length_append]
    omega
  | inr new =>
    obtain ⟨o, out, rfl⟩ := List.mem_map.1 new
    exact ⟨sent o out some, Nat.le_refl _⟩

theorem next_good {i : Slot} {l : SendLog} (env : Env) (call : Call) (h : l.Good iss i)
    (meets : InStep i l.table call) (open' : call ≠ .shutdown (some i)) :
    (l.next i env call).Good iss i := by
  by_cases quiet : ∀ data, call ≠ .write (some i) data
  · obtain ⟨conn, sent⟩ := moves_streams (moves env l.table i call) h.conn meets quiet open'
    rw [SendLog.next, writtenBy_other _ quiet]
    apply h.extend []
    · rwa [List.append_nil]
    · rwa [List.append_nil]
  · simp only [ne_eq, not_forall, not_not] at quiet
    obtain ⟨data, rfl⟩ := quiet
    obtain ⟨conn, sent⟩ := write_next env h.conn meets
    apply h.extend
    · exact conn.more_acks _
    · exact fun o mem _ => sent o mem

theorem run_good {i : Slot} {l : SendLog} (calls : List (Env × Call)) (h : l.Good iss i)
    (meets : l.InStep i calls) (open' : ∀ c ∈ calls, c.2 ≠ .shutdown (some i)) :
    (l.run i calls).Good iss i := by
  induction calls generalizing l with
  | nil => exact h
  | cons c rest ih =>
    exact ih (next_good c.1 c.2 h meets.1 (open' c List.mem_cons_self)) meets.2
      fun d mem => open' d (List.mem_cons_of_mem _ mem)

/-- From a connection that has just come up, through any calls that meet the condition and do not
shut it down: every data segment sent carries the bytes written at the offset its number stands
for, the buffer holds the end of what was written, and what is no longer in it was acknowledged. -/
theorem stream_sent {t : Table} {i : Slot} (h : Opened iss (t i)) (calls : List (Env × Call))
    (open' : ∀ c ∈ calls, c.2 ≠ .shutdown (some i)) (meets : SendLog.InStep i ⟨t, [], [], []⟩ calls) :
    (∀ x ∈ (SendLog.run i ⟨t, [], [], []⟩ calls).sent, x.1.payload ≠ [] →
      FromStream iss (SendLog.run i ⟨t, [], [], []⟩ calls).written x.1 x.2) ∧
    ∃ gone ≤ (SendLog.run i ⟨t, [], [], []⟩ calls).written.length,
      ((SendLog.run i ⟨t, [], [], []⟩ calls).table i).tx.toList =
        (SendLog.run i ⟨t, [], [], []⟩ calls).written.drop gone ∧
      (gone = 0 ∨ iss + 1 + BitVec.ofNat 32 gone ∈ (SendLog.run i ⟨t, [], [], []⟩ calls).acked) := by
  obtain ⟨sent, conn⟩ := run_good (l := ⟨t, [], [], []⟩) calls ⟨by simp, h.streams⟩ meets open'
  generalize SendLog.run i ⟨t, [], [], []⟩ calls = l at *
  refine ⟨fun x mem some => (sent x mem some).1, _, Nat.sub_le _ _, conn.held, ?_⟩
  exact conn.covered.imp_left fun all => by rw [all, Nat.sub_self]

/-! ## Where the stream starts -/

/-- Before the handshake is over nothing has been buffered. -/
def Unwritten (c : Conn) : Prop :=
  c.used = true → c.state = .synSent ∨ c.state = .synReceived → c.tx.len = 0

theorem arrived_unwritten {env : Env} {s : Segment} {out : List Outgoing} (h : Unwritten c)
    (a : Arrived env c s c' out) : Unwritten c' := by
  cases a with
  | ignored => exact h
  | synAck | handshake => exact fun _ early => by simp at early
  | stream up =>
    obtain ⟨-, streamed⟩ := onStream_kept env c s
    intro _ early
    generalize (onStream env c s).1.state = b at streamed early
    generalize c.state = a at streamed up
    cases streamed with
    | stay => rcases up with up | up | up <;> simp [up] at early
    | closeWait | finWait2 | timeWait => simp at early
  | finished => exact fun used => by simp [freeConn_used] at used

theorem moves_unwritten {env : Env} {t : Table} {i : Slot} {call : Call} {out : List Outgoing}
    (m : Moves env t i call c out) (h : Unwritten (t i)) : Unwritten c := by
  cases m with
  | stay | accepts | reads => exact h
  | vacant _ _ _ still => exact fun used => by simp [still] at used
  | opens | passive => exact fun _ _ => rfl
  | listens => exact fun _ early => by simp [listener] at early
  | resets => exact fun _ early => by simp at early
  | arrives _ s => exact arrived_unwritten h (arrive_cases env (t i) s)
  | writes data used up =>
    intro _ early
    unfold writeConn at early
    dsimp only at early
    split at early <;> simp [up] at early
  | shuts used =>
    unfold shutdownConn
    split
    case h_1 | h_2 => exact fun _ early => by simp at early
    case h_3 | h_4 => exact fun used => by simp [freeConn_used] at used
    case h_5 => exact h
  | ticks =>
    unfold tickConn
    split
    · exact h
    split
    · exact fun used => by simp [freeConn_used] at used
    split
    · split
      · exact fun _ early => by simp at early
      · exact h
    · exact h

theorem reachable_unwritten {t : Table} (h : Reachable t) (i : Slot) : Unwritten (t i) := by
  induction h generalizing i with
  | boot => exact fun used => by simp [boot, Conn.zero] at used
  | step env call _ ih => exact moves_unwritten (moves env _ i call) (ih i)

/-- A connection that the end of its handshake leaves established has just come up. -/
theorem handshake_opened {t : Table} (h : Reachable t) (env : Env) (i : Slot) (p : Packet)
    (used : (t i).used = true) (early : (t i).state = .synSent ∨ (t i).state = .synReceived)
    (up : ((tcpReceive env t p).table i).state = .established) :
    Opened ((t i).sndNxt - 1) ((tcpReceive env t p).table i) := by
  have empty := reachable_unwritten h i used early
  have m : Moves env t i (.receive p) _ _ := moves_receive p
  generalize (tcpReceive env t p).table i = c at *
  generalize (tcpReceive env t p).sentBy i = out at m
  cases m with
  | stay => simp [up] at early
  | vacant _ _ was | passive _ _ _ _ _ _ was => simp [used] at was
  | resets => simp at up
  | arrives _ s _ _ _ =>
    have a := arrive_cases env (t i) s
    generalize (arrive env (t i) s).1 = c at *
    generalize (arrive env (t i) s).2 = out at *
    cases a with
    | ignored => simp [up] at early
    | synAck _ _ covers => exact ⟨used, rfl, by simp [covers], by simp, empty⟩
    | handshake _ _ covers => exact ⟨used, rfl, by simp [covers], by simp, empty⟩
    | stream state =>
      rcases early with early | early <;> simp [early] at state
    | finished state => rcases early with early | early <;> simp [early] at state

/-! ## Two connections -/

/-- 10.0.0.9 answers the call with a window of one byte. -/
def narrow : Table :=
  play boot [(calmEnv, .open 0x0A000005 50000 0x0A000009 80),
    (calmEnv, .receive ⟨0x0A000009, 0x0A000005,
      [0, 80, 195, 80, 0, 0, 0, 100, 0, 0, 0, 1, 80, 18, 0, 1, 215, 190, 0, 0]⟩)]

theorem narrow_opened : Opened 0 (narrow 0) := by
  constructor <;> decide

/-- One byte, its acknowledgement, another byte, and a tick. -/
def inTurn : List (Env × Call) :=
  [(calmEnv, .write (some 0) [1]),
    (calmEnv, .receive ⟨0x0A000009, 0x0A000005,
      [0, 80, 195, 80, 0, 0, 0, 101, 0, 0, 0, 2, 80, 16, 0, 1, 215, 190, 0, 0]⟩),
    (calmEnv, .write (some 0) [2]), ({ calmEnv with now := 60 * 1000000000 }, .tick)]

theorem inTurn_sent :
    (SendLog.run 0 ⟨narrow, [], [], []⟩ inTurn).written = [1, 2] ∧
    ∀ x ∈ (SendLog.run 0 ⟨narrow, [], [], []⟩ inTurn).sent, x.1.payload ≠ [] →
      FromStream 0 (SendLog.run 0 ⟨narrow, [], [], []⟩ inTurn).written x.1 x.2 := by
  refine ⟨by decide, (stream_sent narrow_opened inTurn ?_ ?_).1⟩
  · intro c mem
    simp only [inTurn, List.mem_cons, List.not_mem_nil, or_false] at mem
    rcases mem with rfl | rfl | rfl | rfl <;> simp
  · refine ⟨fun _ _ _ => by decide, ?_, fun _ _ _ => by decide, trivial, trivial⟩
    rintro s - - - - ⟨idle, -⟩
    revert idle
    decide

/-- Two bytes at once, of which the first is sent, and then a third. -/
def ahead : List (Env × Call) :=
  [(calmEnv, .write (some 0) [1, 2]), (calmEnv, .write (some 0) [3])]

/-- The third byte goes out with the second one's number. -/
theorem ahead_corrupts :
    ¬∀ x ∈ (SendLog.run 0 ⟨narrow, [], [], []⟩ ahead).sent, x.1.payload ≠ [] →
      FromStream 0 (SendLog.run 0 ⟨narrow, [], [], []⟩ ahead).written x.1 x.2 := by
  intro all
  have written : (SendLog.run 0 ⟨narrow, [], [], []⟩ ahead).written = [1, 2, 3] := by decide
  have sent : ((⟨50000, 80, 2, 101, tcpAck ||| tcpPsh, 4096, [3]⟩ : Segment), 3) ∈
      (SendLog.run 0 ⟨narrow, [], [], []⟩ ahead).sent := by decide
  obtain ⟨k, seq, stop, -, bytes⟩ := all _ sent (by decide)
  rw [written] at bytes
  have small : k < 3 := by
    simp only [List.length_cons, List.length_nil] at stop
    omega
  interval_cases k <;> revert seq bytes <;> decide

end ReconOS.Tcp
