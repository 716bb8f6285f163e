import ReconOS.Tcp.Table
import ReconOS.Tcp.Retransmit
import ReconOS.Tcp.SendSide

/-! What an acknowledgement of everything sent leaves to send again. -/
namespace ReconOS.Tcp

open Net

variable {env : Env} {t : Table} {i : Slot} {s : Segment} {c c' : Conn}

/-- Nothing is outstanding and nothing is buffered. -/
def Idle (c : Conn) : Prop := c.sndUna = c.sndNxt ∧ c.tx.len = 0

/-- Whatever calls come after, but for writes to slot `i`, no tick sends from it. -/
def SilentAfter (t : Table) (i : Slot) : Prop :=
  ∀ calls : List (Env × Call), (∀ call ∈ calls, ∀ data, call.2 ≠ .write (some i) data) →
    ∀ env, (tcpTick env (play t calls)).sentBy i = []

def Drains (t : Table) (i : Slot) : Prop := Idle (t i) ∧ SilentAfter t i

/-- Nothing was left to acknowledge; or there is no `RST`, and the connection waits for its last
acknowledgement, or it reads acknowledgements and its buffer holds as many bytes as there are
numbers outstanding, or none. -/
def Drainable (c : Conn) (s : Segment) : Prop :=
  Idle c ∨ has s.flags tcpRst = false ∧
    (c.state = .lastAck ∨ (c.state = .established ∨ c.state = .finWait1) ∧
      seqLe c.sndUna c.sndNxt = true ∧ (c.tx.len = 0 ∨ c.tx.len = (c.sndNxt - c.sndUna).toNat))

/-! ## Nothing to send -/

def Quiet (c : Conn) : Prop := c.used = false ∨ c.tx.len = 0

theorem tickConn_quiet (now : Nat) (ok : Bool) (quiet : Quiet c) :
    Quiet (tickConn now ok c).1 ∧ (tickConn now ok c).2 = [] := by
  unfold tickConn
  cases quiet with
  | inl unused =>
    rw [if_pos (by simp [unused])]
    exact ⟨.inl unused, rfl⟩
  | inr empty =>
    split
    · exact ⟨.inr empty, rfl⟩
    split
    · exact ⟨.inl (freeConn_used c), rfl⟩
    · rw [if_neg (by simp [empty])]
      exact ⟨.inr empty, rfl⟩

theorem shutdownConn_quiet (ok : Bool) (quiet : Quiet c) : Quiet (shutdownConn ok c).1 := by
  unfold shutdownConn
  split
  case h_1 | h_2 | h_5 => exact quiet
  case h_3 | h_4 => exact .inl (freeConn_used c)

theorem onAck_empty (empty : c.tx.len = 0) : (onAck c s).tx.len = 0 := by
  unfold onAck
  split
  case isFalse => exact empty
  case isTrue =>
    dsimp only
    split
    case isFalse => exact empty
    case isTrue =>
      dsimp only
      split
      · rw [Ring.drop_len, empty, Nat.zero_sub]
      · exact empty

theorem onStream_sendSide (env : Env) (c : Conn) (s : Segment) :
    (onStream env c s).1.tx = (onAck c s).tx ∧ (onStream env c s).1.sndUna = (onAck c s).sndUna ∧
      (onStream env c s).1.sndNxt = (onAck c s).sndNxt := by
  obtain ⟨tx₁, una₁, nxt₁, -⟩ := onPayload_sendSide (env.netbuf 0) (onAck c s) s
  obtain ⟨tx₂, una₂, nxt₂, -⟩ :=
    onFin_sendSide env.now (env.netbuf 1) (onPayload (env.netbuf 0) (onAck c s) s).1 s
  exact ⟨tx₂.trans tx₁, una₂.trans una₁, nxt₂.trans nxt₁⟩

theorem arrive_quiet (env : Env) (s : Segment) (quiet : Quiet c) : Quiet (arrive env c s).1 := by
  have arrived := arrive_cases env c s
  generalize (arrive env c s).1 = c' at *
  generalize (arrive env c s).2 = out at *
  cases arrived with
  | ignored | synAck | handshake => exact quiet
  | finished => exact .inl (freeConn_used c)
  | stream =>
    cases quiet with
    | inl unused => exact .inl ((onStream_kept env c s).1.used.trans unused)
    | inr empty =>
      right
      rw [(onStream_sendSide env c s).1]
      exact onAck_empty empty

/-- Only a write puts bytes into the buffer. -/
theorem Moves.quiet {call : Call} {out : List Outgoing} (m : Moves env t i call c out)
    (idle : ∀ data, call ≠ .write (some i) data) (quiet : Quiet (t i)) : Quiet c := by
  cases m with
  | stay | accepts | reads | resets => exact quiet
  | vacant _ _ _ still => exact .inl still
  | opens | listens | passive => exact .inr rfl
  | writes data => exact absurd rfl (idle data)
  | shuts => exact shutdownConn_quiet _ quiet
  | arrives p s => exact arrive_quiet env s quiet
  | ticks => exact (tickConn_quiet _ _ quiet).1

theorem silent_of_quiet (quiet : Quiet (t i)) : SilentAfter t i := by
  intro calls
  induction calls generalizing t with
  | nil =>
    intro _ env
    rw [tick_sentBy]
    exact (tickConn_quiet _ _ quiet).2
  | cons call rest ih =>
    intro others
    have first : ∀ data, call.2 ≠ .write (some i) data := others call List.mem_cons_self
    have next : Quiet ((step call.1 t call.2).table i) := (moves call.1 t i call.2).quiet first quiet
    exact ih next fun call mem => others call (List.mem_cons_of_mem _ mem)

theorem drains_iff_idle : Drains t i ↔ Idle (t i) := by
  constructor
  · exact And.left
  · intro idle
    exact ⟨idle, silent_of_quiet (.inr idle.2)⟩

/-! ## A full acknowledgement -/

theorem freeConn_idle (used : c.used = true) : Idle (freeConn c) := by
  rw [freeConn, if_pos used]
  exact ⟨rfl, rfl⟩

/-- The buffer gives up as many bytes as there are numbers in the acknowledged range, or none at
all where it has fewer. -/
theorem onAck_idle_iff (ack : has s.flags tcpAck = true) (full : s.ack = c.sndNxt) :
    Idle (onAck c s) ↔ Idle c ∨ seqLe c.sndUna c.sndNxt = true ∧
      (c.tx.len = 0 ∨ c.tx.len = (c.sndNxt - c.sndUna).toNat) := by
  have last : seqLe c.sndNxt c.sndNxt = true := by simp [seqLe]
  unfold onAck
  rw [if_pos ack, full, last, Bool.and_true]
  by_cases low : seqLe c.sndUna c.sndNxt = true
  · rw [if_pos low]
    generalize range : (c.sndNxt - c.sndUna).toNat = n
    have none : Idle c → n = 0 ∧ c.tx.len = 0 := by
      rintro ⟨level, empty⟩
      rw [← range, level, BitVec.sub_self]
      exact ⟨rfl, empty⟩
    by_cases fits : n ≤ c.tx.len
    · simp only [Idle, if_pos fits, Ring.drop_len] at none ⊢
      simp only [true_and, low]
      omega
    · simp only [Idle, if_neg fits] at none ⊢
      simp only [true_and, low]
      omega
  · rw [if_neg low]
    simp [Idle, low]

/-- **A full acknowledgement drains the sender exactly when it is drainable so.** -/
theorem full_ack_drains_iff (env : Env) (t : Table) (i : Slot) (p : Packet) (s : Segment)
    (ok : parse p = some s) (found : slotFor t p s = some i)
    (up : (t i).state = .established ∨ (t i).state = .closeWait ∨ (t i).state = .finWait1 ∨
      (t i).state = .lastAck)
    (ack : has s.flags tcpAck = true) (full : s.ack = (t i).sndNxt) :
    Drains (tcpReceive env t p).table i ↔ Drainable (t i) s := by
  have handled : (tcpReceive env t p).table i = (deliverTo env t i p s).table i := by
    simp only [tcpReceive, ok, found]
  rw [drains_iff_idle, handled, deliverTo]
  unfold Drainable
  cases has s.flags tcpRst with
  | true =>
    rw [if_pos rfl, Effect.of_at]
    simp [Idle]
  | false =>
    have listening : (t i).state ≠ .listen := by
      rcases up with up | up | up | up <;> simp [up]
    rw [if_neg (by simp), if_neg listening, Effect.of_at]
    have streamed : Idle (onStream env (t i) s).1 ↔ Idle (onAck (t i) s) := by
      obtain ⟨tx, una, nxt⟩ := onStream_sendSide env (t i) s
      rw [Idle, Idle, tx, una, nxt]
    have drained := onAck_idle_iff ack full
    rcases up with up | up | up | up
    · simp only [arrive, up, streamed, drained]
      simp
    · simp only [arrive, up]
      simp
    · simp only [arrive, up, streamed, drained]
      simp
    · have freed : Idle (freeConn (t i)) := freeConn_idle (slotFor_spec found).1
      simp only [arrive, up, ack, full, and_self, if_true]
      simp [freed]

/-! ## A connection that has written one byte -/

/-- The acknowledgement `ack` of 10.0.0.9, port 80. -/
def ackSegment (ack : U32) : Segment := ⟨80, 50000, 101, ack, tcpAck, 0xFFFF, []⟩

def ackPacket (ack : U32) : Packet :=
  ⟨0x0A000009, 0x0A000005, segmentBytes 0x0A000009 0x0A000005 (ackSegment ack)⟩

theorem ack_of_data_drains : Drains (tcpReceive calmEnv (play boot talking) (ackPacket 2)).table 0 := by
  have parsed : parse (ackPacket 2) = some (ackSegment 2) :=
    parse_segmentBytes _ _ _ _ (by decide) rfl
  have covered : Drainable (play boot talking 0) (ackSegment 2) := by
    refine .inr ⟨by decide, .inr ⟨.inl (by decide +kernel), by decide +kernel, .inr ?_⟩⟩
    decide +kernel
  exact (full_ack_drains_iff calmEnv (play boot talking) 0 (ackPacket 2) (ackSegment 2) parsed
    (by decide +kernel) (.inl (by decide +kernel)) (by decide) (by decide +kernel)).mpr covered

/-- The byte, and the `FIN` behind it. -/
def closing : Table := play boot (talking ++ [(calmEnv, .shutdown (some 0))])

/-- The acknowledgement of a byte and a `FIN` is one more than the buffer holds, so the byte stays
in it, and a later tick sends it again. -/
theorem ack_of_fin_undrained :
    parse (ackPacket 3) = some (ackSegment 3) ∧
      slotFor closing (ackPacket 3) (ackSegment 3) = some 0 ∧
      (closing 0).state = .finWait1 ∧ has (ackSegment 3).flags tcpAck = true ∧
      (ackSegment 3).ack = (closing 0).sndNxt ∧
      ((tcpReceive calmEnv closing (ackPacket 3)).table 0).tx.toList = [7] ∧
      ((tcpTick later (tcpReceive calmEnv closing (ackPacket 3)).table).sentBy 0).map
        (·.seg.payload) = [[7]] ∧
      ¬Drains (tcpReceive calmEnv closing (ackPacket 3)).table 0 := by
  have parsed : parse (ackPacket 3) = some (ackSegment 3) :=
    parse_segmentBytes _ _ _ _ (by decide) rfl
  have held : ((tcpReceive calmEnv closing (ackPacket 3)).table 0).tx.len = 1 := by decide +kernel
  refine ⟨parsed, by decide +kernel, by decide +kernel, by decide, by decide +kernel,
    by decide +kernel, by decide +kernel, ?_⟩
  rintro ⟨⟨-, empty⟩, -⟩
  rw [held] at empty
  cases empty

end ReconOS.Tcp
