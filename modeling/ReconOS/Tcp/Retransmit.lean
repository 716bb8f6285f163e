import ReconOS.Tcp.Conn
import ReconOS.Tcp.Moves

/-! What the clock sends again: for every kind of segment that takes sequence numbers, whether the
tick after its deadline repeats it. -/
namespace ReconOS.Tcp

open Net

/-- What was sent first of the things not acknowledged yet. -/
inductive Thing where
  | syn | data | fin
  deriving DecidableEq, Repr

def finSent : State → Bool
  | .finWait1 | .finWait2 | .closing | .lastAck | .timeWait => true
  | _ => false

/-- What stands at `snd_una`. A `FIN` is last: it is what is left when one number is. -/
def oldest (c : Conn) : Thing :=
  if c.state = .synSent ∨ c.state = .synReceived then .syn
  else if finSent c.state ∧ c.sndNxt - c.sndUna = 1 then .fin
  else .data

/-- A segment that starts at `snd_una` and carries what stands there. -/
def Repeats (c : Conn) (o : Outgoing) : Prop :=
  o.seg.seq = c.sndUna ∧
  match oldest c with
  | .syn => has o.seg.flags tcpSyn = true
  | .fin => has o.seg.flags tcpFin = true
  | .data => o.seg.payload ≠ [] ∧ o.seg.payload <+: c.tx.toList

/-- A tick sends slot `i`'s oldest unacknowledged thing again, or the connection is closed with an
error after it. -/
def Resent (env : Env) (t : Table) (i : Slot) : Prop :=
  (∃ o ∈ (tcpTick env t).sentBy i, Repeats (t i) o) ∨
  ((tcpTick env t).table i).state = .closed ∧ ((tcpTick env t).table i).reset = true

/-- Closed already; or still kept, with bytes in the transmit buffer, and either given up on or
with a data byte at `snd_una` and a buffer to send it in. -/
def Repeatable (now : Nat) (ok : Bool) (c : Conn) : Prop :=
  c.state = .closed ∨
  ¬(c.state = .timeWait ∧ c.timeWaitUntil ≤ now) ∧ c.tx.len ≠ 0 ∧
    (maxRetries ≤ c.retries ∨ oldest c = .data ∧ ok = true)

/-! ## What holds of every slot in every reachable table -/

structure Sound (c : Conn) : Prop where
  closed : c.used = true → c.state = .closed → c.reset = true
  listen : c.used = true → c.state = .listen → c.sndUna = c.sndNxt
  armed : c.used = true → c.state ≠ .listen → c.state ≠ .closed → c.retransmitAt ≠ 0

theorem sound_unused {c : Conn} (h : c.used = false) : Sound c := by
  constructor <;> intro used <;> simp [h] at used

theorem Sound.of_kept {c c' : Conn} (h : Sound c) (kept : Kept c c')
    (was : c.state ≠ .listen ∧ c.state ≠ .closed) (now : c'.state ≠ .listen ∧ c'.state ≠ .closed) :
    Sound c' := by
  constructor
  · intro _ closed
    exact absurd closed now.2
  · intro _ listen
    exact absurd listen now.1
  · intro used _ _
    rw [kept.retransmitAt]
    exact h.armed (kept.used ▸ used) was.1 was.2

theorem arrived_sound {env : Env} {c c' : Conn} {s : Segment} {out : List Outgoing} (h : Sound c)
    (a : Arrived env c s c' out) : Sound c' := by
  cases a with
  | ignored => exact h
  | synAck opening =>
    exact h.of_kept ⟨rfl, rfl, rfl, rfl, rfl⟩ (by simp [opening]) (by simp)
  | handshake opening =>
    refine ⟨by simp, by simp, ?_⟩
    intro used _ _
    exact h.armed used (by simp [opening]) (by simp [opening])
  | stream up =>
    obtain ⟨kept, streamed⟩ := onStream_kept env c s
    apply h.of_kept kept
    · rcases up with up | up | up <;> simp [up]
    · generalize (onStream env c s).1.state = b at streamed
      generalize c.state = a at streamed up
      cases streamed with
      | stay => rcases up with up | up | up <;> simp [up]
      | closeWait | finWait2 | timeWait => simp
  | finished => exact sound_unused (freeConn_used c)

theorem backoff_pos (retries : Nat) : 0 < backoff retries := by
  rw [backoff, Nat.shiftLeft_eq]
  exact Nat.mul_pos (by simp [rtoNs]) (Nat.two_pow_pos _)

theorem ticked_sound {c : Conn} (now : Nat) (ok : Bool) (h : Sound c) :
    Sound (tickConn now ok c).1 := by
  unfold tickConn
  split
  · exact h
  split
  · exact sound_unused (freeConn_used c)
  split
  case isTrue due =>
    split
    · exact ⟨by simp, by simp, by simp⟩
    · refine ⟨h.closed, h.listen, ?_⟩
      intro _ _ _
      have := backoff_pos (c.retries + 1)
      dsimp only
      omega
  case isFalse => exact h

theorem shut_sound {c : Conn} (ok : Bool) (h : Sound c) : Sound (shutdownConn ok c).1 := by
  unfold shutdownConn
  split
  case h_1 up | h_2 up =>
    refine ⟨by simp, by simp, ?_⟩
    intro used _ _
    exact h.armed used (by simp [up]) (by simp [up])
  case h_3 | h_4 => exact sound_unused (freeConn_used c)
  case h_5 => exact h

theorem moves_sound {env : Env} {t : Table} {i : Slot} {call : Call} {c : Conn}
    {out : List Outgoing} (m : Moves env t i call c out) (h : Sound (t i)) : Sound c := by
  cases m with
  | stay => exact h
  | vacant _ _ _ still => exact sound_unused still
  | opens => exact ⟨by simp [opening], by simp [opening], by simp [opening, rtoNs]⟩
  | listens => exact ⟨by simp [listener], by simp [listener, fresh, Conn.zero], by simp [listener]⟩
  | passive => exact ⟨by simp [opened], by simp [opened], by simp [opened, rtoNs]⟩
  | accepts => exact ⟨h.closed, h.listen, h.armed⟩
  | writes data used up =>
    unfold writeConn
    dsimp only
    split
    · exact ⟨by simp [up], by simp [up], by simp [rtoNs]⟩
    · exact ⟨h.closed, h.listen, h.armed⟩
  | reads => exact ⟨h.closed, h.listen, h.armed⟩
  | shuts => exact shut_sound _ h
  | resets => exact ⟨by simp, by simp, by simp⟩
  | arrives _ s => exact arrived_sound h (arrive_cases env (t i) s)
  | ticks => exact ticked_sound _ _ h

theorem reachable_sound {t : Table} (h : Reachable t) (i : Slot) : Sound (t i) := by
  induction h generalizing i with
  | boot => exact sound_unused rfl
  | step env call _ ih => exact moves_sound (moves env _ i call) (ih i)

/-! ## What the tick repeats -/

/-- A retransmission repeats what is oldest exactly when that is data. -/
theorem repeats_iff (c : Conn) (o : Outgoing) (seq : o.seg.seq = c.sndUna)
    (flags : o.seg.flags = tcpAck ||| tcpPsh)
    (payload : o.seg.payload = c.tx.span 0 (min c.tx.len chunkSize)) (some : c.tx.len ≠ 0) :
    Repeats c o ↔ oldest c = .data := by
  have front : o.seg.payload <+: c.tx.toList := by
    rw [payload, Ring.span_eq _ _ _ (by omega), List.drop_zero]
    exact List.take_prefix _ _
  have held : o.seg.payload ≠ [] := by
    intro none
    have length := congrArg List.length (payload.symm.trans none)
    simp only [Ring.span_length, List.length_nil, chunkSize] at length
    omega
  unfold Repeats
  cases oldest c with
  | syn => simp [flags, has, tcpAck, tcpPsh, tcpSyn]
  | fin => simp [flags, has, tcpAck, tcpPsh, tcpFin]
  | data => simp [seq, front, held]

theorem retransmission_sent (ok : Bool) (c : Conn) (retries : Nat) :
    sendSegment ok { c with retries := retries } (tcpAck ||| tcpPsh) c.sndUna
      (c.tx.span 0 (min c.tx.len chunkSize)) =
    if ok then [⟨c.localIp, c.remoteIp, ⟨c.localPort, c.remotePort, c.sndUna, c.rcvNxt,
      tcpAck ||| tcpPsh, BitVec.ofNat 16 (rxFree c), c.tx.span 0 (min c.tx.len chunkSize)⟩⟩]
    else [] := by
  have fits : (c.tx.span 0 (min c.tx.len chunkSize)).length ≤ netBufCapacity - netHeadroom := by
    rw [Ring.span_length]
    exact Nat.le_trans (Nat.min_le_right _ _) (by decide)
  cases ok with
  | false => simp [sendSegment]
  | true => rw [sendSegment, if_pos ⟨rfl, fits⟩, if_pos rfl]; rfl

theorem closed_iff {c : Conn} (sound : Sound c) (used : c.used = true) :
    c.state = .closed ∧ c.reset = true ↔ c.state = .closed :=
  and_iff_left_of_imp (sound.closed used)

/-- For every reachable connection with something outstanding, the tick after the deadline repeats
the oldest of it, or ends the connection with an error, exactly when that is data. -/
theorem resent_iff {t : Table} (h : Reachable t) (env : Env) (i : Slot)
    (used : (t i).used = true) (outstanding : (t i).sndUna ≠ (t i).sndNxt)
    (due : (t i).retransmitAt ≤ env.now) :
    Resent env t i ↔ Repeatable env.now (env.netbuf i) (t i) := by
  have sound := reachable_sound h i
  unfold Resent Repeatable
  rw [tick_sentBy, show (tcpTick env t).table i = (tickConn env.now (env.netbuf i) (t i)).1 from rfl]
  generalize t i = c at *
  generalize env.netbuf i = ok
  unfold tickConn
  rw [if_neg (by simp [used])]
  by_cases expired : c.state = .timeWait ∧ c.timeWaitUntil ≤ env.now
  · simp [expired, freeConn, used, Conn.zero]
  rw [if_neg expired]
  by_cases some : c.tx.len ≠ 0 ∧ c.retransmitAt ≠ 0 ∧ c.retransmitAt ≤ env.now
  case neg =>
    -- Nothing in the buffer: an armed timer is the only other thing that could be missing.
    have empty : c.tx.len ≠ 0 → c.state = .closed := by
      intro held
      by_contra open'
      have listening : c.state ≠ .listen := fun l => outstanding (sound.listen used l)
      exact some ⟨held, sound.armed used listening open', due⟩
    rw [if_neg some]
    simp only [List.not_mem_nil, false_and, exists_false, false_or, closed_iff sound used]
    constructor
    · exact .inl
    · rintro (closed | ⟨-, held, -⟩)
      · exact closed
      · exact empty held
  case pos =>
    rw [if_pos some]
    by_cases limit : maxRetries ≤ c.retries
    · simp [limit, expired, some.1]
    · rw [if_neg limit]
      dsimp only
      rw [retransmission_sent, closed_iff sound used]
      cases ok with
      | false => simp [limit]
      | true =>
        simp only [if_true, List.mem_singleton, exists_eq_left, limit, false_or, and_true]
        rw [repeats_iff c _ rfl rfl rfl some.1]
        constructor
        · rintro (data | closed)
          · exact .inr ⟨expired, some.1, data⟩
          · exact .inl closed
        · rintro (closed | ⟨-, -, data⟩)
          · exact .inr closed
          · exact .inl data

/-! ## Two connections -/

/-- The call answered, and a byte written. -/
def talking : List (Env × Call) :=
  dialling ++ [(calmEnv, .receive synAckSegment), (calmEnv, .write (some 0) [7])]

/-- A minute on. -/
def later : Env := { calmEnv with now := 60 * 1000000000 }

theorem talking_resent : Resent later (play boot talking) 0 := by
  apply (resent_iff (play_reachable .boot talking) later 0 (by decide) (by decide) (by decide)).2
  exact .inr ⟨by decide, by decide, .inr ⟨by decide, rfl⟩⟩

/-- A lost `SYN` is not sent again. -/
theorem dialling_not_resent :
    Reachable (play boot dialling) ∧ (play boot dialling 0).used = true ∧
    (play boot dialling 0).sndUna ≠ (play boot dialling 0).sndNxt ∧
    (play boot dialling 0).retransmitAt ≤ later.now ∧ ¬Resent later (play boot dialling) 0 := by
  refine ⟨play_reachable .boot dialling, by decide, by decide, by decide, ?_⟩
  rintro (⟨o, sent, -⟩ | ⟨closed, -⟩)
  · have none : (tcpTick later (play boot dialling)).sentBy 0 = [] := by decide
    rw [none] at sent
    cases sent
  · have open' : ((tcpTick later (play boot dialling)).table 0).state = .synSent := by decide
    rw [open'] at closed
    cases closed

end ReconOS.Tcp
