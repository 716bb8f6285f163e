import ReconOS.Tcp.Conn
import ReconOS.Tcp.Moves
import ReconOS.Tcp.Sockets

/-! Who answers for a connection slot: an open socket, a listener that can hand it out, or the
clock. -/
namespace ReconOS.Tcp

open Net

/-! ## The clock -/

/-- Ticks at the given times, one after the other. -/
def ticks (t : Table) : List Env → Table
  | [] => t
  | env :: rest => ticks (tcpTick env t).table rest

/-- Whenever it is, some further ticks alone bring slot `i` back to the free state. -/
def TicksFree (t : Table) (i : Slot) : Prop :=
  ∀ now, ∃ envs : List Env, (∀ env ∈ envs, now ≤ env.now) ∧ (ticks t envs i).used = false

theorem tick_not_waiting {c : Conn} (now : Nat) (ok : Bool) (used : c.used = true)
    (state : c.state ≠ .timeWait) :
    (tickConn now ok c).1.used = true ∧ (tickConn now ok c).1.state ≠ .timeWait := by
  unfold tickConn
  rw [if_neg (by simp [used]), if_neg (by simp [state])]
  split
  · split
    · exact ⟨used, by simp⟩
    · exact ⟨used, state⟩
  · exact ⟨used, state⟩

theorem ticks_not_waiting {t : Table} {i : Slot} (envs : List Env) (used : (t i).used = true)
    (state : (t i).state ≠ .timeWait) : (ticks t envs i).used = true := by
  induction envs generalizing t with
  | nil => exact used
  | cons env rest ih =>
    obtain ⟨used', state'⟩ := tick_not_waiting env.now (env.netbuf i) used state
    exact ih used' state'

/-- Time alone frees a slot exactly in `TIME_WAIT`. -/
theorem ticksFree_iff {t : Table} {i : Slot} (used : (t i).used = true) :
    TicksFree t i ↔ (t i).state = .timeWait := by
  constructor
  · intro free
    by_contra state
    obtain ⟨envs, -, gone⟩ := free 0
    rw [ticks_not_waiting envs used state] at gone
    cases gone
  · intro state now
    let env : Env := ⟨max now (t i).timeWaitUntil, none, none, none, fun _ => false⟩
    refine ⟨[env], by simp [env], ?_⟩
    have past : (t i).state = .timeWait ∧ (t i).timeWaitUntil ≤ env.now := ⟨state, Nat.le_max_right _ _⟩
    change (tickConn env.now (env.netbuf i) (t i)).1.used = false
    unfold tickConn
    rw [if_neg (by simp [used]), if_pos past]
    exact freeConn_used _

/-! ## Who answers -/

/-- An open socket's connection is slot `i`. -/
def Owns (s : Socket) (i : Slot) : Prop := s.used = true ∧ s.conn = some i

/-- An open listener's `accept` returns, or will once its handshake is over, connection `c`. -/
def Offers (s : Socket) (c : Conn) : Prop :=
  s.used = true ∧ s.listening = true ∧ s.conn ≠ none ∧ c.acceptOf = s.conn ∧
    (c.acceptPending = true ∨ c.state = .synReceived)

def Answers (s : Socket) (i : Slot) (c : Conn) : Prop := Owns s i ∨ Offers s c

instance (s : Socket) (i : Slot) : Decidable (Owns s i) := inferInstanceAs (Decidable (_ ∧ _))
instance (s : Socket) (c : Conn) : Decidable (Offers s c) := inferInstanceAs (Decidable (_ ∧ _))
instance (s : Socket) (i : Slot) (c : Conn) : Decidable (Answers s i c) :=
  inferInstanceAs (Decidable (_ ∨ _))

/-- Every slot in use is answered for, or time alone frees it. -/
def NoLeak (st : Stack) : Prop :=
  ∀ i, (st.conns i).used = true →
    (∃ k, Answers (st.socks k) i (st.conns i)) ∨ TicksFree st.conns i

/-- The same for one slot, by what it holds. -/
def Tied (socks : Handle → Socket) (i : Slot) (c : Conn) : Prop :=
  c.used = true → (∃ k, Answers (socks k) i c) ∨ c.state = .timeWait

theorem noLeak_iff (st : Stack) : NoLeak st ↔ ∀ i, Tied st.socks i (st.conns i) := by
  apply forall_congr'
  intro i
  apply imp_congr_right
  intro used
  rw [ticksFree_iff used]

/-! ## The condition on a call -/

/-- Some other open socket answers for slot `i` when `k` no longer does. -/
def Covered (st : Stack) (k : Handle) (i : Slot) : Prop :=
  ∃ k', k' ≠ k ∧ Answers (st.socks k') i (st.conns i)

/-- A tick would give the connection up. -/
def GivesUp (now : Nat) (c : Conn) : Prop :=
  c.used = true ∧ ¬(c.state = .timeWait ∧ c.timeWaitUntil ≤ now) ∧
    (c.tx.len ≠ 0 ∧ c.retransmitAt ≠ 0 ∧ c.retransmitAt ≤ now) ∧ maxRetries ≤ c.retries

/-- A socket holds slot `i`, or can be handed it as it is. -/
def Held (st : Stack) (i : Slot) : Prop :=
  ∃ k, Owns (st.socks k) i ∨ Offers (st.socks k) (st.conns i) ∧ (st.conns i).acceptPending = true

/-- The socket gives up what it answers for only where another answers too, or in `TIME_WAIT`. -/
def LetsGo (st : Stack) (k : Handle) : Prop :=
  ∀ i, (st.conns i).used = true → Answers (st.socks k) i (st.conns i) →
    Covered st k i ∨ (st.conns i).state = .timeWait

/-- The states in which `tcp_shutdown` frees a slot, or the clock will. -/
def Ending (a : State) : Prop := a = .listen ∨ a = .synSent ∨ a = .timeWait

/-- The call strands no slot. -/
def Safe (env : SockEnv) (st : Stack) : SockCall → Prop
  | .listen k => (st.socks k).type = sockStream → (st.socks k).bound = true → LetsGo st k
  | .connect k _ _ => (st.socks k).type = sockStream → LetsGo st k
  | .accept k => (∀ n, (st.socks n).used = true) → (st.socks k).listening = true →
      ∀ i, (tcpAcceptReady st.conns (st.socks k).conn).slot = some i →
        (∃ k', Owns (st.socks k') i) ∨ Ending (st.conns i).state
  | .close k => ∀ i, (st.conns i).used = true → Answers (st.socks k) i (st.conns i) →
      Covered st k i ∨ (st.conns i).state = .timeWait ∨
        (st.socks k).conn = some i ∧ Ending (st.conns i).state
  | .receive p => ∀ s i, parse p = some s → slotFor st.conns p s = some i →
      (has s.flags tcpRst = true → Held st i) ∧
      (has s.flags tcpRst = false → has s.flags tcpSyn = true → (st.conns i).state = .listen →
        ∃ k, Owns (st.socks k) i ∧ (st.socks k).listening = true)
  | .tick => ∀ i, GivesUp env.now (st.conns i) → Held st i
  | .create _ | .bind _ _ _ | .send _ _ | .recv _ _ => True

/-! ## One slot -/

variable {socks : Handle → Socket} {i : Slot} {c c' : Conn}

/-- A slot that keeps its listener, its flag and its handshake stays answered for. -/
theorem Answers.of_conn {s : Socket} (h : Answers s i c) (acceptOf : c'.acceptOf = c.acceptOf)
    (pending : c.acceptPending = true → c'.acceptPending = true)
    (early : c.state = .synReceived → c'.state = .synReceived ∨ c'.acceptPending = true) :
    Answers s i c' := by
  cases h with
  | inl owns => exact .inl owns
  | inr offers =>
    obtain ⟨used, listening, some, same, ready⟩ := offers
    refine .inr ⟨used, listening, some, acceptOf.trans same, ?_⟩
    cases ready with
    | inl ready => exact .inl (pending ready)
    | inr ready => exact (early ready).symm

theorem Tied.of_conn (h : Tied socks i c) (used : c'.used = true → c.used = true)
    (acceptOf : c'.acceptOf = c.acceptOf)
    (pending : c.acceptPending = true → c'.acceptPending = true)
    (early : c.state = .synReceived → c'.state = .synReceived ∨ c'.acceptPending = true)
    (wait : c.state = .timeWait → c'.state = .timeWait) : Tied socks i c' := by
  intro used'
  cases h (used used') with
  | inl answered =>
    obtain ⟨k, answers⟩ := answered
    exact .inl ⟨k, answers.of_conn acceptOf pending early⟩
  | inr waits => exact .inr (wait waits)

theorem kept_unused (h : c.used = false) : Tied socks i c := by
  intro used
  rw [h] at used
  cases used

theorem Held.kept {st : Stack} (h : Held st i) (acceptOf : c'.acceptOf = (st.conns i).acceptOf)
    (pending : c'.acceptPending = (st.conns i).acceptPending) : Tied st.socks i c' := by
  obtain ⟨k, owns | ⟨⟨used, listening, some, same, -⟩, ready⟩⟩ := h
  · exact fun _ => .inl ⟨k, .inl owns⟩
  · exact fun _ => .inl ⟨k, .inr ⟨used, listening, some, acceptOf.trans same, .inl (pending ▸ ready)⟩⟩

theorem arrived_kept {env : Env} {s : Segment} {out : List Outgoing} (h : Tied socks i c)
    (a : Arrived env c s c' out) : Tied socks i c' := by
  cases a with
  | ignored => exact h
  | synAck opening =>
    exact h.of_conn id rfl id (fun early => by simp [opening] at early)
      (fun wait => by simp [opening] at wait)
  | handshake opening =>
    exact h.of_conn id rfl (fun _ => rfl) (fun _ => .inr rfl) (fun wait => by simp [opening] at wait)
  | stream up =>
    obtain ⟨kept, -⟩ := onStream_kept env c s
    have streaming : c.state ≠ .synReceived ∧ c.state ≠ .timeWait := by
      rcases up with up | up | up <;> simp [up]
    exact h.of_conn (fun used => kept.used ▸ used) kept.acceptOf
      (fun pending => kept.acceptPending.trans pending)
      (fun early => absurd early streaming.1) (fun wait => absurd wait streaming.2)
  | finished => exact kept_unused (freeConn_used c)

theorem received_kept {env : SockEnv} {st : Stack} {p : Packet} {out : List Outgoing}
    (safe : Safe env st (.receive p)) (m : Moves env.toEnv st.conns i (.receive p) c out)
    (h : Tied st.socks i (st.conns i)) : Tied st.socks i c := by
  cases m with
  | stay => exact h
  | vacant _ _ _ still => exact kept_unused still
  | passive _ s j tx rx iss _ ok found calm listening syn =>
    obtain ⟨k, ⟨used, owns⟩, listens⟩ := (safe s j ok found).2 calm syn listening
    exact fun _ => .inl ⟨k, .inr ⟨used, listens, by simp [owns], owns.symm, .inr rfl⟩⟩
  | resets _ s ok found rst => exact ((safe s i ok found).1 rst).kept rfl rfl
  | arrives _ s => exact arrived_kept h (arrive_cases env.toEnv (st.conns i) s)

theorem ticked_kept {now : Nat} {st : Stack} (ok : Bool)
    (safe : GivesUp now (st.conns i) → Held st i) (h : Tied st.socks i (st.conns i)) :
    Tied st.socks i (tickConn now ok (st.conns i)).1 := by
  unfold tickConn
  split
  case isTrue => exact h
  case isFalse used =>
    split
    case isTrue => exact kept_unused (freeConn_used _)
    case isFalse waits =>
      split
      case isFalse => exact h
      case isTrue due =>
        split
        case isTrue limit =>
          exact (safe ⟨by simpa using used, waits, due, limit⟩).kept rfl rfl
        case isFalse => exact h.of_conn id rfl id .inl id

theorem written_kept (now : Nat) (ok : Bool) (data : List U8) (h : Tied socks i c) :
    Tied socks i (writeConn now ok c data).1 := by
  unfold writeConn
  dsimp only
  split <;> exact h.of_conn id rfl id .inl id

/-- A call below the sockets that neither takes a slot nor ends a connection. -/
theorem moved_kept {env : Env} {t : Table} {call : Call} {out : List Outgoing}
    (m : Moves env t i call c out) (h : Tied socks i (t i))
    (call' : (∃ idx data, call = .write idx data) ∨ ∃ idx len, call = .read idx len) :
    Tied socks i c := by
  cases m with
  | stay => exact h
  | vacant _ _ _ still => exact kept_unused still
  | writes data => exact written_kept _ _ data h
  | reads => exact h.of_conn id rfl id .inl id
  | _ => simp at call'

/-! ## A slot taken, closed or handed out -/

/-- What an open does: the slot it names is new, and no other slot in use changes. -/
structure Takes (t : Table) (e : Effect) : Prop where
  others : ∀ i, e.slot ≠ some i → e.table i = t i ∨ (e.table i).used = false

theorem takes_none {env : Env} {t : Table} (h : (allocConn env t).2 = none) :
    Takes t (.idle (allocConn env t).1) := by
  refine ⟨fun i _ => ?_⟩
  cases allocConn_none h i with
  | inl same => exact .inl same
  | inr cleared =>
    right
    rw [Effect.idle_table, cleared.2]
    rfl

theorem takes_refused {env : Env} {t : Table} {n : Slot} (h : (allocConn env t).2 = some n) :
    Takes t (.idle (Function.update (allocConn env t).1 n (freeConn ((allocConn env t).1 n)))) := by
  obtain ⟨-, -, others⟩ := allocConn_some h
  refine ⟨fun i _ => ?_⟩
  rw [Effect.idle_table]
  by_cases at_n : i = n
  · subst at_n
    rw [Function.update_self]
    exact .inr (freeConn_used _)
  · rw [Function.update_of_ne at_n]
    exact .inl (others i at_n)

theorem takes_some {env : Env} {t : Table} {n : Slot} (h : (allocConn env t).2 = some n)
    (r : Conn × List Outgoing) :
    Takes t { Effect.of (allocConn env t).1 n r with slot := some n } := by
  obtain ⟨-, -, others⟩ := allocConn_some h
  refine ⟨fun i away => .inl ?_⟩
  have at_n : i ≠ n := fun eq => away (by rw [eq])
  exact (Effect.of_other r at_n).trans (others i at_n)

theorem open_takes (env : Env) (t : Table) (l : Ipv4Addr) (lp : U16) (r : Ipv4Addr) (rp : U16) :
    Takes t (tcpOpen env t l lp r rp) := by
  unfold tcpOpen
  split
  case h_1 none => exact takes_none none
  case h_2 n some =>
    split
    · exact takes_refused some
    · exact takes_some some _

theorem listen_takes (env : Env) (t : Table) (l : Ipv4Addr) (port : U16) :
    Takes t (tcpOpenListener env t l port) := by
  unfold tcpOpenListener
  split
  case h_1 none => exact takes_none none
  case h_2 n some => exact takes_some some _

/-- Socket `k` turns to the slot an open took, or to none. -/
theorem taken_kept {st : Stack} {k : Handle} {e : Effect} {s : Socket}
    (h : ∀ i, Tied st.socks i (st.conns i)) (takes : Takes st.conns e) (goes : LetsGo st k)
    (used : s.used = true) (conn : s.conn = e.slot) (i : Slot) :
    Tied (Function.update st.socks k s) i (e.table i) := by
  by_cases new : e.slot = some i
  · refine fun _ => .inl ⟨k, .inl ?_⟩
    rw [Function.update_self]
    exact ⟨used, conn.trans new⟩
  · intro inUse
    rcases takes.others i new with same | free
    · rw [same] at inUse ⊢
      rcases h i inUse with ⟨k', answers⟩ | waits
      · by_cases at_k : k' = k
        · subst at_k
          rcases goes i inUse answers with ⟨other, away, answers'⟩ | waits
          · exact .inl ⟨other, by rwa [Function.update_of_ne away]⟩
          · exact .inr waits
        · exact .inl ⟨k', by rwa [Function.update_of_ne at_k]⟩
      · exact .inr waits
    · rw [free] at inUse
      cases inUse

theorem shut_kept (ok : Bool) (h : Tied socks i c)
    (safe : c.used = true → (∃ k, Answers (socks k) i c) ∨ Ending c.state) :
    Tied socks i (shutdownConn ok c).1 := by
  have settle : (c.state ≠ .listen ∧ c.state ≠ .synSent ∧ c.state ≠ .timeWait) →
      c.used = true → ∃ k, Answers (socks k) i c := by
    rintro ⟨listen, sent, waits⟩ used
    rcases safe used with answered | ends | ends | ends
    · exact answered
    · exact absurd ends listen
    · exact absurd ends sent
    · exact absurd ends waits
  unfold shutdownConn
  split
  case h_1 up | h_2 up =>
    intro used
    obtain ⟨k, answers⟩ := settle (by simp [up]) used
    exact .inl ⟨k, answers.of_conn rfl id (fun early => by simp [up] at early)⟩
  case h_3 | h_4 => exact kept_unused (freeConn_used c)
  case h_5 => exact h

/-- Shut down in a state that ends by itself, or is freed at once. -/
theorem ending_kept (ok : Bool) (ends : Ending c.state) : Tied socks i (shutdownConn ok c).1 := by
  unfold shutdownConn
  rcases ends with state | state | state
  · rw [state]; exact kept_unused (freeConn_used _)
  · rw [state]; exact kept_unused (freeConn_used _)
  · rw [state]; exact fun _ => .inr state

theorem shutdown_at (env : Env) {t : Table} (j : Slot) (i : Slot) :
    (tcpShutdown env t (some j)).table i = t i ∧ (i = j → (t i).used = false) ∨
    i = j ∧ (tcpShutdown env t (some j)).table i = (shutdownConn (env.netbuf 0) (t j)).1 := by
  unfold tcpShutdown
  dsimp only
  split
  case isTrue unused => exact .inl ⟨rfl, by rintro rfl; simpa using unused⟩
  case isFalse =>
    by_cases at_j : i = j
    · subst at_j
      exact .inr ⟨rfl, Effect.of_at _⟩
    · exact .inl ⟨Effect.of_other _ at_j, fun eq => absurd eq at_j⟩

/-- Socket `k` is closed, and its connection shut down. -/
theorem closed_kept {env : SockEnv} {st : Stack} {k : Handle} {j : Slot}
    (h : Tied st.socks i (st.conns i)) (safe : Safe env st (.close k))
    (conn : (st.socks k).conn = some j) :
    Tied (Function.update st.socks k (.zero none)) i
      ((tcpShutdown env.toEnv st.conns (some j)).table i) := by
  -- Whoever else answers for the slot still does.
  have others : (st.conns i).used = true →
      (∃ k', Answers (Function.update st.socks k (.zero none) k') i (st.conns i)) ∨
      (st.conns i).state = .timeWait ∨ i = j ∧ Ending (st.conns i).state := by
    intro used
    have move : ∀ k', k' ≠ k → Answers (st.socks k') i (st.conns i) →
        ∃ k', Answers (Function.update st.socks k (.zero none) k') i (st.conns i) :=
      fun k' away answers => ⟨k', by rwa [Function.update_of_ne away]⟩
    rcases h used with ⟨k', answers⟩ | waits
    · by_cases at_k : k' = k
      · subst at_k
        rcases safe i used answers with ⟨other, away, answers'⟩ | waits | ⟨own, ends⟩
        · exact .inl (move other away answers')
        · exact .inr (.inl waits)
        · exact .inr (.inr ⟨Option.some.inj (own.symm.trans conn), ends⟩)
      · exact .inl (move k' at_k answers)
    · exact .inr (.inl waits)
  rcases shutdown_at env.toEnv (t := st.conns) j i with ⟨same, unused⟩ | ⟨rfl, shut⟩
  · rw [same]
    intro used
    rcases others used with answered | waits | ⟨at_j, -⟩
    · exact .inl answered
    · exact .inr waits
    · rw [unused at_j] at used
      cases used
  · rw [shut]
    by_cases ends : Ending (st.conns i).state
    · exact ending_kept _ ends
    · have answered : (st.conns i).used = true →
          ∃ k', Answers (Function.update st.socks k (.zero none) k') i (st.conns i) := by
        intro used
        rcases others used with answered | waits | ⟨-, ends'⟩
        · exact answered
        · exact absurd (.inr (.inr waits)) ends
        · exact absurd ends' ends
      exact shut_kept _ (fun used => .inl (answered used)) fun used => .inl (answered used)

/-- What `tcp_accept_ready` does: nothing, or it clears the flag of the slot it names. -/
theorem acceptReady_cases (t : Table) (l : Option Slot) :
    (tcpAcceptReady t l).slot = none ∧ (tcpAcceptReady t l).table = t ∨
    ∃ i, (tcpAcceptReady t l).slot = some i ∧
      (tcpAcceptReady t l).table = Function.update t i { t i with acceptPending := false } := by
  unfold tcpAcceptReady
  split
  · exact .inl ⟨rfl, rfl⟩
  · split
    · exact .inl ⟨rfl, rfl⟩
    · exact .inr ⟨_, rfl, rfl⟩

/-! ## Runs -/

/-- Only a stream socket that is open has a connection. -/
structure Formed (st : Stack) : Prop where
  used : ∀ k, (st.socks k).type = sockStream → (st.socks k).used = true
  stream : ∀ k, (st.socks k).used = true → (st.socks k).conn ≠ none → (st.socks k).type = sockStream

structure Good (st : Stack) : Prop where
  formed : Formed st
  kept : ∀ i, Tied st.socks i (st.conns i)

theorem boot_good : Good .boot where
  formed := ⟨by simp [Stack.boot, Socket.zero, sockStream], by simp [Stack.boot, Socket.zero]⟩
  kept _ := kept_unused rfl

theorem Formed.table {st : Stack} (h : Formed st) (t : Table) : Formed ⟨t, st.socks⟩ :=
  ⟨h.used, h.stream⟩

theorem Formed.setSock {st : Stack} (h : Formed st) {k : Handle} {s : Socket}
    (used : s.type = sockStream → s.used = true)
    (stream : s.used = true → s.conn ≠ none → s.type = sockStream) : Formed (st.setSock k s) := by
  constructor
  · intro k'
    by_cases at_k : k' = k
    · subst at_k
      simpa only [Stack.setSock, Function.update_self] using used
    · simpa only [Stack.setSock, Function.update_of_ne at_k] using h.used k'
  · intro k'
    by_cases at_k : k' = k
    · subst at_k
      simpa only [Stack.setSock, Function.update_self] using stream
    · simpa only [Stack.setSock, Function.update_of_ne at_k] using h.stream k'

/-- A socket that answers for all it answered for before. -/
theorem Tied.setSock {k : Handle} {s : Socket} (h : Tied socks i c)
    (answers : Answers (socks k) i c → Answers s i c) : Tied (Function.update socks k s) i c := by
  intro used
  rcases h used with ⟨k', answers'⟩ | waits
  · refine .inl ⟨k', ?_⟩
    by_cases at_k : k' = k
    · subst at_k
      rw [Function.update_self]
      exact answers answers'
    · rwa [Function.update_of_ne at_k]
  · exact .inr waits

/-- A socket changed in nothing that says what it answers for. -/
theorem Good.setSock {st : Stack} (h : Good st) {k : Handle} {s : Socket}
    (used : s.used = (st.socks k).used) (type : s.type = (st.socks k).type)
    (listening : s.listening = (st.socks k).listening) (conn : s.conn = (st.socks k).conn) :
    Good (st.setSock k s) where
  formed := by
    apply h.formed.setSock
    · rw [used, type]
      exact h.formed.used k
    · rw [used, type, conn]
      exact h.formed.stream k
  kept i := by
    apply (h.kept i).setSock
    simp only [Answers, Owns, Offers, used, listening, conn]
    exact id

theorem create_cases (st : Stack) (type : Nat) :
    (socketCreate st type).stack = st ∧ (socketCreate st type).socket = none ∧
      ((type = sockStream ∨ type = sockDgram) → ∀ k, (st.socks k).used = true) ∨
    ∃ k, (st.socks k).used = false ∧ (socketCreate st type).socket = some k ∧
      (socketCreate st type).stack =
        st.setSock k { Socket.zero none with used := true, type := type } := by
  unfold socketCreate
  split
  case isTrue bad =>
    refine .inl ⟨rfl, rfl, fun good => ?_⟩
    rcases good with good | good
    · exact absurd good bad.1
    · exact absurd good bad.2
  case isFalse =>
    split
    case h_1 full =>
      refine .inl ⟨rfl, rfl, fun _ k => ?_⟩
      simpa using List.find?_eq_none.1 full k (List.mem_finRange k)
    case h_2 k found => exact .inr ⟨k, by simpa using List.find?_some found, rfl, rfl⟩

/-- A socket that is not open answers for nothing, so it may become anything. -/
theorem Good.fill {st : Stack} (h : Good st) {k : Handle} {s : Socket}
    (free : (st.socks k).used = false) (used : s.used = true)
    (stream : s.conn ≠ none → s.type = sockStream) : Good (st.setSock k s) where
  formed := h.formed.setSock (fun _ => used) fun _ => stream
  kept i := by
    apply (h.kept i).setSock
    rintro (⟨open', -⟩ | ⟨open', -⟩) <;> simp [free] at open'

theorem create_good {st : Stack} (h : Good st) (type : Nat) : Good (socketCreate st type).stack := by
  rcases create_cases st type with ⟨same, -, -⟩ | ⟨k, free, -, made⟩
  · rwa [same]
  · rw [made]
    exact h.fill free rfl fun conn => absurd rfl conn

theorem bind_good {env : SockEnv} {st : Stack} (h : Good st) (k : Handle) (addr : Ipv4Addr)
    (port : U16) : Good (socketBind env st k addr port).stack := by
  unfold socketBind
  dsimp only
  split
  · exact h
  · split
    · exact h
    · exact h.setSock rfl rfl rfl rfl

/-- An open on behalf of socket `k`, which then names the slot it took. -/
theorem taken_good {st : Stack} (h : Good st) {k : Handle} {e : Effect} {s : Socket}
    (takes : Takes st.conns e) (goes : LetsGo st k) (type : s.type = sockStream)
    (used : s.used = true) (conn : s.conn = e.slot) :
    Good ((Stack.mk e.table st.socks).setSock k s) where
  formed := (h.formed.table e.table).setSock (fun _ => used) fun _ _ => type
  kept i := by
    have := taken_kept h.kept takes goes used conn i
    exact this

theorem listen_good {env : SockEnv} {st : Stack} (h : Good st) {k : Handle}
    (safe : Safe env st (.listen k)) : Good (socketListen env st k).stack := by
  unfold socketListen
  dsimp only
  split
  case isTrue => exact h
  case isFalse ok =>
    simp only [ne_eq, Bool.not_eq_true', not_or, not_not, Bool.not_eq_false] at ok
    have goes := safe ok.1 ok.2
    have takes := listen_takes env.toEnv st.conns (st.socks k).localIp (st.socks k).localPort
    have used := h.formed.used k ok.1
    split
    case h_1 none => exact taken_good h takes goes ok.1 used none.symm
    case h_2 i some => exact taken_good h takes goes ok.1 used some.symm

/-- A socket rewritten in nothing that says what it answers for. -/
structure SameClaim (s s' : Socket) : Prop where
  used : s'.used = s.used
  type : s'.type = s.type
  listening : s'.listening = s.listening
  conn : s'.conn = s.conn

theorem SameClaim.answers {s s' : Socket} (h : SameClaim s s') : Answers s' i c ↔ Answers s i c := by
  simp only [Answers, Owns, Offers, h.used, h.listening, h.conn]

theorem bind_cases (env : SockEnv) (st : Stack) (k : Handle) (addr : Ipv4Addr) (port : U16) :
    (socketBind env st k addr port).stack = st ∨
    ∃ s, SameClaim (st.socks k) s ∧ (socketBind env st k addr port).stack = st.setSock k s := by
  unfold socketBind
  dsimp only
  split
  · exact .inl rfl
  · split
    · exact .inl rfl
    · refine .inr ⟨_, ?_, rfl⟩
      exact ⟨rfl, rfl, rfl, rfl⟩

theorem LetsGo.setSock {st : Stack} {k : Handle} {s : Socket} (h : LetsGo st k)
    (same : SameClaim (st.socks k) s) : LetsGo (st.setSock k s) k := by
  intro i used answers
  simp only [Stack.setSock, Function.update_self] at used answers
  rcases h i used (same.answers.1 answers) with ⟨k', away, answers'⟩ | waits
  · refine .inl ⟨k', away, ?_⟩
    simpa only [Stack.setSock, Function.update_of_ne away] using answers'
  · exact .inr waits

theorem connect_good {env : SockEnv} {st : Stack} (h : Good st) {k : Handle} {addr : Ipv4Addr}
    {port : U16} (safe : Safe env st (.connect k addr port)) :
    Good (socketConnect env st k addr port).stack := by
  -- The state once the socket is bound: the same connections, the same claims.
  obtain ⟨b, ready, conns, goes, eq⟩ : ∃ b : Answer, Good b.stack ∧ b.stack.conns = st.conns ∧
      ((b.stack.socks k).type = sockStream → LetsGo b.stack k) ∧
      b = if (st.socks k).bound then ⟨st, [], true, none⟩ else socketBind env st k 0 0 := by
    refine ⟨_, ?_, ?_, ?_, rfl⟩ <;> split
    · exact h
    · exact bind_good h k 0 0
    · rfl
    · rcases bind_cases env st k 0 0 with same | ⟨s, -, same⟩
      · rw [same]
      · rw [same]; rfl
    · exact safe
    · rcases bind_cases env st k 0 0 with same | ⟨s, claim, same⟩
      · rw [same]
        exact safe
      · rw [same]
        intro type
        simp only [Stack.setSock, Function.update_self] at type
        exact (safe (claim.type ▸ type)).setSock claim
  unfold socketConnect
  rw [← eq]
  dsimp only
  split
  case isTrue => exact ready
  case isFalse =>
    rw [← conns]
    split
    case isTrue stream =>
      have used := ready.formed.used k stream
      have takes := open_takes env.toEnv b.stack.conns (b.stack.socks k).localIp
        (b.stack.socks k).localPort addr port
      split
      case h_1 none => exact taken_good ready takes (goes stream) stream used none.symm
      case h_2 i some => exact taken_good ready takes (goes stream) stream used some.symm
    case isFalse => exact ready.setSock rfl rfl rfl rfl

theorem accept_good {env : SockEnv} {st : Stack} (h : Good st) {k : Handle}
    (safe : Safe env st (.accept k)) : Good (socketAccept env st k).stack := by
  unfold socketAccept
  dsimp only
  split
  case isTrue => exact h
  case isFalse listening =>
    simp only [Bool.not_eq_true', Bool.not_eq_false] at listening
    rcases acceptReady_cases st.conns (st.socks k).conn with ⟨none, same⟩ | ⟨i, some, cleared⟩
    · rw [none, same]
      exact h
    · have safe' := fun full => safe full listening i some
      rw [some, cleared]
      dsimp only
      -- The cleared flag matters to slot `i` alone, and there the accepted socket takes over.
      have others : ∀ j, j ≠ i →
          Tied st.socks j (Function.update st.conns i { st.conns i with acceptPending := false } j) := by
        intro j away
        rw [Function.update_of_ne away]
        exact h.kept j
      rcases create_cases ⟨Function.update st.conns i { st.conns i with acceptPending := false },
        st.socks⟩ sockStream with ⟨-, failed, full⟩ | ⟨n, free, made, stack⟩
      · rw [failed]
        refine ⟨h.formed.table _, fun j => ?_⟩
        rcases shutdown_at env.toEnv
          (t := Function.update st.conns i { st.conns i with acceptPending := false }) i j with
          ⟨same, unused⟩ | ⟨rfl, shut⟩
        · dsimp only
          rw [same]
          by_cases at_i : j = i
          · exact kept_unused (unused at_i)
          · exact others j at_i
        · dsimp only
          rw [shut, Function.update_self]
          rcases safe' (full (.inl rfl)) with ⟨k', owns⟩ | ends
          · exact shut_kept _ (fun _ => .inl ⟨k', .inl owns⟩) fun _ => .inl ⟨k', .inl owns⟩
          · exact ending_kept _ ends
      · rw [made, stack]
        dsimp only [Stack.setSock] at free ⊢
        rw [Function.update_self, Function.update_idem]
        refine ⟨(h.formed.table _).setSock (fun _ => rfl) fun _ _ => rfl, fun j => ?_⟩
        by_cases at_i : j = i
        · subst at_i
          refine fun _ => .inl ⟨n, .inl ?_⟩
          dsimp only
          rw [Function.update_self]
          exact ⟨rfl, rfl⟩
        · apply (others j at_i).setSock
          rintro (⟨open', -⟩ | ⟨open', -⟩) <;> simp [free] at open'

theorem close_good {env : SockEnv} {st : Stack} (h : Good st) {k : Handle}
    (safe : Safe env st (.close k)) : Good (socketClose env st k).stack := by
  unfold socketClose
  dsimp only
  split
  case isTrue => exact h
  case isFalse open' =>
    simp only [Bool.not_eq_true', Bool.not_eq_false] at open'
    refine ⟨(h.formed.table _).setSock (by simp [Socket.zero, sockStream]) (by simp [Socket.zero]),
      fun i => ?_⟩
    cases conn : (st.socks k).conn with
    | none =>
      have kept := (h.kept i).setSock (k := k) (s := .zero none) (by
        rintro (⟨-, owns⟩ | ⟨-, -, some, -⟩)
        · rw [conn] at owns; cases owns
        · exact absurd conn some)
      simpa [Stack.setSock, conn, Effect.idle] using kept
    | some j =>
      have stream := h.formed.stream k open' (by simp [conn])
      have kept := closed_kept (h.kept i) safe conn
      simpa [Stack.setSock, conn, stream] using kept

theorem step_good {env : SockEnv} {st : Stack} {call : SockCall} (h : Good st)
    (safe : Safe env st call) : Good (st.step env call) := by
  cases call with
  | create type => exact create_good h type
  | bind k addr port => exact bind_good h k addr port
  | listen k => exact listen_good h safe
  | accept k => exact accept_good h safe
  | connect k addr port => exact connect_good h safe
  | close k => exact close_good h safe
  | send k data =>
    dsimp only [Stack.step]
    split
    · refine ⟨h.formed.table _, fun i => ?_⟩
      exact moved_kept (moves env.toEnv st.conns i (.write (st.socks k).conn data)) (h.kept i)
        (.inl ⟨_, _, rfl⟩)
    · exact h
  | recv k len =>
    dsimp only [Stack.step]
    split
    · refine ⟨h.formed.table _, fun i => ?_⟩
      exact moved_kept (moves env.toEnv st.conns i (.read (st.socks k).conn len)) (h.kept i)
        (.inr ⟨_, _, rfl⟩)
    · exact h
  | receive p =>
    refine ⟨h.formed.table _, fun i => ?_⟩
    have := received_kept safe (moves env.toEnv st.conns i (.receive p)) (h.kept i)
    exact this
  | tick =>
    refine ⟨h.formed.table _, fun i => ?_⟩
    have := ticked_kept (env.netbuf i) (safe i) (h.kept i)
    exact this

def SafeRun (st : Stack) : List (SockEnv × SockCall) → Prop
  | [] => True
  | (env, call) :: rest => Safe env st call ∧ SafeRun (st.step env call) rest

theorem play_good {st : Stack} (h : Good st) (calls : List (SockEnv × SockCall))
    (safe : SafeRun st calls) : Good (st.play calls) := by
  induction calls generalizing st with
  | nil => exact h
  | cons c rest ih => exact ih (step_good h safe.1) safe.2

/-- From boot, through any calls and segments none of which strands a slot: every slot in use is
answered for by an open socket, or ticks alone free it. -/
theorem slots_kept (calls : List (SockEnv × SockCall)) (safe : SafeRun .boot calls) :
    NoLeak (Stack.boot.play calls) :=
  (noLeak_iff _).2 (play_good boot_good calls safe).kept

/-- A calm environment for the socket calls: the first ephemeral port, no UDP port taken. -/
def calmSockEnv : SockEnv := ⟨calmEnv, 0, true⟩

/-- A stream socket that asks 10.0.0.9 for port 80. -/
def calling : List (SockEnv × SockCall) :=
  [(calmSockEnv, .create sockStream), (calmSockEnv, .connect 0 0x0A000009 80)]

/-- Closed before any answer, the socket takes its slot with it. -/
theorem calling_kept : NoLeak (Stack.boot.play (calling ++ [(calmSockEnv, .close 0)])) := by
  refine slots_kept _ ⟨trivial, fun _ i used => ?_, fun i used _ => ?_, trivial⟩
  · cases used
  · have sent : ∀ i : Slot, ((Stack.boot.play calling).conns i).used = true →
        ((Stack.boot.play calling).socks 0).conn = some i ∧
          ((Stack.boot.play calling).conns i).state = .synSent := by decide +kernel
    exact .inr (.inr ⟨(sent i used).1, .inr (.inl (sent i used).2)⟩)

/-- The `SYN`+`ACK` for the socket above. -/
def callingAnswer : Packet where
  srcIp := 0x0A000009
  dstIp := 0x0A000005
  data := [0, 80, 192, 0, 0, 0, 0, 100, 0, 0, 0, 1, 80, 18, 255, 255, 219, 15, 0, 0]

/-- The socket closed once its connection is up. -/
def hungUp : Stack :=
  Stack.boot.play (calling ++ [(calmSockEnv, .receive callingAnswer), (calmSockEnv, .close 0)])

/-- Its slot stays in `FIN_WAIT_1`: no socket is left, and no number of ticks frees it. -/
theorem hungUp_leaks : ¬ NoLeak hungUp := by
  have left : (hungUp.conns 0).used = true ∧ (hungUp.conns 0).state = .finWait1 := by
    decide +kernel
  have closed : ∀ k, (hungUp.socks k).used = false := by decide +kernel
  intro kept
  rcases (noLeak_iff _).1 kept 0 left.1 with ⟨k, ⟨open', -⟩ | ⟨open', -⟩⟩ | waits
  · rw [closed k] at open'
    cases open'
  · rw [closed k] at open'
    cases open'
  · rw [left.2] at waits
    cases waits

end ReconOS.Tcp
