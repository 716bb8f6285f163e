import ReconOS.Tcp.Table

/-! Everything one call can do to one slot, stated once. -/
namespace ReconOS.Tcp

open Net

variable {env : Env} {t : Table} {i j n : Slot}

/-- What a call sent from slot `i`. -/
def Effect.sentBy (e : Effect) (i : Slot) : List Outgoing :=
  e.sent.filterMap fun x => if x.1 = some i then some x.2 else none

@[simp] theorem Effect.idle_table (t : Table) : (Effect.idle t).table = t := rfl

@[simp] theorem Effect.idle_sentBy (t : Table) : (Effect.idle t).sentBy i = [] := rfl

theorem Effect.of_at (r : Conn × List Outgoing) : (Effect.of t i r).table i = r.1 :=
  Function.update_self _ _ _

theorem Effect.of_other (r : Conn × List Outgoing) (h : i ≠ j) :
    (Effect.of t j r).table i = t i :=
  Function.update_of_ne h _ _

theorem sentBy_map (os : List Outgoing) :
    (os.map fun o => (some i, o)).filterMap
      (fun x => if x.1 = some j then some x.2 else none) = if i = j then os else [] := by
  induction os with
  | nil => simp
  | cons o os ih =>
    by_cases h : i = j
    · simp only [h, List.map_cons, List.filterMap_cons, if_true] at ih ⊢
      rw [ih]
    · simp only [h, List.map_cons, List.filterMap_cons, Option.some.injEq, if_false] at ih ⊢
      rw [ih]

theorem Effect.of_sentBy (r : Conn × List Outgoing) : (Effect.of t i r).sentBy i = r.2 := by
  simp [Effect.of, Effect.sentBy]

theorem Effect.of_sentBy_other (r : Conn × List Outgoing) (h : i ≠ j) :
    (Effect.of t j r).sentBy i = [] := by
  simp [Effect.of, Effect.sentBy, Ne.symm h]

/-! ## Slots -/

/-- What `alloc_conn` leaves in the slot it takes. -/
def fresh (tx rx : Nat → U8) : Conn :=
  { Conn.zero with
    used := true, tx := .empty tx, rx := .empty rx, acceptOf := none, state := .closed }

theorem allocConn_none (h : (allocConn env t).2 = none) (i : Slot) :
    (allocConn env t).1 i = t i ∨ (t i).used = false ∧ (allocConn env t).1 i = Conn.zero := by
  unfold allocConn at h ⊢
  split at h
  case h_1 => exact .inl rfl
  case h_2 k found =>
    have unused : (t k).used = false := by simpa using List.find?_some found
    split at h
    case h_1 => cases h
    case h_2 =>
      by_cases at_k : i = k
      · subst at_k
        exact .inr ⟨unused, Function.update_self _ _ _⟩
      · exact .inl (Function.update_of_ne at_k _ _)

theorem allocConn_some (h : (allocConn env t).2 = some n) :
    (t n).used = false ∧ (∃ tx rx, (allocConn env t).1 n = fresh tx rx) ∧
    ∀ i, i ≠ n → (allocConn env t).1 i = t i := by
  unfold allocConn at h ⊢
  split at h
  case h_1 => cases h
  case h_2 k found =>
    have unused : (t k).used = false := by simpa using List.find?_some found
    split at h
    case h_2 => cases h
    case h_1 tx rx _ _ =>
      obtain rfl : k = n := Option.some.inj h
      exact ⟨unused, ⟨tx, rx, Function.update_self _ _ _⟩,
        fun i away => Function.update_of_ne away _ _⟩

theorem findFrom_spec {localIp remote : Ipv4Addr} {lport rport : U16} (is : List Slot)
    (listener : Option Slot) (h : findFrom t localIp lport remote rport is listener = some i) :
    listener = some i ∨ (t i).used = true ∧ (t i).localPort = lport ∧
      ((t i).state = .listen ∨ matchesAll (t i) localIp remote rport = true) := by
  induction is generalizing listener with
  | nil => exact .inl h
  | cons k is ih =>
    unfold findFrom at h
    split at h
    · exact ih listener h
    split at h
    · exact ih listener h
    rename_i used port
    simp only [Bool.not_eq_true, Bool.not_eq_false'] at used
    split at h
    · cases h
      exact .inr ⟨used, not_not.1 port, .inr ‹_›⟩
    split at h
    · cases ih (some k) h with
      | inl last =>
        cases last
        exact .inr ⟨used, not_not.1 port, .inl ‹_›⟩
      | inr found => exact .inr found
    · exact ih listener h

/-- A segment's slot is in use, on the segment's port, and listening or a match. -/
theorem slotFor_spec {p : Packet} {s : Segment} (h : slotFor t p s = some i) :
    (t i).used = true ∧ (t i).localPort = s.dstPort ∧
    ((t i).state = .listen ∨ matchesAll (t i) p.dstIp p.srcIp s.srcPort = true) := by
  cases findFrom_spec _ _ h with
  | inl none => cases none
  | inr found => exact found

/-! ## Moves -/

/-- `Moves env t i call c out`: the call turns slot `i` of `t` into `c` and sends `out` from it. -/
inductive Moves (env : Env) (t : Table) (i : Slot) : Call → Conn → List Outgoing → Prop where
  | stay (call : Call) : Moves env t i call (t i) []
  | vacant (call : Call) (c : Conn) (was : (t i).used = false) (still : c.used = false) :
      Moves env t i call c []
  | opens (l : Ipv4Addr) (lp : U16) (r : Ipv4Addr) (rp : U16) (tx rx : Nat → U8) (iss : U32)
      (was : (t i).used = false) :
      Moves env t i (.open l lp r rp) (opening env (fresh tx rx) l lp r rp iss)
        (sendSegment (env.netbuf 0) (opening env (fresh tx rx) l lp r rp iss) tcpSyn iss [])
  | listens (l : Ipv4Addr) (port : U16) (tx rx : Nat → U8) (was : (t i).used = false) :
      Moves env t i (.listen l port)
        (listener (fresh tx rx) l port) []
  | passive (p : Packet) (s : Segment) (j : Slot) (tx rx : Nat → U8) (iss : U32)
      (was : (t i).used = false) (ok : parse p = some s) (found : slotFor t p s = some j)
      (calm : has s.flags tcpRst = false) (listening : (t j).state = .listen)
      (syn : has s.flags tcpSyn = true) :
      Moves env t i (.receive p) (opened env (fresh tx rx) iss p s j)
        (sendSegment (env.netbuf 0) (opened env (fresh tx rx) iss p s j) (tcpSyn ||| tcpAck) iss [])
  | accepts (l : Slot) (ready : acceptable t l i = true) :
      Moves env t i (.accept (some l)) { t i with acceptPending := false } []
  | writes (data : List U8) (used : (t i).used = true) (up : (t i).state = .established) :
      Moves env t i (.write (some i) data) (writeConn env.now (env.netbuf 0) (t i) data).1
        (writeConn env.now (env.netbuf 0) (t i) data).2.1
  | reads (len : Nat) (used : (t i).used = true) :
      Moves env t i (.read (some i) len) (readConn (t i) len).1 []
  | shuts (used : (t i).used = true) :
      Moves env t i (.shutdown (some i)) (shutdownConn (env.netbuf 0) (t i)).1
        (shutdownConn (env.netbuf 0) (t i)).2
  | resets (p : Packet) (s : Segment) (ok : parse p = some s) (found : slotFor t p s = some i)
      (rst : has s.flags tcpRst = true) :
      Moves env t i (.receive p) { t i with reset := true, state := .closed } []
  | arrives (p : Packet) (s : Segment) (ok : parse p = some s) (found : slotFor t p s = some i)
      (calm : has s.flags tcpRst = false) (up : (t i).state ≠ .listen) :
      Moves env t i (.receive p) (arrive env (t i) s).1 (arrive env (t i) s).2
  | ticks : Moves env t i .tick (tickConn env.now (env.netbuf i) (t i)).1
      (tickConn env.now (env.netbuf i) (t i)).2

theorem freeConn_used (c : Conn) : (freeConn c).used = false := by
  unfold freeConn
  split
  · rfl
  · simpa using ‹¬c.used = true›

theorem moves_idle (call : Call) :
    Moves env t i call ((Effect.idle t).table i) ((Effect.idle t).sentBy i) := .stay call

/-- A call that changes one slot moves every slot as it moves that one. -/
theorem moves_of (call : Call) (r : Conn × List Outgoing) (at_n : i = n → Moves env t i call r.1 r.2) :
    Moves env t i call ((Effect.of t n r).table i) ((Effect.of t n r).sentBy i) := by
  by_cases h : i = n
  · subst h
    rw [Effect.of_at, Effect.of_sentBy]
    exact at_n rfl
  · rw [Effect.of_other _ h, Effect.of_sentBy_other _ h]
    exact .stay call

theorem moves_alloc_none (call : Call) (h : (allocConn env t).2 = none) :
    Moves env t i call ((Effect.idle (allocConn env t).1).table i)
      ((Effect.idle (allocConn env t).1).sentBy i) := by
  cases allocConn_none h i with
  | inl same =>
    rw [Effect.idle_table, same]
    exact .stay call
  | inr cleared =>
    rw [Effect.idle_table, cleared.2]
    exact .vacant call _ cleared.1 rfl

/-- The same for a call that first takes a free slot. -/
theorem moves_alloc (call : Call) (h : (allocConn env t).2 = some n) (r : Conn × List Outgoing)
    (at_n : i = n → (t i).used = false → Moves env t i call r.1 r.2) :
    Moves env t i call ((Effect.of (allocConn env t).1 n r).table i)
      ((Effect.of (allocConn env t).1 n r).sentBy i) := by
  obtain ⟨unused, -, others⟩ := allocConn_some h
  by_cases at' : i = n
  · subst at'
    rw [Effect.of_at, Effect.of_sentBy]
    exact at_n rfl unused
  · rw [Effect.of_other _ at', Effect.of_sentBy_other _ at', others i at']
    exact .stay call

/-- A slot taken and given back for want of entropy. -/
theorem moves_refused (call : Call) (h : (allocConn env t).2 = some n) :
    Moves env t i call
      ((Effect.idle (Function.update (allocConn env t).1 n (freeConn ((allocConn env t).1 n)))).table i)
      [] := by
  obtain ⟨unused, -, others⟩ := allocConn_some h
  rw [Effect.idle_table]
  by_cases at_n : i = n
  · subst at_n
    rw [Function.update_self]
    exact .vacant call _ unused (freeConn_used _)
  · rw [Function.update_of_ne at_n, others i at_n]
    exact .stay call

theorem moves_open (l : Ipv4Addr) (lp : U16) (r : Ipv4Addr) (rp : U16) :
    Moves env t i (.open l lp r rp) ((tcpOpen env t l lp r rp).table i)
      ((tcpOpen env t l lp r rp).sentBy i) := by
  unfold tcpOpen
  split
  case h_1 none => exact moves_alloc_none _ none
  case h_2 n some =>
    obtain ⟨-, ⟨tx, rx, new⟩, -⟩ := allocConn_some some
    split
    case h_1 => exact moves_refused _ some
    case h_2 iss _ =>
      dsimp only
      rw [new]
      exact moves_alloc _ some _ fun _ unused => .opens l lp r rp tx rx iss unused

theorem moves_listen (l : Ipv4Addr) (port : U16) :
    Moves env t i (.listen l port) ((tcpOpenListener env t l port).table i)
      ((tcpOpenListener env t l port).sentBy i) := by
  unfold tcpOpenListener
  split
  case h_1 none => exact moves_alloc_none _ none
  case h_2 n some =>
    obtain ⟨-, ⟨tx, rx, new⟩, -⟩ := allocConn_some some
    dsimp only
    rw [new]
    exact moves_alloc _ some _ fun _ unused => .listens l port tx rx unused

theorem moves_accept (l : Option Slot) :
    Moves env t i (.accept l) ((tcpAcceptReady t l).table i) ((tcpAcceptReady t l).sentBy i) := by
  unfold tcpAcceptReady
  split
  case h_1 => exact moves_idle _
  case h_2 l =>
    split
    case h_1 => exact moves_idle _
    case h_2 n found =>
      apply moves_of (.accept (some l))
      rintro rfl
      exact .accepts l (List.find?_some found)

theorem moves_write (idx : Option Slot) (data : List U8) :
    Moves env t i (.write idx data) ((tcpWrite env t idx data).table i)
      ((tcpWrite env t idx data).sentBy i) := by
  unfold tcpWrite
  split
  case h_1 => exact moves_idle _
  case h_2 n =>
    split
    case isTrue => exact moves_idle _
    case isFalse up =>
      simp only [Bool.not_eq_true', not_or, Bool.not_eq_false, not_not] at up
      apply moves_of (.write (some n) data) ((_, _) : Conn × List Outgoing)
      rintro rfl
      exact .writes data up.1 up.2

theorem moves_read (idx : Option Slot) (len : Nat) :
    Moves env t i (.read idx len) ((tcpRead t idx len).table i) ((tcpRead t idx len).sentBy i) := by
  unfold tcpRead
  split
  case h_1 => exact moves_idle _
  case h_2 n =>
    split
    case isTrue => exact moves_idle _
    case isFalse up =>
      simp only [Bool.not_eq_true', Bool.not_eq_false] at up
      apply moves_of (.read (some n) len) ((_, _) : Conn × List Outgoing)
      rintro rfl
      exact .reads len up

theorem moves_shutdown (idx : Option Slot) :
    Moves env t i (.shutdown idx) ((tcpShutdown env t idx).table i)
      ((tcpShutdown env t idx).sentBy i) := by
  unfold tcpShutdown
  split
  case h_1 => exact moves_idle _
  case h_2 n =>
    split
    case isTrue => exact moves_idle _
    case isFalse up =>
      simp only [Bool.not_eq_true', Bool.not_eq_false] at up
      apply moves_of (.shutdown (some n))
      rintro rfl
      exact .shuts up

theorem moves_arriveListen {p : Packet} {s : Segment} (ok : parse p = some s)
    (found : slotFor t p s = some j) (calm : has s.flags tcpRst = false)
    (listening : (t j).state = .listen) :
    Moves env t i (.receive p) ((arriveListen env t j p s).table i)
      ((arriveListen env t j p s).sentBy i) := by
  unfold arriveListen
  split
  case isFalse => exact moves_idle _
  case isTrue syn =>
    split
    case h_1 none => exact moves_alloc_none _ none
    case h_2 n some =>
      obtain ⟨-, ⟨tx, rx, new⟩, -⟩ := allocConn_some some
      split
      case h_1 => exact moves_refused _ some
      case h_2 iss _ =>
        dsimp only
        rw [new]
        exact moves_alloc _ some _ fun _ unused =>
          .passive p s j tx rx iss unused ok found calm listening syn

theorem moves_receive (p : Packet) :
    Moves env t i (.receive p) ((tcpReceive env t p).table i) ((tcpReceive env t p).sentBy i) := by
  unfold tcpReceive
  split
  case h_1 => exact moves_idle _
  case h_2 s ok =>
    split
    case h_1 =>
      split
      · exact moves_idle _
      · have none : ((sendReset (env.netbuf 0) p s).map fun o => ((none : Option Slot), o)).filterMap
            (fun x => if x.1 = some i then some x.2 else none) = [] := by
          simp
        rw [Effect.sentBy, none]
        exact .stay _
    case h_2 n found =>
      unfold deliverTo
      split
      case isTrue rst =>
        apply moves_of (.receive p)
        rintro rfl
        exact .resets p s ok found rst
      case isFalse calm =>
        simp only [Bool.not_eq_true] at calm
        split
        case isTrue listening => exact moves_arriveListen ok found calm listening
        case isFalse up =>
          apply moves_of (.receive p)
          rintro rfl
          exact .arrives p s ok found calm up

theorem flatMap_single (is : List Slot) (once : is.Nodup) (f : Slot → List Outgoing) :
    (is.flatMap fun k => if k = i then f k else []) = if i ∈ is then f i else [] := by
  induction is with
  | nil => rfl
  | cons k is ih =>
    obtain ⟨away, once⟩ := List.nodup_cons.1 once
    rw [List.flatMap_cons, ih once]
    by_cases h : k = i
    · subst h
      simp [away]
    · simp [h, Ne.symm h]

theorem tick_sentBy (t : Table) (i : Slot) :
    (tcpTick env t).sentBy i = (tickConn env.now (env.netbuf i) (t i)).2 := by
  rw [Effect.sentBy, tcpTick, List.filterMap_flatMap]
  simp only [sentBy_map]
  rw [flatMap_single _ (List.nodup_finRange _), if_pos (List.mem_finRange i)]

/-- What a call does to a slot. -/
theorem moves (env : Env) (t : Table) (i : Slot) (call : Call) :
    Moves env t i call ((step env t call).table i) ((step env t call).sentBy i) := by
  cases call with
  | «open» l lp r rp => exact moves_open l lp r rp
  | listen l port => exact moves_listen l port
  | accept l => exact moves_accept l
  | write idx data => exact moves_write idx data
  | read idx len => exact moves_read idx len
  | shutdown idx => exact moves_shutdown idx
  | receive p => exact moves_receive p
  | tick =>
    rw [step, tick_sentBy]
    exact .ticks

end ReconOS.Tcp

/-! What a segment from the network can do to a listener. -/
namespace ReconOS.Tcp

open Net

/-- Every listener is as it was after `p` has been taken in. -/
def Deaf (env : Env) (t : Table) (p : Packet) : Prop :=
  ∀ i, (t i).used = true → (t i).state = .listen → (tcpReceive env t p).table i = t i

/-- `p` is a well-formed reset that matches no connection, only a listener's port. -/
def Strikes (t : Table) (p : Packet) : Prop :=
  ∃ s i, parse p = some s ∧ has s.flags tcpRst = true ∧ slotFor t p s = some i ∧
    (t i).state = .listen

theorem strike_closes (env : Env) {t : Table} {p : Packet} {s : Segment} {i : Slot}
    (ok : parse p = some s) (rst : has s.flags tcpRst = true) (found : slotFor t p s = some i) :
    ((tcpReceive env t p).table i).state = .closed := by
  simp only [tcpReceive, ok, found, deliverTo, rst, if_true, Effect.of_at]

/-- A segment moves a listener only by being a reset for it. -/
theorem listener_moves {env : Env} {t : Table} {p : Packet} {i : Slot} {c : Conn}
    {out : List Outgoing} (used : (t i).used = true) (listening : (t i).state = .listen)
    (h : Moves env t i (.receive p) c out) : c = t i ∨ Strikes t p := by
  cases h with
  | stay => exact .inl rfl
  | vacant _ _ was => simp [used] at was
  | passive _ s j tx rx iss was => simp [used] at was
  | resets _ s ok found rst => exact .inr ⟨s, i, ok, rst, found, listening⟩
  | arrives _ s ok found calm up => exact absurd listening up

/-- A listener is deaf to every segment but a reset that the scan hands to it. -/
theorem deaf_iff (env : Env) (t : Table) (p : Packet) : Deaf env t p ↔ ¬Strikes t p := by
  constructor
  · rintro deaf ⟨s, i, ok, rst, found, listening⟩
    have same := deaf i (slotFor_spec found).1 listening
    have closed := strike_closes env ok rst found
    rw [same, listening] at closed
    cases closed
  · intro calm i used listening
    cases listener_moves used listening (moves env t i (.receive p)) with
    | inl same => exact same
    | inr struck => exact absurd struck calm

/-- One listener, on port 80. -/
def serving : Table := (step calmEnv boot (.listen 0 80)).table

/-- A reset from 10.0.0.9 to port 80 of 10.0.0.5, which no connection has anything to do with. -/
def strayReset : Packet where
  srcIp := 0x0A000009
  dstIp := 0x0A000005
  data := [15, 160, 0, 80, 0, 0, 0, 0, 0, 0, 0, 0, 80, 4, 0, 0, 139, 227, 0, 0]

theorem serving_struck : ¬Deaf calmEnv serving strayReset := by
  intro deaf
  have same := deaf 0 (by decide) (by decide)
  have closed : ((tcpReceive calmEnv serving strayReset).table 0).state = .closed := by decide
  rw [same] at closed
  exact absurd closed (by decide)

end ReconOS.Tcp
