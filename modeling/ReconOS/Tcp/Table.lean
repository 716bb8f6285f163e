import ReconOS.Net.Ip
import ReconOS.Tcp.Conn
import Mathlib.Data.Fin.Basic
import Mathlib.Data.List.FinRange

/-! The table of connections: `tcp_receive`, `tcp_tick` and the calls the socket layer makes. -/
namespace ReconOS.Tcp

open Net

abbrev Table := Slot → Conn

/-- Nothing used: the table before the first call. -/
def boot : Table := fun _ => Conn.zero

/-- A segment as `ip_receive` hands it up. -/
structure Packet where
  srcIp : Ipv4Addr
  dstIp : Ipv4Addr
  data : List U8
  deriving DecidableEq, Repr

/-- What a call does: the new table, the segments handed down with the slot that sent each (none
for a reset), the bytes `tcp_read` hands back, the number of bytes `tcp_write` took (none where it
refused), and the slot a call names. -/
structure Effect where
  table : Table
  sent : List (Option Slot × Outgoing)
  bytes : List U8
  taken : Option Nat
  slot : Option Slot

def Effect.idle (t : Table) : Effect := ⟨t, [], [], none, none⟩

/-- Slot `i` becomes `r.1` and sends `r.2`. -/
def Effect.of (t : Table) (i : Slot) (r : Conn × List Outgoing) : Effect :=
  { Effect.idle (Function.update t i r.1) with sent := r.2.map fun o => (some i, o) }

/-! ## Checks on a segment -/

def pseudoSumTcp (src dst : Ipv4Addr) (length : U16) : U32 :=
  netChecksumPartial (netPut32 src ++ netPut32 dst ++ [0, ipProtoTcp] ++ netPut16 length) 0

def tcpHdrLen : Nat := 20

def checksumOk (p : Packet) : Bool :=
  netChecksumFinish (netChecksumPartial p.data
    (pseudoSumTcp p.srcIp p.dstIp (BitVec.ofNat 16 p.data.length))) == 0

def hdrLen (data : List U8) : Nat := ((data.getD 12 0) >>> 4).toNat * 4

/-- The fields of a segment that is long enough, checks out and has a header within it. -/
def parse (p : Packet) : Option Segment :=
  if p.data.length < tcpHdrLen then none
  else if !checksumOk p then none
  else if hdrLen p.data < tcpHdrLen ∨ p.data.length < hdrLen p.data then none
  else some {
    srcPort := netGet16 p.data 0
    dstPort := netGet16 p.data 2
    seq := netGet32 p.data 4
    ack := netGet32 p.data 8
    flags := p.data.getD 13 0
    window := netGet16 p.data 14
    payload := p.data.drop (hdrLen p.data) }

/-! ## Slots -/

def allocConn (env : Env) (t : Table) : Table × Option Slot :=
  match (List.finRange maxConnections).find? fun i => !(t i).used with
  | none => (t, none)
  | some i =>
    match env.txPage, env.rxPage with
    | some tx, some rx =>
      (Function.update t i { Conn.zero with
        used := true, tx := .empty tx, rx := .empty rx, acceptOf := none, state := .closed }, some i)
    | _, _ => (Function.update t i Conn.zero, none)

/-- All four numbers match a connection that is not listening. -/
def matchesAll (c : Conn) (localIp remoteIp : Ipv4Addr) (remotePort : U16) : Bool :=
  c.state ≠ .listen && c.remoteIp == remoteIp && c.remotePort == remotePort &&
  (c.localIp == 0 || c.localIp == localIp)

/-- The scan for the connection a segment is for; `listener` is the last one seen so far. -/
def findFrom (t : Table) (localIp : Ipv4Addr) (lport : U16) (remote : Ipv4Addr) (rport : U16) :
    List Slot → Option Slot → Option Slot
  | [], listener => listener
  | i :: rest, listener =>
    if !(t i).used then findFrom t localIp lport remote rport rest listener
    else if (t i).localPort ≠ lport then findFrom t localIp lport remote rport rest listener
    else if matchesAll (t i) localIp remote rport then some i
    else if (t i).state = .listen then findFrom t localIp lport remote rport rest (some i)
    else findFrom t localIp lport remote rport rest listener

def findConn (t : Table) (localIp : Ipv4Addr) (lport : U16) (remote : Ipv4Addr) (rport : U16) :
    Option Slot :=
  findFrom t localIp lport remote rport (List.finRange maxConnections) none

/-- The slot a segment is for. -/
def slotFor (t : Table) (p : Packet) (s : Segment) : Option Slot :=
  findConn t p.dstIp s.dstPort p.srcIp s.srcPort

/-! ## Receiving -/

/-- The reset that answers a segment for which there is no connection. -/
def sendReset (ok : Bool) (p : Packet) (s : Segment) : List Outgoing :=
  let len := BitVec.ofNat 32 s.payload.length
  let seq := s.seq + len + (if has s.flags tcpSyn then 1 else 0)
  if ok then
    if has s.flags tcpAck then
      [⟨p.dstIp, p.srcIp, ⟨s.dstPort, s.srcPort, s.ack, 0, tcpRst, 0, []⟩⟩]
    else [⟨p.dstIp, p.srcIp, ⟨s.dstPort, s.srcPort, 0, seq, tcpRst ||| tcpAck, 0, []⟩⟩]
  else []

/-- The new connection a `SYN` for the listener in slot `listener` becomes. -/
def opened (env : Env) (n : Conn) (iss : U32) (p : Packet) (s : Segment) (listener : Slot) : Conn :=
  { n with
    localIp := p.dstIp
    localPort := s.dstPort
    remoteIp := p.srcIp
    remotePort := s.srcPort
    rcvNxt := s.seq + 1
    sndUna := iss
    sndNxt := iss + 1
    sndWnd := s.window.setWidth 32
    state := .synReceived
    acceptOf := some listener
    retransmitAt := env.now + rtoNs }

/-- A segment without `RST` for the listener in slot `i`. -/
def arriveListen (env : Env) (t : Table) (i : Slot) (p : Packet) (s : Segment) : Effect :=
  if has s.flags tcpSyn then
    let t' := (allocConn env t).1
    match (allocConn env t).2 with
    | none => .idle t'
    | some n =>
      match env.random with
      | none => .idle (Function.update t' n (freeConn (t' n)))
      | some iss =>
        let c := opened env (t' n) iss p s i
        .of t' n (c, sendSegment (env.netbuf 0) c (tcpSyn ||| tcpAck) iss [])
  else .idle t

/-- A segment for the connection in slot `i`. -/
def deliverTo (env : Env) (t : Table) (i : Slot) (p : Packet) (s : Segment) : Effect :=
  if has s.flags tcpRst then
    .of t i ({ t i with reset := true, state := .closed }, [])
  else if (t i).state = .listen then arriveListen env t i p s
  else .of t i (arrive env (t i) s)

def tcpReceive (env : Env) (t : Table) (p : Packet) : Effect :=
  match parse p with
  | none => .idle t
  | some s =>
    match slotFor t p s with
    | none =>
      if has s.flags tcpRst then .idle t
      else { Effect.idle t with sent := (sendReset (env.netbuf 0) p s).map fun o => (none, o) }
    | some i => deliverTo env t i p s

/-! ## Time -/

/-- The buffer a slot's retransmission would use is the one numbered after it. -/
def tcpTick (env : Env) (t : Table) : Effect where
  table := fun i => (tickConn env.now (env.netbuf i) (t i)).1
  sent := (List.finRange maxConnections).flatMap fun i : Slot =>
    (tickConn env.now (env.netbuf i) (t i)).2.map fun o => (some i, o)
  bytes := []
  taken := none
  slot := none

/-! ## What a socket asks -/

/-- The connection an active open makes of the slot it takes. -/
def opening (env : Env) (c : Conn) (localIp : Ipv4Addr) (lport : U16) (remote : Ipv4Addr)
    (rport : U16) (iss : U32) : Conn :=
  { c with
    localIp := localIp
    localPort := lport
    remoteIp := remote
    remotePort := rport
    sndUna := iss
    sndNxt := iss + 1
    state := .synSent
    retransmitAt := env.now + rtoNs }

/-- The listener an open makes of the slot it takes. -/
def listener (c : Conn) (localIp : Ipv4Addr) (port : U16) : Conn :=
  { c with localIp := localIp, localPort := port, state := .listen, listening := true }

def tcpOpen (env : Env) (t : Table) (localIp : Ipv4Addr) (lport : U16) (remote : Ipv4Addr)
    (rport : U16) : Effect :=
  let t' := (allocConn env t).1
  match (allocConn env t).2 with
  | none => .idle t'
  | some i =>
    match env.random with
    | none => .idle (Function.update t' i (freeConn (t' i)))
    | some iss =>
      let c := opening env (t' i) localIp lport remote rport iss
      { Effect.of t' i (c, sendSegment (env.netbuf 0) c tcpSyn iss []) with slot := some i }

def tcpOpenListener (env : Env) (t : Table) (localIp : Ipv4Addr) (port : U16) : Effect :=
  let t' := (allocConn env t).1
  match (allocConn env t).2 with
  | none => .idle t'
  | some i =>
    { Effect.of t' i (listener (t' i) localIp port, []) with slot := some i }

def acceptable (t : Table) (listener i : Slot) : Bool :=
  (t i).used && (t i).acceptPending && (t i).acceptOf == some listener

def tcpAcceptReady (t : Table) : Option Slot → Effect
  | none => .idle t
  | some listener =>
    match (List.finRange maxConnections).find? (acceptable t listener) with
    | none => .idle t
    | some i =>
      { Effect.of t i ({ t i with acceptPending := false }, []) with slot := some i }

def tcpWrite (env : Env) (t : Table) (idx : Option Slot) (data : List U8) : Effect :=
  match idx with
  | none => .idle t
  | some i =>
    if !(t i).used ∨ (t i).state ≠ .established then .idle t
    else
      let r := writeConn env.now (env.netbuf 0) (t i) data
      { Effect.of t i (r.1, r.2.1) with taken := some r.2.2 }

def tcpRead (t : Table) (idx : Option Slot) (len : Nat) : Effect :=
  match idx with
  | none => .idle t
  | some i =>
    if !(t i).used then .idle t
    else
      let r := readConn (t i) len
      { Effect.of t i (r.1, []) with bytes := r.2 }

def tcpShutdown (env : Env) (t : Table) (idx : Option Slot) : Effect :=
  match idx with
  | none => .idle t
  | some i => if !(t i).used then .idle t else .of t i (shutdownConn (env.netbuf 0) (t i))

/-! ## Runs -/

inductive Call where
  | open (localIp : Ipv4Addr) (lport : U16) (remote : Ipv4Addr) (rport : U16)
  | listen (localIp : Ipv4Addr) (port : U16)
  | accept (listener : Option Slot)
  | write (idx : Option Slot) (data : List U8)
  | read (idx : Option Slot) (len : Nat)
  | shutdown (idx : Option Slot)
  | receive (p : Packet)
  | tick

def step (env : Env) (t : Table) : Call → Effect
  | .open l lp r rp => tcpOpen env t l lp r rp
  | .listen l p => tcpOpenListener env t l p
  | .accept l => tcpAcceptReady t l
  | .write i d => tcpWrite env t i d
  | .read i n => tcpRead t i n
  | .shutdown i => tcpShutdown env t i
  | .receive p => tcpReceive env t p
  | .tick => tcpTick env t

/-- The tables any calls lead to from boot, whatever they meet outside. -/
inductive Reachable : Table → Prop where
  | boot : Reachable boot
  | step {t} (env : Env) (call : Call) : Reachable t → Reachable (step env t call).table

def play (t : Table) : List (Env × Call) → Table
  | [] => t
  | (env, call) :: rest => play (step env t call).table rest

theorem play_reachable {t : Table} (h : Reachable t) (calls : List (Env × Call)) :
    Reachable (play t calls) := by
  induction calls generalizing t with
  | nil => exact h
  | cons c rest ih => exact ih (.step c.1 c.2 h)

/-- An environment in which nothing fails: pages, buffers and numbers are there. -/
def calmEnv : Env := ⟨1, some 0, some fun _ => 0, some fun _ => 0, fun _ => true⟩

def dialling : List (Env × Call) := [(calmEnv, .open 0x0A000005 50000 0x0A000009 80)]

/-- The `SYN`+`ACK` of 10.0.0.9, port 80, for the call above. -/
def synAckSegment : Packet where
  srcIp := 0x0A000009
  dstIp := 0x0A000005
  data := [0, 80, 195, 80, 0, 0, 0, 100, 0, 0, 0, 1, 80, 18, 255, 255, 215, 191, 0, 0]

/-- The call, answered. -/
def answered : Table := play boot (dialling ++ [(calmEnv, .receive synAckSegment)])

/-! A segment as bytes, and what the other end reads out of them. -/

/-- The header `send_segment` writes, with `sum` for a checksum. -/
def header (s : Segment) (sum : U16) : List U8 :=
  netPut16 s.srcPort ++ netPut16 s.dstPort ++ netPut32 s.seq ++ netPut32 s.ack ++
  [BitVec.ofNat 8 (tcpHdrLen / 4) <<< 4, s.flags] ++ netPut16 s.window ++ netPut16 sum ++ netPut16 0

/-- The checksum is taken with the field itself zero. -/
def segmentSum (src dst : Ipv4Addr) (s : Segment) : U32 :=
  netChecksumPartial (header s 0 ++ s.payload)
    (pseudoSumTcp src dst (BitVec.ofNat 16 (tcpHdrLen + s.payload.length)))

def segmentBytes (src dst : Ipv4Addr) (s : Segment) : List U8 :=
  header s (netChecksumFinish (segmentSum src dst s)) ++ s.payload

@[simp] theorem header_length (s : Segment) (sum : U16) : (header s sum).length = 20 := rfl

/-- The checksum field is a word of its own. -/
theorem header_words (s : Segment) (sum : U16) :
    words (header s sum) = words (header s 0) + sum.toNat := by
  have split (v : U16) : words (header s v) =
      words (netPut16 s.srcPort ++ netPut16 s.dstPort ++ netPut32 s.seq ++ netPut32 s.ack ++
        [BitVec.ofNat 8 (tcpHdrLen / 4) <<< 4, s.flags] ++ netPut16 s.window) +
      v.toNat + words (netPut16 0) := by
    rw [header, words_append _ _ (by simp [netPut16, netPut32]),
      words_append _ _ (by simp [netPut16, netPut32]), words_put16]
  have zero : (0 : U16).toNat = 0 := rfl
  rw [split, split, zero]
  omega

theorem pseudo_words (src dst : Ipv4Addr) (length : U16) :
    words (netPut32 src ++ netPut32 dst ++ [0, ipProtoTcp] ++ netPut16 length) =
      halves src + halves dst + 6 + length.toNat := by
  rw [words_append _ _ (by simp [netPut32]), words_append _ _ (by simp [netPut32]),
    words_append _ _ (by simp [netPut32]), words_put32, words_put32, words_put16]
  rfl

theorem halves_le (a : U32) : halves a ≤ 2 * 65535 := by
  have := a.isLt
  simp only [halves]
  omega

/-- Everything a segment's checksum covers but the source address. -/
def coverWords (dst : Ipv4Addr) (data : List U8) : Nat :=
  halves dst + 6 + data.length + words data

theorem cover_toNat (src dst : Ipv4Addr) (data : List U8) (short : data.length ≤ 65535) :
    (netChecksumPartial data (pseudoSumTcp src dst (BitVec.ofNat 16 data.length))).toNat =
      halves src + coverWords dst data := by
  have total := words_lt data
  have src' := halves_le src
  have dst' := halves_le dst
  have zero : (0 : U32).toNat = 0 := rfl
  rw [partial_toNat, pseudoSumTcp, partial_toNat, pseudo_words, BitVec.toNat_ofNat,
    Nat.mod_eq_of_lt (by omega : data.length < 2 ^ 16), zero]
  simp only [coverWords]
  omega

theorem segmentBytes_length (src dst : Ipv4Addr) (s : Segment) :
    (segmentBytes src dst s).length = tcpHdrLen + s.payload.length := by
  simp [segmentBytes, tcpHdrLen]

theorem segmentBytes_cover (src dst : Ipv4Addr) (s : Segment) :
    coverWords dst (segmentBytes src dst s) =
      coverWords dst (header s 0 ++ s.payload) + (netChecksumFinish (segmentSum src dst s)).toNat := by
  simp only [coverWords, List.length_append, header_length, segmentBytes]
  rw [words_append _ _ (by simp), words_append _ _ (by simp), header_words s (netChecksumFinish _)]
  omega

/-- A segment checks out at the other end exactly when the source address it is found to come from
and the one it was summed with have the same halves modulo `2^16 - 1`. -/
theorem checksumOk_iff (src src' dst : Ipv4Addr) (s : Segment)
    (short : tcpHdrLen + s.payload.length ≤ 65535) :
    checksumOk ⟨src', dst, segmentBytes src dst s⟩ = true ↔
      halves src' % 65535 = halves src % 65535 := by
  have length := segmentBytes_length src dst s
  have sent : (segmentSum src dst s).toNat =
      halves src + coverWords dst (header s 0 ++ s.payload) := by
    rw [segmentSum, show tcpHdrLen + s.payload.length = (header s 0 ++ s.payload).length by
      simp [tcpHdrLen]]
    exact cover_toNat _ _ _ (by simpa [tcpHdrLen] using short)
  have whole := finish_add (segmentSum src dst s)
  have cover := segmentBytes_cover src dst s
  have six : 6 ≤ coverWords dst (segmentBytes src dst s) := by
    simp only [coverWords]
    omega
  rw [checksumOk, beq_iff_eq, finish_eq_zero_iff, cover_toNat _ _ _ (by rw [length]; exact short)]
  rw [sent] at whole
  dsimp only
  omega

/-- The other end reads back the segment that was sent. -/
theorem parse_segmentBytes (src src' dst : Ipv4Addr) (s : Segment)
    (short : tcpHdrLen + s.payload.length ≤ 65535)
    (same : halves src' % 65535 = halves src % 65535) :
    parse ⟨src', dst, segmentBytes src dst s⟩ = some s := by
  have length := segmentBytes_length src dst s
  have ok := (checksumOk_iff src src' dst s short).2 same
  have hdr : hdrLen (segmentBytes src dst s) = 20 := by
    change ((BitVec.ofNat 8 (tcpHdrLen / 4) <<< 4 : U8) >>> 4).toNat * 4 = 20
    decide
  have payload : (segmentBytes src dst s).drop 20 = s.payload :=
    List.drop_left' (header_length s _)
  have srcPort : netGet16 (segmentBytes src dst s) 0 = s.srcPort := netGet16_put16 s.srcPort
  have dstPort : netGet16 (segmentBytes src dst s) 2 = s.dstPort := netGet16_put16 s.dstPort
  have seq : netGet32 (segmentBytes src dst s) 4 = s.seq := netGet32_put32 s.seq
  have ack : netGet32 (segmentBytes src dst s) 8 = s.ack := netGet32_put32 s.ack
  have flags : (segmentBytes src dst s).getD 13 0 = s.flags := rfl
  have window : netGet16 (segmentBytes src dst s) 14 = s.window := netGet16_put16 s.window
  simp only [parse, ok, hdr, length, srcPort, dstPort, seq, ack, flags, window, payload, tcpHdrLen]
  simp

end ReconOS.Tcp
