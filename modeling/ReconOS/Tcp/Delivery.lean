import ReconOS.Net.Ip
import ReconOS.Tcp.Table
import ReconOS.Tcp.Slots

/-! A segment on its way: out of `send_segment`, through `ip_transmit`, and up to the checks of
another machine that runs the same code. -/
namespace ReconOS.Tcp

open Net

/-- The buffer `send_segment` hands to `ip_transmit`. -/
def segmentBuf (page : Bool) (c : Conn) (flags : U8) (seq : U32) (payload : List U8) :
    Option Netbuf :=
  (netbufAlloc page).bind fun b =>
  (if payload.length ≠ 0 then netbufPut b payload else some b).bind fun b =>
  let s : Segment :=
    ⟨c.localPort, c.remotePort, seq, c.rcvNxt, flags, BitVec.ofNat 16 (rxFree c), b.data⟩
  netbufPush b (header s (netChecksumFinish (segmentSum c.localIp c.remoteIp s)))

/-- The buffer holds the bytes of the one segment sent, when one is. -/
theorem segmentBuf_eq (page : Bool) (c : Conn) (flags : U8) (seq : U32) (payload : List U8) :
    segmentBuf page c flags seq payload =
      (sendSegment page c flags seq payload).head?.map fun o =>
        ⟨netHeadroom - tcpHdrLen, segmentBytes o.src o.dst o.seg⟩ := by
  have put : (if payload.length ≠ 0 then netbufPut ⟨netHeadroom, []⟩ payload
      else some ⟨netHeadroom, []⟩) =
      if payload.length ≤ netBufCapacity - netHeadroom then some ⟨netHeadroom, payload⟩ else none := by
    simp only [netbufPut, netBufCapacity, netHeadroom, List.length_nil, List.nil_append]
    grind
  cases page with
  | false => simp [segmentBuf, sendSegment, netbufAlloc]
  | true =>
    simp only [segmentBuf, sendSegment, netbufAlloc, if_true, Option.bind_some, put, true_and]
    split
    case isTrue => rfl
    case isFalse => rfl

/-- A machine passes the packet up to TCP, and TCP finds its checksum good. -/
def accepts (peer : NetDevice) (packet : List U8) : Bool :=
  match ipReceive peer packet with
  | none => false
  | some g => g.protocol == ipProtoTcp && checksumOk ⟨g.srcIp, g.dstIp, g.data⟩

/-- The device the connection's packets leave by has the connection's local address, or one whose
halves add up to the same modulo `2^16 - 1`. -/
def Sourced (devices : List NetDevice) (c : Conn) : Prop :=
  ∀ i hop dev, netdevRoute devices c.remoteIp = some (i, hop) → devices[i]? = some dev →
    halves dev.ip % 65535 = halves c.localIp % 65535

/-- What `send_segment` made for a connection and `ip_transmit` sends is accepted at every machine
that has the connection's remote address, however the frame is padded, exactly when the device it
leaves by is the one the checksum was made for. -/
theorem sent_accepted_iff {page : Bool} {c : Conn} {flags : U8} {seq : U32} {payload : List U8}
    {devices : List NetDevice} {id : U16} {i : Nat} {hop : Ipv4Addr} {b p : Netbuf} {peer : NetDevice}
    (built : segmentBuf page c flags seq payload = some b)
    (sent : ipPacket devices id c.remoteIp ipProtoTcp b = some (i, hop, p))
    (takes : forUs peer c.remoteIp = true) (padding : List U8) :
    accepts peer (p.data ++ padding) = true ↔ Sourced devices c := by
  obtain ⟨s, data, short⟩ : ∃ s : Segment, b.data = segmentBytes c.localIp c.remoteIp s ∧
      tcpHdrLen + s.payload.length ≤ 65535 := by
    rw [segmentBuf_eq, sendSegment] at built
    split at built
    case isTrue fits =>
      cases built
      refine ⟨_, rfl, ?_⟩
      have := fits.2
      simp only [netBufCapacity, netHeadroom, tcpHdrLen] at this ⊢
      omega
    case isFalse => cases built
  unfold ipPacket at sent
  split at sent
  · cases sent
  case h_2 i' hop' route =>
    split at sent
    · cases sent
    case h_2 dev found =>
      obtain ⟨p', header, same⟩ := Option.map_eq_some_iff.1 sent
      cases same
      have here : Sourced devices c ↔ halves dev.ip % 65535 = halves c.localIp % 65535 := by
        constructor
        · exact fun sourced => sourced i hop dev route found
        · intro same i' hop' dev' route' found'
          rw [route] at route'
          cases route'
          rw [found] at found'
          cases found'
          exact same
      rw [here, ← checksumOk_iff c.localIp dev.ip c.remoteIp s short, accepts,
        receive_built _ _ _ header takes padding, data]
      simp

/-- A connection from a socket bound to the machine's own address. -/
def boundConn : Conn :=
  (Stack.boot.play [(calmSockEnv, .create sockStream), (calmSockEnv, .bind 0 0x0A000005 5000),
    (calmSockEnv, .connect 0 0x0A000009 80)]).conns 0

theorem boundConn_accepted :
    ∃ b i hop p, segmentBuf true boundConn tcpSyn 0 [] = some b ∧
      ipPacket [hostDevice] 1 boundConn.remoteIp ipProtoTcp b = some (i, hop, p) ∧
      accepts peerDevice (p.data ++ []) = true := by
  have goes : ((segmentBuf true boundConn tcpSyn 0 []).bind
      (ipPacket [hostDevice] 1 boundConn.remoteIp ipProtoTcp)).isSome = true := by decide +kernel
  obtain ⟨⟨i, hop, p⟩, whole⟩ := Option.isSome_iff_exists.1 goes
  obtain ⟨b, built, sent⟩ := Option.bind_eq_some_iff.1 whole
  refine ⟨b, i, hop, p, built, sent, (sent_accepted_iff built sent (by decide +kernel) []).2 ?_⟩
  intro i hop dev route found
  cases route
  cases found
  decide +kernel

/-- The first `SYN` of a connection from a socket nobody bound, which remembers no address of its
own. -/
theorem calling_refused :
    ∃ b p, segmentBuf true ((Stack.boot.play calling).conns 0) tcpSyn 0 [] = some b ∧
      ipPacket [hostDevice] 1 0x0A000009 ipProtoTcp b = some (0, 0x0A000009, p) ∧
      forUs peerDevice 0x0A000009 = true ∧ accepts peerDevice p.data = false := by
  refine ⟨_, _, rfl, rfl, rfl, ?_⟩
  decide +kernel

end ReconOS.Tcp
