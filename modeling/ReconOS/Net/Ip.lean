import ReconOS.Net.Device

/-! The IPv4 header: what `ip_transmit` puts in front of a packet and what `ip_receive` asks of
one. -/
namespace ReconOS.Net

def ipHdrLen : Nat := 20
def ipVersion4 : Nat := 4
def ipDefaultTtl : U8 := 64
def ipProtoTcp : U8 := 6
def ipFlagMoreFragments : U16 := 0x2000
def ipFragmentOffsetMask : U16 := 0x1FFF

/-- The header of a packet of `total` bytes, with `sum` for a checksum. -/
def ipHeader (total id : U16) (protocol : U8) (src dst : Ipv4Addr) (sum : U16) : List U8 :=
  [BitVec.ofNat 8 (ipVersion4 <<< 4 ||| ipHdrLen / 4), 0] ++ netPut16 total ++ netPut16 id ++
  netPut16 0 ++ [ipDefaultTtl, protocol] ++ netPut16 sum ++ netPut32 src ++ netPut32 dst

/-- The checksum is taken with the field itself zero. -/
def checkedHeader (total id : U16) (protocol : U8) (src dst : Ipv4Addr) : List U8 :=
  ipHeader total id protocol src dst (netChecksum (ipHeader total id protocol src dst 0))

/-- A packet that fits one frame, with its header. `id` is the next packet's number. -/
def buildHeader (b : Netbuf) (dev : NetDevice) (dst : Ipv4Addr) (protocol : U8) (id : U16) :
    Option Netbuf :=
  if netMtu < b.data.length + ipHdrLen then none
  else
    netbufPush b
      (checkedHeader (BitVec.ofNat 16 (b.data.length + ipHdrLen)) id protocol dev.ip dst)

/-- The start of `ip_transmit`: the packet it sends or holds, the device it leaves by and the
address its frame is for. -/
def ipPacket (devices : List NetDevice) (id : U16) (dst : Ipv4Addr) (protocol : U8) (b : Netbuf) :
    Option (Nat × Ipv4Addr × Netbuf) :=
  match netdevRoute devices dst with
  | none => none
  | some (i, hop) =>
    match devices[i]? with
    | none => none
    | some dev => (buildHeader b dev dst protocol id).map fun p => (i, hop, p)

/-! ## Receiving -/

/-- The address is this machine's, everybody's, or this wire's broadcast; an address not yet
configured turns nothing away. -/
def forUs (dev : NetDevice) (dst : Ipv4Addr) : Bool :=
  dev.ip == 0 || dst == dev.ip || dst == ipv4Broadcast ||
  (dev.netmask != 0 && dst == (dev.ip ||| ~~~dev.netmask))

/-- A packet as it goes up to the layer its protocol names. -/
structure Datagram where
  protocol : U8
  srcIp : Ipv4Addr
  dstIp : Ipv4Addr
  data : List U8
  deriving DecidableEq, Repr

def ipReceive (dev : NetDevice) (h : List U8) : Option Datagram :=
  if h.length < ipHdrLen then none
  else if (h.getD 0 0 >>> 4).toNat ≠ ipVersion4 then none
  else
    let hdrLen := (h.getD 0 0 &&& 0x0F).toNat * 4
    if hdrLen < ipHdrLen ∨ h.length < hdrLen then none
    else if netChecksum (h.take hdrLen) ≠ 0 then none
    else
      let total := (netGet16 h 2).toNat
      if total < hdrLen then none
      else
        let frag := netGet16 h 6
        if frag &&& ipFlagMoreFragments ≠ 0 ∨ frag &&& ipFragmentOffsetMask ≠ 0 then none
        else if !forUs dev (netGet32 h 16) then none
        else some {
          protocol := h.getD 9 0
          srcIp := netGet32 h 12
          dstIp := netGet32 h 16
          -- A frame may be padded past the packet.
          data := (h.take total).drop hdrLen }

/-! ## A header built here passes -/

variable (total id sum : U16) (protocol : U8) (src dst : Ipv4Addr)

@[simp] theorem ipHeader_length : (ipHeader total id protocol src dst sum).length = 20 := rfl

theorem ipHeader_words :
    words (ipHeader total id protocol src dst sum) =
      words (ipHeader total id protocol src dst 0) + sum.toNat := by
  have split (v : U16) : words (ipHeader total id protocol src dst v) =
      words ([BitVec.ofNat 8 (ipVersion4 <<< 4 ||| ipHdrLen / 4), 0] ++ netPut16 total ++
        netPut16 id ++ netPut16 0 ++ [ipDefaultTtl, protocol]) + v.toNat + halves src + halves dst := by
    rw [ipHeader, words_append _ _ (by simp [netPut16, netPut32]),
      words_append _ _ (by simp [netPut16]), words_append _ _ (by simp [netPut16]), words_put16,
      words_put32, words_put32]
  have zero : (0 : U16).toNat = 0 := rfl
  rw [split, split, zero]
  omega

/-- The first word, version and length, is not zero. -/
theorem ipHeader_words_pos : 0 < words (ipHeader total id protocol src dst 0) := by
  have first : words (ipHeader total id protocol src dst 0) = 256 * 69 + 0 +
      words ((ipHeader total id protocol src dst 0).drop 2) := rfl
  omega

theorem checkedHeader_ok : netChecksum (checkedHeader total id protocol src dst) = 0 := by
  have small (v : U16) : words (ipHeader total id protocol src dst v) % 2 ^ 32 =
      words (ipHeader total id protocol src dst v) := by
    have bound := words_lt (ipHeader total id protocol src dst v)
    rw [ipHeader_length] at bound
    exact Nat.mod_eq_of_lt (by omega)
  have zero : (0 : U32).toNat = 0 := rfl
  have whole := finish_add (netChecksumPartial (ipHeader total id protocol src dst 0) 0)
  rw [partial_toNat, zero, Nat.zero_add, small] at whole
  have some := ipHeader_words_pos total id protocol src dst
  rw [netChecksum, finish_eq_zero_iff, partial_toNat, zero, Nat.zero_add, checkedHeader, small,
    ipHeader_words]
  exact ⟨whole, by omega⟩

/-- What is put in front of a packet comes off again at any device the packet is for, whatever
follows it in the frame. -/
theorem receive_built {b p : Netbuf} {dev peer : NetDevice}
    (built : buildHeader b dev dst protocol id = some p) (takes : forUs peer dst = true)
    (padding : List U8) :
    ipReceive peer (p.data ++ padding) = some ⟨protocol, dev.ip, dst, b.data⟩ := by
  obtain ⟨fits, bytes⟩ : b.data.length + ipHdrLen ≤ netMtu ∧ p.data =
      checkedHeader (BitVec.ofNat 16 (b.data.length + ipHdrLen)) id protocol dev.ip dst ++ b.data := by
    simp only [buildHeader, netbufPush] at built
    grind
  rw [bytes, List.append_assoc]
  generalize sized : (BitVec.ofNat 16 (b.data.length + ipHdrLen) : U16) = total
  have total' : total.toNat = b.data.length + 20 := by
    rw [← sized, BitVec.toNat_ofNat]
    simp only [netMtu, ipHdrLen] at fits ⊢
    omega
  have ok := checkedHeader_ok total id protocol dev.ip dst
  have length : (checkedHeader total id protocol dev.ip dst).length = 20 := rfl
  generalize header : checkedHeader total id protocol dev.ip dst = h at ok length
  have first : (h ++ (b.data ++ padding)).getD 0 0 = 0x45 := by
    rw [← header]; rfl
  have totalLen : netGet16 (h ++ (b.data ++ padding)) 2 = total := by
    rw [← header]; exact netGet16_put16 total
  have frag : netGet16 (h ++ (b.data ++ padding)) 6 = 0 := by
    rw [← header]; exact netGet16_put16 0
  have proto : (h ++ (b.data ++ padding)).getD 9 0 = protocol := by
    rw [← header]; rfl
  have src' : netGet32 (h ++ (b.data ++ padding)) 12 = dev.ip := by
    rw [← header]; exact netGet32_put32 dev.ip
  have dst' : netGet32 (h ++ (b.data ++ padding)) 16 = dst := by
    rw [← header]; exact netGet32_put32 dst
  have front : (h ++ (b.data ++ padding)).take 20 = h := List.take_left' length
  have back : ((h ++ (b.data ++ padding)).take (b.data.length + 20)).drop 20 = b.data := by
    rw [List.drop_take, List.drop_left' length, Nat.add_sub_cancel, List.take_left]
  unfold ipReceive
  simp only [first, totalLen, total', frag, proto, src', dst', takes, List.length_append, length]
  simp [front, ok, back, ipHdrLen, ipVersion4, ipFlagMoreFragments, ipFragmentOffsetMask]

end ReconOS.Net
