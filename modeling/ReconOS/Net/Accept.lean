import ReconOS.Net.Ip

/-! Which frames `ip_receive` hands up, to which layer, and which of their bytes. -/
namespace ReconOS.Net

/-- The layers a packet can go up to. -/
inductive Transport where
  | icmp | udp | tcp
  deriving DecidableEq, Repr

def ipProtoIcmp : U8 := 1
def ipProtoUdp : U8 := 17

def transportOf (protocol : U8) : Option Transport :=
  if protocol = ipProtoIcmp then some .icmp
  else if protocol = ipProtoUdp then some .udp
  else if protocol = ipProtoTcp then some .tcp
  else none

/-- All of `ip_receive`: the layer a packet is handed to, with the packet. -/
def ipHandOver (dev : NetDevice) (h : List U8) : Option (Transport × Datagram) :=
  match ipReceive dev h with
  | none => none
  | some d => (transportOf d.protocol).map fun layer => (layer, d)

/-! ## Packets -/

def headerLength (h : List U8) : Nat := (h.getD 0 0).toNat % 16 * 4

def totalLength (h : List U8) : Nat := (netGet16 h 2).toNat

/-- A packet as the header says it is. Its checksum verifies when the words of the header add up to
a multiple of `2^16 - 1`, and it is no fragment when neither the flag nor the offset is set. -/
structure WellFormed (h : List U8) : Prop where
  version : (h.getD 0 0).toNat / 16 = 4
  shortest : 20 ≤ headerLength h
  fits : headerLength h ≤ h.length
  checksum : words (h.take (headerLength h)) % 65535 = 0
  total : headerLength h ≤ totalLength h
  whole : (netGet16 h 6).toNat % 16384 = 0

/-- The address is the device's own, everybody's, or its wire's broadcast. -/
def Ours (dev : NetDevice) (dst : Ipv4Addr) : Prop :=
  dst = dev.ip ∨ dst = ipv4Broadcast ∨ dev.netmask ≠ 0 ∧ dst = dev.ip ||| ~~~dev.netmask

/-- The packet in a frame, without its header and without what pads the frame. -/
def datagram (h : List U8) : Datagram :=
  ⟨h.getD 9 0, netGet32 h 12, netGet32 h 16, (h.take (totalLength h)).drop (headerLength h)⟩

/-! ## The checks -/

theorem forUs_iff (dev : NetDevice) (dst : Ipv4Addr) :
    forUs dev dst = true ↔ dev.ip = 0 ∨ Ours dev dst := by
  simp [forUs, Ours, or_assoc]

theorem version_iff (v : U8) : (v >>> 4).toNat = v.toNat / 16 := by
  rw [BitVec.toNat_ushiftRight, Nat.shiftRight_eq_div_pow]

theorem nibble_toNat (v : U8) : (v &&& 0x0F).toNat = v.toNat % 16 := by
  rw [BitVec.toNat_and]
  exact Nat.and_two_pow_sub_one_eq_mod v.toNat 4

theorem fragment_iff (v : U16) :
    v &&& ipFlagMoreFragments ≠ 0 ∨ v &&& ipFragmentOffsetMask ≠ 0 ↔ ¬v.toNat % 16384 = 0 := by
  have both : v &&& ipFlagMoreFragments ||| v &&& ipFragmentOffsetMask = v &&& 0x3FFF := by
    rw [← BitVec.and_or_distrib_left]
    rfl
  have low : (v &&& 0x3FFF).toNat = v.toNat % 16384 := by
    rw [BitVec.toNat_and]
    exact Nat.and_two_pow_sub_one_eq_mod v.toNat 14
  have zero : v.toNat % 16384 = 0 ↔ v &&& 0x3FFF = 0 := by
    rw [← low, ← BitVec.toNat_inj]
    rfl
  have none : v &&& ipFlagMoreFragments ||| v &&& ipFragmentOffsetMask = 0 ↔
      v &&& ipFlagMoreFragments = 0 ∧ v &&& ipFragmentOffsetMask = 0 := BitVec.or_eq_zero_iff
  rw [zero, ← both, none]
  tauto

/-- A header long enough for its first byte cannot add up to nothing. -/
theorem words_take_pos {h : List U8} {n : Nat} (some : 2 ≤ n) (long : n ≤ h.length)
    (first : (h.getD 0 0).toNat ≠ 0) : words (h.take n) ≠ 0 := by
  match h, n, some with
  | [], _, _ => simp at first
  | [a], n + 2, _ => simp at long
  | a :: b :: rest, n + 2, _ =>
    simp only [List.getD_cons_zero] at first
    simp only [List.take_succ_cons, words]
    omega

/-- A header is short enough for its sum not to overflow. -/
theorem checksum_iff {h : List U8} {n : Nat} (some : 2 ≤ n) (short : n ≤ 60) (long : n ≤ h.length)
    (first : (h.getD 0 0).toNat ≠ 0) :
    netChecksum (h.take n) = 0 ↔ words (h.take n) % 65535 = 0 := by
  have bound := words_lt (h.take n)
  rw [List.length_take_of_le long] at bound
  have exact' : (netChecksumPartial (h.take n) 0).toNat = words (h.take n) := by
    rw [partial_toNat]
    change (0 + _) % _ = _
    omega
  rw [netChecksum, finish_eq_zero_iff, exact']
  exact and_iff_left (words_take_pos some long first)

/-- `ip_receive` keeps the well formed packets for this machine, and any at a device without an
address. -/
theorem ipReceive_iff (dev : NetDevice) (h : List U8) (d : Datagram) :
    ipReceive dev h = some d ↔
      WellFormed h ∧ (dev.ip = 0 ∨ Ours dev (netGet32 h 16)) ∧ d = datagram h := by
  have nibble : headerLength h ≤ 60 := by
    unfold headerLength
    omega
  unfold ipReceive
  simp only [version_iff, nibble_toNat, fragment_iff]
  change (if h.length < 20 then none else if (h.getD 0 0).toNat / 16 ≠ 4 then none else
    if headerLength h < 20 ∨ h.length < headerLength h then none else
    if netChecksum (h.take (headerLength h)) ≠ 0 then none else
    if totalLength h < headerLength h then none else
    if ¬(netGet16 h 6).toNat % 16384 = 0 then none else
    if !forUs dev (netGet32 h 16) then none else some (datagram h)) = some d ↔ _
  constructor
  · intro kept
    split at kept
    · cases kept
    split at kept
    · cases kept
    rename_i version
    rw [ne_eq, not_not] at version
    split at kept
    · cases kept
    rename_i lengths
    split at kept
    · cases kept
    rename_i sum
    rw [ne_eq, not_not, checksum_iff (by omega) nibble (by omega) (by omega)] at sum
    split at kept
    · cases kept
    rename_i total
    split at kept
    · cases kept
    rename_i whole
    split at kept
    · cases kept
    rename_i ours
    cases kept
    refine ⟨⟨version, by omega, by omega, sum, by omega, not_not.mp whole⟩, ?_, rfl⟩
    rw [← forUs_iff]
    simpa using ours
  · rintro ⟨⟨version, shortest, fits, sum, total, whole⟩, ours, rfl⟩
    rw [← forUs_iff] at ours
    rw [← checksum_iff (by omega) nibble fits (by omega)] at sum
    rw [if_neg (by omega), if_neg (not_not.mpr version), if_neg (by omega), if_neg (not_not.mpr sum),
      if_neg (by omega), if_neg (not_not.mpr whole), if_neg (by simp [ours])]

theorem ipHandOver_iff (dev : NetDevice) (h : List U8) (layer : Transport) (d : Datagram) :
    ipHandOver dev h = some (layer, d) ↔ WellFormed h ∧
      (dev.ip = 0 ∨ Ours dev (netGet32 h 16)) ∧ transportOf (h.getD 9 0) = some layer ∧
      d = datagram h := by
  unfold ipHandOver
  cases kept : ipReceive dev h with
  | none =>
    simp only [reduceCtorEq, false_iff]
    rintro ⟨formed, ours, -, -⟩
    have := (ipReceive_iff dev h (datagram h)).mpr ⟨formed, ours, rfl⟩
    rw [kept] at this
    cases this
  | some e =>
    obtain ⟨formed, ours, rfl⟩ := (ipReceive_iff dev h e).mp kept
    simp only [Option.map_eq_some_iff, Prod.mk.injEq]
    constructor
    · rintro ⟨layer, known, rfl, rfl⟩
      exact ⟨formed, ours, known, rfl⟩
    · rintro ⟨-, -, known, rfl⟩
      exact ⟨layer, known, rfl, rfl⟩

/-- What `ip_transmit` sends went through `build_header`. -/
theorem ipPacket_built {devices : List NetDevice} {id : U16} {dst hop : Ipv4Addr} {protocol : U8}
    {b p : Netbuf} {i : Nat} (sent : ipPacket devices id dst protocol b = some (i, hop, p)) :
    ∃ dev, devices[i]? = some dev ∧ buildHeader b dev dst protocol id = some p := by
  unfold ipPacket at sent
  split at sent
  · cases sent
  split at sent
  · cases sent
  rename_i dev found
  obtain ⟨p', built, same⟩ := Option.map_eq_some_iff.mp sent
  cases same
  exact ⟨dev, found, built⟩

/-! ## Input, and output that comes back -/

/-- **A frame that holds all of its packet is handed up exactly when the packet is well formed, for
this machine (or the machine has no address yet) and of a layer there is; and it goes up without
its header and padding. What `ip_transmit` builds for a machine comes back there as it was given.** -/
theorem ip_input_exact :
    (∀ (dev : NetDevice) (h : List U8) (layer : Transport) (d : Datagram),
      totalLength h ≤ h.length →
        (ipHandOver dev h = some (layer, d) ↔ WellFormed h ∧
          (dev.ip = 0 ∨ Ours dev (netGet32 h 16)) ∧ transportOf (h.getD 9 0) = some layer ∧
          d = datagram h ∧ d.data.length = totalLength h - headerLength h)) ∧
    ∀ (devices : List NetDevice) (id : U16) (protocol : U8) (b p : Netbuf) (i : Nat)
      (hop : Ipv4Addr) (me : NetDevice) (layer : Transport) (padding : List U8),
      ipPacket devices id me.ip protocol b = some (i, hop, p) →
      transportOf protocol = some layer →
      ∃ d, ipHandOver me (p.data ++ padding) = some (layer, d) ∧ d.data = b.data := by
  constructor
  · intro dev h layer d whole
    rw [ipHandOver_iff]
    have length : (datagram h).data.length = totalLength h - headerLength h := by
      rw [datagram, List.length_drop, List.length_take_of_le whole]
    constructor
    · rintro ⟨formed, ours, known, rfl⟩
      exact ⟨formed, ours, known, rfl, length⟩
    · rintro ⟨formed, ours, known, rfl, -⟩
      exact ⟨formed, ours, known, rfl⟩
  · intro devices id protocol b p i hop me layer padding sent known
    obtain ⟨dev, -, built⟩ := ipPacket_built sent
    have takes : forUs me me.ip = true := (forUs_iff me me.ip).mpr (.inr (.inl rfl))
    have kept := receive_built id protocol me.ip built takes padding
    refine ⟨⟨protocol, dev.ip, me.ip, b.data⟩, ?_, rfl⟩
    rw [ipHandOver, kept]
    exact congrArg (Option.map fun layer => (layer, (⟨protocol, dev.ip, me.ip, b.data⟩ : Datagram)))
      known

/-- A packet of two bytes from 10.0.0.5 to 10.0.0.9, two bytes of padding behind it. -/
def paddedFrame (protocol : U8) : List U8 :=
  checkedHeader 22 1 protocol 0x0A000005 0x0A000009 ++ [7, 8, 0, 0]

theorem padded_frame_accepted :
    ipHandOver peerDevice (paddedFrame ipProtoUdp) =
      some (.udp, ⟨ipProtoUdp, 0x0A000005, 0x0A000009, [7, 8]⟩) ∧
    ∃ d, ipHandOver peerDevice
      (checkedHeader 22 1 ipProtoUdp 0x0A000005 0x0A000009 ++ [7, 8] ++ [0]) = some (.udp, d) ∧
      d.data = [7, 8] := by
  constructor
  · apply (ip_input_exact.1 _ _ _ _ (by decide +kernel)).mpr
    refine ⟨⟨?_, ?_, ?_, ?_, ?_, ?_⟩, .inr (.inl ?_), ?_⟩ <;> decide +kernel
  · exact ip_input_exact.2 [hostDevice] 1 ipProtoUdp ⟨192, [7, 8]⟩
      ⟨172, checkedHeader 22 1 ipProtoUdp 0x0A000005 0x0A000009 ++ [7, 8]⟩ 0 0x0A000009 peerDevice
      .udp [0] rfl rfl

def unaddressed : NetDevice := { hostDevice with ip := 0 }

/-- Before a machine has an address it takes what is for another; what no layer is for goes
nowhere; and a packet of which bytes are missing goes up short. -/
theorem ip_input_differs :
    (¬Ours unaddressed (netGet32 (paddedFrame ipProtoUdp) 16) ∧
      ipHandOver unaddressed (paddedFrame ipProtoUdp) ≠ none) ∧
    (WellFormed (paddedFrame 2) ∧ Ours peerDevice (netGet32 (paddedFrame 2) 16) ∧
      totalLength (paddedFrame 2) ≤ (paddedFrame 2).length ∧
      ipHandOver peerDevice (paddedFrame 2) = none) ∧
    ((paddedFrame ipProtoUdp).take 21).length < totalLength ((paddedFrame ipProtoUdp).take 21) ∧
      (ipHandOver peerDevice ((paddedFrame ipProtoUdp).take 21)).map (·.2.data) = some [7] := by
  refine ⟨⟨?_, by decide +kernel⟩, ⟨⟨?_, ?_, ?_, ?_, ?_, ?_⟩, .inl ?_, ?_, ?_⟩, ?_, ?_⟩
  · rintro (own | all | ⟨-, wire⟩)
    · revert own
      decide +kernel
    · revert all
      decide +kernel
    · revert wire
      decide +kernel
  all_goals decide +kernel

end ReconOS.Net
