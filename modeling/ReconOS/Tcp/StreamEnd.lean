import ReconOS.Tcp.ReceiveSide

/-! Where a `FIN` is taken: its own number comes after its segment's bytes, and the segment's number
is what is compared. -/
namespace ReconOS.Tcp

open Net

variable {env : Env} {t : Table} {i : Slot} {p : Packet} {s : Segment} {c c' : Conn}

/-- The number a segment's `FIN` has: the one after its last byte. -/
def finSeq (s : Segment) : U32 := s.seq + BitVec.ofNat 32 s.payload.length

/-- The number of the first byte of the stream that is not delivered to the receive buffer by the
end of a call. -/
def firstMissing (c c' : Conn) : U32 := c.rcvNxt + BitVec.ofNat 32 (c'.rx.len - c.rx.len)

structure FinTaken (c c' : Conn) : Prop where
  moved : c'.state = .closeWait
  counted : c'.rcvNxt = firstMissing c c' + 1
  told : c'.peerClosed = true

structure FinLeft (c c' : Conn) : Prop where
  stayed : c'.state ≠ .closeWait
  counted : c'.rcvNxt = firstMissing c c'
  told : c'.peerClosed = c.peerClosed

/-- The `FIN` is taken if every byte before it is delivered, and left if one is not. -/
def EndsInPlace (c c' : Conn) (s : Segment) : Prop :=
  FinTaken c c' ∧ firstMissing c c' = finSeq s ∨ FinLeft c c' ∧ firstMissing c c' ≠ finSeq s

/-- A reset whose bytes are missing; or no bytes; or bytes of which the buffer takes some but not
all; or bytes that are not the next ones, with a `FIN` that is not next either. -/
def FinPlaced (c : Conn) (s : Segment) : Prop :=
  if has s.flags tcpRst then finSeq s ≠ c.rcvNxt
  else s.payload = [] ∨ s.seq = c.rcvNxt ∧ 0 < c.rx.room ∧ c.rx.room < s.payload.length ∨
    s.seq ≠ c.rcvNxt ∧ finSeq s ≠ c.rcvNxt

/-! ## One segment -/

/-- How many of a segment's bytes the buffer takes. -/
def taken (c : Conn) (s : Segment) : Nat :=
  if s.seq = c.rcvNxt then min s.payload.length c.rx.room else 0

/-- What the handling of the bytes leaves. -/
structure Filled (c c' : Conn) (s : Segment) : Prop where
  next : c'.rcvNxt = c.rcvNxt + BitVec.ofNat 32 (taken c s)
  len : c'.rx.len = c.rx.len + taken c s
  state : c'.state = c.state
  peerClosed : c'.peerClosed = c.peerClosed

theorem onPayload_filled (ok : Bool) (c : Conn) (s : Segment) :
    Filled c (onPayload ok c s).1 s := by
  unfold onPayload
  split
  case isTrue none =>
    have nothing : taken c s = 0 := by simp [taken, none]
    constructor <;> simp [nothing]
  case isFalse =>
    split
    case isFalse elsewhere =>
      have nothing : taken c s = 0 := if_neg elsewhere
      constructor <;> simp [nothing]
    case isTrue here =>
      have count : (c.rx.append s.payload).2 = taken c s := by
        rw [taken, if_pos here]
        exact (Ring.append_spec c.rx s.payload).2
      refine ⟨?_, ?_, rfl, rfl⟩
      · rw [← count]
        rfl
      · rw [← count]
        exact Ring.append_len c.rx s.payload

theorem Filled.onAck (filled : Filled (onAck c s) c' s) : Filled c c' s := by
  have same := onAck_rx c s
  have kept := onAck_kept c s
  have count : taken (Tcp.onAck c s) s = taken c s := by
    unfold taken
    rw [same.rcvNxt, same.rx]
  obtain ⟨next, len, state, peerClosed⟩ := filled
  rw [count, same.rcvNxt] at next
  rw [count, same.rx] at len
  exact ⟨next, len, state.trans kept.2, peerClosed.trans same.peerClosed⟩

theorem onFin_rx (now : Nat) (ok : Bool) (c : Conn) (s : Segment) :
    (onFin now ok c s).1.rx = c.rx := by
  unfold onFin
  split
  · rfl
  · split <;> rfl

/-- What the segment's number is compared with decides. -/
theorem onFin_taken (now : Nat) (ok : Bool) {d : Conn} (filled : Filled c d s)
    (up : c.state = .established) (fin : has s.flags tcpFin = true) :
    (s.seq = d.rcvNxt → FinTaken c (onFin now ok d s).1) ∧
      (s.seq ≠ d.rcvNxt → FinLeft c (onFin now ok d s).1) := by
  have missing : firstMissing c (onFin now ok d s).1 = d.rcvNxt := by
    rw [firstMissing, onFin_rx, filled.len, filled.next, Nat.add_sub_cancel_left]
  have up' : d.state = .established := filled.state.trans up
  constructor
  · intro here
    constructor
    · simp [onFin, fin, here, up']
    · rw [missing]
      simp [onFin, fin, here]
    · simp [onFin, fin, here]
  · intro elsewhere
    have left : (onFin now ok d s).1 = d := by simp [onFin, elsewhere, up']
    constructor
    · rw [left, up']
      simp
    · rw [missing, left]
    · rw [left, filled.peerClosed]

theorem ofNat_eq_iff {m n : Nat} (hm : m < 2 ^ 32) (hn : n < 2 ^ 32) :
    (BitVec.ofNat 32 m : U32) = BitVec.ofNat 32 n ↔ m = n := by
  constructor
  · intro same
    have := congrArg BitVec.toNat same
    rwa [BitVec.toNat_ofNat, BitVec.toNat_ofNat, Nat.mod_eq_of_lt hm, Nat.mod_eq_of_lt hn] at this
  · intro same
    rw [same]

/-- Whether the segment's number is the first missing one afterwards, which decides, is whether its
`FIN`'s number is. -/
theorem place_iff (short : s.payload.length < 2 ^ 32)
    (calm : has s.flags tcpRst = false) :
    (s.seq = c.rcvNxt + BitVec.ofNat 32 (taken c s) ↔
        c.rcvNxt + BitVec.ofNat 32 (taken c s) = finSeq s) ↔ FinPlaced c s := by
  have room : c.rx.room < 2 ^ 32 := by
    have := c.rx.bound
    simp only [Ring.room, bufferSize]
    omega
  unfold FinPlaced finSeq
  rw [if_neg (by simp [calm])]
  by_cases here : s.seq = c.rcvNxt
  · have count : taken c s = min s.payload.length c.rx.room := if_pos here
    have start : c.rcvNxt = c.rcvNxt + BitVec.ofNat 32 (taken c s) ↔ taken c s = 0 := by
      have zero := ofNat_eq_iff (m := taken c s) (n := 0) (by omega) (by omega)
      rw [← zero]
      constructor
      · intro same
        simpa using same.symm
      · intro none
        rw [none]
        simp
    have whole : c.rcvNxt + BitVec.ofNat 32 (taken c s) =
        c.rcvNxt + BitVec.ofNat 32 s.payload.length ↔ taken c s = s.payload.length := by
      rw [add_right_inj]
      exact ofNat_eq_iff (by omega) short
    rw [here, start, whole, count, ← List.length_eq_zero_iff]
    simp only [true_and, ne_eq, not_true_eq_false, false_and, or_false]
    omega
  · have count : taken c s = 0 := if_neg here
    have none : BitVec.ofNat 32 (taken c s) = (0 : U32) := by rw [count]; rfl
    rw [none, add_zero]
    constructor
    · intro same
      by_cases empty : s.payload = []
      · exact .inl empty
      · exact .inr (.inr ⟨here, fun fin => here (same.mpr fin.symm)⟩)
    · rintro (empty | ⟨there, -⟩ | ⟨-, away⟩)
      · simp [empty, eq_comm]
      · exact absurd there here
      · exact ⟨fun there => absurd there here, fun fin => absurd fin.symm away⟩

/-! ## A segment as it comes in -/

theorem payload_le (ok : parse p = some s) : s.payload.length ≤ p.data.length := by
  unfold parse at ok
  split at ok
  · cases ok
  split at ok
  · cases ok
  split at ok
  · cases ok
  cases ok
  rw [List.length_drop]
  omega

/-- **A `FIN` ends the stream where it stands exactly when it is placed so.** The length of what
comes in is 32 bits wide. -/
theorem fin_in_place_iff (env : Env) (t : Table) (i : Slot) (p : Packet) (s : Segment)
    (ok : parse p = some s) (found : slotFor t p s = some i) (wide : p.data.length < 2 ^ 32)
    (up : (t i).state = .established) (fin : has s.flags tcpFin = true) :
    EndsInPlace (t i) ((tcpReceive env t p).table i) s ↔ FinPlaced (t i) s := by
  have short : s.payload.length < 2 ^ 32 := Nat.lt_of_le_of_lt (payload_le ok) wide
  have handled : (tcpReceive env t p).table i = (deliverTo env t i p s).table i := by
    simp only [tcpReceive, ok, found]
  rw [handled, deliverTo]
  cases reset : has s.flags tcpRst with
  | true =>
    rw [if_pos rfl, Effect.of_at]
    have missing : firstMissing (t i) { t i with reset := true, state := .closed } =
        (t i).rcvNxt := by simp [firstMissing]
    have left : FinLeft (t i) { t i with reset := true, state := .closed } :=
      ⟨by simp, by rw [missing], rfl⟩
    rw [EndsInPlace, FinPlaced, if_pos reset, missing]
    constructor
    · rintro (⟨gone, -⟩ | ⟨-, away⟩)
      · exact absurd gone.moved (by simp)
      · exact away.symm
    · exact fun away => .inr ⟨left, away.symm⟩
  | false =>
    rw [if_neg (by simp), if_neg (by simp [up]), Effect.of_at]
    have streamed : arrive env (t i) s = onStream env (t i) s := by simp only [arrive, up]
    rw [streamed, ← place_iff short reset]
    have filled : Filled (t i) (onPayload (env.netbuf 0) (onAck (t i) s) s).1 s :=
      (onPayload_filled (env.netbuf 0) (onAck (t i) s) s).onAck
    have both := onFin_taken env.now (env.netbuf 1) filled up fin
    have missing : firstMissing (t i) (onStream env (t i) s).1 =
        (t i).rcvNxt + BitVec.ofNat 32 (taken (t i) s) := by
      rw [firstMissing, show (onStream env (t i) s).1.rx.len =
        (onPayload (env.netbuf 0) (onAck (t i) s) s).1.rx.len from congrArg Ring.len (onFin_rx _ _ _ _),
        filled.len, Nat.add_sub_cancel_left]
    rw [EndsInPlace, missing]
    rw [filled.next] at both
    by_cases here : s.seq = (t i).rcvNxt + BitVec.ofNat 32 (taken (t i) s)
    · have gone := both.1 here
      simp only [iff_true_left here]
      constructor
      · rintro (⟨-, place⟩ | ⟨left, -⟩)
        · exact place
        · exact absurd gone.moved left.stayed
      · exact fun place => .inl ⟨gone, place⟩
    · have left := both.2 here
      simp only [iff_false_left here]
      constructor
      · rintro (⟨gone, -⟩ | ⟨-, away⟩)
        · exact absurd gone.moved left.stayed
        · exact away
      · exact fun away => .inr ⟨left, away⟩

/-! ## The end of the call that was answered -/

/-- The last bytes of 10.0.0.9, port 80, and its `FIN`. -/
def lastSegment (payload : List U8) : Segment :=
  ⟨80, 50000, 101, 1, tcpFin ||| tcpAck, 0xFFFF, payload⟩

def lastPacket (payload : List U8) : Packet :=
  ⟨0x0A000009, 0x0A000005, segmentBytes 0x0A000009 0x0A000005 (lastSegment payload)⟩

theorem bare_fin_in_place :
    EndsInPlace (answered 0) ((tcpReceive calmEnv answered (lastPacket [])).table 0)
      (lastSegment []) := by
  have parsed : parse (lastPacket []) = some (lastSegment []) :=
    parse_segmentBytes _ _ _ _ (by decide) rfl
  have placed : FinPlaced (answered 0) (lastSegment []) := .inl rfl
  exact (fin_in_place_iff calmEnv answered 0 (lastPacket []) (lastSegment []) parsed (by decide)
    (by decide) (by decide) (by decide)).mpr placed

/-- A `FIN` on the last byte is not taken, though the byte is. -/
theorem fin_on_data_left :
    parse (lastPacket [7]) = some (lastSegment [7]) ∧
      slotFor answered (lastPacket [7]) (lastSegment [7]) = some 0 ∧
      (answered 0).state = .established ∧ has (lastSegment [7]).flags tcpFin = true ∧
      ((tcpReceive calmEnv answered (lastPacket [7])).table 0).rx.toList = [7] ∧
      ¬EndsInPlace (answered 0) ((tcpReceive calmEnv answered (lastPacket [7])).table 0)
        (lastSegment [7]) := by
  have parsed : parse (lastPacket [7]) = some (lastSegment [7]) :=
    parse_segmentBytes _ _ _ _ (by decide) rfl
  have stayed : ((tcpReceive calmEnv answered (lastPacket [7])).table 0).state = .established := by
    decide +kernel
  have missing : firstMissing (answered 0)
      ((tcpReceive calmEnv answered (lastPacket [7])).table 0) = finSeq (lastSegment [7]) := by
    decide +kernel
  refine ⟨parsed, by decide +kernel, by decide +kernel, by decide, by decide +kernel, ?_⟩
  rintro (⟨gone, -⟩ | ⟨-, away⟩)
  · have moved := gone.moved
    rw [stayed] at moved
    cases moved
  · exact away missing

end ReconOS.Tcp
