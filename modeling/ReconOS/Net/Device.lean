import Mathlib.Data.BitVec

/-! Integers on the wire, and the Internet checksum. -/
namespace ReconOS.Net

abbrev U8 := BitVec 8
abbrev U16 := BitVec 16
abbrev U32 := BitVec 32

/-- An address in host order, as the kernel holds it. -/
abbrev Ipv4Addr := U32

/-! ## Byte order -/

def netGet16 (p : List U8) (i : Nat) : U16 :=
  ((p.getD i 0).setWidth 16 <<< 8) ||| (p.getD (i + 1) 0).setWidth 16

def netGet32 (p : List U8) (i : Nat) : U32 :=
  ((p.getD i 0).setWidth 32 <<< 24) ||| ((p.getD (i + 1) 0).setWidth 32 <<< 16) |||
  ((p.getD (i + 2) 0).setWidth 32 <<< 8) ||| (p.getD (i + 3) 0).setWidth 32

def netPut16 (v : U16) : List U8 := [(v >>> 8).setWidth 8, v.setWidth 8]

def netPut32 (v : U32) : List U8 :=
  [(v >>> 24).setWidth 8, (v >>> 16).setWidth 8, (v >>> 8).setWidth 8, v.setWidth 8]

/-! ## The checksum -/

/-- Pairs of bytes, high byte first, added up in 32 bits. An odd last byte is a high half. -/
def netChecksumPartial : List U8 → U32 → U32
  | a :: b :: rest, sum => netChecksumPartial rest (sum + (netGet16 [a, b] 0).setWidth 32)
  | [a], sum => sum + (a.setWidth 32 <<< 8)
  | [], sum => sum

/-- Folding the carries down. Each fold of a sum that still carries makes it smaller, so the sum
itself bounds how many there are. -/
def foldCarries : Nat → U32 → U32
  | 0, sum => sum
  | n + 1, sum =>
    if sum >>> 16 ≠ 0 then foldCarries n ((sum &&& 0xFFFF#32) + (sum >>> 16)) else sum

def netChecksumFinish (sum : U32) : U16 := ~~~ (foldCarries sum.toNat sum).setWidth 16

def netChecksum (p : List U8) : U16 := netChecksumFinish (netChecksumPartial p 0)

/-! ## What the checksum computes -/

theorem netGet16_toNat (a b : U8) : (netGet16 [a, b] 0).toNat = 256 * a.toNat + b.toNat := by
  have ha := a.isLt
  have hb := b.isLt
  simp only [netGet16, List.getD_cons_zero, List.getD_cons_succ, Nat.zero_add, BitVec.toNat_or,
    BitVec.toNat_shiftLeft, BitVec.toNat_setWidth]
  rw [Nat.mod_eq_of_lt (by omega : a.toNat < 2 ^ 16), Nat.mod_eq_of_lt (by omega : b.toNat < 2 ^ 16),
    Nat.mod_eq_of_lt (by rw [Nat.shiftLeft_eq]; omega), ← Nat.shiftLeft_add_eq_or_of_lt hb,
    Nat.shiftLeft_eq, Nat.mul_comm]

theorem netGet16_put16 (v : U16) : netGet16 (netPut16 v) 0 = v := by
  apply BitVec.eq_of_toNat_eq
  have := v.isLt
  rw [netPut16, netGet16_toNat, BitVec.toNat_setWidth, BitVec.toNat_setWidth,
    BitVec.toNat_ushiftRight, Nat.shiftRight_eq_div_pow]
  omega

theorem netGet32_put32 (v : U32) : netGet32 (netPut32 v) 0 = v := by
  apply BitVec.eq_of_getLsbD_eq
  intro i hi
  simp only [netGet32, netPut32, List.getD_cons_zero, List.getD_cons_succ, Nat.zero_add,
    BitVec.getLsbD_or, BitVec.getLsbD_shiftLeft, BitVec.getLsbD_setWidth, BitVec.getLsbD_ushiftRight]
  -- Each bit is in one of the four bytes.
  rcases (by omega : i < 8 ∨ 8 ≤ i ∧ i < 16 ∨ 16 ≤ i ∧ i < 24 ∨ 24 ≤ i) with b | b | b | b
  all_goals grind

/-- The words of a run of bytes, added up without a bound. -/
def words : List U8 → Nat
  | a :: b :: rest => 256 * a.toNat + b.toNat + words rest
  | [a] => 256 * a.toNat
  | [] => 0

theorem partial_toNat (p : List U8) (sum : U32) :
    (netChecksumPartial p sum).toNat = (sum.toNat + words p) % 2 ^ 32 := by
  induction p, sum using netChecksumPartial.induct with
  | case1 a b rest sum ih =>
    have pair : ((netGet16 [a, b] 0).setWidth 32).toNat = 256 * a.toNat + b.toNat := by
      rw [BitVec.toNat_setWidth, netGet16_toNat]
      omega
    rw [netChecksumPartial, ih, words, BitVec.toNat_add, pair]
    omega
  | case2 sum a =>
    have := a.isLt
    simp only [netChecksumPartial, words, BitVec.toNat_add, BitVec.toNat_shiftLeft,
      BitVec.toNat_setWidth, Nat.shiftLeft_eq]
    omega
  | case3 sum => simp [netChecksumPartial, words, Nat.mod_eq_of_lt sum.isLt]

theorem words_append (p q : List U8) (even : p.length % 2 = 0) :
    words (p ++ q) = words p + words q := by
  induction p using words.induct with
  | case1 a b rest ih =>
    have := ih (by simp only [List.length_cons] at even; omega)
    simp only [List.cons_append, words, this]
    omega
  | case2 a => simp at even
  | case3 => simp [words]

theorem words_put16 (v : U16) : words (netPut16 v) = v.toNat := by
  have := v.isLt
  simp only [netPut16, words, BitVec.toNat_setWidth, BitVec.toNat_ushiftRight,
    Nat.shiftRight_eq_div_pow]
  omega

/-- The two halves of an address, added up. -/
def halves (a : U32) : Nat := a.toNat / 65536 + a.toNat % 65536

theorem words_put32 (v : U32) : words (netPut32 v) = halves v := by
  have := v.isLt
  simp only [netPut32, words, halves, BitVec.toNat_setWidth, BitVec.toNat_ushiftRight,
    Nat.shiftRight_eq_div_pow]
  omega

theorem words_lt (p : List U8) : 2 * words p ≤ 65535 * (p.length + 1) := by
  induction p using words.induct with
  | case1 a b rest ih =>
    have := a.isLt
    have := b.isLt
    simp only [words, List.length_cons]
    omega
  | case2 a =>
    have := a.isLt
    simp only [words, List.length_cons, List.length_nil]
    omega
  | case3 => simp [words]

/-- Folding keeps the sum modulo `2^16 - 1` and never turns a sum that is not zero into zero. -/
theorem fold_spec (n : Nat) (sum : U32) (enough : sum.toNat ≤ n) :
    (foldCarries n sum).toNat < 2 ^ 16 ∧
    (foldCarries n sum).toNat % 65535 = sum.toNat % 65535 ∧
    ((foldCarries n sum).toNat = 0 ↔ sum.toNat = 0) := by
  induction n generalizing sum with
  | zero =>
    have : sum.toNat = 0 := by omega
    simp [foldCarries, this]
  | succ n ih =>
    have high : (sum >>> 16).toNat = sum.toNat / 65536 := by
      simp [BitVec.toNat_ushiftRight, Nat.shiftRight_eq_div_pow]
    have low : (sum &&& 0xFFFF#32).toNat = sum.toNat % 65536 := by
      rw [BitVec.toNat_and]
      exact Nat.and_two_pow_sub_one_eq_mod sum.toNat 16
    have lt := sum.isLt
    unfold foldCarries
    split
    case isTrue more =>
      have carry : 0 < sum.toNat / 65536 := by
        rw [← high]
        exact Nat.pos_of_ne_zero fun h => more (BitVec.eq_of_toNat_eq (by simpa using h))
      have next : ((sum &&& 0xFFFF#32) + (sum >>> 16)).toNat =
          sum.toNat % 65536 + sum.toNat / 65536 := by
        rw [BitVec.toNat_add, high, low]
        omega
      obtain ⟨small, same, zero⟩ := ih _ (by rw [next]; omega)
      refine ⟨small, ?_, ?_⟩
      · rw [same, next]
        omega
      · rw [zero, next]
        omega
    case isFalse done =>
      have none : sum.toNat / 65536 = 0 := by
        rw [← high, not_not.1 done]
        rfl
      exact ⟨by omega, rfl, Iff.rfl⟩

theorem finish_toNat (sum : U32) :
    (netChecksumFinish sum).toNat = 65535 - (foldCarries sum.toNat sum).toNat := by
  obtain ⟨small, -⟩ := fold_spec sum.toNat sum le_rfl
  rw [netChecksumFinish, BitVec.toNat_not, BitVec.toNat_setWidth, Nat.mod_eq_of_lt small]

/-- A sum checks out when it is a multiple of `2^16 - 1` other than zero. -/
theorem finish_eq_zero_iff (sum : U32) :
    netChecksumFinish sum = 0 ↔ sum.toNat % 65535 = 0 ∧ sum.toNat ≠ 0 := by
  obtain ⟨small, same, zero⟩ := fold_spec sum.toNat sum le_rfl
  have eq := finish_toNat sum
  rw [← BitVec.toNat_inj, eq]
  change _ = 0 ↔ _
  omega

/-- The sum together with its checksum is a multiple of `2^16 - 1`. -/
theorem finish_add (sum : U32) : (sum.toNat + (netChecksumFinish sum).toNat) % 65535 = 0 := by
  obtain ⟨small, same, -⟩ := fold_spec sum.toNat sum le_rfl
  rw [finish_toNat]
  omega

/-! Packet buffers, network devices and the route an address takes. -/

/-! ## Packet buffers -/

def netHeadroom : Nat := 192
def netBufCapacity : Nat := 4096 - netHeadroom - 64
def netMtu : Nat := 1500

/-- `struct netbuf`: the room left in front of `data`, and the bytes from it. -/
structure Netbuf where
  room : Nat
  data : List U8

/-- A buffer with its headroom, when there is a page for one. -/
def netbufAlloc (page : Bool) : Option Netbuf := if page then some ⟨netHeadroom, []⟩ else none

/-- `bytes` after the data. -/
def netbufPut (b : Netbuf) (bytes : List U8) : Option Netbuf :=
  if netBufCapacity < b.room + b.data.length + bytes.length then none
  else some { b with data := b.data ++ bytes }

/-- `header` in front of the data. -/
def netbufPush (b : Netbuf) (header : List U8) : Option Netbuf :=
  if b.room < header.length then none
  else some ⟨b.room - header.length, header ++ b.data⟩

/-! ## Devices -/

/-- A hardware address. -/
abbrev MacAddr := Fin 6 → U8

def macBroadcast : MacAddr := fun _ => 0xFF
def macZero : MacAddr := fun _ => 0

def ipv4Broadcast : Ipv4Addr := 0xFFFFFFFF

/-- `struct net_device`: what the stack reads of it. An address of 0 is none. -/
structure NetDevice where
  mac : MacAddr
  ip : Ipv4Addr
  netmask : Ipv4Addr
  gateway : Ipv4Addr
  up : Bool

/-- The scan of the table from device `i` on; `fallback` is the first router seen so far. A device
is named by its place in the table. -/
def routeFrom (dst : Ipv4Addr) :
    List NetDevice → Nat → Option (Nat × Ipv4Addr) → Option (Nat × Ipv4Addr)
  | [], _, fallback => fallback
  | d :: rest, i, fallback =>
    if !d.up ∨ d.ip = 0 then routeFrom dst rest (i + 1) fallback
    else if d.netmask ≠ 0 ∧ dst &&& d.netmask = d.ip &&& d.netmask then some (i, dst)
    else if fallback = none ∧ d.gateway ≠ 0 then routeFrom dst rest (i + 1) (some (i, d.gateway))
    else routeFrom dst rest (i + 1) fallback

/-- The device an address leaves by, and the address its frame is for. -/
def netdevRoute (devices : List NetDevice) (dst : Ipv4Addr) : Option (Nat × Ipv4Addr) :=
  if dst = ipv4Broadcast then
    (devices.findIdx? fun d => d.up).map fun i => (i, ipv4Broadcast)
  else routeFrom dst devices 0 none

/-- Two machines on one wire, 10.0.0.5 and 10.0.0.9. -/
def hostDevice : NetDevice :=
  ⟨fun j => [2, 0, 0, 0, 0, 5].getD j 0, 0x0A000005, 0xFFFFFF00, 0x0A000001, true⟩
def peerDevice : NetDevice :=
  ⟨fun j => [2, 0, 0, 0, 0, 9].getD j 0, 0x0A000009, 0xFFFFFF00, 0x0A000001, true⟩

end ReconOS.Net
