import ReconOS.Lib.Slots
import ReconOS.Net.Device
import Mathlib.Data.Fin.Basic
import Mathlib.Data.List.FinRange

/-! The ARP cache: what it learns, what it forgets and what it answers. -/
namespace ReconOS.Net

/-- A reading of the clock, in nanoseconds. The last value of 64 bits is never read: it stands for
later than any. -/
abbrev Time := Fin (2 ^ 64 - 1)

/-- `now - since`, in 64 bits. -/
def elapsed (now since : Time) : Nat := (now.val + 2 ^ 64 - since.val) % 2 ^ 64

def arpHdrLen : Nat := 28
def arpHwEthernet : U16 := 1
def arpOpRequest : U16 := 1
def arpOpReply : U16 := 2
def ethTypeIpv4 : U16 := 0x0800
def macLen : U8 := 6
abbrev arpCacheSize : Nat := 32
def arpTtlNs : Nat := 60 * 1000000000

structure ArpEntry where
  ip : Ipv4Addr
  mac : MacAddr
  learned : Time
  valid : Bool

abbrev Cache := Fin arpCacheSize → ArpEntry

/-- Before the first packet. -/
def Cache.empty : Cache := fun _ => ⟨0, macZero, ⟨0, by decide⟩, false⟩

/-! ## The cache -/

def find (c : Cache) (ip : Ipv4Addr) : Option (Fin arpCacheSize) :=
  (List.finRange arpCacheSize).find? fun i => (c i).valid && (c i).ip == ip

/-- The scan for a slot to take: the first free one, else the one learned longest ago. -/
def victimFrom (c : Cache) :
    List (Fin arpCacheSize) → Nat → Option (Fin arpCacheSize) → Option (Fin arpCacheSize)
  | [], _, e => e
  | i :: rest, oldest, e =>
    if !(c i).valid then some i
    else if (c i).learned.val < oldest then victimFrom c rest (c i).learned.val (some i)
    else victimFrom c rest oldest e

def victim (c : Cache) : Option (Fin arpCacheSize) :=
  victimFrom c (List.finRange arpCacheSize) (2 ^ 64 - 1) none

/-- An address and a hardware address that make sense together. -/
def Learnable (ip : Ipv4Addr) (mac : MacAddr) : Prop := ip ≠ 0 ∧ ip ≠ ipv4Broadcast ∧ mac ≠ macZero

instance (ip : Ipv4Addr) (mac : MacAddr) : Decidable (Learnable ip mac) :=
  inferInstanceAs (Decidable (_ ∧ _))

def learn (c : Cache) (now : Time) (ip : Ipv4Addr) (mac : MacAddr) : Cache :=
  if ¬Learnable ip mac then c
  else
    match (find c ip).or (victim c) with
    | some i => Function.update c i ⟨ip, mac, now, true⟩
    | none => c

/-! ## Packets -/

structure ArpPacket where
  op : U16
  senderMac : MacAddr
  senderIp : Ipv4Addr
  targetIp : Ipv4Addr

def macBytes (m : MacAddr) : List U8 := List.ofFn m

/-- A frame handed to `eth_transmit`. -/
structure ArpFrame where
  dst : MacAddr
  data : List U8

/-- The packet `send_packet` makes, when it gets out. -/
def sendPacket (sends : Bool) (dev : NetDevice) (op : U16) (targetMac : MacAddr)
    (targetIp : Ipv4Addr) (frameDst : MacAddr) : List ArpFrame :=
  if sends then
    [⟨frameDst, netPut16 arpHwEthernet ++ netPut16 ethTypeIpv4 ++ [macLen, 4] ++ netPut16 op ++
      macBytes dev.mac ++ netPut32 dev.ip ++ macBytes targetMac ++ netPut32 targetIp⟩]
  else []

/-- What `arp_receive` reads of a packet long enough and of the right kind. -/
def parseArp (a : List U8) : Option ArpPacket :=
  if a.length < arpHdrLen then none
  else if netGet16 a 0 ≠ arpHwEthernet ∨ netGet16 a 2 ≠ ethTypeIpv4 ∨ a.getD 4 0 ≠ macLen ∨
      a.getD 5 0 ≠ 4 then none
  else some {
    op := netGet16 a 6
    senderMac := fun j => a.getD (8 + j) 0
    senderIp := netGet32 a 14
    targetIp := netGet32 a 24 }

/-! ## Calls -/

/-- An answer from the cache, or none and the request that went out. -/
structure Lookup where
  cache : Cache
  mac : Option MacAddr
  sent : List ArpFrame

/-- An address that means everybody on the wire. -/
def meansEverybody (dev : NetDevice) (ip : Ipv4Addr) : Bool :=
  ip == ipv4Broadcast ||
  (dev.netmask != 0 && (ip ||| ~~~dev.netmask) == ip && ~~~dev.netmask != 0)

def arpLookup (sends : Bool) (now : Time) (dev : NetDevice) (c : Cache) (ip : Ipv4Addr) : Lookup :=
  if meansEverybody dev ip then ⟨c, some macBroadcast, []⟩
  else
    let asks := sendPacket sends dev arpOpRequest macZero ip macBroadcast
    match find c ip with
    | none => ⟨c, none, asks⟩
    | some i =>
      if elapsed now (c i).learned < arpTtlNs then ⟨c, some (c i).mac, []⟩
      else ⟨Function.update c i { c i with valid := false }, none, asks⟩

/-- What `arp_receive` leaves and answers. The clock is read once for each time it learns. -/
def arpReceive (sends : Bool) (now again : Time) (dev : NetDevice) (c : Cache) (a : List U8) :
    Cache × List ArpFrame :=
  match parseArp a with
  | none => (c, [])
  | some p =>
    let ours := dev.ip ≠ 0 ∧ p.targetIp = dev.ip
    let c := if ours then learn c now p.senderIp p.senderMac else c
    if p.op = arpOpReply then (learn c again p.senderIp p.senderMac, [])
    else if p.op = arpOpRequest ∧ ours then
      (c, sendPacket sends dev arpOpReply p.senderMac p.senderIp p.senderMac)
    else (c, [])

/-! ## Runs -/

inductive ArpCall where
  | lookup (dev : NetDevice) (ip : Ipv4Addr)
  | receive (dev : NetDevice) (data : List U8)

/-- What a call meets outside: the clock, whether a packet gets out, and the machine's other
devices. -/
structure ArpEnv where
  now : Time
  again : Time
  sends : Bool
  others : List NetDevice

/-- The cache, and a record the code does not keep: the addresses asked for so far. -/
structure Arp where
  cache : Cache
  asked : List Ipv4Addr

def Arp.boot : Arp := ⟨.empty, []⟩

def Arp.step (env : ArpEnv) (s : Arp) : ArpCall → Arp
  | .lookup dev ip =>
    let r := arpLookup env.sends env.now dev s.cache ip
    ⟨r.cache, if r.sent.isEmpty then s.asked else ip :: s.asked⟩
  | .receive dev a => { s with cache := (arpReceive env.sends env.now env.again dev s.cache a).1 }

/-! ## The cache as a table searched by address -/

/-- What the cache holds, slot by slot. -/
def view (c : Cache) : Lib.SlotMap (Fin arpCacheSize) Ipv4Addr MacAddr :=
  fun i => if (c i).valid then some ((c i).ip, (c i).mac) else none

/-- The hardware address the cache holds for an address. -/
def held (c : Cache) (ip : Ipv4Addr) : Option MacAddr := (find c ip).map fun i => (c i).mac

variable {c : Cache} {ip : Ipv4Addr} {mac : MacAddr} {i : Fin arpCacheSize}

theorem view_eq_some : view c i = some (ip, mac) ↔
    (c i).valid = true ∧ (c i).ip = ip ∧ (c i).mac = mac := by
  unfold view
  split <;> simp_all

theorem view_update (e : ArpEntry) : view (Function.update c i e) =
    Function.update (view c) i (if e.valid then some (e.ip, e.mac) else none) := by
  funext j
  by_cases ji : j = i
  · subst ji
    simp [view]
  · simp [view, Function.update_of_ne ji]

theorem find_some (h : find c ip = some i) : view c i = some (ip, (c i).mac) := by
  have := List.find?_some h
  simp only [Bool.and_eq_true, beq_iff_eq] at this
  exact view_eq_some.2 ⟨this.1, this.2, rfl⟩

theorem find_none (h : find c ip = none) (j : Fin arpCacheSize) (mac : MacAddr) :
    view c j ≠ some (ip, mac) := by
  intro at_j
  obtain ⟨valid, same, -⟩ := view_eq_some.1 at_j
  have := List.find?_eq_none.1 h j (List.mem_finRange j)
  simp [valid, same] at this

theorem held_eq_some (u : (view c).Unique) : held c ip = some mac ↔ (view c).Holds ip mac := by
  constructor
  · intro h
    obtain ⟨i, found, rfl⟩ := Option.map_eq_some_iff.1 h
    exact ⟨i, find_some found⟩
  · intro holds
    cases found : find c ip with
    | none =>
      obtain ⟨j, at_j⟩ := holds
      exact absurd at_j (find_none found j mac)
    | some i =>
      rw [held, found, Option.map_some, u.value ⟨i, find_some found⟩ holds]

/-- The scan ends with a slot: the clock is never read as late as it starts from. -/
theorem victimFrom_isSome (c : Cache) (slots : List (Fin arpCacheSize)) (oldest : Nat)
    (e : Option (Fin arpCacheSize))
    (h : e.isSome = true ∨ slots ≠ [] ∧ oldest = 2 ^ 64 - 1) :
    (victimFrom c slots oldest e).isSome = true := by
  induction slots generalizing oldest e with
  | nil => simpa [victimFrom] using h
  | cons i rest ih =>
    unfold victimFrom
    split
    · rfl
    · split
      · exact ih _ _ (.inl rfl)
      · rename_i late
        rcases h with some | ⟨-, start⟩
        · exact ih _ _ (.inl some)
        · exact absurd (start ▸ (c i).learned.isLt) late

theorem victim_isSome (c : Cache) : (victim c).isSome = true :=
  victimFrom_isSome c _ _ none (.inr ⟨by simp [List.finRange_eq_nil_iff], rfl⟩)

/-- What learning does: nothing, or it writes the one slot that is the address's or goes to it. -/
theorem learn_cases (u : (view c).Unique) (now : Time) (ip : Ipv4Addr) (mac : MacAddr) :
    ¬Learnable ip mac ∧ learn c now ip mac = c ∨
    Learnable ip mac ∧ ∃ i, (view c).Fits i ip ∧
      learn c now ip mac = Function.update c i ⟨ip, mac, now, true⟩ := by
  unfold learn
  by_cases ok : Learnable ip mac
  · right
    rw [if_neg (not_not.2 ok)]
    refine ⟨ok, ?_⟩
    cases found : find c ip with
    | some i => exact ⟨i, u.fits (find_some found), rfl⟩
    | none =>
      obtain ⟨i, takes⟩ := Option.isSome_iff_exists.1 (victim_isSome c)
      refine ⟨i, fun j v at_j => absurd at_j (find_none found j v), ?_⟩
      rw [takes]
      rfl
  · left
    rw [if_pos ok]
    exact ⟨ok, rfl⟩

theorem learn_unique (u : (view c).Unique) (now : Time) (ip : Ipv4Addr) (mac : MacAddr) :
    (view (learn c now ip mac)).Unique := by
  rcases learn_cases u now ip mac with ⟨-, same⟩ | ⟨-, i, fits, wrote⟩
  · rwa [same]
  · rw [wrote, view_update]
    exact u.put fits

/-- What the cache holds afterwards it was just taught, or held before. -/
theorem learn_holds (u : (view c).Unique) {now : Time} {ip ip' : Ipv4Addr} {mac mac' : MacAddr}
    (h : (view (learn c now ip mac)).Holds ip' mac') :
    ip' = ip ∧ mac' = mac ∨ (view c).Holds ip' mac' := by
  rcases learn_cases u now ip mac with ⟨-, same⟩ | ⟨-, i, -, wrote⟩
  · rw [same] at h
    exact .inr h
  · rw [wrote, view_update] at h
    exact h.of_put

theorem learn_learns (u : (view c).Unique) (now : Time) (ok : Learnable ip mac) :
    (view (learn c now ip mac)).Holds ip mac := by
  rcases learn_cases u now ip mac with ⟨bad, -⟩ | ⟨-, i, -, wrote⟩
  · exact absurd ok bad
  · rw [wrote, view_update]
    exact Lib.SlotMap.holds_put_self

/-- Teaching the cache what it holds already changes nothing it holds. -/
theorem learn_again (u : (view c).Unique) (now : Time) (h : (view c).Holds ip mac) :
    view (learn c now ip mac) = view c := by
  rcases learn_cases u now ip mac with ⟨-, same⟩ | ⟨-, i, fits, wrote⟩
  · rw [same]
  · obtain ⟨j, at_j⟩ := h
    obtain rfl := fits j mac at_j
    rw [wrote, view_update]
    exact Function.update_eq_iff.2 ⟨at_j.symm, fun _ _ => rfl⟩

theorem lookup_unique (u : (view c).Unique) (sends : Bool) (now : Time) (dev : NetDevice)
    (ip : Ipv4Addr) : (view (arpLookup sends now dev c ip).cache).Unique := by
  unfold arpLookup
  split
  · exact u
  · dsimp only
    split
    · exact u
    · split
      · exact u
      · rw [view_update]
        exact u.drop

/-- A lookup only forgets. -/
theorem lookup_holds {sends : Bool} {now : Time} {dev : NetDevice} {ip ip' : Ipv4Addr}
    (h : (view (arpLookup sends now dev c ip).cache).Holds ip' mac) : (view c).Holds ip' mac := by
  unfold arpLookup at h
  split at h
  · exact h
  · dsimp only at h
    split at h
    · exact h
    · split at h
      · exact h
      · rw [view_update] at h
        exact h.of_drop

end ReconOS.Net
