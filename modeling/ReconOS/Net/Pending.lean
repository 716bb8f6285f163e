import ReconOS.Lib.Interleave
import ReconOS.Net.Arp
import ReconOS.Net.Ip
import Mathlib.Algebra.BigOperators.Fin
import Mathlib.Algebra.Order.Group.Multiset

/-! Packets that wait for an address: `ip_transmit` and `ip_flush_pending`, one lock section at a
time, on any number of processors. -/
namespace ReconOS.Net

abbrev pendingMax : Nat := 8
def pendingTtlNs : Nat := 3 * 1000000000
def ethFrameMax : Nat := 1518

/-- A packet with its header, and the device and next hop its route gave it. -/
structure Routed where
  id : Nat
  buf : Netbuf
  dev : Nat
  hop : Ipv4Addr

/-- `struct pending`, in use: the packet, and what the slot says of it. -/
structure Waiting where
  packet : Routed
  dev : Nat
  nextHop : Ipv4Addr
  queued : Time

/-- A packet a driver was handed, in its frame. -/
structure Sent where
  packet : Routed
  dev : Nat
  mac : MacAddr
  frame : List U8

/-- What the processors share: the ARP cache and the queue. `sent` and `freed` are what became of
packets, `answers` every hardware address a lookup gave for a device and a next hop, and `handed`
the number of packets handed over so far; the code keeps none of these. -/
structure Shared where
  cache : Cache
  pending : Fin pendingMax → Option Waiting
  sent : List Sent
  freed : List Nat
  answers : List (Nat × Ipv4Addr × MacAddr)
  handed : Nat

def Shared.boot : Shared := ⟨.empty, fun _ => none, [], [], [], 0⟩

def Shared.free (s : Shared) (id : Nat) : Shared := { s with freed := id :: s.freed }

/-- Where a thread is, between two sections. In a flush, `now` is when it began. -/
inductive Thread where
  | routing (id : Nat) (dst : Ipv4Addr) (protocol : U8) (b : Netbuf)
  | resolving (p : Routed)
  | queueing (p : Routed)
  | flushing
  | scanning (now : Time) (i : Nat)
  | lookingUp (now : Time) (i : Fin pendingMax) (dev : Nat) (hop : Ipv4Addr)
  | taking (now : Time) (i : Fin pendingMax) (dev : Nat) (hop : Ipv4Addr) (mac : MacAddr)
  | sending (p : Routed) (dev : Nat) (mac : MacAddr) (back : Option (Time × Nat))
  | freeing (id : Nat) (back : Option (Time × Nat))
  | done

/-- Where a call goes on once it is rid of a packet: a flush at its next slot. -/
def resume : Option (Time × Nat) → Thread
  | none => .done
  | some (now, i) => .scanning now i

/-- What a section meets: the clock, the devices as they are, the next packet number, whether an
ARP request gets out, and whether the driver takes frames. -/
structure Around where
  now : Time
  devices : List NetDevice
  number : U16
  asks : Bool
  driver : Bool

/-- A device by its place; a place never registered is all zeros. -/
def Around.device (e : Around) (dev : Nat) : NetDevice :=
  e.devices.getD dev ⟨macZero, 0, 0, 0, false⟩

/-- `arp_lookup`, with its answer noted. -/
def resolve (e : Around) (s : Shared) (dev : Nat) (hop : Ipv4Addr) : Shared × Option MacAddr :=
  let r := arpLookup e.asks e.now (e.device dev) s.cache hop
  match r.mac with
  | none => ({ s with cache := r.cache }, none)
  | some mac => ({ s with cache := r.cache, answers := (dev, hop, mac) :: s.answers }, some mac)

/-- `eth_transmit` and `netdev_transmit`: the frame, when the driver is handed it. -/
def finishSend (e : Around) (dev : Nat) (mac : MacAddr) (b : Netbuf) : Option (List U8) :=
  match netbufPush b (macBytes mac ++ macBytes (e.device dev).mac ++ netPut16 ethTypeIpv4) with
  | none => none
  | some frame =>
    if !(e.device dev).up ∨ !e.driver ∨ ethFrameMax < frame.data.length then none
    else some frame.data

def firstFree (s : Shared) : Option (Fin pendingMax) :=
  (List.finRange pendingMax).find? fun i => (s.pending i).isNone

/-- One section of a thread. -/
def act (e : Around) (s : Shared) : Thread → Shared × Thread
  | .routing id dst protocol b =>
    match ipPacket e.devices e.number dst protocol b with
    | none => (s, .freeing id none)
    | some (dev, hop, buf) => (s, .resolving ⟨id, buf, dev, hop⟩)
  | .resolving p =>
    match resolve e s p.dev p.hop with
    | (s, some mac) => (s, .sending p p.dev mac none)
    | (s, none) => (s, .queueing p)
  | .queueing p =>
    match firstFree s with
    | none => (s, .freeing p.id none)
    | some i =>
      ({ s with pending := Function.update s.pending i (some ⟨p, p.dev, p.hop, e.now⟩) }, .done)
  | .flushing => (s, .scanning e.now 0)
  | .scanning now i =>
    if h : i < pendingMax then
      match s.pending ⟨i, h⟩ with
      | none => (s, .scanning now (i + 1))
      | some w =>
        if pendingTtlNs < elapsed now w.queued then
          ({ s with pending := Function.update s.pending ⟨i, h⟩ none },
            .freeing w.packet.id (some (now, i + 1)))
        else (s, .lookingUp now ⟨i, h⟩ w.dev w.nextHop)
    else (s, .done)
  | .lookingUp now i dev hop =>
    match resolve e s dev hop with
    | (s, none) => (s, .scanning now (i + 1))
    | (s, some mac) => (s, .taking now i dev hop mac)
  | .taking now i dev _ mac =>
    -- Whatever is in the slot by now.
    match s.pending i with
    | none => (s, .scanning now (i + 1))
    | some w =>
      ({ s with pending := Function.update s.pending i none },
        .sending w.packet dev mac (some (now, i + 1)))
  | .sending p dev mac back =>
    match finishSend e dev mac p.buf with
    | none => (s.free p.id, resume back)
    | some frame => ({ s with sent := ⟨p, dev, mac, frame⟩ :: s.sent }, resume back)
  | .freeing id back => (s.free id, resume back)
  | .done => (s, .done)

/-- A call: a packet handed to `ip_transmit`, or a flush. -/
inductive Entry where
  | transmit (dst : Ipv4Addr) (protocol : U8) (b : Netbuf)
  | flush

def enter : Entry → Shared → Shared × Thread
  | .transmit dst protocol b, s =>
    ({ s with handed := s.handed + 1 }, .routing s.handed dst protocol b)
  | .flush, s => (s, .flushing)

/-- An ARP packet teaches the cache an address. -/
structure Taught where
  now : Time
  ip : Ipv4Addr
  mac : MacAddr

def stack : Lib.System Shared Thread Around Entry Taught where
  act := act
  start := enter
  outside o s := { s with cache := learn s.cache o.now o.ip o.mac }

/-! What becomes of every packet handed to `ip_transmit`, in every order of the sections. -/

open Lib

/-! ## Each packet is in one place -/

variable (id : Nat)

/-- One for packet `id`, nothing for any other. -/
def one (id' : Nat) : Nat := if id' = id then 1 else 0

def inSlot : Option Waiting → Nat
  | none => 0
  | some w => one id w.packet.id

/-- How often packet `id` is in the queue, was handed to a driver, or was freed. -/
def inShared (s : Shared) : Nat :=
  (∑ i, inSlot id (s.pending i)) + (s.sent.map fun x => one id x.packet.id).sum +
  (s.freed.map (one id)).sum

/-- Whether a thread has packet `id` in its hands. -/
def inHand : Thread → Nat
  | .routing id' _ _ _ => one id id'
  | .resolving p => one id p.id
  | .queueing p => one id p.id
  | .sending p _ _ _ => one id p.id
  | .freeing id' _ => one id id'
  | .flushing | .scanning _ _ | .lookingUp _ _ _ _ | .taking _ _ _ _ _ | .done => 0

def due (s : Shared) : Nat := if id < s.handed then 1 else 0

theorem slots_update (pending : Fin pendingMax → Option Waiting) (i : Fin pendingMax)
    (x : Option Waiting) :
    (∑ j, inSlot id (Function.update pending i x j)) + inSlot id (pending i) =
      (∑ j, inSlot id (pending j)) + inSlot id x := by
  rw [← Finset.add_sum_erase _ _ (Finset.mem_univ i),
    ← Finset.add_sum_erase _ (fun j => inSlot id (pending j)) (Finset.mem_univ i),
    Function.update_self]
  have others : ∑ j ∈ Finset.univ.erase i, inSlot id (Function.update pending i x j) =
      ∑ j ∈ Finset.univ.erase i, inSlot id (pending j) :=
    Finset.sum_congr rfl fun j away => by rw [Function.update_of_ne (Finset.ne_of_mem_erase away)]
  rw [others]
  omega

theorem firstFree_none {s : Shared} {i : Fin pendingMax} (h : firstFree s = some i) :
    s.pending i = none := by
  simpa using List.find?_some h

theorem resolve_keeps (e : Around) (s : Shared) (dev : Nat) (hop : Ipv4Addr) :
    due id (resolve e s dev hop).1 = due id s ∧
    inShared id (resolve e s dev hop).1 = inShared id s := by
  unfold resolve
  dsimp only
  split <;> exact ⟨rfl, rfl⟩

@[simp] theorem inHand_resume (back : Option (Time × Nat)) : inHand id (resume back) = 0 := by
  cases back <;> rfl

theorem act_keeps (e : Around) (s : Shared) (t : Thread) :
    due id (act e s t).1 = due id s ∧
    inShared id (act e s t).1 + inHand id (act e s t).2 = inShared id s + inHand id t := by
  cases t with
  | routing id' dst protocol b =>
    unfold act
    dsimp only
    split <;> exact ⟨rfl, rfl⟩
  | resolving p =>
    obtain ⟨handed, kept⟩ := resolve_keeps id e s p.dev p.hop
    unfold act
    dsimp only
    split
    all_goals
      rename_i same
      rw [same] at kept handed
      exact ⟨handed, congrArg (· + _) kept⟩
  | queueing p =>
    unfold act
    dsimp only
    split
    · exact ⟨rfl, rfl⟩
    · rename_i i free
      have slots := slots_update id s.pending i (some ⟨p, p.dev, p.hop, e.now⟩)
      rw [firstFree_none free] at slots
      refine ⟨rfl, ?_⟩
      simp only [inSlot, inShared, inHand] at slots ⊢
      omega
  | flushing => exact ⟨rfl, rfl⟩
  | scanning now i =>
    unfold act
    dsimp only
    split
    · rename_i h
      split
      · exact ⟨rfl, rfl⟩
      · rename_i w held
        split
        · have slots := slots_update id s.pending ⟨i, h⟩ none
          rw [held] at slots
          refine ⟨rfl, ?_⟩
          simp only [inSlot, inShared, inHand] at slots ⊢
          omega
        · exact ⟨rfl, rfl⟩
    · exact ⟨rfl, rfl⟩
  | lookingUp now i dev hop =>
    obtain ⟨handed, kept⟩ := resolve_keeps id e s dev hop
    unfold act
    dsimp only
    split
    all_goals
      rename_i same
      rw [same] at kept handed
      exact ⟨handed, congrArg (· + _) kept⟩
  | taking now i dev hop mac =>
    unfold act
    dsimp only
    split
    · exact ⟨rfl, rfl⟩
    · rename_i w held
      have slots := slots_update id s.pending i none
      rw [held] at slots
      refine ⟨rfl, ?_⟩
      simp only [inSlot, inShared, inHand] at slots ⊢
      omega
  | sending p dev mac back =>
    unfold act
    dsimp only
    split
    · refine ⟨rfl, ?_⟩
      rw [inHand_resume]
      simp only [inShared, inHand, Shared.free, List.map_cons, List.sum_cons]
      omega
    · refine ⟨rfl, ?_⟩
      rw [inHand_resume]
      simp only [inShared, inHand, List.map_cons, List.sum_cons]
      omega
  | freeing id' back =>
    refine ⟨rfl, ?_⟩
    unfold act
    dsimp only
    rw [inHand_resume]
    simp only [inShared, inHand, Shared.free, List.map_cons, List.sum_cons]
    omega
  | done => exact ⟨rfl, rfl⟩

theorem stack_conserves : stack.Conserves (inShared id) (inHand id) (due id) where
  act := act_keeps id
  start k s := by
    cases k with
    | transmit dst protocol b =>
      refine ⟨one id s.handed, ?_, rfl⟩
      simp only [stack, enter, due, one]
      grind
    | flush => exact ⟨0, rfl, rfl⟩
  outside _ _ := ⟨rfl, rfl⟩

def atRest : World Shared Thread := ⟨.boot, []⟩

/-- In every order of sections, each packet handed over so far is in exactly one place: with a
thread, in the queue, handed to a driver, or freed. -/
theorem each_once (moves : List (Move Around Entry Taught)) :
    System.total (inShared id) (inHand id) (stack.play atRest moves) =
      due id (stack.play atRest moves).shared := by
  apply (stack_conserves id).play
  simp [System.total, atRest, inShared, inSlot, Shared.boot, due]

/-! ## Each packet goes to its own next hop -/

/-- The hardware address is one a lookup gave for the packet's own device and next hop. -/
def Right (s : Shared) (p : Routed) (dev : Nat) (mac : MacAddr) : Prop :=
  dev = p.dev ∧ (p.dev, p.hop, mac) ∈ s.answers

/-- The slot still holds what its address was looked up for, where a flush takes what it holds. -/
def Unmoved (_ : Around) (s : Shared) : Thread → Prop
  | .taking _ i dev hop _ => ∀ w ∈ s.pending i, w.dev = dev ∧ w.nextHop = hop
  | _ => True

instance (e : Around) (s : Shared) (t : Thread) : Decidable (Unmoved e s t) :=
  match t with
  | .taking _ i dev hop _ =>
    inferInstanceAs (Decidable (∀ w ∈ s.pending i, w.dev = dev ∧ w.nextHop = hop))
  | .routing _ _ _ _ | .resolving _ | .queueing _ | .flushing | .scanning _ _ | .lookingUp _ _ _ _
  | .sending _ _ _ _ | .freeing _ _ | .done => inferInstanceAs (Decidable True)

/-- What a slot says of its packet is so, and every packet sent went the right way. -/
structure Ways (s : Shared) : Prop where
  slots : ∀ i w, s.pending i = some w → w.dev = w.packet.dev ∧ w.nextHop = w.packet.hop
  sent : ∀ x ∈ s.sent, Right s x.packet x.dev x.mac

/-- A thread that has a hardware address in hand was given it. -/
def Knows (s : Shared) : Thread → Prop
  | .taking _ _ dev hop mac => (dev, hop, mac) ∈ s.answers
  | .sending p dev mac _ => Right s p dev mac
  | _ => True

variable {id} {s s' : Shared}

theorem Right.mono (more : s.answers ⊆ s'.answers) {p : Routed} {dev : Nat} {mac : MacAddr}
    (h : Right s p dev mac) : Right s' p dev mac :=
  ⟨h.1, more h.2⟩

theorem Knows.mono (more : s.answers ⊆ s'.answers) {t : Thread} (h : Knows s t) : Knows s' t := by
  cases t with
  | taking now i dev hop mac => exact more h
  | sending p dev mac back => exact Right.mono more h
  | _ => trivial

/-- A section that sends nothing, and puts nothing in the queue. -/
theorem Ways.mono (h : Ways s) (more : s.answers ⊆ s'.answers)
    (slots : ∀ i w, s'.pending i = some w → s.pending i = some w) (sent : s'.sent = s.sent) :
    Ways s' where
  slots i w held := h.slots i w (slots i w held)
  sent x mem := (h.sent x (sent ▸ mem)).mono more

theorem resolve_answers (e : Around) (s : Shared) (dev : Nat) (hop : Ipv4Addr) :
    s.answers ⊆ (resolve e s dev hop).1.answers ∧
    (resolve e s dev hop).1.pending = s.pending ∧ (resolve e s dev hop).1.sent = s.sent ∧
    ∀ mac, (resolve e s dev hop).2 = some mac → (dev, hop, mac) ∈ (resolve e s dev hop).1.answers := by
  unfold resolve
  dsimp only
  split
  · exact ⟨List.Subset.refl _, rfl, rfl, nofun⟩
  · refine ⟨List.subset_cons_self _ _, rfl, rfl, fun mac given => ?_⟩
    cases given
    exact List.mem_cons_self

theorem cleared {pending : Fin pendingMax → Option Waiting} {i j : Fin pendingMax} {w : Waiting}
    (h : Function.update pending i none j = some w) : pending j = some w := by
  by_cases ji : j = i
  · subst ji
    rw [Function.update_self] at h
    cases h
  · rwa [Function.update_of_ne ji] at h

theorem act_answers (e : Around) (s : Shared) (t : Thread) :
    s.answers ⊆ (act e s t).1.answers := by
  cases t with
  | resolving p =>
    have more := (resolve_answers e s p.dev p.hop).1
    unfold act
    dsimp only
    split <;> (rename_i same; rwa [same] at more)
  | lookingUp now i dev hop =>
    have more := (resolve_answers e s dev hop).1
    unfold act
    dsimp only
    split <;> (rename_i same; rwa [same] at more)
  | _ =>
    unfold act
    dsimp only
    repeat' split
    all_goals exact List.Subset.refl _

theorem resume_knows (s : Shared) (back : Option (Time × Nat)) : Knows s (resume back) := by
  cases back <;> trivial

theorem act_ways (e : Around) (s : Shared) (t : Thread) (unmoved : Unmoved e s t) (ways : Ways s)
    (knows : Knows s t) : Ways (act e s t).1 ∧ Knows (act e s t).1 (act e s t).2 := by
  cases t with
  | routing id dst protocol b =>
    unfold act
    dsimp only
    split <;> exact ⟨ways, trivial⟩
  | resolving p =>
    obtain ⟨more, pending, sent, given⟩ := resolve_answers e s p.dev p.hop
    unfold act
    dsimp only
    split
    all_goals
      rename_i same
      rw [same] at more pending sent given
    · exact ⟨ways.mono more (fun i w held => pending ▸ held) sent, rfl, given _ rfl⟩
    · exact ⟨ways.mono more (fun i w held => pending ▸ held) sent, trivial⟩
  | queueing p =>
    unfold act
    dsimp only
    split
    · exact ⟨ways, trivial⟩
    · rename_i i free
      refine ⟨⟨fun j w held => ?_, ways.sent⟩, trivial⟩
      by_cases ji : j = i
      · subst ji
        simp only [Function.update_self, Option.some.injEq] at held
        subst held
        exact ⟨rfl, rfl⟩
      · simp only [Function.update_of_ne ji] at held
        exact ways.slots j w held
  | flushing => exact ⟨ways, trivial⟩
  | scanning now i =>
    unfold act
    dsimp only
    split
    · split
      · exact ⟨ways, trivial⟩
      · split
        · exact ⟨ways.mono (List.Subset.refl _) (fun _ _ => cleared) rfl, trivial⟩
        · exact ⟨ways, trivial⟩
    · exact ⟨ways, trivial⟩
  | lookingUp now i dev hop =>
    obtain ⟨more, pending, sent, given⟩ := resolve_answers e s dev hop
    unfold act
    dsimp only
    split
    all_goals
      rename_i same
      rw [same] at more pending sent given
    · exact ⟨ways.mono more (fun i w held => pending ▸ held) sent, trivial⟩
    · exact ⟨ways.mono more (fun i w held => pending ▸ held) sent, given _ rfl⟩
  | taking now i dev hop mac =>
    unfold act
    dsimp only
    split
    · exact ⟨ways, trivial⟩
    · rename_i w held
      -- The slot holds what was looked up, and that is the packet's own.
      obtain ⟨dev', hop'⟩ := unmoved w held
      obtain ⟨own, ownHop⟩ := ways.slots i w held
      refine ⟨ways.mono (List.Subset.refl _) (fun _ _ => cleared) rfl, dev' ▸ own, ?_⟩
      have given : (dev, hop, mac) ∈ s.answers := knows
      rwa [← own, ← ownHop, dev', hop']
  | sending p dev mac back =>
    unfold act
    dsimp only
    split
    · exact ⟨⟨ways.slots, ways.sent⟩, resume_knows _ back⟩
    · refine ⟨⟨ways.slots, fun x mem => ?_⟩, resume_knows _ back⟩
      rcases List.mem_cons.1 mem with rfl | before
      · exact knows
      · exact ways.sent x before
  | freeing id back => exact ⟨⟨ways.slots, ways.sent⟩, resume_knows _ back⟩
  | done => exact ⟨ways, trivial⟩

theorem stack_ways : stack.Inductive Unmoved Ways Knows where
  act := act_ways
  others e s t _ _ _ _ knows := knows.mono (act_answers e s t)
  start k s ways := by
    cases k with
    | transmit => exact ⟨⟨ways.slots, ways.sent⟩, trivial⟩
    | flush => exact ⟨ways, trivial⟩
  startOthers k s t _ knows := by
    cases k with
    | transmit => exact knows.mono (List.Subset.refl _)
    | flush => exact knows
  outside _ _ ways := ⟨ways.slots, ways.sent⟩
  outsideOthers _ _ _ _ knows := knows.mono (List.Subset.refl _)

/-- Every packet handed over is in exactly one place, and those sent went to the hardware address
their own next hop was found to have. -/
def Handled (w : World Shared Thread) : Prop :=
  (∀ id < w.shared.handed, System.total (inShared id) (inHand id) w = 1) ∧
  ∀ x ∈ w.shared.sent, Right w.shared x.packet x.dev x.mac

/-- In every order of sections in which no slot a flush takes from was refilled for another next
hop since its address was looked up. -/
theorem packets_handled (moves : List (Move Around Entry Taught))
    (unmoved : stack.Meets Unmoved atRest moves) : Handled (stack.play atRest moves) := by
  constructor
  · intro id handed
    rw [each_once, due, if_pos handed]
  · have start : Ways atRest.shared ∧ ∀ t ∈ atRest.threads, Knows atRest.shared t :=
      ⟨⟨nofun, nofun⟩, nofun⟩
    exact (stack_ways.play unmoved start).1.sent

/-- One second in, on the machine at 10.0.0.5, with everything working. -/
def calmAround : Around := ⟨⟨1000000000, by decide⟩, [hostDevice], 1, true, true⟩

/-- Packet 0, for 10.0.0.9, waits; the address is learned; thread 1 flushes up to its take. -/
def caught : List (Move Around Entry Taught) :=
  [.start (.transmit 0x0A000009 17 ⟨netHeadroom, [1, 2]⟩),
   .act 0 calmAround, .act 0 calmAround, .act 0 calmAround,
   .outside ⟨⟨1000000000, by decide⟩, 0x0A000009, peerDevice.mac⟩,
   .start .flush, .act 1 calmAround, .act 1 calmAround, .act 1 calmAround]

/-- Nothing comes between: the packet goes to 10.0.0.9. -/
theorem caught_handled :
    Handled (stack.play atRest (caught ++ [.act 1 calmAround, .act 1 calmAround])) :=
  packets_handled _ (by decide +kernel)

/-- Meanwhile thread 2 flushes and sends the packet, and packet 1, for 10.0.0.8, takes the slot. -/
def refilled : List (Move Around Entry Taught) :=
  caught ++
  [.start .flush, .act 2 calmAround, .act 2 calmAround, .act 2 calmAround, .act 2 calmAround,
   .act 2 calmAround,
   .start (.transmit 0x0A000008 17 ⟨netHeadroom, [3]⟩),
   .act 3 calmAround, .act 3 calmAround, .act 3 calmAround,
   .act 1 calmAround, .act 1 calmAround]

theorem refilled_misdirects : ¬ Handled (stack.play atRest refilled) := by
  have wrong : ∃ x ∈ (stack.play atRest refilled).shared.sent,
      (x.packet.dev, x.packet.hop, x.mac) ∉ (stack.play atRest refilled).shared.answers := by
    decide +kernel
  obtain ⟨x, sent, never⟩ := wrong
  exact fun handled => never (handled.2 x sent).2

end ReconOS.Net
