import ReconOS.Lib.Run
import Mathlib.Algebra.Order.Floor.Div

/-! A deadline that is armed again and again, and the callbacks of its timer. -/
namespace ReconOS.Wait

open ReconOS.Lib

def timeTickHz : Nat := 100

def wheelReach : Nat := 0x40000000

def u64Size : Nat := 0x10000000000000000

/-- `struct wait_deadline`, but for its timer. -/
structure Deadline where
  generation : UInt32
  armedFor : UInt32
  expiredAt : UInt32
  deriving DecidableEq

/-- An arming that started: when, and the delay asked for, both in nanoseconds. -/
structure Arming where
  clock : Nat
  ns : Nat
  deriving DecidableEq

/-- The timer in a slot of the wheel, and which arming put it there. -/
structure Filed where
  expires : Nat
  arming : Nat
  deriving DecidableEq

/-- A deadline, its timer and the clock. `filed` is every place in the wheel where the timer is,
the newest first; `taken` the callbacks that are off the wheel and have not run, by their arming.
Of the armings there is a count, and the last one, if it started. -/
structure State where
  deadline : Deadline
  pending : Bool
  filed : List Filed
  taken : List Nat
  hand : Nat
  clock : Nat
  tries : Nat
  last : Option Arming

def tickNs : Nat := 1000000000 / timeTickHz

/-- The ticks of a delay, as `timer_start` counts them. -/
def ticksOf (ns : Nat) : Nat :=
  let ticks := (ns * timeTickHz + 999999999) % u64Size / 1000000000
  if ticks = 0 then 1 else ticks

namespace State

variable (s : State)

/-- `time_ticks`. -/
def ticks : Nat := s.clock / tickNs

/-- When `timer_start` has the timer expire. -/
def expiry (ns : Nat) : Nat := max s.ticks s.hand + ticksOf ns

/-- `timer_start`, of a timer that `timer_init` has just made idle: whether it files it. -/
def starts (ns : Nat) : Bool :=
  ticksOf ns < wheelReach && s.expiry ns - s.hand < wheelReach

/-- `wait_deadline_arm`. -/
def arm (ns : Nat) : State :=
  let generation := s.deadline.generation + 1
  let tries := s.tries + 1
  if s.starts ns then
    { s with
      deadline := { s.deadline with generation := generation, armedFor := generation }
      pending := true
      filed := ⟨s.expiry ns, tries⟩ :: s.filed
      tries := tries
      last := some ⟨s.clock, ns⟩ }
  else
    { s with
      deadline := { s.deadline with generation := generation }
      pending := false
      tries := tries
      last := none }

/-- `wait_deadline_disarm`, with `timer_cancel`. -/
def disarm : State :=
  { s with
    deadline := { s.deadline with armedFor := s.deadline.generation + 1 }
    pending := false
    filed := if s.pending then s.filed.tail else s.filed }

/-- `timer_tick` takes the `k`-th place off the wheel, where it is due. -/
def take (k : Nat) : State :=
  match s.filed[k]? with
  | none => s
  | some f =>
    if s.ticks < f.expires then s
    else { s with pending := false, filed := s.filed.eraseIdx k, taken := f.arming :: s.taken }

/-- `deadline_reached`, the `k`-th of the callbacks taken. -/
def reached (k : Nat) : State :=
  if s.taken.length ≤ k then s
  else { s with
    deadline := { s.deadline with expiredAt := s.deadline.armedFor }
    taken := s.taken.eraseIdx k }

/-- `wait_deadline_passed`. -/
def passed : Bool :=
  s.deadline.armedFor = s.deadline.generation && s.deadline.expiredAt = s.deadline.generation

end State

inductive Move where
  | arm (ns : Nat)
  | disarm
  | take (k : Nat)
  | reached (k : Nat)
  | wait (ns : Nat)
  | turn (hand : Nat)

def State.step (s : State) : Move → State
  | .arm ns => s.arm ns
  | .disarm => s.disarm
  | .take k => s.take k
  | .reached k => s.reached k
  | .wait ns => { s with clock := s.clock + ns }
  | .turn hand => { s with hand := max s.hand (min hand (s.ticks + 1)) }

/-- A deadline of zeros, at some time. -/
def State.zeroed (clock hand : Nat) : State := ⟨⟨0, 0, 0⟩, false, [], [], hand, clock, 0, none⟩

/-! ## Its own delay -/

/-- The delay of the last arming is over. -/
def State.Elapsed (s : State) : Prop := ∃ a ∈ s.last, a.clock + a.ns ≤ s.clock

/-- Passed, after an arming, only if the last arming started and its delay is over. -/
def State.Honest (s : State) : Prop := 0 < s.tries → s.passed → s.Elapsed

/-- An arming is allowed where the tick that its delay is rounded to is not before its end, and
where its number is not the one that a callback left; a callback of another arming, only where the
deadline is not armed or the delay of the last arming is over. -/
def State.Allowed (s : State) : Move → Prop
  | .arm ns => s.clock + ns ≤ s.expiry ns * tickNs ∧
      (s.deadline.expiredAt = s.deadline.generation + 1 →
        s.starts ns = false ∧ s.deadline.armedFor ≠ s.deadline.generation + 1)
  | .reached k => ∀ arming ∈ s.taken[k]?, arming = s.tries ∨
      s.deadline.armedFor ≠ s.deadline.generation ∨ s.Elapsed
  | .disarm | .take _ | .wait _ | .turn _ => True

/-- The deadline is honest, and the places and callbacks of the last arming are due when its delay
is over. -/
structure State.Sound (s : State) : Prop where
  honest : s.Honest
  filed : ∀ f ∈ s.filed, f.arming ≤ s.tries ∧
    (f.arming = s.tries → ∃ a ∈ s.last, a.clock + a.ns ≤ f.expires * tickNs)
  taken : ∀ arming ∈ s.taken, arming ≤ s.tries ∧ (arming = s.tries → s.Elapsed)

theorem older {arming tries : Nat} {p : Prop} (before : arming ≤ tries) : arming = tries + 1 → p :=
  fun same => absurd same (Nat.ne_of_lt (Nat.lt_succ_of_le before))

theorem arm_sound {s : State} {ns : Nat} (allowed : s.Allowed (.arm ns)) (sound : s.Sound) :
    (s.arm ns).Sound := by
  obtain ⟨covers, fresh⟩ := allowed
  unfold State.arm
  cases starts : s.starts ns with
  | true =>
    refine ⟨fun _ passed => ?_, fun f mem => ?_, fun arming mem => ?_⟩
    · have left : s.deadline.expiredAt = s.deadline.generation + 1 := by
        simpa [State.passed] using passed
      cases starts.symm.trans (fresh left).1
    · cases List.mem_cons.1 mem with
      | inl new =>
        subst new
        exact ⟨Nat.le_refl _, fun _ => ⟨_, rfl, covers⟩⟩
      | inr old =>
        have before := (sound.filed f old).1
        exact ⟨Nat.le_succ_of_le before, older before⟩
    · have before := (sound.taken arming mem).1
      exact ⟨Nat.le_succ_of_le before, older before⟩
  | false =>
    refine ⟨fun _ passed => ?_, fun f mem => ?_, fun arming mem => ?_⟩
    · have left : s.deadline.armedFor = s.deadline.generation + 1 ∧
          s.deadline.expiredAt = s.deadline.generation + 1 := by simpa [State.passed] using passed
      exact absurd left.1 (fresh left.2).2
    · have before := (sound.filed f mem).1
      exact ⟨Nat.le_succ_of_le before, older before⟩
    · have before := (sound.taken arming mem).1
      exact ⟨Nat.le_succ_of_le before, older before⟩

theorem ne_succ (g : UInt32) : g + 1 ≠ g := by
  intro same
  have := congrArg UInt32.toNat same
  rw [UInt32.toNat_add] at this
  have less := g.toNat_lt
  simp at this
  omega

theorem disarm_sound {s : State} (sound : s.Sound) : s.disarm.Sound := by
  refine ⟨fun _ passed => ?_, fun f mem => ?_, sound.taken⟩
  · have same := (Bool.and_eq_true_iff.1 passed).1
    exact absurd (of_decide_eq_true same) (ne_succ _)
  · refine sound.filed f ?_
    have mem : f ∈ (if s.pending then s.filed.tail else s.filed) := mem
    split at mem
    · exact List.mem_of_mem_tail mem
    · exact mem

theorem take_sound {s : State} (k : Nat) (sound : s.Sound) : (s.take k).Sound := by
  unfold State.take
  split
  · exact sound
  · rename_i f found
    split
    · exact sound
    · rename_i due
      obtain ⟨before, own⟩ := sound.filed f (List.mem_of_getElem? found)
      refine ⟨sound.honest, fun g mem => sound.filed g (List.mem_of_mem_eraseIdx mem), ?_⟩
      intro arming mem
      cases List.mem_cons.1 mem with
      | inl new =>
        subst new
        refine ⟨before, fun same => ?_⟩
        obtain ⟨a, last, expires⟩ := own same
        have start : s.ticks * tickNs ≤ s.clock := Nat.div_mul_le_self s.clock tickNs
        have there := Nat.mul_le_mul_right tickNs (Nat.not_lt.1 due)
        exact ⟨a, last, Nat.le_trans expires (Nat.le_trans there start)⟩
      | inr old => exact sound.taken arming old

theorem reached_sound {s : State} {k : Nat} (allowed : s.Allowed (.reached k)) (sound : s.Sound) :
    (s.reached k).Sound := by
  unfold State.reached
  split
  · exact sound
  · rename_i there
    have there := Nat.not_le.1 there
    refine ⟨fun tried passed => ?_, sound.filed,
      fun arming mem => sound.taken arming (List.mem_of_mem_eraseIdx mem)⟩
    have armed : s.deadline.armedFor = s.deadline.generation := by
      simpa [State.passed] using passed
    have elapsed : s.Elapsed := by
      cases allowed s.taken[k] (List.getElem?_eq_getElem there) with
      | inl own => exact (sound.taken _ (List.getElem_mem there)).2 own
      | inr other =>
        cases other with
        | inl disarmed => exact absurd armed disarmed
        | inr past => exact past
    exact elapsed

theorem wait_sound {s : State} (ns : Nat) (sound : s.Sound) : (s.step (.wait ns)).Sound := by
  have later : s.Elapsed → (s.step (.wait ns)).Elapsed := by
    rintro ⟨a, last, past⟩
    exact ⟨a, last, Nat.le_trans past (Nat.le_add_right s.clock ns)⟩
  refine ⟨fun tried passed => later (sound.honest tried passed), sound.filed, fun arming mem => ?_⟩
  obtain ⟨before, own⟩ := sound.taken arming mem
  exact ⟨before, fun same => later (own same)⟩

theorem step_sound (s : State) (m : Move) (allowed : s.Allowed m) (sound : s.Sound) :
    (s.step m).Sound := by
  cases m with
  | arm ns => exact arm_sound allowed sound
  | disarm => exact disarm_sound sound
  | take k => exact take_sound k sound
  | reached k => exact reached_sound allowed sound
  | wait ns => exact wait_sound ns sound
  | turn hand => exact ⟨sound.honest, sound.filed, sound.taken⟩

theorem zeroed_sound (clock hand : Nat) : (State.zeroed clock hand).Sound :=
  ⟨fun tried => absurd tried (Nat.lt_irrefl 0), fun _ mem => (nomatch mem),
    fun _ mem => (nomatch mem)⟩

/-- In every run whose moves are allowed, the deadline is passed only once the delay of its last
arming is over. -/
theorem deadline_passes {clock hand : Nat} {moves : List Move}
    (allowed : Allows State.step State.Allowed (.zeroed clock hand) moves) :
    (run State.step (.zeroed clock hand) moves).Honest :=
  (run_keeps step_sound allowed (zeroed_sound clock hand)).honest

instance (s : State) : Decidable s.Elapsed :=
  match last : s.last with
  | none => .isFalse fun ⟨a, mem, _⟩ => by rw [last] at mem; cases mem
  | some a =>
    if past : a.clock + a.ns ≤ s.clock then .isTrue ⟨a, last, past⟩
    else .isFalse fun ⟨b, mem, past'⟩ => by
      rw [last] at mem
      cases mem
      exact past past'

instance (s : State) (m : Move) : Decidable (s.Allowed m) :=
  match m with
  | .arm _ => inferInstanceAs (Decidable (_ ∧ (_ → _ ∧ _)))
  | .reached k => inferInstanceAs (Decidable (∀ arming ∈ s.taken[k]?, _))
  | .disarm | .take _ | .wait _ | .turn _ => inferInstanceAs (Decidable True)

/-- An arming that runs out, and then another one. -/
theorem deadline_passes_twice : (run State.step (.zeroed 0 0)
    [.turn 1, .arm 10000000, .wait 30000000, .take 0, .reached 0, .disarm, .turn 4, .arm 1000]).Honest :=
  deadline_passes (by decide)

/-- A callback is taken, the deadline is disarmed, the callback runs: the next arming is passed at
once. -/
theorem late_callback_passes : ¬∀ (clock hand : Nat) (moves : List Move),
    (run State.step (.zeroed clock hand) moves).Honest := by
  intro always
  have passed := always 0 0 [.turn 1, .arm 10000000, .wait 30000000, .take 0, .disarm, .reached 0,
    .turn 4, .arm 1000000000] (by decide) (by decide)
  revert passed
  decide

/-! When a timer is due that has just been started. Ticks are 64-bit numbers, and wrap. -/

/-- `struct timer`, but for its place in the wheel. -/
structure Timer where
  fn : Bool
  pending : Bool
  expires : Nat
  deriving DecidableEq

/-- What the clock reads, and how far the wheel has been turned. -/
structure Wheel where
  now : Nat
  hand : Nat
  nowFits : now < u64Size
  handFits : hand < u64Size

/-- From one tick to a later one. -/
def since (later earlier : Nat) : Nat := (later + u64Size - earlier) % u64Size

/-- The tick that a delay is counted from: the clock's, or the wheel's where that is ahead. -/
def Wheel.start (w : Wheel) : Nat := if u64Size / 2 ≤ since w.now w.hand then w.hand else w.now

/-- When a timer that is started expires. -/
def Wheel.expiry (w : Wheel) (ns : Nat) : Nat := (w.start + ticksOf ns) % u64Size

/-- `timer_start`: whether it files the timer, and what it leaves of it. -/
def timerStart (w : Wheel) (t : Timer) (ns : Nat) : Bool × Timer :=
  if t.fn = false then (false, t)
  else if wheelReach ≤ ticksOf ns then (false, t)
  else if t.pending = true then (false, t)
  else if wheelReach ≤ since (w.expiry ns) w.hand then (false, { t with expires := w.expiry ns })
  else (true, { t with expires := w.expiry ns, pending := true })

/-- The least number of ticks that is no shorter than a delay. -/
def ticksIn (ns : Nat) : Nat := (ns * timeTickHz) ⌈/⌉ 1000000000

/-- However the wheel stands, a timer that is started is due no earlier than its delay says. -/
def NeverEarly (ns : Nat) : Prop :=
  ∀ w t, (timerStart w t ns).1 = true → ticksIn ns ≤ since (timerStart w t ns).2.expires w.now

theorem ticksIn_eq (ns : Nat) : ticksIn ns = (ns * timeTickHz + 999999999) / 1000000000 := by
  unfold ticksIn
  rw [Nat.ceilDiv_eq_add_pred_div]
  omega

/-- Of a sum that does not wrap, the ticks are no fewer than the delay's. -/
theorem ticksIn_le {ns : Nat} (fits : ns * timeTickHz + 999999999 < u64Size) :
    ticksIn ns ≤ ticksOf ns := by
  rw [ticksIn_eq]
  unfold ticksOf
  rw [Nat.mod_eq_of_lt fits]
  dsimp only
  split
  · omega
  · exact Nat.le_refl _

theorem timerStart_started {w : Wheel} {t : Timer} {ns : Nat}
    (started : (timerStart w t ns).1 = true) :
    ticksOf ns < wheelReach ∧ (timerStart w t ns).2.expires = w.expiry ns := by
  unfold timerStart at started ⊢
  split at started
  · cases started
  · split at started
    · cases started
    · split at started
      · cases started
      · split at started
        · cases started
        · rename_i live short idle close
          rw [if_neg live, if_neg short, if_neg idle, if_neg close]
          exact ⟨Nat.lt_of_not_le short, rfl⟩

/-- A timer that is started is due as many ticks from the clock's as were counted, or more. -/
theorem ticksOf_le_since {w : Wheel} {t : Timer} {ns : Nat}
    (started : (timerStart w t ns).1 = true) :
    ticksOf ns ≤ since (timerStart w t ns).2.expires w.now := by
  obtain ⟨few, expires⟩ := timerStart_started started
  have nowFits := w.nowFits
  have handFits := w.handFits
  rw [expires]
  unfold Wheel.expiry Wheel.start since
  unfold wheelReach at few
  unfold u64Size at *
  split
  · omega
  · omega

/-- The wheel before its first tick, and a timer that can be started. -/
def Wheel.fresh : Wheel := ⟨0, 0, by decide, by decide⟩

def Timer.ready : Timer := ⟨true, false, 0⟩

theorem Wheel.fresh_expiry {ns : Nat} (few : ticksOf ns < wheelReach) :
    since (Wheel.fresh.expiry ns) 0 = ticksOf ns := by
  have start : Wheel.fresh.start = 0 := by decide
  unfold Wheel.expiry since
  rw [start]
  unfold wheelReach at few
  unfold u64Size
  omega

theorem timerStart_fresh {ns : Nat} (few : ticksOf ns < wheelReach) :
    (timerStart .fresh .ready ns).1 = true ∧
      since (timerStart .fresh .ready ns).2.expires Wheel.fresh.now = ticksOf ns := by
  have distance := Wheel.fresh_expiry few
  have close : ¬wheelReach ≤ since (Wheel.fresh.expiry ns) Wheel.fresh.hand := by
    show ¬wheelReach ≤ since (Wheel.fresh.expiry ns) 0
    rw [distance]
    exact Nat.not_le.2 few
  unfold timerStart
  rw [if_neg (by decide), if_neg (Nat.not_le.2 few), if_neg (by decide), if_neg close]
  exact ⟨rfl, distance⟩

theorem ticksOf_reach (ns : Nat) : wheelReach ≤ ticksOf ns ↔
    wheelReach * 1000000000 ≤ (ns * timeTickHz + 999999999) % u64Size := by
  rw [← Nat.le_div_iff_mul_le (by decide)]
  unfold ticksOf
  generalize (ns * timeTickHz + 999999999) % u64Size / 1000000000 = ticks
  unfold wheelReach
  dsimp only
  split
  · omega
  · exact Iff.rfl

/-- A delay is kept, whatever the tick, just where the nanoseconds that are counted do not wrap, or
wrap to what is refused. -/
theorem timer_never_early (ns : Nat) : NeverEarly ns ↔
    ns * timeTickHz + 999999999 < u64Size ∨
      wheelReach * 1000000000 ≤ (ns * timeTickHz + 999999999) % u64Size := by
  rw [← ticksOf_reach]
  constructor
  · intro never
    by_contra neither
    rw [not_or] at neither
    obtain ⟨wraps, few⟩ := neither
    have few := Nat.lt_of_not_le few
    obtain ⟨started, due⟩ := timerStart_fresh few
    have kept := never .fresh .ready started
    rw [due, ticksIn_eq, Nat.div_le_iff_le_mul (by decide)] at kept
    unfold wheelReach at few
    unfold u64Size at wraps
    omega
  · rintro (fits | far)
    · intro w t started
      exact Nat.le_trans (ticksIn_le fits) (ticksOf_le_since started)
    · intro w t started
      exact absurd far (Nat.not_le.2 (timerStart_started started).1)

/-- Five years and ten months are over on the next tick. -/
theorem long_delay_early : ¬∀ ns < u64Size, NeverEarly ns := by
  intro always
  have few : ticksOf 184467440737095517 < wheelReach := by decide
  obtain ⟨started, due⟩ := timerStart_fresh few
  have kept := always 184467440737095517 (by decide) .fresh .ready started
  have ticks : ticksOf 184467440737095517 = 1 := by decide
  rw [due, ticksIn_eq, ticks] at kept
  revert kept
  decide

end ReconOS.Wait
