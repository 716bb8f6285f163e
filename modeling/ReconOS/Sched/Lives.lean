import ReconOS.Sched.Switch
import Mathlib.Data.List.Nodup

/-! The life of a thread, of which its state, its flag and its place on the processors are shown. -/
namespace ReconOS.Sched

/-- What a thread is at that a processor is in. -/
inductive Doing where
  | running
  | ending
  | ended
  /-- It is queued, or has been woken since. -/
  | dozing (asleep : Bool)
  deriving DecidableEq, Repr

/-- Why a thread is leaving its processor. -/
inductive Why where
  | turn
  | slept (asleep : Bool)
  | exited
  deriving DecidableEq, Repr

/-- The life of a thread: off the processors it waits for a turn or for a wake; on one it runs,
sleeps or ends; it is off again when the processor has let go of it. -/
inductive Life where
  | unmade
  | off (asleep : Bool)
  | on (c : Nat) (doing : Doing)
  | leaving (c : Nat) (why : Why)
  | past (freed : Bool)
  deriving DecidableEq, Repr

namespace Life

/-- Of a thread that sleeps, or did. -/
def sleepState (asleep : Bool) : State := if asleep then .blocked else .ready

def state : Life → State
  | unmade => .ready
  | off asleep | on _ (.dozing asleep) | leaving _ (.slept asleep) => sleepState asleep
  | on _ .running | leaving _ .turn => .running
  | on _ .ending | on _ .ended | leaving _ .exited | past _ => .finished

def offCpu : Life → Bool
  | unmade | off _ | past _ => true
  | on .. | leaving .. => false

def queued : Life → Bool
  | off asleep | on _ (.dozing asleep) | leaving _ (.slept asleep) => asleep
  | unmade | on _ .running | on _ .ending | on _ .ended | leaving _ .turn | leaving _ .exited
  | past _ => false

def exit : Life → Exit
  | unmade => .unmade
  | off _ | on _ .running | on _ (.dozing _) | leaving _ .turn | leaving _ (.slept _) => .living
  | on _ .ending => .ending
  | on _ .ended => .ended
  | leaving _ .exited | past _ => .left

def works : Life → Nat
  | on _ .ended | leaving _ .exited | past _ => 1
  | unmade | off _ | on _ .running | on _ .ending | on _ (.dozing _) | leaving _ .turn
  | leaving _ (.slept _) => 0

def freed : Life → Nat
  | past freed => freed.toNat
  | unmade | off _ | on .. | leaving .. => 0

end Life

/-- The fields of a thread are those of its life. -/
structure Thread.Is (th : Thread) (l : Life) : Prop where
  state : th.state = l.state
  offCpu : th.offCpu = l.offCpu
  queued : th.queued = l.queued
  exit : th.exit = l.exit
  works : th.works = l.works
  freed : th.freed = l.freed

/-- Where a processor is, by what its thread is at. -/
def Doing.fits : Doing → Point → Bool
  | .dozing _, .sleeping => true
  | .dozing _, .running | .dozing _, .switched => false
  | .running, .sleeping | .ending, .sleeping | .ended, .sleeping => false
  | .running, .running | .ending, .running | .ended, .running => true
  | .running, .switched | .ending, .switched | .ended, .switched => true

variable {m : Machine} {life : Nat → Life} {c c' t t' : Nat} {k k' : Cpu} {th : Thread} {l l' : Life}
  {doing : Doing} {why : Why}

/-- Threads, processors and ring are as the lives of the threads have them. -/
structure Lives (m : Machine) (life : Nat → Life) : Prop where
  is : ∀ t, (m.threads t).Is (life t)
  current : ∀ c k, m.cpus c = some k →
    ∃ doing, life k.current = .on c doing ∧ doing.fits k.point = true
  leaving : ∀ c k t, m.cpus c = some k → k.leaving = some t → ∃ why, life t = .leaving c why
  on : ∀ t c doing, life t = .on c doing → ∃ k, m.cpus c = some k ∧ k.current = t
  left : ∀ t c why, life t = .leaving c why → ∃ k, m.cpus c = some k ∧ k.leaving = some t
  switched : ∀ c k, m.cpus c = some k → (k.point = .switched ↔ k.leaving ≠ none)
  ring : ∀ t, t ∈ m.ring ↔ life t ≠ .unmade ∧ life t ≠ .past true
  nodup : m.ring.Nodup
  home : ∀ t home, (m.threads t).idleFor = some home →
    (∀ c doing, life t = .on c doing → c = home) ∧ ∀ c why, life t = .leaving c why → c = home
  idle : ∀ c k i, m.cpus c = some k → k.idle = some i → (m.threads i).idleFor = some c ∧
    ((m.threads i).pinnedTo = none ∨ (m.threads i).pinnedTo = some c) ∧
    (life i = .off false ∨ life i = .on c .running ∨ life i = .leaving c .turn)

/-! ## The ring -/

theorem mem_ringInsert {ring : List Nat} : t' ∈ ringInsert t ring ↔ t' = t ∨ t' ∈ ring := by
  cases ring with
  | nil => simp [ringInsert]
  | cons first rest =>
    simp only [ringInsert, List.mem_cons]
    tauto

theorem nodup_ringInsert {ring : List Nat} (nodup : ring.Nodup) (new : t ∉ ring) :
    (ringInsert t ring).Nodup := by
  cases ring with
  | nil => exact List.nodup_singleton t
  | cons first rest =>
    rw [List.nodup_cons] at nodup
    rw [List.mem_cons, not_or] at new
    unfold ringInsert
    rw [List.nodup_cons, List.nodup_cons, List.mem_cons, not_or]
    exact ⟨⟨Ne.symm new.1, nodup.1⟩, new.2, nodup.2⟩

theorem ringRemove_perm {ring : List Nat} : (ringRemove t ring).Perm (ring.erase t) := by
  cases ring with
  | nil => exact .refl _
  | cons first rest =>
    unfold ringRemove
    dsimp only
    by_cases here : first = t
    · rw [if_pos here, here, List.erase_cons_head]
      cases last : rest.getLast? with
      | none => rw [List.getLast?_eq_none_iff.1 last]
      | some before =>
        obtain ⟨init, rfl⟩ := List.getLast?_eq_some_iff.1 last
        rw [List.dropLast_concat]
        exact (List.perm_append_singleton before init).symm
    · rw [if_neg here, List.erase_cons_tail (by simpa using here)]

theorem mem_ringRemove {ring : List Nat} (nodup : ring.Nodup) :
    t' ∈ ringRemove t ring ↔ t' ≠ t ∧ t' ∈ ring := by
  rw [ringRemove_perm.mem_iff, nodup.mem_erase_iff]

theorem nodup_ringRemove {ring : List Nat} (nodup : ring.Nodup) : (ringRemove t ring).Nodup :=
  (ringRemove_perm.nodup_iff).2 (nodup.erase t)

theorem mem_others {ring : List Nat} {cur : Nat} (nodup : ring.Nodup) (mem : cur ∈ ring) :
    t ∈ others ring cur ↔ t ∈ ring ∧ t ≠ cur := by
  obtain ⟨before, after, rfl⟩ := List.append_of_mem mem
  have absent : cur ∉ before ∧ cur ∉ after := by
    have split_ := List.nodup_middle.1 nodup
    rw [List.nodup_cons, List.mem_append, not_or] at split_
    exact split_.1
  have all : ∀ x ∈ before, decide (x ≠ cur) = true := by
    intro x mem
    exact decide_eq_true fun same => absent.1 (same ▸ mem)
  have drop : (before ++ cur :: after).dropWhile (fun x => decide (x ≠ cur)) = cur :: after := by
    rw [List.dropWhile_append_of_pos all, List.dropWhile_cons_of_neg (by simp)]
  have take : (before ++ cur :: after).takeWhile (fun x => decide (x ≠ cur)) = before := by
    rw [List.takeWhile_append_of_pos all, List.takeWhile_cons_of_neg (by simp), List.append_nil]
  unfold others
  rw [drop, take, List.tail_cons, List.mem_append, List.mem_append, List.mem_cons]
  constructor
  · intro mem
    cases mem with
    | inl after_ => exact ⟨.inr (.inr after_), fun same => absent.2 (same ▸ after_)⟩
    | inr before_ => exact ⟨.inl before_, fun same => absent.1 (same ▸ before_)⟩
  · rintro ⟨mem, other⟩
    rcases mem with before_ | here | after_
    · exact .inr before_
    · exact absurd here other
    · exact .inl after_

/-! ## Picking -/

/-- `pick_next` keeps a running thread, or comes to a willing one. -/
theorem pickNext_cases {cur me next : Nat} (picked : m.pickNext cur me = some next) :
    (next = cur ∧ (m.threads cur).state = .running) ∨
      next ∈ others m.ring cur ∧ m.Willing me next := by
  unfold Machine.pickNext at picked
  dsimp only at picked
  have from_ (p : Nat → Bool)
      (found : ((others m.ring cur).filter fun t => decide (m.Willing me t)).find? p = some next) :
      next ∈ others m.ring cur ∧ m.Willing me next := by
    have mem := List.mem_filter.1 (List.mem_of_find?_eq_some found)
    exact ⟨mem.1, of_decide_eq_true mem.2⟩
  split at picked
  · rename_i t found
    cases picked
    exact .inr (from_ _ found)
  · split at picked
    · rename_i running
      cases picked
      exact .inl ⟨rfl, running⟩
    · exact .inr (from_ _ picked)

/-- While another is willing, somebody is picked. -/
theorem pickNext_some {cur me : Nat} (mem : t ∈ others m.ring cur) (willing : m.Willing me t) :
    m.pickNext cur me ≠ none := by
  unfold Machine.pickNext
  dsimp only
  have mem : t ∈ (others m.ring cur).filter fun t => decide (m.Willing me t) :=
    List.mem_filter.2 ⟨mem, decide_eq_true willing⟩
  split
  · exact Option.some_ne_none _
  · rename_i none_
    split
    · exact Option.some_ne_none _
    · rw [ne_eq, List.find?_eq_none]
      intro all
      have idle := List.find?_eq_none.1 none_ t mem
      refine all t mem ?_
      cases home : (m.threads t).idleFor with
      | none =>
        rw [home] at idle
        exact absurd rfl idle
      | some _ => rfl

/-! ## One thread -/

/-- A life in the same place as another. -/
structure Life.Beside (l l' : Life) : Prop where
  on : ∀ c doing', l' = .on c doing' → ∃ doing, l = .on c doing
  back : ∀ c doing, l = .on c doing → ∃ doing', l' = .on c doing' ∧
    ∀ point, doing.fits point = true → doing'.fits point = true
  leaving : ∀ c why', l' = .leaving c why' → ∃ why, l = .leaving c why
  left : ∀ c why, l = .leaving c why → ∃ why', l' = .leaving c why'
  ring : l' ≠ .unmade ∧ l' ≠ .past true ↔ l ≠ .unmade ∧ l ≠ .past true

/-- The life of a thread of a machine, when another was to be told. -/
def tell (life : Nat → Life) (t : Nat) (l : Life) : Nat → Life := Function.update life t l

theorem tell_self (life : Nat → Life) (t : Nat) (l : Life) : tell life t l t = l :=
  Function.update_self ..

theorem tell_ne (other : t' ≠ t) : tell life t l t' = life t' := Function.update_of_ne other ..

theorem put_self (m : Machine) (t : Nat) (th : Thread) : (m.put t th).threads t = th :=
  Function.update_self ..

theorem put_ne (m : Machine) (th : Thread) (other : t' ≠ t) :
    (m.put t th).threads t' = m.threads t' := Function.update_of_ne other ..

/-- A thread that changes where it is, and is no processor's idle thread. -/
theorem Lives.put (lives : Lives m life) (is : th.Is l) (beside : (life t).Beside l)
    (home : th.idleFor = (m.threads t).idleFor)
    (busy : ∀ c k, m.cpus c = some k → k.idle ≠ some t) : Lives (m.put t th) (tell life t l) := by
  constructor
  case is =>
    intro t'
    by_cases same : t' = t
    · rw [same, put_self, tell_self]
      exact is
    · rw [put_ne m th same, tell_ne same]
      exact lives.is t'
  case current =>
    intro c k at_
    obtain ⟨doing, on, fits⟩ := lives.current c k at_
    by_cases same : k.current = t
    · rw [same] at on ⊢
      obtain ⟨doing', on', fits'⟩ := beside.back c doing on
      rw [tell_self]
      exact ⟨doing', on', fits' _ fits⟩
    · rw [tell_ne same]
      exact ⟨doing, on, fits⟩
  case leaving =>
    intro c k t' at_ gone
    obtain ⟨why, leaving⟩ := lives.leaving c k t' at_ gone
    by_cases same : t' = t
    · rw [same] at leaving ⊢
      rw [tell_self]
      exact beside.left c why leaving
    · rw [tell_ne same]
      exact ⟨why, leaving⟩
  case on =>
    intro t' c doing on
    by_cases same : t' = t
    · rw [same, tell_self] at on
      obtain ⟨doing', on⟩ := beside.on c doing on
      rw [same]
      exact lives.on t c doing' on
    · rw [tell_ne same] at on
      exact lives.on t' c doing on
  case left =>
    intro t' c why leaving
    by_cases same : t' = t
    · rw [same, tell_self] at leaving
      obtain ⟨why', leaving⟩ := beside.leaving c why leaving
      rw [same]
      exact lives.left t c why' leaving
    · rw [tell_ne same] at leaving
      exact lives.left t' c why leaving
  case switched => exact lives.switched
  case ring =>
    intro t'
    show t' ∈ m.ring ↔ _
    rw [lives.ring]
    by_cases same : t' = t
    · rw [same, tell_self]
      exact beside.ring.symm
    · rw [tell_ne same]
  case nodup => exact lives.nodup
  case home =>
    intro t' h owned
    by_cases same : t' = t
    · rw [same, put_self, home] at owned
      obtain ⟨on, leaving⟩ := lives.home t h owned
      rw [same, tell_self]
      constructor
      · intro c doing at_
        obtain ⟨doing', at_⟩ := beside.on c doing at_
        exact on c doing' at_
      · intro c why at_
        obtain ⟨why', at_⟩ := beside.leaving c why at_
        exact leaving c why' at_
    · rw [put_ne m th same] at owned
      rw [tell_ne same]
      exact lives.home t' h owned
  case idle =>
    intro c k i at_ idle
    have other : i ≠ t := by
      rintro rfl
      exact busy c k at_ idle
    rw [put_ne m th other, tell_ne other]
    exact lives.idle c k i at_ idle

/-- An idle thread does nothing but run and wait for its turn. -/
theorem Lives.busy (lives : Lives m life)
    (at_ : life t ≠ .off false ∧ ∀ c, life t ≠ .on c .running ∧ life t ≠ .leaving c .turn) :
    ∀ c k, m.cpus c = some k → k.idle ≠ some t := by
  intro c k here idle
  obtain ⟨_, _, off | on | leaving⟩ := lives.idle c k t here idle
  · exact at_.1 off
  · exact (at_.2 c).1 on
  · exact (at_.2 c).2 leaving

theorem Life.Beside.off (asleep asleep' : Bool) : (Life.off asleep).Beside (.off asleep') :=
  ⟨nofun, nofun, nofun, nofun, ⟨fun _ => ⟨nofun, nofun⟩, fun _ => ⟨nofun, nofun⟩⟩⟩

theorem Life.Beside.here {doing' : Doing} (c : Nat)
    (fits : ∀ point, doing.fits point = true → doing'.fits point = true) :
    (Life.on c doing).Beside (.on c doing') := by
  refine ⟨?_, ?_, nofun, nofun, ⟨fun _ => ⟨nofun, nofun⟩, fun _ => ⟨nofun, nofun⟩⟩⟩
  · rintro c' doing' ⟨⟩
    exact ⟨doing, rfl⟩
  · rintro c' doing' ⟨⟩
    exact ⟨_, rfl, fits⟩

theorem Life.Beside.away (c : Nat) (why why' : Why) :
    (Life.leaving c why).Beside (.leaving c why') := by
  refine ⟨nofun, nofun, ?_, ?_, ⟨fun _ => ⟨nofun, nofun⟩, fun _ => ⟨nofun, nofun⟩⟩⟩
  · rintro c' why'' ⟨⟩
    exact ⟨why, rfl⟩
  · rintro c' why'' ⟨⟩
    exact ⟨why', rfl⟩

theorem Life.queued_cases (queued : l.queued = true) :
    l = .off true ∨ (∃ c, l = .on c (.dozing true)) ∨ ∃ c, l = .leaving c (.slept true) := by
  cases l with
  | unmade => cases queued
  | past => cases queued
  | off asleep =>
    cases queued
    exact .inl rfl
  | on c doing =>
    cases doing <;> cases queued
    exact .inr (.inl ⟨c, rfl⟩)
  | leaving c why =>
    cases why <;> cases queued
    exact .inr (.inr ⟨c, rfl⟩)

/-- `wake`. -/
theorem Lives.wake (lives : Lives m life) (t : Nat) : ∃ life', Lives (m.wake t) life' := by
  unfold Machine.wake
  dsimp only
  split
  swap
  · exact ⟨life, lives⟩
  rename_i queued
  have is := lives.is t
  rcases Life.queued_cases (is.queued.symm.trans queued) with at_ | ⟨c, at_⟩ | ⟨c, at_⟩
  · have busy := lives.busy (t := t) (by simp [at_])
    rw [at_] at is
    refine ⟨_, lives.put (l := .off false) ?_ (at_ ▸ .off true false) rfl busy⟩
    exact ⟨if_pos is.state, is.offCpu, rfl, is.exit, is.works, is.freed⟩
  · have busy := lives.busy (t := t) (by simp [at_])
    rw [at_] at is
    have fits (point : Point) (fits : (Doing.dozing true).fits point = true) :
        (Doing.dozing false).fits point = true := by cases point <;> exact fits
    refine ⟨_, lives.put (l := .on c (.dozing false)) ?_ (at_ ▸ .here c fits) rfl busy⟩
    exact ⟨if_pos is.state, is.offCpu, rfl, is.exit, is.works, is.freed⟩
  · have busy := lives.busy (t := t) (by simp [at_])
    rw [at_] at is
    refine ⟨_, lives.put (l := .leaving c (.slept false)) ?_ (at_ ▸ .away c _ _) rfl busy⟩
    exact ⟨if_pos is.state, is.offCpu, rfl, is.exit, is.works, is.freed⟩

/-- A thread that is on a processor in its thread, and not past its end, runs. -/
theorem Lives.runs (lives : Lives m life) (at_ : m.cpus c = some k) (point : k.point = .running) :
    life k.current = .on c .running ∨ life k.current = .on c .ending ∨
      life k.current = .on c .ended := by
  obtain ⟨doing, on, fits⟩ := lives.current c k at_
  rw [point] at fits
  cases doing with
  | running => exact .inl on
  | ending => exact .inr (.inl on)
  | ended => exact .inr (.inr on)
  | dozing asleep => cases fits

/-- `thread_exit`, to its work. -/
theorem Lives.threadExit (lives : Lives m life) (at_ : m.cpus c = some k)
    (point : k.point = .running) : ∃ life', Lives (m.threadExit k.current) life' := by
  unfold Machine.threadExit
  dsimp only
  split
  swap
  · exact ⟨life, lives⟩
  rename_i living
  have is := lives.is k.current
  have busy (c' : Nat) (k' : Cpu) (here : m.cpus c' = some k') : k'.idle ≠ some k.current := by
    intro idle
    have owned := (lives.idle c' k' _ here idle).1
    rw [living.2] at owned
    cases owned
  rcases lives.runs at_ point with on | on | on
  · rw [on] at is
    refine ⟨_, lives.put (l := .on c .ending) ?_
      (on ▸ .here c fun point fits => by cases point <;> exact fits) rfl busy⟩
    exact ⟨rfl, is.offCpu, is.queued, rfl, is.works, is.freed⟩
  · rw [on] at is
    cases is.exit.symm.trans living.1
  · rw [on] at is
    cases is.exit.symm.trans living.1

/-- The end of that work. -/
theorem Lives.endWork (lives : Lives m life) (at_ : m.cpus c = some k)
    (point : k.point = .running) : ∃ life', Lives (m.endWork k.current) life' := by
  unfold Machine.endWork
  dsimp only
  split
  swap
  · exact ⟨life, lives⟩
  rename_i ending
  have is := lives.is k.current
  rcases lives.runs at_ point with on | on | on
  · rw [on] at is
    cases is.exit.symm.trans ending
  · have busy := lives.busy (t := k.current) (by simp [on])
    rw [on] at is
    refine ⟨_, lives.put (l := .on c .ended) ?_
      (on ▸ .here c fun point fits => by cases point <;> exact fits) rfl busy⟩
    exact ⟨is.state, is.offCpu, is.queued, rfl, congrArg (· + 1) is.works, is.freed⟩
  · rw [on] at is
    cases is.exit.symm.trans ending

/-! ## The reaper and new threads -/

theorem find_dead {self : Nat} (found : m.ring.find? (fun t => decide (m.Dead self t)) = some t) :
    t ∈ m.ring ∧ m.Dead self t :=
  ⟨List.mem_of_find?_eq_some found, by simpa using List.find?_some found⟩

/-- A finished thread that no processor has is past its last switch. -/
theorem Lives.dead {self : Nat} (lives : Lives m life) (mem : t ∈ m.ring) (dead : m.Dead self t) :
    life t = .past false := by
  obtain ⟨finished, off, _⟩ := dead
  have is := lives.is t
  have off : (life t).offCpu = true := is.offCpu.symm.trans off
  have finished : (life t).state = .finished := is.state.symm.trans finished
  have made := (lives.ring t).1 mem
  cases at_ : life t with
  | unmade => exact absurd at_ made.1
  | on c doing =>
    rw [at_] at off
    cases off
  | leaving c why =>
    rw [at_] at off
    cases off
  | off asleep =>
    rw [at_] at finished
    cases asleep <;> cases finished
  | past freed =>
    cases freed with
    | false => rfl
    | true => exact absurd at_ made.2

theorem Lives.reap (lives : Lives m life) (self : Nat) : ∃ life', Lives (m.reap self) life' := by
  unfold Machine.reap
  split
  · exact ⟨life, lives⟩
  rename_i victim found
  obtain ⟨mem, dead⟩ := find_dead found
  have past := lives.dead mem dead
  have is := lives.is victim
  rw [past] at is
  have busy (c : Nat) (k : Cpu) (here : m.cpus c = some k) : k.idle ≠ some victim :=
    lives.busy (by simp [past]) c k here
  have told (t : Nat) (other : t ≠ victim) : tell life victim (.past true) t = life t := tell_ne other
  have kept (t : Nat) (other : t ≠ victim) := put_ne m
    { m.threads victim with freed := (m.threads victim).freed + 1 } other
  refine ⟨tell life victim (.past true), ?_⟩
  have elsewhere (t : Nat) (l : Life) (at_ : tell life victim (.past true) t = l)
      (not_ : l ≠ .past true) : t ≠ victim ∧ life t = l := by
    have other : t ≠ victim := by
      rintro rfl
      rw [tell_self] at at_
      exact not_ at_.symm
    rw [told t other] at at_
    exact ⟨other, at_⟩
  have stays (t : Nat) (not_ : life t ≠ .past false) : tell life victim (.past true) t = life t := by
    refine told t ?_
    rintro rfl
    exact not_ past
  constructor
  case is =>
    intro t
    by_cases same : t = victim
    · rw [same, tell_self]
      show ((m.put victim _).threads victim).Is _
      rw [put_self]
      exact ⟨is.state, is.offCpu, is.queued, is.exit, is.works, congrArg (· + 1) is.freed⟩
    · rw [told t same]
      show ((m.put victim _).threads t).Is _
      rw [kept t same]
      exact lives.is t
  case current =>
    intro c k at_
    obtain ⟨doing, on, fits⟩ := lives.current c k at_
    rw [stays _ (by simp [on])]
    exact ⟨doing, on, fits⟩
  case leaving =>
    intro c k t at_ gone
    obtain ⟨why, leaving⟩ := lives.leaving c k t at_ gone
    rw [stays _ (by simp [leaving])]
    exact ⟨why, leaving⟩
  case on => exact fun t c doing on => lives.on t c doing (elsewhere t _ on nofun).2
  case left => exact fun t c why leaving => lives.left t c why (elsewhere t _ leaving nofun).2
  case switched => exact lives.switched
  case ring =>
    intro t
    show t ∈ ringRemove victim m.ring ↔ _
    rw [mem_ringRemove lives.nodup]
    by_cases same : t = victim
    · rw [same, tell_self]
      exact ⟨fun both => absurd rfl both.1, fun both => absurd rfl both.2⟩
    · rw [told t same, lives.ring]
      exact ⟨fun both => both.2, fun made => ⟨same, made⟩⟩
  case nodup => exact nodup_ringRemove lives.nodup
  case home =>
    intro t h owned
    by_cases same : t = victim
    · rw [same, tell_self]
      exact ⟨nofun, nofun⟩
    · rw [told t same]
      refine lives.home t h ?_
      rw [← kept t same]
      exact owned
  case idle =>
    intro c k i at_ idle
    have other : i ≠ victim := by
      rintro rfl
      exact busy c k at_ idle
    rw [told i other]
    show ((m.put victim _).threads i).idleFor = _ ∧ (((m.put victim _).threads i).pinnedTo = _ ∨
      ((m.put victim _).threads i).pinnedTo = _) ∧ _
    rw [kept i other]
    exact lives.idle c k i at_ idle

theorem Life.exit_unmade (unmade : l.exit = .unmade) : l = .unmade := by
  cases l with
  | unmade => rfl
  | off asleep => cases unmade
  | on c doing => cases doing <;> cases unmade
  | leaving c why => cases why <;> cases unmade
  | past freed => cases unmade

theorem Lives.threadStart (lives : Lives m life) (t : Nat) (pinnedTo : Option Nat) :
    ∃ life', Lives (m.threadStart t pinnedTo) life' := by
  unfold Machine.threadStart
  split
  swap
  · exact ⟨life, lives⟩
  rename_i unmade
  have new := Life.exit_unmade ((lives.is t).exit.symm.trans unmade)
  have absent : t ∉ m.ring := fun mem => ((lives.ring t).1 mem).1 new
  have told (t' : Nat) (other : t' ≠ t) : tell life t (.off false) t' = life t' := tell_ne other
  have kept (t' : Nat) (other : t' ≠ t) := put_ne m
    { Thread.unmade with pinnedTo := pinnedTo, exit := .living } other
  have stays (t' : Nat) (made : life t' ≠ .unmade) : t' ≠ t := by
    rintro rfl
    exact made new
  have elsewhere (t' : Nat) (l : Life) (at_ : tell life t (.off false) t' = l)
      (not_ : l ≠ .off false) : life t' = l := by
    have other : t' ≠ t := by
      rintro rfl
      rw [tell_self] at at_
      exact not_ at_.symm
    rw [told t' other] at at_
    exact at_
  refine ⟨tell life t (.off false), ?_⟩
  constructor
  case is =>
    intro t'
    by_cases same : t' = t
    · rw [same, tell_self]
      show ((m.put t _).threads t).Is _
      rw [put_self]
      exact ⟨rfl, rfl, rfl, rfl, rfl, rfl⟩
    · rw [told t' same]
      show ((m.put t _).threads t').Is _
      rw [kept t' same]
      exact lives.is t'
  case current =>
    intro c k at_
    obtain ⟨doing, on, fits⟩ := lives.current c k at_
    rw [told _ (stays _ (by simp [on]))]
    exact ⟨doing, on, fits⟩
  case leaving =>
    intro c k t' at_ gone
    obtain ⟨why, leaving⟩ := lives.leaving c k t' at_ gone
    rw [told _ (stays _ (by simp [leaving]))]
    exact ⟨why, leaving⟩
  case on => exact fun t' c doing on => lives.on t' c doing (elsewhere t' _ on nofun)
  case left => exact fun t' c why leaving => lives.left t' c why (elsewhere t' _ leaving nofun)
  case switched => exact lives.switched
  case ring =>
    intro t'
    show t' ∈ ringInsert t m.ring ↔ _
    rw [mem_ringInsert]
    by_cases same : t' = t
    · rw [same, tell_self]
      exact ⟨fun _ => ⟨nofun, nofun⟩, fun _ => .inl rfl⟩
    · rw [told t' same, lives.ring]
      exact ⟨fun either => either.resolve_left same, .inr⟩
  case nodup => exact nodup_ringInsert lives.nodup absent
  case home =>
    intro t' h owned
    by_cases same : t' = t
    · rw [same, tell_self]
      exact ⟨nofun, nofun⟩
    · rw [told t' same]
      refine lives.home t' h ?_
      rw [← kept t' same]
      exact owned
  case idle =>
    intro c k i at_ idle
    have was := lives.idle c k i at_ idle
    have other : i ≠ t := stays i (by rcases was.2.2 with at_ | at_ | at_ <;> simp [at_])
    rw [told i other]
    show ((m.put t _).threads i).idleFor = _ ∧ (((m.put t _).threads i).pinnedTo = _ ∨
      ((m.put t _).threads i).pinnedTo = _) ∧ _
    rw [kept i other]
    exact was

end ReconOS.Sched
