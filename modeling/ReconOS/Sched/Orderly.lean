import ReconOS.Sched.Turns

/-! What every run keeps of the lives of the threads, and what that says of the threads. -/
namespace ReconOS.Sched

variable {m : Machine} {life : Nat → Life} {c c' t t' next : Nat} {k k' : Cpu} {th : Thread}
  {l l' : Life} {doing doing' : Doing} {why : Why} {point : Point}

/-! ## Switching -/

/-- With its idle thread, a processor always has somebody to turn to. -/
theorem Lives.idle_willing (lives : Lives m life) (at_ : m.cpus c = some k)
    (here : k.point ≠ .switched) {i : Nat} (idle : k.idle = some i) :
    (m.leave k.current).pickNext k.current c ≠ none := by
  obtain ⟨doing, on, _⟩ := lives.current c k at_
  have homes := leave_home m k.current
  have ring := (leave_rest m k.current).2.1
  obtain ⟨owned, pinned, place⟩ := lives.idle c k i at_ idle
  rcases place with off | runs | leaving
  · have is := lives.is i
    rw [off] at is
    have mem : i ∈ m.ring := (lives.ring i).2 (off ▸ ⟨nofun, nofun⟩)
    have cur : k.current ∈ m.ring := (lives.ring _).2 (on ▸ ⟨nofun, nofun⟩)
    have other : i ≠ k.current := by
      rintro rfl
      rw [on] at off
      cases off
    refine pickNext_some (t := i) ?_ ?_
    · rw [ring, mem_others lives.nodup cur]
      exact ⟨mem, other⟩
    · unfold Machine.Willing
      rw [(homes i).1, (homes i).2.1, (homes i).2.2.1, (homes i).2.2.2]
      exact ⟨is.state, is.offCpu, .inr owned, pinned⟩
  · obtain ⟨k', at', current⟩ := lives.on i c .running runs
    cases at_.symm.trans at'
    have running : ((m.leave k.current).threads k.current).state = .running := by
      rw [(homes _).2.2.1, (lives.is _).state, current, runs]
      rfl
    unfold Machine.pickNext
    dsimp only
    split
    · exact Option.some_ne_none _
    · rw [if_pos running]
      exact Option.some_ne_none _
  · obtain ⟨k', at', gone⟩ := lives.left i c .turn leaving
    cases at_.symm.trans at'
    refine absurd ((lives.switched c k at_).2 ?_) here
    rw [gone]
    exact Option.some_ne_none i

/-- `sched_switch`: the thread runs on, or gives way to one that was ready and off the processors, or
there is none and no idle thread. -/
theorem Lives.schedSwitch_cases (lives : Lives m life) (at_ : m.cpus c = some k)
    (here : k.point ≠ .switched) : m.schedSwitch c k = m.stop ∨
    (life k.current = .on c .running ∧
      m.schedSwitch c k = m.putCpu c { k with point := .running }) ∨
    ∃ next, life next = .off false ∧
      ((m.threads next).idleFor = none ∨ (m.threads next).idleFor = some c) ∧
      m.schedSwitch c k = (m.leave k.current).turnTo c k next := by
  obtain ⟨doing, on, _⟩ := lives.current c k at_
  have homes := leave_home m k.current
  have ring := (leave_rest m k.current).2.1
  have idles : (m.leave k.current).pickNext k.current c = none → k.idle = none := by
    intro none_
    cases idle : k.idle with
    | none => rfl
    | some i => exact absurd none_ (lives.idle_willing at_ here idle)
  unfold Machine.schedSwitch
  cases picked : (m.leave k.current).pickNext k.current c with
  | none =>
    unfold Machine.idleOf
    rw [idles picked]
    exact .inl rfl
  | some next =>
    rw [Option.some_or]
    dsimp only
    cases pickNext_cases picked with
    | inl same =>
      obtain ⟨rfl, running⟩ := same
      rw [(homes _).2.2.1, (lives.is _).state, on] at running
      have runs : doing = .running := by
        cases doing with
        | running => rfl
        | ending => cases running
        | ended => cases running
        | dozing asleep => cases asleep <;> cases running
      subst runs
      have exit : (m.threads k.current).exit = .living := by
        rw [(lives.is _).exit, on]
        rfl
      refine .inr (.inl ⟨on, ?_⟩)
      have same : m.leave k.current = m := if_neg (by rw [exit]; exact fun no => Exit.noConfusion no)
      rw [if_pos rfl, same]
      exact if_neg (by rw [exit]; exact fun no => Exit.noConfusion no)
    | inr willing =>
      obtain ⟨mem, ready, off, home, _⟩ := willing
      have cur : k.current ∈ m.ring := (lives.ring _).2 (on ▸ ⟨nofun, nofun⟩)
      rw [ring, mem_others lives.nodup cur] at mem
      rw [(homes next).2.2.1, (lives.is next).state] at ready
      rw [(homes next).2.2.2, (lives.is next).offCpu] at off
      rw [(homes next).1] at home
      have made := (lives.ring next).1 mem.1
      refine .inr (.inr ⟨next, ?_, home, if_neg mem.2⟩)
      cases at' : life next with
      | unmade => exact absurd at' made.1
      | on c' doing' =>
        rw [at'] at off
        cases off
      | leaving c' why =>
        rw [at'] at off
        cases off
      | past freed =>
        rw [at'] at ready
        cases ready
      | off asleep =>
        rw [at'] at ready
        cases asleep with
        | false => rfl
        | true => cases ready

theorem Lives.stop (lives : Lives m life) : Lives m.stop life :=
  ⟨lives.is, lives.current, lives.leaving, lives.on, lives.left, lives.switched, lives.ring,
    lives.nodup, lives.home, lives.idle⟩

theorem Lives.schedSwitch (lives : Lives m life) (at_ : m.cpus c = some k)
    (here : k.point ≠ .switched) (unbroken : ¬m.Ending c) :
    ∃ life', Lives (m.schedSwitch c k) life' := by
  obtain ⟨doing, on, _⟩ := lives.current c k at_
  rcases lives.schedSwitch_cases at_ here with eq | ⟨runs, eq⟩ | ⟨next, off, home, eq⟩
  · exact ⟨life, eq ▸ lives.stop⟩
  · have same : m.put k.current (m.threads k.current) = m := by
      unfold Machine.put
      rw [Function.update_eq_self]
    have leaving : k.leaving = none := by
      by_contra leaving
      exact here ((lives.switched c k at_).2 leaving)
    have stays : Lives ((m.put k.current (m.threads k.current)).putCpu c { k with point := .running })
        (tell life k.current (.on c .running)) := 
      lives.putOn at_ runs (runs ▸ lives.is _) rfl rfl rfl
        (by rw [leaving]; exact ⟨nofun, fun no => absurd rfl no⟩) (.inl rfl)
    rw [same] at stays
    exact ⟨_, eq ▸ stays⟩
  · have not_ : doing ≠ .ending := by
      rintro rfl
      refine unbroken ⟨k, at_, ?_⟩
      rw [(lives.is _).exit, on]
      rfl
    exact eq ▸ lives.turnTo at_ here on not_ off home

/-! ## Runs -/

theorem Lives.within {f : Cpu → Machine} (lives : Lives m life)
    (keeps : ∀ k, m.cpus c = some k → k.point = .running → ∃ life', Lives (f k) life') :
    ∃ life', Lives (m.within c f) life' := by
  unfold Machine.within
  split
  · exact ⟨life, lives⟩
  · rename_i k at_
    split
    · rename_i running
      exact keeps k at_ running
    · exact ⟨life, lives⟩

/-- What each move that breaks no end-of-process work leaves. -/
theorem step_lives (m : Machine) (move : Move) (unbroken : m.Unbroken move)
    (lives : ∃ life, Lives m life) : ∃ life, Lives (m.step move) life := by
  obtain ⟨life, lives⟩ := lives
  unfold Machine.step
  split
  · exact ⟨life, lives⟩
  cases move with
  | start t pinnedTo => exact lives.threadStart t pinnedTo
  | switch c =>
    unfold Machine.take
    dsimp only
    split
    · exact ⟨life, lives⟩
    · rename_i k at_
      split
      · exact ⟨life, lives⟩
      · rename_i here
        exact lives.schedSwitch at_ here unbroken
  | arrive c =>
    unfold Machine.take
    dsimp only
    split
    · exact ⟨life, lives⟩
    · rename_i k at_
      split
      · rename_i switched
        exact (lives.releaseLeaving at_ switched).2
      · exact ⟨life, lives⟩
  | sleep c => exact lives.within fun k at_ running => lives.waitSleep at_ running unbroken
  | wake t => exact lives.wake t
  | exit c => exact lives.within fun k at_ running => lives.threadExit at_ running
  | work c => exact lives.within fun k at_ running => lives.endWork at_ running
  | reap c => exact lives.within fun k _ _ => lives.reap k.current

open Classical in
/-- The lives of the threads of a machine whose processors have just come up. -/
noncomputable def startLife (m : Machine) (t : Nat) : Life :=
  if on : ∃ c k, m.cpus c = some k ∧ k.current = t then .on on.choose .running
  else if t ∈ m.ring then .off false else .unmade

theorem Machine.Started.lives (started : m.Started) : ∃ life, Lives m life := by
  have on (c : Nat) (k : Cpu) (at_ : m.cpus c = some k) : startLife m k.current = .on c .running := by
    have there : ∃ c' k', m.cpus c' = some k' ∧ k'.current = k.current := ⟨c, k, at_, rfl⟩
    unfold startLife
    rw [dif_pos there]
    obtain ⟨k', at', same⟩ := there.choose_spec
    rw [started.apart _ _ _ _ at' at_ same]
  have off (t : Nat) (none_ : ∀ c k, m.cpus c = some k → k.current ≠ t) (mem : t ∈ m.ring) :
      startLife m t = .off false := by
    unfold startLife
    rw [dif_neg (by rintro ⟨c, k, at_, same⟩; exact none_ c k at_ same), if_pos mem]
  have absent (t : Nat) (not_ : t ∉ m.ring) : startLife m t = .unmade := by
    unfold startLife
    rw [dif_neg, if_neg not_]
    rintro ⟨c, k, at_, rfl⟩
    exact not_ (started.current c k at_).2.2.1
  have either (t : Nat) : (∃ c k, m.cpus c = some k ∧ k.current = t) ∨
      (∀ c k, m.cpus c = some k → k.current ≠ t) := by
    by_cases there : ∃ c k, m.cpus c = some k ∧ k.current = t
    · exact .inl there
    · exact .inr fun c k at_ same => there ⟨c, k, at_, same⟩
  have cases_ (t : Nat) : (∃ c k, m.cpus c = some k ∧ k.current = t ∧ startLife m t = .on c .running) ∨
      (t ∈ m.ring ∧ (∀ c k, m.cpus c = some k → k.current ≠ t) ∧ startLife m t = .off false) ∨
      (t ∉ m.ring ∧ startLife m t = .unmade) := by
    cases either t with
    | inl there =>
      obtain ⟨c, k, at_, rfl⟩ := there
      exact .inl ⟨c, k, at_, rfl, on c k at_⟩
    | inr none_ =>
      by_cases mem : t ∈ m.ring
      · exact .inr (.inl ⟨mem, none_, off t none_ mem⟩)
      · exact .inr (.inr ⟨mem, absent t mem⟩)
  refine ⟨startLife m, ?_⟩
  constructor
  case is =>
    intro t
    rcases cases_ t with ⟨c, k, at_, rfl, life⟩ | ⟨mem, none_, life⟩ | ⟨not_, life⟩
    · obtain ⟨queued, exit, works, freed⟩ := started.threads _ (started.current c k at_).2.2.1
      obtain ⟨state, offCpu⟩ := started.on c k at_
      exact life ▸ ⟨state, offCpu, queued, exit, works, freed⟩
    · obtain ⟨queued, exit, works, freed⟩ := started.threads t mem
      obtain ⟨state, offCpu⟩ := started.off t mem none_
      exact life ▸ ⟨state, offCpu, queued, exit, works, freed⟩
    · rw [life, started.unmade t not_]
      exact ⟨rfl, rfl, rfl, rfl, rfl, rfl⟩
  case current =>
    intro c k at_
    rw [(started.current c k at_).2.1]
    exact ⟨.running, on c k at_, rfl⟩
  case leaving =>
    intro c k t at_ gone
    rw [(started.current c k at_).1] at gone
    cases gone
  case on =>
    intro t c doing life
    rcases cases_ t with ⟨c', k, at_, same, there⟩ | ⟨_, _, there⟩ | ⟨_, there⟩
    · rw [life] at there
      cases there
      exact ⟨k, at_, same⟩
    · rw [life] at there
      cases there
    · rw [life] at there
      cases there
  case left =>
    intro t c why life
    rcases cases_ t with ⟨_, _, _, _, there⟩ | ⟨_, _, there⟩ | ⟨_, there⟩ <;>
      (rw [life] at there; cases there)
  case switched =>
    intro c k at_
    rw [(started.current c k at_).1, (started.current c k at_).2.1]
    exact ⟨nofun, fun no => absurd rfl no⟩
  case ring =>
    intro t
    rcases cases_ t with ⟨c, k, at_, rfl, life⟩ | ⟨mem, _, life⟩ | ⟨not_, life⟩
    · rw [life]
      exact ⟨fun _ => ⟨nofun, nofun⟩, fun _ => (started.current c k at_).2.2.1⟩
    · rw [life]
      exact ⟨fun _ => ⟨nofun, nofun⟩, fun _ => mem⟩
    · rw [life]
      exact ⟨fun mem => absurd mem not_, fun made => absurd rfl made.1⟩
  case nodup => exact started.nodup
  case home =>
    intro t home owned
    rcases cases_ t with ⟨c, k, at_, rfl, life⟩ | ⟨_, _, life⟩ | ⟨_, life⟩
    · rw [life]
      refine ⟨?_, nofun⟩
      rintro c' doing ⟨⟩
      exact ((started.current c k at_).2.2.2 home owned).symm
    · rw [life]
      exact ⟨nofun, nofun⟩
    · rw [life]
      exact ⟨nofun, nofun⟩
  case idle =>
    intro c k i at_ idle
    obtain ⟨mem, owned, pinned⟩ := started.idle c k i at_ idle
    refine ⟨owned, pinned, ?_⟩
    rcases cases_ i with ⟨c', k', at', rfl, life⟩ | ⟨_, _, life⟩ | ⟨not_, _⟩
    · have home := (started.current c' k' at').2.2.2 c owned
      exact .inr (.inl (home ▸ life))
    · exact .inl life
    · exact absurd mem not_

/-! ## What the lives say -/

/-- No thread is on two processors. One that a switch takes up has been let go of by every processor
and is not in `thread_exit`. One that is on no queue and has been let go of may be picked. And one
past its last switch is on no processor, has done its end-of-process work once, and is freed once at
most: until then it is in the ring, for the reaper to find. -/
structure Machine.Orderly (m : Machine) : Prop where
  once : ∀ c c' k k', m.cpus c = some k → m.cpus c' = some k' → k.current = k'.current → c = c'
  released : ∀ c k k', m.cpus c = some k → (m.step (.switch c)).cpus c = some k' →
    k'.current ≠ k.current → (m.threads k'.current).offCpu = true ∧
      (m.threads k'.current).exit = .living ∧
      ∀ c' k₁, m.cpus c' = some k₁ → k₁.current ≠ k'.current ∧ k₁.leaving ≠ some k'.current
  ready : ∀ t ∈ m.ring, (m.threads t).offCpu = true → (m.threads t).queued = false →
    (m.threads t).exit = .living → (m.threads t).state = .ready
  left : ∀ t, (m.threads t).exit = .left → (∀ c k, m.cpus c = some k → k.current ≠ t) ∧
    (m.threads t).works = 1
  freed : ∀ t, (m.threads t).freed = 0 ∨
    (m.threads t).freed = 1 ∧ (m.threads t).exit = .left ∧ t ∉ m.ring
  reaped : ∀ t, (m.threads t).exit = .left → (m.threads t).offCpu = true →
    (m.threads t).freed = 0 → t ∈ m.ring ∧ (m.threads t).state = .finished

theorem Life.exit_left (left : l.exit = .left) :
    (∃ c, l = .leaving c .exited) ∨ ∃ freed, l = .past freed := by
  cases l with
  | unmade => cases left
  | off asleep => cases left
  | on c doing => cases doing <;> cases left
  | leaving c why =>
    cases why <;> cases left
    exact .inl ⟨c, rfl⟩
  | past freed => exact .inr ⟨freed, rfl⟩

theorem Lives.released (lives : Lives m life) (at_ : m.cpus c = some k)
    (then_ : (m.step (.switch c)).cpus c = some k') (other : k'.current ≠ k.current) :
    life k'.current = .off false := by
  unfold Machine.step at then_
  split at then_
  · rw [at_] at then_
    cases then_
    exact absurd rfl other
  unfold Machine.take at then_
  dsimp only at then_
  rw [at_] at then_
  dsimp only at then_
  split at then_
  · rw [at_] at then_
    cases then_
    exact absurd rfl other
  rename_i here
  rcases lives.schedSwitch_cases at_ here with eq | ⟨_, eq⟩ | ⟨next, off, _, eq⟩
  · rw [eq] at then_
    have then_ : m.cpus c = some k' := then_
    rw [at_] at then_
    cases then_
    exact absurd rfl other
  · rw [eq, putCpu_self] at then_
    cases then_
    exact absurd rfl other
  · rw [eq] at then_
    unfold Machine.turnTo at then_
    rw [putCpu_self] at then_
    cases then_
    exact off

theorem Lives.orderly (lives : Lives m life) : m.Orderly := by
  constructor
  case once =>
    intro c c' k k' at_ at' same
    obtain ⟨_, on, _⟩ := lives.current c k at_
    obtain ⟨_, on', _⟩ := lives.current c' k' at'
    rw [same, on'] at on
    cases on
    rfl
  case released =>
    intro c k k' at_ then_ other
    have off := lives.released at_ then_ other
    have is := lives.is k'.current
    rw [off] at is
    refine ⟨is.offCpu, is.exit, fun c' k₁ at₁ => ⟨?_, ?_⟩⟩
    · intro same
      obtain ⟨_, on, _⟩ := lives.current c' k₁ at₁
      rw [same, off] at on
      cases on
    · intro same
      obtain ⟨_, leaving⟩ := lives.leaving c' k₁ _ at₁ same
      rw [off] at leaving
      cases leaving
  case ready =>
    intro t mem off awake living
    have is := lives.is t
    rw [is.state]
    rw [is.offCpu] at off
    rw [is.queued] at awake
    rw [is.exit] at living
    cases at_ : life t with
    | unmade => exact absurd at_ ((lives.ring t).1 mem).1
    | off asleep =>
      rw [at_] at awake
      cases asleep with
      | false => rfl
      | true => cases awake
    | on c doing =>
      rw [at_] at off
      cases off
    | leaving c why =>
      rw [at_] at off
      cases off
    | past freed =>
      rw [at_] at living
      cases living
  case left =>
    intro t left
    have is := lives.is t
    rw [is.works]
    rw [is.exit] at left
    rcases Life.exit_left left with ⟨c, at_⟩ | ⟨freed, at_⟩
    · rw [at_]
      refine ⟨fun c' k here same => ?_, rfl⟩
      obtain ⟨_, on, _⟩ := lives.current c' k here
      rw [same, at_] at on
      cases on
    · rw [at_]
      refine ⟨fun c' k here same => ?_, rfl⟩
      obtain ⟨_, on, _⟩ := lives.current c' k here
      rw [same, at_] at on
      cases on
  case freed =>
    intro t
    have is := lives.is t
    rw [is.freed, is.exit]
    cases at_ : life t with
    | past freed =>
      cases freed with
      | false => exact .inl rfl
      | true => exact .inr ⟨rfl, rfl, fun mem => ((lives.ring t).1 mem).2 at_⟩
    | unmade => exact .inl rfl
    | off asleep => exact .inl rfl
    | on c doing => exact .inl rfl
    | leaving c why => exact .inl rfl
  case reaped =>
    intro t left off unfreed
    have is := lives.is t
    rw [is.exit] at left
    rw [is.offCpu] at off
    rw [is.freed] at unfreed
    rcases Life.exit_left left with ⟨c, at_⟩ | ⟨freed, at_⟩
    · rw [at_] at off
      cases off
    · rw [at_] at unfreed
      have unfreed : freed.toNat = 0 := unfreed
      cases freed with
      | true => cases unfreed
      | false =>
        rw [is.state, at_]
        exact ⟨(lives.ring t).2 (at_ ▸ ⟨nofun, nofun⟩), rfl⟩

/-- On any number of processors, however ticks, yields, sleeps, wakes, ends and the reaper come
between each other, where no thread is preempted and none sleeps at its end-of-process work. -/
theorem threads_orderly (started : m.Started) (moves : List Move)
    (unbroken : Lib.Allows Machine.step Machine.Unbroken m moves) :
    (Lib.run Machine.step m moves).Orderly := by
  obtain ⟨life, lives⟩ := Lib.run_keeps step_lives unbroken started.lives
  exact lives.orderly

/-! ## One processor -/

/-- The boot thread, an idle thread, and a third that waits for its turn. -/
def uniprocessor : Machine where
  threads t :=
    if t = 0 then ⟨.running, false, none, some 0, true, false, .living, 0, 0⟩
    else if t = 1 then ⟨.ready, true, some 0, none, false, false, .living, 0, 0⟩
    else if t = 2 then ⟨.ready, true, none, none, false, false, .living, 0, 0⟩
    else .unmade
  cpus c := if c = 0 then some ⟨0, none, some 1, .running⟩ else none
  ring := [0, 1, 2]
  stopped := false

theorem uniprocessor_cpu (at_ : uniprocessor.cpus c = some k) :
    c = 0 ∧ k = ⟨0, none, some 1, .running⟩ := by
  unfold uniprocessor at at_
  dsimp only at at_
  split at at_
  · rename_i zero
    cases at_
    exact ⟨zero, rfl⟩
  · cases at_

theorem uniprocessor_started : uniprocessor.Started := by
  constructor
  case going => rfl
  case apart =>
    intro c c' k k' at_ at' _
    exact (uniprocessor_cpu at_).1.trans (uniprocessor_cpu at').1.symm
  case current =>
    intro c k at_
    obtain ⟨rfl, rfl⟩ := uniprocessor_cpu at_
    exact ⟨rfl, rfl, by decide, nofun⟩
  case threads =>
    decide
  case on =>
    intro c k at_
    obtain ⟨rfl, rfl⟩ := uniprocessor_cpu at_
    exact ⟨rfl, rfl⟩
  case off =>
    intro t mem none_
    have other : t ≠ 0 := Ne.symm (none_ 0 _ rfl)
    rcases List.mem_cons.1 mem with rfl | mem
    · exact absurd rfl other
    · rcases List.mem_cons.1 mem with rfl | mem
      · exact ⟨rfl, rfl⟩
      · cases List.mem_singleton.1 mem
        exact ⟨rfl, rfl⟩
  case unmade =>
    intro t not_
    have not_ : t ≠ 0 ∧ t ≠ 1 ∧ t ≠ 2 := by simpa [uniprocessor] using not_
    unfold uniprocessor
    dsimp only
    rw [if_neg not_.1, if_neg not_.2.1, if_neg not_.2.2]
  case nodup => decide
  case idle =>
    intro c k i at_ idle
    obtain ⟨rfl, rfl⟩ := uniprocessor_cpu at_
    cases idle
    exact ⟨by decide, rfl, .inl rfl⟩

/-- The third runs and ends, and the boot thread frees it. -/
def endingWhole : List Move :=
  [.switch 0, .arrive 0, .exit 0, .work 0, .switch 0, .arrive 0, .reap 0]

theorem threads_orderly_ending :
    ((Lib.run Machine.step uniprocessor endingWhole).threads 2).freed = 1 ∧
      (Lib.run Machine.step uniprocessor endingWhole).Orderly :=
  ⟨by decide +kernel, threads_orderly uniprocessor_started endingWhole (by decide +kernel)⟩

/-- It ends, sleeps at its end-of-process work, and is woken and does the rest. -/
def endingAsleep : List Move :=
  [.switch 0, .arrive 0, .exit 0, .sleep 0, .switch 0, .arrive 0, .wake 2, .switch 0, .arrive 0,
    .work 0, .switch 0, .arrive 0, .switch 0]

/-- It then is on the processor again, after its last switch. -/
theorem finished_thread_resumed :
    ¬∀ (m : Machine) (moves : List Move), m.Started → (Lib.run Machine.step m moves).Orderly := by
  intro all
  have orderly := all uniprocessor endingAsleep uniprocessor_started
  have left : ((Lib.run Machine.step uniprocessor endingAsleep).threads 2).exit = .left := by
    decide +kernel
  have on : (Lib.run Machine.step uniprocessor endingAsleep).cpus 0 =
      some ⟨2, some 0, some 1, .switched⟩ := by decide +kernel
  exact (orderly.left 2 left).1 0 _ on rfl

end ReconOS.Sched
