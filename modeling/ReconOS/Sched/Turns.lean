import ReconOS.Sched.Lives

/-! A thread stays on its processor or gives it up, and the processor lets go of it. -/
namespace ReconOS.Sched

variable {m : Machine} {life : Nat → Life} {c c' t t' next : Nat} {k k' : Cpu} {th : Thread}
  {l l' : Life} {doing doing' : Doing} {why : Why} {point : Point}

theorem putCpu_self (m : Machine) (c : Nat) (k : Cpu) : (m.putCpu c k).cpus c = some k :=
  Function.update_self ..

theorem putCpu_ne (m : Machine) (k : Cpu) (other : c' ≠ c) :
    (m.putCpu c k).cpus c' = m.cpus c' := Function.update_of_ne other ..

/-- What the other processors are, and what the one has become. -/
theorem cpus_putCpu {k₁ : Cpu} (at_ : (m.putCpu c k).cpus c' = some k₁) :
    c' = c ∧ k₁ = k ∨ c' ≠ c ∧ m.cpus c' = some k₁ := by
  by_cases same : c' = c
  · rw [same, putCpu_self] at at_
    exact .inl ⟨same, (Option.some.inj at_).symm⟩
  · rw [putCpu_ne m k same] at at_
    exact .inr ⟨same, at_⟩

/-! ## What a step at one processor does -/

/-- The processor a thread is on, or is leaving. -/
def Life.cpu : Life → Option Nat
  | .on c _ | .leaving c _ => some c
  | .unmade | .off _ | .past _ => none

/-- A step at processor `c`, which `k` becomes `k'` by: the threads `T` whose life it changes are
there or nowhere, before it and after. -/
structure Local (m m' : Machine) (life life' : Nat → Life) (c : Nat) (k k' : Cpu) (T : Nat → Prop) :
    Prop where
  was : m.cpus c = some k
  now : m'.cpus c = some k'
  away : ∀ c', c' ≠ c → m'.cpus c' = m.cpus c'
  ring : m'.ring = m.ring
  beside : ∀ t, ¬T t → life' t = life t
  before : ∀ t, T t → ∀ c', (life t).cpu = some c' → c' = c
  after : ∀ t, T t → ∀ c', (life' t).cpu = some c' → c' = c
  is : ∀ t, (m'.threads t).Is (life' t)
  homes : ∀ t, (m'.threads t).idleFor = (m.threads t).idleFor ∧
    (m'.threads t).pinnedTo = (m.threads t).pinnedTo
  current : ∃ doing, life' k'.current = .on c doing ∧ doing.fits k'.point = true
  leaving : ∀ t, k'.leaving = some t → ∃ why, life' t = .leaving c why
  on : ∀ t doing, T t → life' t = .on c doing → k'.current = t
  onStill : T k.current ∨ k'.current = k.current
  left : ∀ t why, T t → life' t = .leaving c why → k'.leaving = some t
  leftStill : ∀ t, ¬T t → k.leaving = some t → k'.leaving = some t
  switched : k'.point = .switched ↔ k'.leaving ≠ none
  listed : ∀ t, T t → (life' t ≠ .unmade ∧ life' t ≠ .past true ↔
    life t ≠ .unmade ∧ life t ≠ .past true)
  home : ∀ t h, T t → (m.threads t).idleFor = some h → (life' t).cpu = some c → c = h
  idle : k'.idle = k.idle
  idles : ∀ c' k₁ i, T i → m.cpus c' = some k₁ → k₁.idle = some i →
    life' i = .off false ∨ life' i = .on c' .running ∨ life' i = .leaving c' .turn

/-- Such a step keeps the threads and the processors in step. -/
theorem Local.lives {m' : Machine} {life' : Nat → Life} {T : Nat → Prop}
    (step : Local m m' life life' c k k' T) (lives : Lives m life) : Lives m' life' := by
  have elsewhere {t : Nat} (c' : Nat) (other : c' ≠ c) (at' : (life' t).cpu = some c') :
      life' t = life t := step.beside t fun mine => other (step.after t mine c' at')
  have elsewhere' {t : Nat} (c' : Nat) (other : c' ≠ c) (at' : (life t).cpu = some c') :
      life' t = life t := step.beside t fun mine => other (step.before t mine c' at')
  have cpus (c' : Nat) (k₁ : Cpu) (at' : m'.cpus c' = some k₁) :
      c' = c ∧ k₁ = k' ∨ c' ≠ c ∧ m.cpus c' = some k₁ := by
    by_cases same : c' = c
    · subst same
      exact .inl ⟨rfl, Option.some.inj (at'.symm.trans step.now)⟩
    · exact .inr ⟨same, (step.away c' same).symm.trans at'⟩
  constructor
  case is => exact step.is
  case current =>
    intro c' k₁ at'
    rcases cpus c' k₁ at' with ⟨rfl, rfl⟩ | ⟨other, at'⟩
    · exact step.current
    · obtain ⟨doing₁, on₁, fits₁⟩ := lives.current c' k₁ at'
      exact ⟨doing₁, (elsewhere' c' other (by rw [on₁]; rfl)).trans on₁, fits₁⟩
  case leaving =>
    intro c' k₁ t at' gone
    rcases cpus c' k₁ at' with ⟨rfl, rfl⟩ | ⟨other, at'⟩
    · exact step.leaving t gone
    · obtain ⟨why, left⟩ := lives.leaving c' k₁ t at' gone
      exact ⟨why, (elsewhere' c' other (by rw [left]; rfl)).trans left⟩
  case on =>
    intro t c' doing₁ on₁
    by_cases same : c' = c
    · subst same
      refine ⟨k', step.now, ?_⟩
      by_cases mine : T t
      · exact step.on t doing₁ mine on₁
      · rw [step.beside t mine] at on₁
        obtain ⟨k₁, at', current⟩ := lives.on t c' doing₁ on₁
        cases at'.symm.trans step.was
        cases step.onStill with
        | inl its => exact absurd (current ▸ its) mine
        | inr still => exact still.trans current
    · rw [elsewhere c' same (by rw [on₁]; rfl)] at on₁
      rw [step.away c' same]
      exact lives.on t c' doing₁ on₁
  case left =>
    intro t c' why left
    by_cases same : c' = c
    · subst same
      refine ⟨k', step.now, ?_⟩
      by_cases mine : T t
      · exact step.left t why mine left
      · rw [step.beside t mine] at left
        obtain ⟨k₁, at', gone⟩ := lives.left t c' why left
        cases at'.symm.trans step.was
        exact step.leftStill t mine gone
    · rw [elsewhere c' same (by rw [left]; rfl)] at left
      rw [step.away c' same]
      exact lives.left t c' why left
  case switched =>
    intro c' k₁ at'
    rcases cpus c' k₁ at' with ⟨rfl, rfl⟩ | ⟨-, at'⟩
    · exact step.switched
    · exact lives.switched c' k₁ at'
  case ring =>
    intro t
    rw [step.ring, lives.ring]
    by_cases mine : T t
    · exact (step.listed t mine).symm
    · rw [step.beside t mine]
  case nodup => exact step.ring ▸ lives.nodup
  case home =>
    intro t h owned
    rw [(step.homes t).1] at owned
    by_cases mine : T t
    · constructor
      · intro c' doing₁ on₁
        have here := step.after t mine c' (by rw [on₁]; rfl)
        subst here
        exact step.home t h mine owned (by rw [on₁]; rfl)
      · intro c' why left
        have here := step.after t mine c' (by rw [left]; rfl)
        subst here
        exact step.home t h mine owned (by rw [left]; rfl)
    · rw [step.beside t mine]
      exact lives.home t h owned
  case idle =>
    intro c' k₁ i at' idle
    rw [(step.homes i).1, (step.homes i).2]
    obtain ⟨k₀, at₀, idle₀⟩ : ∃ k₀, m.cpus c' = some k₀ ∧ k₀.idle = some i := by
      rcases cpus c' k₁ at' with ⟨rfl, rfl⟩ | ⟨-, at'⟩
      · exact ⟨k, step.was, step.idle ▸ idle⟩
      · exact ⟨k₁, at', idle⟩
    have before := lives.idle c' k₀ i at₀ idle₀
    refine ⟨before.1, before.2.1, ?_⟩
    by_cases mine : T i
    · exact step.idles c' k₀ i mine at₀ idle₀
    · rw [step.beside i mine]
      exact before.2.2

/-! ## Staying -/

/-- The thread of a processor changes what it is at, and the processor with it. -/
theorem Lives.putOn (lives : Lives m life) (at_ : m.cpus c = some k)
    (on : life k.current = .on c doing) (is : th.Is (.on c doing'))
    (fits : doing'.fits point = true) (idleFor : th.idleFor = (m.threads k.current).idleFor)
    (pinnedTo : th.pinnedTo = (m.threads k.current).pinnedTo)
    (switched : point = .switched ↔ k.leaving ≠ none)
    (busy : doing' = .running ∨ ∀ c k', m.cpus c = some k' → k'.idle ≠ some k.current) :
    Lives ((m.put k.current th).putCpu c { k with point := point })
      (tell life k.current (.on c doing')) := by
  have mine : tell life k.current (.on c doing') k.current = .on c doing' := tell_self ..
  refine (?_ : Local m _ life _ c k { k with point := point } (· = k.current)).lives lives
  constructor
  case was => exact at_
  case now => exact putCpu_self ..
  case away => exact fun c' other => putCpu_ne _ _ other
  case ring => rfl
  case beside => exact fun t other => tell_ne other
  case before =>
    rintro t rfl c' at'
    rw [on] at at'
    exact (Option.some.inj at').symm
  case after =>
    rintro t rfl c' at'
    rw [mine] at at'
    exact (Option.some.inj at').symm
  case is =>
    intro t
    show ((m.put k.current th).threads t).Is _
    by_cases same : t = k.current
    · rw [same, put_self, mine]
      exact is
    · rw [put_ne m th same, tell_ne same]
      exact lives.is t
  case homes =>
    intro t
    show ((m.put k.current th).threads t).idleFor = _ ∧ ((m.put k.current th).threads t).pinnedTo = _
    by_cases same : t = k.current
    · rw [same, put_self]
      exact ⟨idleFor, pinnedTo⟩
    · rw [put_ne m th same]
      exact ⟨rfl, rfl⟩
  case current => exact ⟨doing', mine, fits⟩
  case leaving =>
    intro t gone
    obtain ⟨why, left⟩ := lives.leaving c k t at_ gone
    refine ⟨why, (tell_ne ?_).trans left⟩
    rintro rfl
    rw [on] at left
    cases left
  case on => exact fun t _ same _ => same.symm
  case onStill => exact .inl rfl
  case left =>
    rintro t why rfl left
    rw [mine] at left
    cases left
  case leftStill => exact fun t _ gone => gone
  case switched => exact switched
  case listed =>
    rintro t rfl
    rw [mine, on]
    exact ⟨fun _ => ⟨nofun, nofun⟩, fun _ => ⟨nofun, nofun⟩⟩
  case home =>
    rintro t h rfl owned -
    exact (lives.home _ h owned).1 c doing on
  case idle => rfl
  case idles =>
    rintro c' k₁ i rfl at' idle
    cases busy with
    | inl runs =>
      have home := (lives.home _ c' (lives.idle c' k₁ _ at' idle).1).1 c doing on
      rw [mine, runs, home]
      exact .inr (.inl rfl)
    | inr never => exact absurd idle (never c' k₁ at')

/-- `wait_sleep`, of a thread that is not at its end. -/
theorem Lives.waitSleep (lives : Lives m life) (at_ : m.cpus c = some k) (at_point : k.point = .running)
    (unbroken : ¬m.Ending c) : ∃ life', Lives (m.waitSleep c k) life' := by
  unfold Machine.waitSleep
  dsimp only
  split
  · exact ⟨life, lives⟩
  rename_i sleeps
  rw [not_or, not_not] at sleeps
  have is := lives.is k.current
  have busy (c' : Nat) (k' : Cpu) (here : m.cpus c' = some k') : k'.idle ≠ some k.current := by
    intro idle
    have owned := (lives.idle c' k' _ here idle).1
    rw [sleeps.1] at owned
    cases owned
  have leaving : k.leaving = none := by
    by_contra leaving
    have switched := (lives.switched c k at_).2 leaving
    rw [at_point] at switched
    cases switched
  rcases lives.runs at_ at_point with on | on | on
  · rw [on] at is
    refine ⟨tell life k.current (.on c (.dozing true)), lives.putOn at_ on ?_ rfl rfl rfl ?_ (.inr busy)⟩
    · exact ⟨rfl, is.offCpu, rfl, is.exit, is.works, is.freed⟩
    · rw [leaving]
      exact ⟨nofun, fun no => absurd rfl no⟩
  · refine absurd ⟨k, at_, ?_⟩ unbroken
    rw [is.exit, on]
    rfl
  · rw [on] at is
    exact absurd is.exit sleeps.2

/-! ## Letting go -/

/-- What a thread is when its processor has let go of it. -/
def Why.rest : Why → Life
  | .turn => .off false
  | .slept asleep => .off asleep
  | .exited => .past false

theorem Thread.Is.released (is : th.Is (.leaving c why)) :
    ({ th with state := if th.state = .running then .ready else th.state, offCpu := true } : Thread).Is
      why.rest := by
  have state : (if th.state = .running then State.ready else th.state) = why.rest.state := by
    rw [is.state]
    cases why with
    | turn => rfl
    | slept asleep => cases asleep <;> rfl
    | exited => rfl
  cases why with
  | turn => exact ⟨state, rfl, is.queued, is.exit, is.works, is.freed⟩
  | slept asleep => exact ⟨state, rfl, is.queued, is.exit, is.works, is.freed⟩
  | exited => exact ⟨state, rfl, is.queued, is.exit, is.works, is.freed⟩

/-- `release_leaving`. -/
theorem Lives.releaseLeaving (lives : Lives m life) (at_ : m.cpus c = some k)
    (switched : k.point = .switched) :
    (m.releaseLeaving c k).stopped = m.stopped ∧ ∃ life', Lives (m.releaseLeaving c k) life' := by
  obtain ⟨gone, leaving⟩ := Option.ne_none_iff_exists'.1 ((lives.switched c k at_).1 switched)
  obtain ⟨why, left⟩ := lives.leaving c k gone at_ leaving
  obtain ⟨doing, on, fits⟩ := lives.current c k at_
  have apart : k.current ≠ gone := by
    intro same
    rw [same, left] at on
    cases on
  have stays : (m.threads k.current).exit ≠ .left := by
    rw [(lives.is k.current).exit, on]
    cases doing <;> exact nofun
  unfold Machine.releaseLeaving
  rw [leaving]
  dsimp only
  generalize now : ({ m.threads gone with
    state := if (m.threads gone).state = .running then .ready else (m.threads gone).state
    offCpu := true } : Thread) = th
  have is : th.Is why.rest := by
    have was := lives.is gone
    rw [left] at was
    exact now ▸ was.released
  have idleFor : th.idleFor = (m.threads gone).idleFor := now ▸ rfl
  have pinnedTo : th.pinnedTo = (m.threads gone).pinnedTo := now ▸ rfl
  unfold Machine.stay
  rw [put_ne m th apart, if_neg stays]
  have mine : tell life gone why.rest gone = why.rest := tell_self ..
  have nowhere : why.rest.cpu = none := by
    cases why with
    | turn | slept | exited => rfl
  refine ⟨rfl, tell life gone why.rest, ?_⟩
  refine (?_ : Local m _ life _ c k { k with leaving := none, point := .running } (· = gone)).lives
    lives
  constructor
  case was => exact at_
  case now => exact putCpu_self ..
  case away => exact fun c' other => putCpu_ne _ _ other
  case ring => rfl
  case beside => exact fun t other => tell_ne other
  case before =>
    rintro t rfl c' at'
    rw [left] at at'
    exact (Option.some.inj at').symm
  case after =>
    rintro t rfl c' at'
    rw [mine, nowhere] at at'
    cases at'
  case is =>
    intro t
    show ((m.put gone th).threads t).Is _
    by_cases same : t = gone
    · rw [same, put_self, mine]
      exact is
    · rw [put_ne m th same, tell_ne same]
      exact lives.is t
  case homes =>
    intro t
    show ((m.put gone th).threads t).idleFor = _ ∧ ((m.put gone th).threads t).pinnedTo = _
    by_cases same : t = gone
    · rw [same, put_self]
      exact ⟨idleFor, pinnedTo⟩
    · rw [put_ne m th same]
      exact ⟨rfl, rfl⟩
  case current =>
    refine ⟨doing, (tell_ne apart).trans on, ?_⟩
    rw [switched] at fits
    cases doing <;> first | rfl | cases fits
  case leaving => exact fun t gone => nomatch gone
  case on =>
    rintro t doing₁ rfl on₁
    rw [mine] at on₁
    rw [on₁] at nowhere
    cases nowhere
  case onStill => exact .inr rfl
  case left =>
    rintro t why' rfl left'
    rw [mine] at left'
    rw [left'] at nowhere
    cases nowhere
  case leftStill =>
    exact fun t other gone' => absurd (Option.some.inj (gone'.symm.trans leaving)) other
  case switched => exact ⟨nofun, fun no => absurd rfl no⟩
  case listed =>
    rintro t rfl
    rw [mine, left]
    refine ⟨fun _ => ⟨nofun, nofun⟩, fun _ => ?_⟩
    cases why <;> exact ⟨nofun, nofun⟩
  case home =>
    rintro t h rfl - at'
    rw [mine, nowhere] at at'
    cases at'
  case idle => rfl
  case idles =>
    rintro c' k₁ i rfl at' idle
    rw [mine]
    rcases (lives.idle c' k₁ i at' idle).2.2 with at_ | at_ | at_
    · rw [left] at at_
      cases at_
    · rw [left] at at_
      cases at_
    · rw [left] at at_
      cases at_
      exact .inl rfl

/-! ## Turning -/

/-- Why a thread leaves that was at this. -/
def Doing.leaves : Doing → Why
  | .running => .turn
  | .dozing asleep => .slept asleep
  | .ending | .ended => .exited

/-- The thread of a processor that switches is leaving it. -/
theorem Lives.leave_is (lives : Lives m life) (on : life t = .on c doing) (not_ : doing ≠ .ending) :
    ((m.leave t).threads t).Is (.leaving c doing.leaves) := by
  have is := lives.is t
  rw [on] at is
  unfold Machine.leave
  cases doing with
  | running =>
    rw [if_neg (by rw [is.exit]; exact nofun)]
    exact ⟨is.state, is.offCpu, is.queued, is.exit, is.works, is.freed⟩
  | dozing asleep =>
    rw [if_neg (by rw [is.exit]; exact nofun)]
    exact ⟨is.state, is.offCpu, is.queued, is.exit, is.works, is.freed⟩
  | ending => exact absurd rfl not_
  | ended =>
    have ended : (m.threads t).exit = .ended := is.exit
    rw [if_pos ended, put_self]
    exact ⟨is.state, is.offCpu, is.queued, rfl, is.works, is.freed⟩

theorem leave_ne (m : Machine) (other : t' ≠ t) : (m.leave t).threads t' = m.threads t' := by
  unfold Machine.leave
  split
  · exact put_ne m _ other
  · rfl

theorem leave_home (m : Machine) (t t' : Nat) :
    ((m.leave t).threads t').idleFor = (m.threads t').idleFor ∧
      ((m.leave t).threads t').pinnedTo = (m.threads t').pinnedTo ∧
      ((m.leave t).threads t').state = (m.threads t').state ∧
      ((m.leave t).threads t').offCpu = (m.threads t').offCpu := by
  unfold Machine.leave
  split
  · by_cases same : t' = t
    · rw [same, put_self]
      exact ⟨rfl, rfl, rfl, rfl⟩
    · rw [put_ne m _ same]
      exact ⟨rfl, rfl, rfl, rfl⟩
  · exact ⟨rfl, rfl, rfl, rfl⟩

theorem leave_rest (m : Machine) (t : Nat) : (m.leave t).cpus = m.cpus ∧ (m.leave t).ring = m.ring ∧
    (m.leave t).stopped = m.stopped := by
  unfold Machine.leave
  split <;> exact ⟨rfl, rfl, rfl⟩

theorem Lives.turnTo (lives : Lives m life) (at_ : m.cpus c = some k)
    (here : k.point ≠ .switched) (on : life k.current = .on c doing) (not_ : doing ≠ .ending)
    (off : life next = .off false)
    (home : (m.threads next).idleFor = none ∨ (m.threads next).idleFor = some c) :
    ∃ life', Lives ((m.leave k.current).turnTo c k next) life' := by
  have apart : next ≠ k.current := by
    intro same
    rw [same, on] at off
    cases off
  obtain ⟨cpus, ring, _⟩ := leave_rest m k.current
  have is := lives.leave_is on not_
  have homes := leave_home m k.current
  have rest (t : Nat) (other : t ≠ k.current) := leave_ne m other
  generalize left : m.leave k.current = m₁ at is homes rest cpus ring
  have kept (t : Nat) (other : t ≠ next) : (m₁.turnTo c k next).threads t = m₁.threads t :=
    put_ne m₁ _ other
  have put : (m₁.turnTo c k next).threads next =
      { m₁.threads next with state := .running, offCpu := false } := put_self ..
  refine ⟨tell (tell life k.current (.leaving c doing.leaves)) next (.on c .running), ?_⟩
  generalize told : tell (tell life k.current (.leaving c doing.leaves)) next (.on c .running) = life'
  have new : life' next = .on c .running := told ▸ tell_self ..
  have old : life' k.current = .leaving c doing.leaves :=
    told ▸ (tell_ne apart.symm).trans (tell_self ..)
  have beside (t : Nat) (other : ¬(t = next ∨ t = k.current)) : life' t = life t :=
    told ▸ (tell_ne (not_or.1 other).1).trans (tell_ne (not_or.1 other).2)
  refine (?_ : Local m _ life life' c k
    { k with current := next, leaving := some k.current, point := .switched }
    fun t => t = next ∨ t = k.current).lives lives
  constructor
  case was => exact at_
  case now => exact putCpu_self ..
  case away => exact fun c' other => (putCpu_ne _ _ other).trans (congrFun cpus c')
  case ring => exact ring
  case beside => exact beside
  case before =>
    rintro t (rfl | rfl) c' at'
    · rw [off] at at'
      cases at'
    · rw [on] at at'
      exact (Option.some.inj at').symm
  case after =>
    rintro t (rfl | rfl) c' at'
    · rw [new] at at'
      exact (Option.some.inj at').symm
    · rw [old] at at'
      exact (Option.some.inj at').symm
  case is =>
    intro t
    by_cases same : t = next
    · have was := lives.is next
      rw [off, ← rest next apart] at was
      rw [same, put, new]
      exact ⟨rfl, rfl, was.queued, was.exit, was.works, was.freed⟩
    rw [kept t same]
    by_cases same' : t = k.current
    · rw [same', old]
      exact is
    · rw [beside t (not_or.2 ⟨same, same'⟩), rest t same']
      exact lives.is t
  case homes =>
    intro t
    by_cases same : t = next
    · rw [same, put]
      exact ⟨(homes next).1, (homes next).2.1⟩
    · rw [kept t same]
      exact ⟨(homes t).1, (homes t).2.1⟩
  case current => exact ⟨.running, new, rfl⟩
  case leaving =>
    rintro t ⟨⟩
    exact ⟨_, old⟩
  case on =>
    rintro t doing₁ (rfl | rfl) on₁
    · rfl
    · rw [old] at on₁
      cases on₁
  case onStill => exact .inl (.inr rfl)
  case left =>
    rintro t why (rfl | rfl) left
    · rw [new] at left
      cases left
    · rfl
  case leftStill =>
    intro t _ gone
    exact absurd ((lives.switched c k at_).2 (by rw [gone]; exact nofun)) here
  case switched => exact ⟨fun _ => nofun, fun _ => rfl⟩
  case listed =>
    rintro t (rfl | rfl)
    · rw [new, off]
      exact ⟨fun _ => ⟨nofun, nofun⟩, fun _ => ⟨nofun, nofun⟩⟩
    · rw [old, on]
      exact ⟨fun _ => ⟨nofun, nofun⟩, fun _ => ⟨nofun, nofun⟩⟩
  case home =>
    rintro t h (rfl | rfl) owned -
    · rcases home with none_ | mine
      · rw [none_] at owned
        cases owned
      · exact Option.some.inj (mine.symm.trans owned)
    · exact (lives.home _ h owned).1 c doing on
  case idle => rfl
  case idles =>
    rintro c' k₁ i (rfl | rfl) at' idle
    · have owned := (lives.idle c' k₁ i at' idle).1
      rcases home with none_ | mine
      · rw [none_] at owned
        cases owned
      · rw [new, Option.some.inj (mine.symm.trans owned)]
        exact .inr (.inl rfl)
    · rw [old]
      rcases (lives.idle c' k₁ _ at' idle).2.2 with at_ | at_ | at_
      · rw [on] at at_
        cases at_
      · rw [on] at at_
        cases at_
        exact .inr (.inr rfl)
      · rw [on] at at_
        cases at_

end ReconOS.Sched
