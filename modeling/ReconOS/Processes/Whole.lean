import ReconOS.Processes.Lives

/-! The life of a process, as the code means it to be: it ends with its last thread, its descriptors
are closed once each, its entry waits for that and for its threads, and whoever collects it hears of
its first failure. -/
namespace ReconOS.Processes

variable {w : World} {i : Slot} {id : UInt32} {fd : Fin fdsMax}

/-- A process with this number is in the table. -/
def World.There (w : World) (id : UInt32) : Prop :=
  ∃ i, (w.table.procs i).state ≠ .free ∧ (w.table.procs i).id = id

structure Lifecycle (w : World) : Prop where
  ends : ∀ i, (w.table.procs i).state ≠ .free →
    ((w.table.procs i).state = .ended ↔ w.crew (w.table.procs i).id ≠ [] ∧
      ∀ th ∈ w.crew (w.table.procs i).id, th.phase ≠ .living)
  closes : ∀ id ∈ w.made, (w.accounts id).ended = true →
    (∀ th ∈ w.crew id, ∀ i fd, th.phase ≠ .closing i fd) →
    ∀ fd, (w.accounts id).closed fd = ((w.accounts id).opened fd).toList
  atMost : ∀ id ∈ w.made, (w.accounts id).ended = true →
    ∀ fd, (w.accounts id).closed fd = [] ∨
      (w.accounts id).closed fd = ((w.accounts id).opened fd).toList
  strays : w.strays = 0
  kept : ∀ th ∈ w.threads, th.phase ≠ .gone → w.There th.link.countedBy
  closing : ∀ th ∈ w.threads, ∀ i fd, th.phase = .closing i fd →
    (w.table.procs i).state = .ended ∧ (w.table.procs i).id = th.link.countedBy
  space : ∀ id ∈ w.made, (w.There id → (w.accounts id).released = 0) ∧
    (¬w.There id → (w.accounts id).released = (w.accounts id).given.toList.length)
  code : ∀ id, ∀ code ∈ (w.accounts id).reported, code = firstFailure (w.accounts id).codes

theorem living_pos {crew : List Thread} : 0 < living crew ↔ ∃ th ∈ crew, th.phase = .living := by
  unfold living
  rw [List.countP_pos_iff]
  refine exists_congr fun th => and_congr_right fun _ => ?_
  cases th.phase <;> simp [Phase.isLiving]

theorem closers_zero {crew : List Thread} (none_ : ∀ th ∈ crew, ∀ i fd, th.phase ≠ .closing i fd) :
    closers crew = 0 := by
  refine List.countP_eq_zero.2 fun th mem => ?_
  cases at_ : th.phase with
  | closing i fd => exact absurd at_ (none_ th mem i fd)
  | living => exact Bool.false_ne_true
  | done => exact Bool.false_ne_true
  | reaping found => exact Bool.false_ne_true
  | gone => exact Bool.false_ne_true

theorem Closed.each {p : Process} {a : Account} {n : Nat} (closed : Closed p a n)
    (fd : Fin fdsMax) : a.closed fd = [] ∨ a.closed fd = (a.opened fd).toList := by
  have here := closed fd
  split at here
  · exact .inr here.2
  · exact .inl here.2

/-- How far the descriptors of a process that has ended are closed. -/
theorem Good.closed {p : Process} {a : Account} {crew : List Thread} (good : Good i p a crew)
    (ended : p.state = .ended) : ∃ n, Closed p a n := by
  by_cases none_ : closers crew = 0
  · exact ⟨fdsMax, (good.ended ended).2.2.2.2 none_⟩
  · obtain ⟨th, mem, closing⟩ := List.countP_pos_iff.1 (Nat.pos_of_ne_zero none_)
    cases at_ : th.phase with
    | closing j fd => exact ⟨fd.val, (good.closing th mem j fd at_).2⟩
    | living => rw [at_] at closing; cases closing
    | done => rw [at_] at closing; cases closing
    | reaping found => rw [at_] at closing; cases closing
    | gone => rw [at_] at closing; cases closing

/-- A number that was given is a process's in the table, or of one that came to its end. -/
theorem Holds.cases (holds : Holds w) (made : id ∈ w.made) :
    (∃ i, (w.table.procs i).state ≠ .free ∧ (w.table.procs i).id = id) ∨
      Gone (w.accounts id) (w.crew id) := by
  by_cases there : w.There id
  · exact .inl there
  · exact .inr (holds.gone id made fun i used same => there ⟨i, used, same⟩)

/-- A process that has had its end has ended. -/
theorem Good.ended_of {p : Process} {a : Account} {crew : List Thread} (good : Good i p a crew)
    (past : a.ended = true) : p.state = .ended := by
  cases at_ : p.state with
  | ended => rfl
  | free => exact absurd at_ good.used
  | running =>
    rw [(good.running at_).1] at past
    cases past

theorem Holds.lifecycle (holds : Holds w) : Lifecycle w := by
  constructor
  case ends =>
    intro i used
    have good := holds.good i used
    constructor
    · intro ended
      obtain ⟨_, some_, none_, _⟩ := good.ended ended
      refine ⟨some_, fun th mem lives => ?_⟩
      exact absurd none_ (Nat.pos_iff_ne_zero.1 (living_pos.2 ⟨th, mem, lives⟩))
    · intro last
      cases at_ : (w.table.procs i).state with
      | ended => rfl
      | free => exact absurd at_ used
      | running =>
        obtain ⟨th, mem, lives⟩ := living_pos.1 ((good.running at_).2.1 last.1)
        exact absurd lives (last.2 th mem)
  case closes =>
    intro id made past none_ fd
    cases holds.cases made with
    | inl there =>
      obtain ⟨i, used, rfl⟩ := there
      have good := holds.good i used
      have closed := (good.ended (good.ended_of past)).2.2.2.2 (closers_zero none_) fd
      rw [if_pos fd.isLt] at closed
      exact closed.2
    | inr gone => exact gone.closed fd
  case atMost =>
    intro id made past fd
    cases holds.cases made with
    | inl there =>
      obtain ⟨i, used, rfl⟩ := there
      have good := holds.good i used
      obtain ⟨n, closed⟩ := good.closed (good.ended_of past)
      exact closed.each fd
    | inr gone => exact .inr (gone.closed fd)
  case strays => exact holds.strays
  case kept => exact fun th mem there => holds.place (mem_crew_of mem) there
  case closing =>
    intro th mem i fd closing
    obtain ⟨j, used, same⟩ := holds.place (mem_crew_of mem) (by rw [closing]; exact Phase.noConfusion)
    have good := holds.good j used
    have among : th ∈ w.crew (w.table.procs j).id := same ▸ mem_crew_of mem
    obtain ⟨rfl, _⟩ := good.closing th among i fd closing
    refine ⟨?_, same⟩
    cases at_ : (w.table.procs i).state with
    | ended => rfl
    | free => exact absurd at_ used
    | running => exact absurd closing (good.not_closing at_ among i fd)
  case space =>
    intro id made
    constructor
    · rintro ⟨i, used, rfl⟩
      exact (holds.good i used).space.2
    · intro away
      cases holds.cases made with
      | inl there => exact absurd there away
      | inr gone => exact gone.released
  case code =>
    intro id code mem
    by_cases made : id ∈ w.made
    · cases holds.cases made with
      | inl there =>
        obtain ⟨i, used, rfl⟩ := there
        rw [(holds.good i used).reported] at mem
        cases mem
      | inr gone => exact gone.reported code mem
    · rw [(holds.new id made).1] at mem
      cases mem

/-- Every process lives as it should where a process is collected when its threads have been freed
and none of them failed, no number is given twice, and its threads are made while it runs. -/
theorem processes_live (events : List Event)
    (fair : Lib.Allows World.step World.Fair .boot events) :
    Lifecycle (Lib.run World.step .boot events) :=
  (Lib.run_keeps step_holds fair .start).lifecycle

def firstSlot : Slot := ⟨0, Nat.zero_lt_succ _⟩

/-- A process with a file and a space, whose one thread ends, and which is collected. -/
def collected : List Event :=
  [.create, .attach firstSlot, .setSpace firstSlot 5, .install firstSlot 3,
    .expectStatus firstSlot, .exit 0 0] ++ List.replicate fdsMax (.closeNext 0) ++
    [.find 0, .reaped 0, .collect 1]

theorem processes_live_collected : Lifecycle (Lib.run World.step .boot collected) :=
  processes_live collected (by decide +kernel)

/-- A process is collected while its last thread closes its descriptors, and the next process gets
its entry; and a process that failed is collected. -/
def collectedEarly : List Event :=
  [.create, .attach firstSlot, .exit 0 0, .collect 1, .create, .install firstSlot 3,
    .closeNext 0]

def collectedFailing : List Event :=
  [.create, .attach firstSlot, .expectStatus firstSlot, .exit 0 7] ++
    List.replicate fdsMax (.closeNext 0) ++ [.find 0, .reaped 0, .collect 1]

theorem process_collected_early :
    ¬Lifecycle (Lib.run World.step .boot collectedEarly) ∧
      ¬Lifecycle (Lib.run World.step .boot collectedFailing) := by
  constructor
  · intro whole
    have strays : (Lib.run World.step .boot collectedEarly).strays = 1 := by decide +kernel
    rw [whole.strays] at strays
    cases strays
  · intro whole
    have reported : ((Lib.run World.step .boot collectedFailing).accounts 1).reported = [0] := by
      decide +kernel
    have codes : ((Lib.run World.step .boot collectedFailing).accounts 1).codes = [7] := by
      decide +kernel
    have right := whole.code 1 0 (by rw [reported]; exact List.mem_singleton.2 rfl)
    rw [codes] at right
    exact absurd right (by decide)

end ReconOS.Processes
