import ReconOS.Processes.Course

/-! Every process through its life, whatever the others do. -/
namespace ReconOS.Processes

variable {w w' : World} {i j : Slot} {q : Process} {b : Account} {t : Nat} {th th' : Thread}
  {id id' : UInt32} {fd : Fin fdsMax} {code : Int}

/-! ## Looking up -/

/-- The one entry that there is of a kind is the first. -/
theorem first_eq {T : Table} {q : Process → Bool} (there : q (T.procs i) = true)
    (only : ∀ j, q (T.procs j) = true → j = i) : T.first q = some i := by
  unfold Table.first
  cases found : (List.finRange processMax).find? fun j => q (T.procs j) with
  | none => exact absurd there (List.find?_eq_none.1 found i (List.mem_finRange i))
  | some j => exact congrArg some (only j (List.find?_some (p := fun j => q (T.procs j)) found))

theorem first_holds {T : Table} {q : Process → Bool} (found : T.first q = some i) :
    q (T.procs i) = true := List.find?_some (p := fun i => q (T.procs i)) found

/-! ## The threads of a process -/

def World.crew (w : World) (id : UInt32) : List Thread :=
  w.threads.filter fun th => decide (th.link.countedBy = id)

theorem mem_crew_of (mem : th ∈ w.threads) : th ∈ w.crew th.link.countedBy :=
  List.mem_filter.2 ⟨mem, decide_eq_true rfl⟩

/-- A thread among those of its process, and what becomes of them with it. -/
theorem crew_split (at_ : w.threads[t]? = some th) (id_ : th.link.countedBy = id) :
    ∃ before after, w.crew id = before ++ th :: after ∧
      ∀ th', th'.link.countedBy = id → ∀ threads : List Thread, threads = w.threads.set t th' →
        threads.filter (fun th => decide (th.link.countedBy = id)) = before ++ th' :: after ∧
        ∀ id', id' ≠ id → threads.filter (fun th => decide (th.link.countedBy = id')) = w.crew id' := by
  obtain ⟨less, get⟩ := List.getElem?_eq_some_iff.1 at_
  have was : w.threads = w.threads.take t ++ th :: w.threads.drop (t + 1) := by
    rw [← get, ← List.drop_eq_getElem_cons less, List.take_append_drop]
  have set (th' : Thread) : w.threads.set t th' = w.threads.take t ++ th' :: w.threads.drop (t + 1) :=
    List.set_eq_take_append_cons_drop.trans (if_pos less)
  generalize w.threads.take t = front at was set
  generalize w.threads.drop (t + 1) = back at was set
  refine ⟨front.filter fun th => decide (th.link.countedBy = id),
    back.filter fun th => decide (th.link.countedBy = id), ?_, ?_⟩
  · unfold World.crew
    rw [was, List.filter_append,
      List.filter_cons_of_pos (p := fun th : Thread => decide (th.link.countedBy = id))
      (decide_eq_true id_)]
  · rintro th' id' threads rfl
    rw [set, List.filter_append,
      List.filter_cons_of_pos (p := fun th : Thread => decide (th.link.countedBy = id))
      (decide_eq_true id')]
    refine ⟨rfl, fun other differs => ?_⟩
    have not_ (x : Thread) (counted : x.link.countedBy = id) :
        ¬decide (x.link.countedBy = other) = true := by
      rw [counted]
      exact fun same => differs (of_decide_eq_true same).symm
    unfold World.crew
    rw [was, List.filter_append, List.filter_append,
      List.filter_cons_of_neg (p := fun th : Thread => decide (th.link.countedBy = other)) (not_ th' id'),
      List.filter_cons_of_neg (p := fun th : Thread => decide (th.link.countedBy = other)) (not_ th id_)]

/-! ## All processes -/

/-- Every process in the table is as it should be, each number is one process's, and a process that
is not there any more came to its end. -/
structure Holds (w : World) : Prop where
  good : ∀ i, (w.table.procs i).state ≠ .free →
    Good i (w.table.procs i) (w.accounts (w.table.procs i).id) (w.crew (w.table.procs i).id)
  ids : ∀ i j, (w.table.procs i).state ≠ .free → (w.table.procs j).state ≠ .free →
    (w.table.procs i).id = (w.table.procs j).id → i = j
  numbers : ∀ i, (w.table.procs i).state ≠ .free →
    (w.table.procs i).id ≠ 0 ∧ (w.table.procs i).id ∈ w.made
  gone : ∀ id ∈ w.made, (∀ i, (w.table.procs i).state ≠ .free → (w.table.procs i).id ≠ id) →
    Gone (w.accounts id) (w.crew id)
  new : ∀ id, id ∉ w.made → w.accounts id = .blank ∧ w.crew id = []
  strays : w.strays = 0

/-- What is done to one process and its threads. -/
theorem Holds.change (holds : Holds w) (used : (w.table.procs i).state ≠ .free)
    (id : q.id = (w.table.procs i).id)
    (table : w'.table.procs = Function.update w.table.procs i q)
    (accounts : w'.accounts = Function.update w.accounts (w.table.procs i).id b)
    (crew : ∀ id, id ≠ (w.table.procs i).id → w'.crew id = w.crew id) (made : w'.made = w.made)
    (strays : w'.strays = w.strays)
    (now : q.state ≠ .free ∧ Good i q b (w'.crew (w.table.procs i).id) ∨
      q.state = .free ∧ Gone b (w'.crew (w.table.procs i).id)) : Holds w' := by
  have here : w'.table.procs i = q := by rw [table, Function.update_self]
  have there (j : Slot) (other : j ≠ i) : w'.table.procs j = w.table.procs j := by
    rw [table, Function.update_of_ne other]
  have free (j : Slot) (still : (w'.table.procs j).state ≠ .free) :
      (w.table.procs j).state ≠ .free ∧ (w'.table.procs j).id = (w.table.procs j).id := by
    by_cases same : j = i
    · rw [same, here]
      exact ⟨used, id⟩
    · rw [there j same] at still ⊢
      exact ⟨still, rfl⟩
  constructor
  case good =>
    intro j still
    by_cases same : j = i
    · rw [same, here] at still ⊢
      rw [id, accounts, Function.update_self]
      cases now with
      | inl good => exact good.2
      | inr gone => exact absurd gone.1 still
    · have was := (free j still).1
      rw [there j same]
      have other : (w.table.procs j).id ≠ (w.table.procs i).id := fun eq => same (holds.ids j i was used eq)
      rw [accounts, Function.update_of_ne other, crew _ other]
      exact holds.good j was
  case ids =>
    intro j k usedJ usedK same
    obtain ⟨wasJ, idJ⟩ := free j usedJ
    obtain ⟨wasK, idK⟩ := free k usedK
    rw [idJ, idK] at same
    exact holds.ids j k wasJ wasK same
  case numbers =>
    intro j still
    obtain ⟨was, same⟩ := free j still
    rw [same, made]
    exact holds.numbers j was
  case gone =>
    intro number mem none_
    rw [made] at mem
    by_cases same : number = (w.table.procs i).id
    · rw [same, accounts, Function.update_self]
      cases now with
      | inl good =>
        refine absurd ?_ (none_ i (here ▸ good.1))
        rw [here, id, same]
      | inr gone => exact gone.2
    · rw [accounts, Function.update_of_ne same, crew _ same]
      refine holds.gone number mem fun j was eq => ?_
      by_cases at_ : j = i
      · exact same (at_ ▸ eq.symm)
      · exact none_ j (by rw [there j at_]; exact was) (by rw [there j at_]; exact eq)
  case new =>
    intro number fresh
    rw [made] at fresh
    have other : number ≠ (w.table.procs i).id := by
      rintro rfl
      exact fresh (holds.numbers i used).2
    rw [accounts, Function.update_of_ne other, crew _ other]
    exact holds.new number fresh
  case strays => exact strays.trans holds.strays

/-- A thread that has not been freed has its process in the table. -/
theorem Holds.place (holds : Holds w) (mem : th ∈ w.crew id) (there : th.phase ≠ .gone) :
    ∃ i, (w.table.procs i).state ≠ .free ∧ (w.table.procs i).id = id := by
  by_contra nowhere
  have none_ (i : Slot) (used : (w.table.procs i).state ≠ .free) : (w.table.procs i).id ≠ id :=
    fun same => nowhere ⟨i, used, same⟩
  by_cases made : id ∈ w.made
  · exact there ((holds.gone id made none_).crew th mem)
  · rw [(holds.new id made).2] at mem
    cases mem

/-- The state of a process that has a thread, and where the thread is among them. -/
theorem Holds.find (holds : Holds w) (at_ : w.threads[t]? = some th) (there : th.phase ≠ .gone) :
    ∃ i, (w.table.procs i).state ≠ .free ∧ (w.table.procs i).id = th.link.countedBy ∧
      Good i (w.table.procs i) (w.accounts (w.table.procs i).id) (w.crew (w.table.procs i).id) := by
  obtain ⟨i, used, id⟩ := holds.place (mem_crew_of (List.mem_of_getElem? at_)) there
  exact ⟨i, used, id, holds.good i used⟩

/-! ## Each event -/

theorem firstFailure_zero {codes : List Int} (zeros : ∀ code ∈ codes, code = 0) :
    firstFailure codes = 0 := by
  unfold firstFailure
  rw [List.find?_eq_none.2 fun code mem => by simp [zeros code mem]]
  rfl

theorem Holds.start : Holds .boot := by
  constructor
  case good => exact fun i used => absurd rfl used
  case ids => exact fun i j used => absurd rfl used
  case numbers => exact fun i used => absurd rfl used
  case gone => exact fun id mem => absurd mem List.not_mem_nil
  case new => exact fun id _ => ⟨rfl, rfl⟩
  case strays => rfl

theorem Holds.create (holds : Holds w) (nonzero : w.table.nextId ≠ 0)
    (fresh : w.table.nextId ∉ w.made) : Holds w.create := by
  unfold World.create Table.create
  split
  · exact holds
  rename_i i T made
  split at made
  · cases made
  rename_i found
  cases made
  have free : (w.table.procs i).state = .free := of_decide_eq_true (first_holds found)
  have here : (Function.update w.table.procs i
      { Process.zero with state := .running, id := w.table.nextId }) i =
        { Process.zero with state := .running, id := w.table.nextId } := Function.update_self ..
  have there (j : Slot) (other : j ≠ i) : (Function.update w.table.procs i
      { Process.zero with state := .running, id := w.table.nextId }) j = w.table.procs j :=
    Function.update_of_ne other ..
  have cases_ (j : Slot) (used : ((Function.update w.table.procs i
      { Process.zero with state := .running, id := w.table.nextId }) j).state ≠ .free) :
      j = i ∨ j ≠ i ∧ (w.table.procs j).state ≠ .free := by
    by_cases same : j = i
    · exact .inl same
    · rw [there j same] at used
      exact .inr ⟨same, used⟩
  have other (j : Slot) (used : (w.table.procs j).state ≠ .free) :
      (w.table.procs j).id ≠ w.table.nextId := by
    intro same
    exact fresh (same ▸ (holds.numbers j used).2)
  constructor
  case good =>
    intro j used
    dsimp only [Table.set] at used ⊢
    rcases cases_ j used with rfl | ⟨away, was⟩
    · rw [here]
      obtain ⟨blank, none_⟩ := holds.new _ fresh
      show Good j _ (w.accounts w.table.nextId) (w.crew w.table.nextId)
      rw [blank, none_]
      exact good_created j w.table.nextId
    · rw [there j away]
      exact holds.good j was
  case ids =>
    intro j k usedJ usedK same
    dsimp only [Table.set] at usedJ usedK same
    rcases cases_ j usedJ with rfl | ⟨awayJ, wasJ⟩
    · rcases cases_ k usedK with rfl | ⟨awayK, wasK⟩
      · rfl
      · rw [here, there k awayK] at same
        exact absurd same.symm (other k wasK)
    · rcases cases_ k usedK with rfl | ⟨awayK, wasK⟩
      · rw [here, there j awayJ] at same
        exact absurd same (other j wasJ)
      · rw [there j awayJ, there k awayK] at same
        exact holds.ids j k wasJ wasK same
  case numbers =>
    intro j used
    dsimp only [Table.set] at used ⊢
    rcases cases_ j used with rfl | ⟨away, was⟩
    · rw [here]
      exact ⟨nonzero, List.mem_cons_self ..⟩
    · rw [there j away]
      exact ⟨(holds.numbers j was).1, List.mem_cons_of_mem _ (holds.numbers j was).2⟩
  case gone =>
    intro id mem none_
    dsimp only [Table.set] at none_
    cases List.mem_cons.1 mem with
    | inl new =>
      refine absurd ?_ (none_ i (by rw [here]; exact ProcessState.noConfusion))
      rw [here, new]
    | inr old =>
      refine holds.gone id old fun j used same => ?_
      have away : j ≠ i := by
        rintro rfl
        exact used free
      exact none_ j (by rw [there j away]; exact used) (by rw [there j away]; exact same)
  case new => exact fun id new => holds.new id fun mem => new (List.mem_cons_of_mem _ mem)
  case strays => exact holds.strays

theorem Holds.attach (holds : Holds w) (running : (w.table.procs i).state = .running) :
    Holds (w.attach i) := by
  have used : (w.table.procs i).state ≠ .free := by
    rw [running]
    exact ProcessState.noConfusion
  have crew (id : UInt32) : (w.attach i).crew id = w.crew id ++
      if (w.table.procs i).id = id then
        [⟨⟨(w.table.procs i).id, (w.table.procs i).id⟩, .living⟩] else [] := by
    unfold World.crew World.attach
    dsimp only
    rw [List.filter_append]
    refine congrArg _ ?_
    unfold Table.attach
    dsimp only
    by_cases same : (w.table.procs i).id = id
    · rw [if_pos same]
      exact List.filter_cons_of_pos (decide_eq_true same)
    · rw [if_neg same]
      exact List.filter_cons_of_neg fun yes => same (of_decide_eq_true yes)
  have mine := crew (w.table.procs i).id
  rw [if_pos rfl] at mine
  refine holds.change (i := i) (b := w.accounts (w.table.procs i).id)
    (q := { w.table.procs i with
      threads := (w.table.procs i).threads + 1, unreaped := (w.table.procs i).unreaped + 1 })
    used rfl rfl ?_ ?_ rfl rfl (.inl ⟨used, ?_⟩)
  · exact (Function.update_eq_self ..).symm
  · intro id other
    rw [crew, if_neg (Ne.symm other), List.append_nil]
  · rw [mine]
    exact (holds.good i used).attach running

/-- What is done to a process that has not ended, but to its threads. -/
theorem Holds.within {f : Process → Process} (holds : Holds w)
    (same : ∀ p, (f p).state = p.state ∧ (f p).id = p.id ∧ (f p).threads = p.threads ∧
      (f p).unreaped = p.unreaped ∧ (f p).exitCode = p.exitCode ∧ (f p).space = p.space) (i : Slot) :
    Holds (w.whileRunning i f) := by
  unfold World.whileRunning
  split
  swap
  · exact holds
  rename_i running
  have used : (w.table.procs i).state ≠ .free := by
    rw [running]
    exact ProcessState.noConfusion
  obtain ⟨state, id, threads, unreaped, exitCode, space⟩ := same (w.table.procs i)
  have good := holds.good i used
  refine holds.change (i := i) (q := f (w.table.procs i)) (b := w.accounts (w.table.procs i).id) used
    id rfl (Function.update_eq_self ..).symm (fun _ _ => rfl) rfl rfl (.inl ⟨state ▸ used, ?_⟩)
  exact good.within running ⟨state, id, threads, unreaped, exitCode⟩
    ⟨space.trans good.space.1, good.space.2⟩ ⟨rfl, rfl⟩

theorem install_same (p : Process) (file : Nat) : (p.install file).state = p.state ∧
    (p.install file).id = p.id ∧ (p.install file).threads = p.threads ∧
    (p.install file).unreaped = p.unreaped ∧ (p.install file).exitCode = p.exitCode ∧
    (p.install file).space = p.space := by
  unfold Process.install
  split <;> exact ⟨rfl, rfl, rfl, rfl, rfl, rfl⟩

theorem Holds.setSpace (holds : Holds w) (i : Slot) (space : Nat) : Holds (w.setSpace i space) := by
  unfold World.setSpace
  dsimp only
  split
  swap
  · exact holds
  rename_i fits
  obtain ⟨running, none_⟩ := fits
  have used : (w.table.procs i).state ≠ .free := by
    rw [running]
    exact ProcessState.noConfusion
  have good := holds.good i used
  refine holds.change (i := i) (q := { w.table.procs i with space := some space })
    (b := { w.accounts (w.table.procs i).id with given := some space }) used rfl rfl rfl
    (fun _ _ => rfl) rfl rfl (.inl ⟨used, ?_⟩)
  exact good.within running ⟨rfl, rfl, rfl, rfl, rfl⟩ ⟨rfl, good.space.2⟩ ⟨rfl, rfl⟩

theorem Holds.exit (holds : Holds w) (at_ : w.threads[t]? = some th) (lives : th.phase = .living)
    (code : Int) : Holds (w.exit t th code) := by
  obtain ⟨i, used, id, good⟩ := holds.find at_ (by rw [lives]; exact Phase.noConfusion)
  obtain ⟨before, after, crew, becomes⟩ := crew_split at_ id.symm
  rw [crew] at good
  have running := good.running_of_living lives
  have link : th.link.process = (w.table.procs i).id := by
    have link := good.links th (by simp)
    rw [lives] at link
    exact link
  have nonzero : th.link.process ≠ 0 := link ▸ (holds.numbers i used).1
  have first : w.table.first (fun p => p.state = .running ∧ p.id = th.link.process) = some i := by
    refine first_eq (by simpa using ⟨running, link.symm⟩) fun j there => ?_
    obtain ⟨runs, same⟩ := of_decide_eq_true there
    exact holds.ids j i (by rw [runs]; exact ProcessState.noConfusion) used (same.trans link)
  have exited := good.exit lives code
  obtain ⟨mine, others⟩ := becomes
    ⟨{ th.link with process := 0 }, endPhase (w.table.procs i) i⟩ id.symm _ rfl
  have state : ((w.table.procs i).threadEnded 0).state =
      if (w.table.procs i).threads - 1 = 0 then .ended else .running := by
    unfold Process.threadEnded
    dsimp only
    rw [running]
  have result : w.exit t th code =
      ⟨w.table.set i ((w.table.procs i).threadEnded 0),
        w.threads.set t ⟨{ th.link with process := 0 }, endPhase (w.table.procs i) i⟩,
        Function.update w.accounts (w.table.procs i).id
          (endAccount (w.table.procs i) (w.accounts (w.table.procs i).id) code),
        w.made, w.strays⟩ := by
    unfold World.exit Table.threadEnded endPhase endAccount
    rw [if_neg nonzero, first]
    dsimp only
    rw [state, ← id]
    by_cases last : (w.table.procs i).threads - 1 = 0
    · rw [if_pos last, if_pos rfl, if_pos last, if_pos last]
      rfl
    · rw [if_neg last, if_neg ProcessState.noConfusion, if_neg last, if_neg last]
      rfl
  rw [result]
  refine holds.change (i := i) (q := (w.table.procs i).threadEnded 0) used rfl rfl rfl others rfl rfl
    (.inl ⟨exited.used, ?_⟩)
  show Good i _ _ (List.filter _ _)
  rw [mine]
  exact exited

theorem Holds.closeNext (holds : Holds w) (at_ : w.threads[t]? = some th)
    (closes : th.phase = .closing i fd) : Holds (w.closeNext t th i fd) := by
  obtain ⟨j, used, id, good⟩ := holds.find at_ (by rw [closes]; exact Phase.noConfusion)
  obtain ⟨before, after, crew, becomes⟩ := crew_split at_ id.symm
  rw [crew] at good
  obtain ⟨same, closed⟩ := good.closeNext closes
  subst same
  obtain ⟨mine, others⟩ := becomes ⟨th.link, Phase.next i fd⟩ id.symm _ rfl
  refine holds.change (i := i) (q := (w.table.procs i).closeFd fd)
    (b := closeAccount (w.table.procs i) (w.accounts (w.table.procs i).id) fd) used rfl rfl rfl
    others rfl (if_pos id) (.inl ⟨used, ?_⟩)
  show Good i _ _ (List.filter _ (w.threads.set t ⟨th.link, Phase.next i fd⟩))
  rw [mine]
  exact closed

theorem Holds.found (holds : Holds w) (at_ : w.threads[t]? = some th) (done : th.phase = .done) :
    Holds (w.setThread t ⟨th.link, .reaping (w.table.byId th.link.countedBy)⟩) := by
  obtain ⟨i, used, id, good⟩ := holds.find at_ (by rw [done]; exact Phase.noConfusion)
  obtain ⟨before, after, crew, becomes⟩ := crew_split at_ id.symm
  rw [crew] at good
  have byId : w.table.byId th.link.countedBy = some i := by
    unfold Table.byId
    rw [if_neg (id ▸ (holds.numbers i used).1)]
    refine first_eq (by simpa using ⟨used, id⟩) fun j there => ?_
    obtain ⟨there, same⟩ := of_decide_eq_true there
    exact holds.ids j i there used (same.trans id.symm)
  rw [byId]
  obtain ⟨mine, others⟩ := becomes ⟨th.link, .reaping (some i)⟩ id.symm _ rfl
  refine holds.change (i := i) (q := w.table.procs i) (b := w.accounts (w.table.procs i).id) used rfl
    (Function.update_eq_self ..).symm (Function.update_eq_self ..).symm others rfl rfl (.inl ⟨used, ?_⟩)
  show Good i _ _ (List.filter _ (w.threads.set t ⟨th.link, .reaping (some i)⟩))
  rw [mine]
  exact good.find done

theorem Holds.reaped {found : Option Slot} (holds : Holds w) (at_ : w.threads[t]? = some th)
    (reaping : th.phase = .reaping found) : Holds (w.reaped t th found) := by
  obtain ⟨i, used, id, good⟩ := holds.find at_ (by rw [reaping]; exact Phase.noConfusion)
  obtain ⟨before, after, crew, becomes⟩ := crew_split at_ id.symm
  rw [crew] at good
  obtain ⟨rfl, outcome⟩ := good.reaped reaping
  obtain ⟨mine, others⟩ := becomes ⟨th.link, .gone⟩ id.symm _ rfl
  have id' : (w.table.procs i).threadReaped.id = (w.table.procs i).id := by
    unfold Process.threadReaped
    dsimp only
    split <;> rfl
  cases outcome with
  | inl freed =>
    obtain ⟨free, ended, gone⟩ := freed
    have space : (w.table.threadReaped i).1 = (w.table.procs i).space := by
      unfold Table.threadReaped
      dsimp only
      rw [free, ended, if_neg ProcessState.noConfusion]
    refine holds.change (i := i) (q := (w.table.procs i).threadReaped)
      (b := { w.accounts (w.table.procs i).id with
        released := (w.accounts (w.table.procs i).id).released +
          (w.table.procs i).space.toList.length }) used id' rfl ?_ others rfl rfl (.inr ⟨free, ?_⟩)
    · unfold World.reaped
      dsimp only
      rw [space]
      rfl
    · show Gone _ (List.filter _ (w.threads.set t ⟨th.link, .gone⟩))
      rw [mine]
      exact gone
  | inr still =>
    obtain ⟨same, good⟩ := still
    have space : (w.table.threadReaped i).1 = none := by
      unfold Table.threadReaped
      dsimp only
      rw [same, if_pos rfl]
    refine holds.change (i := i) (q := (w.table.procs i).threadReaped)
      (b := w.accounts (w.table.procs i).id) used id' rfl ?_ others rfl rfl (.inl ⟨same ▸ used, ?_⟩)
    · unfold World.reaped
      dsimp only
      rw [space]
      rfl
    · show Good i _ _ (List.filter _ (w.threads.set t ⟨th.link, .gone⟩))
      rw [mine]
      exact good

theorem Holds.collect (holds : Holds w) (id : UInt32)
    (fair : ∀ i, (w.table.procs i).state = .ended → (w.table.procs i).id = id →
      (w.table.procs i).unreaped = 0 ∧ ∀ code ∈ (w.accounts id).codes, code = 0) :
    Holds (w.collect id) := by
  unfold World.collect Table.reap
  cases found : w.table.first fun p => p.state = .ended ∧ p.id = id with
  | none => exact holds
  | some i =>
    obtain ⟨ended, rfl⟩ := of_decide_eq_true (first_holds found)
    have used : (w.table.procs i).state ≠ .free := by
      rw [ended]
      exact ProcessState.noConfusion
    have good := holds.good i used
    obtain ⟨none_, zeros⟩ := fair i ended rfl
    have right : ∀ code ∈ (w.accounts (w.table.procs i).id).reported ++ [(w.table.procs i).exitCode],
        code = firstFailure (w.accounts (w.table.procs i).id).codes := by
      intro code mem
      rw [good.reported, good.exitCode, List.nil_append] at mem
      rw [List.mem_singleton.1 mem, firstFailure_zero zeros]
    have gone := good.gone ended (good.unreaped.symm.trans none_) _ right
    exact holds.change (i := i) (q := { w.table.procs i with space := none, state := .free }) used rfl
      rfl rfl (fun _ _ => rfl) rfl rfl (.inr ⟨rfl, gone⟩)

/-- What each event leaves. -/
theorem step_holds (w : World) (event : Event) (fair : w.Fair event) (holds : Holds w) :
    Holds (w.step event) := by
  cases event with
  | create => exact holds.create fair.1 fair.2
  | attach i => exact holds.attach fair
  | install i file => exact holds.within (fun p => install_same p file) i
  | close i fd =>
    exact holds.within (f := fun p => p.closeFd fd) (fun p => ⟨rfl, rfl, rfl, rfl, rfl, rfl⟩) i
  | setSpace i space => exact holds.setSpace i space
  | expectStatus i =>
    exact holds.within (f := fun p => { p with statusWanted := true })
      (fun p => ⟨rfl, rfl, rfl, rfl, rfl, rfl⟩) i
  | exit t code =>
    unfold World.step
    dsimp only
    split
    · exact holds
    · rename_i th at_
      split
      · rename_i lives
        exact holds.exit at_ lives code
      · exact holds
  | closeNext t =>
    unfold World.step
    dsimp only
    split
    · exact holds
    · rename_i th at_
      split
      · rename_i i fd closes
        exact holds.closeNext at_ closes
      all_goals exact holds
  | find t =>
    unfold World.step
    dsimp only
    split
    · exact holds
    · rename_i th at_
      split
      · rename_i i fd closes
        exact absurd closes (fair th at_ i fd)
      · rename_i done
        exact holds.found at_ done
      all_goals exact holds
  | reaped t =>
    unfold World.step
    dsimp only
    split
    · exact holds
    · rename_i th at_
      split
      · rename_i found reaping
        exact holds.reaped at_ reaping
      all_goals exact holds
  | collect id => exact holds.collect id fair

end ReconOS.Processes
