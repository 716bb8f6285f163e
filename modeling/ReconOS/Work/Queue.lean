import ReconOS.Lib.Chain
import ReconOS.Lib.Run

/-! Deferred work: one worker, the queue it takes items from, and the callers that wait for it. -/
namespace ReconOS.Work

open ReconOS.Lib

/-- Where the worker is: with the lock, at the test of its loop; asleep; in an item's function. -/
inductive Worker where
  | looking
  | asleep
  | running (w : Nat)
  deriving DecidableEq

/-- A call of `work_drain`: at the test of its loop, asleep, or back with an answer. -/
inductive Drain where
  | testing (mark : Nat)
  | asleep (mark : Nat)
  | returned (mark : Nat) (ok : Bool)
  deriving DecidableEq

/-- The items by their addresses, none at 0, and what `work_lock` guards; on the side, the items in
the order they were queued, and those begun in the order they were. -/
structure Queue where
  next : Nat → Nat
  fn : Nat → Bool
  queued : Nat → Bool
  head : Nat
  tail : Nat
  worker : Worker
  drains : List Drain
  queuedTotal : Nat
  ranTotal : Nat
  alreadyQueued : Nat
  completed : Nat
  arrived : List Nat
  begun : List Nat

def Worker.wake : Worker → Worker
  | .asleep => .looking
  | w => w

def Drain.wake : Drain → Drain
  | .asleep mark => .testing mark
  | d => d

namespace Queue

variable (q : Queue)

def zeroed : Queue :=
  ⟨fun _ => 0, fun _ => false, fun _ => false, 0, 0, .looking, [], 0, 0, 0, 0, [], []⟩

/-- `work_init`; `fn` is whether there is a function to call. -/
def workInit (w : Nat) (fn : Bool) : Queue :=
  { q with
    next := Function.update q.next w 0
    fn := Function.update q.fn w fn
    queued := Function.update q.queued w false }

/-- `work_schedule`. -/
def workSchedule (w : Nat) : Bool × Queue :=
  if w = 0 ∨ q.fn w = false then (false, q)
  else if q.queued w then (false, { q with alreadyQueued := q.alreadyQueued + 1 })
  else
    let next := Function.update q.next w 0
    (true, { q with
      next := if q.tail = 0 then next else Function.update next q.tail w
      queued := Function.update q.queued w true
      head := if q.tail = 0 then w else q.head
      tail := w
      worker := q.worker.wake
      queuedTotal := q.queuedTotal + 1
      arrived := q.arrived ++ [w] })

/-- `worker_loop` as far as it holds the lock; it may not be able to sleep. -/
def look (sleeps : Bool) : Queue :=
  if q.worker ≠ .looking then q
  else if q.head = 0 then { q with worker := if sleeps then .asleep else .looking }
  else { q with
    next := Function.update q.next q.head 0
    queued := Function.update q.queued q.head false
    head := q.next q.head
    tail := if q.next q.head = 0 then 0 else q.tail
    worker := .running q.head
    begun := q.begun ++ [q.head] }

/-- The item's function has returned. -/
def finish : Queue :=
  match q.worker with
  | .running _ => { q with
    worker := .looking
    drains := q.drains.map Drain.wake
    ranTotal := q.ranTotal + 1
    completed := q.completed + 1 }
  | _ => q

/-- `work_drain`, as far as its mark. -/
def drain : Queue := { q with drains := q.drains ++ [.testing q.queuedTotal] }

/-- The test of its loop; a call that cannot sleep gives up. -/
def test (i : Nat) (sleeps : Bool) : Queue :=
  match q.drains[i]? with
  | some (.testing mark) => { q with
    drains := q.drains.set i (if mark ≤ q.completed then .returned mark true
      else if sleeps then .asleep mark else .returned mark false) }
  | _ => q

end Queue

/-- What happens, in any order: an item's function may do anything here but be the worker. -/
inductive Move where
  | init (w : Nat) (fn : Bool)
  | schedule (w : Nat)
  | look (sleeps : Bool)
  | finish
  | drain
  | test (i : Nat) (sleeps : Bool)

def Queue.step (q : Queue) : Move → Queue
  | .init w fn => q.workInit w fn
  | .schedule w => (q.workSchedule w).2
  | .look sleeps => q.look sleeps
  | .finish => q.finish
  | .drain => q.drain
  | .test i sleeps => q.test i sleeps

/-- An item is not set up anew while it is in the queue. -/
def Queue.Allowed (q : Queue) : Move → Prop
  | .init w _ => q.queued w = false
  | _ => True

instance (q : Queue) (m : Move) : Decidable (q.Allowed m) :=
  match m with
  | .init w _ => inferInstanceAs (Decidable (q.queued w = false))
  | .schedule _ | .look _ | .finish | .drain | .test _ _ => inferInstanceAs (Decidable True)

/-! ## The queue, and who waits -/

/-- How many items are begun and not finished. -/
def Worker.inHand : Worker → Nat
  | .running _ => 1
  | _ => 0

/-- What a call of `work_drain` may count on. -/
def Drain.Fine (total completed : Nat) : Drain → Prop
  | .testing mark => mark ≤ total
  | .asleep mark => completed < mark ∧ mark ≤ total
  | .returned mark ok => ok = true → mark ≤ completed

/-- The list, the flags, the counts and the sleepers, where `l` is what is queued. -/
structure Sound (q : Queue) (l : List Nat) : Prop where
  chain : Chain 0 q.next q.head l
  tail : q.tail = l.getLast?.getD 0
  queued : ∀ w, q.queued w = true ↔ w ∈ l
  order : q.arrived = q.begun ++ l
  total : q.queuedTotal = q.arrived.length
  ran : q.ranTotal = q.completed
  begun : q.begun.length = q.completed + q.worker.inHand
  awake : q.worker = .asleep → l = []
  drains : ∀ d ∈ q.drains, d.Fine q.queuedTotal q.completed

variable {q : Queue} {l : List Nat} {w : Nat}

theorem zeroed_sound : Sound .zeroed [] where
  chain := rfl
  tail := rfl
  queued := fun w => by simp [Queue.zeroed]
  order := rfl
  total := rfl
  ran := rfl
  begun := rfl
  awake := fun _ => rfl
  drains := fun d mem => by cases mem

theorem Sound.absent (sound : Sound q l) (idle : q.queued w = false) : w ∉ l := by
  rw [← sound.queued, idle]
  exact Bool.false_ne_true

theorem Sound.init (sound : Sound q l) (fn : Bool) (idle : q.queued w = false) :
    Sound (q.workInit w fn) l := by
  have absent := sound.absent idle
  refine { sound with chain := ?_, queued := ?_ }
  · apply sound.chain.congr
    intro a mem
    apply Function.update_of_ne
    rintro rfl
    exact absent mem
  · intro a
    change Function.update q.queued w false a = true ↔ a ∈ l
    by_cases same : a = w
    · subst same
      simp [absent]
    · rw [Function.update_of_ne same]
      exact sound.queued a

/-- The list with one more at its end. -/
theorem Sound.linked (sound : Sound q l) (some_ : w ≠ 0) (new : w ∉ l) :
    Chain 0 (if q.tail = 0 then Function.update q.next w 0
      else Function.update (Function.update q.next w 0) q.tail w)
      (if q.tail = 0 then w else q.head) (l ++ [w]) := by
  have tail := sound.tail
  cases last : l.getLast? with
  | none =>
    rw [last, Option.getD_none] at tail
    rw [List.getLast?_eq_none_iff] at last
    subst last
    rw [if_pos tail, if_pos tail]
    exact ⟨rfl, some_, Function.update_self ..⟩
  | some b =>
    rw [last, Option.getD_some] at tail
    have there := sound.chain.ne_null (List.mem_of_getLast? last)
    rw [tail, if_neg there, if_neg there]
    exact sound.chain.append some_ new last

theorem Worker.inHand_wake (worker : Worker) : worker.wake.inHand = worker.inHand := by
  cases worker with
  | looking | asleep | running w => rfl

theorem Drain.Fine.mono {total completed : Nat} {d : Drain} (fine : d.Fine total completed)
    {total' : Nat} (more : total ≤ total') : d.Fine total' completed := by
  cases d with
  | testing mark => exact Nat.le_trans fine more
  | asleep mark => exact ⟨fine.1, Nat.le_trans fine.2 more⟩
  | returned mark ok => exact fine

/-- Whatever it answers, what has a function is in the queue. -/
theorem Sound.schedule (sound : Sound q l) :
    ∃ l', Sound (q.workSchedule w).2 l' ∧ (w ≠ 0 → q.fn w = true → w ∈ l') := by
  unfold Queue.workSchedule
  split
  · rename_i refused
    refine ⟨l, sound, fun some_ fn => ?_⟩
    rw [fn] at refused
    simp [some_] at refused
  · rename_i known
    rw [not_or, Bool.not_eq_false] at known
    split
    · rename_i already
      exact ⟨l, { sound with }, fun _ _ => (sound.queued w).mp already⟩
    · rename_i idle
      have absent := sound.absent (Bool.not_eq_true _ ▸ idle)
      refine ⟨l ++ [w], ?_, fun _ _ => List.mem_append_right l List.mem_cons_self⟩
      constructor
      · exact sound.linked known.1 absent
      · simp
      · intro a
        change Function.update q.queued w true a = true ↔ a ∈ l ++ [w]
        by_cases same : a = w
        · subst same
          simp
        · rw [Function.update_of_ne same, sound.queued]
          simp [same]
      · change q.arrived ++ [w] = q.begun ++ (l ++ [w])
        rw [sound.order, List.append_assoc]
      · change q.queuedTotal + 1 = (q.arrived ++ [w]).length
        rw [sound.total, List.length_append]
        rfl
      · exact sound.ran
      · change q.begun.length = q.completed + q.worker.wake.inHand
        rw [Worker.inHand_wake, sound.begun]
      · intro asleep
        change q.worker.wake = .asleep at asleep
        cases worker : q.worker with
        | looking | asleep | running =>
          rw [worker] at asleep
          cases asleep
      · intro d mem
        exact (sound.drains d mem).mono (Nat.le_succ _)

/-- What is left of the list when its first is taken. -/
theorem Sound.popped {rest : List Nat} (sound : Sound q (w :: rest)) :
    Chain 0 (Function.update q.next q.head 0) (q.next q.head) rest ∧
      (if q.next q.head = 0 then 0 else q.tail) = rest.getLast?.getD 0 := by
  have nodup := sound.chain.nodup
  have tail := sound.tail
  obtain ⟨rfl, -, further⟩ := sound.chain
  obtain ⟨apart, -⟩ := List.nodup_cons.mp nodup
  constructor
  · apply further.congr
    intro a mem
    apply Function.update_of_ne
    rintro rfl
    exact apart mem
  · cases rest with
    | nil => exact if_pos further
    | cons a rest =>
      rw [further.1, if_neg further.2.1, tail, List.getLast?_cons_cons]

theorem Sound.look (sound : Sound q l) (sleeps : Bool) : ∃ l', Sound (q.look sleeps) l' := by
  unfold Queue.look
  split
  · exact ⟨l, sound⟩
  · rename_i looking
    rw [not_not] at looking
    have begun := sound.begun
    rw [looking] at begun
    cases l with
    | nil =>
      have head := sound.chain
      rw [Chain] at head
      rw [if_pos head]
      refine ⟨[], { sound with begun := ?_, awake := fun _ => rfl }⟩
      cases sleeps with
      | true | false => exact begun
    | cons w rest =>
      obtain ⟨here, some_, -⟩ := sound.chain
      have not_null : q.head ≠ 0 := here ▸ some_
      rw [if_neg not_null]
      obtain ⟨chain, tail⟩ := sound.popped
      have nodup := sound.chain.nodup
      exists rest
      constructor
      · exact chain
      · exact tail
      · intro a
        change Function.update q.queued q.head false a = true ↔ a ∈ rest
        by_cases same : a = q.head
        · rw [same, Function.update_self, here]
          simp [(List.nodup_cons.mp nodup).1]
        · rw [Function.update_of_ne same, sound.queued, List.mem_cons]
          rw [here] at same
          simp [same]
      · change q.arrived = q.begun ++ [q.head] ++ rest
        rw [sound.order, here, List.append_assoc]
        rfl
      · exact sound.total
      · exact sound.ran
      · change (q.begun ++ [q.head]).length = q.completed + 1
        rw [List.length_append, begun]
        rfl
      · intro asleep
        cases asleep
      · exact sound.drains

theorem Sound.finish (sound : Sound q l) : Sound q.finish l := by
  unfold Queue.finish
  split
  · rename_i w running
    have begun := sound.begun
    have order := congrArg List.length sound.order
    rw [running] at begun
    rw [List.length_append] at order
    have total := sound.total
    constructor
    · exact sound.chain
    · exact sound.tail
    · exact sound.queued
    · exact sound.order
    · exact total
    · exact congrArg (· + 1) sound.ran
    · exact begun
    · intro asleep
      cases asleep
    · intro d mem
      obtain ⟨d, there, rfl⟩ := List.mem_map.mp mem
      have fine := sound.drains d there
      cases d with
      | testing mark => exact fine
      | asleep mark => exact fine.2
      | returned mark ok => exact fun ok => Nat.le_succ_of_le (fine ok)
  · exact sound

theorem Sound.drain (sound : Sound q l) : Sound q.drain l := by
  refine { sound with drains := ?_ }
  intro d mem
  rcases List.mem_append.mp mem with old | new
  · exact sound.drains d old
  · rw [List.mem_singleton.mp new]
    exact Nat.le_refl _

theorem Sound.test (sound : Sound q l) (i : Nat) (sleeps : Bool) : Sound (q.test i sleeps) l := by
  unfold Queue.test
  split
  · rename_i mark at_i
    have fine := sound.drains _ (List.mem_of_getElem? at_i)
    refine { sound with drains := ?_ }
    intro d mem
    rcases List.mem_or_eq_of_mem_set mem with old | rfl
    · exact sound.drains d old
    · split
      · rename_i enough
        exact fun _ => enough
      · rename_i few
        split
        · exact ⟨Nat.lt_of_not_le few, fine⟩
        · intro ok
          cases ok
  · exact sound

/-- Every move keeps it. -/
theorem Sound.step (sound : Sound q l) (m : Move) (allowed : q.Allowed m) :
    ∃ l', Sound (q.step m) l' := by
  cases m with
  | init w fn => exact ⟨l, sound.init fn allowed⟩
  | schedule w =>
    obtain ⟨l', sound', -⟩ := sound.schedule (w := w)
    exact ⟨l', sound'⟩
  | look sleeps => exact sound.look sleeps
  | finish => exact ⟨l, sound.finish⟩
  | drain => exact ⟨l, sound.drain⟩
  | test i sleeps => exact ⟨l, sound.test i sleeps⟩

theorem Sound.run {moves : List Move} (sound : Sound q l)
    (allowed : Allows Queue.step Queue.Allowed q moves) :
    ∃ l', Sound (run Queue.step q moves) l' :=
  run_keeps (I := fun q => ∃ l, Sound q l) (fun _ m allowed ⟨_, sound⟩ => sound.step m allowed)
    allowed ⟨l, sound⟩

theorem Sound.completed_le (sound : Sound q l) : q.completed ≤ q.begun.length := by
  rw [sound.begun]
  exact Nat.le_add_right _ _

theorem Sound.begun_le (sound : Sound q l) : q.begun.length ≤ q.queuedTotal := by
  rw [sound.total, sound.order, List.length_append]
  exact Nat.le_add_right _ _

/-- Nobody sleeps where there is nothing to wait for. -/
theorem Sound.none_asleep (sound : Sound q l) (all : q.queuedTotal ≤ q.completed) (mark : Nat) :
    Drain.asleep mark ∉ q.drains := by
  intro mem
  obtain ⟨few, within⟩ := sound.drains _ mem
  exact absurd (Nat.le_trans within all) (Nat.not_le_of_lt few)

/-- The list never has an item twice; what was queued is begun in its order, one at a time; and
the worker does not sleep while there is work, or anybody asleep waiting for it. -/
theorem runs_in_order (moves : List Move) (allowed : Allows Queue.step Queue.Allowed .zeroed moves) :
    ∃ l, Chain 0 (run Queue.step .zeroed moves).next (run Queue.step .zeroed moves).head l ∧
      l.Nodup ∧ (∀ w, (run Queue.step .zeroed moves).queued w = true ↔ w ∈ l) ∧
      (run Queue.step .zeroed moves).arrived = (run Queue.step .zeroed moves).begun ++ l ∧
      (run Queue.step .zeroed moves).completed ≤ (run Queue.step .zeroed moves).begun.length ∧
      (run Queue.step .zeroed moves).begun.length ≤ (run Queue.step .zeroed moves).completed + 1 ∧
      ((run Queue.step .zeroed moves).worker = .asleep → l = [] ∧
        ∀ mark, Drain.asleep mark ∉ (run Queue.step .zeroed moves).drains) := by
  obtain ⟨l, sound⟩ := zeroed_sound.run allowed
  refine ⟨l, sound.chain, sound.chain.nodup, sound.queued, sound.order, sound.completed_le, ?_, ?_⟩
  · rw [sound.begun]
    cases (run Queue.step .zeroed moves).worker with
    | looking | asleep => exact Nat.le_succ _
    | running w => exact Nat.le_refl _
  · intro asleep
    have empty := sound.awake asleep
    refine ⟨empty, sound.none_asleep ?_⟩
    have begun := sound.begun
    rw [asleep] at begun
    rw [sound.total, sound.order, empty, List.append_nil, begun]
    exact Nat.le_refl _

/-- Two items, the first queued once more while it waits, and again while it runs. -/
def pair : List Move :=
  [.init 5 true, .init 6 true, .schedule 5, .schedule 6, .schedule 5, .drain, .test 0 true,
    .look true, .schedule 5, .finish, .look true]

theorem runs_in_order_pair :
    let q := run Queue.step .zeroed pair;
    q.arrived = [5, 6, 5] ∧ q.begun = [5, 6] ∧
      ∃ l, Chain 0 q.next q.head l ∧ l.Nodup ∧ (∀ w, q.queued w = true ↔ w ∈ l) ∧
        q.arrived = q.begun ++ l ∧ q.completed ≤ q.begun.length ∧
        q.begun.length ≤ q.completed + 1 ∧
        (q.worker = .asleep → l = [] ∧ ∀ mark, Drain.asleep mark ∉ q.drains) :=
  ⟨by decide, by decide, runs_in_order pair (by decide)⟩

/-! ## What was queued is run -/

theorem arrived_step (q : Queue) (m : Move) : q.arrived <+: (q.step m).arrived := by
  cases m with
  | init w fn | drain => exact List.prefix_refl _
  | schedule w =>
    rw [Queue.step, Queue.workSchedule]
    split
    · exact List.prefix_refl _
    · split
      · exact List.prefix_refl _
      · exact List.prefix_append _ _
  | look sleeps =>
    rw [Queue.step, Queue.look]
    split
    · exact List.prefix_refl _
    · split
      · exact List.prefix_refl _
      · exact List.prefix_refl _
  | finish =>
    rw [Queue.step, Queue.finish]
    split
    · exact List.prefix_refl _
    · exact List.prefix_refl _
  | test i sleeps =>
    rw [Queue.step, Queue.test]
    split
    · exact List.prefix_refl _
    · exact List.prefix_refl _

theorem arrived_run (q : Queue) (moves : List Move) :
    q.arrived <+: (run Queue.step q moves).arrived := by
  induction moves generalizing q with
  | nil => exact List.prefix_refl _
  | cons m moves ih => exact (arrived_step q m).trans (ih _)

/-- The items begun first are those that were queued first. -/
theorem Sound.finished {l' : List Nat} {q' : Queue} (sound : Sound q l) (sound' : Sound q' l')
    (later : q.arrived <+: q'.arrived) (done : q.queuedTotal ≤ q'.completed) :
    q.arrived <+: q'.begun.take q'.completed := by
  have begun : q'.begun <+: q'.arrived := by
    rw [sound'.order]
    exact List.prefix_append _ _
  apply List.prefix_of_prefix_length_le later ((List.take_prefix _ _).trans begun)
  rw [List.length_take, Nat.min_eq_left sound'.completed_le, ← sound.total]
  exact done

/-- Whatever `work_schedule` answered, by the time that as many items are finished as had been
queued by then, the item has been run from after the call on. -/
theorem schedule_runs (front back : List Move) (w : Nat) (some_ : w ≠ 0)
    (allowed : Allows Queue.step Queue.Allowed .zeroed (front ++ .schedule w :: back))
    (fn : (run Queue.step .zeroed front).fn w = true)
    (done : ((run Queue.step .zeroed front).step (.schedule w)).queuedTotal ≤
      (run Queue.step .zeroed (front ++ .schedule w :: back)).completed) :
    ∃ j, (run Queue.step .zeroed front).begun.length ≤ j ∧
      j < (run Queue.step .zeroed (front ++ .schedule w :: back)).completed ∧
      (run Queue.step .zeroed (front ++ .schedule w :: back)).begun[j]? = some w := by
  obtain ⟨first, rest⟩ := (allows_append _ _ _).mp allowed
  obtain ⟨l, sound⟩ := zeroed_sound.run first
  obtain ⟨l', sound', there⟩ := sound.schedule (w := w)
  obtain ⟨l'', sound''⟩ := sound'.run rest.2
  rw [run_append] at done ⊢
  have finished := sound'.finished sound'' (arrived_run _ back) done
  have same : ((run Queue.step .zeroed front).workSchedule w).2.begun =
      (run Queue.step .zeroed front).begun := by
    unfold Queue.workSchedule
    split
    · rfl
    · split
      · rfl
      · rfl
  obtain ⟨i, at_i⟩ := List.mem_iff_getElem?.mp (there some_ fn)
  rw [sound'.order, same] at finished
  exists (run Queue.step .zeroed front).begun.length + i
  obtain ⟨after, whole⟩ := finished
  have at_j : (List.take (run Queue.step ((run Queue.step .zeroed front).workSchedule w).2
      back).completed (run Queue.step ((run Queue.step .zeroed front).workSchedule w).2
      back).begun)[(run Queue.step .zeroed front).begun.length + i]? = some w := by
    rw [← whole, List.getElem?_append_left, List.getElem?_append_right (Nat.le_add_right _ _),
      Nat.add_sub_cancel_left, at_i]
    rw [List.length_append]
    exact Nat.add_lt_add_left (List.getElem?_eq_some_iff.mp at_i).1 _
  rw [List.getElem?_take] at at_j
  split at at_j
  · rename_i less
    exact ⟨Nat.le_add_right _ _, less, at_j⟩
  · cases at_j

/-- An item whose function queues it again, and a wait for it. -/
def again : List Move :=
  [.init 5 true, .schedule 5, .drain, .test 0 true, .look true, .schedule 5, .finish, .test 0 true,
    .look true, .finish]

theorem schedule_runs_again :
    ∃ j, 1 ≤ j ∧ j < 2 ∧ (run Queue.step .zeroed again).begun[j]? = some 5 :=
  schedule_runs [.init 5 true, .schedule 5, .drain, .test 0 true, .look true]
    [.finish, .test 0 true, .look true, .finish] 5 (by decide) (by decide) rfl (by decide)

/-! ## Who waits for it -/

def Drain.mark : Drain → Nat
  | .testing mark | .asleep mark | .returned mark _ => mark

theorem wake_mark (d : Drain) : d.wake.mark = d.mark := by
  cases d with
  | testing mark | asleep mark | returned mark ok => rfl

/-- A call keeps the mark it began with. -/
theorem marks_step (q : Queue) (m : Move) {i mark : Nat}
    (at_i : (q.drains.map Drain.mark)[i]? = some mark) :
    ((q.step m).drains.map Drain.mark)[i]? = some mark := by
  cases m with
  | init w fn => exact at_i
  | schedule w =>
    rw [Queue.step, Queue.workSchedule]
    split
    · exact at_i
    · split
      · exact at_i
      · exact at_i
  | look sleeps =>
    rw [Queue.step, Queue.look]
    split
    · exact at_i
    · split
      · exact at_i
      · exact at_i
  | finish =>
    rw [Queue.step, Queue.finish]
    split
    · have same : Drain.mark ∘ Drain.wake = Drain.mark := funext wake_mark
      rw [List.map_map, same]
      exact at_i
    · exact at_i
  | drain =>
    change ((q.drains ++ [Drain.testing q.queuedTotal]).map Drain.mark)[i]? = some mark
    rw [List.map_append, List.getElem?_append_left (List.getElem?_eq_some_iff.mp at_i).1]
    exact at_i
  | test k sleeps =>
    rw [Queue.step, Queue.test]
    split
    · rename_i mark' at_k
      have same : (if mark' ≤ q.completed then Drain.returned mark' true
          else if sleeps then .asleep mark' else .returned mark' false).mark = mark' := by
        split
        · rfl
        · split
          · rfl
          · rfl
      rw [List.map_set, same]
      by_cases here : k = i
      · subst here
        rw [List.getElem?_set_self (List.getElem?_eq_some_iff.mp at_i).1]
        rw [List.getElem?_map, at_k] at at_i
        exact at_i
      · rw [List.getElem?_set_ne here]
        exact at_i
    · exact at_i

theorem marks_run {q : Queue} {moves : List Move} {i mark : Nat}
    (at_i : (q.drains.map Drain.mark)[i]? = some mark) :
    ((run Queue.step q moves).drains.map Drain.mark)[i]? = some mark :=
  run_always (I := fun q => (q.drains.map Drain.mark)[i]? = some mark)
    (fun q m => marks_step q m) moves at_i

/-- The worker is in an item's function, or about to look for one. -/
def Move.ofWorker : Move → Bool
  | .look _ | .finish => true
  | _ => false

theorem finish_counts (running : q.worker = .running w) :
    (q.step .finish).completed = q.completed + 1 ∧ (q.step .finish).queuedTotal = q.queuedTotal := by
  rw [Queue.step, Queue.finish, running]
  exact ⟨rfl, rfl⟩

theorem look_takes (looking : q.worker = .looking) (some_ : q.head ≠ 0) :
    (q.step (.look true)).worker = .running q.head ∧
      (q.step (.look true)).completed = q.completed ∧
      (q.step (.look true)).queuedTotal = q.queuedTotal := by
  rw [Queue.step, Queue.look, if_neg (not_not.mpr looking), if_neg some_]
  exact ⟨rfl, rfl, rfl⟩

/-- Left to itself, the worker finishes everything that is queued; the induction is on how much
there is. -/
theorem served (left : Nat) : ∀ {q : Queue} {l : List Nat}, Sound q l →
    q.queuedTotal - q.completed = left → ∃ more : List Move, (∀ m ∈ more, m.ofWorker = true) ∧
      Allows Queue.step Queue.Allowed q more ∧
      (run Queue.step q more).queuedTotal = q.queuedTotal ∧
      (run Queue.step q more).completed = q.queuedTotal := by
  induction left with
  | zero =>
    intro q l sound none
    have within := Nat.le_trans sound.completed_le sound.begun_le
    refine ⟨[], by simp, trivial, rfl, ?_⟩
    change q.completed = q.queuedTotal
    omega
  | succ left ih =>
    intro q l sound some_
    cases worker : q.worker with
    | running w =>
      obtain ⟨one, same⟩ := finish_counts worker
      obtain ⟨more, own, allowed, total, all⟩ := ih sound.finish (by
        change (q.step .finish).queuedTotal - (q.step .finish).completed = left
        omega)
      refine ⟨.finish :: more, ?_, ⟨trivial, allowed⟩, total.trans same, all.trans same⟩
      intro m mem
      rcases List.mem_cons.mp mem with rfl | mem
      · rfl
      · exact own m mem
    | looking =>
      have begun := sound.begun
      rw [worker] at begun
      have head : q.head ≠ 0 := by
        intro null
        cases l with
        | nil =>
          have total := sound.total
          rw [sound.order, List.append_nil, begun] at total
          rw [total] at some_
          exact absurd some_ (by change q.completed - q.completed ≠ left + 1; omega)
        | cons a rest => exact sound.chain.2.1 (sound.chain.1.symm.trans null)
      obtain ⟨runs, kept, same⟩ := look_takes worker head
      obtain ⟨l', sound'⟩ := sound.look true
      obtain ⟨one, same'⟩ := finish_counts runs
      obtain ⟨more, own, allowed, total, all⟩ := ih sound'.finish (by
        change ((q.step (.look true)).step .finish).queuedTotal -
          ((q.step (.look true)).step .finish).completed = left
        omega)
      have same'' := same'.trans same
      refine ⟨.look true :: .finish :: more, ?_, ⟨trivial, trivial, allowed⟩, total.trans same'',
        all.trans same''⟩
      intro m mem
      rcases List.mem_cons.mp mem with rfl | mem
      · rfl
      · rcases List.mem_cons.mp mem with rfl | mem
        · rfl
        · exact own m mem
    | asleep =>
      have begun := sound.begun
      have total := sound.total
      rw [worker] at begun
      rw [sound.order, sound.awake worker, List.append_nil, begun] at total
      rw [total] at some_
      exact absurd some_ (by change q.completed - q.completed ≠ left + 1; omega)

/-- A call of `work_drain` that answers yes was told so after everything queued before it was run
to its end; and wherever it is asleep, the worker alone goes on until it is woken. -/
theorem drain_waits (front back : List Move)
    (allowed : Allows Queue.step Queue.Allowed .zeroed (front ++ .drain :: back)) :
    (∀ mark, (run Queue.step .zeroed (front ++ .drain :: back)).drains[
        (run Queue.step .zeroed front).drains.length]? = some (.returned mark true) →
      (run Queue.step .zeroed front).arrived <+:
        (run Queue.step .zeroed (front ++ .drain :: back)).begun.take
          (run Queue.step .zeroed (front ++ .drain :: back)).completed) ∧
    ∃ more : List Move, (∀ m ∈ more, m.ofWorker = true) ∧ ∀ mark, Drain.asleep mark ∉
      (run Queue.step .zeroed (front ++ .drain :: back ++ more)).drains := by
  obtain ⟨first, rest⟩ := (allows_append _ _ _).mp allowed
  obtain ⟨l, sound⟩ := zeroed_sound.run first
  obtain ⟨l', sound'⟩ := zeroed_sound.run allowed
  constructor
  · intro mark at_i
    have later : (run Queue.step .zeroed front).arrived <+:
        (run Queue.step .zeroed (front ++ .drain :: back)).arrived := by
      rw [run_append]
      exact arrived_run _ _
    apply sound.finished sound' later
    -- the mark is the count of arrivals when the call began
    have began : ((run Queue.step .zeroed front).drain.drains.map Drain.mark)[
        (run Queue.step .zeroed front).drains.length]? =
        some (run Queue.step .zeroed front).queuedTotal := by
      simp [Queue.drain, Drain.mark]
    have kept := @marks_run _ back _ _ began
    have whole : (run Queue.step .zeroed (front ++ .drain :: back)) =
        run Queue.step (run Queue.step .zeroed front).drain back := by
      rw [run_append]
      rfl
    rw [← whole, List.getElem?_map, at_i] at kept
    have mark_eq : mark = (run Queue.step .zeroed front).queuedTotal := Option.some.inj kept
    rw [← mark_eq]
    exact sound'.drains _ (List.mem_of_getElem? at_i) rfl
  · obtain ⟨more, own, allowed', total, all⟩ := served _ sound' rfl
    obtain ⟨l'', sound''⟩ := sound'.run allowed'
    refine ⟨more, own, ?_⟩
    rw [run_append]
    apply sound''.none_asleep
    rw [total, all]

theorem drain_waits_again : [5] <+: (run Queue.step .zeroed again).begun.take 2 :=
  (drain_waits [.init 5 true, .schedule 5]
    [.test 0 true, .look true, .schedule 5, .finish, .test 0 true, .look true, .finish]
    (by decide)).1 1 (by decide)

end ReconOS.Work
