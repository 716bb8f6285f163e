import ReconOS.Lib.Line
import ReconOS.Lib.Run

/-! Semaphores and mutexes: one hold of the guard, or the scheduler running a thread, at a time. -/
namespace ReconOS.Wait

open ReconOS.Lib

/-- What the threads do: one more thread; a thread calls; a thread has the guard, and looks. Whether
it is one that can sleep matters where it finds nothing. -/
inductive Call where
  | spawn
  | enter (i : Nat)
  | look (i : Nat) (sleeps : Bool)
  /-- `semaphore_give`, or `mutex_unlock` of the `i`-th thread. -/
  | done (i : Nat)

/-- A thread with the guard, at the test of the loop: it is about to look. -/
def Looking (l : Line) (i : Nat) : Prop :=
  l.threads[i]? = some .fresh ∨ l.threads[i]? = some .woken

instance (l : Line) (i : Nat) : Decidable (Looking l i) := inferInstanceAs (Decidable (_ ∨ _))

/-- `wait_sleep`, and the caller's loop where it refuses. -/
def sleepOr (l : Line) (i : Nat) (sleeps : Bool) : Line :=
  if sleeps then l.sleep i else l.put i .fresh

/-! ## A count -/

def u32Size : Nat := 0x100000000

/-- `struct semaphore`, with the threads; on the side, the takes that returned and the gives. -/
structure Semaphore where
  count : Nat
  waiters : Line
  taken : Nat
  given : Nat

namespace Semaphore

variable (s : Semaphore)

def made (count : Nat) : Semaphore := ⟨count, ⟨[], []⟩, 0, 0⟩

/-- `semaphore_take`, from where the guard is had. -/
def look (i : Nat) (sleeps : Bool) : Semaphore :=
  if ¬Looking s.waiters i then s
  else if s.count = 0 then { s with waiters := sleepOr s.waiters i sleeps }
  else { s with count := s.count - 1, waiters := s.waiters.put i .out, taken := s.taken + 1 }

/-- `semaphore_give`. -/
def give : Semaphore :=
  { s with count := (s.count + 1) % u32Size, waiters := s.waiters.wakeOne, given := s.given + 1 }

def step : Call → Semaphore
  | .spawn => { s with waiters := s.waiters.spawn }
  | .enter i =>
    if s.waiters.threads[i]? = some .out then { s with waiters := s.waiters.put i .fresh } else s
  | .look i sleeps => s.look i sleeps
  | .done _ => s.give

end Semaphore

/-! ## A lock -/

/-- `struct mutex`, with the threads; on the side, which of them are past `mutex_lock` and not yet
at `mutex_unlock`. -/
structure Mutex where
  owner : Option Nat
  waiters : Line
  inside : List Nat

namespace Mutex

variable (m : Mutex)

def made : Mutex := ⟨none, ⟨[], []⟩, []⟩

/-- `mutex_lock`, from where the guard is had. -/
def look (i : Nat) (sleeps : Bool) : Mutex :=
  if ¬Looking m.waiters i then m
  else if m.owner.isSome then { m with waiters := sleepOr m.waiters i sleeps }
  else { m with owner := some i, waiters := m.waiters.put i .out, inside := i :: m.inside }

/-- `mutex_unlock`. -/
def unlock (i : Nat) : Mutex :=
  { m with owner := none, waiters := m.waiters.wakeOne, inside := m.inside.erase i }

/-- Only a thread that is past `mutex_lock` comes to `mutex_unlock`. -/
def step : Call → Mutex
  | .spawn => { m with waiters := m.waiters.spawn }
  | .enter i =>
    if m.waiters.threads[i]? = some .out then { m with waiters := m.waiters.put i .fresh } else m
  | .look i sleeps => m.look i sleeps
  | .done i =>
    if i ∈ m.inside ∧ m.waiters.threads[i]? = some .out then m.unlock i else m

end Mutex

/-! ## No wake is lost -/

/-- The line, and what there is of what it is for. -/
structure Watched (l : Line) (available : Nat) : Prop where
  ok : l.Ok
  covered : l.Covered available

variable {l : Line} {i available : Nat} {sleeps : Bool}

theorem Watched.spawn (watched : Watched l available) : Watched l.spawn available :=
  ⟨watched.ok.spawn, watched.covered.spawn⟩

theorem Watched.enter (watched : Watched l available) (at_i : l.threads[i]? = some .out) :
    Watched (l.put i .fresh) available :=
  ⟨watched.ok.put at_i (by decide) (by decide), watched.covered.enter at_i⟩

theorem Watched.sleepOr (watched : Watched l 0) (looking : Looking l i) :
    Watched (sleepOr l i sleeps) 0 := by
  refine ⟨?_, Line.covered_none⟩
  unfold Wait.sleepOr
  cases sleeps with
  | true =>
    cases looking with
    | inl fresh => exact watched.ok.sleep fresh (by decide)
    | inr woken => exact watched.ok.sleep woken (by decide)
  | false =>
    cases looking with
    | inl fresh => exact watched.ok.put fresh (by decide) (by decide)
    | inr woken => exact watched.ok.put woken (by decide) (by decide)

theorem Watched.take (watched : Watched l (available + 1)) (looking : Looking l i) :
    Watched (l.put i .out) available := by
  cases looking with
  | inl fresh =>
    exact ⟨watched.ok.put fresh (by decide) (by decide), watched.covered.take fresh⟩
  | inr woken =>
    exact ⟨watched.ok.put woken (by decide) (by decide), watched.covered.take woken⟩

theorem Watched.wakeOne (watched : Watched l available) {more : Nat} (most : more ≤ available + 1) :
    Watched l.wakeOne more :=
  ⟨watched.ok.wakeOne, watched.covered.wakeOne watched.ok most⟩

/-- Who is first in the line looks next. -/
theorem Watched.woken (watched : Watched l available) {rest : List Nat} (line : l.queue = i :: rest) :
    l.wakeOne.queue = rest ∧ l.wakeOne.threads[i]? = some .woken := by
  have queued := (watched.ok.queued i).1 (line ▸ List.mem_cons_self)
  unfold Line.wakeOne
  rw [line]
  exact ⟨rfl, List.getElem?_set_self (Line.less_of_place queued)⟩

def Call.gives : Call → Bool
  | .done _ => true
  | .spawn | .enter _ | .look _ _ => false

theorem Semaphore.given_run (s : Semaphore) (calls : List Call) :
    (run Semaphore.step s calls).given = s.given + calls.countP Call.gives := by
  induction calls generalizing s with
  | nil => rfl
  | cons call rest ih =>
    rw [run, ih, List.countP_cons]
    cases call with
    | spawn => simp [Semaphore.step, Call.gives]
    | enter i =>
      unfold Semaphore.step
      dsimp only
      split <;> simp [Call.gives]
    | look i sleeps =>
      show (s.look i sleeps).given + _ = _
      unfold Semaphore.look
      split
      · simp [Call.gives]
      · split <;> simp [Call.gives]
    | done i =>
      simp only [Semaphore.step, Semaphore.give, Call.gives, if_true]
      omega

/-- The line is watched, and takes and count are what there was and was given, up to the wrap of the
count, and never more. -/
structure Semaphore.Sound (count : Nat) (s : Semaphore) : Prop where
  watched : Watched s.waiters s.count
  within : s.taken + s.count ≤ count + s.given
  balance : (s.taken + s.count) % u32Size = (count + s.given) % u32Size

theorem Semaphore.step_sound {count : Nat} (s : Semaphore) (call : Call) (sound : s.Sound count) :
    (s.step call).Sound count := by
  obtain ⟨watched, within, balance⟩ := sound
  cases call with
  | spawn => exact ⟨watched.spawn, within, balance⟩
  | enter i =>
    unfold Semaphore.step
    dsimp only
    split
    · rename_i at_i
      exact ⟨watched.enter at_i, within, balance⟩
    · exact ⟨watched, within, balance⟩
  | look i sleeps =>
    show (s.look i sleeps).Sound count
    unfold Semaphore.look
    split
    · exact ⟨watched, within, balance⟩
    · rename_i looking
      have looking := Decidable.not_not.1 looking
      split
      · rename_i none_
        rw [none_] at watched
        refine ⟨?_, within, balance⟩
        show Watched _ s.count
        rw [none_]
        exact watched.sleepOr looking
      · rename_i some_
        have more : s.count - 1 + 1 = s.count := by omega
        have same : s.taken + 1 + (s.count - 1) = s.taken + s.count := by omega
        rw [← more] at watched
        exact ⟨watched.take looking, same ▸ within, same ▸ balance⟩
  | done i =>
    have wraps : (s.count + 1) % u32Size ≤ s.count + 1 := Nat.mod_le _ _
    refine ⟨watched.wakeOne wraps, ?_, ?_⟩
    · show s.taken + (s.count + 1) % u32Size ≤ count + (s.given + 1)
      omega
    · show (s.taken + (s.count + 1) % u32Size) % u32Size = (count + (s.given + 1)) % u32Size
      rw [Nat.add_mod_mod, ← Nat.add_assoc, ← Nat.add_assoc, Nat.add_mod, balance, ← Nat.add_mod]

/-- How many a mutex has left to give. -/
def Mutex.free (m : Mutex) : Nat := if m.owner.isSome then 0 else 1

/-- The line is watched, and the thread that is inside is the owner. -/
structure Mutex.Sound (m : Mutex) : Prop where
  watched : Watched m.waiters m.free
  inside : m.inside = m.owner.toList

theorem Mutex.step_sound (m : Mutex) (call : Call) (sound : m.Sound) : (m.step call).Sound := by
  obtain ⟨watched, inside⟩ := sound
  cases call with
  | spawn => exact ⟨watched.spawn, inside⟩
  | enter i =>
    unfold Mutex.step
    dsimp only
    split
    · rename_i at_i
      exact ⟨watched.enter at_i, inside⟩
    · exact ⟨watched, inside⟩
  | look i sleeps =>
    show (m.look i sleeps).Sound
    unfold Mutex.look
    split
    · exact ⟨watched, inside⟩
    · rename_i looking
      have looking := Decidable.not_not.1 looking
      split
      · rename_i held
        have none_ : m.free = 0 := if_pos held
        rw [none_] at watched
        refine ⟨?_, inside⟩
        show Watched _ m.free
        rw [none_]
        exact watched.sleepOr looking
      · rename_i free
        have one : m.free = 0 + 1 := if_neg free
        rw [one] at watched
        refine ⟨watched.take looking, ?_⟩
        show i :: m.inside = [i]
        rw [inside, Option.not_isSome_iff_eq_none.1 free]
        rfl
  | done i =>
    unfold Mutex.step
    dsimp only
    split
    · rename_i leaves
      refine ⟨watched.wakeOne (Nat.le_add_left 1 _), ?_⟩
      show m.inside.erase i = []
      obtain ⟨there, -⟩ := leaves
      rw [inside] at there ⊢
      cases owner : m.owner with
      | none =>
        rw [owner] at there
        cases there
      | some j =>
        rw [owner] at there
        rw [List.mem_singleton.1 there]
        exact List.erase_cons_head ..
    · exact ⟨watched, inside⟩

/-- In every order of the calls: of a semaphore, no more takes return than there were and were
given, and what was given and not taken is in the count, up to its wrap; of a mutex, at most one thread
is inside, and it is the owner; where there is a line and something to be had, as many threads are still
to look as there is of it, or as the line is long; and who gives, or leaves, wakes the first in line. -/
theorem no_wake_is_lost (count : Nat) (calls : List Call) :
    (let s := run Semaphore.step (.made count) calls;
      s.taken ≤ count + s.given ∧
        (0 < s.count → s.waiters.queue ≠ [] →
          min s.count s.waiters.queue.length ≤ s.waiters.woken) ∧
        s.given = calls.countP Call.gives ∧
        (s.taken + s.count) % u32Size = (count + s.given) % u32Size ∧
        ∀ i j rest, s.waiters.queue = j :: rest → (s.step (.done i)).waiters.queue = rest ∧
          (s.step (.done i)).waiters.threads[j]? = some .woken) ∧
    (let m := run Mutex.step .made calls;
      (∀ i ∈ m.inside, ∀ j ∈ m.inside, i = j) ∧
        (m.owner = none → m.waiters.queue ≠ [] → 1 ≤ m.waiters.woken) ∧
        (∀ i, i ∈ m.inside ↔ m.owner = some i) ∧
        ∀ i j rest, i ∈ m.inside → m.waiters.threads[i]? = some .out →
          m.waiters.queue = j :: rest → (m.step (.done i)).owner = none ∧
            (m.step (.done i)).waiters.queue = rest ∧
            (m.step (.done i)).waiters.threads[j]? = some .woken) := by
  have semaphore : (run Semaphore.step (.made count) calls).Sound count :=
    run_always Semaphore.step_sound calls
      ⟨⟨Line.empty_ok, fun line => absurd rfl line⟩, by simp [Semaphore.made], by simp [Semaphore.made]⟩
  have mutex : (run Mutex.step .made calls).Sound :=
    run_always Mutex.step_sound calls ⟨⟨Line.empty_ok, fun line => absurd rfl line⟩, rfl⟩
  constructor
  · refine ⟨Nat.le_of_add_right_le semaphore.within, fun _ line => ?_, ?_, semaphore.balance, ?_⟩
    · exact Nat.le_trans (Nat.min_le_left _ _) (semaphore.watched.covered line)
    · rw [Semaphore.given_run]
      exact Nat.zero_add _
    · intro i j rest line
      exact semaphore.watched.woken line
  · have owner (i : Nat) : i ∈ (run Mutex.step .made calls).inside ↔
        (run Mutex.step .made calls).owner = some i := by
      rw [mutex.inside, Option.mem_toList]
    refine ⟨fun i there j there' => ?_, fun free line => ?_, owner, ?_⟩
    · exact Option.some.inj (((owner i).1 there).symm.trans ((owner j).1 there'))
    · have covered := mutex.watched.covered line
      unfold Mutex.free at covered
      rw [free] at covered
      exact covered
    · intro i j rest there out_ line
      have leaves : (run Mutex.step .made calls).step (.done i) =
          (run Mutex.step .made calls).unlock i := if_pos ⟨there, out_⟩
      rw [leaves]
      exact ⟨rfl, mutex.watched.woken line⟩

end ReconOS.Wait
