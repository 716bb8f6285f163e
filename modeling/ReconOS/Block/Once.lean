import ReconOS.Block.Slices
import ReconOS.Lib.Tokens

/-! What every order of the sections keeps: one thread serves, one request is in the driver, and
each request goes there once. -/
namespace ReconOS.Block

open Lib Lib.System

/-! ## Tokens -/

/-- What there is one of: each request, each request's way to the driver, the serving role, and the
driver. -/
inductive Token where
  | request (id : Nat)
  | issue (id : Nat)
  | serving
  | driver

def one (id id' : Nat) : Nat := if id' = id then 1 else 0

/-- How often a request is on the queue. -/
def queued (s : Shared) (id : Nat) : Nat := (s.queue.map Request.id).count id

def inShared (s : Shared) : Token → Nat
  | .request id => queued s id + if (s.done id).isSome then 1 else 0
  | .issue id => queued s id + s.issued.count id
  | .serving => if s.serving then 0 else 1
  | .driver => if s.busy then 0 else 1

namespace Thread

/-- The request that a thread has taken and not yet put down. -/
def carries : Thread → Option Request
  | .submitting r => some r
  | .acquiring _ next | .transferring _ next _ _ | .completing _ next _ => some next
  | _ => none

/-- The request that a thread has in hand for the driver. -/
def brings : Thread → Option Request
  | .submitting r => some r
  | .acquiring _ next => some next
  | _ => none

/-- The request of the thread that works through the queue. -/
def serves : Thread → Option Request
  | .serving r | .acquiring r _ | .transferring r _ _ _ | .completing r _ _ => some r
  | _ => none

def inDriver : Thread → Bool
  | .transferring _ _ _ _ | .flushing => true
  | _ => false

end Thread

def inHand (t : Thread) : Token → Nat
  | .request id => (t.carries.map fun r => one id r.id).getD 0
  | .issue id => (t.brings.map fun r => one id r.id).getD 0
  | .serving => if t.serves.isSome then 1 else 0
  | .driver => if t.inDriver then 1 else 0

def due (s : Shared) : Token → Nat
  | .request id | .issue id => if id < s.submitted then 1 else 0
  | .serving | .driver => 1

/-- A serving thread's own request is on the queue, in its hands, or done; one that returned took
away what its request was marked with. -/
def Settles (s : Shared) : Thread → Prop
  | .serving r => r ∈ s.queue ∨ (s.done r.id).isSome
  | .acquiring r next | .transferring r next _ _ | .completing r next _ =>
    r = next ∨ r ∈ s.queue ∨ (s.done r.id).isSome
  | .returned r status => s.done r.id = some status
  | _ => True

/-! ## The queue -/

variable {dev : Device}

theorem queueInsert_perm (r : Request) (queue : List Request) :
    (queueInsert dev r queue).Perm (r :: queue) := by
  induction queue with
  | nil => exact .refl _
  | cons at_ rest ih =>
    unfold queueInsert
    split
    · exact (ih.cons at_).trans (.swap r at_ rest)
    · exact .refl _

theorem queued_insert (s : Shared) (r : Request) (id : Nat) :
    ((queueInsert dev r s.queue).map Request.id).count id = queued s id + one id r.id := by
  rw [((queueInsert_perm r s.queue).map Request.id).count_eq, List.map_cons, List.count_cons]
  simp [queued, one]

theorem queued_cons {s : Shared} {next : Request} {rest : List Request}
    (front : s.queue = next :: rest) (id : Nat) :
    queued s id = (rest.map Request.id).count id + one id next.id := by
  rw [queued, front, List.map_cons, List.count_cons]
  simp [one]

/-! ## One section -/

variable (e : Around) (s : Shared) (t : Thread)

theorem due_le_one (token : Token) : due s token ≤ 1 := by
  cases token with
  | request | issue => simp only [due]; split <;> omega
  | serving | driver => exact Nat.le_refl 1

variable {s t} in
/-- No token is there twice: with the thread, and in the shared state. -/
theorem budget_one (budget : inShared s + inHand t ≤ due s) (token : Token) :
    inShared s token + inHand t token ≤ 1 :=
  Nat.le_trans (budget token) (due_le_one s token)

theorem act_balance (budget : inShared s + inHand t ≤ due s) :
    due (act dev e s t).1 = due s ∧
      inShared (act dev e s t).1 + inHand (act dev e s t).2 = inShared s + inHand t := by
  have balance {s' : Shared} {t' : Thread} (same : s'.submitted = s.submitted)
      (each : ∀ token, inShared s' token + inHand t' token = inShared s token + inHand t token) :
      due s' = due s ∧ inShared s' + inHand t' = inShared s + inHand t :=
    ⟨funext fun token => by cases token <;> simp only [due, same], funext each⟩
  cases t with
  | submitting r =>
    unfold act
    dsimp only
    split
    all_goals
      refine balance rfl fun token => ?_
      cases token <;> grind [inShared, inHand, queued, queued_insert, Thread.carries, Thread.brings,
        Thread.serves, Thread.inDriver]
  | sleeping r | spinning r =>
    unfold act
    dsimp only
    split
    · exact balance rfl fun token => by cases token <;> rfl
    · exact balance rfl fun token => by cases token <;> grind [inHand, Thread.carries, Thread.brings,
        Thread.serves, Thread.inDriver]
  | serving r =>
    unfold act
    dsimp only
    split
    · have role := budget_one budget .serving
      refine balance rfl fun token => ?_
      cases token <;> grind [inShared, inHand, queued, Thread.carries, Thread.brings, Thread.serves,
        Thread.inDriver]
    · rename_i next rest front
      have taken := queued_cons front
      refine balance rfl fun token => ?_
      cases token <;> grind [inShared, inHand, queued, Thread.carries, Thread.brings, Thread.serves,
        Thread.inDriver]
  | acquiring r next =>
    unfold act
    dsimp only
    split
    · exact balance rfl fun token => rfl
    · refine balance rfl fun token => ?_
      cases token <;> grind [inShared, inHand, queued, one, Thread.carries, Thread.brings,
        Thread.serves, Thread.inDriver]
  | transferring r next lba count =>
    have driver := budget_one budget .driver
    unfold act
    dsimp only
    split
    · refine balance rfl fun token => ?_
      cases token <;> grind [inShared, inHand, queued, Thread.carries, Thread.brings, Thread.serves,
        Thread.inDriver]
    · split
      all_goals
        refine balance rfl fun token => ?_
        cases token <;> grind [inShared, inHand, queued, Thread.carries, Thread.brings,
          Thread.serves, Thread.inDriver]
  | completing r next status =>
    have taken := budget_one budget (.request next.id)
    simp only [inShared, inHand, Thread.carries, one, Option.map_some, Option.getD_some, if_true] at taken
    refine balance rfl fun token => ?_
    cases token with
    | request id =>
      simp only [act, inShared, inHand, queued, Thread.carries, Function.update_apply] at taken ⊢
      by_cases same : next.id = id
      · subst same
        grind [one]
      · grind [one]
    | issue id | serving | driver => rfl
  | flushAcquiring =>
    unfold act
    dsimp only
    split
    · exact balance rfl fun token => rfl
    · refine balance rfl fun token => ?_
      cases token <;> grind [inShared, inHand, queued, Thread.carries, Thread.brings, Thread.serves,
        Thread.inDriver]
  | flushing =>
    have driver := budget_one budget .driver
    refine balance rfl fun token => ?_
    cases token with
    | driver =>
      simp only [act, inShared, inHand, Thread.inDriver] at driver ⊢
      grind
    | request id | issue id | serving => rfl
  | returned r status | flushed status => exact balance rfl fun token => rfl

theorem enter_balance (k : Entry) :
    inShared (enter k s).1 + inHand (enter k s).2 + due s = inShared s + due (enter k s).1 := by
  funext token
  cases k with
  | submit lba count write =>
    cases token with
    | request id | issue id =>
      simp only [enter, Pi.add_apply, inShared, inHand, due, one, Thread.carries, Thread.brings,
        queued]
      grind
    | serving | driver => rfl
  | flush => cases token <;> rfl

/-! ## What each thread can rely on -/

theorem act_settles (budget : inShared s + inHand t ≤ due s) (settles : Settles s t) :
    Settles (act dev e s t).1 (act dev e s t).2 := by
  cases t with
  | submitting r =>
    unfold act
    dsimp only
    split
    · trivial
    · exact .inl ((queueInsert_perm r s.queue).mem_iff.2 (List.mem_cons_self ..))
  | sleeping r | spinning r =>
    unfold act
    dsimp only
    split
    · assumption
    · dsimp only
      first | trivial | (split <;> trivial)
  | serving r =>
    unfold act
    dsimp only
    split
    · rename_i empty
      have done : (s.done r.id).isSome := by simpa [Settles, empty] using settles
      obtain ⟨status, marked⟩ := Option.isSome_iff_exists.1 done
      simp [Settles, marked]
    · rename_i next rest front
      simp only [Settles, front, List.mem_cons] at settles ⊢
      exact or_assoc.1 settles
  | acquiring r next =>
    unfold act
    dsimp only
    split <;> exact settles
  | transferring r next lba count =>
    unfold act
    dsimp only
    split
    · exact settles
    · split <;> exact settles
  | completing r next status =>
    simp only [act, Settles, Function.update_apply] at settles ⊢
    grind
  | returned r status => exact settles
  | flushAcquiring =>
    unfold act
    dsimp only
    split <;> trivial
  | flushing | flushed => trivial

/-- Nothing another thread does to the queue or to the marks takes away what a thread relies on. -/
theorem Settles.mono {s s' : Shared} {u : Thread} (settles : Settles s u)
    (queue : u.serves.isSome → ∀ r ∈ s.queue, r ∈ s'.queue)
    (done : ∀ id status, s.done id = some status → s'.done id = some status) : Settles s' u := by
  have marked {id : Nat} (h : (s.done id).isSome) : (s'.done id).isSome := by
    obtain ⟨status, h⟩ := Option.isSome_iff_exists.1 h
    exact Option.isSome_iff_exists.2 ⟨status, done id status h⟩
  cases u with
  | serving r => exact settles.imp (queue rfl r) marked
  | acquiring r next | transferring r next lba count | completing r next status =>
    exact settles.imp_right fun later => later.imp (queue rfl r) marked
  | returned r status => exact done r.id status settles
  | submitting | sleeping | spinning | flushAcquiring | flushing | flushed => trivial

theorem act_settles_others (u : Thread) (settles : Settles s u)
    (budget : inShared s + inHand t + inHand u ≤ due s) : Settles (act dev e s t).1 u := by
  have together (token : Token) : inShared s token + inHand t token + inHand u token ≤ 1 :=
    Nat.le_trans (budget token) (due_le_one s token)
  cases t with
  | submitting r =>
    have kept : ∀ q ∈ s.queue, q ∈ queueInsert dev r s.queue := fun q mem =>
      (queueInsert_perm r s.queue).mem_iff.2 (List.mem_cons_of_mem r mem)
    unfold act
    dsimp only
    split <;> exact settles.mono (fun _ => kept) (fun _ _ h => h)
  | sleeping r | spinning r =>
    unfold act
    dsimp only
    split <;> exact settles
  | serving r =>
    unfold act
    dsimp only
    split
    · exact settles.mono (fun _ _ mem => mem) (fun _ _ h => h)
    · refine settles.mono (fun serves => ?_) (fun _ _ h => h)
      have alone := together .serving
      have mine : inHand (.serving r) .serving = 1 := rfl
      have theirs : inHand u .serving = 1 := if_pos serves
      omega
  | acquiring r next =>
    unfold act
    dsimp only
    split
    · exact settles
    · exact settles.mono (fun _ _ mem => mem) (fun _ _ h => h)
  | transferring r next lba count =>
    unfold act
    dsimp only
    split
    · exact settles.mono (fun _ _ mem => mem) (fun _ _ h => h)
    · split <;> exact settles.mono (fun _ _ mem => mem) (fun _ _ h => h)
  | completing r next status =>
    have unmarked : s.done next.id = none := by
      have taken := together (.request next.id)
      simp only [inShared, inHand, Thread.carries, one, Option.map_some, Option.getD_some,
        if_true] at taken
      by_contra marked
      rw [if_pos (Option.isSome_iff_ne_none.2 marked)] at taken
      omega
    refine settles.mono (fun _ _ mem => mem) (fun id status' marked => ?_)
    have other : id ≠ next.id := by
      intro same
      rw [same, unmarked] at marked
      cases marked
    simp only [act, Function.update_of_ne other]
    exact marked
  | flushAcquiring =>
    unfold act
    dsimp only
    split
    · exact settles
    · exact settles.mono (fun _ _ mem => mem) (fun _ _ h => h)
  | flushing => exact settles.mono (fun _ _ mem => mem) (fun _ _ h => h)
  | returned | flushed => exact settles

/-! ## Every order -/

/-- A queue that is not empty is being served. -/
def Attended (s : Shared) : Prop := s.queue ≠ [] → s.serving = true

theorem act_attended (budget : inShared s + inHand t ≤ due s) (attended : Attended s) :
    Attended (act dev e s t).1 := by
  cases t with
  | submitting r =>
    unfold act
    dsimp only
    split
    · rename_i serving
      exact fun _ => serving
    · exact fun _ => rfl
  | sleeping r | spinning r =>
    unfold act
    dsimp only
    split <;> exact attended
  | serving r =>
    have role := budget_one budget .serving
    have mine : inHand (.serving r) .serving = 1 := rfl
    have taken : s.serving = true := by
      by_contra free
      simp only [inShared, if_neg free] at role
      omega
    unfold act
    dsimp only
    split
    · rename_i empty
      exact fun some_ => absurd empty some_
    · exact fun _ => taken
  | acquiring | flushAcquiring =>
    unfold act
    dsimp only
    split <;> exact attended
  | transferring =>
    unfold act
    dsimp only
    split
    · exact attended
    · split <;> exact attended
  | completing | flushing | returned | flushed => exact attended

variable (dev) in
theorem disk_keeps :
    (disk dev).Keeps (fun _ _ _ => True) Attended Settles inShared inHand due where
  act e s t _ attended settles budget := by
    obtain ⟨same, moved⟩ := @act_balance dev e s t budget
    refine ⟨act_attended e s t budget attended, act_settles e s t budget settles, ?_⟩
    show _ = _ + due (act dev e s t).1
    rw [same, ← moved]
    rfl
  others e s t u _ _ _ settles budget := act_settles_others e s t u settles budget
  start k s attended := by
    refine ⟨?_, ?_, enter_balance s k⟩
    · cases k <;> exact attended
    · cases k <;> trivial
  startOthers k s u _ settles := by
    cases k with
    | submit => exact settles.mono (fun _ _ mem => mem) (fun _ _ h => h)
    | flush => exact settles
  outside o := o.elim
  outsideOthers o := o.elim

variable (dev) in
theorem idle_kept (moves : List (Move Around Entry Empty)) :
    Kept Attended Settles inShared inHand due ((disk dev).play idle moves) := by
  refine (disk_keeps dev).play (meets_true idle moves) ⟨?_, by simp [idle], ?_⟩
  · exact fun some_ => absurd rfl some_
  · funext token
    cases token <;> simp [total, idle, inShared, queued, Shared.boot, due]

variable {w : World Shared Thread} (kept : Kept Attended Settles inShared inHand due w)
include kept

/-- What is due of a token is in the shared state or with the threads. -/
theorem balance_at (token : Token) :
    inShared w.shared token + (w.threads.map inHand).sum token = due w.shared token :=
  congrFun kept.balance token

theorem issued_or_coming {id : Nat} (made : id < w.shared.submitted) :
    w.shared.issued.count id = 1 ∨ w.shared.issued.count id = 0 ∧
      (id ∈ w.shared.queue.map Request.id ∨ ∃ t ∈ w.threads, t.brings.map Request.id = some id) := by
  have balance := balance_at kept (.issue id)
  simp only [inShared, due, if_pos made] at balance
  by_cases waiting : 0 < queued w.shared id
  · exact .inr ⟨by omega, .inl (List.count_pos_iff.1 waiting)⟩
  by_cases coming : 0 < (w.threads.map inHand).sum (.issue id)
  · obtain ⟨t, mem, holds⟩ := exists_holder coming
    refine .inr ⟨by omega, .inr ⟨t, mem, ?_⟩⟩
    simp only [inHand] at holds
    cases brings : t.brings with
    | none => simp [brings] at holds
    | some r =>
      have same : r.id = id := by
        by_contra other
        simp [brings, one, other] at holds
      rw [Option.map_some, same]
  · exact .inl (by omega)

theorem done_issued {id : Nat} {status : BlockStatus} (done : w.shared.done id = some status) :
    w.shared.issued.count id = 1 := by
  have balance := balance_at kept (.request id)
  have once := due_le_one w.shared (.request id)
  simp only [inShared, done, Option.isSome_some, if_true] at balance
  have made : id < w.shared.submitted := by
    by_contra unmade
    simp only [due, if_neg unmade] at balance
    omega
  cases issued_or_coming kept made with
  | inl issued => exact issued
  | inr coming =>
    exfalso
    cases coming.2 with
    | inl waiting =>
      have : 0 < queued w.shared id := List.count_pos_iff.2 waiting
      omega
    | inr carried =>
      obtain ⟨t, mem, brings⟩ := carried
      have carries : 0 < inHand t (.request id) := by
        cases t <;> simp_all [Thread.brings, Thread.carries, inHand, one]
      have below : inHand t ≤ (w.threads.map inHand).sum := le_sum_hands inHand mem
      have held : inHand t (.request id) ≤ (w.threads.map inHand).sum (.request id) := below _
      omega

theorem queue_served (waiting : w.shared.queue ≠ []) : ∃ t ∈ w.threads, t.serves.isSome := by
  have balance := balance_at kept .serving
  simp only [inShared, kept.shared waiting, if_true, due] at balance
  obtain ⟨t, mem, holds⟩ := exists_holder (show 0 < (w.threads.map inHand).sum .serving by omega)
  refine ⟨t, mem, ?_⟩
  by_contra none_
  simp [inHand, none_] at holds

theorem one_in_driver {i j : Nat} {t u : Thread} (at_i : w.threads[i]? = some t)
    (at_j : w.threads[j]? = some u) (inside : t.inDriver = true) (inside' : u.inDriver = true) :
    i = j := by
  refine kept.only_holder (x := .driver) (due_le_one _ _) at_i at_j ?_ ?_
  · simp [inHand, inside]
  · simp [inHand, inside']

theorem busy_driven (busy : w.shared.busy = true) : ∃ t ∈ w.threads, t.inDriver = true := by
  have balance := balance_at kept .driver
  simp only [inShared, busy, if_true, due] at balance
  obtain ⟨t, mem, holds⟩ := exists_holder (show 0 < (w.threads.map inHand).sum .driver by omega)
  refine ⟨t, mem, ?_⟩
  by_contra outside
  simp [inHand, outside] at holds

omit kept

/-! ## Getting there -/

namespace Thread

def own : Thread → Option Request
  | .submitting r | .sleeping r | .spinning r | .serving r | .acquiring r _ | .transferring r _ _ _
  | .completing r _ _ | .returned r _ => some r
  | .flushAcquiring | .flushing | .flushed _ => none

def finished : Thread → Bool
  | .returned _ _ | .flushed _ => true
  | _ => false

/-- At least how many sections a thread has before it, its request's way to the driver included. -/
def left : Thread → Nat
  | .submitting r => r.count + 6
  | .sleeping _ | .spinning _ | .serving _ | .flushing => 1
  | .acquiring _ next => next.count + 4
  | .transferring _ _ _ count => count + 3
  | .completing _ _ _ | .flushAcquiring => 2
  | .returned _ _ | .flushed _ => 0

/-- Its next section does something. -/
def Ready (s : Shared) : Thread → Prop
  | .sleeping r | .spinning r => (s.done r.id).isSome
  | .acquiring _ _ | .flushAcquiring => s.busy = false
  | .returned _ _ | .flushed _ => False
  | _ => True

end Thread

def waiting (s : Shared) : Nat := weighed (fun r => r.count + 4) s.queue

variable (dev) in
theorem waiting_insert (s : Shared) (r : Request) :
    weighed (fun r => r.count + 4) (queueInsert dev r s.queue) = waiting s + (r.count + 4) := by
  rw [waiting]
  induction s.queue with
  | nil => simp [queueInsert, weighed]
  | cons at_ rest ih =>
    unfold queueInsert
    split
    · simp only [weighed, ih]
      omega
    · simp only [weighed]
      omega

variable (dev) in
theorem chunkOf_pos {count : Nat} (more : count ≠ 0) : 0 < chunkOf dev count := by
  unfold chunkOf
  split <;> omega

theorem act_left (ready : t.Ready s) :
    waiting (act dev e s t).1 + (act dev e s t).2.left < waiting s + t.left := by
  cases t with
  | submitting r =>
    have more := waiting_insert dev s r
    unfold act
    dsimp only
    split <;> simp only [waiting, Thread.left] at more ⊢ <;> omega
  | sleeping r | spinning r =>
    obtain ⟨status, done⟩ := Option.isSome_iff_exists.1 ready
    simp [act, done, Thread.left]
  | serving r =>
    unfold act
    dsimp only
    split
    · simp [waiting, Thread.left]
    · rename_i next rest front
      simp only [waiting, front, weighed, Thread.left]
      omega
  | acquiring r next =>
    have free : s.busy = false := ready
    simp [act, free, waiting, Thread.left]
  | transferring r next lba count =>
    unfold act
    dsimp only
    split
    · simp only [waiting, Thread.left]
      omega
    · rename_i more
      have some_ := chunkOf_pos dev more
      split <;> simp only [waiting, Thread.left] <;> omega
  | flushAcquiring =>
    have free : s.busy = false := ready
    simp [act, free, waiting, Thread.left]
  | completing | flushing => simp [act, waiting, Thread.left]
  | returned | flushed => exact ready.elim

theorem act_submitted : (act dev e s t).1.submitted = s.submitted := by
  cases t with
  | transferring =>
    unfold act
    dsimp only
    split
    · rfl
    · split <;> rfl
  | submitting | sleeping | spinning | serving | acquiring | flushAcquiring =>
    unfold act
    dsimp only
    split <;> rfl
  | completing | flushing | returned | flushed => rfl

theorem act_own : (act dev e s t).2.own = t.own := by
  cases t with
  | transferring =>
    unfold act
    dsimp only
    split
    · rfl
    · split <;> rfl
  | sleeping =>
    unfold act
    dsimp only
    split
    · rfl
    · dsimp only
      split <;> rfl
  | submitting | spinning | serving | acquiring | flushAcquiring =>
    unfold act
    dsimp only
    split <;> rfl
  | completing | flushing | returned | flushed => rfl

def owns (t : Thread) (id : Nat) : Nat := (t.own.map fun r => one id r.id).getD 0

def made (s : Shared) (id : Nat) : Nat := if id < s.submitted then 1 else 0

variable (dev) in
theorem disk_owns : (disk dev).Conserves (fun _ => 0) owns made where
  act e s t := by
    refine ⟨?_, ?_⟩
    · funext id
      exact congrArg (fun n => if id < n then 1 else 0) (act_submitted e s t)
    · funext id
      exact congrArg (fun own => 0 + (Option.map (fun r => one id r.id) own).getD 0) (act_own e s t)
  start k s := by
    cases k with
    | submit lba count write =>
      refine ⟨fun id => one id s.submitted, ?_, rfl⟩
      funext id
      simp only [disk, enter, made, one, Pi.add_apply]
      grind
    | flush => exact ⟨0, rfl, rfl⟩
  outside o := o.elim

/-- Each request that was made has a thread of its own, and no thread has one that was not. -/
def Owned (w : World Shared Thread) : Prop := total (fun _ => 0) owns w = made w.shared

theorem Owned.owner {w : World Shared Thread} (owned : Owned w) {id : Nat}
    (there : id < w.shared.submitted) : ∃ t ∈ w.threads, ∃ r, t.own = some r ∧ r.id = id := by
  have balance : (w.threads.map owns).sum id = 1 := by
    have balance := congrFun owned id
    simpa [total, made, there] using balance
  obtain ⟨t, mem, holds⟩ := exists_holder (show 0 < (w.threads.map owns).sum id by omega)
  refine ⟨t, mem, ?_⟩
  cases own : t.own with
  | none => simp [owns, own] at holds
  | some r =>
    refine ⟨r, rfl, ?_⟩
    by_contra other
    simp [owns, own, one, other] at holds

theorem Owned.made {w : World Shared Thread} (owned : Owned w) {t : Thread} (mem : t ∈ w.threads)
    {r : Request} (own : t.own = some r) : r.id < w.shared.submitted := by
  have balance := congrFun owned r.id
  have below : owns t r.id ≤ (w.threads.map owns).sum r.id := le_sum_hands owns mem r.id
  have mine : owns t r.id = 1 := by simp [owns, own, one]
  by_contra unmade
  simp [total, Block.made, unmade] at balance
  omega

include kept

/-- Where a thread has a request to bring along, some thread can go on. -/
theorem bearer_ready {t : Thread} (mem : t ∈ w.threads)
    (bears : t.serves.isSome ∨ t.carries.isSome ∨ t = .flushAcquiring) :
    ∃ u ∈ w.threads, u.Ready w.shared := by
  cases busy : w.shared.busy with
  | true =>
    obtain ⟨u, mem, inside⟩ := busy_driven kept busy
    refine ⟨u, mem, ?_⟩
    cases u with
    | transferring | flushing => trivial
    | submitting | sleeping | spinning | serving | acquiring | completing | returned
    | flushAcquiring | flushed => cases inside
  | false =>
    refine ⟨t, mem, ?_⟩
    cases t with
    | acquiring | flushAcquiring => exact busy
    | submitting | serving | transferring | completing | flushing => trivial
    | sleeping | spinning | returned | flushed => simp [Thread.serves, Thread.carries] at bears

/-- A submitter that waits waits for a request that is done, that another carries, or that is on the
queue, which another serves. -/
theorem waiter_ready {id : Nat} (there : id < w.shared.submitted) :
    (w.shared.done id).isSome ∨ ∃ u ∈ w.threads, u.Ready w.shared := by
  by_cases done : (w.shared.done id).isSome
  · exact .inl done
  have balance := balance_at kept (.request id)
  simp only [inShared, if_neg done, due, if_pos there, Nat.add_zero] at balance
  right
  by_cases here : w.shared.queue = []
  · have none_ : queued w.shared id = 0 := by simp [queued, here]
    obtain ⟨t, mem, holds⟩ :=
      exists_holder (show 0 < (w.threads.map inHand).sum (.request id) by omega)
    refine bearer_ready kept mem (.inr (.inl ?_))
    cases carries : t.carries with
    | none => simp [inHand, carries] at holds
    | some r => rfl
  · obtain ⟨t, mem, serves⟩ := queue_served kept here
    exact bearer_ready kept mem (.inl serves)

theorem some_ready (owned : Owned w) {t : Thread} (mem : t ∈ w.threads) (going : t.finished = false) :
    ∃ u ∈ w.threads, u.Ready w.shared := by
  cases t with
  | sleeping r | spinning r =>
    cases waiter_ready kept (owned.made mem rfl) with
    | inl done => exact ⟨_, mem, done⟩
    | inr other => exact other
  | submitting | serving | acquiring | transferring | completing =>
    exact bearer_ready kept mem (by simp [Thread.serves, Thread.carries])
  | flushAcquiring => exact bearer_ready kept mem (.inr (.inr rfl))
  | flushing => exact ⟨_, mem, trivial⟩
  | returned | flushed => cases going

theorem some_moves (owned : Owned w) (going : ¬ ∀ t ∈ w.threads, t.finished = true) :
    ∃ i, workLeft waiting Thread.left ((disk dev).step w (.act i e)) <
      workLeft waiting Thread.left w := by
  obtain ⟨t, mem, going⟩ : ∃ t ∈ w.threads, t.finished = false := by simpa using going
  obtain ⟨u, mem', ready⟩ := some_ready kept owned mem going
  obtain ⟨i, at_i⟩ := List.getElem?_of_mem mem'
  exact ⟨i, workLeft_act_lt at_i (act_left e w.shared u ready)⟩

omit kept

theorem acts_submitted (turns : List Nat) :
    ((disk dev).play w (turns.map fun i => .act i e)).shared.submitted = w.shared.submitted := by
  induction turns generalizing w with
  | nil => rfl
  | cons i rest ih =>
    refine ih.trans ?_
    cases at_i : w.threads[i]? with
    | none => rw [step_act_none (disk dev) at_i]
    | some t =>
      rw [step_act (disk dev) at_i]
      exact act_submitted e w.shared t

variable (dev) in
/-- From any state reached, sections of the threads there are take each of them to its end. -/
theorem all_end (moves : List (Move Around Entry Empty)) :
    ∃ turns : List Nat,
      let w := (disk dev).play ((disk dev).play idle moves) (turns.map fun i => .act i e)
      Kept Attended Settles inShared inHand due w ∧ Owned w ∧ ∀ t ∈ w.threads, t.finished = true := by
  have goes (w : World Shared Thread)
      (ok : Kept Attended Settles inShared inHand due w ∧ Owned w)
      (going : ¬ ∀ t ∈ w.threads, t.finished = true) :
      ∃ i, (Kept Attended Settles inShared inHand due ((disk dev).step w (.act i e)) ∧
          Owned ((disk dev).step w (.act i e))) ∧
        workLeft waiting Thread.left ((disk dev).step w (.act i e)) <
          workLeft waiting Thread.left w := by
    obtain ⟨i, less⟩ := some_moves e ok.1 ok.2 going
    have allowed : Allowed (fun _ _ _ => True) w (.act i e : Move Around Entry Empty) :=
      fun _ _ => trivial
    exact ⟨i, ⟨(disk_keeps dev).step allowed ok.1, (disk_owns dev).step (.act i e) ok.2⟩, less⟩
  have owned : Owned ((disk dev).play idle moves) := (disk_owns dev).play moves rfl
  obtain ⟨turns, sound, ended⟩ := exhausts e goes _ ⟨idle_kept dev moves, owned⟩
  exact ⟨turns, sound.1, sound.2, ended⟩

variable (dev) in
/-- In every order of the sections: a request is handed to the driver once or is still on its way
there; a submitter returns when its own request is done, having been handed over once; no two
threads are in the driver; and a queue with a request on it has a thread that serves it. And what is
on its way gets there: wherever the sections have come to, and whatever the driver answers, more
sections of the threads there are hand over each request made, once, and let its submitter go. -/
theorem disk_serves_once (moves : List (Move Around Entry Empty)) :
    let w := (disk dev).play idle moves
    (∀ id < w.shared.submitted,
      w.shared.issued.count id = 1 ∨ w.shared.issued.count id = 0 ∧
        (id ∈ w.shared.queue.map Request.id ∨ ∃ t ∈ w.threads, t.brings.map Request.id = some id)) ∧
    (∀ r status, .returned r status ∈ w.threads →
      w.shared.done r.id = some status ∧ w.shared.issued.count r.id = 1) ∧
    (∀ (i j : Nat) (t u : Thread), w.threads[i]? = some t → w.threads[j]? = some u →
      t.inDriver = true → u.inDriver = true → i = j) ∧
    (w.shared.queue ≠ [] → ∃ t ∈ w.threads, t.serves.isSome) ∧
    ∀ e : Around, ∃ turns : List Nat,
      let w' := (disk dev).play w (turns.map fun i => .act i e)
      ∀ id < w.shared.submitted, w'.shared.issued.count id = 1 ∧
        ∃ r status, .returned r status ∈ w'.threads ∧ r.id = id := by
  intro w
  have kept := idle_kept dev moves
  refine ⟨fun id made => issued_or_coming kept made, ?_, ?_, queue_served kept, ?_⟩
  · intro r status returned
    have done : w.shared.done r.id = some status := kept.each _ returned
    exact ⟨done, done_issued kept done⟩
  · intro i j t u at_i at_j inside inside'
    exact one_in_driver kept at_i at_j inside inside'
  · intro e
    obtain ⟨turns, kept', owned, ended⟩ := all_end dev e moves
    refine ⟨turns, fun id there => ?_⟩
    rw [← acts_submitted (w := w) e turns] at there
    obtain ⟨t, mem, r, own, same⟩ := owned.owner there
    have finished := ended t mem
    cases t with
    | returned own' status =>
      cases own
      have done : _ = some status := kept'.each _ mem
      exact ⟨same ▸ done_issued kept' done, r, status, mem, same⟩
    | flushed => cases own
    | submitting | sleeping | spinning | serving | acquiring | transferring | completing
    | flushAcquiring | flushing => cases finished

/-- Two submitters, on a disk that takes one block at a time. The second's request lies further down
and goes first; the first's thread serves it, and the driver fails. -/
def twoSubmitters : List (Move Around Entry Empty) :=
  [.start (.submit 10 2 true), .start (.submit 4 1 false), .act 0 ⟨true, .ok⟩, .act 1 ⟨true, .ok⟩,
    .act 0 ⟨true, .ok⟩, .act 0 ⟨true, .ok⟩, .act 0 ⟨true, .io⟩]

/-- The sections that are left of the two. -/
def twoReturn : List (Move Around Entry Empty) :=
  List.replicate 8 (.act 0 ⟨true, .ok⟩) ++ [.act 1 ⟨true, .ok⟩]

def oneAtATime : Device := ⟨false, 1⟩

theorem disk_serves_once_two :
    let w := (disk oneAtATime).play idle twoSubmitters
    let w' := (disk oneAtATime).play idle (twoSubmitters ++ twoReturn)
    (w.shared.issued = [1] ∧ w.shared.queue = [⟨0, 10, 2, true⟩] ∧
      w.threads[1]? = some (.sleeping ⟨1, 4, 1, false⟩)) ∧
    (∃ turns : List Nat,
      let after := (disk oneAtATime).play w (turns.map fun i => .act i ⟨true, .ok⟩)
      after.shared.issued.count 0 = 1 ∧ ∃ r status, .returned r status ∈ after.threads ∧ r.id = 0) ∧
    w'.threads = [.returned ⟨0, 10, 2, true⟩ .ok, .returned ⟨1, 4, 1, false⟩ .io] ∧
    w'.shared.transfers = [(0, 11, 1), (0, 10, 1), (1, 4, 1)] ∧
    w'.shared.done 1 = some .io ∧ w'.shared.issued.count 1 = 1 := by
  intro w w'
  have half := disk_serves_once oneAtATime twoSubmitters
  have whole := disk_serves_once oneAtATime (twoSubmitters ++ twoReturn)
  have returned : w'.threads =
      [.returned ⟨0, 10, 2, true⟩ .ok, .returned ⟨1, 4, 1, false⟩ .io] := by decide
  refine ⟨by decide, ?_, returned, by decide, ?_⟩
  · obtain ⟨turns, there⟩ := half.2.2.2.2 ⟨true, .ok⟩
    exact ⟨turns, there 0 (by decide)⟩
  · have mem : .returned ⟨1, 4, 1, false⟩ .io ∈ w'.threads := by simp [returned]
    exact whole.2.1 ⟨1, 4, 1, false⟩ .io mem

end ReconOS.Block
