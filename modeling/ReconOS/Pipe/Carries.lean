import ReconOS.Pipe.Pipe
import ReconOS.Lib.Tokens

/-! What every order of the sections keeps: the bytes that went in come out, in order, and the ends
of the pipe are open while anybody has them. -/
namespace ReconOS.Pipe

open Lib Lib.System

/-! ## What a call has done -/

/-- The bytes a log has for a call, in order. -/
def ofCall (log : List (Nat × UInt8)) (call : Nat) : List UInt8 :=
  (log.filter fun x => x.1 = call).map Prod.snd

@[simp] theorem ofCall_append_same (log : List (Nat × UInt8)) (call : Nat) (bytes : List UInt8) :
    ofCall (log ++ bytes.map (call, ·)) call = ofCall log call ++ bytes := by
  have all : (bytes.map (call, ·)).filter (fun x => decide (x.1 = call)) = bytes.map (call, ·) :=
    List.filter_eq_self.2 (by simp)
  rw [ofCall, List.filter_append, all, List.map_append, List.map_map]
  simp [ofCall]

theorem ofCall_append_other (log : List (Nat × UInt8)) {call call' : Nat} (other : call' ≠ call)
    (bytes : List UInt8) : ofCall (log ++ bytes.map (call, ·)) call' = ofCall log call' := by
  have none_ : (bytes.map (call, ·)).filter (fun x => decide (x.1 = call')) = [] :=
    List.filter_eq_nil_iff.2 (by simp [other.symm])
  rw [ofCall, List.filter_append, none_, List.append_nil]
  rfl

/-- The bytes that went in are those that came out and those still in the ring. -/
structure Flows (s : Shared) : Prop where
  agree : s.ring.Agree
  order : s.accepted.map Prod.snd = s.taken.map Prod.snd ++ s.ring.contents
  sources : ∀ call, ofCall s.accepted call <+: s.source call
  news : ∀ call, s.calls ≤ call → ofCall s.accepted call = [] ∧ ofCall s.taken call = []
  named : ∀ e, s.fds e ≤ s.refs e

/-- Nothing was read or written by the call. -/
def Fresh (s : Shared) (call : Nat) : Prop := ofCall s.taken call = [] ∧ ofCall s.accepted call = []

/-- No byte is left and none can come. -/
def Ended (s : Shared) : Prop := s.ring.count = 0 ∧ s.ends .write = 0

/-- What an answer says of the call it answers. -/
def Answered (s : Shared) (call : Nat) : Result → Prop
  | .read len bytes =>
    ofCall s.taken call = bytes ∧ ofCall s.accepted call = [] ∧ (bytes = [] → len = 0 ∨ Ended s)
  | .wrote done =>
    ofCall s.accepted call = (s.source call).take done ∧ done ≤ (s.source call).length ∧
      ofCall s.taken call = []
  | .brokenPipe => Fresh s call ∧ s.ends .read = 0
  | .again | .permission | .badDescriptor | .closed | .duplicated | .noDescriptor => Fresh s call

def Does (s : Shared) (call : Nat) : Point → Prop
  | .reading _ | .installing _ => Fresh s call
  | .writing done =>
    ofCall s.accepted call = (s.source call).take done ∧ done ≤ (s.source call).length ∧
      ofCall s.taken call = []
  | .releasing _ r | .closing _ r | .returned r => Answered s call r

/-! ## References -/

inductive Token where
  | ref (e : End)
  | opened (e : End)
  | call (id : Nat)

namespace Point

/-- The end whose open file a call has a reference to. -/
def holds : Point → Option End
  | .reading _ => some .read
  | .writing _ => some .write
  | .installing e | .releasing e _ => some e
  | .closing _ _ | .returned _ => none

def closes : Point → Option End
  | .closing e _ => some e
  | _ => none

end Point

def inShared (s : Shared) : Token → Nat
  | .ref e => s.fds e
  | .opened e => if 0 < s.refs e then 1 else 0
  | .call _ => 0

def inHand (t : Thread) : Token → Nat
  | .ref e => if t.point.holds = some e then 1 else 0
  | .opened e => if t.point.closes = some e then 1 else 0
  | .call id => if t.call = id then 1 else 0

def due (s : Shared) : Token → Nat
  | .ref e => s.refs e
  | .opened e => s.ends e
  | .call id => if id < s.calls then 1 else 0

/-! ## One section -/

/-- What a section of `call` leaves alone. -/
structure Leaves (call : Nat) (s s' : Shared) : Prop where
  source : s'.source = s.source
  calls : s'.calls = s.calls
  taken : ∀ id, id ≠ call → ofCall s'.taken id = ofCall s.taken id
  accepted : ∀ id, id ≠ call → ofCall s'.accepted id = ofCall s.accepted id
  ends : ∀ e, s.ends e = 0 → s'.ends e = 0

theorem Leaves.refl (call : Nat) (s : Shared) : Leaves call s s :=
  ⟨rfl, rfl, fun _ _ => rfl, fun _ _ => rfl, fun _ h => h⟩

variable {s : Shared} {call : Nat}

/-- A read neither opens nor closes anything, and keeps its reference. -/
theorem pipeRead_holds (canSleep : Bool) (s : Shared) (call len : Nat) :
    let next := pipeRead canSleep s call len
    next.1.refs = s.refs ∧ next.1.fds = s.fds ∧ next.1.ends = s.ends ∧ next.1.calls = s.calls ∧
      next.2.holds = some .read ∧ next.2.closes = none := by
  intro next
  unfold next pipeRead
  repeat' split
  all_goals exact ⟨rfl, rfl, rfl, rfl, rfl, rfl⟩

theorem pipeWrite_holds (canSleep : Bool) (call turns : Nat) (s : Shared) (done : Nat) :
    let next := pipeWrite canSleep call turns s done
    next.1.refs = s.refs ∧ next.1.fds = s.fds ∧ next.1.ends = s.ends ∧ next.1.calls = s.calls ∧
      next.2.holds = some .write ∧ next.2.closes = none := by
  induction turns generalizing s done with
  | zero => exact ⟨rfl, rfl, rfl, rfl, rfl, rfl⟩
  | succ turns ih =>
    intro next
    unfold next pipeWrite
    split
    · split
      · repeat' split
        all_goals exact ⟨rfl, rfl, rfl, rfl, rfl, rfl⟩
      · split
        · exact ⟨rfl, rfl, rfl, rfl, rfl, rfl⟩
        · exact ih _ _
    · exact ⟨rfl, rfl, rfl, rfl, rfl, rfl⟩

theorem pipeRead_spec (flows : Flows s) (fresh : Fresh s call) (old : call < s.calls)
    (canSleep : Bool) (len : Nat) :
    let next := pipeRead canSleep s call len
    Flows next.1 ∧ Does next.1 call next.2 ∧ Leaves call s next.1 ∧
      (Ended s → next.1.ring.count = 0) := by
  unfold pipeRead
  split
  · rename_i nothing
    exact ⟨flows, ⟨fresh.1, fresh.2, fun _ => .inl rfl⟩, .refl call s, fun h => h.1⟩
  split
  · rename_i empty
    split
    · rename_i closed
      exact ⟨flows, ⟨fresh.1, fresh.2, fun _ => .inr ⟨empty, closed⟩⟩, .refl call s, fun h => h.1⟩
    split
    · exact ⟨flows, fresh, .refl call s, fun h => h.1⟩
    · exact ⟨flows, fresh, .refl call s, fun h => h.1⟩
  · rename_i some_wanted some_there
    obtain ⟨agree, front, length⟩ := takeUpTo_spec flows.agree len
    dsimp only
    refine ⟨⟨agree, ?_, flows.sources, ?_, flows.named⟩, ⟨?_, fresh.2, ?_⟩,
      ⟨rfl, rfl, ?_, fun _ _ => rfl, fun _ h => h⟩, fun h => absurd h.1 some_there⟩
    · rw [flows.order, front, List.map_append, List.append_assoc]
      simp
    · intro id (new : s.calls ≤ id)
      refine ⟨(flows.news id new).1, ?_⟩
      show ofCall (s.taken ++ _) id = _
      rw [ofCall_append_other _ (by omega)]
      exact (flows.news id new).2
    · show ofCall (s.taken ++ _) call = _
      rw [ofCall_append_same, fresh.1, List.nil_append]
    · intro none_
      rw [none_, List.length_nil] at length
      omega
    · intro id other
      exact ofCall_append_other _ other _

theorem Answered.doneOr {done : Nat} {error : Result}
    (does : Does s call (.writing done)) (failed : Fresh s call → Answered s call error) :
    Answered s call (doneOr done error) := by
  obtain ⟨sent, bound, got⟩ := does
  unfold Pipe.doneOr
  split
  · rename_i none_
    rw [none_, List.take_zero] at sent
    exact failed ⟨got, sent⟩
  · exact ⟨sent, bound, got⟩

/-- As many of a write's bytes put in the ring as fit. -/
theorem put_spec (flows : Flows s) (old : call < s.calls) {done : Nat}
    (does : Does s call (.writing done)) {put : Buf × Nat}
    (ran : putUpTo s.ring ((s.source call).drop done) = put) :
    let s' := { s with
      ring := put.1
      accepted := s.accepted ++ (((s.source call).drop done).take put.2).map (call, ·) }
    Flows s' ∧ Does s' call (.writing (done + put.2)) ∧ Leaves call s s' := by
  obtain ⟨agree, contents, length⟩ := putUpTo_spec flows.agree ((s.source call).drop done)
  rw [ran] at agree contents length
  obtain ⟨sent, bound, got⟩ := does
  have more : ofCall (s.accepted ++ (((s.source call).drop done).take put.2).map (call, ·)) call =
      (s.source call).take (done + put.2) := by
    rw [ofCall_append_same, sent, List.take_add]
  rw [List.length_drop] at length
  refine ⟨⟨agree, ?_, ?_, ?_, flows.named⟩, ⟨more, ?_, got⟩,
    ⟨rfl, rfl, fun _ _ => rfl, fun id other => ofCall_append_other _ other _, fun _ h => h⟩⟩
  · show (s.accepted ++ _).map Prod.snd = _ ++ put.1.contents
    rw [contents, List.map_append, flows.order, List.append_assoc]
    simp
  · intro id
    show ofCall (s.accepted ++ _) id <+: _
    by_cases same : id = call
    · rw [same, more]
      exact List.take_prefix _ _
    · rw [ofCall_append_other _ same]
      exact flows.sources id
  · intro id (new : s.calls ≤ id)
    refine ⟨?_, (flows.news id new).2⟩
    show ofCall (s.accepted ++ _) id = _
    rw [ofCall_append_other _ (by omega)]
    exact (flows.news id new).1
  · show done + put.2 ≤ (s.source call).length
    omega

theorem Leaves.trans {s₁ s₂ : Shared} (first : Leaves call s s₁) (next : Leaves call s₁ s₂) :
    Leaves call s s₂ where
  source := next.source.trans first.source
  calls := next.calls.trans first.calls
  taken id other := (next.taken id other).trans (first.taken id other)
  accepted id other := (next.accepted id other).trans (first.accepted id other)
  ends e closed := next.ends e (first.ends e closed)

theorem pipeWrite_spec (canSleep : Bool) (turns : Nat) (s : Shared) (done : Nat) (flows : Flows s)
    (old : call < s.calls) (does : Does s call (.writing done)) :
    let next := pipeWrite canSleep call turns s done
    Flows next.1 ∧ Does next.1 call next.2 ∧ Leaves call s next.1 := by
  induction turns generalizing s done with
  | zero => exact ⟨flows, does, .refl call s⟩
  | succ turns ih =>
    intro next
    unfold next pipeWrite
    have refused (closed : s.ends .read = 0) : Answered s call (doneOr done .brokenPipe) :=
      .doneOr does fun fresh => ⟨fresh, closed⟩
    split
    · split
      · split
        · rename_i closed
          exact ⟨flows, refused closed, .refl call s⟩
        split
        · exact ⟨flows, does, .refl call s⟩
        · exact ⟨flows, .doneOr does fun fresh => fresh, .refl call s⟩
      · split
        · rename_i closed
          exact ⟨flows, refused closed, .refl call s⟩
        · obtain ⟨flows', does', leaves⟩ := put_spec flows old does rfl
          obtain ⟨flows'', does'', leaves'⟩ := ih _ _ flows' old does'
          exact ⟨flows'', does'', leaves.trans leaves'⟩
    · rename_i all
      have whole : done = (s.source call).length := Nat.le_antisymm does.2.1 (Nat.le_of_not_lt all)
      exact ⟨flows, does, .refl call s⟩

/-! ## Every order -/

/-- An answer stays good while the call's bytes are what they were, no end opens again, and an
ended pipe stays empty. -/
theorem Answered.mono {s' : Shared} {id : Nat} {r : Result} (h : Answered s id r)
    (source : s'.source id = s.source id) (taken : ofCall s'.taken id = ofCall s.taken id)
    (accepted : ofCall s'.accepted id = ofCall s.accepted id)
    (ends : ∀ e, s.ends e = 0 → s'.ends e = 0) (ended : Ended s → s'.ring.count = 0) :
    Answered s' id r := by
  cases r with
  | read len bytes =>
    refine ⟨taken.trans h.1, accepted.trans h.2.1, fun none_ => ?_⟩
    exact (h.2.2 none_).imp_right fun e => ⟨ended e, ends .write e.2⟩
  | wrote done =>
    simp only [Answered, source, accepted, taken]
    exact h
  | brokenPipe => exact ⟨⟨taken.trans h.1.1, accepted.trans h.1.2⟩, ends .read h.2⟩
  | again | permission | badDescriptor | closed | duplicated | noDescriptor =>
    exact ⟨taken.trans h.1, accepted.trans h.2⟩

/-- What a thread relies on stays so through another one's section. -/
theorem Does.leaves {s' : Shared} {id : Nat} {point : Point} (does : Does s id point)
    (leaves : Leaves call s s') (other : id ≠ call) (ended : Ended s → s'.ring.count = 0) :
    Does s' id point := by
  have taken := leaves.taken id other
  have accepted := leaves.accepted id other
  cases point with
  | reading | installing => exact ⟨taken.trans does.1, accepted.trans does.2⟩
  | writing done =>
    simp only [Does, leaves.source, accepted, taken]
    exact does
  | releasing e r | closing e r | returned r =>
    exact Answered.mono does (congrFun leaves.source id) taken accepted leaves.ends ended

variable {point : Point} (a : Around)

/-- A call with a reference to an end: the end is open. -/
theorem holds_open (budget : inShared s + inHand ⟨call, point⟩ ≤ due s) {e : End}
    (holds : point.holds = some e) : s.fds e < s.refs e ∧ 0 < s.ends e := by
  have ref : s.fds e + (if point.holds = some e then 1 else 0) ≤ s.refs e := budget (.ref e)
  have opened : (if 0 < s.refs e then 1 else 0) + (if point.closes = some e then 1 else 0) ≤ s.ends e :=
    budget (.opened e)
  rw [if_pos holds] at ref
  rw [if_pos (by omega)] at opened
  omega

theorem advance_spec (budget : inShared s + inHand ⟨call, point⟩ ≤ due s) (flows : Flows s)
    (old : call < s.calls) (does : Does s call point) :
    let next := advance a s call point
    Flows next.1 ∧ Does next.1 call next.2 ∧ Leaves call s next.1 ∧
      (Ended s → next.1.ring.count = 0) := by
  cases point with
  | reading len => exact pipeRead_spec flows does old a.canSleep len
  | writing done =>
    obtain ⟨flows', does', leaves⟩ := pipeWrite_spec a.canSleep _ s done flows old does
    refine ⟨flows', does', leaves, fun ended => ?_⟩
    have := (holds_open budget (e := .write) rfl).2
    have := ended.2
    omega
  | installing e =>
    unfold advance
    dsimp only
    split
    · refine ⟨⟨flows.agree, flows.order, flows.sources, flows.news, fun e' => ?_⟩, does,
        ⟨rfl, rfl, fun _ _ => rfl, fun _ _ => rfl, fun _ h => h⟩, fun h => h.1⟩
      have := flows.named e'
      by_cases same : e' = e
      · subst same
        simpa using this
      · simpa [Function.update_of_ne same] using this
    · exact ⟨flows, does, .refl call s, fun h => h.1⟩
  | releasing e r =>
    have answered : Answered { s with refs := Function.update s.refs e (s.refs e - 1) } call r :=
      Answered.mono does rfl rfl rfl (fun _ h => h) fun h => h.1
    refine ⟨⟨flows.agree, flows.order, flows.sources, flows.news, fun e' => ?_⟩, ?_,
      ⟨rfl, rfl, fun _ _ => rfl, fun _ _ => rfl, fun _ h => h⟩, fun h => h.1⟩
    · have := flows.named e'
      have := (holds_open budget (e := e) rfl).1
      by_cases same : e' = e
      · subst same
        simp only [advance, Function.update_self]
        omega
      · simpa [advance, Function.update_of_ne same] using flows.named e'
    · unfold advance
      dsimp only
      split <;> exact answered
  | closing e r =>
    have ends (e' : End) (closed : s.ends e' = 0) : (pipeClose s e).ends e' = 0 := by
      simp only [pipeClose, Function.update_apply]
      split
      · rename_i same
        rw [← same, closed]
      · exact closed
    exact ⟨⟨flows.agree, flows.order, flows.sources, flows.news, flows.named⟩,
      Answered.mono does rfl rfl rfl ends (fun h => h.1),
      ⟨rfl, rfl, fun _ _ => rfl, fun _ _ => rfl, ends⟩, fun h => h.1⟩
  | returned r => exact ⟨flows, does, .refl call s, fun h => h.1⟩

/-- A section that only changes what the ring and the logs hold. -/
theorem balance_same {s' : Shared} {next : Point} (refs : s'.refs = s.refs) (fds : s'.fds = s.fds)
    (ends : s'.ends = s.ends) (calls : s'.calls = s.calls) (holds : next.holds = point.holds)
    (closes : next.closes = point.closes) :
    inShared s' + inHand ⟨call, next⟩ + due s = inShared s + inHand ⟨call, point⟩ + due s' := by
  funext token
  cases token <;>
    simp only [Pi.add_apply, inShared, inHand, due, refs, fds, ends, calls, holds, closes]

theorem advance_balance (budget : inShared s + inHand ⟨call, point⟩ ≤ due s) :
    let next := advance a s call point
    inShared next.1 + inHand ⟨call, next.2⟩ + due s = inShared s + inHand ⟨call, point⟩ + due next.1 := by
  cases point with
  | reading len =>
    obtain ⟨refs, fds, ends, calls, holds, closes⟩ := pipeRead_holds a.canSleep s call len
    exact balance_same refs fds ends calls holds closes
  | writing done =>
    obtain ⟨refs, fds, ends, calls, holds, closes⟩ := pipeWrite_holds a.canSleep call _ s done
    exact balance_same refs fds ends calls holds closes
  | installing e =>
    have held := holds_open budget (e := e) rfl
    unfold advance
    dsimp only
    split
    · funext token
      cases token with
      | ref e' | opened e' =>
        simp only [Pi.add_apply, inShared, inHand, due, Point.holds, Point.closes,
          Function.update_apply]
        grind
      | call id => rfl
    · exact balance_same rfl rfl rfl rfl rfl rfl
  | releasing e r =>
    have held := holds_open budget (e := e) rfl
    funext token
    cases token with
    | ref e' | opened e' =>
      simp only [advance, Pi.add_apply, inShared, inHand, due, Function.update_apply]
      by_cases last : s.refs e = 1
      · simp only [if_pos last, Point.holds, Point.closes]
        grind
      · simp only [if_neg last, Point.holds, Point.closes]
        grind
    | call id => rfl
  | closing e r =>
    have opened : (if 0 < s.refs e then 1 else 0) + (if some e = some e then 1 else 0) ≤ s.ends e :=
      budget (.opened e)
    funext token
    cases token with
    | ref e' => rfl
    | opened e' =>
      simp only [advance, pipeClose, Pi.add_apply, inShared, inHand, due, Point.closes,
        Function.update_apply]
      grind
    | call id => rfl
  | returned r => exact balance_same rfl rfl rfl rfl rfl rfl

/-! ## Starting a call -/

/-- What starting a call leaves alone; only the new call's source may be new. -/
structure Enters (s s' : Shared) : Prop where
  ring : s'.ring = s.ring
  ends : s'.ends = s.ends
  calls : s'.calls = s.calls + 1
  source : ∀ id, id ≠ s.calls → s'.source id = s.source id
  accepted : s'.accepted = s.accepted
  taken : s'.taken = s.taken
  named : ∀ e, s'.fds e ≤ s'.refs e

theorem enter_enters (k : Entry) (s : Shared) (flows : Flows s) : Enters s (enter k s).1 := by
  have named := flows.named
  have taken (e e' : End) :
      s.fds e' ≤ Function.update s.refs e (s.refs e + 1) e' ∧
        Function.update s.fds e (s.fds e - 1) e' ≤ s.refs e' := by
    have := named e'
    simp only [Function.update_apply]
    grind
  unfold enter
  dsimp only
  split
  · exact ⟨rfl, rfl, rfl, fun _ _ => rfl, rfl, rfl, named⟩
  · split
    · exact ⟨rfl, rfl, rfl, fun _ _ => rfl, rfl, rfl, fun e' => (taken _ e').1⟩
    · exact ⟨rfl, rfl, rfl, fun _ other => Function.update_of_ne other _ _, rfl, rfl,
        fun e' => (taken _ e').1⟩
    · exact ⟨rfl, rfl, rfl, fun _ _ => rfl, rfl, rfl, fun e' => (taken _ e').1⟩
    · exact ⟨rfl, rfl, rfl, fun _ _ => rfl, rfl, rfl, fun e' => (taken _ e').1⟩
    · exact ⟨rfl, rfl, rfl, fun _ _ => rfl, rfl, rfl, fun e' => (taken _ e').2⟩
    · exact ⟨rfl, rfl, rfl, fun _ _ => rfl, rfl, rfl, fun e' => (taken _ e').1⟩

theorem Enters.flows {s' : Shared} (h : Enters s s') (flows : Flows s) : Flows s' where
  agree := h.ring ▸ flows.agree
  order := by rw [h.accepted, h.taken, h.ring, flows.order]
  sources id := by
    rw [h.accepted]
    by_cases new : id = s.calls
    · rw [(flows.news id (Nat.le_of_eq new.symm)).1]
      exact List.nil_prefix
    · rw [h.source id new]
      exact flows.sources id
  news id new := by
    rw [h.calls] at new
    rw [h.accepted, h.taken]
    exact flows.news id (by omega)
  named := h.named

/-- A call under way, and what it relies on. -/
def Runs (s : Shared) (t : Thread) : Prop := t.call < s.calls ∧ Does s t.call t.point

theorem Enters.runs {s' : Shared} (h : Enters s s') {u : Thread} (runs : Runs s u) : Runs s' u := by
  obtain ⟨old, does⟩ := runs
  have source := h.source u.call (Nat.ne_of_lt old)
  have taken : ofCall s'.taken u.call = ofCall s.taken u.call := by rw [h.taken]
  have accepted : ofCall s'.accepted u.call = ofCall s.accepted u.call := by rw [h.accepted]
  refine ⟨by rw [h.calls]; omega, ?_⟩
  cases at_ : u.point with
  | reading | installing =>
    rw [at_] at does
    exact ⟨taken.trans does.1, accepted.trans does.2⟩
  | writing done =>
    rw [at_] at does
    simp only [Does, source, accepted, taken]
    exact does
  | releasing e r | closing e r | returned r =>
    rw [at_] at does
    exact Answered.mono does source taken accepted (fun e closed => by rw [h.ends, closed])
      fun ended => by rw [h.ring, ended.1]

theorem enter_does (k : Entry) (s : Shared) (flows : Flows s) :
    Runs (enter k s).1 (enter k s).2 := by
  obtain ⟨sent, got⟩ := flows.news s.calls (Nat.le_refl _)
  have fresh : Fresh s s.calls := ⟨got, sent⟩
  have old : s.calls < s.calls + 1 := Nat.lt_succ_self _
  unfold enter
  dsimp only
  split
  · exact ⟨old, fresh⟩
  · split
    · exact ⟨old, fresh⟩
    · exact ⟨old, by rw [List.take_zero]; exact sent, Nat.zero_le _, got⟩
    · exact ⟨old, fresh⟩
    · exact ⟨old, fresh⟩
    · exact ⟨old, fresh⟩
    · exact ⟨old, fresh⟩

theorem enter_balance (k : Entry) (s : Shared) (flows : Flows s) :
    inShared (enter k s).1 + inHand (enter k s).2 + due s = inShared s + due (enter k s).1 := by
  have named := flows.named
  unfold enter
  dsimp only
  split
  · funext token
    cases token <;> simp only [Pi.add_apply, inShared, inHand, due, Point.holds, Point.closes] <;> grind
  · rename_i some_fd
    simp only [Entry.of] at some_fd ⊢
    split
    all_goals
      funext token
      cases token <;>
        simp only [Pi.add_apply, inShared, inHand, due, Point.holds, Point.closes,
          Function.update_apply] <;>
        grind

/-! ## Every order -/

theorem pipe_keeps : pipe.Keeps (fun _ _ _ => True) Flows Runs inShared inHand due where
  act a s t _ flows runs budget := by
    obtain ⟨old, does⟩ := runs
    obtain ⟨flows', does', leaves, _⟩ := advance_spec a budget flows old does
    exact ⟨flows', ⟨leaves.calls.symm ▸ old, does'⟩, advance_balance a budget⟩
  others a s t u _ flows runs runs' budget := by
    have own : inShared s + inHand t ≤ due s := le_trans le_self_add budget
    obtain ⟨_, _, leaves, ended⟩ := advance_spec a own flows runs.1 runs.2
    have other : u.call ≠ t.call := by
      intro same
      have both : 0 + (if t.call = t.call then 1 else 0) + (if u.call = t.call then 1 else 0) ≤
          if t.call < s.calls then 1 else 0 := budget (.call t.call)
      rw [if_pos rfl, if_pos same, if_pos runs.1] at both
      omega
    exact ⟨leaves.calls.symm ▸ runs'.1, runs'.2.leaves leaves other ended⟩
  start k s flows :=
    ⟨(enter_enters k s flows).flows flows, enter_does k s flows, enter_balance k s flows⟩
  startOthers k s u flows runs := (enter_enters k s flows).runs runs
  outside o := o.elim
  outsideOthers o := o.elim

theorem made_kept (moves : List (Move Around Entry Empty)) :
    Kept Flows Runs inShared inHand due (pipe.play made moves) := by
  refine pipe_keeps.play (meets_true made moves) ⟨?_, by simp [made], ?_⟩
  · exact ⟨⟨by decide, by decide, rfl⟩, rfl, fun _ => List.nil_prefix, fun _ _ => ⟨rfl, rfl⟩,
      fun _ => Nat.le_refl 1⟩
  · funext token
    cases token <;> rfl

/-- Nobody has the end any more: it is closed, no descriptor names it, and no call has it. -/
def NoneLeft (w : World Shared Thread) (e : End) : Prop :=
  w.shared.ends e = 0 ∧ w.shared.fds e = 0 ∧ ∀ t ∈ w.threads, t.point.holds ≠ some e

theorem closed_none_left {w : World Shared Thread} (kept : Kept Flows Runs inShared inHand due w)
    {e : End} (closed : w.shared.ends e = 0) : NoneLeft w e := by
  have unreferenced : w.shared.refs e = 0 := by
    have opened : (if 0 < w.shared.refs e then 1 else 0) + (w.threads.map inHand).sum (.opened e) =
        w.shared.ends e := congrFun kept.balance (.opened e)
    by_contra some_
    rw [if_pos (by omega)] at opened
    omega
  have named := kept.shared.named e
  refine ⟨closed, by omega, fun t mem holds => ?_⟩
  have := (holds_open (kept.hand_le mem) holds).1
  omega

/-- In every order of the sections of any calls: the bytes read are a prefix of those accepted, and
those of a write come in its order; the ring agrees with itself; a read that asked for bytes gets
none only when there are none and no writer is left; and a write breaks only when no reader is. -/
theorem pipe_carries (moves : List (Move Around Entry Empty)) :
    let w := pipe.play made moves
    w.shared.taken.map Prod.snd <+: w.shared.accepted.map Prod.snd ∧
    (∀ call, ofCall w.shared.accepted call <+: w.shared.source call) ∧
    w.shared.ring.Agree ∧
    (∀ t ∈ w.threads, ∀ len bytes, t.point = .returned (.read len bytes) →
      bytes = ofCall w.shared.taken t.call ∧
        (bytes = [] → len = 0 ∨ w.shared.ring.count = 0 ∧ NoneLeft w .write)) ∧
    (∀ t ∈ w.threads, ∀ done, t.point = .returned (.wrote done) →
      ofCall w.shared.accepted t.call = (w.shared.source t.call).take done) ∧
    (∀ t ∈ w.threads, t.point = .returned .brokenPipe → NoneLeft w .read) := by
  intro w
  have kept := made_kept moves
  have flows : Flows w.shared := kept.shared
  have answered (t : Thread) (mem : t ∈ w.threads) (r : Result) (back : t.point = .returned r) :
      Answered w.shared t.call r := by
    have does := (kept.each t mem).2
    rw [back] at does
    exact does
  refine ⟨?_, flows.sources, flows.agree, ?_, ?_, ?_⟩
  · rw [flows.order]
    exact List.prefix_append _ _
  · intro t mem len bytes back
    obtain ⟨got, _, none_⟩ := answered t mem _ back
    refine ⟨got.symm, fun empty => (none_ empty).imp_right fun ended => ?_⟩
    exact ⟨ended.1, closed_none_left kept ended.2⟩
  · intro t mem done back
    exact (answered t mem _ back).1
  · intro t mem back
    exact closed_none_left kept (answered t mem _ back).2

/-- A read of no bytes answers 0 beside a byte that a live writer has put there. -/
theorem empty_read_answers_at_once :
    ¬∀ moves : List (Move Around Entry Empty), ∀ t ∈ (pipe.play made moves).threads, ∀ len,
      t.point = .returned (.read len []) →
        (pipe.play made moves).shared.ring.count = 0 ∧ (pipe.play made moves).shared.ends .write = 0 := by
  intro always
  have run : ⟨1, .returned (.read 0 [])⟩ ∈
      (pipe.play made [.start (.write .write [1]), .act 0 ⟨true, true⟩, .start (.read .read 0),
        .act 1 ⟨true, true⟩, .act 1 ⟨true, true⟩]).threads := by decide +kernel
  have empty := (always _ _ run 0 rfl).1
  revert empty
  decide +kernel

end ReconOS.Pipe
