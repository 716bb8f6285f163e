import ReconOS.Signal.Signal

/-! Whose signals are delivered, and what is done about them. -/
namespace ReconOS.Signal

open ReconOS.Processes ReconOS.Lib

/-! ## What happened -/

/-- Sent since the process was created, and not taken since. -/
def pendingIn (id : UInt32) (sig : Nat) : List Event → Bool
  | [] => false
  | .created id' :: rest => id' ≠ id && pendingIn id sig rest
  | .sent id' sig' :: rest => (id' = id && sig' = sig) || pendingIn id sig rest
  | .set _ _ _ :: rest => pendingIn id sig rest
  | .taken id' sig' _ :: rest => !(id' = id && sig' = sig) && pendingIn id sig rest

/-- What the process last said, since it was created, should be done. -/
def doingIn (id : UInt32) (sig : Nat) : List Event → Doing
  | [] => .default
  | .created id' :: rest => if id' = id then .default else doingIn id sig rest
  | .sent _ _ :: rest => doingIn id sig rest
  | .set id' sig' what :: rest => if id' = id ∧ sig' = sig then what else doingIn id sig rest
  | .taken _ _ _ :: rest => doingIn id sig rest

/-- Every signal taken was pending for the process that took it, and what was done is what that
process said; for `SIGKILL`, the default. -/
def Belongs : List Event → Prop
  | [] => True
  | .taken id sig what :: rest => pendingIn id sig rest ∧
      what = (if sig = sigKill then .default else doingIn id sig rest) ∧ Belongs rest
  | .created _ :: rest => Belongs rest
  | .sent _ _ :: rest => Belongs rest
  | .set _ _ _ :: rest => Belongs rest

/-! ## Positions in the table -/

/-- Where an entry is among those in use. -/
def position (T : Table) (i : Slot) : Nat := T.used.idxOf i

theorem mem_used {T : Table} {i : Slot} : i ∈ T.used ↔ (T.procs i).state ≠ .free := by
  simp [Table.used]

theorem used_nodup (T : Table) : T.used.Nodup := (List.nodup_finRange _).filter _

theorem position_inj {T : Table} {i j : Slot} (there : i ∈ T.used)
    (same : position T i = position T j) : i = j := (List.idxOf_inj there).1 same

theorem slotOf_spec {s : State} {id : UInt32} {n : Nat} (found : s.slotOf id = some n) :
    ∃ i ∈ s.table.used, position s.table i = n ∧ (s.table.procs i).id = id := by
  have here := List.find?_some found
  obtain ⟨i, at_n, named⟩ := (Option.any_eq_true _ _).1 here
  have at_n : s.table.used[n]? = some i := at_n
  obtain ⟨less, eq⟩ := List.getElem?_eq_some_iff.1 at_n
  refine ⟨i, List.mem_of_getElem? at_n, ?_, of_decide_eq_true named⟩
  rw [← eq]
  exact (used_nodup s.table).idxOf_getElem n less

/-- No entry is in use that was not, and the numbers are the same. -/
structure Kept (T T' : Table) : Prop where
  id : ∀ i, (T'.procs i).id = (T.procs i).id
  used : ∀ i, (T'.procs i).state ≠ .free → (T.procs i).state ≠ .free

/-- The same entries are in use. -/
structure Alike (T T' : Table) : Prop where
  id : ∀ i, (T'.procs i).id = (T.procs i).id
  used : T'.used = T.used

theorem kept_set {T : Table} {i : Slot} {p : Process} (id : p.id = (T.procs i).id)
    (used : p.state ≠ .free → (T.procs i).state ≠ .free) : Kept T (T.set i p) := by
  have at_i : ∀ j, (T.set i p).procs j = if j = i then p else T.procs j := fun j =>
    Function.update_apply ..
  constructor
  · intro j
    rw [at_i]
    split
    · rename_i same
      rw [same, id]
    · rfl
  · intro j
    rw [at_i]
    split
    · rename_i same
      rw [same]
      exact used
    · exact fun there => there

theorem alike_set {T : Table} {i : Slot} {p : Process} (id : p.id = (T.procs i).id)
    (used : p.state ≠ .free ↔ (T.procs i).state ≠ .free) : Alike T (T.set i p) := by
  refine ⟨(kept_set id used.1).id, List.filter_congr fun j _ => ?_⟩
  show decide ((Function.update T.procs i p j).state ≠ .free) = decide ((T.procs j).state ≠ .free)
  rw [Function.update_apply]
  split
  · rename_i same
    rw [same]
    exact decide_eq_decide.2 used
  · rfl

theorem Alike.kept {T T' : Table} (alike : Alike T T') : Kept T T' :=
  ⟨alike.id, fun _ there => mem_used.1 (alike.used ▸ mem_used.2 there)⟩

theorem first_spec {T : Table} {p : Process → Bool} {i : Slot} (found : T.first p = some i) :
    p (T.procs i) = true :=
  List.find?_some (p := fun i => p (T.procs i)) found

theorem attach_alike (T : Table) (i : Slot) : Alike T (T.attach i).2 := alike_set rfl Iff.rfl

theorem threadEnded_alike (T : Table) (t : Link) (code : Int) :
    Alike T (T.threadEnded t code).2.2 := by
  unfold Table.threadEnded
  split
  · exact ⟨fun _ => rfl, rfl⟩
  · split
    · exact ⟨fun _ => rfl, rfl⟩
    · rename_i i found
      have running := (of_decide_eq_true (first_spec found)).1
      refine alike_set rfl ?_
      unfold Process.threadEnded
      dsimp only
      split
      · simp [running]
      · exact Iff.rfl

theorem threadReaped_kept (T : Table) (i : Slot) : Kept T (T.threadReaped i).2 := by
  refine kept_set ?_ ?_
  · unfold Process.threadReaped
    dsimp only
    split
    · rfl
    · rfl
  · unfold Process.threadReaped
    dsimp only
    split
    · exact fun there => absurd rfl there
    · exact fun there => there

theorem reap_kept (T : Table) (id : UInt32) : Kept T (T.reap id).2 := by
  unfold Table.reap
  split
  · exact ⟨fun _ => rfl, fun _ there => there⟩
  · exact kept_set rfl fun there => absurd rfl there

/-- `create` takes an entry that was free. -/
theorem create_spec {T T' : Table} {i : Slot} (made : T.create = (some i, T')) :
    i ∉ T.used ∧ (T'.procs i).id = T.nextId ∧ (∀ j ≠ i, T'.procs j = T.procs j) := by
  unfold Table.create at made
  split at made
  · cases made
  · rename_i k found
    cases made
    have free : (T.procs i).state = .free := of_decide_eq_true (first_spec found)
    refine ⟨fun there => mem_used.1 there free, ?_, fun j other => Function.update_of_ne other _ _⟩
    show (Function.update T.procs i _ i).id = T.nextId
    rw [Function.update_self]

/-! ## Rows -/

/-- Of the signals that there are, the row at `n` has pending none that the row at `m` has not, and
the same is to be done. -/
def SameRow (s : State) (n m : Nat) : Prop := ∀ sig < sigMax,
  ((s.pending n).getLsbD sig → (s.pending m).getLsbD sig) ∧
    (s.actions n sig).doing = (s.actions m sig).doing

def BlankRow (s : State) (n : Nat) : Prop := ∀ sig < sigMax,
  (s.pending n).getLsbD sig = false ∧ (s.actions n sig).doing = .default

/-- In the order that the entries in use have in `T`, each has the row that was its own; a new one,
a blank row. -/
def Follows (s : State) (T : Table) : Prop := ∀ i ∈ T.used,
  if i ∈ s.table.used then SameRow s (position T i) (position s.table i)
  else BlankRow s (position T i)

/-- What is created has a number of its own, and where an entry comes into use or goes out of it,
the rows still follow the entries. -/
def State.Allowed (s : State) : Move → Prop
  | .create => (∀ i ∈ s.table.used, (s.table.procs i).id ≠ s.table.nextId) ∧ Follows s s.table.create.2
  | .threadReaped i => Follows s (s.table.threadReaped i).2
  | .reap id => Follows s (s.table.reap id).2
  | .attach _ | .threadEnded _ _ | .send _ _ | .setAction _ _ _ _ _ | .setMask _ _ | .sigreturn _
  | .onReturn _ _ _ => True

/-- The row at `n` is the process's. -/
def RowOf (s : State) (n : Nat) (id : UInt32) : Prop := ∀ sig < sigMax,
  ((s.pending n).getLsbD sig → pendingIn id sig s.history) ∧
    (s.actions n sig).doing = doingIn id sig s.history

structure Owned (s : State) : Prop where
  rows : ∀ i ∈ s.table.used, RowOf s (position s.table i) (s.table.procs i).id
  distinct : ∀ i ∈ s.table.used, ∀ j ∈ s.table.used,
    (s.table.procs i).id = (s.table.procs j).id → i = j
  belongs : Belongs s.history

theorem boot_owned : Owned .boot := by
  have none_ : ∀ i, i ∉ State.boot.table.used := fun i there => mem_used.1 there rfl
  exact ⟨fun i there => absurd there (none_ i), fun i there => absurd there (none_ i), trivial⟩

/-- The table changes and no entry comes into use. -/
theorem Owned.table {s : State} {T : Table} (owned : Owned s) (kept : Kept s.table T)
    (follows : Follows s T) : Owned { s with table := T } := by
  have before : ∀ i ∈ T.used, i ∈ s.table.used := fun i there =>
    mem_used.2 (kept.used i (mem_used.1 there))
  constructor
  · intro i there sig less
    have same := follows i there
    rw [if_pos (before i there)] at same
    obtain ⟨pending, doing⟩ := same sig less
    obtain ⟨sent, said⟩ := owned.rows i (before i there) sig less
    have id : (T.procs i).id = (s.table.procs i).id := kept.id i
    show ((s.pending (position T i)).getLsbD sig → pendingIn (T.procs i).id sig s.history) ∧
      (s.actions (position T i) sig).doing = doingIn (T.procs i).id sig s.history
    rw [id]
    exact ⟨fun bit => sent (pending bit), doing.trans said⟩
  · intro i there j there' same
    have same : (T.procs i).id = (T.procs j).id := same
    rw [kept.id, kept.id] at same
    exact owned.distinct i (before i there) j (before j there') same
  · exact owned.belongs

theorem Alike.follows {s : State} {T : Table} (alike : Alike s.table T) : Follows s T := by
  intro i there
  rw [if_pos (alike.used ▸ there)]
  unfold position
  rw [alike.used]
  exact fun _ _ => ⟨fun bit => bit, rfl⟩

theorem Owned.alike {s : State} {T : Table} (owned : Owned s) (alike : Alike s.table T) :
    Owned { s with table := T } := owned.table alike.kept alike.follows

/-- Nothing that belongs to a row depends on the threads, or on what was placed. -/
theorem Owned.congr {s s' : State} (owned : Owned s) (table : s'.table = s.table)
    (pending : s'.pending = s.pending) (actions : s'.actions = s.actions)
    (history : s'.history = s.history) : Owned s' := by
  obtain ⟨table', actions', pending', threads, history', placed⟩ := s'
  cases table
  cases pending
  cases actions
  cases history
  exact ⟨owned.rows, owned.distinct, owned.belongs⟩

/-! ## Steps -/

theorem create_owned {s : State} (owned : Owned s) (allowed : s.Allowed .create) (arch : Arch) :
    Owned (s.step arch .create) := by
  obtain ⟨fresh, follows⟩ := allowed
  unfold State.step
  dsimp only
  split
  · exact owned
  · rename_i i T made
    rw [made] at follows
    have follows : Follows s T := follows
    obtain ⟨unused, number, others⟩ := create_spec made
    have before : ∀ j ∈ T.used, j ≠ i → j ∈ s.table.used := by
      intro j there other
      rw [mem_used, others j other] at there
      exact mem_used.2 there
    constructor
    · intro j there sig less
      have row := follows j there
      by_cases new : j = i
      · subst new
        rw [if_neg unused] at row
        obtain ⟨pending, doing⟩ := row sig less
        show ((s.pending (position T j)).getLsbD sig →
            pendingIn (T.procs j).id sig (.created s.table.nextId :: s.history)) ∧
          (s.actions (position T j) sig).doing =
            doingIn (T.procs j).id sig (.created s.table.nextId :: s.history)
        rw [number, pending, doing, doingIn, if_pos rfl]
        exact ⟨fun bit => (nomatch bit), rfl⟩
      · have old := before j there new
        rw [if_pos old] at row
        obtain ⟨pending, doing⟩ := row sig less
        obtain ⟨sent, said⟩ := owned.rows j old sig less
        have id := fresh j old
        show ((s.pending (position T j)).getLsbD sig →
            pendingIn (T.procs j).id sig (.created s.table.nextId :: s.history)) ∧
          (s.actions (position T j) sig).doing =
            doingIn (T.procs j).id sig (.created s.table.nextId :: s.history)
        rw [others j new, doingIn, if_neg (Ne.symm id), pendingIn, decide_eq_true (Ne.symm id),
          Bool.true_and]
        exact ⟨fun bit => sent (pending bit), doing.trans said⟩
    · intro j there k there' same
      have same : (T.procs j).id = (T.procs k).id := same
      by_cases newJ : j = i
      · by_cases newK : k = i
        · rw [newJ, newK]
        · rw [newJ, number, others k newK] at same
          exact absurd same.symm (fresh k (before k there' newK))
      · by_cases newK : k = i
        · rw [newK, number, others j newJ] at same
          exact absurd same (fresh j (before j there newJ))
        · rw [others j newJ, others k newK] at same
          exact owned.distinct j (before j there newJ) k (before k there' newK) same
    · exact owned.belongs

theorem send_owned {s : State} (owned : Owned s) (id : UInt32) (sig : Nat) :
    Owned (s.send id sig).2 := by
  unfold State.send
  split
  · exact owned
  · split
    · exact owned
    · rename_i n found
      obtain ⟨i, there, at_n, named⟩ := slotOf_spec found
      refine ⟨fun j there' sig' less => ?_, owned.distinct, owned.belongs⟩
      obtain ⟨sent, said⟩ := owned.rows j there' sig' less
      refine ⟨fun bit => ?_, said⟩
      have bit : (Function.update s.pending n (s.pending n ||| BitVec.twoPow 32 sig)
        (position s.table j)).getLsbD sig' = true := bit
      show ((id = (s.table.procs j).id && sig = sig') || pendingIn (s.table.procs j).id sig' s.history) =
        true
      by_cases here : position s.table j = n
      · have same : j = i := position_inj there' (here.trans at_n.symm)
        rw [here, Function.update_self, BitVec.getLsbD_or, Bool.or_eq_true] at bit
        cases bit with
        | inl old => rw [sent (here ▸ old), Bool.or_true]
        | inr new =>
          rw [BitVec.getLsbD_twoPow] at new
          have eq : sig = sig' := of_decide_eq_true (Bool.and_eq_true_iff.1 new).2
          rw [same, named, eq]
          simp
      · rw [Function.update_of_ne here] at bit
        rw [sent bit, Bool.or_true]

theorem setAction_owned {s : State} (owned : Owned s) (t : Thread)
    (sig what handler restorer : Nat) : Owned (s.setAction t sig what handler restorer).2 := by
  unfold State.setAction
  split
  · exact owned
  · split
    · exact owned
    · split
      · exact owned
      · rename_i n found
        split
        · exact owned
        · obtain ⟨i, there, at_n, named⟩ := slotOf_spec found
          refine ⟨fun j there' sig' less => ?_, owned.distinct, owned.belongs⟩
          obtain ⟨sent, said⟩ := owned.rows j there' sig' less
          refine ⟨sent, ?_⟩
          show (Function.update s.actions n (Function.update (s.actions n) sig ⟨what, handler, restorer⟩)
            (position s.table j) sig').doing = if t.link.process = (s.table.procs j).id ∧ sig = sig'
              then _ else doingIn (s.table.procs j).id sig' s.history
          by_cases here : position s.table j = n
          · have same : j = i := position_inj there' (here.trans at_n.symm)
            rw [here, Function.update_self, same, named]
            by_cases eq : sig = sig'
            · subst eq
              rw [Function.update_self, if_pos ⟨rfl, rfl⟩]
            · rw [Function.update_of_ne (Ne.symm eq), if_neg fun both => eq both.2]
              rw [here, same, named] at said
              exact said
          · rw [Function.update_of_ne here, if_neg, said]
            rintro ⟨other, -⟩
            rw [← named] at other
            exact here (at_n ▸ congrArg _ (owned.distinct j there' i there other.symm))

theorem taking_spec {s : State} {t : Thread} {n sig : Nat} {what : Doing} (owned : Owned s)
    (found : s.taking t = some (n, sig, what)) :
    sig < sigMax ∧ (∃ i ∈ s.table.used, position s.table i = n ∧ (s.table.procs i).id = t.link.process) ∧
      pendingIn t.link.process sig s.history ∧
      what = if sig = sigKill then .default else doingIn t.link.process sig s.history := by
  unfold State.taking at found
  split at found
  · cases found
  · rename_i n' slot
    split at found
    · cases found
    · rename_i sig' next
      cases found
      obtain ⟨i, there, at_n, named⟩ := slotOf_spec slot
      have bit := List.find?_some next
      have range := List.mem_range'_1.1 (List.mem_of_find?_eq_some next)
      have less : sig < sigMax := by
        have sixteen : sigMax = 16 := rfl
        omega
      rw [BitVec.getLsbD_and, Bool.and_eq_true] at bit
      obtain ⟨sent, said⟩ := owned.rows i there sig less
      rw [at_n, named] at sent said
      exact ⟨less, ⟨i, there, at_n, named⟩, sent bit.1, by rw [said]⟩

theorem take_owned {s : State} {t : Thread} {n sig : Nat} {what : Doing} (owned : Owned s)
    (found : s.taking t = some (n, sig, what)) : Owned (s.take t n sig what) := by
  obtain ⟨-, ⟨i, there, at_n, named⟩, sent, what_eq⟩ := taking_spec owned found
  refine ⟨fun j there' sig' less => ?_, owned.distinct, sent, what_eq, owned.belongs⟩
  obtain ⟨sent', said⟩ := owned.rows j there' sig' less
  refine ⟨fun bit => ?_, said⟩
  have bit : (Function.update s.pending n (s.pending n &&& ~~~BitVec.twoPow 32 sig)
    (position s.table j)).getLsbD sig' = true := bit
  show (!(t.link.process = (s.table.procs j).id && sig = sig') &&
    pendingIn (s.table.procs j).id sig' s.history) = true
  by_cases here : position s.table j = n
  · rw [here, Function.update_self, BitVec.getLsbD_and, Bool.and_eq_true] at bit
    have differ : sig ≠ sig' := by
      rintro rfl
      simp at bit
    rw [sent' (here ▸ bit.1), decide_eq_false differ]
    simp
  · rw [Function.update_of_ne here] at bit
    have other : t.link.process ≠ (s.table.procs j).id := by
      intro same
      rw [← named] at same
      exact here (at_n ▸ congrArg _ (owned.distinct j there' i there same.symm))
    rw [sent' bit, decide_eq_false other]
    rfl

theorem threadEnded_owned {s : State} (owned : Owned s) (k : Nat) (t : Thread) (code : Int) :
    Owned (s.threadEnded k t code) :=
  (owned.alike (threadEnded_alike s.table t.link code)).congr rfl rfl rfl rfl

theorem onReturn_owned {s : State} (owned : Owned s) (arch : Arch) (k : Nat) (t : Thread) (m : Mem)
    (ctx : Context) : Owned (s.onReturn arch k t m ctx).2 := by
  unfold State.onReturn
  split
  · dsimp only
    split
    · exact owned.congr rfl rfl rfl rfl
    · exact owned.congr rfl rfl rfl rfl
  · split
    · exact owned
    · rename_i n sig what found
      have taken := take_owned owned found
      dsimp only
      cases what with
      | default =>
        dsimp only
        split
        · exact taken
        · exact threadEnded_owned taken k t 0
      | ignore => exact taken
      | handler handler restorer =>
        dsimp only
        split
        · exact taken
        · exact taken.congr rfl rfl rfl rfl

theorem step_owned (arch : Arch) (s : State) (move : Move) (allowed : s.Allowed move)
    (owned : Owned s) : Owned (s.step arch move) := by
  have thread : ∀ (k : Nat) (f : Thread → State), (∀ t, Owned (f t)) → Owned (s.byThread k f) := by
    intro k f each
    unfold State.byThread
    split
    · exact owned
    · exact each _
  cases move with
  | create => exact create_owned owned allowed arch
  | attach i => exact (owned.alike (attach_alike s.table i)).congr rfl rfl rfl rfl
  | threadEnded k code => exact thread k _ fun t => threadEnded_owned owned k t code
  | threadReaped i => exact owned.table (threadReaped_kept s.table i) allowed
  | reap id => exact owned.table (reap_kept s.table id) allowed
  | send id sig => exact send_owned owned id sig
  | setAction k sig what handler restorer =>
    exact thread k _ fun t => setAction_owned owned t sig what handler restorer
  | setMask k mask => exact thread k _ fun t => owned.congr rfl rfl rfl rfl
  | sigreturn k => exact thread k _ fun t => owned.congr rfl rfl rfl rfl
  | onReturn k m ctx => exact thread k _ fun t => onReturn_owned owned arch k t m ctx

/-- In every run in which the rows follow the entries, a signal is taken only by a process that it
was sent to, once, and what that process said is done about it. -/
theorem signals_belong {arch : Arch} {moves : List Move}
    (allowed : Allows (State.step arch) State.Allowed .boot moves) :
    Belongs (run (State.step arch) .boot moves).history :=
  (run_keeps (step_owned arch) allowed boot_owned).belongs

instance (s : State) (n m : Nat) : Decidable (SameRow s n m) := Nat.decidableBallLT sigMax _

instance (s : State) (n : Nat) : Decidable (BlankRow s n) := Nat.decidableBallLT sigMax _

instance (s : State) (T : Table) : Decidable (Follows s T) := List.decidableBAll _ T.used

instance (s : State) (move : Move) : Decidable (s.Allowed move) :=
  match move with
  | .create => inferInstanceAs (Decidable (_ ∧ _))
  | .threadReaped i => inferInstanceAs (Decidable (Follows s (s.table.threadReaped i).2))
  | .reap id => inferInstanceAs (Decidable (Follows s (s.table.reap id).2))
  | .attach _ | .threadEnded _ _ | .send _ _ | .setAction _ _ _ _ _ | .setMask _ _ | .sigreturn _
  | .onReturn _ _ _ => inferInstanceAs (Decidable True)

def slot0 : Slot := ⟨0, by decide⟩
def slot1 : Slot := ⟨1, by decide⟩
def slot2 : Slot := ⟨2, by decide⟩

def atRest : Context := ⟨0x400000, 0x7FF000, 0x202, 0, 0, 0, 0⟩

/-- A process that handles a signal, and ends; another, in its entry. -/
theorem signals_belong_handled : Belongs (run (State.step .x86_64) .boot
    [.create, .attach slot0, .setAction 0 15 2 0x401000 0x402000, .send 1 15,
      .onReturn 0 (fun _ => 0) atRest, .setAction 0 15 0 0 0, .threadEnded 0 0, .threadReaped slot0,
      .create, .attach slot0]).history :=
  signals_belong (by decide +kernel)

/-- The first of three processes is reaped: what was sent to the second is taken by the third. -/
theorem signal_goes_astray : ¬∀ (arch : Arch) (moves : List Move),
    Belongs (run (State.step arch) .boot moves).history := by
  intro always
  have belongs := always .x86_64 [.create, .attach slot0, .create, .attach slot1, .create, .attach slot2,
    .send 2 15, .threadEnded 0 0, .threadReaped slot0, .onReturn 2 (fun _ => 0) atRest]
  have first : (run (State.step .x86_64) .boot [.create, .attach slot0, .create, .attach slot1, .create,
      .attach slot2, .send 2 15, .threadEnded 0 0, .threadReaped slot0,
      .onReturn 2 (fun _ => 0) atRest]).history =
      [.taken 3 15 .default, .sent 2 15, .created 3, .created 2, .created 1] := by decide +kernel
  rw [first] at belongs
  revert belongs
  simp [Belongs, pendingIn]

end ReconOS.Signal
