import ReconOS.Pagecache.OneCopy

/-! What a get that starts after a forget has returned is given. -/
namespace ReconOS.Pagecache

open Lib Lib.System

/-- The page holds nothing that was read from the forgotten file before the forget began. -/
def ReadSince (s : Shared) (page : Nat) (f : Forget) : Prop :=
  ∀ r ∈ s.contents page, r.fs = f.fs → r.id = f.id → f.began < r.time

instance (s : Shared) (page : Nat) (f : Forget) : Decidable (ReadSince s page f) :=
  inferInstanceAs (Decidable (∀ r ∈ s.contents page, _ → _ → _))

namespace Point

/-- The page that a call would put in the table. -/
def inserts : Point → Option Nat
  | .inserting page _ => some page
  | _ => none

end Point

/-- A page goes into the table only if no forget that has swept began after it was read. -/
def Current (s : Shared) (t : Thread) : Prop :=
  ∀ page ∈ t.point.inserts, find s t.ops.table t.file.id t.offset = none → (spare s).1 ≠ none →
    ∀ f ∈ s.forgets, ReadSince s page f

instance (s : Shared) (t : Thread) : Decidable (Current s t) :=
  inferInstanceAs (Decidable (∀ page ∈ t.point.inserts, _ → _ → ∀ f ∈ s.forgets, _))

/-- The entry may be served. -/
def Entry.Live (e : Entry) : Prop := e.valid = true ∧ e.stale = false

/-- What may be served was not forgotten since it was read. -/
structure Timely (s : Shared) : Prop where
  live : ∀ i, (s.entries i).Live → ∀ f ∈ s.forgets, f.fs = (s.entries i).fs →
    f.id = (s.entries i).id → ReadSince s (s.entries i).page f
  past : ∀ f ∈ s.forgets, f.began < s.clock ∧ f.ended < s.clock

/-- A page is good enough for a call. -/
def Thread.May (t : Thread) (s : Shared) (page : Nat) : Prop :=
  page ≠ 0 → ∀ f ∈ s.forgets, f.fs = t.ops.table → f.id = t.file.id → f.ended < t.started →
    ReadSince s page f

/-- What a call has is good enough for it. -/
structure Good (s : Shared) (t : Thread) : Prop where
  past : t.started < s.clock
  slot : ∀ i, t.point.slot = some i → t.point.has = none → t.May s (s.entries i).page
  page : ∀ page, t.point.has = some page → t.May s page
  read : ∀ page, t.point.inserts = some page → t.May s page

/-! ## Changes of the table -/

/-- The entry is the same page of the same file, no less stale, or is given up. -/
def Passed (e e' : Entry) : Prop := Alike e e' ∨ e'.valid = false ∧ e'.page = 0

/-- Entries have at most been passed, or filled with a page that no forget is too late for; pages
have at most been set to zeroes, or filled from a file now. -/
structure Later (s s' : Shared) : Prop where
  each : ∀ i, Passed (s.entries i) (s'.entries i) ∨
    ∀ f ∈ s.forgets, ReadSince s (s'.entries i).page f
  contents : ∀ page, s'.contents page = s.contents page ∨
    ∀ r ∈ s'.contents page, r.time = s.clock
  forgets : s'.forgets = s.forgets
  clock : s'.clock = s.clock

variable {s s' : Shared} {t u : Thread} {i : Slot} {e : Entry}

theorem Later.readSince (later : Later s s') (timely : Timely s) {page : Nat} {f : Forget}
    (mem : f ∈ s.forgets) (h : ReadSince s page f) : ReadSince s' page f := by
  intro r at_ fs id
  cases later.contents page with
  | inl same =>
    rw [same] at at_
    exact h r at_ fs id
  | inr now =>
    rw [now r at_]
    exact (timely.past f mem).1

theorem Later.may (later : Later s s') (timely : Timely s) {page : Nat} (may : t.May s page) :
    t.May s' page := by
  intro some_ f mem fs id before
  rw [later.forgets] at mem
  exact later.readSince timely mem (may some_ f mem fs id before)

theorem Later.timely (later : Later s s') (timely : Timely s) : Timely s' where
  live i live f mem fs id := by
    rw [later.forgets] at mem
    refine later.readSince timely mem ?_
    cases later.each i with
    | inr current => exact current f mem
    | inl passed =>
      cases passed with
      | inr gone =>
        rw [Entry.Live, gone.1] at live
        cases live.1
      | inl same =>
        obtain ⟨valid, _, rest⟩ := same.serves ⟨live.1, live.2, rfl, rfl, rfl⟩
        rw [same.page]
        refine timely.live i ⟨valid, ?_⟩ f mem (fs.trans same.fs) (id.trans same.id)
        by_contra stale
        have fresh := live.2
        rw [same.stale (by simpa using stale)] at fresh
        cases fresh
  past := by
    rw [later.forgets, later.clock]
    exact timely.past

theorem Later.good (later : Later s s') (timely : Timely s) (good : Good s t) : Good s' t where
  past := by
    rw [later.clock]
    exact good.past
  slot i slot none_ := by
    cases later.each i with
    | inr current =>
      intro _ f mem _ _ _
      rw [later.forgets] at mem
      exact later.readSince timely mem (current f mem)
    | inl passed =>
      cases passed with
      | inl same =>
        rw [same.page]
        exact later.may timely (good.slot i slot none_)
      | inr gone => exact fun some_ => absurd gone.2 some_
  page page has := later.may timely (good.page page has)
  read page inserts := later.may timely (good.read page inserts)

/-! ## What changes the table -/

theorem passed_setEntry (passed : Passed (s.entries i) e) (j : Slot) :
    Passed (s.entries j) ((s.setEntry i e).entries j) := by
  by_cases at_ : j = i
  · subst at_
    rw [setEntry_entries_self]
    exact passed
  · rw [setEntry_entries_of_ne at_]
    exact .inl (.refl _)

theorem Passed.trans {e' e'' : Entry} (first : Passed e e') (next : Passed e' e'') : Passed e e'' := by
  cases next with
  | inr gone => exact .inr gone
  | inl same =>
    cases first with
    | inr gone => exact .inr ⟨same.valid.trans gone.1, same.page.trans gone.2⟩
    | inl same' =>
      exact .inl ⟨same.valid.trans same'.valid, same.page.trans same'.page, same.fs.trans same'.fs,
        same.id.trans same'.id, same.offset.trans same'.offset,
        fun stale => same.stale (same'.stale stale)⟩

/-- Entries passed, and nothing else that a call may rely on. -/
structure PassedAll (s s' : Shared) : Prop where
  each : ∀ i, Passed (s.entries i) (s'.entries i)
  contents : s'.contents = s.contents
  forgets : s'.forgets = s.forgets
  clock : s'.clock = s.clock

theorem PassedAll.refl (s : Shared) : PassedAll s s := ⟨fun _ => .inl (.refl _), rfl, rfl, rfl⟩

theorem PassedAll.trans {s'' : Shared} (first : PassedAll s s') (next : PassedAll s' s'') :
    PassedAll s s'' :=
  ⟨fun i => (first.each i).trans (next.each i), next.contents.trans first.contents,
    next.forgets.trans first.forgets, next.clock.trans first.clock⟩

theorem PassedAll.later (h : PassedAll s s') : Later s s' where
  each i := .inl (h.each i)
  contents page := .inl (by rw [h.contents])
  forgets := h.forgets
  clock := h.clock

theorem PassedAll.set (passed : Passed (s.entries i) e) : PassedAll s (s.setEntry i e) :=
  ⟨passed_setEntry passed, rfl, rfl, rfl⟩

theorem PassedAll.give (page : Nat) (passed : Passed (s.entries i) e) :
    PassedAll s ((s.freePage page).setEntry i e) :=
  ⟨passed_setEntry (s := s.freePage page) passed, rfl, rfl, rfl⟩

theorem writeBack_passed (s : Shared) (b : Back) : PassedAll s (writeBack s b) := by
  obtain ⟨l, same⟩ := writeBack_eq s b
  rw [same]
  exact ⟨fun _ => .inl (.refl _), rfl, rfl, rfl⟩

theorem evict_passed (s : Shared) (i : Slot) : PassedAll s (evict s i) := by
  unfold evict
  dsimp only
  split
  · rename_i f _ _
    have first := writeBack_passed s ⟨f, (s.entries i).offset, (s.entries i).page, (s.entries i).bytes⟩
    exact first.trans (.give _ (.inr ⟨rfl, rfl⟩))
  · exact .give _ (.inr ⟨rfl, rfl⟩)

theorem turn_passed (turns : Nat) (s : Shared) : PassedAll s (turn turns s).2 := by
  induction turns generalizing s with
  | zero => exact .refl s
  | succ turns ih =>
    have moved : PassedAll s { s with hand := nextHand s.hand } :=
      ⟨fun _ => .inl (.refl _), rfl, rfl, rfl⟩
    unfold turn
    dsimp only
    split
    · exact moved.trans (ih _)
    split
    · have cleared : PassedAll { s with hand := nextHand s.hand } _ :=
        .set (i := s.hand) (e := { s.entries s.hand with referenced := false })
          (.inl ⟨rfl, rfl, rfl, rfl, rfl, fun h => h⟩)
      exact (moved.trans cleared).trans (ih _)
    · exact moved.trans (evict_passed _ _)

theorem spare_passed (s : Shared) : PassedAll s (spare s).2 := by
  unfold spare
  split
  · exact .refl s
  · exact turn_passed _ s

/-- The entry is for the file, and may be served. -/
def Entry.LiveOf (e : Entry) (fs id : Nat) : Prop := e.Live ∧ e.fs = fs ∧ e.id = id

theorem Passed.liveOf {e' : Entry} (passed : Passed e e') {fs id : Nat} (live : e'.LiveOf fs id) :
    e.LiveOf fs id := by
  obtain ⟨⟨valid, fresh⟩, rest⟩ := live
  cases passed with
  | inr gone =>
    rw [gone.1] at valid
    cases valid
  | inl same =>
    obtain ⟨valid', fresh', fs', id', _⟩ := same.serves ⟨valid, fresh, rest.1, rest.2, rfl⟩
    exact ⟨⟨valid', fresh'⟩, fs', id'⟩

/-- A forget leaves nothing of the file that may be served. -/
theorem sweep_passed (fs id : Nat) (slots : List Slot) (s : Shared) :
    PassedAll s (sweep fs id slots s) ∧
      ∀ i ∈ slots, ¬((sweep fs id slots s).entries i).LiveOf fs id := by
  induction slots generalizing s with
  | nil => exact ⟨.refl s, by simp⟩
  | cons i rest ih =>
    have both {s' : Shared} (first : PassedAll s s') (gone : ¬(s'.entries i).LiveOf fs id) :
        PassedAll s (sweep fs id rest s') ∧
          ∀ j ∈ i :: rest, ¬((sweep fs id rest s').entries j).LiveOf fs id := by
      obtain ⟨passed, none_⟩ := ih s'
      refine ⟨first.trans passed, ?_⟩
      intro j mem live
      cases List.mem_cons.1 mem with
      | inl same =>
        subst same
        exact gone ((passed.each j).liveOf live)
      | inr mem => exact none_ j mem live
    unfold sweep
    dsimp only
    split
    · rename_i other
      refine both (.refl s) ?_
      intro live
      cases other with
      | inl invalid =>
        rw [live.1.1] at invalid
        cases invalid
      | inr key =>
        cases key with
        | inl differ => exact differ live.2.1
        | inr differ => exact differ live.2.2
    split
    · refine both (.set (.inl ⟨rfl, rfl, rfl, rfl, rfl, fun _ => rfl⟩)) ?_
      rw [setEntry_entries_self]
      exact fun live => absurd live.1.2 (by simp)
    · refine both (.give _ (.inr ⟨rfl, rfl⟩)) ?_
      rw [setEntry_entries_self]
      exact fun live => absurd live.1.1 (by simp)

/-! ## One section -/

/-- What a section leaves to the one that ran it. -/
structure Leaves (s : Shared) (t : Thread) (s' : Shared) (point : Point) : Prop where
  later : Later s s'
  slot : ∀ i, point.slot = some i → point.has = none → t.May s' (s'.entries i).page
  page : ∀ page, point.has = some page → t.May s' page
  read : ∀ page, point.inserts = some page → t.May s' page

/-- A section that leaves it nothing. -/
theorem Later.leaves {point : Point} (later : Later s s') (slot : point.slot = none)
    (has : point.has = none) (inserts : point.inserts = none) : Leaves s t s' point where
  later := later
  slot i at_ := by
    rw [slot] at at_
    cases at_
  page page at_ := by
    rw [has] at at_
    cases at_
  read page at_ := by
    rw [inserts] at at_
    cases at_

theorem live_may (timely : Timely s) (serves : (s.entries i).Serves t.ops.table t.file.id t.offset) :
    t.May s (s.entries i).page := by
  intro _ f mem fs id _
  obtain ⟨valid, fresh, fs', id', _⟩ := serves
  exact timely.live i ⟨valid, fresh⟩ f mem (fs.trans fs'.symm) (id.trans id'.symm)

theorem look_leaves (timely : Timely s) : Leaves s t (look s t).1 (look s t).2 := by
  unfold look
  split
  · rename_i i found
    have may := live_may timely (find_some found)
    have passed : PassedAll s (s.setEntry i { (s.entries i).hold with referenced := true }) :=
      .set (.inl ⟨rfl, rfl, rfl, rfl, rfl, fun h => h⟩)
    refine ⟨passed.later, ?_, ?_, by rintro page ⟨⟩⟩
    · rintro j ⟨⟩ ⟨⟩
    · rintro page ⟨⟩
      exact passed.later.may timely may
  · exact (PassedAll.refl s).later.leaves rfl rfl rfl

theorem allocate_leaves (offered : Nat) : Leaves s t (allocate offered s).1 (allocate offered s).2 := by
  unfold allocate
  split
  · exact (PassedAll.refl s).later.leaves rfl rfl rfl
  · refine Later.leaves ⟨fun _ => .inl (.inl (.refl _)), ?_, rfl, rfl⟩ rfl rfl rfl
    intro page
    by_cases same : page = offered
    · subst same
      refine .inr ?_
      simp
    · exact .inl (Function.update_of_ne same ..)

theorem readIn_leaves (a : Around) (timely : Timely s) (page : Nat) :
    Leaves s t (readIn a s t page).1 (readIn a s t page).2 := by
  have failed : Leaves s t s (.dropping page none) := (PassedAll.refl s).later.leaves rfl rfl rfl
  unfold readIn
  split
  · exact failed
  split
  · refine ⟨⟨fun _ => .inl (.inl (.refl _)), ?_, rfl, rfl⟩, ?_, by rintro p ⟨⟩, ?_⟩
    · intro p
      by_cases same : p = page
      · subst same
        refine .inr ?_
        simp
      · exact .inl (Function.update_of_ne same ..)
    · rintro j ⟨⟩ ⟨⟩
    · rintro p ⟨⟩
      intro _ f mem _ _ _ r at_ _ _
      simp only [Function.update_self, Option.mem_some_iff] at at_
      subst at_
      exact (timely.past f mem).1
  · exact failed

theorem insertPage_leaves (timely : Timely s) (current : Current s t) (good : Good s t)
    {page bytes : Nat} (at_ : t.point = .inserting page bytes) :
    Leaves s t (insertPage s t page bytes).1 (insertPage s t page bytes).2 := by
  have inserts : t.point.inserts = some page := by rw [at_]; rfl
  unfold insertPage
  split
  · rename_i i found
    have passed : PassedAll s (s.setEntry i (s.entries i).hold) := .set (.inl (hold_alike _))
    refine ⟨passed.later, ?_, by rintro p ⟨⟩, by rintro p ⟨⟩⟩
    rintro j ⟨⟩ _
    rw [setEntry_entries_self]
    exact passed.later.may timely (live_may timely (find_some found))
  rename_i none_
  have passed := spare_passed s
  split
  · rename_i s' taken
    rw [taken] at passed
    exact passed.later.leaves rfl rfl rfl
  · rename_i i evicted s' taken
    have chosen : (spare s).1 ≠ none := by rw [taken]; simp
    have later : Later s (s'.setEntry i ((s'.entries i).fill t page bytes)) := by
      rw [taken] at passed
      refine ⟨fun j => ?_, fun p => .inl (congrFun passed.contents p), passed.forgets, passed.clock⟩
      by_cases same : j = i
      · subst same
        rw [setEntry_entries_self]
        exact .inr (current page inserts none_ chosen)
      · rw [setEntry_entries_of_ne same]
        exact .inl (passed.each j)
    refine ⟨later, ?_, ?_, ?_⟩
    · intro j _ none_
      rw [show Point.has _ = some page from Point.filled_has i page evicted] at none_
      cases none_
    · intro p has
      rw [show Point.has _ = some page from Point.filled_has i page evicted] at has
      cases has
      exact later.may timely (good.read page inserts)
    · intro p has
      cases evicted <;> cases has

theorem put_passed (s : Shared) (page : Nat) :
    PassedAll s (put s page).1 ∧ (put s page).2.slot = none ∧ (put s page).2.has = none ∧
      (put s page).2.inserts = none := by
  unfold put
  split
  · exact ⟨.refl s, rfl, rfl, rfl⟩
  · rename_i i _
    have same := (release_alike (s.entries i)).1
    have same' := (clean_alike (s.entries i).release).1
    have kept : Passed (s.entries i) (s.entries i).release.clean := .trans (.inl same) (.inl same')
    refine ⟨?_, Point.gaveUp_slot _, ?_, ?_⟩
    · dsimp only
      split
      · exact .give _ (.inr ⟨rfl, rfl⟩)
      · exact .set kept
    · dsimp only
      cases (s.entries i).release.back <;> rfl
    · dsimp only
      cases (s.entries i).release.back <;> rfl

theorem markShared_passed (s : Shared) (page : Nat) : PassedAll s (markShared s page) := by
  unfold markShared
  split
  · exact .refl s
  · split
    · exact .set (.inl ⟨rfl, rfl, rfl, rfl, rfl, fun h => h⟩)
    · exact .refl s

/-- A section that is not a forget's. -/
theorem advance_leaves (a : Around) (timely : Timely s) (current : Current s t) (good : Good s t)
    (other : t.point ≠ .forgetting) : Leaves s t (advance a s t).1 (advance a s t).2 := by
  unfold advance
  cases at_ : t.point with
  | looking => exact look_leaves timely
  | allocating => exact allocate_leaves a.offered
  | reading page => exact readIn_leaves a timely page
  | inserting page bytes => exact insertPage_leaves timely current good at_
  | dropping page found =>
    have passed : PassedAll s (s.freePage page) := ⟨fun _ => .inl (.refl _), rfl, rfl, rfl⟩
    refine ⟨passed.later, ?_, ?_, ?_⟩
    · intro i slot _
      rw [show Point.slot _ = found from Point.dropped_slot found] at slot
      exact good.slot i (by rw [at_]; exact slot) (by rw [at_]; rfl)
    · intro p has
      cases found <;> cases has
    · intro p has
      cases found <;> cases has
  | answering i =>
    refine ⟨(PassedAll.refl s).later, by rintro j ⟨⟩ ⟨⟩, ?_, by rintro p ⟨⟩⟩
    rintro p ⟨⟩
    exact good.slot i (by rw [at_]; rfl) (by rw [at_]; rfl)
  | releasing file i page =>
    refine ⟨(PassedAll.refl s).later, by rintro j ⟨⟩ ⟨⟩, ?_, by rintro p ⟨⟩⟩
    rintro p ⟨⟩
    exact good.page page (by rw [at_]; rfl)
  | holding i page =>
    dsimp only
    split
    · have later := (markShared_passed s page).later
      refine ⟨later, by rintro j ⟨⟩ ⟨⟩, ?_, by rintro p ⟨⟩⟩
      rintro p ⟨⟩
      exact later.may timely (good.page page (by rw [at_]; rfl))
    · obtain ⟨passed, slot, has, inserts⟩ := put_passed s page
      exact passed.later.leaves slot has inserts
  | writingBack back => exact (writeBack_passed s back).later.leaves rfl rfl rfl
  | forgetting => exact absurd at_ other
  | returned => exact (PassedAll.refl s).later.leaves rfl rfl rfl

theorem Timely.tick (timely : Timely s) : Timely s.tick where
  live := timely.live
  past f mem := by
    obtain ⟨began, ended⟩ := timely.past f mem
    exact ⟨Nat.lt_succ_of_lt began, Nat.lt_succ_of_lt ended⟩

theorem Good.tick (good : Good s t) : Good s.tick t where
  past := Nat.lt_succ_of_lt good.past
  slot := good.slot
  page := good.page
  read := good.read

/-- A forget: no entry of its file may be served, and no call began after it. -/
theorem forget_timely (timely : Timely s) (past : t.started < s.clock) :
    Timely (forget s t).tick ∧ ∀ u, Good s u → Good (forget s t).tick u := by
  obtain ⟨passed, none_⟩ := sweep_passed t.ops.table t.file.id (List.finRange pagecacheMax) s
  have forgets : (forget s t).forgets = ⟨t.ops.table, t.file.id, t.started, s.clock⟩ :: s.forgets := by
    rw [← passed.forgets, ← passed.clock]
    rfl
  have clock : (forget s t).clock = s.clock := passed.clock
  have swept := passed.later.timely timely
  constructor
  · refine ⟨?_, ?_⟩
    · intro i live f mem fs id
      rw [show (forget s t).tick.forgets = _ from forgets] at mem
      cases List.mem_cons.1 mem with
      | inl same =>
        subst same
        exact absurd ⟨live, fs.symm, id.symm⟩ (none_ i (List.mem_finRange i))
      | inr old => exact swept.live i live f (by rw [passed.forgets]; exact old) fs id
    · intro f mem
      rw [show (forget s t).tick.forgets = _ from forgets] at mem
      show f.began < (forget s t).clock + 1 ∧ f.ended < (forget s t).clock + 1
      rw [clock]
      cases List.mem_cons.1 mem with
      | inl same =>
        subst same
        exact ⟨Nat.lt_succ_of_lt past, Nat.lt_succ_self _⟩
      | inr old =>
        obtain ⟨began, ended⟩ := timely.past f old
        exact ⟨Nat.lt_succ_of_lt began, Nat.lt_succ_of_lt ended⟩
  · intro u good
    have good' := passed.later.good timely good
    have more {page : Nat} (may : u.May (sweep t.ops.table t.file.id (List.finRange pagecacheMax) s)
        page) : u.May (forget s t).tick page := by
      intro some_ f mem fs id before
      rw [show (forget s t).tick.forgets = _ from forgets] at mem
      cases List.mem_cons.1 mem with
      | inl same =>
        subst same
        have := good.past
        simp only at before
        omega
      | inr old => exact may some_ f (by rw [passed.forgets]; exact old) fs id before
    refine ⟨?_, fun i slot has => more (good'.slot i slot has), fun page has => more (good'.page page has),
      fun page inserts => more (good'.read page inserts)⟩
    show u.started < (forget s t).clock + 1
    rw [clock]
    exact Nat.lt_succ_of_lt good.past

/-- A call with nothing in hand. -/
theorem Good.nothing (past : t.started < s.clock) (slot : t.point.slot = none)
    (has : t.point.has = none) (inserts : t.point.inserts = none) : Good s t where
  past := past
  slot i at_ := by
    rw [slot] at at_
    cases at_
  page page at_ := by
    rw [has] at at_
    cases at_
  read page at_ := by
    rw [inserts] at at_
    cases at_

theorem pagecache_timely :
    pagecache.Inductive (fun _ s t => Current s t) Timely Good where
  act a s t current timely good := by
    by_cases forgets : t.point = .forgetting
    · have did : pagecache.act a s t = ((forget s t).tick, { t with point := .returned }) := by
        show act a s t = _
        rw [act, advance, forgets]
      obtain ⟨timely', others⟩ := forget_timely timely good.past
      rw [did]
      exact ⟨timely', .nothing (others t good).past rfl rfl rfl⟩
    · have leaves := advance_leaves a timely current good forgets
      refine ⟨(leaves.later.timely timely).tick, Good.tick ?_⟩
      refine ⟨?_, leaves.slot, leaves.page, leaves.read⟩
      rw [leaves.later.clock]
      exact good.past
  others a s t u current timely good good' := by
    by_cases forgets : t.point = .forgetting
    · have did : (pagecache.act a s t).1 = (forget s t).tick := by
        show (act a s t).1 = _
        rw [act, advance, forgets]
      rw [did]
      exact (forget_timely timely good.past).2 u good'
    · exact ((advance_leaves a timely current good forgets).later.good timely good').tick
  start c s timely := by
    obtain ⟨started, _⟩ := enter_point c s
    obtain ⟨slot, _, has, inserts⟩ := enter_empty c s
    refine ⟨timely.tick, .nothing ?_ slot has ?_⟩
    · show (enter c s).2.started < s.clock + 1
      rw [started]
      exact Nat.lt_succ_self _
    · show (enter c s).2.point.inserts = none
      cases at_ : (enter c s).2.point with
      | inserting page bytes => exact absurd at_ (inserts page bytes)
      | looking | allocating | reading | dropping | answering | releasing | holding | writingBack
      | forgetting | returned => rfl
  startOthers c s u timely good := good.tick
  outside o _ := o.elim
  outsideOthers o _ := o.elim

/-- While no page goes into the table that was read before a forget began which has swept, whatever
the order: a page that a get was given which started after a forget of its file had returned was not
read from that file before the forget began. -/
theorem forgotten_gone {moves : List (Move Around Call Empty)}
    (current : pagecache.Meets (fun _ s t => Current s t) boot moves) :
    let w := pagecache.play boot moves
    ∀ t ∈ w.threads, ∀ page, t.point.has = some page → page ≠ 0 →
      ∀ f ∈ w.shared.forgets, f.fs = t.ops.table → f.id = t.file.id → f.ended < t.started →
        ReadSince w.shared page f := by
  intro w t mem page has some_
  have timely : Timely boot.shared := by
    refine ⟨?_, by simp [boot, Shared.boot]⟩
    intro i live
    cases live.1
  have inv := pagecache_timely.play current ⟨timely, by simp [boot]⟩
  exact (inv.2 t mem).page page has some_

/-- A file is read in, forgotten, and asked for again. -/
def reread : List (Move Around Call Empty) :=
  firstGet ++ [.act 0 plain, .start (.forget (some tmpFile)), .act 1 plain] ++
    [.start (.get (some tmpFile) 0), .act 2 plain, .act 2 plain, .act 2 plain, .act 2 plain]

theorem forgotten_gone_reread :
    ∃ w, w = pagecache.play boot reread ∧ ∃ t ∈ w.threads, t.point.has = some pageSize ∧
      ∃ f ∈ w.shared.forgets, f.ended < t.started ∧ ReadSince w.shared pageSize f := by
  have current : pagecache.Meets (fun _ s t => Current s t) boot reread := by decide +kernel
  have gone := forgotten_gone current
  refine ⟨_, rfl, ⟨tmpFile, tmpfs, 0, 8, .holding ⟨0, by decide⟩ pageSize⟩, by decide +kernel, rfl,
    ⟨1, 1, 6, 7⟩, by decide +kernel, by decide, ?_⟩
  exact gone ⟨tmpFile, tmpfs, 0, 8, .holding ⟨0, by decide⟩ pageSize⟩ (by decide +kernel) pageSize rfl
    (by decide) ⟨1, 1, 6, 7⟩ (by decide +kernel) rfl rfl (by decide)

/-- A get reads the file; the file is forgotten; the page goes into the table, and is found there. -/
def overtaken : List (Move Around Call Empty) :=
  [.start (.get (some tmpFile) 0), .act 0 plain, .act 0 plain, .act 0 plain,
    .start (.forget (some tmpFile)), .act 1 plain, .act 0 plain,
    .start (.get (some tmpFile) 0), .act 2 plain]

theorem forgotten_page_is_served : ¬∀ moves : List (Move Around Call Empty),
    ∀ t ∈ (pagecache.play boot moves).threads, ∀ page, t.point.has = some page → page ≠ 0 →
      ∀ f ∈ (pagecache.play boot moves).shared.forgets, f.fs = t.ops.table → f.id = t.file.id →
        f.ended < t.started → ReadSince (pagecache.play boot moves).shared page f := by
  intro always
  have served := always overtaken ⟨tmpFile, tmpfs, 0, 7, .holding ⟨0, by decide⟩ pageSize⟩
    (by decide +kernel) pageSize rfl (by decide) ⟨1, 1, 4, 5⟩ (by decide +kernel) rfl rfl (by decide)
  revert served
  decide +kernel

end ReconOS.Pagecache
