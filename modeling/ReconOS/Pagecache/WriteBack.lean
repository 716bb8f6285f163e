import ReconOS.Pagecache.Counts

/-! What `pagecache_put` writes back: the bytes of the page, and whose page that is by then. -/
namespace ReconOS.Pagecache

open Lib Lib.System

variable {s s' : Shared} {t : Thread} {i j : Slot}

/-! ## What becomes of an entry -/

/-- The same page of the same file, as much of it. -/
structure Same (e e' : Entry) : Prop where
  valid : e'.valid = e.valid
  page : e'.page = e.page
  fs : e'.fs = e.fs
  id : e'.id = e.id
  offset : e'.offset = e.offset
  bytes : e'.bytes = e.bytes
  owner : e'.owner = e.owner

theorem Same.refl (e : Entry) : Same e e := ⟨rfl, rfl, rfl, rfl, rfl, rfl, rfl⟩

theorem Same.trans {e e' e'' : Entry} (first : Same e e') (next : Same e' e'') : Same e e'' where
  valid := next.valid.trans first.valid
  page := next.page.trans first.page
  fs := next.fs.trans first.fs
  id := next.id.trans first.id
  offset := next.offset.trans first.offset
  bytes := next.bytes.trans first.bytes
  owner := next.owner.trans first.owner

/-- Nor any more stale. -/
structure Still (e e' : Entry) : Prop extends Same e e' where
  stale : e'.stale = e.stale

theorem Still.refl (e : Entry) : Still e e := ⟨.refl e, rfl⟩

theorem Still.trans {e e' e'' : Entry} (first : Still e e') (next : Still e' e'') : Still e e'' :=
  ⟨first.toSame.trans next.toSame, next.stale.trans first.stale⟩

theorem Still.setEntry {e : Entry} (still : Still (s.entries i) e) (j : Slot) :
    Still (s.entries j) ((s.setEntry i e).entries j) := by
  by_cases at_ : j = i
  · subst at_
    rw [setEntry_entries_self]
    exact still
  · rw [setEntry_entries_of_ne at_]
    exact .refl _

/-- What a section of `t` makes of an entry. -/
inductive Fate (s : Shared) (t : Thread) (j : Slot) (e' : Entry) : Prop where
  | still (still : Still (s.entries j) e')
  /-- The last reference to it went, and it was stale. -/
  | given (stale : (s.entries j).stale = true) (gone : e'.valid = false)
  | filled (page bytes : Nat) (old : Entry) (at_ : t.point = .inserting page bytes)
      (missed : find s t.ops.table t.file.id t.offset = none)
      (victim : (spare s).1.map Prod.fst = some j) (new : e' = old.fill t page bytes)
  | forgotten (at_ : t.point = .forgetting) (fs : (s.entries j).fs = t.ops.table)
      (id : (s.entries j).id = t.file.id) (left : e'.valid = false ∨ Same (s.entries j) e')

theorem turn_still (turns : Nat) (s : Shared) (other : (turn turns s).1.map Prod.fst ≠ some j) :
    Still (s.entries j) ((turn turns s).2.entries j) := by
  induction turns generalizing s with
  | zero => exact .refl _
  | succ turns ih =>
    unfold turn at other ⊢
    dsimp only at other ⊢
    by_cases held : (s.entries s.hand).refs ≠ 0
    · rw [if_pos held] at other ⊢
      exact ih _ other
    rw [if_neg held] at other ⊢
    by_cases looked : (s.entries s.hand).referenced = true
    · rw [if_pos looked] at other ⊢
      refine Still.trans ?_ (ih _ other)
      have marked : Still (s.entries s.hand) { s.entries s.hand with referenced := false } :=
        ⟨⟨rfl, rfl, rfl, rfl, rfl, rfl, rfl⟩, rfl⟩
      exact marked.setEntry (s := { s with hand := nextHand s.hand }) j
    · rw [if_neg looked] at other ⊢
      have apart : j ≠ s.hand := by
        rintro rfl
        exact other rfl
      obtain ⟨l, evicted⟩ := evict_eq { s with hand := nextHand s.hand } s.hand
      rw [evicted, setEntry_entries_of_ne apart]
      exact .refl _

theorem spare_still (s : Shared) (other : (spare s).1.map Prod.fst ≠ some j) :
    Still (s.entries j) ((spare s).2.entries j) := by
  unfold spare at other ⊢
  split at other
  · exact .refl _
  · exact turn_still _ s other

theorem sweep_fate (fs id : Nat) (slots : List Slot) (s : Shared) (j : Slot) :
    (sweep fs id slots s).entries j = s.entries j ∨
      ((s.entries j).fs = fs ∧ (s.entries j).id = id) ∧
        (((sweep fs id slots s).entries j).valid = false ∨
          Same (s.entries j) ((sweep fs id slots s).entries j)) := by
  induction slots generalizing s with
  | nil => exact .inl rfl
  | cons i rest ih =>
    unfold sweep
    dsimp only
    split
    · exact ih s
    rename_i names
    rw [not_or, not_or, Decidable.not_not, Decidable.not_not] at names
    split
    · cases ih (s.setEntry i { s.entries i with stale := true }) with
      | inl same =>
        by_cases at_ : j = i
        · subst at_
          refine .inr ⟨names.2, .inr ?_⟩
          rw [same, setEntry_entries_self]
          exact ⟨rfl, rfl, rfl, rfl, rfl, rfl, rfl⟩
        · rw [setEntry_entries_of_ne at_] at same
          exact .inl same
      | inr forgotten =>
        obtain ⟨of, left⟩ := forgotten
        by_cases at_ : j = i
        · subst at_
          rw [setEntry_entries_self] at left
          exact .inr ⟨names.2, left.imp_right fun same =>
            ⟨same.valid, same.page, same.fs, same.id, same.offset, same.bytes, same.owner⟩⟩
        · rw [setEntry_entries_of_ne at_] at of left
          exact .inr ⟨of, left⟩
    · cases ih ((s.freePage (s.entries i).page).setEntry i
          { s.entries i with valid := false, page := 0, fs := 0, id := 0 }) with
      | inl same =>
        by_cases at_ : j = i
        · subst at_
          refine .inr ⟨names.2, .inl ?_⟩
          rw [same, setEntry_entries_self]
        · rw [setEntry_entries_of_ne at_] at same
          exact .inl same
      | inr forgotten =>
        obtain ⟨of, left⟩ := forgotten
        by_cases at_ : j = i
        · subst at_
          rw [setEntry_entries_self] at left
          refine .inr ⟨names.2, .inl ?_⟩
          cases left with
          | inl gone => exact gone
          | inr same => exact same.valid
        · rw [setEntry_entries_of_ne at_] at of left
          exact .inr ⟨of, left⟩

theorem release_still (e : Entry) : Still e e.release := by
  unfold Entry.release
  split
  · exact ⟨⟨rfl, rfl, rfl, rfl, rfl, rfl, rfl⟩, rfl⟩
  · exact .refl e

theorem clean_still (e : Entry) : Still e e.clean := by
  unfold Entry.clean
  split
  · exact ⟨⟨rfl, rfl, rfl, rfl, rfl, rfl, rfl⟩, rfl⟩
  · exact .refl e

theorem put_fate (s : Shared) (page : Nat) (j : Slot) :
    Still (s.entries j) ((put s page).1.entries j) ∨
      (s.entries j).stale = true ∧ ((put s page).1.entries j).valid = false := by
  unfold put
  split
  · exact .inl (.refl _)
  rename_i i found
  have kept := (release_still (s.entries i)).trans (clean_still _)
  dsimp only
  split
  · rename_i last
    by_cases at_ : j = i
    · subst at_
      rw [setEntry_entries_self]
      exact .inr ⟨kept.stale.symm.trans last.2, rfl⟩
    · rw [setEntry_entries_of_ne at_]
      exact .inl (.refl _)
  · exact .inl (kept.setEntry j)

theorem markShared_still (s : Shared) (page : Nat) (j : Slot) :
    Still (s.entries j) ((markShared s page).entries j) := by
  unfold markShared
  split
  · exact .refl _
  split
  · refine Still.setEntry ?_ j
    exact ⟨⟨rfl, rfl, rfl, rfl, rfl, rfl, rfl⟩, rfl⟩
  · exact .refl _

theorem insertPage_fate {page bytes : Nat} (at_ : t.point = .inserting page bytes) (j : Slot) :
    Fate s t j ((insertPage s t page bytes).1.entries j) := by
  unfold insertPage
  split
  · refine .still (Still.setEntry ?_ j)
    exact ⟨⟨rfl, rfl, rfl, rfl, rfl, rfl, rfl⟩, rfl⟩
  rename_i missed
  have spared := spare_still (j := j) s
  cases taken : spare s with
  | mk found s' =>
    rw [taken] at spared
    cases found with
    | none => exact .still (spared nofun)
    | some victim =>
      obtain ⟨i, evicted⟩ := victim
      dsimp only
      by_cases same : j = i
      · subst same
        rw [setEntry_entries_self]
        exact .filled page bytes _ at_ missed (by rw [taken]; rfl) rfl
      · rw [setEntry_entries_of_ne same]
        refine .still (spared ?_)
        intro other
        cases other
        exact same rfl

theorem advance_fate (a : Around) (s : Shared) (t : Thread) (j : Slot) :
    Fate s t j ((advance a s t).1.entries j) := by
  unfold advance
  cases at_ : t.point with
  | looking =>
    dsimp only
    unfold look
    split
    · rename_i i found
      have held : Still (s.entries i) { (s.entries i).hold with referenced := true } :=
        ⟨⟨rfl, rfl, rfl, rfl, rfl, rfl, rfl⟩, rfl⟩
      exact .still (held.setEntry j)
    · exact .still (.refl _)
  | allocating =>
    dsimp only
    unfold allocate
    split <;> exact .still (.refl _)
  | reading page =>
    dsimp only
    unfold readIn
    split
    · exact .still (.refl _)
    · split <;> exact .still (.refl _)
  | inserting page bytes => exact insertPage_fate at_ j
  | dropping page found | answering i | releasing file i page | returned => exact .still (.refl _)
  | holding i page =>
    dsimp only
    split
    · exact .still (markShared_still s page j)
    · cases put_fate s page j with
      | inl still => exact .still still
      | inr given => exact .given given.1 given.2
  | writingBack back =>
    dsimp only
    obtain ⟨l, same⟩ := writeBack_eq s back
    rw [same]
    exact .still (.refl _)
  | forgetting =>
    have fate := sweep_fate t.ops.table t.file.id (List.finRange pagecacheMax) s j
    cases fate with
    | inl same =>
      show Fate s t j ((sweep _ _ _ s).entries j)
      rw [same]
      exact .still (.refl _)
    | inr forgotten => exact .forgotten at_ forgotten.1.1 forgotten.1.2 forgotten.2

/-! ## Which pages are out -/

/-- Pages are given back, and none is taken. -/
def Gives (s s' : Shared) : Prop := ∀ p, s'.out p = true → s.out p = true

theorem Gives.freePage (s : Shared) (page : Nat) : Gives s (s.freePage page) := by
  intro p out
  by_cases same : p = page
  · subst same
    have : Function.update s.out p false p = true := out
    rw [Function.update_self] at this
    cases this
  · have : Function.update s.out page false p = true := out
    rwa [Function.update_of_ne same] at this

theorem writeBack_out (s : Shared) (b : Back) : (writeBack s b).out = s.out := by
  obtain ⟨l, same⟩ := writeBack_eq s b
  rw [same]

theorem evict_gives (s : Shared) (i : Slot) : Gives s (evict s i) := by
  obtain ⟨l, evicted⟩ := evict_eq s i
  rw [evicted]
  exact Gives.freePage { s with written := l } _

theorem turn_gives (turns : Nat) (s : Shared) : Gives s (turn turns s).2 := by
  induction turns generalizing s with
  | zero => exact fun _ out => out
  | succ turns ih =>
    unfold turn
    dsimp only
    split
    · exact ih _
    split
    · exact ih _
    · exact evict_gives _ _

theorem spare_gives (s : Shared) : Gives s (spare s).2 := by
  unfold spare
  split
  · exact fun _ out => out
  · exact turn_gives _ s

theorem sweep_gives (fs id : Nat) (slots : List Slot) (s : Shared) :
    Gives s (sweep fs id slots s) := by
  induction slots generalizing s with
  | nil => exact fun _ out => out
  | cons i rest ih =>
    unfold sweep
    dsimp only
    split
    · exact ih s
    split
    · exact ih _
    · intro p out
      have before := ih _ p out
      exact Gives.freePage s (s.entries i).page p before

theorem put_gives (s : Shared) (page : Nat) : Gives s (put s page).1 := by
  unfold put
  split
  · exact fun _ out => out
  dsimp only
  split
  · exact Gives.freePage _ _
  · exact fun _ out => out

theorem markShared_out (s : Shared) (page : Nat) : (markShared s page).out = s.out := by
  unfold markShared
  split
  · rfl
  · split <;> rfl

theorem insertPage_gives (s : Shared) (t : Thread) (page bytes : Nat) :
    Gives s (insertPage s t page bytes).1 := by
  unfold insertPage
  split
  · exact fun _ out => out
  have gives := spare_gives s
  cases taken : spare s with
  | mk found s' =>
    rw [taken] at gives
    cases found with
    | none => exact gives
    | some victim => exact gives

/-- The one page a section can take is the one that the allocator offers it. -/
theorem advance_gives (a : Around) (s : Shared) (t : Thread) (other : t.point ≠ .allocating) :
    Gives s (advance a s t).1 := by
  unfold advance
  cases at_ : t.point with
  | looking =>
    dsimp only
    unfold look
    split <;> exact fun _ out => out
  | allocating => exact absurd at_ other
  | reading page =>
    dsimp only
    unfold readIn
    split
    · exact fun _ out => out
    · split <;> exact fun _ out => out
  | inserting page bytes => exact insertPage_gives s t page bytes
  | dropping page found => exact Gives.freePage s page
  | answering i | releasing file i page | returned => exact fun _ out => out
  | holding i page =>
    dsimp only
    split
    · intro p out
      rwa [markShared_out] at out
    · exact put_gives s page
  | writingBack back =>
    intro p out
    rwa [writeBack_out] at out
  | forgetting => exact sweep_gives t.ops.table t.file.id (List.finRange pagecacheMax) s

theorem allocate_out (offered : Nat) (s : Shared) {p : Nat}
    (out : (allocate offered s).1.out p = true) :
    s.out p = true ∨ (allocate offered s).2 = .reading p := by
  unfold allocate at out ⊢
  split at out
  · exact .inl out
  rename_i free
  rw [if_neg free]
  by_cases same : p = offered
  · exact .inr (by rw [same])
  · exact .inl ((Function.update_of_ne same ..).symm.trans out)

/-! ## Nothing is dirty that nobody has -/

/-- A page to which there is no reference has been written back. -/
def Settled (s : Shared) : Prop := ∀ i, (s.entries i).refs = 0 → (s.entries i).dirty = false

theorem Settled.setEntry {e : Entry} (settled : Settled s) (clean : e.refs = 0 → e.dirty = false) :
    Settled (s.setEntry i e) := by
  intro j
  by_cases at_ : j = i
  · subst at_
    rw [setEntry_entries_self]
    exact clean
  · rw [setEntry_entries_of_ne at_]
    exact settled j

theorem turn_settled (turns : Nat) (settled : Settled s) : Settled (turn turns s).2 := by
  induction turns generalizing s with
  | zero => exact settled
  | succ turns ih =>
    unfold turn
    dsimp only
    split
    · exact ih settled
    split
    · exact ih (Settled.setEntry (s := { s with hand := nextHand s.hand }) settled
        (settled s.hand))
    · obtain ⟨l, evicted⟩ := evict_eq { s with hand := nextHand s.hand } s.hand
      rw [evicted]
      exact Settled.setEntry settled fun _ => rfl

theorem spare_settled (settled : Settled s) : Settled (spare s).2 := by
  unfold spare
  split
  · exact settled
  · exact turn_settled _ settled

theorem sweep_settled (fs id : Nat) (slots : List Slot) (settled : Settled s) :
    Settled (sweep fs id slots s) := by
  induction slots generalizing s with
  | nil => exact settled
  | cons i rest ih =>
    unfold sweep
    dsimp only
    split
    · exact ih settled
    split
    · exact ih (settled.setEntry (settled i))
    · exact ih (Settled.setEntry (s := s.freePage _) settled (settled i))

theorem clean_settled (e : Entry) (last : e.release.clean.refs = 0) :
    e.release.clean.dirty = false := by
  unfold Entry.clean at last ⊢
  split
  · rfl
  · rename_i written
    rw [if_neg written] at last
    exact Bool.eq_false_iff.2 fun dirty => written ⟨last, dirty⟩

theorem put_settled (settled : Settled s) (page : Nat) : Settled (put s page).1 := by
  unfold put
  split
  · exact settled
  rename_i i found
  dsimp only
  split
  · refine Settled.setEntry (s := s.freePage _) settled ?_
    exact clean_settled (s.entries i)
  · exact settled.setEntry (clean_settled (s.entries i))

theorem advance_settled (a : Around) (sound : Sound s) (room : Room s t) (has : Has s t)
    (budget : inHand t ≤ due s) (settled : Settled s) : Settled (advance a s t).1 := by
  unfold advance
  cases at_ : t.point with
  | looking =>
    dsimp only
    unfold look
    split
    · rename_i i found
      have more := room.hold (by rw [at_]; rfl) found
      refine settled.setEntry fun free => ?_
      have free : (s.entries i).hold.refs = 0 := free
      omega
    · exact settled
  | allocating =>
    dsimp only
    unfold allocate
    split <;> exact settled
  | reading page =>
    dsimp only
    unfold readIn
    split
    · exact settled
    · split <;> exact settled
  | inserting page bytes =>
    dsimp only
    unfold insertPage
    split
    · rename_i i found
      have more := room.hold (by rw [at_]; rfl) found
      refine settled.setEntry fun free => ?_
      omega
    · have spared := spare_settled settled
      split
      · rename_i s' none_
        rw [none_] at spared
        exact spared
      · rename_i i evicted s' taken
        rw [taken] at spared
        exact spared.setEntry nofun
  | dropping page found | answering i | releasing file i page | returned => exact settled
  | holding i page =>
    dsimp only
    split
    · have valid : (s.entries i).valid = true := (has.entry i (by rw [at_]; rfl)).1
      have here : (s.entries i).page = page := has.page i page (by rw [at_]; rfl) (by rw [at_]; rfl)
      have some_ : 0 < (s.entries i).refs := budget_slot budget (by rw [at_]; rfl)
      unfold markShared
      split
      · exact settled
      rename_i j found
      have found : findPage s page = some j := by
        split at found
        · cases found
        · exact found
      obtain ⟨valid', there⟩ := findPage_some found
      have same : j = i := sound.apart j i valid' valid (there.trans here.symm)
      subst same
      split
      · refine settled.setEntry fun free => ?_
        have free : (s.entries j).refs = 0 := free
        omega
      · exact settled
    · exact put_settled settled page
  | writingBack back =>
    dsimp only
    obtain ⟨l, same⟩ := writeBack_eq s back
    rw [same]
    exact settled
  | forgetting => exact sweep_settled t.ops.table t.file.id (List.finRange pagecacheMax) settled

/-! ## Bytes -/

/-- The bytes in a page. -/
abbrev Bytes := Fin pageSize → UInt8

/-- The cache and the pages in memory. On the side, for each page: the bytes that the cache, and
those it gave the page to, left there, and how often one of those has stored into it. -/
structure Memory where
  cache : Shared
  bytes : Nat → Bytes
  own : Nat → Bytes
  stores : Nat → Nat

/-- A call; on the side, what was in its page when it last did something with it, and how often that
had been stored into. -/
structure User where
  thread : Thread
  left : Bytes
  stores : Nat

/-- A call runs its next section, with `data` in the file where that reads it; or the holder of a
page stores a byte into it. -/
inductive Doing where
  | go (a : Around) (data : Bytes)
  | store (place : Fin pageSize) (byte : UInt8)

def Memory.leave (m : Memory) (page : Nat) (b : Bytes) : Memory :=
  { m with bytes := Function.update m.bytes page b, own := Function.update m.own page b }

/-- A page is set to zeroes when it is allocated, and then the file is read over that. -/
def Memory.fill (m : Memory) (data : Bytes) : Point → Point → Memory
  | .allocating, .reading page => m.leave page fun _ => 0
  | .reading page, .inserting _ n =>
    m.leave page fun k => if k.val < n then data k else m.bytes page k
  | _, _ => m

/-- With the section run; what is in the page that the call has is noted. -/
def User.goOn (u : User) (m : Memory) (t : Thread) : User :=
  match u.thread.point with
  | .holding _ page => ⟨t, m.bytes page, m.stores page⟩
  | _ => { u with thread := t }

def perform (d : Doing) (m : Memory) (u : User) : Memory × User :=
  match d with
  | .go a data =>
    ({ m.fill data u.thread.point (advance a m.cache u.thread).2 with
        cache := (act a m.cache u.thread).1 },
      u.goOn m (act a m.cache u.thread).2)
  | .store place byte =>
    match u.thread.point with
    | .holding _ page =>
      ({ m.leave page (Function.update (m.bytes page) place byte) with
        stores := Function.update m.stores page (m.stores page + 1) }, u)
    | _ => (m, u)

/-- Whoever else has memory does what they like with it. -/
def memory : System Memory User Doing Call (Nat × Bytes) where
  act := perform
  start c m := ({ m with cache := (enter c m.cache).1 }, ⟨(enter c m.cache).2, fun _ => 0, 0⟩)
  outside o m := if m.cache.out o.1 then m else { m with bytes := Function.update m.bytes o.1 o.2 }

def blankMemory : World Memory User := ⟨⟨.boot, fun _ _ => 0, fun _ _ => 0, fun _ => 0⟩, []⟩

/-! ## What is to hold -/

/-- What a call is about to write back. -/
def Point.writes : Point → Option Back
  | .writingBack back => some back
  | _ => none

/-- The entry still has the page, for that part of that file, which has not been rewritten. -/
structure Entry.Keeps (e : Entry) (b : Back) : Prop where
  valid : e.valid = true
  fresh : e.stale = false
  page : e.page = b.page
  offset : e.offset = b.offset
  bytes : e.bytes = b.bytes
  owner : e.owner = some b.file
  fs : b.file.ops.map FileOps.table = some e.fs
  id : b.file.id = e.id

/-- What is about to be written is in the page that the entry has, as those who had it left it; and
where none has stored into it since, as it was when the last reference was put. -/
structure Backed (m : Memory) (u : User) (b : Back) : Prop where
  entry : ∃ j, (m.cache.entries j).Keeps b
  own : m.bytes b.page = m.own b.page
  last : m.stores b.page = u.stores → m.bytes b.page = u.left

/-- A page in the entry is still to be written back. -/
def Awaited (w : World Memory User) (j : Slot) : Prop :=
  (w.shared.cache.entries j).valid = true ∧
    ∃ u ∈ w.threads, ∃ b ∈ u.thread.point.writes, (w.shared.cache.entries j).page = b.page

instance (w : World Memory User) (j : Slot) : Decidable (Awaited w j) :=
  inferInstanceAs (Decidable (_ ∧ _))

/-- No entry is taken, and none forgotten, whose page is still to be written back; and the last
reference that is put is not to a page that is both dirty and stale. -/
def CarefulAt (w : World Memory User) (a : Around) (t : Thread) : Point → Prop
  | .inserting _ _ => find w.shared.cache t.ops.table t.file.id t.offset = none →
    ∀ j ∈ (spare w.shared.cache).1.map Prod.fst, ¬Awaited w j
  | .forgetting => ∀ j, (w.shared.cache.entries j).fs = t.ops.table →
    (w.shared.cache.entries j).id = t.file.id → ¬Awaited w j
  | .holding _ page => a.use = .put → ∀ j ∈ findPage w.shared.cache page,
    ¬((w.shared.cache.entries j).release.Unwritten ∧ (w.shared.cache.entries j).stale = true)
  | _ => True

instance (w : World Memory User) (a : Around) (t : Thread) (point : Point) :
    Decidable (CarefulAt w a t point) :=
  match point with
  | .inserting _ _ => inferInstanceAs (Decidable (_ → ∀ _ ∈ _, _))
  | .forgetting => inferInstanceAs (Decidable (∀ _ : Slot, _ → _ → _))
  | .holding _ _ => inferInstanceAs (Decidable (_ → ∀ _ ∈ _, _))
  | .looking | .allocating | .reading _ | .dropping _ _ | .answering _ | .releasing _ _ _
  | .writingBack _ | .returned => inferInstanceAs (Decidable True)

def Careful (w : World Memory User) : Move Doing Call (Nat × Bytes) → Prop
  | .act i (.go a _) => ∀ u ∈ w.threads[i]?,
    Room w.shared.cache u.thread ∧ CarefulAt w a u.thread u.thread.point
  | _ => True

instance (w : World Memory User) (m : Move Doing Call (Nat × Bytes)) : Decidable (Careful w m) :=
  match m with
  | .act i (.go _ _) => inferInstanceAs (Decidable (∀ u ∈ w.threads[i]?, _ ∧ _))
  | .act _ (.store _ _) | .start _ | .outside _ => inferInstanceAs (Decidable True)

/-! ## Every order -/

/-- The cache, without the bytes. -/
def cacheOf (w : World Memory User) : World Shared Thread :=
  ⟨w.shared.cache, w.threads.map User.thread⟩

/-- A call that may still do something is about the file whose operations it has. -/
def Formed (t : Thread) : Prop := t.point ≠ .returned → t.file.ops = some t.ops

/-- The file of an entry is the one that it is filled from. -/
def Entry.Apt (e : Entry) : Prop :=
  e.valid = true → ∀ f ∈ e.owner, f.ops.map FileOps.table = some e.fs ∧ f.id = e.id

/-- What a call relies on that is to write a page back. -/
structure Due (m : Memory) (u : User) (b : Back) : Prop where
  entry : ∃ j, (m.cache.entries j).Keeps b
  past : u.stores ≤ m.stores b.page
  last : m.stores b.page = u.stores → m.own b.page = u.left

structure Ordered (w : World Memory User) : Prop where
  kept : Kept Sound Has (fun _ => 0) inHand due (cacheOf w)
  settled : Settled w.shared.cache
  apt : ∀ j, (w.shared.cache.entries j).Apt
  formed : ∀ u ∈ w.threads, Formed u.thread
  own : ∀ p, w.shared.cache.out p = true → w.shared.bytes p = w.shared.own p
  writes : ∀ u ∈ w.threads, ∀ b ∈ u.thread.point.writes, Due w.shared u b

variable {w : World Memory User} {m : Memory} {u : User} {b : Back} {a : Around} {data : Bytes}

theorem Entry.Keeps.still {e e' : Entry} (keeps : e.Keeps b) (still : Still e e') : e'.Keeps b where
  valid := still.valid.trans keeps.valid
  fresh := still.stale.trans keeps.fresh
  page := still.page.trans keeps.page
  offset := still.offset.trans keeps.offset
  bytes := still.bytes.trans keeps.bytes
  owner := still.owner.trans keeps.owner
  fs := keeps.fs.trans (congrArg some still.fs.symm)
  id := keeps.id.trans still.id.symm

theorem Entry.Apt.same {e e' : Entry} (apt : e.Apt) (same : Same e e') : e'.Apt := by
  intro valid f owner
  rw [same.valid] at valid
  rw [same.owner] at owner
  rw [same.fs, same.id]
  exact apt valid f owner

/-- An entry stays apt, whatever becomes of it. -/
theorem Fate.apt {e : Entry} (formed : Formed t) (apt : (s.entries j).Apt) (fate : Fate s t j e) :
    e.Apt := by
  cases fate with
  | still still => exact apt.same still.toSame
  | given stale gone =>
    intro valid
    rw [gone] at valid
    cases valid
  | filled page bytes old at_ missed victim new =>
    intro _ f owner
    rw [new] at owner ⊢
    have owner : f ∈ (if t.ops.writeAt then some t.file else none : Option File) := owner
    split at owner
    · cases owner
      have ops := formed (by rw [at_]; simp)
      exact ⟨by rw [ops]; rfl, rfl⟩
    · cases owner
  | forgotten at_ fs id left =>
    cases left with
    | inl gone =>
      intro valid
      rw [gone] at valid
      cases valid
    | inr same => exact apt.same same

@[simp] theorem goOn_thread (t : Thread) : (u.goOn m t).thread = t := by
  unfold User.goOn
  split <;> rfl

@[simp] theorem fill_stores (before after : Point) :
    (m.fill data before after).stores = m.stores := by
  unfold Memory.fill
  split <;> rfl

theorem leave_own_of_ne {page p : Nat} {c : Bytes} (other : p ≠ page) :
    (m.leave page c).own p = m.own p := Function.update_of_ne other ..

/-- A page that the cache filled has in it what the cache left there. -/
theorem leave_agrees {page p : Nat} {c : Bytes} (agrees : p ≠ page → m.bytes p = m.own p) :
    (m.leave page c).bytes p = (m.leave page c).own p := by
  unfold Memory.leave
  dsimp only
  by_cases same : p = page
  · rw [same, Function.update_self, Function.update_self]
  · rw [Function.update_of_ne same, Function.update_of_ne same]
    exact agrees same

theorem fill_agrees {before after : Point} {p : Nat}
    (agrees : (before = .allocating → after ≠ .reading p) → m.bytes p = m.own p) :
    (m.fill data before after).bytes p = (m.fill data before after).own p := by
  unfold Memory.fill
  split
  · refine leave_agrees fun other => agrees fun _ same => ?_
    cases same
    exact other rfl
  · exact leave_agrees fun _ => agrees nofun
  · rename_i other _
    refine agrees ?_
    rintro rfl rfl
    exact other _ rfl rfl

/-- What fills pages leaves the others as they are. -/
theorem fill_own {before after : Point} {p : Nat}
    (fresh : before = .allocating → after ≠ .reading p) (apart : before ≠ .reading p) :
    (m.fill data before after).own p = m.own p := by
  unfold Memory.fill
  split
  · refine leave_own_of_ne ?_
    rintro rfl
    exact fresh rfl rfl
  · refine leave_own_of_ne ?_
    rintro rfl
    exact apart rfl
  · rfl

/-! ## One section -/

theorem allocate_fresh {offered p : Nat} (taken : (allocate offered s).2 = .reading p) :
    s.out p = false := by
  unfold allocate at taken
  split at taken
  · cases taken
  · rename_i free
    cases taken
    rw [not_or, Bool.not_eq_true] at free
    exact free.2

/-- What another call is to write back is not touched. -/
theorem Ordered.due_other (ordered : Ordered w) (careful : CarefulAt w a u.thread u.thread.point)
    (mem : u ∈ w.threads) {v : User} (mem' : v ∈ w.threads) (writes : b ∈ v.thread.point.writes) :
    Due (perform (.go a data) w.shared u).1 v b := by
  obtain ⟨⟨j, keeps⟩, past, last⟩ := ordered.writes v mem' b writes
  have awaited : Awaited w j := ⟨keeps.valid, v, mem', b, writes, keeps.page⟩
  have sound := ordered.kept.shared
  have budget : inHand u.thread ≤ due w.shared.cache := by
    have := ordered.kept.hand_le (List.mem_map_of_mem mem)
    rwa [zero_add] at this
  have still :
      Still (w.shared.cache.entries j) ((advance a w.shared.cache u.thread).1.entries j) := by
    cases advance_fate a w.shared.cache u.thread j with
    | still still => exact still
    | given stale _ =>
      rw [keeps.fresh] at stale
      cases stale
    | filled page bytes old at_ missed victim new =>
      rw [at_] at careful
      exact absurd awaited (careful missed j victim)
    | forgotten at_ fs id left =>
      rw [at_] at careful
      exact absurd awaited (careful j fs id)
  have out : w.shared.cache.out b.page = true := by
    rw [← keeps.page]
    exact sound.out j keeps.valid
  refine ⟨⟨j, keeps.still still⟩, ?_, ?_⟩
  · show v.stores ≤ (w.shared.fill data _ _).stores b.page
    rw [fill_stores]
    exact past
  · intro since
    have since : (w.shared.fill data u.thread.point (advance a w.shared.cache u.thread).2).stores
        b.page = v.stores := since
    rw [fill_stores] at since
    refine Eq.trans (fill_own ?_ ?_) (last since)
    · intro at_ taken
      unfold advance at taken
      rw [at_] at taken
      rw [allocate_fresh taken] at out
      cases out
    · intro at_
      have loose : Loose w.shared.cache b.page := budget_loose budget (by rw [at_]; rfl)
      exact loose.2 j ⟨keeps.valid, keeps.page⟩

theorem put_writes {page : Nat} (writes : b ∈ (put s page).2.writes) :
    ∃ j, findPage s page = some j ∧ (s.entries j).release.Unwritten ∧
      (s.entries j).owner = some b.file ∧
      b = ⟨b.file, (s.entries j).offset, page, (s.entries j).bytes⟩ ∧
      ((s.entries j).stale = false → Still (s.entries j) ((put s page).1.entries j)) := by
  unfold put at writes ⊢
  cases found : (if page = 0 then none else findPage s page) with
  | none =>
    rw [found] at writes
    cases writes
  | some j =>
    rw [found] at writes
    have found : findPage s page = some j := by
      split at found
      · cases found
      · exact found
    have released := release_still (s.entries j)
    have kept := released.trans (clean_still _)
    dsimp only at writes ⊢
    cases back : (s.entries j).release.back with
    | none =>
      rw [back] at writes
      cases writes
    | some c =>
      rw [back] at writes
      cases writes
      unfold Entry.back at back
      split at back
      · rename_i last
        obtain ⟨f, owner, rfl⟩ := Option.map_eq_some_iff.1 back
        refine ⟨j, found, last, released.owner.symm.trans owner, ?_, ?_⟩
        · rw [released.offset, released.bytes, released.page, (findPage_some found).2]
        · intro fresh
          rw [if_neg, setEntry_entries_self]
          · exact kept
          · rintro ⟨_, stale⟩
            rw [kept.stale, fresh] at stale
            cases stale
      · cases back

/-- Only a put leads to a write back. -/
theorem advance_writes (writes : b ∈ (advance a s t).2.writes) : ∃ i page,
    t.point = .holding i page ∧ a.use = .put ∧ advance a s t = put s page := by
  unfold advance at writes ⊢
  cases at_ : t.point with
  | looking =>
    rw [at_] at writes
    dsimp only at writes
    unfold look at writes
    split at writes <;> cases writes
  | allocating =>
    rw [at_] at writes
    dsimp only at writes
    unfold allocate at writes
    split at writes <;> cases writes
  | reading page =>
    rw [at_] at writes
    dsimp only at writes
    unfold readIn at writes
    split at writes
    · cases writes
    · split at writes <;> cases writes
  | inserting page bytes =>
    rw [at_] at writes
    dsimp only at writes
    unfold insertPage at writes
    split at writes
    · cases writes
    split at writes
    · cases writes
    · rename_i i evicted s' taken
      cases evicted <;> cases writes
  | dropping page found =>
    rw [at_] at writes
    cases found <;> cases writes
  | answering i | releasing file i page | writingBack back | forgetting | returned =>
    rw [at_] at writes
    cases writes
  | holding i page =>
    rw [at_] at writes
    dsimp only at writes ⊢
    cases use : a.use with
    | markShared =>
      rw [use] at writes
      cases writes
    | put => exact ⟨i, page, rfl, rfl, rfl⟩

/-- The one that puts the last reference is to write back what is in the page. -/
theorem Ordered.due_self (ordered : Ordered w) (careful : CarefulAt w a u.thread u.thread.point)
    (writes : b ∈ (advance a w.shared.cache u.thread).2.writes) :
    Due (perform (.go a data) w.shared u).1 (perform (.go a data) w.shared u).2 b := by
  obtain ⟨i, page, at_, use, same⟩ := advance_writes writes
  rw [same] at writes
  obtain ⟨j, found, last, owner, named, still⟩ := put_writes writes
  obtain ⟨valid, here⟩ := findPage_some found
  rw [at_] at careful
  have fresh : (w.shared.cache.entries j).stale = false := by
    rw [← Bool.not_eq_true]
    exact fun stale => careful use j found ⟨last, stale⟩
  obtain ⟨fs, id⟩ := ordered.apt j valid b.file owner
  have keeps : (w.shared.cache.entries j).Keeps b := by
    refine ⟨valid, fresh, ?_, ?_, ?_, owner, fs, id⟩
    · rw [named]
      exact here
    · rw [named]
    · rw [named]
  have filled :
      w.shared.fill data u.thread.point (advance a w.shared.cache u.thread).2 = w.shared := by
    rw [at_]
    rfl
  have noted : u.goOn w.shared (act a w.shared.cache u.thread).2 =
      ⟨(act a w.shared.cache u.thread).2, w.shared.bytes b.page, w.shared.stores b.page⟩ := by
    unfold User.goOn
    rw [at_, named]
  unfold perform
  dsimp only
  rw [filled, noted]
  refine ⟨⟨j, ?_⟩, Nat.le_refl _, fun _ => ?_⟩
  · refine keeps.still ?_
    show Still _ ((advance a w.shared.cache u.thread).1.entries j)
    rw [same]
    exact still fresh
  · refine (ordered.own b.page ?_).symm
    rw [← keeps.page]
    exact ordered.kept.shared.out j valid

/-! ## Every order of them -/

theorem Formed.enter (c : Call) (s : Shared) : Formed (enter c s).2 := by
  have named_ops {f : Option File} {file : File} {ops : FileOps} (is : named f = some (file, ops)) :
      file.ops = some ops := by
    unfold named at is
    split at is
    · cases is
    split at is
    · cases is
    · rename_i has
      split at is
      · cases is
        exact has
      · cases is
  intro goes
  unfold Pagecache.enter at goes ⊢
  dsimp only at goes ⊢
  cases c with
  | get f offset =>
    dsimp only at goes ⊢
    split at goes
    · rename_i file ops is
      split at goes
      · rename_i aligned
        rw [if_pos aligned]
        exact named_ops is
      · exact absurd rfl goes
    · exact absurd rfl goes
  | forget f =>
    dsimp only at goes ⊢
    split at goes
    · rename_i file ops is
      exact named_ops is
    · exact absurd rfl goes

theorem Formed.act (formed : Formed t) (a : Around) (s : Shared) : Formed (act a s t).2 := by
  intro goes
  refine formed ?_
  intro ended
  refine goes ?_
  show (advance a s t).2 = .returned
  unfold advance
  rw [ended]

theorem cacheOf_go {i : Nat} (at_ : w.threads[i]? = some u) :
    cacheOf (memory.step w (.act i (.go a data))) = pagecache.step (cacheOf w) (.act i a) := by
  have at' : (cacheOf w).threads[i]? = some u.thread := by
    show (w.threads.map User.thread)[i]? = _
    rw [List.getElem?_map, at_]
    rfl
  rw [step_act memory at_, step_act pagecache at']
  show (⟨_, (w.threads.set i _).map User.thread⟩ : World Shared Thread) = _
  rw [List.map_set]
  have thread : (memory.act (.go a data) w.shared u).2.thread = (act a w.shared.cache u.thread).2 :=
    goOn_thread _
  rw [thread]
  rfl

theorem Ordered.go (ordered : Ordered w) {i : Nat} (at_ : w.threads[i]? = some u)
    (room : Room w.shared.cache u.thread) (careful : CarefulAt w a u.thread u.thread.point) :
    Ordered (memory.step w (.act i (.go a data))) := by
  have mem := List.mem_of_getElem? at_
  have sound := ordered.kept.shared
  have has := ordered.kept.each u.thread (List.mem_map_of_mem mem)
  have budget : inHand u.thread ≤ due w.shared.cache := by
    have := ordered.kept.hand_le (List.mem_map_of_mem mem)
    rwa [zero_add] at this
  have kept : Kept Sound Has (fun _ => 0) inHand due
      (cacheOf (memory.step w (.act i (.go a data)))) := by
    rw [cacheOf_go at_]
    refine pagecache_keeps.step ?_ ordered.kept
    intro t at'
    have same : t = u.thread := by
      have at' : (w.threads.map User.thread)[i]? = some t := at'
      rw [List.getElem?_map, at_] at at'
      exact (Option.some.inj at').symm
    rw [same]
    exact room
  have stepped : memory.step w (.act i (.go a data)) =
      ⟨(perform (.go a data) w.shared u).1, w.threads.set i (perform (.go a data) w.shared u).2⟩ :=
    step_act memory at_ (.go a data)
  have thread : (perform (.go a data) w.shared u).2.thread = (act a w.shared.cache u.thread).2 :=
    goOn_thread _
  have formed := ordered.formed u mem
  refine ⟨kept, ?_, ?_, ?_, ?_, ?_⟩ <;> rw [stepped]
  · exact advance_settled a sound room has budget ordered.settled
  · exact fun j => (advance_fate a w.shared.cache u.thread j).apt formed (ordered.apt j)
  · intro v mem'
    cases mem_set_cases mem' with
    | inl same =>
      rw [same, thread]
      exact formed.act a w.shared.cache
    | inr other => exact ordered.formed v (List.mem_of_mem_eraseIdx other)
  · intro p out
    refine fill_agrees fun fresh => ?_
    refine ordered.own p ?_
    by_cases allocates : u.thread.point = .allocating
    · have out : (advance a w.shared.cache u.thread).1.out p = true := out
      have fresh := fresh allocates
      unfold advance at out fresh
      rw [allocates] at out fresh
      exact (allocate_out a.offered w.shared.cache out).resolve_right fresh
    · exact advance_gives a w.shared.cache u.thread allocates p out
  · intro v mem' b writes
    cases mem_set_cases mem' with
    | inl same =>
      rw [same] at writes ⊢
      rw [thread] at writes
      exact ordered.due_self careful writes
    | inr other => exact ordered.due_other careful mem (List.mem_of_mem_eraseIdx other) writes

theorem perform_store (m : Memory) (u : User) (place : Fin pageSize) (byte : UInt8) :
    (perform (.store place byte) m u).2 = u := by
  unfold perform
  dsimp only
  split <;> rfl

theorem Ordered.store (ordered : Ordered w) (i : Nat) (place : Fin pageSize) (byte : UInt8) :
    Ordered (memory.step w (.act i (.store place byte))) := by
  cases at_ : w.threads[i]? with
  | none =>
    rw [step_act_none memory at_]
    exact ordered
  | some u =>
    have threads : w.threads.set i (memory.act (.store place byte) w.shared u).2 = w.threads := by
      obtain ⟨lt, rfl⟩ := List.getElem?_eq_some_iff.1 at_
      show w.threads.set i (perform _ _ _).2 = _
      rw [perform_store, List.set_getElem_self]
    rw [step_act memory at_, threads]
    show Ordered ⟨(perform (.store place byte) w.shared u).1, w.threads⟩
    unfold perform
    dsimp only
    split
    · rename_i slot page _
      refine ⟨ordered.kept, ordered.settled, ordered.apt, ordered.formed, ?_, ?_⟩
      · exact fun p out => leave_agrees fun _ => ordered.own p out
      · intro v mem b writes
        obtain ⟨entry, past, last⟩ := ordered.writes v mem b writes
        refine ⟨entry, ?_, fun since => ?_⟩
        · show v.stores ≤ Function.update w.shared.stores page _ b.page
          by_cases same : b.page = page
          · rw [← same, Function.update_self]
            omega
          · rw [Function.update_of_ne same]
            exact past
        · have since : Function.update w.shared.stores page (w.shared.stores page + 1) b.page =
              v.stores := since
          by_cases same : b.page = page
          · rw [← same, Function.update_self] at since
            omega
          · rw [Function.update_of_ne same] at since
            exact (leave_own_of_ne same).trans (last since)
    · exact ordered

theorem Ordered.start (ordered : Ordered w) (c : Call) : Ordered (memory.step w (.start c)) := by
  have kept : Kept Sound Has (fun _ => 0) inHand due (cacheOf (memory.step w (.start c))) := by
    have same : cacheOf (memory.step w (.start c)) = pagecache.step (cacheOf w) (.start c) := by
      show (⟨_, (w.threads ++ [_]).map User.thread⟩ : World Shared Thread) = _
      rw [List.map_append]
      rfl
    rw [same]
    exact pagecache_keeps.step trivial ordered.kept
  obtain ⟨_, point⟩ := enter_point c w.shared.cache
  refine ⟨kept, ordered.settled, ordered.apt, ?_, ordered.own, ?_⟩
  · intro v mem
    cases List.mem_append.1 mem with
    | inl other => exact ordered.formed v other
    | inr new =>
      rw [List.mem_singleton.1 new]
      exact Formed.enter c w.shared.cache
  · intro v mem b writes
    cases List.mem_append.1 mem with
    | inl other =>
      obtain ⟨entry, past, last⟩ := ordered.writes v other b writes
      exact ⟨entry, past, last⟩
    | inr new =>
      rw [List.mem_singleton.1 new] at writes
      have writes : b ∈ (enter c w.shared.cache).2.point.writes := writes
      rcases point with point | point | point <;> rw [point] at writes <;> cases writes

theorem Ordered.outside (ordered : Ordered w) (o : Nat × Bytes) :
    Ordered (memory.step w (.outside o)) := by
  show Ordered ⟨memory.outside o w.shared, w.threads⟩
  unfold memory
  dsimp only
  split
  · exact ordered
  · rename_i in_
    refine ⟨ordered.kept, ordered.settled, ordered.apt, ordered.formed, ?_, ?_⟩
    · intro p out
      refine (Function.update_of_ne ?_ ..).trans (ordered.own p out)
      rintro rfl
      exact in_ out
    · intro v mem b writes
      obtain ⟨entry, past, last⟩ := ordered.writes v mem b writes
      exact ⟨entry, past, last⟩

theorem Ordered.step (ordered : Ordered w) (m : Move Doing Call (Nat × Bytes))
    (careful : Careful w m) :
    Ordered (memory.step w m) := by
  cases m with
  | act i d =>
    cases d with
    | go a data =>
      cases at_ : w.threads[i]? with
      | none =>
        rw [step_act_none memory at_]
        exact ordered
      | some u =>
        obtain ⟨room, spares⟩ := careful u at_
        exact ordered.go at_ room spares
    | store place byte => exact ordered.store i place byte
  | start c => exact ordered.start c
  | outside o => exact ordered.outside o

theorem blankMemory_ordered : Ordered blankMemory where
  kept := boot_kept
  settled _ _ := rfl
  apt _ := nofun
  formed := by simp [blankMemory]
  own _ _ := rfl
  writes := by simp [blankMemory]

/-- Where no entry is taken or forgotten whose page is still to be written back, and no last
reference is put to a page both dirty and stale: whatever is about to be written back is in the page
that the entry still has, as it was left there; and taking an entry writes nothing back. -/
theorem writes_back_its_own {moves : List (Move Doing Call (Nat × Bytes))}
    (careful : memory.Heeds Careful blankMemory moves) :
    (∀ u ∈ (memory.play blankMemory moves).threads, ∀ b ∈ u.thread.point.writes,
      Backed (memory.play blankMemory moves).shared u b) ∧
    ∀ j, ((memory.play blankMemory moves).shared.cache.entries j).refs = 0 →
      ((memory.play blankMemory moves).shared.cache.entries j).dirty = false := by
  have ordered : Ordered (memory.play blankMemory moves) :=
    careful.play (fun w m ok ordered => Ordered.step ordered m ok) blankMemory_ordered
  refine ⟨fun u mem b writes => ?_, ordered.settled⟩
  obtain ⟨⟨j, keeps⟩, _, last⟩ := ordered.writes u mem b writes
  have own := ordered.own b.page (by
    rw [← keeps.page]
    exact ordered.kept.shared.out j keeps.valid)
  exact ⟨⟨j, keeps⟩, own, fun since => own.trans (last since)⟩

def mappedFs : FileOps := ⟨1, true, false, true, true⟩
def mappedFile : File := ⟨some mappedFs, 1⟩

/-- A section, with a page to be had, and a file of six bytes. -/
def going (use : Use) : Doing := .go ⟨pageSize, true, some 6, use⟩ fun _ => 0

/-- A page is mapped and stored into. -/
def mapped : List (Move Doing Call (Nat × Bytes)) :=
  [.start (.get (some mappedFile) 0), .act 0 (going .put), .act 0 (going .put), .act 0 (going .put),
    .act 0 (going .put), .act 0 (going .markShared), .act 0 (.store ⟨0, by decide⟩ 65)]

theorem writes_back_its_own_mapped :
    ∃ w, w = memory.play blankMemory (mapped ++ [.act 0 (going .put)]) ∧
      ∃ u ∈ w.threads, ∃ b ∈ u.thread.point.writes, Backed w.shared u b := by
  have careful : memory.Heeds Careful blankMemory (mapped ++ [.act 0 (going .put)]) := by
    decide +kernel
  have about : ∃ u ∈ (memory.play blankMemory (mapped ++ [.act 0 (going .put)])).threads,
      u.thread.point.writes = some ⟨mappedFile, 0, pageSize, 6⟩ := by decide +kernel
  obtain ⟨u, mem, writes⟩ := about
  exact ⟨_, rfl, u, mem, _, writes, (writes_back_its_own careful).1 u mem _ writes⟩

/-- A page is mapped and stored into, the file is rewritten, and the page is unmapped. -/
def rewritten : List (Move Doing Call (Nat × Bytes)) :=
  mapped ++ [.start (.forget (some mappedFile)), .act 1 (going .put), .act 0 (going .put)]

/-- The page has been given back by then, and is about to be written over the new contents. -/
theorem stale_page_written_back : ¬∀ moves, ∀ u ∈ (memory.play blankMemory moves).threads,
    ∀ b ∈ u.thread.point.writes, Backed (memory.play blankMemory moves).shared u b := by
  intro always
  have about : ∃ u ∈ (memory.play blankMemory rewritten).threads,
      u.thread.point.writes = some ⟨mappedFile, 0, pageSize, 6⟩ := by decide +kernel
  obtain ⟨u, mem, writes⟩ := about
  obtain ⟨j, keeps⟩ := (always rewritten u mem _ writes).entry
  have empty : ∀ j, ((memory.play blankMemory rewritten).shared.cache.entries j).valid = false := by
    decide +kernel
  have valid := keeps.valid
  rw [empty j] at valid
  cases valid

end ReconOS.Pagecache
