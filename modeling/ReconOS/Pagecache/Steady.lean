import ReconOS.Pagecache.Cache

/-! The table: what is served from where, and what each change of an entry keeps. -/
namespace ReconOS.Pagecache

variable {s : Shared} {i : Slot} {e : Entry}

@[simp] theorem setEntry_entries_self : (s.setEntry i e).entries i = e := Function.update_self ..

theorem setEntry_entries_of_ne {j : Slot} (other : j ≠ i) : (s.setEntry i e).entries j = s.entries j :=
  Function.update_of_ne other ..

@[simp] theorem setEntry_contents : (s.setEntry i e).contents = s.contents := rfl
/-- Asking for a write back changes nothing but what is asked. -/
theorem writeBack_eq (s : Shared) (b : Back) : ∃ l, writeBack s b = { s with written := l } := by
  unfold writeBack
  split
  · split
    · exact ⟨_, rfl⟩
    · exact ⟨s.written, rfl⟩
  · exact ⟨s.written, rfl⟩

/-- Taking an entry asks for a write back perhaps, and gives up the page. -/
theorem evict_eq (s : Shared) (i : Slot) : ∃ l, evict s i =
    (({ s with written := l } : Shared).freePage (s.entries i).page).setEntry i
      { s.entries i with
        valid := false, stale := false, dirty := false, referenced := false, page := 0,
        owner := none, fs := 0, id := 0 } := by
  unfold evict
  dsimp only
  split
  · rename_i f _ _
    obtain ⟨l, same⟩ :=
      writeBack_eq s ⟨f, (s.entries i).offset, (s.entries i).page, (s.entries i).bytes⟩
    exact ⟨l, by rw [same]⟩
  · exact ⟨s.written, rfl⟩

theorem find_some {fs id offset : Nat} (found : find s fs id offset = some i) :
    (s.entries i).Serves fs id offset := by
  have := List.find?_some found
  simpa using this

theorem find_none {fs id offset : Nat} (none_ : find s fs id offset = none) (j : Slot) :
    ¬(s.entries j).Serves fs id offset := by
  have := List.find?_eq_none.1 none_ j (List.mem_finRange j)
  simpa using this

theorem findPage_some {page : Nat} (found : findPage s page = some i) :
    (s.entries i).valid = true ∧ (s.entries i).page = page := by
  have := List.find?_some found
  simpa using this

theorem findPage_none {page : Nat} (none_ : findPage s page = none) (j : Slot) :
    ¬((s.entries j).valid = true ∧ (s.entries j).page = page) := by
  have := List.find?_eq_none.1 none_ j (List.mem_finRange j)
  simpa using this

/-! ## Sound tables -/

/-- Each entry has a page of its own, filled from the part of the file it is for, and no two may be
served for the same one. -/
structure Sound (s : Shared) : Prop where
  idle : ∀ i, (s.entries i).valid = false → (s.entries i).refs = 0
  out : ∀ i, (s.entries i).valid = true → s.out (s.entries i).page = true
  apart : ∀ i j, (s.entries i).valid = true → (s.entries j).valid = true →
    (s.entries i).page = (s.entries j).page → i = j
  once : ∀ i j fs id offset, (s.entries i).Serves fs id offset → (s.entries j).Serves fs id offset →
    i = j
  filled : ∀ i, (s.entries i).valid = true → ∃ time, s.contents (s.entries i).page =
    some ⟨(s.entries i).fs, (s.entries i).id, (s.entries i).offset, time⟩
  calm : s.panicked = false
  nil : s.out 0 = false

/-- A page that is out, in no entry. -/
def Loose (s : Shared) (page : Nat) : Prop :=
  s.out page = true ∧ ∀ i, ¬((s.entries i).valid = true ∧ (s.entries i).page = page)

instance (s : Shared) (page : Nat) : Decidable (Loose s page) := inferInstanceAs (Decidable (_ ∧ _))

/-- The same page of the same file, no less stale. -/
structure Alike (e e' : Entry) : Prop where
  valid : e'.valid = e.valid
  page : e'.page = e.page
  fs : e'.fs = e.fs
  id : e'.id = e.id
  offset : e'.offset = e.offset
  stale : e.stale = true → e'.stale = true

theorem Alike.refl (e : Entry) : Alike e e := ⟨rfl, rfl, rfl, rfl, rfl, fun h => h⟩

theorem Alike.serves {e e' : Entry} (same : Alike e e') {fs id offset : Nat}
    (h : e'.Serves fs id offset) : e.Serves fs id offset := by
  obtain ⟨valid, fresh, rest⟩ := h
  rw [same.fs, same.id, same.offset] at rest
  refine ⟨same.valid.symm.trans valid, ?_, rest⟩
  by_contra stale
  rw [same.stale (by simpa using stale)] at fresh
  cases fresh

theorem Sound.alike (sound : Sound s) (same : ∀ j, Alike (s.entries j) ((s.setEntry i e).entries j))
    (idle : e.valid = false → e.refs = 0) : Sound (s.setEntry i e) where
  idle j invalid := by
    by_cases at_ : j = i
    · subst at_
      rw [setEntry_entries_self] at invalid ⊢
      exact idle invalid
    · rw [setEntry_entries_of_ne at_] at invalid ⊢
      exact sound.idle j invalid
  out j valid := by
    rw [(same j).valid] at valid
    rw [(same j).page]
    exact sound.out j valid
  apart j k valid valid' page := by
    rw [(same j).valid] at valid
    rw [(same k).valid] at valid'
    rw [(same j).page, (same k).page] at page
    exact sound.apart j k valid valid' page
  once j k fs id offset serves serves' :=
    sound.once j k fs id offset ((same j).serves serves) ((same k).serves serves')
  filled j valid := by
    rw [(same j).valid] at valid
    rw [(same j).page, (same j).fs, (same j).id, (same j).offset]
    exact sound.filled j valid
  calm := sound.calm
  nil := sound.nil

theorem alike_all (same : Alike (s.entries i) e) (j : Slot) :
    Alike (s.entries j) ((s.setEntry i e).entries j) := by
  by_cases at_ : j = i
  · subst at_
    rw [setEntry_entries_self]
    exact same
  · rw [setEntry_entries_of_ne at_]
    exact .refl _

theorem loose_alike (same : Alike (s.entries i) e) (page : Nat) :
    Loose (s.setEntry i e) page ↔ Loose s page := by
  refine and_congr Iff.rfl (forall_congr' fun j => ?_)
  rw [(alike_all same j).valid, (alike_all same j).page]

/-- An entry given up, and its page given back. -/
theorem Sound.give (sound : Sound s) (valid : (s.entries i).valid = true) (gone : e.valid = false)
    (idle : e.refs = 0) : Sound ((s.freePage (s.entries i).page).setEntry i e) := by
  have other {j : Slot} (valid' : (((s.freePage (s.entries i).page).setEntry i e).entries j).valid =
      true) : j ≠ i := by
    rintro rfl
    rw [setEntry_entries_self, gone] at valid'
    cases valid'
  have stays (j : Slot) (at_ : j ≠ i) :
      ((s.freePage (s.entries i).page).setEntry i e).entries j = s.entries j :=
    setEntry_entries_of_ne at_
  refine ⟨?_, ?_, ?_, ?_, ?_, ?_, ?_⟩
  · intro j invalid
    by_cases at_ : j = i
    · subst at_
      rw [setEntry_entries_self]
      exact idle
    · rw [stays j at_] at invalid ⊢
      exact sound.idle j invalid
  · intro j valid'
    have at_ := other valid'
    rw [stays j at_] at valid' ⊢
    have apart : (s.entries j).page ≠ (s.entries i).page :=
      fun page => at_ (sound.apart j i valid' valid page)
    exact (Function.update_of_ne apart ..).trans (sound.out j valid')
  · intro j k valid' valid'' page
    have at_ := other valid'
    have at' := other valid''
    rw [stays j at_] at valid' page
    rw [stays k at'] at valid'' page
    exact sound.apart j k valid' valid'' page
  · intro j k fs id offset serves serves'
    have at_ := other serves.1
    have at' := other serves'.1
    rw [stays j at_] at serves
    rw [stays k at'] at serves'
    exact sound.once j k fs id offset serves serves'
  · intro j valid'
    have at_ := other valid'
    rw [stays j at_] at valid' ⊢
    exact sound.filled j valid'
  · show (s.panicked || !s.out _) = false
    rw [sound.calm, sound.out i valid]
    rfl
  · show Function.update s.out _ false 0 = false
    rw [Function.update_apply, sound.nil, ite_self]

theorem loose_give (valid : (s.entries i).valid = true) (gone : e.valid = false) (page : Nat) :
    Loose ((s.freePage (s.entries i).page).setEntry i e) page ↔ Loose s page := by
  have out : ((s.freePage (s.entries i).page).setEntry i e).out page = true ↔
      s.out page = true ∧ page ≠ (s.entries i).page := by
    show Function.update s.out (s.entries i).page false page = true ↔ _
    rw [Function.update_apply]
    split
    · rename_i same
      simp [same]
    · rename_i other
      simp [other]
  constructor
  · intro loose
    obtain ⟨was, apart⟩ := out.1 loose.1
    refine ⟨was, fun j held => ?_⟩
    by_cases at_ : j = i
    · subst at_
      exact apart held.2.symm
    · refine loose.2 j ?_
      rw [setEntry_entries_of_ne at_]
      exact held
  · intro loose
    refine ⟨out.2 ⟨loose.1, fun same => loose.2 i ⟨valid, same.symm⟩⟩, fun j held => ?_⟩
    by_cases at_ : j = i
    · subst at_
      rw [setEntry_entries_self, gone] at held
      cases held.1
    · rw [setEntry_entries_of_ne at_] at held
      exact loose.2 j held

/-- An entry filled with a page of its own. -/
theorem Sound.fill (sound : Sound s) (invalid : (s.entries i).valid = false) (valid : e.valid = true)
    (loose : Loose s e.page) {time : Nat}
    (read : s.contents e.page = some ⟨e.fs, e.id, e.offset, time⟩)
    (none_ : ∀ j, ¬(s.entries j).Serves e.fs e.id e.offset) : Sound (s.setEntry i e) where
  idle j invalid' := by
    by_cases at_ : j = i
    · subst at_
      rw [setEntry_entries_self, valid] at invalid'
      cases invalid'
    · rw [setEntry_entries_of_ne at_] at invalid' ⊢
      exact sound.idle j invalid'
  out j valid' := by
    by_cases at_ : j = i
    · subst at_
      rw [setEntry_entries_self]
      exact loose.1
    · rw [setEntry_entries_of_ne at_] at valid' ⊢
      exact sound.out j valid'
  apart j k valid' valid'' page := by
    by_cases at_ : j = i <;> by_cases at' : k = i
    · exact at_.trans at'.symm
    · subst at_
      rw [setEntry_entries_self, setEntry_entries_of_ne at'] at page
      rw [setEntry_entries_of_ne at'] at valid''
      exact absurd ⟨valid'', page.symm⟩ (loose.2 k)
    · subst at'
      rw [setEntry_entries_self, setEntry_entries_of_ne at_] at page
      rw [setEntry_entries_of_ne at_] at valid'
      exact absurd ⟨valid', page⟩ (loose.2 j)
    · rw [setEntry_entries_of_ne at_] at valid' page
      rw [setEntry_entries_of_ne at'] at valid'' page
      exact sound.apart j k valid' valid'' page
  once j k fs id offset serves serves' := by
    by_cases at_ : j = i <;> by_cases at' : k = i
    · exact at_.trans at'.symm
    · subst at_
      rw [setEntry_entries_self] at serves
      rw [setEntry_entries_of_ne at'] at serves'
      obtain ⟨_, _, rfl, rfl, rfl⟩ := serves
      exact absurd serves' (none_ k)
    · subst at'
      rw [setEntry_entries_self] at serves'
      rw [setEntry_entries_of_ne at_] at serves
      obtain ⟨_, _, rfl, rfl, rfl⟩ := serves'
      exact absurd serves (none_ j)
    · rw [setEntry_entries_of_ne at_] at serves
      rw [setEntry_entries_of_ne at'] at serves'
      exact sound.once j k fs id offset serves serves'
  filled j valid' := by
    by_cases at_ : j = i
    · subst at_
      rw [setEntry_entries_self]
      exact ⟨time, read⟩
    · rw [setEntry_entries_of_ne at_] at valid' ⊢
      exact sound.filled j valid'
  calm := sound.calm
  nil := sound.nil

theorem loose_fill (invalid : (s.entries i).valid = false) (valid : e.valid = true) (page : Nat) :
    Loose (s.setEntry i e) page ↔ Loose s page ∧ page ≠ e.page := by
  constructor
  · intro loose
    refine ⟨⟨loose.1, fun j held => ?_⟩, fun same => ?_⟩
    · have at_ : j ≠ i := by
        rintro rfl
        rw [invalid] at held
        cases held.1
      refine loose.2 j ?_
      rw [setEntry_entries_of_ne at_]
      exact held
    · refine loose.2 i ?_
      rw [setEntry_entries_self]
      exact ⟨valid, same.symm⟩
  · intro loose
    obtain ⟨loose, apart⟩ := loose
    refine ⟨loose.1, fun j held => ?_⟩
    by_cases at_ : j = i
    · subst at_
      rw [setEntry_entries_self] at held
      exact apart held.2.symm
    · rw [setEntry_entries_of_ne at_] at held
      exact loose.2 j held

end ReconOS.Pagecache

/-! What the clock hand and a forget do to the table: nothing to an entry that is held. -/
namespace ReconOS.Pagecache

/-- No entry is held more or less than before; those given up were not held. -/
structure Steady (s s' : Shared) : Prop where
  sound : Sound s'
  refs : ∀ j, (s'.entries j).refs = (s.entries j).refs
  each : ∀ j, Alike (s.entries j) (s'.entries j) ∨
    (s.entries j).refs = 0 ∧ (s'.entries j).valid = false
  loose : ∀ page, Loose s' page ↔ Loose s page
  contents : s'.contents = s.contents
  forgets : s'.forgets = s.forgets
  clock : s'.clock = s.clock

variable {s s' : Shared} {i : Slot} {e : Entry}

namespace Steady

theorem refl (sound : Sound s) : Steady s s :=
  ⟨sound, fun _ => rfl, fun _ => .inl (.refl _), fun _ => Iff.rfl, rfl, rfl, rfl⟩

theorem trans {s'' : Shared} (first : Steady s s') (next : Steady s' s'') : Steady s s'' where
  sound := next.sound
  refs j := (next.refs j).trans (first.refs j)
  each j := by
    cases next.each j with
    | inr gone => exact .inr ⟨(first.refs j).symm.trans gone.1, gone.2⟩
    | inl same =>
      cases first.each j with
      | inr gone => exact .inr ⟨gone.1, same.valid.trans gone.2⟩
      | inl same' =>
        exact .inl ⟨same.valid.trans same'.valid, same.page.trans same'.page,
          same.fs.trans same'.fs, same.id.trans same'.id, same.offset.trans same'.offset,
          fun stale => same.stale (same'.stale stale)⟩
  loose page := (next.loose page).trans (first.loose page)
  contents := next.contents.trans first.contents
  forgets := next.forgets.trans first.forgets
  clock := next.clock.trans first.clock

theorem serves (h : Steady s s') {fs id offset : Nat} {j : Slot}
    (serves : (s'.entries j).Serves fs id offset) : (s.entries j).Serves fs id offset := by
  cases h.each j with
  | inl same => exact same.serves serves
  | inr gone =>
    rw [Entry.Serves, gone.2] at serves
    cases serves.1

theorem held (h : Steady s s') {j : Slot} (held : (s.entries j).refs ≠ 0) :
    Alike (s.entries j) (s'.entries j) := by
  cases h.each j with
  | inl same => exact same
  | inr gone => exact absurd gone.1 held

/-- Nothing but the hand, or what is asked to be written, has changed. -/
theorem of_entries (sound : Sound s) (entries : s'.entries = s.entries) (out : s'.out = s.out)
    (panicked : s'.panicked = s.panicked) (contents : s'.contents = s.contents)
    (forgets : s'.forgets = s.forgets) (clock : s'.clock = s.clock) : Steady s s' where
  sound := by
    refine ⟨?_, ?_, ?_, ?_, ?_, panicked.trans sound.calm, (congrFun out 0).trans sound.nil⟩
    · rw [entries]
      exact sound.idle
    · rw [entries, out]
      exact sound.out
    · rw [entries]
      exact sound.apart
    · rw [entries]
      exact sound.once
    · rw [entries, contents]
      exact sound.filled
  refs _ := by rw [entries]
  each j := .inl (by rw [entries]; exact .refl _)
  loose page := by rw [Loose, Loose, entries, out]
  contents := contents
  forgets := forgets
  clock := clock

theorem alike (sound : Sound s) (same : Alike (s.entries i) e) (refs : e.refs = (s.entries i).refs) :
    Steady s (s.setEntry i e) where
  sound := sound.alike (alike_all same) fun invalid => by
    rw [same.valid] at invalid
    exact refs.trans (sound.idle i invalid)
  refs j := by
    by_cases at_ : j = i
    · subst at_
      rw [setEntry_entries_self, refs]
    · rw [setEntry_entries_of_ne at_]
  each j := .inl (alike_all same j)
  loose := loose_alike same
  contents := rfl
  forgets := rfl
  clock := rfl

theorem give (sound : Sound s) (valid : (s.entries i).valid = true) (free : (s.entries i).refs = 0)
    (gone : e.valid = false) (refs : e.refs = 0) :
    Steady s ((s.freePage (s.entries i).page).setEntry i e) where
  sound := sound.give valid gone refs
  refs j := by
    by_cases at_ : j = i
    · subst at_
      rw [setEntry_entries_self, refs, free]
    · rw [setEntry_entries_of_ne at_]
      rfl
  each j := by
    by_cases at_ : j = i
    · subst at_
      refine .inr ⟨free, ?_⟩
      rw [setEntry_entries_self, gone]
    · rw [setEntry_entries_of_ne at_]
      exact .inl (.refl _)
  loose := loose_give valid gone
  contents := rfl
  forgets := rfl
  clock := rfl

end Steady

theorem writeBack_steady (sound : Sound s) (b : Back) : Steady s (writeBack s b) := by
  obtain ⟨l, same⟩ := writeBack_eq s b
  rw [same]
  exact .of_entries sound rfl rfl rfl rfl rfl rfl

theorem evict_steady (sound : Sound s) (valid : (s.entries i).valid = true)
    (free : (s.entries i).refs = 0) :
    Steady s (evict s i) ∧ ((evict s i).entries i).valid = false := by
  obtain ⟨l, same⟩ := evict_eq s i
  have first : Steady s { s with written := l } := .of_entries sound rfl rfl rfl rfl rfl rfl
  rw [same]
  refine ⟨first.trans (.give first.sound valid free rfl free), ?_⟩
  rw [setEntry_entries_self]

/-- The clock hand takes nothing that is held. -/
theorem turn_steady (turns : Nat) (sound : Sound s) (full : ∀ j, (s.entries j).valid = true) :
    Steady s (turn turns s).2 ∧
      ∀ taken ∈ (turn turns s).1, ((turn turns s).2.entries taken.1).valid = false := by
  induction turns generalizing s with
  | zero => exact ⟨.refl sound, by simp [turn]⟩
  | succ turns ih =>
    have moved : Steady s { s with hand := nextHand s.hand } :=
      .of_entries sound rfl rfl rfl rfl rfl rfl
    unfold turn
    dsimp only
    split
    · obtain ⟨steady, taken⟩ := ih moved.sound full
      exact ⟨moved.trans steady, taken⟩
    rename_i free
    split
    · have cleared : Alike (s.entries s.hand) { s.entries s.hand with referenced := false } :=
        ⟨rfl, rfl, rfl, rfl, rfl, fun h => h⟩
      have passed := moved.trans
        (@Steady.alike { s with hand := nextHand s.hand } s.hand _ moved.sound cleared rfl)
      obtain ⟨steady, taken⟩ := ih passed.sound fun j => by
        rw [(alike_all (s := { s with hand := nextHand s.hand }) cleared j).valid]
        exact full j
      exact ⟨passed.trans steady, taken⟩
    · obtain ⟨steady, gone⟩ := evict_steady moved.sound (full s.hand) (Decidable.not_not.1 free)
      refine ⟨moved.trans steady, ?_⟩
      intro taken same
      cases same
      exact gone

theorem spare_steady (sound : Sound s) :
    Steady s (spare s).2 ∧ ∀ taken ∈ (spare s).1, ((spare s).2.entries taken.1).valid = false := by
  unfold spare
  split
  · rename_i j found
    refine ⟨.refl sound, ?_⟩
    intro taken same
    cases same
    have := List.find?_some found
    simpa using this
  · rename_i none_
    have full := List.find?_eq_none.1 none_
    exact turn_steady _ sound fun j => by simpa using full j (List.mem_finRange j)

theorem sweep_steady (fs id : Nat) (slots : List Slot) (sound : Sound s) :
    Steady s (sweep fs id slots s) := by
  induction slots generalizing s with
  | nil => exact .refl sound
  | cons i rest ih =>
    unfold sweep
    dsimp only
    split
    · exact ih sound
    rename_i ofFile
    have valid : (s.entries i).valid = true := by
      by_contra invalid
      exact ofFile (.inl (by simpa using invalid))
    split
    · have marked : Alike (s.entries i) { s.entries i with stale := true } :=
        ⟨rfl, rfl, rfl, rfl, rfl, fun _ => rfl⟩
      have first := Steady.alike sound marked rfl
      exact first.trans (ih first.sound)
    · rename_i free
      have free := Decidable.not_not.1 free
      have first := Steady.give (e := { s.entries i with valid := false, page := 0, fs := 0, id := 0 })
        sound valid free rfl free
      exact first.trans (ih first.sound)

theorem markShared_steady (sound : Sound s) (page : Nat) : Steady s (markShared s page) := by
  unfold markShared
  split
  · exact .refl sound
  · split
    · exact .alike sound ⟨rfl, rfl, rfl, rfl, rfl, fun h => h⟩ rfl
    · exact .refl sound

theorem forget_steady (sound : Sound s) (t : Thread) :
    ∃ s', Steady s s' ∧ (forget s t) =
      { s' with forgets := ⟨t.ops.table, t.file.id, t.started, s'.clock⟩ :: s'.forgets } :=
  ⟨_, sweep_steady _ _ _ sound, rfl⟩

end ReconOS.Pagecache
