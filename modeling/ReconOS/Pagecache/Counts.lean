import ReconOS.Pagecache.Steady
import ReconOS.Lib.Tokens

/-! Whose pages are whose: each call that has a page is counted in the entry the page is in. -/
namespace ReconOS.Pagecache

open Lib Lib.System

namespace Point

/-- The entry a call has a reference to. -/
def slot : Point → Option Slot
  | .dropping _ found => found
  | .answering i | .releasing _ i _ | .holding i _ => some i
  | .looking | .allocating | .reading _ | .inserting _ _ | .writingBack _ | .forgetting
  | .returned => none

/-- The page a call has to itself. -/
def loose : Point → Option Nat
  | .reading page | .inserting page _ | .dropping page _ => some page
  | .looking | .allocating | .answering _ | .releasing _ _ _ | .holding _ _ | .writingBack _
  | .forgetting | .returned => none

/-- The page that `pagecache_get` has returned, or is about to. -/
def has : Point → Option Nat
  | .releasing _ _ page | .holding _ page => some page
  | _ => none

@[simp] theorem filled_slot (i : Slot) (page : Nat) (evicted : Option File) :
    (filled i page evicted).slot = some i := by
  cases evicted <;> rfl

@[simp] theorem filled_loose (i : Slot) (page : Nat) (evicted : Option File) :
    (filled i page evicted).loose = none := by
  cases evicted <;> rfl

@[simp] theorem filled_has (i : Slot) (page : Nat) (evicted : Option File) :
    (filled i page evicted).has = some page := by
  cases evicted <;> rfl

@[simp] theorem dropped_slot (found : Option Slot) : (dropped found).slot = found := by
  cases found <;> rfl

@[simp] theorem dropped_loose (found : Option Slot) : (dropped found).loose = none := by
  cases found <;> rfl

@[simp] theorem gaveUp_slot (back : Option Back) : (gaveUp back).slot = none := by
  cases back <;> rfl

@[simp] theorem gaveUp_loose (back : Option Back) : (gaveUp back).loose = none := by
  cases back <;> rfl

theorem filled_inserts (i : Slot) (page : Nat) (evicted : Option File) (p bytes : Nat) :
    filled i page evicted ≠ .inserting p bytes := by
  cases evicted <;> exact nofun

end Point

inductive Token where
  | ref (slot : Slot)
  | loose (page : Nat)

def inHand (t : Thread) : Token → Nat
  | .ref i => if t.point.slot = some i then 1 else 0
  | .loose page => if t.point.loose = some page then 1 else 0

def due (s : Shared) : Token → Nat
  | .ref i => (s.entries i).refs
  | .loose page => if Loose s page then 1 else 0

/-- The entry is for the part of the file that a call is about. -/
def Entry.Of (e : Entry) (t : Thread) : Prop :=
  e.valid = true ∧ e.fs = t.ops.table ∧ e.id = t.file.id ∧ e.offset = t.offset

def Thread.HasRead (t : Thread) (s : Shared) (page : Nat) : Prop :=
  ∃ time, s.contents page = some ⟨t.ops.table, t.file.id, t.offset, time⟩

/-- What a call relies on. -/
structure Has (s : Shared) (t : Thread) : Prop where
  entry : ∀ i, t.point.slot = some i → (s.entries i).Of t
  page : ∀ i page, t.point.slot = some i → t.point.has = some page → (s.entries i).page = page
  read : ∀ page bytes, t.point = .inserting page bytes → t.HasRead s page

variable {s s' : Shared} {t u : Thread} {i : Slot}

theorem Alike.of {e e' : Entry} (same : Alike e e') (h : e.Of t) : e'.Of t := by
  rw [Entry.Of, same.valid, same.fs, same.id, same.offset]
  exact h

theorem Has.mono (has : Has s t) (slot : ∀ i, t.point.slot = some i → Alike (s.entries i) (s'.entries i))
    (loose : ∀ page, t.point.loose = some page → s'.contents page = s.contents page) : Has s' t where
  entry i at_ := (slot i at_).of (has.entry i at_)
  page i page at_ held := (slot i at_).page.trans (has.page i page at_ held)
  read page bytes at_ := by
    rw [Thread.HasRead, loose page (by rw [at_]; rfl)]
    exact has.read page bytes at_

/-! ## One section -/

/-- What a section of `t` leaves. -/
structure Did (s : Shared) (t : Thread) (s' : Shared) (point : Point) : Prop where
  sound : Sound s'
  has : Has s' { t with point := point }
  held : ∀ j, inHand t (.ref j) < (s.entries j).refs → Alike (s.entries j) (s'.entries j)
  contents : ∀ page, Loose s page → t.point.loose ≠ some page → s'.contents page = s.contents page
  balance : inHand { t with point := point } + due s = inHand t + due s'

theorem due_steady (h : Steady s s') : due s' = due s := by
  funext token
  cases token with
  | ref i => exact h.refs i
  | loose page => simp only [due, h.loose page]

/-- A section that holds nothing more or less. -/
theorem Did.steady {point : Point} (h : Steady s s') (slot : point.slot = t.point.slot)
    (loose : point.loose = t.point.loose) (has : Has s' { t with point := point }) :
    Did s t s' point where
  sound := h.sound
  has := has
  held j held := h.held (by omega)
  contents page _ _ := by rw [h.contents]
  balance := by
    rw [due_steady h]
    funext token
    cases token with
    | ref i => simp only [Pi.add_apply, inHand, slot]
    | loose page => simp only [Pi.add_apply, inHand, loose]

theorem Has.of_vacant {point : Point} (slot : point.slot = none)
    (inserts : ∀ page bytes, point ≠ .inserting page bytes) : Has s { t with point := point } where
  entry i at_ := by
    rw [show Point.slot _ = none from slot] at at_
    cases at_
  page i _ at_ := by
    rw [show Point.slot _ = none from slot] at at_
    cases at_
  read page bytes at_ := absurd at_ (inserts page bytes)

theorem Has.of_slot {point : Point} (slot : point.slot = some i) (ofFile : (s.entries i).Of t)
    (page : ∀ page, point.has = some page → (s.entries i).page = page)
    (inserts : ∀ page bytes, point ≠ .inserting page bytes) : Has s { t with point := point } where
  entry j at_ := by
    rw [show Point.slot _ = some i from slot] at at_
    cases at_
    exact ofFile
  page j p at_ held := by
    rw [show Point.slot _ = some i from slot] at at_
    cases at_
    exact page p held
  read page bytes at_ := absurd at_ (inserts page bytes)

theorem budget_slot (budget : inHand t ≤ due s) (slot : t.point.slot = some i) :
    0 < (s.entries i).refs := by
  have := budget (.ref i)
  simp only [inHand, due, if_pos slot] at this
  exact this

theorem budget_loose (budget : inHand t ≤ due s) {page : Nat} (loose : t.point.loose = some page) :
    Loose s page := by
  have := budget (.loose page)
  simp only [inHand, due, if_pos loose] at this
  by_contra taken
  rw [if_neg taken] at this
  omega

/-- A reference taken to an entry that serves. -/
theorem Did.hit (sound : Sound s) {e : Entry} {point : Point} (same : Alike (s.entries i) e)
    (serves : (s.entries i).Serves t.ops.table t.file.id t.offset)
    (refs : e.refs = (s.entries i).refs + 1) (nothing : t.point.slot = none)
    (slot : point.slot = some i) (loose : point.loose = t.point.loose)
    (page : ∀ page, point.has = some page → (s.entries i).page = page)
    (inserts : ∀ page bytes, point ≠ .inserting page bytes) :
    Did s t (s.setEntry i e) point where
  sound := sound.alike (alike_all same) fun invalid => by
    rw [same.valid, serves.1] at invalid
    cases invalid
  has := by
    refine Has.of_slot slot ?_ ?_ inserts
    · rw [setEntry_entries_self]
      exact same.of ⟨serves.1, serves.2.2⟩
    · intro p held
      rw [setEntry_entries_self, same.page]
      exact page p held
  held j _ := alike_all same j
  contents _ _ _ := rfl
  balance := by
    funext token
    cases token with
    | ref j =>
      simp only [Pi.add_apply, inHand, due, slot, nothing, Option.some.injEq]
      by_cases at_ : i = j
      · subst at_
        rw [setEntry_entries_self, refs]
        simp
        omega
      · rw [setEntry_entries_of_ne (Ne.symm at_)]
        simp [at_]
    | loose p => simp only [Pi.add_apply, inHand, due, loose, loose_alike same p]

/-- A call in one of these holds looks for the page. -/
def Point.looks : Point → Bool
  | .looking | .inserting _ _ => true
  | _ => false

/-- The count has room for one more, where a call that looks for a page would find it. -/
def Room (s : Shared) (t : Thread) : Prop :=
  t.point.looks = true →
    ∀ i ∈ find s t.ops.table t.file.id t.offset, (s.entries i).refs + 1 < u32Size

instance (s : Shared) (t : Thread) : Decidable (Room s t) := inferInstanceAs (Decidable (_ → _))

theorem Room.hold (room : Room s t) (looks : t.point.looks = true)
    (found : find s t.ops.table t.file.id t.offset = some i) :
    (s.entries i).hold.refs = (s.entries i).refs + 1 :=
  Nat.mod_eq_of_lt (room looks i found)

theorem hold_alike (e : Entry) : Alike e e.hold := ⟨rfl, rfl, rfl, rfl, rfl, fun h => h⟩

theorem look_did (sound : Sound s) (room : Room s t) (at_ : t.point = .looking) :
    Did s t (look s t).1 (look s t).2 := by
  unfold look
  split
  · rename_i i found
    refine .hit sound ⟨rfl, rfl, rfl, rfl, rfl, fun h => h⟩ (find_some found)
      (room.hold (by rw [at_]; rfl) found) (by rw [at_]; rfl) rfl (by rw [at_]; rfl) ?_ (by simp)
    intro page held
    cases held
    rfl
  · exact .steady (.refl sound) (by rw [at_]; rfl) (by rw [at_]; rfl) (.of_vacant rfl (by simp))

theorem allocate_did (sound : Sound s) (offered : Nat) (at_ : t.point = .allocating) :
    Did s t (allocate offered s).1 (allocate offered s).2 := by
  unfold allocate
  split
  · exact .steady (.refl sound) (by rw [at_]; rfl) (by rw [at_]; rfl) (.of_vacant rfl (by simp))
  rename_i free
  rw [not_or, Bool.not_eq_true] at free
  have apart (j : Slot) (valid : (s.entries j).valid = true) : (s.entries j).page ≠ offered := by
    rintro same
    have := sound.out j valid
    rw [same, free.2] at this
    cases this
  refine ⟨⟨sound.idle, ?_, sound.apart, sound.once, ?_, sound.calm, ?_⟩, .of_vacant rfl (by simp), ?_, ?_,
    ?_⟩
  · intro j valid
    exact (Function.update_of_ne (apart j valid) ..).trans (sound.out j valid)
  · intro j valid
    obtain ⟨time, read⟩ := sound.filled j valid
    exact ⟨time, (Function.update_of_ne (apart j valid) ..).trans read⟩
  · exact (Function.update_of_ne (Ne.symm free.1) ..).trans sound.nil
  · intro j _
    exact .refl _
  · intro page loose _
    refine Function.update_of_ne ?_ ..
    rintro rfl
    rw [loose.1] at free
    cases free.2
  · funext token
    cases token with
    | ref j => simp [inHand, due, at_, Point.slot]
    | loose page =>
      simp only [Pi.add_apply, inHand, due, at_, Point.loose, Option.some.injEq]
      by_cases same : page = offered
      · subst same
        have before : ¬Loose s page := by
          intro loose
          rw [loose.1] at free
          cases free.2
        have after : Loose { s with
            out := Function.update s.out page true
            contents := Function.update s.contents page none } page :=
          ⟨Function.update_self .., fun j held => apart j held.1 held.2⟩
        simp [before, after]
      · have same' : Loose { s with
            out := Function.update s.out offered true
            contents := Function.update s.contents offered none } page ↔ Loose s page := by
          simp only [Loose, Function.update_of_ne same]
        simp [same', Ne.symm same]

theorem readIn_did (sound : Sound s) (a : Around) {page : Nat} (budget : inHand t ≤ due s)
    (at_ : t.point = .reading page) : Did s t (readIn a s t page).1 (readIn a s t page).2 := by
  have loose : Loose s page := budget_loose budget (by rw [at_]; rfl)
  have failed : Did s t s (.dropping page none) :=
    .steady (.refl sound) (by rw [at_]; rfl) (by rw [at_]; rfl) (.of_vacant rfl (by simp))
  unfold readIn
  split
  · exact failed
  split
  · refine ⟨⟨sound.idle, sound.out, sound.apart, sound.once, ?_, sound.calm, sound.nil⟩,
      ⟨?_, ?_, ?_⟩, ?_, ?_, ?_⟩
    · intro j valid
      obtain ⟨time, read⟩ := sound.filled j valid
      have apart : (s.entries j).page ≠ page := fun same => loose.2 j ⟨valid, same⟩
      exact ⟨time, (Function.update_of_ne apart ..).trans read⟩
    · intro j held
      cases held
    · intro j _ held
      cases held
    · intro p bytes same
      cases same
      exact ⟨s.clock, Function.update_self ..⟩
    · intro j _
      exact .refl _
    · intro p _ other
      refine Function.update_of_ne ?_ ..
      rintro rfl
      exact other (by rw [at_]; rfl)
    · funext token
      cases token with
      | ref j => simp [inHand, due, at_, Point.slot]
      | loose p =>
        simp only [Pi.add_apply, inHand, due, at_, Point.loose]
        rfl
  · exact failed

theorem insertPage_did (sound : Sound s) (room : Room s t) (has : Has s t) {page bytes : Nat}
    (budget : inHand t ≤ due s) (at_ : t.point = .inserting page bytes) :
    Did s t (insertPage s t page bytes).1 (insertPage s t page bytes).2 := by
  have loose : Loose s page := budget_loose budget (by rw [at_]; rfl)
  obtain ⟨time, read⟩ := has.read page bytes at_
  unfold insertPage
  split
  · rename_i i found
    exact .hit sound (hold_alike _) (find_some found) (room.hold (by rw [at_]; rfl) found)
      (by rw [at_]; rfl) rfl (by rw [at_]; rfl) (by rintro p ⟨⟩) (by simp)
  rename_i none_
  have spared := spare_steady sound
  split
  · rename_i s' none_
    rw [none_] at spared
    exact .steady spared.1 (by rw [at_]; rfl) (by rw [at_]; rfl) (.of_vacant rfl (by simp))
  · rename_i i evicted s' taken
    rw [taken] at spared
    obtain ⟨steady, gone⟩ := spared
    have invalid : (s'.entries i).valid = false := gone _ rfl
    have sound' := steady.sound
    refine ⟨?_, ?_, ?_, ?_, ?_⟩
    · have read' : s'.contents page = some ⟨t.ops.table, t.file.id, t.offset, time⟩ := by
        rw [steady.contents]
        exact read
      exact sound'.fill invalid rfl ((steady.loose page).2 loose) read'
        fun j serves => find_none none_ j (steady.serves serves)
    · refine .of_slot (Point.filled_slot i page evicted) ?_ ?_ (Point.filled_inserts i page evicted)
      · rw [setEntry_entries_self]
        exact ⟨rfl, rfl, rfl, rfl⟩
      · intro p held
        rw [setEntry_entries_self]
        exact Option.some.inj ((Point.filled_has i page evicted).symm.trans held)
    · intro j held
      have other : j ≠ i := by
        rintro rfl
        rw [← steady.refs j, sound'.idle j invalid] at held
        omega
      rw [setEntry_entries_of_ne other]
      exact steady.held (by omega)
    · intro p _ _
      rw [setEntry_contents, steady.contents]
    · have nothing : t.point.slot = none := by rw [at_]; rfl
      have own : t.point.loose = some page := by rw [at_]; rfl
      rw [← due_steady steady]
      funext token
      cases token with
      | ref j =>
        simp only [Pi.add_apply, inHand, due, Point.filled_slot, nothing, Option.some.injEq]
        by_cases same : i = j
        · subst same
          rw [setEntry_entries_self, sound'.idle i invalid]
          simp [Entry.fill]
        · rw [setEntry_entries_of_ne (Ne.symm same)]
          simp [same]
      | loose p =>
        simp only [Pi.add_apply, inHand, due, Point.filled_loose, own, Option.some.injEq,
          loose_fill (e := (s'.entries i).fill t page bytes) invalid rfl p]
        by_cases same : p = page
        · subst same
          have loose' := (steady.loose p).2 loose
          simp [loose', Entry.fill]
        · simp [same, Ne.symm same, Entry.fill]

theorem dropping_did (sound : Sound s) (has : Has s t) {page : Nat} {found : Option Slot}
    (budget : inHand t ≤ due s) (at_ : t.point = .dropping page found) :
    Did s t (s.freePage page) (.dropped found) := by
  have loose : Loose s page := budget_loose budget (by rw [at_]; rfl)
  have slot : t.point.slot = found := by rw [at_]; rfl
  have own : t.point.loose = some page := by rw [at_]; rfl
  have apart (j : Slot) (valid : (s.entries j).valid = true) : (s.entries j).page ≠ page :=
    fun same => loose.2 j ⟨valid, same⟩
  refine ⟨⟨sound.idle, ?_, sound.apart, sound.once, sound.filled, ?_, ?_⟩, ?_, ?_, ?_, ?_⟩
  · intro j valid
    exact (Function.update_of_ne (apart j valid) ..).trans (sound.out j valid)
  · show (s.panicked || !s.out page) = false
    rw [sound.calm, loose.1]
    rfl
  · show Function.update s.out page false 0 = false
    rw [Function.update_apply, sound.nil, ite_self]
  · cases found with
    | none => exact .of_vacant rfl (by simp [Point.dropped])
    | some i => exact .of_slot rfl (has.entry i slot) (by rintro p ⟨⟩) (by simp [Point.dropped])
  · intro j _
    exact .refl _
  · intro p _ _
    rfl
  · funext token
    cases token with
    | ref j =>
      simp only [Pi.add_apply, inHand, due, Point.dropped_slot, slot]
      rfl
    | loose p =>
      have after : Loose (s.freePage page) p ↔ Loose s p ∧ p ≠ page := by
        simp only [Loose, Shared.freePage, Function.update_apply]
        by_cases same : p = page <;> simp [same]
      simp only [Pi.add_apply, inHand, due, Point.dropped_loose, own, after, Option.some.injEq]
      by_cases same : p = page
      · subst same
        simp [loose]
      · simp [same, Ne.symm same]

theorem clean_alike (e : Entry) : Alike e e.clean ∧ e.clean.refs = e.refs := by
  unfold Entry.clean
  split
  · exact ⟨⟨rfl, rfl, rfl, rfl, rfl, fun h => h⟩, rfl⟩
  · exact ⟨.refl e, rfl⟩

theorem release_alike (e : Entry) : Alike e e.release ∧ e.release.refs = e.refs - 1 := by
  unfold Entry.release
  split
  · exact ⟨⟨rfl, rfl, rfl, rfl, rfl, fun h => h⟩, rfl⟩
  · rename_i none_
    exact ⟨.refl e, by rw [Decidable.not_not.1 none_]⟩

/-- The entry a page is in has one reference less; with the last of them a stale one goes. -/
theorem put_cases (sound : Sound s) {page : Nat} (some_ : page ≠ 0)
    (valid : (s.entries i).valid = true) (at_ : (s.entries i).page = page) :
    ∃ e : Entry, e.refs = (s.entries i).refs - 1 ∧
      ((put s page).1 = s.setEntry i e ∧ Alike (s.entries i) e ∨
        (put s page).1 = (s.freePage (s.entries i).page).setEntry i e ∧ e.valid = false ∧ e.refs = 0) ∧
      ∃ back, (put s page).2 = .gaveUp back := by
  have found : findPage s page = some i := by
    cases found : findPage s page with
    | none => exact absurd ⟨valid, at_⟩ (findPage_none found i)
    | some j =>
      obtain ⟨valid', at'⟩ := findPage_some found
      rw [sound.apart j i valid' valid (at'.trans at_.symm)]
  obtain ⟨released, refs⟩ := release_alike (s.entries i)
  obtain ⟨cleaned, refs'⟩ := clean_alike (s.entries i).release
  have same : Alike (s.entries i) (s.entries i).release.clean :=
    ⟨cleaned.valid.trans released.valid, cleaned.page.trans released.page,
      cleaned.fs.trans released.fs, cleaned.id.trans released.id,
      cleaned.offset.trans released.offset, fun h => cleaned.stale (released.stale h)⟩
  rw [put, if_neg some_, found]
  dsimp only
  by_cases last : (s.entries i).release.clean.refs = 0 ∧ (s.entries i).release.clean.stale = true
  · rw [if_pos last, same.page]
    exact ⟨{ (s.entries i).release.clean with valid := false, stale := false, page := 0 },
      refs'.trans refs, .inr ⟨rfl, rfl, last.1⟩, _, rfl⟩
  · rw [if_neg last]
    exact ⟨_, refs'.trans refs, .inl ⟨rfl, same⟩, _, rfl⟩

/-- A reference given up: the entry stays as it is until the last of them goes. -/
theorem put_did (sound : Sound s) (has : Has s t) {page : Nat} (budget : inHand t ≤ due s)
    (at_ : t.point = .holding i page) : Did s t (put s page).1 (put s page).2 := by
  have held : 0 < (s.entries i).refs := budget_slot budget (by rw [at_]; rfl)
  have valid : (s.entries i).valid = true := (has.entry i (by rw [at_]; rfl)).1
  have at' : (s.entries i).page = page := has.page i page (by rw [at_]; rfl) (by rw [at_]; rfl)
  have slot : t.point.slot = some i := by rw [at_]; rfl
  have own : t.point.loose = none := by rw [at_]; rfl
  have some_ : page ≠ 0 := by
    intro zero
    have out := sound.out i valid
    rw [at', zero, sound.nil] at out
    cases out
  obtain ⟨e, refs, change, back, point⟩ := put_cases sound some_ valid at'
  rw [point]
  have has' (s' : Shared) : Has s' { t with point := .gaveUp back } :=
    .of_vacant (Point.gaveUp_slot back) (by cases back <;> exact nofun)
  have balance (s' : Shared) (entries : s'.entries = (s.setEntry i e).entries)
      (loose : ∀ p, Loose s' p ↔ Loose s p) :
      inHand { t with point := .gaveUp back } + due s = inHand t + due s' := by
    funext token
    cases token with
    | ref j =>
      simp only [Pi.add_apply, inHand, due, Point.gaveUp_slot, slot, entries, Option.some.injEq]
      by_cases same : i = j
      · subst same
        rw [setEntry_entries_self, refs]
        simp
        omega
      · rw [setEntry_entries_of_ne (Ne.symm same)]
        simp [same]
    | loose p => simp only [Pi.add_apply, inHand, due, Point.gaveUp_loose, own, loose p]
  cases change with
  | inl kept =>
    obtain ⟨same, alike⟩ := kept
    rw [same]
    refine ⟨sound.alike (alike_all alike) ?_, has' _, fun j _ => alike_all alike j, fun _ _ _ => rfl,
      balance _ rfl (loose_alike alike)⟩
    intro invalid
    rw [alike.valid, valid] at invalid
    cases invalid
  | inr gone =>
    obtain ⟨same, invalid, none_⟩ := gone
    rw [same]
    refine ⟨sound.give valid invalid none_, has' _, ?_, fun _ _ _ => rfl,
      balance _ rfl (loose_give valid invalid)⟩
    intro j many
    have other : j ≠ i := by
      rintro rfl
      rw [inHand, if_pos slot] at many
      omega
    rw [setEntry_entries_of_ne other]
    exact .refl _

/-! ## Every order -/

theorem advance_did (a : Around) (sound : Sound s) (room : Room s t) (has : Has s t)
    (budget : inHand t ≤ due s) : Did s t (advance a s t).1 (advance a s t).2 := by
  unfold advance
  cases at_ : t.point with
  | looking => exact look_did sound room at_
  | allocating => exact allocate_did sound a.offered at_
  | reading page => exact readIn_did sound a budget at_
  | inserting page bytes => exact insertPage_did sound room has budget at_
  | dropping page found => exact dropping_did sound has budget at_
  | answering i =>
    refine .steady (.refl sound) (by rw [at_]; rfl) (by rw [at_]; rfl) ?_
    exact .of_slot rfl (has.entry i (by rw [at_]; rfl)) (by rintro page ⟨⟩; rfl) (by simp)
  | releasing file i page =>
    refine .steady (.refl sound) (by rw [at_]; rfl) (by rw [at_]; rfl) ?_
    refine .of_slot rfl (has.entry i (by rw [at_]; rfl)) ?_ (by simp)
    rintro p ⟨⟩
    exact has.page i page (by rw [at_]; rfl) (by rw [at_]; rfl)
  | holding i page =>
    dsimp only
    split
    · have steady := markShared_steady sound page
      refine .steady steady (by rw [at_]) (by rw [at_]) ?_
      have kept : Has (markShared s page) t := has.mono
        (fun j slot => steady.held (Nat.pos_iff_ne_zero.1 (budget_slot budget slot)))
        (fun p _ => by rw [steady.contents])
      rw [← at_]
      exact kept
    · exact put_did sound has budget at_
  | writingBack back =>
    exact .steady (writeBack_steady sound back) (by rw [at_]; rfl) (by rw [at_]; rfl)
      (.of_vacant rfl (by simp))
  | forgetting =>
    obtain ⟨s', steady, same⟩ := forget_steady sound t
    dsimp only
    rw [same]
    have did : Did s t s' .returned :=
      .steady steady (by rw [at_]; rfl) (by rw [at_]; rfl) (.of_vacant rfl (by simp))
    refine ⟨?_, .of_vacant rfl (by simp), did.held, did.contents, did.balance⟩
    exact ⟨did.sound.idle, did.sound.out, did.sound.apart, did.sound.once, did.sound.filled,
      did.sound.calm, did.sound.nil⟩
  | returned =>
    refine .steady (.refl sound) (by rw [at_]) (by rw [at_]) ?_
    exact .of_vacant rfl (by simp)

theorem Sound.tick (sound : Sound s) : Sound s.tick :=
  ⟨sound.idle, sound.out, sound.apart, sound.once, sound.filled, sound.calm, sound.nil⟩

/-- A call begins with nothing. -/
theorem enter_point (c : Call) (s : Shared) :
    (enter c s).2.started = s.clock ∧ ((enter c s).2.point = .looking ∨
      (enter c s).2.point = .forgetting ∨ (enter c s).2.point = .returned) := by
  unfold enter
  cases c with
  | get f offset =>
    dsimp only
    split
    · split
      · exact ⟨rfl, .inl rfl⟩
      · exact ⟨rfl, .inr (.inr rfl)⟩
    · exact ⟨rfl, .inr (.inr rfl)⟩
  | forget f =>
    dsimp only
    split
    · exact ⟨rfl, .inr (.inl rfl)⟩
    · exact ⟨rfl, .inr (.inr rfl)⟩

theorem enter_empty (c : Call) (s : Shared) :
    (enter c s).2.point.slot = none ∧ (enter c s).2.point.loose = none ∧
      (enter c s).2.point.has = none ∧ ∀ page bytes, (enter c s).2.point ≠ .inserting page bytes := by
  obtain ⟨_, point⟩ := enter_point c s
  rcases point with point | point | point <;> rw [point] <;> exact ⟨rfl, rfl, rfl, by simp⟩

theorem pagecache_keeps :
    pagecache.Keeps (fun _ s t => Room s t) Sound Has (fun _ => 0) inHand due where
  act a s t room sound has budget := by
    rw [zero_add] at budget
    have did := advance_did a sound room has budget
    refine ⟨did.sound.tick, ⟨did.has.entry, did.has.page, did.has.read⟩, ?_⟩
    rw [zero_add, zero_add]
    exact did.balance
  others a s t u room sound has has' budget := by
    rw [zero_add] at budget
    have mine : inHand t ≤ due s := fun x => Nat.le_trans (Nat.le_add_right ..) (budget x)
    have did := advance_did a sound room has mine
    refine has'.mono ?_ ?_
    · intro i slot
      refine did.held i ?_
      have := budget (.ref i)
      simp only [Pi.add_apply, inHand, due, if_pos slot] at this ⊢
      omega
    · intro page loose
      have := budget (.loose page)
      simp only [Pi.add_apply, inHand, due, if_pos loose] at this
      refine did.contents page ?_ ?_
      · by_contra taken
        rw [if_neg taken] at this
        omega
      · intro own
        rw [if_pos own] at this
        split at this <;> omega
  start c s sound := by
    obtain ⟨slot, loose, _, inserts⟩ := enter_empty c s
    refine ⟨sound.tick, ?_, ?_⟩
    · exact Has.of_vacant (t := (enter c s).2) slot inserts
    · have none_ : inHand (pagecache.start c s).2 = 0 := by
        funext token
        cases token with
        | ref i =>
          show (if (enter c s).2.point.slot = some i then 1 else 0) = 0
          rw [slot, if_neg (by simp)]
        | loose page =>
          show (if (enter c s).2.point.loose = some page then 1 else 0) = 0
          rw [loose, if_neg (by simp)]
      rw [none_]
      rfl
  startOthers c s u sound has := ⟨has.entry, has.page, has.read⟩
  outside o _ := o.elim
  outsideOthers o _ := o.elim

theorem boot_sound : Sound .boot where
  idle _ _ := rfl
  out _ := nofun
  apart _ _ := nofun
  once _ _ _ _ _ serves := by cases serves.1
  filled _ := nofun
  calm := rfl
  nil := rfl

theorem boot_kept : Kept Sound Has (fun _ => 0) inHand due boot where
  shared := boot_sound
  each := by simp [boot]
  balance := by
    funext token
    cases token with
    | ref i => rfl
    | loose page => simp [total, boot, due, Shared.boot, Loose]

theorem count_holders (l : List Thread) (i : Slot) :
    (l.map inHand).sum (.ref i) = l.countP fun t => t.point.slot = some i := by
  rw [sum_apply]
  induction l with
  | nil => rfl
  | cons t l ih =>
    rw [List.map_cons, List.sum_cons, ih, List.countP_cons, Nat.add_comm]
    simp [inHand]

end ReconOS.Pagecache
