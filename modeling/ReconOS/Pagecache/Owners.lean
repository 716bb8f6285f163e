import Mathlib.Algebra.BigOperators.Group.Finset.Piecewise
import Mathlib.Data.Fintype.Basic
import ReconOS.Pagecache.OneCopy

/-! The files that the cache keeps open, for pages that may have to be written back. -/
namespace ReconOS.Pagecache

open Lib Lib.System

/-- The cache, and for each file how often a reference to it was taken for an entry, and given up. -/
structure Books where
  cache : Shared
  holds : File → Nat
  releases : File → Nat

/-- The file that a section calls `file_hold` for. -/
def holdsFor (s : Shared) (t : Thread) : Option File :=
  match t.point with
  | .inserting _ _ =>
    match find s t.ops.table t.file.id t.offset, (spare s).1 with
    | none, some _ => if t.ops.writeAt then some t.file else none
    | _, _ => none
  | _ => none

/-- The file that a section calls `file_release` for. -/
def releasesFor (t : Thread) : Option File :=
  match t.point with
  | .releasing file _ _ => some file
  | _ => none

/-- One for the file that is named. -/
def one (named : Option File) (f : File) : Nat := if named = some f then 1 else 0

def books : System Books Thread Around Call Empty where
  act a b t :=
    ({ cache := (act a b.cache t).1
       holds := fun f => b.holds f + one (holdsFor b.cache t) f
       releases := fun f => b.releases f + one (releasesFor t) f },
      (act a b.cache t).2)
  start c b := ({ b with cache := (enter c b.cache).1 }, (enter c b.cache).2)
  outside o _ := o.elim

def blankBooks : World Books Thread := ⟨⟨.boot, fun _ => 0, fun _ => 0⟩, []⟩

/-! ## What the entries name -/

/-- One for the file that an entry names, while it has a page. -/
def Entry.names (e : Entry) (f : File) : Nat := one (if e.valid then e.owner else none) f

/-- How many entries name a file. -/
def owned (s : Shared) (f : File) : Nat := Finset.univ.sum fun i => (s.entries i).names f

/-- An entry without a page names no file. -/
def Tidy (s : Shared) : Prop := ∀ i, (s.entries i).valid = false → (s.entries i).owner = none

variable {s s' : Shared} {i : Slot} {e : Entry} {t : Thread}

theorem owned_setEntry (s : Shared) (i : Slot) (e : Entry) (f : File) :
    owned (s.setEntry i e) f + (s.entries i).names f = owned s f + e.names f := by
  have changed : (fun j => ((s.setEntry i e).entries j).names f) =
      Function.update (fun j => (s.entries j).names f) i (e.names f) := by
    funext j
    by_cases same : j = i
    · rw [same, setEntry_entries_self, Function.update_self]
    · rw [setEntry_entries_of_ne same, Function.update_of_ne same]
  have split := Finset.add_sum_erase Finset.univ (fun j => (s.entries j).names f) (Finset.mem_univ i)
  unfold owned
  rw [changed, Finset.sum_update_of_mem (Finset.mem_univ i), ← split, Finset.sdiff_singleton_eq_erase]
  omega

theorem Tidy.setEntry (tidy : Tidy s) (neat : e.valid = false → e.owner = none) :
    Tidy (s.setEntry i e) := by
  intro j
  by_cases same : j = i
  · rw [same, setEntry_entries_self]
    exact neat
  · rw [setEntry_entries_of_ne same]
    exact tidy j

theorem names_invalid (invalid : e.valid = false) (f : File) : e.names f = 0 := by
  unfold Entry.names
  rw [invalid]
  rfl

theorem names_valid (valid : e.valid = true) (f : File) : e.names f = one e.owner f := by
  unfold Entry.names
  rw [if_pos valid]

theorem names_same {e' : Entry} (valid : e'.valid = e.valid) (owner : e'.owner = e.owner) (f : File) :
    e'.names f = e.names f := by
  unfold Entry.names
  rw [valid, owner]

/-- What a section leaves of the names: `gone` fewer, and `more` more. -/
structure Renamed (s s' : Shared) (gone more : Option File) : Prop where
  tidy : Tidy s'
  count : ∀ f, owned s' f + one gone f = owned s f + one more f

theorem Renamed.refl (tidy : Tidy s) : Renamed s s none none := ⟨tidy, fun _ => rfl⟩

theorem Renamed.of_entries (tidy : Tidy s) (same : s'.entries = s.entries) :
    Renamed s s' none none := by
  constructor
  · intro i
    rw [same]
    exact tidy i
  · intro f
    unfold owned
    rw [same]

theorem Renamed.trans {s'' : Shared} {gone more : Option File} (first : Renamed s s' none none)
    (next : Renamed s' s'' gone more) : Renamed s s'' gone more := by
  refine ⟨next.tidy, fun f => ?_⟩
  have := first.count f
  have := next.count f
  omega

/-- First some names go, and then some come. -/
theorem Renamed.andThen {s'' : Shared} {gone more : Option File} (first : Renamed s s' gone none)
    (next : Renamed s' s'' none more) : Renamed s s'' gone more := by
  refine ⟨next.tidy, fun f => ?_⟩
  have := first.count f
  have := next.count f
  omega

/-- An entry that names what it named, or now names a file and named none, or the other way round. -/
theorem Renamed.setEntry (tidy : Tidy s) (neat : e.valid = false → e.owner = none)
    {gone more : Option File}
    (count : ∀ f, e.names f + one gone f = (s.entries i).names f + one more f) :
    Renamed s (s.setEntry i e) gone more := by
  refine ⟨tidy.setEntry neat, fun f => ?_⟩
  have := owned_setEntry s i e f
  have := count f
  omega

/-- An entry of the same validity, and with the same owner. -/
theorem Renamed.same (tidy : Tidy s) (valid : e.valid = (s.entries i).valid)
    (owner : e.owner = (s.entries i).owner) : Renamed s (s.setEntry i e) none none := by
  refine .setEntry tidy (fun invalid => ?_) fun f => by rw [names_same valid owner]
  rw [owner]
  exact tidy i (valid.symm.trans invalid)

/-- A page given up whose entry names no file. -/
theorem Renamed.drop (tidy : Tidy s) (page : Nat) (gone : e.valid = false)
    (owner : e.owner = none) (unowned : (s.entries i).owner = none) :
    Renamed s ((s.freePage page).setEntry i e) none none := by
  have tidy' : Tidy (s.freePage page) := tidy
  have dropped : Renamed (s.freePage page) ((s.freePage page).setEntry i e) none none := by
    refine .setEntry tidy' (fun _ => owner) fun f => ?_
    rw [names_invalid gone]
    show 0 + _ = (s.entries i).names f + _
    unfold Entry.names
    rw [unowned, ite_self]
    rfl
  have freed : Renamed s (s.freePage page) none none := .of_entries tidy rfl
  exact freed.trans dropped

/-! ## Sections -/

theorem evict_renamed (tidy : Tidy s) (valid : (s.entries i).valid = true) :
    Renamed s (evict s i) (s.entries i).owner none ∧ ((evict s i).entries i).valid = false := by
  obtain ⟨l, eq⟩ := evict_eq s i
  rw [eq, setEntry_entries_self]
  have wrote : Renamed s (({ s with written := l } : Shared).freePage (s.entries i).page) none
      none := .of_entries tidy rfl
  refine ⟨wrote.trans (.setEntry wrote.tidy (fun _ => rfl) fun f => ?_), rfl⟩
  rw [names_invalid rfl, Nat.zero_add]
  exact (names_valid valid f).symm

theorem turn_renamed (turns : Nat) (tidy : Tidy s) (full : ∀ j, (s.entries j).valid = true) :
    Renamed s (turn turns s).2 ((turn turns s).1.bind Prod.snd) none ∧
      ∀ taken ∈ (turn turns s).1, ((turn turns s).2.entries taken.1).valid = false := by
  induction turns generalizing s with
  | zero => exact ⟨.refl tidy, by simp [turn]⟩
  | succ turns ih =>
    have moved : Renamed s { s with hand := nextHand s.hand } none none := .of_entries tidy rfl
    unfold turn
    dsimp only
    split
    · obtain ⟨renamed, taken⟩ := ih moved.tidy full
      exact ⟨moved.trans renamed, taken⟩
    · split
      · have cleared := moved.trans (Renamed.same (i := s.hand)
          (e := { s.entries s.hand with referenced := false }) moved.tidy rfl rfl)
        obtain ⟨renamed, taken⟩ := ih cleared.tidy fun j => by
          by_cases same : j = s.hand
          · rw [same, setEntry_entries_self]
            exact full s.hand
          · rw [setEntry_entries_of_ne same]
            exact full j
        exact ⟨cleared.trans renamed, taken⟩
      · obtain ⟨renamed, gone⟩ := evict_renamed (i := s.hand) moved.tidy (full s.hand)
        refine ⟨moved.trans renamed, ?_⟩
        intro taken same
        cases same
        exact gone

/-- The slot that is taken is empty, and the file that went with it is handed over. -/
theorem spare_renamed (tidy : Tidy s) : Renamed s (spare s).2 ((spare s).1.bind Prod.snd) none ∧
    ∀ taken ∈ (spare s).1, ((spare s).2.entries taken.1).valid = false := by
  unfold spare
  split
  · rename_i j found
    refine ⟨.refl tidy, ?_⟩
    intro taken same
    cases same
    have := List.find?_some found
    simpa using this
  · rename_i none_
    have full := List.find?_eq_none.1 none_
    exact turn_renamed _ tidy fun j => by simpa using full j (List.mem_finRange j)

/-- No entry of the file that nobody has a reference to names a file to write back to. -/
def Unowned (s : Shared) (fs id : Nat) : Prop :=
  ∀ i, (s.entries i).valid = true → (s.entries i).fs = fs → (s.entries i).id = id →
    (s.entries i).refs = 0 → (s.entries i).owner = none

theorem sweep_renamed (fs id : Nat) (slots : List Slot) (tidy : Tidy s) (unowned : Unowned s fs id) :
    Renamed s (sweep fs id slots s) none none := by
  induction slots generalizing s with
  | nil => exact .refl tidy
  | cons i rest ih =>
    unfold sweep
    dsimp only
    split
    · exact ih tidy unowned
    rename_i ofFile
    rw [not_or, not_or] at ofFile
    obtain ⟨valid, ofFs, ofId⟩ := ofFile
    have valid : (s.entries i).valid = true := Bool.not_eq_false _ ▸ valid
    split
    · have first := Renamed.same (i := i) (e := { s.entries i with stale := true }) tidy rfl rfl
      refine first.trans (ih first.tidy ?_)
      intro j
      by_cases same : j = i
      · rw [same, setEntry_entries_self]
        exact unowned i
      · rw [setEntry_entries_of_ne same]
        exact unowned j
    · rename_i free
      have none_ : (s.entries i).owner = none := unowned i valid (Decidable.not_not.1 ofFs)
        (Decidable.not_not.1 ofId) (Decidable.not_not.1 free)
      have first := Renamed.drop (i := i) (e := { s.entries i with
        valid := false, page := 0, fs := 0, id := 0 }) tidy (s.entries i).page rfl none_ none_
      refine first.trans (ih first.tidy ?_)
      intro j
      by_cases same : j = i
      · rw [same, setEntry_entries_self]
        intro gone
        cases gone
      · rw [setEntry_entries_of_ne same]
        exact unowned j

/-- The last reference to a stale entry is put only where the entry names no file. -/
def PutSpares (s : Shared) (page : Nat) : Prop :=
  ∀ i, findPage s page = some i → (s.entries i).refs ≤ 1 → (s.entries i).stale = true →
    (s.entries i).owner = none

theorem put_renamed (tidy : Tidy s) {page : Nat} (spares : PutSpares s page) :
    Renamed s (put s page).1 none none := by
  unfold put
  split
  · exact .refl tidy
  · rename_i i looked
    have found : findPage s page = some i := by
      split at looked
      · cases looked
      · exact looked
    obtain ⟨released, refs⟩ := release_alike (s.entries i)
    obtain ⟨cleaned, refs'⟩ := clean_alike (s.entries i).release
    have owner : (s.entries i).release.clean.owner = (s.entries i).owner := by
      unfold Entry.clean Entry.release
      split <;> split <;> rfl
    have stale : (s.entries i).release.clean.stale = (s.entries i).stale := by
      unfold Entry.clean Entry.release
      split <;> split <;> rfl
    dsimp only
    split
    · rename_i last
      have none_ : (s.entries i).owner = none :=
        spares i found (by omega) (stale.symm.trans last.2)
      exact .drop tidy _ rfl (owner.trans none_) none_
    · exact .same tidy (cleaned.valid.trans released.valid) owner

theorem markShared_renamed (tidy : Tidy s) (page : Nat) : Renamed s (markShared s page) none none := by
  unfold markShared
  split
  · exact .refl tidy
  · split
    · exact .same tidy rfl rfl
    · exact .refl tidy

theorem insertPage_renamed (tidy : Tidy s) {page bytes : Nat}
    (at_ : t.point = .inserting page bytes) :
    Renamed s (insertPage s t page bytes).1
      (releasesFor { t with point := (insertPage s t page bytes).2 }) (holdsFor s t) := by
  unfold insertPage holdsFor
  rw [at_]
  dsimp only
  cases found : find s t.ops.table t.file.id t.offset with
  | some i => exact .same tidy rfl rfl
  | none =>
    obtain ⟨renamed, taken⟩ := spare_renamed tidy
    cases spared : spare s with
    | mk slot s' =>
      rw [spared] at renamed taken
      cases slot with
      | none => exact renamed
      | some slot =>
        obtain ⟨i, evicted⟩ := slot
        have empty := taken _ rfl
        dsimp only at renamed empty ⊢
        have filled : Renamed s' (s'.setEntry i ((s'.entries i).fill t page bytes)) none
            (if t.ops.writeAt = true then some t.file else none) := by
          refine .setEntry renamed.tidy (fun gone => by cases gone) fun f => ?_
          rw [names_invalid empty, names_valid rfl, Nat.zero_add]
          rfl
        have handed : releasesFor { t with point := .filled i page evicted } = evicted := by
          cases evicted <;> rfl
        rw [handed]
        exact renamed.andThen filled

def SparesAt (a : Around) (s : Shared) (t : Thread) : Point → Prop
  | .forgetting => Unowned s t.ops.table t.file.id
  | .holding _ page => a.use = .put → PutSpares s page
  | _ => True

/-- No reference goes with an entry that is dropped: a page that is forgotten, or put for the last
time when it is stale, names no file. -/
def Spares (a : Around) (s : Shared) (t : Thread) : Prop := SparesAt a s t t.point

/-- A section other than the second of a get takes no reference, and goes on with none. -/
structure Quiet (s : Shared) (did : Shared × Point) : Prop where
  renamed : Renamed s did.1 none none
  point : ∀ file i page, did.2 ≠ .releasing file i page

theorem Quiet.advance {did : Shared × Point} (quiet : Quiet s did)
    (elsewhere : ∀ page bytes, t.point ≠ .inserting page bytes) :
    Renamed s did.1 (releasesFor { t with point := did.2 }) (holdsFor s t) := by
  have gone : releasesFor { t with point := did.2 } = none := by
    unfold releasesFor
    dsimp only
    split
    · exact absurd ‹_› (quiet.point _ _ _)
    · rfl
  have more : holdsFor s t = none := by
    unfold holdsFor
    split
    · exact absurd ‹_› (elsewhere _ _)
    · rfl
  rw [gone, more]
  exact quiet.renamed

theorem look_quiet (tidy : Tidy s) : Quiet s (look s t) := by
  unfold look
  split
  · exact ⟨.same tidy rfl rfl, nofun⟩
  · exact ⟨.refl tidy, nofun⟩

theorem allocate_quiet (tidy : Tidy s) (offered : Nat) : Quiet s (allocate offered s) := by
  unfold allocate
  split
  · exact ⟨.refl tidy, nofun⟩
  · exact ⟨.of_entries tidy rfl, nofun⟩

theorem readIn_quiet (a : Around) (tidy : Tidy s) (page : Nat) : Quiet s (readIn a s t page) := by
  unfold readIn
  split
  · exact ⟨.refl tidy, nofun⟩
  · split
    · exact ⟨.of_entries tidy rfl, nofun⟩
    · exact ⟨.refl tidy, nofun⟩

theorem put_quiet (tidy : Tidy s) {page : Nat} (spares : PutSpares s page) : Quiet s (put s page) := by
  refine ⟨put_renamed tidy spares, ?_⟩
  unfold put
  split
  · exact nofun
  · unfold Point.gaveUp
    dsimp only
    split <;> exact nofun

theorem advance_renamed (a : Around) (tidy : Tidy s) (spares : Spares a s t) :
    Renamed s (advance a s t).1 (releasesFor { t with point := (advance a s t).2 })
      (holdsFor s t) := by
  unfold Spares at spares
  unfold advance
  cases at_ : t.point with
  | inserting page bytes => exact insertPage_renamed tidy at_
  | looking => exact (look_quiet tidy).advance (by simp [at_])
  | allocating => exact (allocate_quiet tidy _).advance (by simp [at_])
  | reading page => exact (readIn_quiet a tidy page).advance (by simp [at_])
  | dropping page found =>
    have quiet : Quiet s (s.freePage page, Point.dropped found) :=
      ⟨.of_entries tidy rfl, by cases found <;> exact nofun⟩
    exact quiet.advance (by simp [at_])
  | answering i =>
    have quiet : Quiet s (s, Point.holding i (s.entries i).page) := ⟨.refl tidy, nofun⟩
    exact quiet.advance (by simp [at_])
  | releasing file i page =>
    have quiet : Quiet s (s, Point.holding i page) := ⟨.refl tidy, nofun⟩
    exact quiet.advance (by simp [at_])
  | holding i page =>
    rw [at_] at spares
    dsimp only
    cases use : a.use with
    | markShared =>
      have quiet : Quiet s (markShared s page, Point.holding i page) :=
        ⟨markShared_renamed tidy page, nofun⟩
      exact quiet.advance (by simp [at_])
    | put => exact (put_quiet tidy (spares use)).advance (by simp [at_])
  | writingBack back =>
    obtain ⟨l, same⟩ := writeBack_eq s back
    have quiet : Quiet s (writeBack s back, Point.returned) := by
      rw [same]
      exact ⟨.of_entries tidy rfl, nofun⟩
    exact quiet.advance (by simp [at_])
  | forgetting =>
    rw [at_] at spares
    have swept := sweep_renamed t.ops.table t.file.id (List.finRange pagecacheMax) tidy spares
    have quiet : Quiet s (forget s t, Point.returned) :=
      ⟨swept.trans (.of_entries swept.tidy rfl), nofun⟩
    exact quiet.advance (by simp [at_])
  | returned =>
    have quiet : Quiet s (s, Point.returned) := ⟨.refl tidy, nofun⟩
    exact quiet.advance (by simp [at_])

/-! ## Runs -/

theorem enter_releases (c : Call) (s : Shared) : releasesFor (enter c s).2 = none := by
  obtain ⟨-, point⟩ := enter_point c s
  unfold releasesFor
  obtain point | point | point := point <;> rw [point]

/-- What is held for entries is named by one, or about to be given up, or was. -/
theorem books_keeps : books.Keeps (fun a b t => Spares a b.cache t) (fun b => Tidy b.cache)
    (fun _ _ => True) (fun b f => b.releases f + owned b.cache f) (fun t => one (releasesFor t))
    (fun b => b.holds) where
  act a b t spares tidy _ _ := by
    have renamed := advance_renamed a tidy spares
    refine ⟨renamed.tidy, trivial, ?_⟩
    funext f
    have count : owned (act a b.cache t).1 f + one (releasesFor (act a b.cache t).2) f =
        owned b.cache f + one (holdsFor b.cache t) f := renamed.count f
    show b.releases f + one (releasesFor t) f + owned (act a b.cache t).1 f +
      one (releasesFor (act a b.cache t).2) f + b.holds f =
        b.releases f + owned b.cache f + one (releasesFor t) f +
          (b.holds f + one (holdsFor b.cache t) f)
    omega
  others _ _ _ _ _ _ _ _ _ := trivial
  start c b tidy := by
    refine ⟨tidy, trivial, ?_⟩
    funext f
    show b.releases f + owned b.cache f + one (releasesFor (enter c b.cache).2) f + b.holds f =
      b.releases f + owned b.cache f + b.holds f
    have none_ : one (releasesFor (enter c b.cache).2) f = 0 := by
      rw [enter_releases]
      rfl
    omega
  startOthers _ _ _ _ _ := trivial
  outside o _ := o.elim
  outsideOthers o _ := o.elim

/-- The references to a file that were taken for entries are those given up, those that an entry
names, and those that a call is about to give up. -/
def Balanced (w : World Books Thread) (f : File) : Prop :=
  w.shared.holds f = w.shared.releases f + owned w.shared.cache f +
    w.threads.countP fun t => releasesFor t = some f

instance (w : World Books Thread) (f : File) : Decidable (Balanced w f) :=
  inferInstanceAs (Decidable (_ = _))

/-- After any moves in which no entry that names a file is forgotten without a reference, nor put
for the last time when it is stale, the references to each file balance. -/
theorem references_balance {moves : List (Move Around Call Empty)}
    (spares : books.Meets (fun a b t => Spares a b.cache t) blankBooks moves) (f : File) :
    Balanced (books.play blankBooks moves) f := by
  have start : Kept (fun b : Books => Tidy b.cache) (fun _ _ => True)
      (fun b f => b.releases f + owned b.cache f) (fun t => one (releasesFor t))
      (fun b => b.holds) blankBooks := by
    refine ⟨fun _ _ => rfl, fun _ _ => trivial, ?_⟩
    funext f
    have none_ : owned .boot f = 0 := Finset.sum_eq_zero fun i _ => rfl
    show 0 + owned .boot f + 0 = 0
    rw [none_]
  have kept := books_keeps.play spares start
  have balance := congrFun kept.balance f
  have pending (l : List Thread) : (l.map fun t => one (releasesFor t)).sum f =
      l.countP fun t => releasesFor t = some f := by
    rw [sum_apply]
    induction l with
    | nil => rfl
    | cons t l ih =>
      rw [List.map_cons, List.sum_cons, ih, List.countP_cons, Nat.add_comm]
      simp [one]
  unfold Balanced
  rw [← pending]
  exact balance.symm

/-! ## A file that is never closed -/

/-- A filesystem that takes writes. -/
def keptFs : FileOps := ⟨1, true, false, true, true⟩
def keptFile : File := ⟨some keptFs, 1⟩

/-- A page is read in, and put. -/
def getPut : List (Move Around Call Empty) :=
  [.start (.get (some keptFile) 0), .act 0 plain, .act 0 plain, .act 0 plain, .act 0 plain,
    .act 0 plain]

instance (s : Shared) (fs id : Nat) : Decidable (Unowned s fs id) :=
  inferInstanceAs (Decidable (∀ _, _ → _ → _ → _ → _))

instance (s : Shared) (page : Nat) : Decidable (PutSpares s page) :=
  inferInstanceAs (Decidable (∀ _, _ → _ → _ → _))

instance decidableSparesAt (a : Around) (s : Shared) (t : Thread) :
    (p : Point) → Decidable (SparesAt a s t p)
  | .forgetting => inferInstanceAs (Decidable (Unowned s _ _))
  | .holding _ page => inferInstanceAs (Decidable (_ → PutSpares s page))
  | .looking | .allocating | .reading _ | .inserting _ _ | .dropping _ _ | .answering _
  | .releasing _ _ _ | .writingBack _ | .returned => inferInstanceAs (Decidable True)

instance (a : Around) (s : Shared) (t : Thread) : Decidable (Spares a s t) :=
  inferInstanceAs (Decidable (SparesAt a s t t.point))

theorem references_balance_put : (books.play blankBooks getPut).shared.holds keptFile = 1 ∧
    Balanced (books.play blankBooks getPut) keptFile := by
  have spares : books.Meets (fun a b t => Spares a b.cache t) blankBooks getPut := by
    decide +kernel
  exact ⟨by decide +kernel, references_balance spares keptFile⟩

/-- Then the file is forgotten: no entry names it, and the cache still has a reference to it. -/
theorem reference_kept : ¬∀ moves f, Balanced (books.play blankBooks moves) f := by
  intro always
  have balanced := always (getPut ++ [.start (.forget (some keptFile)), .act 1 plain]) keptFile
  revert balanced
  decide +kernel

end ReconOS.Pagecache
