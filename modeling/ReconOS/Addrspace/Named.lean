import ReconOS.Addrspace.Mapped

/-! Which page is whose, in the tables and in the cache, whatever the pages hold and whichever
regions are shared. -/
namespace ReconOS.Addrspace

open Machine

variable {m m' : Machine} {i i' page page' frame slot addr va : Nat} {w write : Bool}
  {f : File} {a : Around} {r : Region}

/-- A page that nothing names but the one entry. -/
structure Machine.Alone (m : Machine) (i va frame : Nat) : Prop where
  unzero : frame ≠ m.zeroPage
  uncached : m.cacheOwns frame = false
  only : ∀ i' page w, m.entry i' page = .present frame w → i' = i ∧ page = va

/-- Nothing has the page: no tables, no entry of the cache, and it is not the page of zeroes. -/
structure Machine.Unnamed (m : Machine) (frame : Nat) : Prop where
  unzero : frame ≠ m.zeroPage
  uncached : m.cacheOwns frame = false
  unmapped : ∀ i page w, m.entry i page ≠ .present frame w

/-! ## The machine without what its pages hold -/

def Entry.plain : Entry → Entry
  | .present frame _ => .present frame false
  | .absent | .swapped _ => .absent

/-- A machine as far as who has which page goes. -/
def Machine.plain (m : Machine) : Machine where
  spaces i := ⟨[], fun page => (m.entry i page).plain⟩
  out := m.out
  bytes _ := zeroes
  zeroPage := m.zeroPage
  cache := m.cache
  swap := ⟨0, 0, fun _ => true, fun _ => zeroes⟩

/-- Pages in the tables and in the cache are out of the allocator; one that is neither the shared
zeroes nor the cache's is in one place. -/
def Named (m : Machine) : Prop := Owned m.plain

theorem Entry.plain_eq {e : Entry} (at_ : e.plain = .present frame w) :
    w = false ∧ ∃ w', e = .present frame w' := by
  cases e with
  | absent => cases at_
  | swapped slot => cases at_
  | present frame' w' =>
    cases at_
    exact ⟨rfl, w', rfl⟩

theorem Entry.plain_ne_swapped (e : Entry) : e.plain ≠ .swapped slot := by
  cases e <;> exact Entry.noConfusion

theorem entry_plain (m : Machine) (i page : Nat) : m.plain.entry i page = (m.entry i page).plain := rfl

theorem plain_present (at_ : m.entry i page = .present frame w) :
    m.plain.entry i page = .present frame false := by
  rw [entry_plain, at_]
  rfl

theorem plain_congr (entry : ∀ i page, (m'.entry i page).plain = (m.entry i page).plain)
    (out : m'.out = m.out) (zeroPage : m'.zeroPage = m.zeroPage) (cache : m'.cache = m.cache) :
    m'.plain = m.plain := by
  have spaces : (fun i => (⟨[], fun page => (m'.entry i page).plain⟩ : Space)) =
      fun i => ⟨[], fun page => (m.entry i page).plain⟩ :=
    funext fun i => congrArg (Space.mk []) (funext (entry i))
  unfold Machine.plain
  rw [spaces, out, zeroPage, cache]

theorem plain_plain (m : Machine) : m.plain.plain = m.plain := by
  refine plain_congr ?_ rfl rfl rfl
  intro i page
  rw [entry_plain]
  cases m.entry i page <;> rfl

theorem plain_setEntry (m : Machine) (i page : Nat) (e : Entry) :
    (m.setEntry i page e).plain = m.plain.setEntry i page e.plain := by
  have spaces : (m.setEntry i page e).plain.spaces = (m.plain.setEntry i page e.plain).spaces := by
    funext i'
    show (⟨[], fun page' => ((m.setEntry i page e).entry i' page').plain⟩ : Space) =
      Function.update m.plain.spaces i ⟨[], Function.update (m.plain.spaces i).table page e.plain⟩ i'
    by_cases at_ : i' = i
    · rw [at_, Function.update_self]
      refine congrArg (Space.mk []) (funext fun page' => ?_)
      rw [entry_setEntry]
      by_cases on : page' = page
      · rw [if_pos ⟨rfl, on⟩, on, Function.update_self]
      · rw [if_neg fun both => on both.2, Function.update_of_ne on]
        rfl
    · rw [Function.update_of_ne at_]
      refine congrArg (Space.mk []) (funext fun page' => ?_)
      rw [entry_setEntry, if_neg fun both => at_ both.1]
  show (⟨(m.setEntry i page e).plain.spaces, m.out, _, m.zeroPage, m.cache, _⟩ : Machine) = _
  rw [spaces]
  rfl

theorem plain_setRegions (m : Machine) (i : Nat) (regions : List Region) :
    (m.setRegions i regions).plain = m.plain := by
  refine plain_congr ?_ rfl rfl rfl
  intro i' page
  rw [entry_setRegions]

theorem plain_swapFree (m : Machine) (slot : Nat) : (m.swapFree slot).plain = m.plain := by
  unfold Machine.swapFree
  split <;> rfl

theorem Spent.plain (spent : Spent m m') : m'.plain = m.plain := by
  cases spent with
  | inl same => rw [same]
  | inr wrote =>
    obtain ⟨_, _, _, rfl⟩ := wrote
    rfl

/-- A machine that keeps its pages keeps them when nothing else of it is looked at. -/
theorem Owned.plain (owned : Owned m) : Named m := by
  constructor
  case zero => exact owned.zero
  case zeroes => exact fun _ => rfl
  case out =>
    intro i page frame w at_
    obtain ⟨_, w', at_⟩ := Entry.plain_eq at_
    exact owned.out i page frame w' at_
  case lent =>
    intro i page frame at_
    cases (Entry.plain_eq at_).1
  case sole =>
    intro i page frame w i' page' w' at₁ at₂
    obtain ⟨_, w₁, at₁⟩ := Entry.plain_eq at₁
    obtain ⟨_, w₂, at₂⟩ := Entry.plain_eq at₂
    exact owned.sole i page frame w₁ i' page' w₂ at₁ at₂
  case cached =>
    intro c mem
    obtain ⟨notZero, out, holders, nodup, short, all⟩ := owned.cached c mem
    refine ⟨notZero, out, holders, nodup, short, ?_⟩
    intro i page w at_
    obtain ⟨_, w', at_⟩ := Entry.plain_eq at_
    exact all i page w' at_
  case distinct => exact owned.distinct
  case slot => exact fun i page slot at_ => absurd at_ (Entry.plain_ne_swapped _)
  case slotSole => exact fun i page _ _ slot at_ => absurd at_ (Entry.plain_ne_swapped _)
  case slotZero => rfl

/-- A place that has no page any more. -/
theorem Owned.setAbsent (owned : Owned m) (i page : Nat) : Owned (m.setEntry i page .absent) := by
  have old (i' page' : Nat) (e : Entry) (some_ : e ≠ .absent)
      (at_ : (m.setEntry i page .absent).entry i' page' = e) : m.entry i' page' = e := by
    rw [entry_setEntry] at at_
    split at at_
    · exact absurd at_.symm some_
    · exact at_
  have present (i' page' f : Nat) (w : Bool)
      (at_ : (m.setEntry i page .absent).entry i' page' = .present f w) :
      m.entry i' page' = .present f w := old i' page' _ Entry.noConfusion at_
  have swapped (i' page' s : Nat)
      (at_ : (m.setEntry i page .absent).entry i' page' = .swapped s) :
      m.entry i' page' = .swapped s := old i' page' _ Entry.noConfusion at_
  constructor
  case zero => exact owned.zero
  case zeroes => exact owned.zeroes
  case out => exact fun i' page' f w at_ => owned.out i' page' f w (present _ _ _ _ at_)
  case lent => exact fun i' page' f at_ => owned.lent i' page' f (present _ _ _ _ at_)
  case sole =>
    exact fun i₁ page₁ f w₁ i₂ page₂ w₂ at₁ at₂ =>
      owned.sole i₁ page₁ f w₁ i₂ page₂ w₂ (present _ _ _ _ at₁) (present _ _ _ _ at₂)
  case cached =>
    intro c mem
    obtain ⟨notZero, out, held⟩ := owned.cached c mem
    exact ⟨notZero, out, held.mono (Nat.le_refl _) fun _ _ _ at_ => present _ _ _ _ at_⟩
  case distinct => exact owned.distinct
  case slot => exact fun i' page' s at_ => owned.slot i' page' s (swapped _ _ _ at_)
  case slotSole =>
    exact fun i₁ page₁ i₂ page₂ s at₁ at₂ =>
      owned.slotSole i₁ page₁ i₂ page₂ s (swapped _ _ _ at₁) (swapped _ _ _ at₂)
  case slotZero => exact owned.slotZero

namespace Named

variable (named : Named m)

include named

theorem unnamed (free : m.out frame = false) : m.Unnamed frame := by
  obtain ⟨notZero, uncached, nowhere⟩ := Owned.loose named free
  refine ⟨notZero, cacheOwns_eq_false.2 uncached, ?_⟩
  intro i page w at_
  exact nowhere i page false (plain_present at_)

/-- A page that the cache does not own and that is not the zeroes is in one place. -/
theorem alone (at_ : m.entry i va = .present frame w) (notZero : frame ≠ m.zeroPage)
    (uncached : m.cacheOwns frame = false) : m.Alone i va frame := by
  refine ⟨notZero, uncached, ?_⟩
  intro i' page w' at'
  exact Owned.sole named i va frame false i' page false (plain_present at_) (plain_present at')
    notZero (cacheOwns_eq_false.1 uncached)

theorem congr (same : m'.plain = m.plain) : Named m' := by
  unfold Named
  rw [same]
  exact named

/-- A fresh page at one place. -/
theorem gave (free : m.out frame = false) (i page : Nat) (w : Bool) (p : Page) :
    Named (m.gave i page frame w p) := by
  obtain ⟨notZero, uncached, nowhere⟩ := Owned.loose named free
  unfold Named Machine.gave
  rw [plain_setEntry]
  exact (Owned.taken named frame).setOwn (Function.update_self ..) notZero uncached nowhere i page false

/-- A page put back in the allocator from the one place it was in. -/
theorem gone (alone : m.Alone i va frame) (e : Entry) (absent : e.plain = .absent) :
    Named ((m.setEntry i va e).freePage frame) := by
  show Owned ((m.setEntry i va e).plain.freePage frame)
  rw [plain_setEntry, absent]
  refine (Owned.setAbsent named i va).freePage alone.unzero (cacheOwns_eq_false.1 alone.uncached) ?_
  intro i' page w at_
  rw [entry_setEntry] at at_
  split at at_
  · cases at_
  · rename_i away
    obtain ⟨_, w', at_⟩ := Entry.plain_eq at_
    exact away (alone.only i' page w' at_)

end Named

/-! ## Faults -/

def File.empty (f : File) : File :=
  ⟨f.fs, f.identity, [], f.capacity, f.writeAt, Nat.zero_le _, f.bounded⟩

theorem allocPage_plain (m : Machine) (offered : Nat) :
    m.plain.allocPage offered = (m.allocPage offered).map Machine.plain := by
  unfold Machine.allocPage
  show (if offered = 0 ∨ m.out offered = true then _ else _) = _
  split <;> rfl

theorem spare_plain (m : Machine) (victim : Option (Option Nat)) :
    m.plain.spare victim = (m.spare victim).map Machine.plain := by
  unfold Machine.spare
  cases victim with
  | none => rfl
  | some victim =>
    cases victim with
    | none => rfl
    | some k =>
      dsimp only
      have same : m.plain.cache = m.cache := rfl
      rw [same]
      cases m.cache[k]? with
      | none => rfl
      | some e =>
        dsimp only
        split <;> rfl

/-- Which page the cache answers with has nothing to do with what is in the pages. -/
theorem pagecacheGet_plain (m : Machine) (f : File) (offset : Nat) (a : Around) :
    (m.plain.pagecacheGet f.empty offset a).1 = (m.pagecacheGet f offset a).1 ∧
      (m.plain.pagecacheGet f.empty offset a).2.plain = (m.pagecacheGet f offset a).2.plain := by
  have same : m.plain.cache = m.cache := rfl
  have names : f.empty.fs = f.fs ∧ f.empty.identity = f.identity := ⟨rfl, rfl⟩
  unfold Machine.pagecacheGet
  rw [same, names.1, names.2]
  split
  · exact ⟨rfl, plain_plain m⟩
  cases m.cache.find? _ with
  | some e => exact ⟨rfl, plain_plain (m.setCache (recount e.frame (· + 1) m.cache))⟩
  | none =>
    dsimp only
    rw [allocPage_plain]
    cases m.allocPage a.cachePage with
    | none => exact ⟨rfl, plain_plain m⟩
    | some m₁ =>
      dsimp only [Option.map_some]
      have seeks : f.empty.seek offset = f.seek offset := rfl
      have blank (p : Page) (zero : p = zeroes) :
          m₁.plain.setBytes a.cachePage p = m₁.plain := by
        have kept : Function.update m₁.plain.bytes a.cachePage zeroes = m₁.plain.bytes :=
          Function.update_eq_self a.cachePage m₁.plain.bytes
        unfold Machine.setBytes
        rw [zero, kept]
      have read : f.empty.read offset pageSize zeroes = zeroes := by
        funext j
        rw [File.read_zeroes]
        split <;> rfl
      rw [seeks, blank _ rfl, blank _ read]
      split
      · exact ⟨rfl, plain_plain (m₁.freePage a.cachePage)⟩
      have spared := spare_plain (m₁.setBytes a.cachePage (f.read offset pageSize zeroes)) a.victim
      have same₁ : (m₁.setBytes a.cachePage (f.read offset pageSize zeroes)).plain = m₁.plain := rfl
      rw [same₁] at spared
      rw [spared]
      cases (m₁.setBytes a.cachePage (f.read offset pageSize zeroes)).spare a.victim with
      | none => exact ⟨rfl, plain_plain (m₁.freePage a.cachePage)⟩
      | some m₂ =>
        exact ⟨rfl, plain_plain
          (m₂.setCache (⟨f.fs, f.identity, offset, a.cachePage, 1, f.writeAt⟩ :: m₂.cache))⟩

/-- A page of the cache of which one reference is nobody's yet. -/
structure Lent (m : Machine) (frame : Nat) : Prop where
  named : Named m
  mine : ∃ c ∈ m.cache, c.frame = frame
  spare : ∀ c ∈ m.cache, c.frame = frame → 0 < c.refs ∧ Held m.plain frame (c.refs - 1)

theorem pagecacheGet_named (named : Named m) (f : File) (offset : Nat) (a : Around) :
    (∃ frame, (m.pagecacheGet f offset a).1 = some frame ∧ Lent (m.pagecacheGet f offset a).2 frame) ∨
    (m.pagecacheGet f offset a).1 = none ∧ (m.pagecacheGet f offset a).2.plain = m.plain := by
  obtain ⟨answer, same⟩ := pagecacheGet_plain m f offset a
  have filled : Filled (fun _ _ => []) m.plain :=
    ⟨fun i r mem => absurd mem List.not_mem_nil, fun i r mem => absurd mem List.not_mem_nil,
      fun _ _ _ _ => rfl⟩
  cases pagecacheGet_spec named filled (f := f.empty) (fun _ => rfl) offset a with
  | inl got =>
    obtain ⟨frame, got, answered⟩ := got
    have caches := congrArg Machine.cache same
    have named₁ : Named (m.pagecacheGet f offset a).2 := by
      unfold Named
      rw [← same]
      exact answered.owned.plain
    refine .inl ⟨frame, answer.symm.trans got, named₁, ?_, ?_⟩
    · obtain ⟨c, mem, at_⟩ := answered.mine
      exact ⟨c, caches ▸ mem, at_⟩
    · intro c mem at_
      obtain ⟨some_, holders, nodup, short, all⟩ := answered.spare c (caches ▸ mem) at_
      refine ⟨some_, holders, nodup, short, ?_⟩
      rw [← same]
      intro i page w at_
      obtain ⟨_, w', at_⟩ := Entry.plain_eq at_
      exact all i page w' at_
  | inr refused =>
    obtain ⟨none_, left⟩ := refused
    refine .inr ⟨answer.symm.trans none_, same.symm.trans ?_⟩
    cases left with
    | inl same => rw [same, plain_plain]
    | inr wrote =>
      obtain ⟨g, p, _, wrote⟩ := wrote
      rw [wrote]
      exact plain_plain m

theorem Lent.put (lent : Lent m frame) : Named (m.pagecachePut frame) := by
  show Owned (m.plain.setCache (recount frame (· - 1) m.plain.cache))
  exact Owned.recount lent.named fun c mem at_ => (lent.spare c mem at_).2

theorem Lent.mapped (lent : Lent m frame) (i page : Nat) (w : Bool) :
    Named (m.setEntry i page (.present frame w)) := by
  obtain ⟨c, mem, at_⟩ := lent.mine
  have out : m.plain.out frame = true := at_ ▸ (Owned.cached lent.named c mem).2.1
  unfold Named
  rw [plain_setEntry]
  refine Owned.setShared lent.named out (.inr ⟨c, mem, at_⟩) ?_
  intro d mem at_
  obtain ⟨some_, held⟩ := lent.spare d mem at_
  have mapped := held.map i page false
  rw [Nat.sub_add_cancel some_] at mapped
  exact mapped

theorem Lent.mapCached (lent : Lent m frame) (i page : Nat) (r : Region) (a : Around) :
    Named (m.mapCached i page r frame a).2 := by
  unfold Machine.mapCached
  split
  · exact lent.put
  unfold vmMap
  cases a.maps with
  | false => exact lent.put
  | true => exact lent.mapped i page (r.shared && r.writable)

theorem Named.giveOwnPage (named : Named m) (i page : Nat) (r : Region) (replacing : Option Nat)
    (a : Around) : Named (m.giveOwnPage i page r replacing a).2 := by
  cases giveOwnPage_spec m i page r a replacing with
  | inl none_ => exact named.congr none_.2.plain
  | inr gave =>
    obtain ⟨p, free, _, eq⟩ := gave
    rw [eq]
    exact named.gave free i page r.writable p

theorem Named.faultAbsent (named : Named m) (i page : Nat) (r : Region) (write : Bool) (a : Around) :
    Named (m.faultAbsent i page r write a).2 := by
  unfold Machine.faultAbsent
  split
  · rename_i f file
    have got := pagecacheGet_named named f ((r.fileOffset + (page - r.start)) % u64Size) a
    split
    · rename_i frame m₁ eq
      rw [eq] at got
      cases got with
      | inl lent =>
        obtain ⟨_, ⟨⟩, lent⟩ := lent
        exact lent.mapCached i page r a
      | inr none_ => cases none_.1
    · rename_i m₁ eq
      rw [eq] at got
      cases got with
      | inl lent =>
        obtain ⟨_, ⟨⟩, _⟩ := lent
      | inr none_ => exact (named.congr none_.2).giveOwnPage i page r none a
  · split
    · exact named.giveOwnPage i page r none a
    · unfold vmMap
      cases a.maps with
      | false => exact named
      | true =>
        show Owned (m.setEntry i page (.present m.zeroPage false)).plain
        rw [plain_setEntry]
        exact Owned.setZero named i page

theorem Named.faultPresent (named : Named m) (at_ : m.entry i page = .present frame w) (r : Region)
    (write : Bool) (a : Around) : Named (m.faultPresent i page r frame write a).2 := by
  unfold Machine.faultPresent
  dsimp only
  split
  swap
  · exact named
  cases giveOwnPage_spec m i page r a (some frame) with
  | inl none_ =>
    obtain ⟨refused, spent⟩ := none_
    split
    · rename_i m₁ eq
      rw [eq] at spent
      exact named.congr spent.plain
    · rename_i m₁ eq
      rw [eq] at refused
      cases refused
  | inr gave =>
    obtain ⟨p, free, _, eq⟩ := gave
    rw [eq]
    dsimp only
    have other : frame ≠ a.page := by
      rintro rfl
      exact (named.unnamed free).unmapped i page w at_
    have gave := named.gave free i page r.writable p
    split
    swap
    · exact gave
    show Owned ((m.gave i page a.page r.writable p).plain.setCache
      (recount frame (· - 1) (m.gave i page a.page r.writable p).plain.cache))
    refine Owned.recount gave ?_
    intro c mem same
    have held := (Owned.cached named c mem).2.2
    rw [same] at held
    have now (w' : Bool) : Entry.present a.page false ≠ .present frame w' := by
      intro same
      exact other (Entry.present.inj same).1.symm
    have unmapped := held.unmap (plain_present at_) ⟨now true, now false⟩
    refine unmapped.mono (Nat.le_refl _) ?_
    intro i' page' w' at'
    unfold Machine.gave at at'
    rw [plain_setEntry] at at'
    exact at'

theorem Named.vmFaultUser (named : Named m) (i addr : Nat) (write : Bool) (a : Around) :
    Named (m.vmFaultUser i addr write a).2 := by
  unfold Machine.vmFaultUser
  split
  · exact named
  rename_i r region
  split
  · exact named.faultAbsent i _ r write a
  · rename_i slot at_
    cases evictFaultIn_spec (m := m) (a := a) i (pageOf addr) slot r.writable with
    | inl spent => exact named.congr spent.plain
    | inr gave =>
      obtain ⟨free, eq⟩ := gave
      rw [eq]
      exact (named.gave free i _ r.writable _).congr (plain_swapFree ..)
  · rename_i frame w at_
    exact named.faultPresent at_ r write a

/-! ## Promises and writes -/

theorem plain_addRegion (m : Machine) (i : Nat) (r : Region) : (m.addRegion i r).plain = m.plain := by
  unfold Machine.addRegion
  dsimp only
  split
  · rfl
  · exact plain_setRegions ..

theorem plain_reserve (m : Machine) (i va size flags : Nat) :
    (m.reserve i va size flags).plain = m.plain := by
  unfold Machine.reserve
  split
  · rfl
  · exact plain_addRegion ..

theorem plain_reserveMore (m : Machine) (i va size flags : Nat) :
    (m.reserveMore i va size flags).plain = m.plain := by
  unfold Machine.reserveMore
  dsimp only
  split
  · rfl
  split
  · exact plain_setRegions ..
  · exact plain_reserve ..

theorem plain_mapFile (m : Machine) (i va size flags : Nat) (f : File) (offset len : Nat) :
    (m.mapFile i va size flags f offset len).plain = m.plain := by
  unfold Machine.mapFile
  split
  · rfl
  · exact plain_addRegion ..

theorem plain_write (m : Machine) (i addr byte : Nat) : (m.write i addr byte).plain = m.plain := by
  unfold Machine.write
  split <;> rfl

end ReconOS.Addrspace
