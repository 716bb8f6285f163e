import ReconOS.Addrspace.Fault

/-! Which physical page is whose: the shared zeroes, a page of the cache, or one page of one space;
and which slot of the store. -/
namespace ReconOS.Addrspace

variable {m m' : Machine} {i i' page page' frame slot addr : Nat} {w w' : Bool} {e : Entry}

/-! ## What the updates change -/

namespace Machine

theorem entry_setEntry (m : Machine) (i page : Nat) (e : Entry) (i' page' : Nat) :
    (m.setEntry i page e).entry i' page' =
      if i' = i ∧ page' = page then e else m.entry i' page' := by
  by_cases at_ : i' = i
  · subst at_
    by_cases on : page' = page
    · subst on
      simp [entry, setEntry]
    · simp [entry, setEntry, on]
  · simp [entry, setEntry, at_]

@[simp] theorem entry_setEntry_self (m : Machine) (i page : Nat) (e : Entry) :
    (m.setEntry i page e).entry i page = e := by
  rw [entry_setEntry, if_pos ⟨rfl, rfl⟩]

theorem regions_setEntry (m : Machine) (i page : Nat) (e : Entry) (i' : Nat) :
    ((m.setEntry i page e).spaces i').regions = (m.spaces i').regions := by
  by_cases at_ : i' = i
  · subst at_
    simp [setEntry]
  · simp [setEntry, at_]

@[simp] theorem entry_setBytes (m : Machine) (frame : Nat) (p : Page) :
    (m.setBytes frame p).entry = m.entry := rfl

@[simp] theorem entry_setSwap (m : Machine) (swap : Swap) : (m.setSwap swap).entry = m.entry := rfl

@[simp] theorem entry_freePage (m : Machine) (frame : Nat) : (m.freePage frame).entry = m.entry := rfl

/-- The machine with a page more out of the allocator. -/
def taken (m : Machine) (frame : Nat) : Machine :=
  { m with out := Function.update m.out frame true }

theorem allocPage_eq (given : m.allocPage frame = some m') : m.out frame = false ∧ m' = m.taken frame := by
  unfold allocPage at given
  split at given
  · cases given
  · rename_i can
    rw [not_or] at can
    exact ⟨by simpa using can.2, (Option.some.inj given).symm⟩

/-- A page taken, filled and given back is a page that was free, with something in it. -/
theorem freePage_taken (loose : m.out frame = false) (p : Page) :
    ((m.taken frame).setBytes frame p).freePage frame = m.setBytes frame p := by
  have same : Function.update (Function.update m.out frame true) frame false = m.out := by
    rw [Function.update_idem, ← loose, Function.update_eq_self]
  unfold freePage taken setBytes
  dsimp only
  rw [same]

end Machine

open Machine

/-! ## Ownership -/

/-- A page that no entry of the cache has. -/
def Uncached (m : Machine) (frame : Nat) : Prop := ∀ c ∈ m.cache, c.frame ≠ frame

theorem cacheOwns_eq_false : m.cacheOwns frame = false ↔ Uncached m frame := by
  unfold cacheOwns Uncached
  rw [List.any_eq_false]
  simp

/-- The tables have a page in no more places than it has references. -/
def Held (m : Machine) (frame refs : Nat) : Prop :=
  ∃ holders : List (Nat × Nat), holders.Nodup ∧ holders.length ≤ refs ∧
    ∀ i page w, m.entry i page = .present frame w → (i, page) ∈ holders

theorem Held.mono {refs refs' : Nat} (held : Held m frame refs) (more : refs ≤ refs')
    (less : ∀ i page w, m'.entry i page = .present frame w → m.entry i page = .present frame w) :
    Held m' frame refs' := by
  obtain ⟨holders, nodup, short, all⟩ := held
  exact ⟨holders, nodup, Nat.le_trans short more, fun i page w at_ => all i page w (less i page w at_)⟩

theorem Held.of_none (none_ : ∀ i page w, m.entry i page ≠ .present frame w) (refs : Nat) :
    Held m frame refs :=
  ⟨[], List.nodup_nil, Nat.zero_le refs, fun i page w at_ => absurd at_ (none_ i page w)⟩

/-- One reference to spare is one more place. -/
theorem Held.map {refs : Nat} (held : Held m frame refs) (i page : Nat) (w : Bool) :
    Held (m.setEntry i page (.present frame w)) frame (refs + 1) := by
  obtain ⟨holders, nodup, short, all⟩ := held
  by_cases mem : (i, page) ∈ holders
  · refine ⟨holders, nodup, Nat.le_succ_of_le short, ?_⟩
    intro i' page' w' at_
    rw [entry_setEntry] at at_
    split at at_
    · rename_i same
      exact same.1 ▸ same.2 ▸ mem
    · exact all i' page' w' at_
  · refine ⟨(i, page) :: holders, List.nodup_cons.2 ⟨mem, nodup⟩, Nat.succ_le_succ short, ?_⟩
    intro i' page' w' at_
    rw [entry_setEntry] at at_
    split at at_
    · rename_i same
      exact same.1 ▸ same.2 ▸ List.mem_cons_self ..
    · exact List.mem_cons_of_mem _ (all i' page' w' at_)

/-- A place that has another page now had one of the references. -/
theorem Held.unmap {refs : Nat} (held : Held m frame refs) (was : m.entry i page = .present frame w)
    (now : e ≠ .present frame true ∧ e ≠ .present frame false) :
    Held (m.setEntry i page e) frame (refs - 1) := by
  obtain ⟨holders, nodup, short, all⟩ := held
  have mem := all i page w was
  refine ⟨holders.erase (i, page), nodup.erase _, ?_, ?_⟩
  · rw [List.length_erase_of_mem mem]
    exact Nat.sub_le_sub_right short 1
  · intro i' page' w' at_
    rw [entry_setEntry] at at_
    split at at_
    · cases w' with
      | true => exact absurd at_ now.1
      | false => exact absurd at_ now.2
    · rename_i other
      refine (List.Nodup.mem_erase_iff nodup).2 ⟨?_, all i' page' w' at_⟩
      intro same
      exact other ⟨congrArg Prod.fst same, congrArg Prod.snd same⟩

theorem Held.none_of_zero (held : Held m frame 0) (i page : Nat) (w : Bool) :
    m.entry i page ≠ .present frame w := by
  obtain ⟨holders, _, short, all⟩ := held
  intro at_
  have mem := all i page w at_
  rw [List.length_eq_zero_iff.1 (Nat.le_zero.1 short)] at mem
  cases mem

/-- Every page in the tables is out of the allocator; one that may be written is in no other place,
and is neither the shared zeroes nor the cache's. Every slot in the tables is in one place. -/
structure Owned (m : Machine) : Prop where
  zero : m.out m.zeroPage = true
  zeroes : ∀ j, m.bytes m.zeroPage j = 0
  out : ∀ i page frame w, m.entry i page = .present frame w → m.out frame = true
  lent : ∀ i page frame, m.entry i page = .present frame true →
    frame ≠ m.zeroPage ∧ Uncached m frame
  sole : ∀ i page frame w i' page' w', m.entry i page = .present frame w →
    m.entry i' page' = .present frame w' → frame ≠ m.zeroPage → Uncached m frame →
    i' = i ∧ page' = page
  cached : ∀ c ∈ m.cache, c.frame ≠ m.zeroPage ∧ m.out c.frame = true ∧ Held m c.frame c.refs
  distinct : (m.cache.map Cached.frame).Nodup
  slot : ∀ i page slot, m.entry i page = .swapped slot →
    slot ≠ 0 ∧ slot < m.swap.slots ∧ m.swap.inUse slot = true
  slotSole : ∀ i page i' page' slot, m.entry i page = .swapped slot →
    m.entry i' page' = .swapped slot → i' = i ∧ page' = page
  slotZero : m.swap.inUse 0 = true

namespace Owned

variable (owned : Owned m)

include owned

/-- A page that is not out is in nobody's tables. -/
theorem loose (free : m.out frame = false) :
    frame ≠ m.zeroPage ∧ Uncached m frame ∧ ∀ i page w, m.entry i page ≠ .present frame w := by
  refine ⟨?_, ?_, ?_⟩
  · rintro rfl
    rw [owned.zero] at free
    cases free
  · rintro c mem rfl
    rw [(owned.cached c mem).2.1] at free
    cases free
  · intro i page w at_
    rw [owned.out i page frame w at_] at free
    cases free

theorem setBytes (notZero : frame ≠ m.zeroPage) (p : Page) : Owned (m.setBytes frame p) where
  zero := owned.zero
  zeroes j := by
    show Function.update m.bytes frame p m.zeroPage j = 0
    rw [Function.update_of_ne notZero.symm]
    exact owned.zeroes j
  out := owned.out
  lent := owned.lent
  sole := owned.sole
  cached := owned.cached
  distinct := owned.distinct
  slot := owned.slot
  slotSole := owned.slotSole
  slotZero := owned.slotZero

/-- A page given out, and not yet anywhere. -/
theorem taken (frame : Nat) : Owned (m.taken frame) := by
  have outs (f : Nat) (was : m.out f = true) : Function.update m.out frame true f = true := by
    by_cases same : f = frame
    · subst same
      exact Function.update_self ..
    · rw [Function.update_of_ne same]
      exact was
  constructor
  case zero => exact outs _ owned.zero
  case zeroes => exact owned.zeroes
  case out => exact fun i page f w at_ => outs f (owned.out i page f w at_)
  case lent => exact owned.lent
  case sole => exact owned.sole
  case cached =>
    intro c mem
    obtain ⟨notZero, out, held⟩ := owned.cached c mem
    exact ⟨notZero, outs _ out, held⟩
  case distinct => exact owned.distinct
  case slot => exact owned.slot
  case slotSole => exact owned.slotSole
  case slotZero => exact owned.slotZero

/-- A page given back, that is in no place and that the cache does not have. -/
theorem freePage (notZero : frame ≠ m.zeroPage) (uncached : Uncached m frame)
    (nowhere : ∀ i page w, m.entry i page ≠ .present frame w) : Owned (m.freePage frame) := by
  have outs (f : Nat) (other : f ≠ frame) (was : m.out f = true) :
      Function.update m.out frame false f = true := by
    rw [Function.update_of_ne other]
    exact was
  constructor
  case zero => exact outs _ notZero.symm owned.zero
  case zeroes => exact owned.zeroes
  case out =>
    intro i page f w at_
    refine outs f ?_ (owned.out i page f w at_)
    rintro rfl
    exact nowhere i page w at_
  case lent => exact owned.lent
  case sole => exact owned.sole
  case cached =>
    intro c mem
    obtain ⟨notZero', out, held⟩ := owned.cached c mem
    exact ⟨notZero', outs _ (uncached c mem) out, held⟩
  case distinct => exact owned.distinct
  case slot => exact owned.slot
  case slotSole => exact owned.slotSole
  case slotZero => exact owned.slotZero

/-- A page of its own for one place, in place of what was there. -/
theorem setOwn (out : m.out frame = true) (notZero : frame ≠ m.zeroPage)
    (uncached : Uncached m frame) (nowhere : ∀ i page w, m.entry i page ≠ .present frame w)
    (i page : Nat) (w : Bool) : Owned (m.setEntry i page (.present frame w)) := by
  have old (i' page' f : Nat) (w' : Bool)
      (at_ : (m.setEntry i page (.present frame w)).entry i' page' = .present f w') :
      (i' = i ∧ page' = page ∧ f = frame ∧ w' = w) ∨ m.entry i' page' = .present f w' ∧ f ≠ frame := by
    rw [entry_setEntry] at at_
    split at at_
    · rename_i same
      cases at_
      exact .inl ⟨same.1, same.2, rfl, rfl⟩
    · refine .inr ⟨at_, ?_⟩
      rintro rfl
      exact nowhere i' page' w' at_
  have slots (i' page' s : Nat)
      (at_ : (m.setEntry i page (.present frame w)).entry i' page' = .swapped s) :
      m.entry i' page' = .swapped s := by
    rw [entry_setEntry] at at_
    split at at_
    · cases at_
    · exact at_
  constructor
  case zero => exact owned.zero
  case zeroes => exact owned.zeroes
  case out =>
    intro i' page' f w' at_
    cases old i' page' f w' at_ with
    | inl new =>
      rw [new.2.2.1]
      exact out
    | inr was => exact owned.out i' page' f w' was.1
  case lent =>
    intro i' page' f at_
    cases old i' page' f true at_ with
    | inl new =>
      rw [new.2.2.1]
      exact ⟨notZero, uncached⟩
    | inr was => exact owned.lent i' page' f was.1
  case sole =>
    intro i₁ page₁ f w₁ i₂ page₂ w₂ at₁ at₂ notZero' uncached'
    cases old i₁ page₁ f w₁ at₁ with
    | inl new =>
      cases old i₂ page₂ f w₂ at₂ with
      | inl new' => exact ⟨new'.1.trans new.1.symm, new'.2.1.trans new.2.1.symm⟩
      | inr was => exact absurd new.2.2.1 was.2
    | inr was =>
      cases old i₂ page₂ f w₂ at₂ with
      | inl new => exact absurd new.2.2.1 was.2
      | inr was' => exact owned.sole i₁ page₁ f w₁ i₂ page₂ w₂ was.1 was'.1 notZero' uncached'
  case cached =>
    intro c mem
    obtain ⟨notZero', out', held⟩ := owned.cached c mem
    refine ⟨notZero', out', held.mono (Nat.le_refl _) ?_⟩
    intro i' page' w' at_
    cases old i' page' _ w' at_ with
    | inl new => exact absurd new.2.2.1 (uncached c mem)
    | inr was => exact was.1
  case distinct => exact owned.distinct
  case slot => exact fun i' page' s at_ => owned.slot i' page' s (slots i' page' s at_)
  case slotSole =>
    exact fun i₁ page₁ i₂ page₂ s at₁ at₂ =>
      owned.slotSole i₁ page₁ i₂ page₂ s (slots _ _ _ at₁) (slots _ _ _ at₂)
  case slotZero => exact owned.slotZero

/-- A page that others may have too, for a place that had none. -/
theorem setShared (out : m.out frame = true)
    (lent : frame = m.zeroPage ∨ ∃ c ∈ m.cache, c.frame = frame)
    (held : ∀ c ∈ m.cache, c.frame = frame →
      Held (m.setEntry i page (.present frame false)) frame c.refs) :
    Owned (m.setEntry i page (.present frame false)) := by
  have old (i' page' f : Nat) (w : Bool)
      (at_ : (m.setEntry i page (.present frame false)).entry i' page' = .present f w) :
      (f = frame ∧ w = false) ∨ m.entry i' page' = .present f w := by
    rw [entry_setEntry] at at_
    split at at_
    · cases at_
      exact .inl ⟨rfl, rfl⟩
    · exact .inr at_
  have slots (i' page' s : Nat)
      (at_ : (m.setEntry i page (.present frame false)).entry i' page' = .swapped s) :
      m.entry i' page' = .swapped s := by
    rw [entry_setEntry] at at_
    split at at_
    · cases at_
    · exact at_
  have taken (notZero : frame ≠ m.zeroPage) : ¬Uncached m frame := by
    intro uncached
    cases lent with
    | inl zero => exact notZero zero
    | inr mem =>
      obtain ⟨c, mem, same⟩ := mem
      exact uncached c mem same
  constructor
  case zero => exact owned.zero
  case zeroes => exact owned.zeroes
  case out =>
    intro i' page' f w at_
    cases old i' page' f w at_ with
    | inl new =>
      rw [new.1]
      exact out
    | inr was => exact owned.out i' page' f w was
  case lent =>
    intro i' page' f at_
    cases old i' page' f true at_ with
    | inl new => cases new.2
    | inr was => exact owned.lent i' page' f was
  case sole =>
    intro i₁ page₁ f w₁ i₂ page₂ w₂ at₁ at₂ notZero uncached
    cases old i₁ page₁ f w₁ at₁ with
    | inl new => exact absurd (new.1 ▸ uncached) (taken (new.1 ▸ notZero))
    | inr was =>
      cases old i₂ page₂ f w₂ at₂ with
      | inl new => exact absurd (new.1 ▸ uncached) (taken (new.1 ▸ notZero))
      | inr was' => exact owned.sole i₁ page₁ f w₁ i₂ page₂ w₂ was was' notZero uncached
  case cached =>
    intro c mem
    obtain ⟨notZero, outs, refs⟩ := owned.cached c mem
    refine ⟨notZero, outs, ?_⟩
    by_cases same : c.frame = frame
    · rw [same]
      exact held c mem same
    · refine refs.mono (Nat.le_refl _) ?_
      intro i' page' w at_
      cases old i' page' _ w at_ with
      | inl new => exact absurd new.1 same
      | inr was => exact was
  case distinct => exact owned.distinct
  case slot => exact fun i' page' s at_ => owned.slot i' page' s (slots i' page' s at_)
  case slotSole =>
    exact fun i₁ page₁ i₂ page₂ s at₁ at₂ =>
      owned.slotSole i₁ page₁ i₂ page₂ s (slots _ _ _ at₁) (slots _ _ _ at₂)
  case slotZero => exact owned.slotZero

theorem setZero (i page : Nat) : Owned (m.setEntry i page (.present m.zeroPage false)) :=
  owned.setShared owned.zero (.inl rfl) fun c mem same => absurd same (owned.cached c mem).1

/-- Another cache, of pages that were the cache's or are in no place. -/
theorem setCache {cache : List Cached} (distinct : (cache.map Cached.frame).Nodup)
    (cached : ∀ c ∈ cache, c.frame ≠ m.zeroPage ∧ m.out c.frame = true ∧ Held m c.frame c.refs)
    (new : ∀ c ∈ cache, ¬Uncached m c.frame ∨ ∀ i page w, m.entry i page ≠ .present c.frame w)
    (gone : ∀ d ∈ m.cache, (∃ c ∈ cache, c.frame = d.frame) ∨
      ∀ i page w, m.entry i page ≠ .present d.frame w) : Owned (m.setCache cache) := by
  constructor
  case zero => exact owned.zero
  case zeroes => exact owned.zeroes
  case out => exact owned.out
  case lent =>
    intro i page f at_
    obtain ⟨notZero, uncached⟩ := owned.lent i page f at_
    refine ⟨notZero, ?_⟩
    rintro c mem rfl
    cases new c mem with
    | inl old => exact old uncached
    | inr nowhere => exact nowhere i page true at_
  case sole =>
    intro i page f w i' page' w' at₁ at₂ notZero uncached
    refine owned.sole i page f w i' page' w' at₁ at₂ notZero ?_
    rintro d mem rfl
    cases gone d mem with
    | inl still =>
      obtain ⟨c, mem', same⟩ := still
      exact uncached c mem' same
    | inr nowhere => exact nowhere i page w at₁
  case cached => exact cached
  case distinct => exact distinct
  case slot => exact owned.slot
  case slotSole => exact owned.slotSole
  case slotZero => exact owned.slotZero

end Owned

theorem recount_frames (frame : Nat) (count : Nat → Nat) (cache : List Cached) :
    (recount frame count cache).map Cached.frame = cache.map Cached.frame := by
  unfold recount
  rw [List.map_map]
  refine List.map_congr_left fun c _ => ?_
  show (if c.frame = frame then _ else c).frame = c.frame
  split <;> rfl

theorem mem_recount {count : Nat → Nat} {cache : List Cached} {c : Cached}
    (mem : c ∈ recount frame count cache) :
    ∃ d ∈ cache, c.frame = d.frame ∧ c.fs = d.fs ∧ c.identity = d.identity ∧
      c.offset = d.offset ∧ (c.frame = frame → c.refs = count d.refs) ∧
      (c.frame ≠ frame → c.refs = d.refs) := by
  obtain ⟨d, mem', rfl⟩ := List.mem_map.1 mem
  refine ⟨d, mem', ?_⟩
  split
  · rename_i same
    exact ⟨rfl, rfl, rfl, rfl, fun _ => rfl, fun other => absurd same other⟩
  · rename_i other
    exact ⟨rfl, rfl, rfl, rfl, fun same => absurd same other, fun _ => rfl⟩

namespace Owned

variable (owned : Owned m)

include owned

/-- Other counts of references, that are still enough. -/
theorem recount {count : Nat → Nat}
    (held : ∀ c ∈ m.cache, c.frame = frame → Held m frame (count c.refs)) :
    Owned (m.setCache (recount frame count m.cache)) := by
  refine owned.setCache ?_ ?_ ?_ ?_
  · rw [recount_frames]
    exact owned.distinct
  · intro c mem
    obtain ⟨d, mem', same, _, _, _, at_, other⟩ := mem_recount mem
    obtain ⟨notZero, out, held'⟩ := owned.cached d mem'
    rw [same]
    refine ⟨notZero, out, ?_⟩
    by_cases here : c.frame = frame
    · rw [at_ here, ← same, here]
      exact held d mem' (same ▸ here)
    · rw [other here]
      exact held'
  · intro c mem
    obtain ⟨d, mem', same, _⟩ := mem_recount mem
    exact .inl fun uncached => uncached d mem' same.symm
  · intro d mem
    have := List.mem_map_of_mem (f := Cached.frame) mem
    rw [← recount_frames frame count m.cache] at this
    exact .inl (List.mem_map.1 this)

end Owned

end ReconOS.Addrspace
