import ReconOS.Addrspace.Named
import ReconOS.Lib.Run

/-! Which pages eviction gives back, where regions of files, private and shared, are among those
it walks. -/
namespace ReconOS.Addrspace

open Machine

variable {m m' : Machine} {i i' page page' frame slot addr va : Nat} {w write : Bool}
  {f : File} {a : Around} {r : Region} {c : Cold}

/-! ## Shared mappings -/

/-- The regions with the first that starts at `va` made shared. -/
def markShared (va : Nat) : List Region → List Region
  | [] => []
  | r :: rest => if r.start = va then { r with shared := true } :: rest else r :: markShared va rest

/-- `addrspace_map_file_shared`. -/
def Machine.mapFileShared (m : Machine) (i va size flags : Nat) (f : File) (offset len : Nat) :
    Machine :=
  if f.writeAt = false ∨ size = 0 ∨ asRegionsMax ≤ (m.spaces i).regions.length then m
  else
    let m := m.mapFile i va size flags f offset len
    m.setRegions i (markShared va (m.spaces i).regions)

/-- What happens to the spaces, shared mappings of files among it. -/
inductive Event where
  | move (move : Move)
  | mapFileShared (i va size flags : Nat) (f : File) (offset len : Nat)

def Machine.happen (m : Machine) : Event → Machine
  | .move move => m.step move
  | .mapFileShared i va size flags f offset len => m.mapFileShared i va size flags f offset len

/-! ## The turns of a call -/

/-- The states before the turns of the loop in `evict_pages`, and the page each looks at. -/
def turns (i : Nat) (cold : Nat → Cold) : List Nat → Nat → Machine → List (Machine × Nat)
  | [], _, _ => []
  | _, 0, _ => []
  | va :: rest, want + 1, m =>
    (m, va) ::
      match m.evictPage i va (cold va) with
      | (.left, m) => turns i cold rest (want + 1) m
      | (.freed, m) => turns i cold rest want m
      | (.stopped, _) => []

/-- The turns of a call of `evict_pages`. -/
def Machine.evictTurns (m : Machine) (i want : Nat) (cold : Nat → Cold) : List (Machine × Nat) :=
  if want = 0 ∨ m.swap.slots = 0 then [] else turns i cold (m.regionPages i) want m

/-- What `vm_lookup` finds. -/
def Entry.lookup : Entry → Option Nat
  | .present frame _ => some frame
  | .absent | .swapped _ => none

/-- A turn that gives the page `frame` back: what eviction asks of it holds, the store takes its
contents, and the entry can be replaced. -/
structure Machine.Evicts (m : Machine) (i va : Nat) (c : Cold) (frame : Nat) : Prop where
  there : (m.entry i va).lookup = some frame
  unzero : frame ≠ m.zeroPage
  untouched : c.touched = false
  stored : m.freeSlot ≠ none ∧ m.freeSlot ≠ some 0
  writes : c.writes = true
  replaces : c.replaces = true

instance (m : Machine) (i va : Nat) (c : Cold) (frame : Nat) : Decidable (m.Evicts i va c frame) :=
  decidable_of_iff ((m.entry i va).lookup = some frame ∧ frame ≠ m.zeroPage ∧ c.touched = false ∧
      (m.freeSlot ≠ none ∧ m.freeSlot ≠ some 0) ∧ c.writes = true ∧ c.replaces = true)
    ⟨fun all => ⟨all.1, all.2.1, all.2.2.1, all.2.2.2.1, all.2.2.2.2.1, all.2.2.2.2.2⟩,
      fun evicts => ⟨evicts.1, evicts.2, evicts.3, evicts.4, evicts.5, evicts.6⟩⟩

/-- The page a turn gives back, if it gives one, is not the page cache's. -/
def Machine.SparesAt (m : Machine) (i va : Nat) (c : Cold) : Prop :=
  ∀ frame, m.Evicts i va c frame → m.cacheOwns frame = false

instance (m : Machine) (i va : Nat) (c : Cold) : Decidable (m.SparesAt i va c) :=
  decidable_of_iff
    (∀ frame ∈ (m.entry i va).lookup, m.Evicts i va c frame → m.cacheOwns frame = false)
    ⟨fun all frame evicts => all frame evicts.there evicts, fun all frame _ => all frame⟩

/-- No page that an eviction gives back is one the page cache owns. -/
def Spares (m : Machine) : Event → Prop
  | .move (.evict i want cold) =>
    ∀ turn ∈ m.evictTurns i want cold, turn.1.SparesAt i turn.2 (cold turn.2)
  | .move (.reserve ..) | .move (.reserveMore ..) | .move (.mapFile ..) | .move (.fault ..)
  | .move (.write ..) | .mapFileShared .. => True

instance (m : Machine) (event : Event) : Decidable (Spares m event) :=
  match event with
  | .move (.evict i want cold) =>
    inferInstanceAs (Decidable (∀ turn ∈ m.evictTurns i want cold,
      turn.1.SparesAt i turn.2 (cold turn.2)))
  | .move (.reserve ..) | .move (.reserveMore ..) | .move (.mapFile ..) | .move (.fault ..)
  | .move (.write ..) | .mapFileShared .. => inferInstanceAs (Decidable True)

/-! ## Eviction -/

theorem plain_mapFileShared (m : Machine) (i va size flags : Nat) (f : File) (offset len : Nat) :
    (m.mapFileShared i va size flags f offset len).plain = m.plain := by
  unfold Machine.mapFileShared
  split
  · rfl
  · exact (plain_setRegions ..).trans (plain_mapFile ..)

theorem swapWritePage_plain (m : Machine) (p : Page) (writes : Bool) (torn : Page) :
    (m.swapWritePage p writes torn).2.plain = m.plain := by
  unfold Machine.swapWritePage
  split
  · rfl
  · split <;> rfl

theorem Machine.Evicts.present (evicts : m.Evicts i va c frame) :
    ∃ w, m.entry i va = .present frame w := by
  have there := evicts.there
  unfold Entry.lookup at there
  split at there
  · rename_i w at_
    cases there
    exact ⟨w, at_⟩
  · cases there
  · cases there

theorem Machine.Evicts.same (evicts : m.Evicts i va c frame) (at_ : m.entry i va = .present slot w) :
    frame = slot := by
  obtain ⟨_, there⟩ := evicts.present
  exact (Entry.present.inj (there.symm.trans at_)).1

/-- A turn of the loop gives back the page it evicts, or gives nothing back. -/
theorem evictPage_spec (m : Machine) (i va : Nat) (c : Cold) :
    (∃ (frame slot : Nat) (m₁ : Machine), m.Evicts i va c frame ∧ m₁.plain = m.plain ∧
      m.evictPage i va c = (.freed, (m₁.setEntry i va (.swapped slot)).freePage frame)) ∨
    (m.evictPage i va c).1 ≠ .freed ∧ (m.evictPage i va c).2.plain = m.plain ∧
      ∀ frame, ¬m.Evicts i va c frame := by
  cases at_ : m.entry i va with
  | absent =>
    refine .inr ?_
    unfold evictPage
    rw [at_]
    refine ⟨Evicted.noConfusion, rfl, fun frame evicts => ?_⟩
    obtain ⟨_, there⟩ := evicts.present
    cases at_.symm.trans there
  | swapped slot =>
    refine .inr ?_
    unfold evictPage
    rw [at_]
    refine ⟨Evicted.noConfusion, rfl, fun frame evicts => ?_⟩
    obtain ⟨_, there⟩ := evicts.present
    cases at_.symm.trans there
  | present frame w =>
    unfold evictPage
    rw [at_]
    dsimp only
    by_cases passed : frame = m.zeroPage ∨ c.touched = true
    · rw [if_pos passed]
      refine .inr ⟨Evicted.noConfusion, rfl, fun frame' evicts => ?_⟩
      cases evicts.same at_
      cases passed with
      | inl zero => exact evicts.unzero zero
      | inr hot => cases hot.symm.trans evicts.untouched
    rw [if_neg passed]
    rw [not_or, Bool.not_eq_true] at passed
    have kept := swapWritePage_plain m (m.bytes frame) c.writes c.torn
    have stored : (m.swapWritePage (m.bytes frame) c.writes c.torn).1 =
        if c.writes = true then m.freeSlot else none := by
      unfold Machine.swapWritePage
      cases m.freeSlot with
      | none => exact (ite_self _).symm
      | some slot => cases c.writes <;> rfl
    generalize m.swapWritePage (m.bytes frame) c.writes c.torn = store at kept stored
    obtain ⟨answer, m₁⟩ := store
    dsimp only at kept stored
    cases answer with
    | none =>
      refine .inr ⟨Evicted.noConfusion, kept, fun frame' evicts => ?_⟩
      rw [if_pos evicts.writes] at stored
      exact evicts.stored.1 stored.symm
    | some slot =>
      have writes : c.writes = true := by
        by_contra torn
        rw [if_neg torn] at stored
        cases stored
      rw [if_pos writes] at stored
      dsimp only
      by_cases back : slot = 0 ∨ c.replaces = false
      · rw [if_pos back]
        refine .inr ⟨Evicted.noConfusion, (plain_swapFree ..).trans kept, fun frame' evicts => ?_⟩
        cases back with
        | inl zero => exact evicts.stored.2 (zero ▸ stored.symm)
        | inr kept => cases kept.symm.trans evicts.replaces
      · rw [if_neg back]
        rw [not_or, Bool.not_eq_false] at back
        refine .inl ⟨frame, slot, m₁, ?_, kept, rfl⟩
        constructor
        case there =>
          rw [at_]
          rfl
        case unzero => exact passed.1
        case untouched => exact passed.2
        case stored =>
          rw [← stored]
          exact ⟨Option.some_ne_none slot, fun zero => back.1 (Option.some.inj zero)⟩
        case writes => exact writes
        case replaces => exact back.2

theorem Machine.Alone.congr (same : m'.plain = m.plain) (alone : m.Alone i va frame) :
    m'.Alone i va frame := by
  have zeroPage : m'.plain.zeroPage = m.plain.zeroPage := congrArg Machine.zeroPage same
  have cache : m'.plain.cache = m.plain.cache := congrArg Machine.cache same
  change m'.zeroPage = m.zeroPage at zeroPage
  change m'.cache = m.cache at cache
  refine ⟨zeroPage ▸ alone.unzero, ?_, ?_⟩
  · unfold Machine.cacheOwns
    rw [cache]
    exact alone.uncached
  · intro i' page w at_
    have there := plain_present at_
    rw [same] at there
    obtain ⟨_, w', there⟩ := Entry.plain_eq there
    exact alone.only i' page w' there

/-- A call keeps what it is to keep where every page it gives back is one that the cache does not
own, and those pages are nobody else's. -/
theorem turns_named (cold : Nat → Cold) {vas : List Nat} {want : Nat} (named : Named m)
    (spares : ∀ turn ∈ turns i cold vas want m, turn.1.SparesAt i turn.2 (cold turn.2)) :
    Named (evictLoop i cold vas want m) ∧ ∀ turn ∈ turns i cold vas want m, ∀ frame,
      turn.1.Evicts i turn.2 (cold turn.2) frame → turn.1.Alone i turn.2 frame := by
  induction vas generalizing m want with
  | nil => exact ⟨named, fun turn mem => absurd mem List.not_mem_nil⟩
  | cons va rest ih =>
    cases want with
    | zero => exact ⟨named, fun turn mem => absurd mem List.not_mem_nil⟩
    | succ want =>
      unfold turns at spares ⊢
      unfold evictLoop
      have here (frame : Nat) (evicts : m.Evicts i va (cold va) frame) : m.Alone i va frame := by
        obtain ⟨w, there⟩ := evicts.present
        exact named.alone there evicts.unzero (spares (m, va) (List.mem_cons_self ..) frame evicts)
      cases evictPage_spec m i va (cold va) with
      | inl freed =>
        obtain ⟨frame, slot, m₁, evicts, same, eq⟩ := freed
        rw [eq] at spares ⊢
        dsimp only at spares ⊢
        have next : Named ((m₁.setEntry i va (.swapped slot)).freePage frame) :=
          (named.congr same).gone ((here frame evicts).congr same) (.swapped slot) rfl
        obtain ⟨named', alone⟩ := ih next fun turn mem => spares turn (List.mem_cons_of_mem _ mem)
        refine ⟨named', fun turn mem => ?_⟩
        cases List.mem_cons.1 mem with
        | inl first => exact first ▸ here
        | inr later => exact alone turn later
      | inr none_ =>
        obtain ⟨notFreed, same, _⟩ := none_
        generalize m.evictPage i va (cold va) = left at notFreed same spares ⊢
        obtain ⟨answer, m₁⟩ := left
        cases answer with
        | freed => exact absurd rfl notFreed
        | left =>
          dsimp only at same spares ⊢
          obtain ⟨named', alone⟩ := ih (named.congr same) fun turn mem =>
            spares turn (List.mem_cons_of_mem _ mem)
          refine ⟨named', fun turn mem => ?_⟩
          cases List.mem_cons.1 mem with
          | inl first => exact first ▸ here
          | inr later => exact alone turn later
        | stopped =>
          dsimp only at same spares ⊢
          refine ⟨named.congr same, fun turn mem => ?_⟩
          cases List.mem_cons.1 mem with
          | inl first => exact first ▸ here
          | inr later => exact absurd later List.not_mem_nil

theorem evictPages_named (named : Named m) (i want : Nat) (cold : Nat → Cold)
    (spares : Spares m (.move (.evict i want cold))) :
    Named (m.evictPages i want cold) ∧ ∀ turn ∈ m.evictTurns i want cold, ∀ frame,
      turn.1.Evicts i turn.2 (cold turn.2) frame → turn.1.Alone i turn.2 frame := by
  change ∀ turn ∈ m.evictTurns i want cold, turn.1.SparesAt i turn.2 (cold turn.2) at spares
  unfold Machine.evictTurns at spares
  unfold Machine.evictPages Machine.evictTurns
  split
  · exact ⟨named, fun turn mem => absurd mem List.not_mem_nil⟩
  · rename_i some_
    rw [if_neg some_] at spares
    exact turns_named cold named spares

/-! ## Runs -/

theorem happen_named (m : Machine) (event : Event) (spares : Spares m event) (named : Named m) :
    Named (m.happen event) := by
  cases event with
  | mapFileShared i va size flags f offset len => exact named.congr (plain_mapFileShared ..)
  | move move =>
    cases move with
    | reserve i va size flags => exact named.congr (plain_reserve ..)
    | reserveMore i va size flags => exact named.congr (plain_reserveMore ..)
    | mapFile i va size flags f offset len => exact named.congr (plain_mapFile ..)
    | fault i addr write a => exact named.vmFaultUser i addr write a
    | write i addr byte => exact named.congr (plain_write ..)
    | evict i want cold => exact (evictPages_named named i want cold spares).1

theorem Machine.Booted.named (booted : m.Booted) : Named m := by
  have sound : Sound (fun _ _ => []) Region.Bare (.start m) := .start booted
  exact sound.owned.plain

/-- Whatever is reserved, mapped, shared, touched, written and evicted, where eviction gives back no
page that the cache owns: what is free is named by no tables and no cache entry; and a call gives
back pages that nothing else names exactly when it spares the cache's. -/
theorem eviction_frees_own (booted : m.Booted) (events : List Event)
    (spares : Lib.Allows Machine.happen Spares m events) :
    (∀ frame, (Lib.run Machine.happen m events).out frame = false →
      (Lib.run Machine.happen m events).Unnamed frame) ∧
    ∀ i want cold,
      (∀ turn ∈ (Lib.run Machine.happen m events).evictTurns i want cold, ∀ frame,
        turn.1.Evicts i turn.2 (cold turn.2) frame → turn.1.Alone i turn.2 frame) ↔
      Spares (Lib.run Machine.happen m events) (.move (.evict i want cold)) := by
  have named := Lib.run_keeps happen_named spares booted.named
  generalize Lib.run Machine.happen m events = now at named ⊢
  refine ⟨fun frame => named.unnamed, fun i want cold => ⟨?_, ?_⟩⟩
  · exact fun alone turn mem frame evicts => (alone turn mem frame evicts).uncached
  · exact fun spares => (evictPages_named named i want cold spares).2

/-- A page that nobody touched lately, with a store that takes it. -/
def Cold.cold : Cold := ⟨false, true, zeroes, true⟩

/-- A file that can be written back. -/
def kept : File := { tailed with identity := 6, writeAt := true }

/-- A page of memory written, a page of a file shared, and the first of the two evicted. -/
def sparing : List Event :=
  [.move (.reserve 0 0x1000 0x1000 7), .mapFileShared 0 0x4000 0x1000 7 kept 0 4,
    .move (.fault 0 0x1000 true .spare), .move (.write 0 0x1005 9),
    .move (.fault 0 0x4000 false ⟨3, 4, true, true, some none, true, true⟩),
    .move (.evict 0 1 fun _ => .cold)]

theorem eviction_frees_own_sparing :
    (Lib.run Machine.happen .blank sparing).out 2 = false ∧
      (Lib.run Machine.happen .blank sparing).Unnamed 2 :=
  ⟨by decide +kernel,
    (eviction_frees_own blank_booted sparing (by decide +kernel)).1 2 (by decide +kernel)⟩

/-- A page of a file that two spaces read, and one of them evicted from. -/
def evicting : List Event :=
  [.move (.mapFile 0 0x1000 0x1000 7 tailed 0 4), .move (.mapFile 1 0x1000 0x1000 7 tailed 0 4),
    .move (.fault 0 0x1000 false .caching), .move (.fault 1 0x1000 false .caching),
    .move (.evict 0 1 fun _ => .cold)]

/-- The page is free, and the cache and the other space still have it. -/
theorem eviction_frees_cached :
    ¬∀ (m : Machine) (events : List Event), m.Booted → ∀ frame,
      (Lib.run Machine.happen m events).out frame = false →
        (Lib.run Machine.happen m events).Unnamed frame := by
  intro all
  have unnamed := all .blank evicting blank_booted 2 (by decide +kernel)
  have there : (Lib.run Machine.happen .blank evicting).entry 1 0x1000 = .present 2 false := by
    decide +kernel
  exact unnamed.unmapped 1 0x1000 false there

end ReconOS.Addrspace
