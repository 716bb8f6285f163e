import ReconOS.Addrspace.Evict

/-! Pages coming back from the store while other threads fault, evict and write: `evict_fault_in` in
the two parts that the eviction lock makes of it. -/
namespace ReconOS.Addrspace

open Machine

variable {m m' m₁ : Machine} {i i' page page' frame slot addr va t : Nat} {w write : Bool}
  {a : Around} {r : Region} {c : Cold}

/-! ## The two parts -/

/-- A thread that has read the slot and has a page, and is about to take the lock. -/
structure Faulting where
  i : Nat
  page : Nat
  slot : Nat
  frame : Nat
  write : Bool
  deriving DecidableEq

/-- What `evict_fault_in` does with the lock held, and after: whether the page is back. -/
def Machine.finishFault (m : Machine) (f : Faulting) (reads maps : Bool) : Bool × Machine :=
  match m.swapReadPage f.slot reads with
  | none => (false, m.freePage f.frame)
  | some p =>
    match (m.setBytes f.frame p).vmMap f.i f.page f.frame f.write maps with
    | none => (false, (m.setBytes f.frame p).freePage f.frame)
    | some m => (true, m.swapFree f.slot)

/-- What `vm_fault_user` and `evict_fault_in` do before the lock, where the tables have a slot. -/
def Machine.enterFault (m : Machine) (i addr offered : Nat) : Option (Faulting × Machine) :=
  match m.regionFor i addr, m.entry i (pageOf addr) with
  | some r, .swapped slot =>
    if slot = 0 then none
    else (m.allocPage offered).map (Prod.mk ⟨i, pageOf addr, slot, offered, r.writable⟩)
  | _, _ => none

/-- What `vm_swap_slot` finds: 0 is none. -/
def Entry.swapSlot : Entry → Nat
  | .swapped slot => slot
  | .absent | .present .. => 0

/-- Where a thread is: its access has trapped, it has begun to bring the page back, or its program
was ended for a fault that was not served. -/
inductive Phase where
  | running
  | trapped (i addr : Nat)
  | faulting (f : Faulting)
  | killed
  deriving DecidableEq

/-- The phase after a fault. -/
def Phase.after (served : Bool) : Phase := if served then .running else .killed

/-- The machine, its threads, and beside them what every page held when it was last put in the
store. -/
structure Racing where
  machine : Machine
  threads : Nat → Phase
  saved : Nat → Nat → Page

/-- A thread's access to a page in the store traps; the handler begins; it goes on under the lock;
or anything else happens. -/
inductive Section where
  | trap (t i addr : Nat)
  | enter (t : Nat) (write : Bool) (a : Around)
  | finish (t : Nat) (reads maps : Bool)
  | event (event : Event)

/-- The event is a fault on a page that is in the store, which takes its parts. -/
def Machine.Returns (m : Machine) : Event → Prop
  | .move (.fault i addr _ _) => (m.entry i (pageOf addr)).swapSlot ≠ 0
  | .move (.reserve ..) | .move (.reserveMore ..) | .move (.mapFile ..) | .move (.write ..)
  | .move (.evict ..) | .mapFileShared .. => False

instance (m : Machine) (event : Event) : Decidable (m.Returns event) :=
  match event with
  | .move (.fault i addr _ _) =>
    inferInstanceAs (Decidable ((m.entry i (pageOf addr)).swapSlot ≠ 0))
  | .move (.reserve ..) | .move (.reserveMore ..) | .move (.mapFile ..) | .move (.write ..)
  | .move (.evict ..) | .mapFileShared .. => inferInstanceAs (Decidable False)

/-- What the pages held that an event has put in the store. -/
def savedAfter (saved : Nat → Nat → Page) (m m' : Machine) (i page : Nat) : Page :=
  match m.entry i page, m'.entry i page with
  | .present frame _, .swapped _ => m.bytes frame
  | _, _ => saved i page

namespace Racing

/-- The machine after something that is not a page coming back. -/
def leave (s : Racing) (m : Machine) (threads : Nat → Phase) : Racing :=
  ⟨m, threads, savedAfter s.saved s.machine m⟩

def step (s : Racing) : Section → Racing
  | .trap t i addr =>
    if s.threads t = .running ∧ (s.machine.entry i (pageOf addr)).swapSlot ≠ 0 then
      { s with threads := Function.update s.threads t (.trapped i addr) }
    else s
  | .enter t write a =>
    match s.threads t with
    | .trapped i addr =>
      if (s.machine.entry i (pageOf addr)).swapSlot ≠ 0 then
        match s.machine.enterFault i addr a.page with
        | some (f, m) => s.leave m (Function.update s.threads t (.faulting f))
        | none => { s with threads := Function.update s.threads t .killed }
      else
        let (served, m) := s.machine.vmFaultUser i addr write a
        s.leave m (Function.update s.threads t (.after served))
    | .running | .faulting _ | .killed => s
  | .finish t reads maps =>
    match s.threads t with
    | .faulting f =>
      let (served, m) := s.machine.finishFault f reads maps
      { s with machine := m, threads := Function.update s.threads t (.after served) }
    | .running | .trapped .. | .killed => s
  | .event event =>
    if s.machine.Returns event then s else s.leave (s.machine.happen event) s.threads

def start (m : Machine) : Racing := ⟨m, fun _ => .running, fun _ _ => zeroes⟩

/-- The thread's page is in the store yet, and in the slot it read if it has read one. -/
def Awaits (s : Racing) : Phase → Prop
  | .trapped i addr => (s.machine.entry i (pageOf addr)).swapSlot ≠ 0
  | .faulting f => s.machine.entry f.i f.page = .swapped f.slot
  | .running | .killed => True

instance (s : Racing) (phase : Phase) : Decidable (s.Awaits phase) :=
  match phase with
  | .trapped i addr => inferInstanceAs (Decidable ((s.machine.entry i (pageOf addr)).swapSlot ≠ 0))
  | .faulting f => inferInstanceAs (Decidable (s.machine.entry f.i f.page = .swapped f.slot))
  | .running | .killed => inferInstanceAs (Decidable True)

/-- A thread that goes on with a fault finds its page in the store yet, and in the slot it read. -/
def Current (s : Racing) : Section → Prop
  | .enter t _ _ | .finish t _ _ => s.Awaits (s.threads t)
  | .trap .. | .event _ => True

instance (s : Racing) (section_ : Section) : Decidable (s.Current section_) :=
  match section_ with
  | .enter t _ _ | .finish t _ _ => inferInstanceAs (Decidable (s.Awaits (s.threads t)))
  | .trap .. | .event _ => inferInstanceAs (Decidable True)

end Racing

/-! ## The store -/

/-- Every slot in the tables is in use, and in one place. -/
structure Slotted (m : Machine) : Prop where
  slot : ∀ i page slot, m.entry i page = .swapped slot →
    slot ≠ 0 ∧ slot < m.swap.slots ∧ m.swap.inUse slot = true
  sole : ∀ i page i' page' slot, m.entry i page = .swapped slot →
    m.entry i' page' = .swapped slot → i' = i ∧ page' = page
  zero : m.swap.inUse 0 = true

/-- The store, and what the tables have of it, are as they were. -/
structure Leaves (m m' : Machine) : Prop where
  swap : m'.swap = m.swap
  entries : ∀ i page slot, m'.entry i page = .swapped slot → m.entry i page = .swapped slot

theorem Leaves.refl (m : Machine) : Leaves m m := ⟨rfl, fun _ _ _ => id⟩

theorem Leaves.trans (leaves : Leaves m m₁) (leaves' : Leaves m₁ m') : Leaves m m' :=
  ⟨leaves'.swap.trans leaves.swap,
    fun i page slot at_ => leaves.entries i page slot (leaves'.entries i page slot at_)⟩

theorem Leaves.of_spaces (swap : m'.swap = m.swap) (spaces : m'.spaces = m.spaces) : Leaves m m' := by
  refine ⟨swap, fun i page slot at_ => ?_⟩
  unfold Machine.entry at at_ ⊢
  rw [← spaces]
  exact at_

theorem Leaves.setRegions (m : Machine) (i : Nat) (regions : List Region) :
    Leaves m (m.setRegions i regions) := by
  refine ⟨rfl, fun i' page slot at_ => ?_⟩
  rw [entry_setRegions] at at_
  exact at_

theorem Leaves.present (m : Machine) (i page frame : Nat) (w : Bool) :
    Leaves m (m.setEntry i page (.present frame w)) := by
  refine ⟨rfl, fun i' page' slot at_ => ?_⟩
  rw [entry_setEntry] at at_
  split at at_
  · cases at_
  · exact at_

theorem Spent.leaves (spent : Spent m m') : Leaves m m' := by
  cases spent with
  | inl same => exact same ▸ .refl m
  | inr wrote =>
    obtain ⟨_, _, _, rfl⟩ := wrote
    exact .of_spaces rfl rfl

theorem Slotted.leaves (slotted : Slotted m) (leaves : Leaves m m') : Slotted m' where
  slot i page slot at_ := leaves.swap ▸ slotted.slot i page slot (leaves.entries i page slot at_)
  sole i page i' page' slot at_ at' :=
    slotted.sole i page i' page' slot (leaves.entries _ _ _ at_) (leaves.entries _ _ _ at')
  zero := leaves.swap ▸ slotted.zero

theorem swapFree_disk (m : Machine) (slot s : Nat) : (m.swapFree slot).swap.disk s = m.swap.disk s := by
  unfold Machine.swapFree
  split <;> rfl

theorem Slotted.swapFree (slotted : Slotted m) (gone : ∀ i page, m.entry i page ≠ .swapped slot) :
    Slotted (m.swapFree slot) := by
  unfold Machine.swapFree
  split
  · exact slotted
  rename_i inside
  rw [not_or] at inside
  refine ⟨?_, slotted.sole, ?_⟩
  · intro i page s at_
    obtain ⟨some_, less, used⟩ := slotted.slot i page s at_
    refine ⟨some_, less, (Function.update_of_ne ?_ ..).trans used⟩
    rintro rfl
    exact gone i page at_
  · exact (Function.update_of_ne (Ne.symm inside.1) ..).trans slotted.zero

/-! ## What leaves the store as it is -/

theorem addRegion_leaves (m : Machine) (i : Nat) (r : Region) : Leaves m (m.addRegion i r) := by
  unfold Machine.addRegion
  dsimp only
  split
  · exact .refl m
  · exact .setRegions ..

theorem reserve_leaves (m : Machine) (i va size flags : Nat) : Leaves m (m.reserve i va size flags) := by
  unfold Machine.reserve
  split
  · exact .refl m
  · exact addRegion_leaves ..

theorem reserveMore_leaves (m : Machine) (i va size flags : Nat) :
    Leaves m (m.reserveMore i va size flags) := by
  unfold Machine.reserveMore
  dsimp only
  split
  · exact .refl m
  split
  · exact .setRegions ..
  · exact reserve_leaves ..

theorem mapFile_leaves (m : Machine) (i va size flags : Nat) (f : File) (offset len : Nat) :
    Leaves m (m.mapFile i va size flags f offset len) := by
  unfold Machine.mapFile
  split
  · exact .refl m
  · exact addRegion_leaves ..

theorem mapFileShared_leaves (m : Machine) (i va size flags : Nat) (f : File) (offset len : Nat) :
    Leaves m (m.mapFileShared i va size flags f offset len) := by
  unfold Machine.mapFileShared
  split
  · exact .refl m
  · exact (mapFile_leaves ..).trans (.setRegions ..)

theorem write_leaves (m : Machine) (i addr byte : Nat) : Leaves m (m.write i addr byte) := by
  unfold Machine.write
  split <;> exact .of_spaces rfl rfl

theorem giveOwnPage_leaves (m : Machine) (i page : Nat) (r : Region) (replacing : Option Nat)
    (a : Around) : Leaves m (m.giveOwnPage i page r replacing a).2 := by
  cases giveOwnPage_spec m i page r a replacing with
  | inl none_ => exact none_.2.leaves
  | inr gave =>
    obtain ⟨p, free, _, eq⟩ := gave
    rw [eq]
    have filled : Leaves m ((m.taken a.page).setBytes a.page p) := .of_spaces rfl rfl
    exact filled.trans (.present ..)

theorem spare_leaves {victim : Option (Option Nat)} (spared : m.spare victim = some m') :
    Leaves m m' := by
  unfold Machine.spare at spared
  split at spared
  · cases spared
  · cases spared
    exact .refl m
  · split at spared
    · cases spared
    · split at spared
      · cases spared
        exact .of_spaces rfl rfl
      · cases spared

theorem pagecacheGet_leaves (m : Machine) (f : File) (offset : Nat) (a : Around) :
    Leaves m (m.pagecacheGet f offset a).2 := by
  unfold Machine.pagecacheGet
  split
  · exact .refl m
  split
  · exact .of_spaces rfl rfl
  split
  · exact .refl m
  rename_i m₁ given
  obtain ⟨_, rfl⟩ := allocPage_eq given
  split
  · exact .of_spaces rfl rfl
  dsimp only
  split
  · exact .of_spaces rfl rfl
  · rename_i m₂ spared
    have filled : Leaves m ((m.taken a.cachePage).setBytes a.cachePage
      (f.read offset pageSize zeroes)) := .of_spaces rfl rfl
    exact (filled.trans (spare_leaves spared)).trans (.of_spaces rfl rfl)

theorem mapCached_leaves (m : Machine) (i page : Nat) (r : Region) (frame : Nat) (a : Around) :
    Leaves m (m.mapCached i page r frame a).2 := by
  unfold Machine.mapCached
  split
  · exact .of_spaces rfl rfl
  unfold vmMap
  cases a.maps with
  | false => exact .of_spaces rfl rfl
  | true => exact .present ..

theorem faultAbsent_leaves (m : Machine) (i page : Nat) (r : Region) (write : Bool) (a : Around) :
    Leaves m (m.faultAbsent i page r write a).2 := by
  unfold Machine.faultAbsent
  split
  · rename_i f file
    have got := pagecacheGet_leaves m f ((r.fileOffset + (page - r.start)) % u64Size) a
    split
    · rename_i frame m₁ eq
      rw [eq] at got
      exact got.trans (mapCached_leaves ..)
    · rename_i m₁ eq
      rw [eq] at got
      exact got.trans (giveOwnPage_leaves ..)
  · split
    · exact giveOwnPage_leaves ..
    · unfold vmMap
      cases a.maps with
      | false => exact .refl m
      | true => exact .present ..

theorem faultPresent_leaves (m : Machine) (i page : Nat) (r : Region) (frame : Nat) (write : Bool)
    (a : Around) : Leaves m (m.faultPresent i page r frame write a).2 := by
  unfold Machine.faultPresent
  dsimp only
  split
  swap
  · exact .refl m
  have gave := giveOwnPage_leaves m i page r (some frame) a
  split
  · rename_i m₁ eq
    rw [eq] at gave
    exact gave
  · rename_i m₁ eq
    rw [eq] at gave
    split
    · exact gave.trans (.of_spaces rfl rfl)
    · exact gave

/-- A fault leaves the store as it is where the page is not in it. -/
theorem vmFaultUser_leaves (m : Machine) (i addr : Nat) (write : Bool) (a : Around)
    (elsewhere : ¬m.Returns (.move (.fault i addr write a))) :
    Leaves m (m.vmFaultUser i addr write a).2 := by
  unfold Machine.vmFaultUser
  split
  · exact .refl m
  split
  · exact faultAbsent_leaves ..
  · rename_i slot at_
    have none_ : slot = 0 := by
      by_contra some_
      refine elsewhere ?_
      show (m.entry i (pageOf addr)).swapSlot ≠ 0
      rw [at_]
      exact some_
    unfold Machine.evictFaultIn
    rw [if_pos none_]
    exact .refl m
  · exact faultPresent_leaves ..

/-! ## Eviction -/

/-- What eviction leaves: the tables have slots where they had them, and where they had a page, one
with what was in the page. -/
structure Stores (m m' : Machine) : Prop where
  slotted : Slotted m'
  bytes : m'.bytes = m.bytes
  present : ∀ i page frame w, m'.entry i page = .present frame w → m.entry i page = .present frame w
  swapped : ∀ i page slot, m'.entry i page = .swapped slot →
    (m.entry i page = .swapped slot ∧ m'.swap.disk slot = m.swap.disk slot) ∨
    ∃ frame w, m.entry i page = .present frame w ∧ m'.swap.disk slot = m.bytes frame

theorem Stores.refl (slotted : Slotted m) : Stores m m :=
  ⟨slotted, rfl, fun _ _ _ _ => id, fun _ _ _ at_ => .inl ⟨at_, rfl⟩⟩

theorem Stores.trans (stores : Stores m m₁) (stores' : Stores m₁ m') : Stores m m' := by
  refine ⟨stores'.slotted, stores'.bytes.trans stores.bytes, ?_, ?_⟩
  · exact fun i page frame w at_ => stores.present i page frame w (stores'.present i page frame w at_)
  · intro i page slot at_
    cases stores'.swapped i page slot at_ with
    | inl was =>
      obtain ⟨was, disk⟩ := was
      cases stores.swapped i page slot was with
      | inl older => exact .inl ⟨older.1, disk.trans older.2⟩
      | inr out =>
        obtain ⟨frame, w, there, held⟩ := out
        exact .inr ⟨frame, w, there, disk.trans held⟩
    | inr out =>
      obtain ⟨frame, w, there, held⟩ := out
      refine .inr ⟨frame, w, stores.present i page frame w there, ?_⟩
      rw [held, stores.bytes]

/-- A store in which no slot of the tables is touched. -/
theorem Stores.setSwap {swap : Swap} (slotted : Slotted m) (slots : swap.slots = m.swap.slots)
    (inUse : ∀ slot, m.swap.inUse slot = true → swap.inUse slot = true)
    (disk : ∀ slot, m.swap.inUse slot = true → swap.disk slot = m.swap.disk slot) :
    Stores m (m.setSwap swap) := by
  refine ⟨⟨?_, slotted.sole, inUse 0 slotted.zero⟩, rfl, fun _ _ _ _ => id, ?_⟩
  · intro i page slot at_
    obtain ⟨some_, less, used⟩ := slotted.slot i page slot at_
    exact ⟨some_, slots ▸ less, inUse slot used⟩
  · intro i page slot at_
    exact .inl ⟨at_, disk slot (slotted.slot i page slot at_).2.2⟩

theorem Slotted.unused (slotted : Slotted m) (unused : m.swap.inUse slot = false) (i page : Nat) :
    m.entry i page ≠ .swapped slot := by
  intro at_
  rw [(slotted.slot i page slot at_).2.2] at unused
  cases unused

/-- A page put in a slot that the tables do not have, and its entry replaced. -/
theorem Stores.swapOut (slotted : Slotted m) (at_ : m.entry i va = .present frame w)
    (some_ : slot ≠ 0) (less : slot < m.swap.slots) (used : m.swap.inUse slot = true)
    (nowhere : ∀ i page, m.entry i page ≠ .swapped slot) (disk : m.swap.disk slot = m.bytes frame) :
    Stores m ((m.setEntry i va (.swapped slot)).freePage frame) := by
  have swapped (i' page' s : Nat)
      (at' : (m.setEntry i va (.swapped slot)).entry i' page' = .swapped s) :
      (i' = i ∧ page' = va ∧ s = slot) ∨ m.entry i' page' = .swapped s := by
    rw [entry_setEntry] at at'
    split at at'
    · rename_i here
      cases at'
      exact .inl ⟨here.1, here.2, rfl⟩
    · exact .inr at'
  refine ⟨⟨?_, ?_, slotted.zero⟩, rfl, ?_, ?_⟩
  · intro i' page' s at'
    cases swapped i' page' s at' with
    | inl here =>
      rw [here.2.2]
      exact ⟨some_, less, used⟩
    | inr was => exact slotted.slot i' page' s was
  · intro i₁ page₁ i₂ page₂ s at₁ at₂
    cases swapped i₁ page₁ s at₁ with
    | inl here =>
      cases swapped i₂ page₂ s at₂ with
      | inl here' => exact ⟨here'.1.trans here.1.symm, here'.2.1.trans here.2.1.symm⟩
      | inr was => exact absurd (here.2.2 ▸ was) (nowhere i₂ page₂)
    | inr was =>
      cases swapped i₂ page₂ s at₂ with
      | inl here => exact absurd (here.2.2 ▸ was) (nowhere i₁ page₁)
      | inr was' => exact slotted.sole i₁ page₁ i₂ page₂ s was was'
  · intro i' page' f w' at'
    rw [entry_freePage, entry_setEntry] at at'
    split at at'
    · cases at'
    · exact at'
  · intro i' page' s at'
    cases swapped i' page' s at' with
    | inl here =>
      rw [here.1, here.2.1, here.2.2]
      exact .inr ⟨frame, w, at_, disk⟩
    | inr was => exact .inl ⟨was, rfl⟩

theorem evictPage_stores (slotted : Slotted m) (i va : Nat) (c : Cold) :
    Stores m (m.evictPage i va c).2 := by
  unfold evictPage
  split
  · exact .refl slotted
  · exact .refl slotted
  rename_i frame w at_
  split
  · exact .refl slotted
  unfold swapWritePage
  cases free : m.freeSlot with
  | none => exact .refl slotted
  | some slot =>
    obtain ⟨less, unused⟩ := freeSlot_spec free
    have other (s : Nat) (used : m.swap.inUse s = true) : s ≠ slot := by
      rintro rfl
      rw [used] at unused
      cases unused
    dsimp only
    cases c.writes with
    | false =>
      exact .setSwap slotted rfl (fun _ => id) fun s used => Function.update_of_ne (other s used) ..
    | true =>
      rw [if_pos rfl]
      dsimp only
      split
      · rename_i back
        unfold Machine.swapFree
        split
        · exact .setSwap slotted rfl
            (fun s used => (Function.update_of_ne (other s used) ..).trans used)
            fun s used => Function.update_of_ne (other s used) ..
        · refine .setSwap slotted rfl ?_ fun s used => Function.update_of_ne (other s used) ..
          intro s used
          show Function.update (Function.update m.swap.inUse slot true) slot false s = true
          rw [Function.update_of_ne (other s used), Function.update_of_ne (other s used)]
          exact used
      · rename_i kept
        rw [not_or] at kept
        have stored : Stores m (m.setSwap
            { m.swap with
              hint := (slot + 1) % m.swap.slots
              inUse := Function.update m.swap.inUse slot true
              disk := Function.update m.swap.disk slot (m.bytes frame) }) :=
          .setSwap slotted rfl (fun s used => (Function.update_of_ne (other s used) ..).trans used)
            fun s used => Function.update_of_ne (other s used) ..
        exact stored.trans (.swapOut stored.slotted at_ kept.1 less (Function.update_self ..)
          (slotted.unused unused) (Function.update_self ..))

theorem evictLoop_stores {cold : Nat → Cold} {vas : List Nat} {want : Nat} (slotted : Slotted m) :
    Stores m (evictLoop i cold vas want m) := by
  induction vas generalizing m want with
  | nil => exact .refl slotted
  | cons va rest ih =>
    cases want with
    | zero => exact .refl slotted
    | succ want =>
      have stores := evictPage_stores slotted i va (cold va)
      unfold evictLoop
      split
      · rename_i m₁ eq
        rw [eq] at stores
        exact stores.trans (ih stores.slotted)
      · rename_i m₁ eq
        rw [eq] at stores
        exact stores.trans (ih stores.slotted)
      · rename_i m₁ eq
        rw [eq] at stores
        exact stores

theorem evictPages_stores (slotted : Slotted m) (i want : Nat) (cold : Nat → Cold) :
    Stores m (m.evictPages i want cold) := by
  unfold evictPages
  split
  · exact .refl slotted
  · exact evictLoop_stores slotted

/-! ## Runs -/

/-- The slots in the tables have what their pages held when they were put there. -/
structure Racing.Stored (s : Racing) : Prop where
  slotted : Slotted s.machine
  right : ∀ i page slot, s.machine.entry i page = .swapped slot →
    s.machine.swap.disk slot = s.saved i page

theorem Racing.Stored.leaves {s : Racing} (stored : s.Stored) (leaves : Leaves s.machine m')
    (threads : Nat → Phase) : (s.leave m' threads).Stored := by
  refine ⟨stored.slotted.leaves leaves, fun i page slot at_ => ?_⟩
  have was := leaves.entries i page slot at_
  show m'.swap.disk slot = savedAfter s.saved s.machine m' i page
  unfold savedAfter
  rw [was, leaves.swap]
  exact stored.right i page slot was

theorem Racing.Stored.stores {s : Racing} (stored : s.Stored) (stores : Stores s.machine m')
    (threads : Nat → Phase) : (s.leave m' threads).Stored := by
  refine ⟨stores.slotted, fun i page slot at_ => ?_⟩
  have at_ : m'.entry i page = .swapped slot := at_
  show m'.swap.disk slot = savedAfter s.saved s.machine m' i page
  unfold savedAfter
  rw [at_]
  cases stores.swapped i page slot at_ with
  | inl was =>
    rw [was.1, was.2]
    exact stored.right i page slot was.1
  | inr out =>
    obtain ⟨frame, w, there, held⟩ := out
    rw [there, held]

theorem event_stored {s : Racing} (stored : s.Stored) (event : Event)
    (elsewhere : ¬s.machine.Returns event) :
    (s.leave (s.machine.happen event) s.threads).Stored := by
  cases event with
  | mapFileShared i va size flags f offset len => exact stored.leaves (mapFileShared_leaves ..) _
  | move move =>
    cases move with
    | reserve i va size flags => exact stored.leaves (reserve_leaves ..) _
    | reserveMore i va size flags => exact stored.leaves (reserveMore_leaves ..) _
    | mapFile i va size flags f offset len => exact stored.leaves (mapFile_leaves ..) _
    | fault i addr write a => exact stored.leaves (vmFaultUser_leaves _ i addr write a elsewhere) _
    | write i addr byte => exact stored.leaves (write_leaves ..) _
    | evict i want cold => exact stored.stores (evictPages_stores stored.slotted i want cold) _

theorem enterFault_leaves {f : Faulting} {offered : Nat}
    (entered : m.enterFault i addr offered = some (f, m')) : Leaves m m' := by
  unfold Machine.enterFault at entered
  split at entered
  · split at entered
    · cases entered
    · obtain ⟨m₁, given, same⟩ := Option.map_eq_some_iff.1 entered
      cases same
      rw [(allocPage_eq given).2]
      exact .of_spaces rfl rfl
  · cases entered

/-- A thread that goes on with a slot the tables have: the page comes back if the store reads it and
the tables take it, with what it held, and its slot is free; otherwise it stays in the store. -/
theorem finishFault_spec {f : Faulting} (slotted : Slotted m)
    (current : m.entry f.i f.page = .swapped f.slot) (reads maps : Bool) :
    (reads = true ∧ maps = true ∧ m.finishFault f reads maps =
      (true, ((m.setBytes f.frame (m.swap.disk f.slot)).setEntry f.i f.page
        (.present f.frame f.write)).swapFree f.slot)) ∨
    ¬(reads = true ∧ maps = true) ∧ (m.finishFault f reads maps).1 = false ∧
      (m.finishFault f reads maps).2.spaces = m.spaces ∧
      (m.finishFault f reads maps).2.swap = m.swap := by
  obtain ⟨some_, less, used⟩ := slotted.slot f.i f.page f.slot current
  unfold Machine.finishFault swapReadPage
  cases reads with
  | false =>
    rw [if_pos (.inr (.inr (.inr rfl)))]
    exact .inr ⟨fun both => Bool.noConfusion both.1, rfl, rfl, rfl⟩
  | true =>
    rw [if_neg (by rw [used]; simp [some_, less])]
    unfold vmMap
    cases maps with
    | false => exact .inr ⟨fun both => Bool.noConfusion both.2, rfl, rfl, rfl⟩
    | true => exact .inl ⟨rfl, rfl, rfl⟩

theorem finish_stored {s : Racing} (stored : s.Stored) {f : Faulting}
    (current : s.machine.entry f.i f.page = .swapped f.slot) (threads : Nat → Phase)
    (reads maps : Bool) :
    (⟨(s.machine.finishFault f reads maps).2, threads, s.saved⟩ : Racing).Stored := by
  cases finishFault_spec stored.slotted current reads maps with
  | inr refused =>
    obtain ⟨_, _, spaces, swap⟩ := refused
    have leaves := Leaves.of_spaces swap spaces
    refine ⟨stored.slotted.leaves leaves, fun i page slot at_ => ?_⟩
    have at_ := leaves.entries i page slot at_
    show (s.machine.finishFault f reads maps).2.swap.disk slot = _
    rw [swap]
    exact stored.right i page slot at_
  | inl back =>
    obtain ⟨_, _, eq⟩ := back
    rw [eq]
    generalize now : ((s.machine.setBytes f.frame (s.machine.swap.disk f.slot)).setEntry f.i f.page
      (.present f.frame f.write)) = m'
    have leaves : Leaves s.machine m' := by
      subst now
      have filled : Leaves s.machine (s.machine.setBytes f.frame (s.machine.swap.disk f.slot)) :=
        .of_spaces rfl rfl
      exact filled.trans (.present ..)
    -- the place that had the slot has the page now, and no other had the slot
    have gone (i page : Nat) : m'.entry i page ≠ .swapped f.slot := by
      intro at_
      obtain ⟨same, same'⟩ := stored.slotted.sole _ _ i page _ current (leaves.entries _ _ _ at_)
      subst now
      rw [same, same', entry_setEntry_self] at at_
      cases at_
    refine ⟨(stored.slotted.leaves leaves).swapFree gone, fun i page slot at_ => ?_⟩
    have at_ : m'.entry i page = .swapped slot := by
      unfold Machine.entry at at_ ⊢
      rw [← swapFree_spaces m' f.slot]
      exact at_
    show (m'.swapFree f.slot).swap.disk slot = _
    rw [swapFree_disk, leaves.swap]
    exact stored.right i page slot (leaves.entries i page slot at_)

theorem step_stored {s : Racing} (section_ : Section) (current : s.Current section_)
    (stored : s.Stored) : (s.step section_).Stored := by
  cases section_ with
  | trap t i addr =>
    unfold Racing.step
    dsimp only
    split
    · exact ⟨stored.slotted, stored.right⟩
    · exact stored
  | enter t write a =>
    unfold Racing.Current at current
    unfold Racing.step
    dsimp only at current ⊢
    cases phase : s.threads t with
    | running => exact stored
    | faulting f => exact stored
    | killed => exact stored
    | trapped i addr =>
      rw [phase] at current
      change (s.machine.entry i (pageOf addr)).swapSlot ≠ 0 at current
      dsimp only
      rw [if_pos current]
      split
      · rename_i f m entered
        exact stored.leaves (enterFault_leaves entered) _
      · exact ⟨stored.slotted, stored.right⟩
  | finish t reads maps =>
    unfold Racing.Current at current
    unfold Racing.step
    dsimp only at current ⊢
    cases phase : s.threads t with
    | running => exact stored
    | trapped i addr => exact stored
    | killed => exact stored
    | faulting f =>
      rw [phase] at current
      exact finish_stored stored current _ reads maps
  | event event =>
    unfold Racing.step
    dsimp only
    split
    · exact stored
    · rename_i elsewhere
      exact event_stored stored event elsewhere

theorem Machine.Booted.stored (booted : m.Booted) : (Racing.start m).Stored := by
  have absent (i page slot : Nat) : m.entry i page ≠ .swapped slot := by
    unfold Machine.entry
    rw [booted.spaces]
    exact Entry.noConfusion
  refine ⟨⟨?_, ?_, ?_⟩, ?_⟩
  · exact fun i page slot at_ => absurd at_ (absent i page slot)
  · exact fun i page i' page' slot at_ => absurd at_ (absent i page slot)
  · exact (booted.slots 0).trans (by decide)
  · exact fun i page slot at_ => absurd at_ (absent i page slot)

/-! ## Pages that come back -/

/-- What is promised to a thread in a fault. When the handler begins, it only needs the address to be
in a region and a page to bring it back into; under the lock, it succeeds just when the store reads
and the tables take the page, and the page then holds what was last put in the store from there. -/
def Racing.Returns (s : Racing) : Phase → Prop
  | .trapped i addr => ∀ offered, (s.machine.enterFault i addr offered).isSome = true ↔
      (s.machine.regionFor i addr).isSome = true ∧ (s.machine.allocPage offered).isSome = true
  | .faulting f => ∀ reads maps,
      ((s.machine.finishFault f reads maps).1 = true ↔ reads = true ∧ maps = true) ∧
      ((s.machine.finishFault f reads maps).1 = true →
        (s.machine.finishFault f reads maps).2.holding f.i f.page = some (s.saved f.i f.page))
  | .running | .killed => True

theorem returns_of_awaits {s : Racing} (stored : s.Stored) (phase : Phase) (awaits : s.Awaits phase) :
    s.Returns phase := by
  cases phase with
  | running => trivial
  | killed => trivial
  | trapped i addr =>
    intro offered
    unfold Racing.Awaits at awaits
    dsimp only at awaits
    unfold Machine.enterFault
    cases at_ : s.machine.entry i (pageOf addr) with
    | absent =>
      rw [at_] at awaits
      exact absurd rfl awaits
    | present frame w =>
      rw [at_] at awaits
      exact absurd rfl awaits
    | swapped slot =>
      rw [at_] at awaits
      have some_ : slot ≠ 0 := awaits
      cases s.machine.regionFor i addr with
      | none => exact ⟨fun no => Bool.noConfusion no, fun both => Bool.noConfusion both.1⟩
      | some r =>
        dsimp only
        rw [if_neg some_, Option.isSome_map]
        exact ⟨fun given => ⟨rfl, given⟩, fun both => both.2⟩
  | faulting f =>
    intro reads maps
    cases finishFault_spec stored.slotted awaits reads maps with
    | inr refused =>
      obtain ⟨not_, answer, _⟩ := refused
      rw [answer]
      exact ⟨⟨fun no => Bool.noConfusion no, fun both => absurd both not_⟩,
        fun no => Bool.noConfusion no⟩
    | inl back =>
      obtain ⟨reads, maps, eq⟩ := back
      rw [eq]
      refine ⟨⟨fun _ => ⟨reads, maps⟩, fun _ => rfl⟩, fun _ => ?_⟩
      dsimp only
      rw [holding_swapFree, holding_setEntry, if_pos ⟨rfl, rfl⟩]
      refine congrArg some ((Function.update_self ..).trans ?_)
      exact stored.right _ _ _ awaits

/-- However threads that fault, evict, write and map come between each other, where each goes on with
a fault only while its page is in the store yet, in the slot it read: a slot is in one place, and a
page comes back once there is memory and the store reads, as what was put in the store. -/
theorem swapped_comes_back (booted : m.Booted) (sections : List Section)
    (current : Lib.Allows Racing.step Racing.Current (.start m) sections) :
    (∀ i page i' page' slot,
      (Lib.run Racing.step (.start m) sections).machine.entry i page = .swapped slot →
      (Lib.run Racing.step (.start m) sections).machine.entry i' page' = .swapped slot →
      i' = i ∧ page' = page) ∧
    ∀ t, (Lib.run Racing.step (.start m) sections).Awaits
        ((Lib.run Racing.step (.start m) sections).threads t) →
      (Lib.run Racing.step (.start m) sections).Returns
        ((Lib.run Racing.step (.start m) sections).threads t) := by
  have stored := Lib.run_keeps (fun s section_ => step_stored section_) current booted.stored
  exact ⟨stored.slotted.sole, fun t => returns_of_awaits stored _⟩

def Around.offering (page : Nat) : Around := { Around.spare with page := page }

/-- A page of a space, written. -/
def written (i page byte : Nat) : List Section :=
  [.event (.move (.reserve i 0x1000 0x1000 7)), .event (.move (.fault i 0x1000 true (.offering page))),
    .event (.move (.write i 0x1000 byte))]

def evicted (i : Nat) : Section := .event (.move (.evict i 1 fun _ => .cold))

/-- A page comes back while another program's goes. -/
def returning : List Section :=
  written 0 2 9 ++ written 1 3 7 ++ [evicted 0, .trap 0 0 0x1000, .enter 0 false (.offering 5), evicted 1]

theorem swapped_comes_back_returning :
    (Lib.run Racing.step (.start .blank) returning).threads 0 = .faulting ⟨0, 0x1000, 1, 5, true⟩ ∧
      (Lib.run Racing.step (.start .blank) returning).Returns
        ((Lib.run Racing.step (.start .blank) returning).threads 0) :=
  ⟨by decide +kernel,
    (swapped_comes_back blank_booted returning (by decide +kernel)).2 0 (by decide +kernel)⟩

/-- Two threads fault on one page, and the second comes to the lock when the slot it read is another
program's. -/
def overtaken : List Section :=
  written 0 2 9 ++ written 1 3 7 ++ written 2 4 5 ++
    [evicted 0, .trap 0 0 0x1000, .trap 1 0 0x1000, .enter 0 false (.offering 5),
      .enter 1 false (.offering 6), .finish 0 true true, evicted 1, evicted 2]

/-- It would have the other program's memory. -/
theorem swapped_comes_back_as_another :
    ¬∀ (m : Machine) (sections : List Section), m.Booted → ∀ t,
      (Lib.run Racing.step (.start m) sections).Returns
        ((Lib.run Racing.step (.start m) sections).threads t) := by
  intro all
  have returns := all .blank overtaken blank_booted 1
  have there : (Lib.run Racing.step (.start .blank) overtaken).threads 1 =
      .faulting ⟨0, 0x1000, 1, 6, true⟩ := by decide +kernel
  rw [there] at returns
  have back := (returns true true).2 (by decide +kernel)
  have bytes : ((Lib.run Racing.step (.start .blank) overtaken).machine.finishFault
      ⟨0, 0x1000, 1, 6, true⟩ true true).2.read 0 0x1000 = some 5 := by decide +kernel
  have held : (Lib.run Racing.step (.start .blank) overtaken).saved 0 0x1000 0 = 9 := by
    decide +kernel
  obtain ⟨p, was, same⟩ := read_holding bytes
  cases was.symm.trans back
  exact absurd (same.trans held) (by decide)

end ReconOS.Addrspace
