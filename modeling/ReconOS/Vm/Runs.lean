import ReconOS.Addrspace.Frames
import ReconOS.Lib.Run
import ReconOS.Vm.Spaces

/-! Every run of the calls that change the tables, from the kernel's first table on. -/
namespace ReconOS.Vm

open ReconOS.Lib

/-- The tables, and the roots of the spaces there are. -/
structure World where
  tables : Tables
  roots : List Nat

inductive Move where
  | map (cpu va pa size : Nat) (flags : Flags)
  | unmap (cpu va size : Nat)
  | swapOut (cpu va slot : Nat)
  | newRoot
  | activate (cpu : Nat) (root : Option Nat)
  | freeRoot (root : Nat)

/-- What a call answers, and leaves. A call that panics changes nothing. -/
def act (caps : Caps) (w : World) : Move → Bool × World
  | .map cpu va pa size flags =>
    match w.tables.vmMap caps flags cpu va pa size with
    | none => (false, w)
    | some (ok, s) => (ok, { w with tables := s })
  | .unmap cpu va size =>
    match w.tables.vmUnmap cpu va size with
    | none => (false, w)
    | some (ok, s) => (ok, { w with tables := s })
  | .swapOut cpu va slot =>
    let (ok, s) := w.tables.vmSwapOut cpu va slot
    (ok, { w with tables := s })
  | .newRoot =>
    match w.tables.asNewRoot with
    | none => (false, w)
    | some (root, s) => (true, ⟨s, root :: w.roots⟩)
  | .activate cpu root => (true, { w with tables := w.tables.asActivate cpu root })
  | .freeRoot root => (true, ⟨(w.tables.asFreeRoot root).2, w.roots.filter (· ≠ root)⟩)

def step (caps : Caps) (w : World) (m : Move) : World := (act caps w m).2

/-- What the callers see to: ranges in one half, of whole pages, addresses that there are, and roots
of spaces, given back when no processor runs in them. -/
def Allowed (w : World) : Move → Prop
  | .map _ va pa size _ =>
    (va ||| pa ||| size) &&& (pageSize - 1) = 0 ∧ Range va size ∧ pa + size ≤ 0x10000000000000
  | .unmap _ va size => (va ||| size) &&& (pageSize - 1) = 0 ∧ Range va size
  | .swapOut _ va slot => Canonical va ∧ slot < 0x100000000
  | .newRoot => True
  | .activate _ root => ∀ r, root = some r → r ∈ w.roots
  | .freeRoot root => root ∈ w.roots ∧ ∀ cpu, w.tables.active cpu ≠ some root

/-- What is seen at the addresses that a root has tables of its own for: of a space, the lower half,
and of the kernel, both. -/
def World.Sees (w : World) (sees : Nat → Nat → Cell) : Prop :=
  ∀ root v, (root = w.tables.kernel ∨ root ∈ w.roots) → Covers w.tables.kernel root v →
    w.tables.view root v = sees root v

/-- What each call does to what is seen. Through a new space's root the kernel's half is what it is
then: a first entry that the kernel's table gets later is not copied. -/
def Does (caps : Caps) (w : World) (ok : Bool) (w' : World) : Move → Prop
  | .map cpu va pa size flags => w'.roots = w.roots ∧ ∃ done, done ≤ size ∧
      done % pageSize = 0 ∧ (ok = true → done = size) ∧
      (ok = false → done < size ∧ (w'.tables.free = [] ∨
        w'.tables.Coarse (w.tables.rootFor cpu va) (va + done))) ∧
      w'.Sees (Mapped caps flags w.tables (w.tables.rootFor cpu va) va pa done)
  | .unmap cpu va size => w'.roots = w.roots ∧ ∃ done, done ≤ size ∧
      done % pageSize = 0 ∧ (ok = true → done = size) ∧
      (ok = false → done < size ∧ w'.tables.Coarse (w.tables.rootFor cpu va) (va + done)) ∧
      w'.Sees (Unmapped w.tables (w.tables.rootFor cpu va) va done)
  | .swapOut cpu va slot => w'.roots = w.roots ∧
      (ok = true ↔ slot ≠ 0 ∧ (∃ m, w.tables.view (w.tables.rootFor cpu va) va = .mapped m) ∧
        ¬ w.tables.Coarse (w.tables.rootFor cpu va) va) ∧
      w'.Sees fun root v =>
        if ok = true ∧ root = w.tables.rootFor cpu va ∧ v / pageSize = va / pageSize then
          .swapped slot
        else w.tables.view root v
  | .newRoot => (ok = false → w' = w ∧ w.tables.free = []) ∧ (ok = true → ∃ root,
      w'.roots = root :: w.roots ∧ root ∉ w.roots ∧ root ≠ w.tables.kernel ∧
      (w'.Sees fun root' v => if root' = root then .absent else w.tables.view root' v) ∧
      ∀ v, 0xFFFF800000000000 ≤ v → v < 0x10000000000000000 →
        w'.tables.view root v = w'.tables.view w'.tables.kernel v)
  | .activate _ _ => w'.roots = w.roots ∧ w'.Sees w.tables.view
  | .freeRoot root => w'.roots = w.roots.filter (· ≠ root) ∧ w'.Sees w.tables.view

/-- The tables are sound, and their roots are the kernel's and the spaces'. -/
def Inv (w : World) : Prop := w.tables.kernel ∉ w.roots ∧ ∃ home, Sound w.tables home ∧
  ∀ root, home root = some (root, []) ↔ root = w.tables.kernel ∨ root ∈ w.roots

theorem Becomes.inv {w : World} {home home' : Homes} {s : Tables} {sees : Nat → Nat → Cell}
    (becomes : Becomes w.tables home s home' sees)
    (apart : w.tables.kernel ∉ w.roots)
    (roots : ∀ root, home root = some (root, []) ↔ root = w.tables.kernel ∨ root ∈ w.roots) :
    Inv ⟨s, w.roots⟩ ∧ World.Sees ⟨s, w.roots⟩ sees := by
  constructor
  · refine ⟨by rwa [becomes.kernel], home', becomes.sound, ?_⟩
    intro root
    rw [becomes.kernel, ← roots root]
    exact ⟨becomes.roots root, becomes.grows root _⟩
  · intro root v live covers
    rw [becomes.kernel] at live covers
    exact becomes.view root v ((roots root).mpr live) covers

/-- One call keeps the tables sound, and does what it is for. -/
theorem act_does (caps : Caps) {w : World} (inv : Inv w) (m : Move) (allowed : Allowed w m) :
    Inv (step caps w m) ∧ Does caps w (act caps w m).1 (step caps w m) m := by
  obtain ⟨apart, home, sound, roots⟩ := inv
  rw [step]
  cases m with
  | map cpu va pa size flags =>
    obtain ⟨aligned, range, fits⟩ := allowed
    rw [act]
    cases runs : w.tables.vmMap caps flags cpu va pa size with
    | none =>
      rw [Tables.vmMap, if_neg (not_not.mpr aligned)] at runs
      cases runs
    | some result =>
      obtain ⟨ok, s⟩ := result
      obtain ⟨home', done, most, page, all, stops, becomes⟩ := vmMap_mapped sound range fits runs
      obtain ⟨inv, sees⟩ := becomes.inv apart roots
      exact ⟨inv, rfl, done, most, page, all, stops, sees⟩
  | unmap cpu va size =>
    obtain ⟨aligned, range⟩ := allowed
    rw [act]
    cases runs : w.tables.vmUnmap cpu va size with
    | none =>
      rw [Tables.vmUnmap, if_neg (not_not.mpr aligned)] at runs
      cases runs
    | some result =>
      obtain ⟨ok, s⟩ := result
      obtain ⟨done, most, page, all, stops, becomes⟩ := vmUnmap_unmapped sound range runs
      obtain ⟨inv, sees⟩ := becomes.inv apart roots
      exact ⟨inv, rfl, done, most, page, all, stops, sees⟩
  | swapOut cpu va slot =>
    obtain ⟨canonical, fits⟩ := allowed
    rw [act]
    cases runs : w.tables.vmSwapOut cpu va slot with
    | mk ok s =>
      change Inv ⟨s, w.roots⟩ ∧ Does caps w ok ⟨s, w.roots⟩ (.swapOut cpu va slot)
      obtain ⟨when_, refused, taken⟩ := vmSwapOut_swapped sound canonical fits runs
      cases ok with
      | false =>
        rw [refused rfl]
        obtain ⟨inv, sees⟩ := (Becomes.refl sound).inv apart roots
        refine ⟨inv, rfl, when_, ?_⟩
        intro root v live covers
        rw [sees root v live covers]
        exact (if_neg fun all => Bool.noConfusion all.1).symm
      | true =>
        obtain ⟨inv, sees⟩ := (taken rfl).inv apart roots
        refine ⟨inv, rfl, when_, ?_⟩
        intro root v live covers
        rw [sees root v live covers]
        exact if_congr (and_iff_right rfl).symm rfl rfl
  | newRoot =>
    rw [act]
    cases runs : w.tables.asNewRoot with
    | none =>
      refine ⟨⟨apart, home, sound, roots⟩, fun _ => ⟨rfl, ?_⟩, fun made => Bool.noConfusion made⟩
      rw [Tables.asNewRoot, Tables.allocTable] at runs
      cases free : w.tables.free with
      | nil => rfl
      | cons q left =>
        rw [free] at runs
        cases runs
    | some result =>
      obtain ⟨root, s⟩ := result
      change Inv ⟨s, root :: w.roots⟩ ∧ Does caps w true ⟨s, root :: w.roots⟩ .newRoot
      have new := asNewRoot_new sound runs
      have old : ¬ (root = w.tables.kernel ∨ root ∈ w.roots) := by
        intro live
        have place := (roots root).mpr live
        rw [new.unused] at place
        cases place
      rw [not_or] at old
      have apart' : s.kernel ∉ root :: w.roots := by
        rw [new.kernel, List.mem_cons, not_or]
        exact ⟨fun same => old.1 same.symm, apart⟩
      refine ⟨⟨apart', _, new.sound, ?_⟩, fun failed => Bool.noConfusion failed,
        fun _ => ⟨root, rfl, old.2, old.1, ?_, fun v => new.shares⟩⟩
      · intro root'
        dsimp only
        rw [new.kernel, List.mem_cons]
        by_cases same : root' = root
        · rw [same, Function.update_self]
          exact ⟨fun _ => Or.inr (Or.inl rfl), fun _ => rfl⟩
        · rw [Function.update_of_ne same, roots root']
          exact ⟨fun live => live.imp_right Or.inr, fun live => live.imp_right fun mem =>
            mem.resolve_left same⟩
      · intro root' v live covers
        dsimp only at live covers
        rw [new.kernel] at live covers
        change s.view root' v = if root' = root then .absent else w.tables.view root' v
        split
        · rename_i same
          rw [same] at covers ⊢
          exact new.lower v covers
        · rename_i other
          refine new.kept root' v ((roots root').mpr (live.imp_right fun mem => ?_)) covers
          exact (List.mem_cons.mp mem).resolve_left other
  | activate cpu root =>
    refine ⟨⟨apart, home, ?_, roots⟩, rfl, fun root v live covers => rfl⟩
    constructor
    · exact sound.placed
    · exact sound.upper
    · exact sound.kernel
    · intro cpu' root' active
      change (if cpu' = cpu then root else w.tables.active cpu') = some root' at active
      split at active
      · exact (roots root').mpr (Or.inr (allowed root' active))
      · exact sound.active cpu' root' active
    · exact sound.root
    · exact sound.tag
    · exact sound.nodup
    · exact sound.unused
    · exact sound.frame
    · exact sound.real
  | freeRoot root =>
    obtain ⟨mem, idle⟩ := allowed
    have live := (roots root).mpr (Or.inr mem)
    have other : root ≠ w.tables.kernel := by
      rintro rfl
      exact apart mem
    have kernel : (w.tables.asFreeRoot root).2.kernel = w.tables.kernel := by
      rw [Tables.asFreeRoot, if_neg (sound.real root _ live).2]
    have view : (w.tables.asFreeRoot root).2.view = w.tables.view := by
      rw [Tables.asFreeRoot, if_neg (sound.real root _ live).2]
      rfl
    change Inv ⟨(w.tables.asFreeRoot root).2, w.roots.filter (· ≠ root)⟩ ∧ _
    refine ⟨⟨?_, _, asFreeRoot_sound sound live other idle, ?_⟩, rfl, ?_⟩
    · rw [kernel]
      exact fun mem' => apart (List.mem_of_mem_filter mem')
    · intro root'
      rw [without_some, roots root', kernel, List.mem_filter, decide_eq_true_eq]
      constructor
      · rintro ⟨live', stays⟩
        exact live'.imp_right fun mem' => ⟨mem', stays⟩
      · rintro (rfl | both)
        · exact ⟨Or.inl rfl, fun same => other same.symm⟩
        · exact ⟨Or.inr both.1, both.2⟩
    · intro root' v live' covers
      change (w.tables.asFreeRoot root).2.view root' v = w.tables.view root' v
      rw [view]

/-! ## From the start -/

/-- The kernel's first table, with nothing in it, and what the allocator has left. -/
def World.start (kernel : Nat) (free : List Nat) : World where
  tables :=
    { mem := fun _ _ => 0
      free := free
      kernel := kernel
      active := fun _ => none }
  roots := []

theorem start_inv {kernel : Nat} {free : List Nat} (nodup : (kernel :: free).Nodup)
    (frames : ∀ p ∈ kernel :: free, Frame p ∧ p ≠ 0) : Inv (World.start kernel free) := by
  obtain ⟨apart, nodup⟩ := List.nodup_cons.mp nodup
  have only : ∀ {p at_}, (if p = kernel then some (kernel, ([] : List Nat)) else none) = some at_ →
      p = kernel ∧ at_ = (kernel, []) := by
    intro p at_ place
    split at place
    · rename_i same
      exact ⟨same, (Option.some.inj place).symm⟩
    · cases place
  refine ⟨List.not_mem_nil, fun p => if p = kernel then some (kernel, []) else none, ?_, ?_⟩
  · constructor
    · intro p r pre i q place owned short goes
      have none_ : target ((World.start kernel free).tables.mem p i) = none := target_zero
      rw [none_] at goes
      cases goes
    · intro p r pre i place owned less
      exact Upper.empty
    · exact if_pos rfl
    · intro cpu root active
      cases active
    · intro p r place
      obtain ⟨same, at_⟩ := only place
      exact same.trans (Prod.mk.inj at_).1.symm
    · intro p r pre place
      obtain ⟨-, at_⟩ := only place
      rw [(Prod.mk.inj at_).1]
      exact if_pos rfl
    · exact nodup
    · intro p mem
      apply if_neg
      rintro rfl
      exact apart mem
    · intro p mem
      exact frames p (List.mem_cons_of_mem kernel mem)
    · intro p at_ place
      rw [(only place).1]
      exact frames kernel List.mem_cons_self
  · intro root
    constructor
    · intro place
      exact Or.inl (only place).1
    · rintro (rfl | mem)
      · exact if_pos rfl
      · cases mem

/-- What the allocator starts with: pages, none of them twice. -/
structure Fresh (kernel : Nat) (free : List Nat) : Prop where
  nodup : (kernel :: free).Nodup
  frames : ∀ p ∈ kernel :: free, Frame p ∧ p ≠ 0

/-- A state that some run comes to, from a start with any pages. -/
def Reached (caps : Caps) (w : World) : Prop :=
  ∃ kernel free moves, Fresh kernel free ∧
    Allows (step caps) Allowed (World.start kernel free) moves ∧
    run (step caps) (World.start kernel free) moves = w

variable {caps : Caps} {w : World}

theorem Reached.inv (reached : Reached caps w) : Inv w := by
  obtain ⟨kernel, free, moves, fresh, allowed, rfl⟩ := reached
  have keeps : ∀ w m, Allowed w m → Inv w → Inv (step caps w m) := by
    intro w m ok inv
    exact (act_does caps inv m ok).1
  exact run_keeps keeps allowed (start_inv fresh.nodup fresh.frames)

/-- In every run each call does, at every address of every space and of the kernel, what it is for
and nothing else: where it stops, it has done so up to there, for a reason. -/
theorem run_does (reached : Reached caps w) (m : Move) (allowed : Allowed w m) :
    Does caps w (act caps w m).1 (step caps w m) m :=
  (act_does caps reached.inv m allowed).2

/-- A path of a space's own tables, or of the kernel's, that ends in one of them. -/
structure World.Way (w : World) (root : Nat) (way : List Nat) (p : Nat) : Prop where
  live : root = w.tables.kernel ∨ root ∈ w.roots
  owned : Radix.Owned (own w.tables.kernel) root way
  short : way.length < 4
  goes : Radix.reach target w.tables.mem root way = some p

/-- In every run no page that a path comes to is free, or comes to be by another path: no table is
ever handed out again while it is in use, or given back twice. -/
theorem run_apart (reached : Reached caps w) : w.tables.free.Nodup ∧
    ∀ root way p, w.Way root way p → p ∉ w.tables.free ∧
      ∀ root' way', w.Way root' way' p → root' = root ∧ way' = way := by
  obtain ⟨-, home, sound, roots⟩ := reached.inv
  have place : ∀ {root way p}, w.Way root way p → home p = some (root, way) := by
    intro root way p at_
    exact Radix.reach_place sound.placed ((roots root).mpr at_.live) at_.owned at_.short at_.goes
  refine ⟨sound.nodup, ?_⟩
  intro root way p at_
  constructor
  · intro mem
    have here := place at_
    rw [sound.unused p mem] at here
    cases here
  · intro root' way' at_'
    have same := (place at_').symm.trans (place at_)
    rw [Option.some.injEq, Prod.mk.injEq] at same
    exact same

/-- In every run what `vm_lookup` and `vm_swap_slot` find is what the processor would, but that the
address in a large page that is write-combined is a page too high. -/
theorem run_lookup (reached : Reached caps w) (cpu : Nat) {va : Nat} (canonical : Canonical va) :
    w.tables.vmLookup cpu va = (w.tables.view (w.tables.rootFor cpu va) va).lookedUp
        (decide (w.tables.Coarse (w.tables.rootFor cpu va) va)) ∧
      w.tables.vmSwapSlot cpu va = (w.tables.view (w.tables.rootFor cpu va) va).swapSlot := by
  obtain ⟨-, home, sound, -⟩ := reached.inv
  exact ⟨vmLookup_view sound canonical, vmSwapSlot_view sound canonical⟩

/-- In every run a space gives back, with its tables, each page that is mapped in it, once for each
address, but for those that are part of a larger page or write-combined. -/
theorem run_given (reached : Reached caps w) {root : Nat} (live : root ∈ w.roots) :
    Tables.Freed.leaves (w.tables.asFreeRoot root).1 =
      (List.range (userLimit / pageSize)).filterMap fun n =>
        (w.tables.view root (n * pageSize)).givenBack
          (decide (w.tables.Coarse root (n * pageSize))) := by
  obtain ⟨-, home, sound, roots⟩ := reached.inv
  exact asFreeRoot_given sound ((roots root).mpr (Or.inr live))

/-! ## The tables of the address spaces -/

/-- A cell as the address spaces have it. -/
def Cell.entry : Cell → Addrspace.Entry
  | .absent => .absent
  | .mapped m => .present m.addr m.write
  | .swapped slot => .swapped slot

/-- What a processor sees through the root of each space is what the space has in its table. -/
structure Shows (w : World) (machine : Addrspace.Machine) (roots : Nat → Option Nat) : Prop where
  live : ∀ i root, roots i = some root → root ∈ w.roots
  own : ∀ i j root, roots i = some root → roots j = some root → i = j
  entry : ∀ i root page, roots i = some root → page % pageSize = 0 → page < userLimit →
    (w.tables.view root page).entry = machine.entry i page

theorem Shows.set {machine : Addrspace.Machine} {roots : Nat → Option Nat}
    (shows_ : Shows w machine roots) {w' : World} {i root page : Nat} {e : Addrspace.Entry}
    (space : roots i = some root) (same : w'.roots = w.roots)
    (sees : ∀ root' page', root' ∈ w'.roots → page' % pageSize = 0 → page' < userLimit →
      (w'.tables.view root' page').entry =
        if root' = root ∧ page' = page then e else (w.tables.view root' page').entry) :
    Shows w' (machine.setEntry i page e) roots := by
  constructor
  · intro j root' space'
    rw [same]
    exact shows_.live j root' space'
  · exact shows_.own
  · intro j root' page' space' aligned low
    rw [sees root' page' (same ▸ shows_.live j root' space') aligned low,
      Addrspace.Machine.entry_setEntry, shows_.entry j root' page' space' aligned low]
    refine if_congr (and_congr_left fun _ => ⟨?_, ?_⟩) rfl rfl
    · rintro rfl
      exact shows_.own j i root' space' space
    · rintro rfl
      exact Option.some.inj (space'.symm.trans space)

theorem Shows.keep {machine : Addrspace.Machine} {roots : Nat → Option Nat}
    (shows_ : Shows w machine roots) {w' : World} (same : w'.roots = w.roots)
    (sees : ∀ root page, root ∈ w'.roots → page % pageSize = 0 → page < userLimit →
      (w'.tables.view root page).entry = (w.tables.view root page).entry) :
    Shows w' machine roots := by
  constructor
  · intro j root space
    rw [same]
    exact shows_.live j root space
  · exact shows_.own
  · intro j root page space aligned low
    rw [sees root page (same ▸ shows_.live j root space) aligned low]
    exact shows_.entry j root page space aligned low

section
variable {machine : Addrspace.Machine} {roots : Nat → Option Nat} {i root cpu page : Nat}

/-- Of the spaces' addresses that are whole pages, the calls for one page reach that page. -/
theorem same_page {page' : Nat} (aligned : page % pageSize = 0) (aligned' : page' % pageSize = 0) :
    (page' / pageSize = page / pageSize ↔ page' = page) ∧
      (page ≤ page' ∧ page' < page + pageSize ↔ page' = page) := by
  unfold pageSize at *
  omega

theorem Shows.map (shows_ : Shows w machine roots) (inv : Inv w) (space : roots i = some root)
    (root_ : w.tables.rootFor cpu page = root) (aligned : page % pageSize = 0)
    (low : page < userLimit) {frame : Nat} (flags : Flags) (whole : frame % pageSize = 0)
    (fits : frame + pageSize ≤ 0x10000000000000) :
    Shows (step caps w (.map cpu page frame pageSize flags))
      ((machine.vmMap i page frame flags.write
        (act caps w (.map cpu page frame pageSize flags)).1).getD machine) roots := by
  have allowed : Allowed w (.map cpu page frame pageSize flags) := by
    refine ⟨?_, Or.inl ?_, fits⟩
    · have both := (or_low 12).mpr ⟨aligned, whole⟩
      have low12 : (page ||| frame) % pageSize = 0 := by
        rw [← low4k]
        exact both
      exact (or_low 12).mpr ⟨low12, rfl⟩
    · unfold userLimit pageSize at *
      omega
  obtain ⟨-, same, done, most, part, all, stops, sees⟩ := act_does caps inv _ allowed
  rw [root_] at sees
  have view : ∀ root' page', root' ∈ (step caps w (.map cpu page frame pageSize flags)).roots →
      page' < userLimit →
      ((step caps w (.map cpu page frame pageSize flags)).tables.view root' page').entry =
        (Mapped caps flags w.tables root page frame done root' page').entry := by
    intro root' page' mem low'
    rw [sees root' page' (Or.inr mem) ⟨Or.inl low', Or.inr low'⟩]
  cases ok : (act caps w (.map cpu page frame pageSize flags)).1 with
  | false =>
    apply shows_.keep same
    intro root' page' mem _ low'
    have none_ : done = 0 := by
      have short := (stops ok).1
      unfold pageSize at part short
      omega
    rw [view root' page' mem low', none_, Mapped, if_neg (by omega)]
  | true =>
    rw [all ok] at view
    apply shows_.set space same
    intro root' page' mem aligned' low'
    have here := (same_page aligned aligned').2
    rw [view root' page' mem low', Mapped]
    by_cases on : root' = root ∧ page' = page
    · rw [if_pos ⟨on.1, here.mpr on.2⟩, if_pos on, on.2, Nat.sub_self]
      rfl
    · rw [if_neg fun within => on ⟨within.1, here.mp within.2⟩, if_neg on]

theorem Shows.swapOut (shows_ : Shows w machine roots) (inv : Inv w) (space : roots i = some root)
    (root_ : w.tables.rootFor cpu page = root) (aligned : page % pageSize = 0)
    (low : page < userLimit) {slot : Nat} (fits : slot < 0x100000000) :
    Shows (step caps w (.swapOut cpu page slot))
      (if (act caps w (.swapOut cpu page slot)).1 = true then
        machine.setEntry i page (.swapped slot) else machine) roots := by
  obtain ⟨-, same, when_, sees⟩ := act_does caps inv (.swapOut cpu page slot) ⟨Or.inl low, fits⟩
  rw [root_] at sees
  have view : ∀ root' page', root' ∈ (step caps w (.swapOut cpu page slot)).roots →
      page' < userLimit → (step caps w (.swapOut cpu page slot)).tables.view root' page' =
        if (act caps w (.swapOut cpu page slot)).1 = true ∧ root' = root ∧
            page' / pageSize = page / pageSize then .swapped slot
        else w.tables.view root' page' := by
    intro root' page' mem low'
    exact sees root' page' (Or.inr mem) ⟨Or.inl low', Or.inr low'⟩
  cases ok : (act caps w (.swapOut cpu page slot)).1 with
  | false =>
    apply shows_.keep same
    intro root' page' mem _ low'
    rw [view root' page' mem low', if_neg]
    intro out
    rw [ok] at out
    cases out.1
  | true =>
    apply shows_.set space same
    intro root' page' mem aligned' low'
    have here := (same_page aligned aligned').1
    rw [view root' page' mem low']
    by_cases out : root' = root ∧ page' = page
    · rw [if_pos ⟨ok, out.1, here.mpr out.2⟩, if_pos out]
      rfl
    · rw [if_neg fun all => out ⟨all.2.1, here.mp all.2.2⟩, if_neg out]

end

/-- What the address spaces take their tables to do, the tables of the processor do: `vm_map` of a
page puts it there if it answers yes, and `vm_swap_out` puts the slot there. -/
theorem run_shows (reached : Reached caps w) {machine : Addrspace.Machine}
    {roots : Nat → Option Nat} (shows_ : Shows w machine roots) {i root cpu page : Nat}
    (space : roots i = some root) (runs : w.tables.active cpu = some root)
    (aligned : page % pageSize = 0) (low : page < userLimit) :
    (∀ frame flags, frame % pageSize = 0 → frame + pageSize ≤ 0x10000000000000 →
      Shows (step caps w (.map cpu page frame pageSize flags))
        ((machine.vmMap i page frame flags.write
          (act caps w (.map cpu page frame pageSize flags)).1).getD machine) roots) ∧
    ∀ slot, slot < 0x100000000 → Shows (step caps w (.swapOut cpu page slot))
      (if (act caps w (.swapOut cpu page slot)).1 = true then
        machine.setEntry i page (.swapped slot) else machine) roots := by
  have root_ : w.tables.rootFor cpu page = root := by
    rw [Tables.rootFor, if_neg (Nat.not_le.mpr low), runs]
    rfl
  constructor
  · intro frame flags whole fits
    exact shows_.map reached.inv space root_ aligned low flags whole fits
  · intro slot fits
    exact shows_.swapOut reached.inv space root_ aligned low fits

/-! ## A run -/

/-- A space that a processor runs in, with two pages of memory mapped and one of them taken out. -/
def spaceMoves : List Move :=
  [.newRoot, .activate 0 (some 0x2000), .map 0 0x400000 0x80000 0x2000
    ⟨true, false, true, false, false, false⟩, .unmap 0 0x401000 0x1000]

def space : World :=
  run (step ⟨true, true, true⟩) (World.start 0x1000 [0x2000, 0x3000, 0x4000, 0x5000]) spaceMoves

theorem space_reached : Reached ⟨true, true, true⟩ space := by
  refine ⟨0x1000, [0x2000, 0x3000, 0x4000, 0x5000], spaceMoves, ⟨by decide, ?_⟩, ?_, rfl⟩
  · have frames : ∀ p ∈ [0x1000, 0x2000, 0x3000, 0x4000, 0x5000],
        p % pageSize = 0 ∧ p < 0x10000000000000 ∧ p ≠ 0 := by decide
    intro p mem
    exact ⟨⟨(frames p mem).1, (frames p mem).2.1⟩, (frames p mem).2.2⟩
  · refine ⟨trivial, ?_, ⟨by decide, Or.inl (by decide), by decide⟩,
      ⟨by decide, Or.inl (by decide)⟩, trivial⟩
    intro r same
    cases same
    decide +kernel

theorem run_does_space : Does ⟨true, true, true⟩ space
    (act ⟨true, true, true⟩ space (.unmap 0 0x400000 0x1000)).1
    (step ⟨true, true, true⟩ space (.unmap 0 0x400000 0x1000)) (.unmap 0 0x400000 0x1000) :=
  run_does space_reached (.unmap 0 0x400000 0x1000) ⟨by decide, Or.inl (by decide)⟩

theorem run_apart_space : 0x2000 ∉ space.tables.free ∧
    ∀ root' way', space.Way root' way' 0x2000 → root' = 0x2000 ∧ way' = [] :=
  (run_apart space_reached).2 0x2000 [] 0x2000
    ⟨Or.inr (by decide +kernel), owned_nil, by decide, rfl⟩

theorem run_lookup_space : space.tables.vmLookup 0 0x400010 = 0x80010 ∧
    space.tables.vmLookup 0 0x400010 =
      (space.tables.view (space.tables.rootFor 0 0x400010) 0x400010).lookedUp
        (decide (space.tables.Coarse (space.tables.rootFor 0 0x400010) 0x400010)) :=
  ⟨by decide +kernel, (run_lookup space_reached 0 (Or.inl (by decide))).1⟩

theorem run_given_space : Tables.Freed.leaves (space.tables.asFreeRoot 0x2000).1 =
    (List.range (userLimit / pageSize)).filterMap fun n =>
      (space.tables.view 0x2000 (n * pageSize)).givenBack
        (decide (space.tables.Coarse 0x2000 (n * pageSize))) :=
  run_given space_reached (by decide +kernel)

/-- The space as the first of a machine that has nothing else. -/
def spaceMachine : Addrspace.Machine where
  spaces _ := ⟨[], fun page => (space.tables.view 0x2000 page).entry⟩
  out _ := false
  bytes _ _ := 0
  zeroPage := 0
  cache := []
  swap := ⟨0, 0, fun _ => false, fun _ _ => 0⟩

theorem space_shows : Shows space spaceMachine fun i => if i = 0 then some 0x2000 else none := by
  have of : ∀ {i root : Nat}, (if i = 0 then some 0x2000 else none) = some root →
      i = 0 ∧ root = 0x2000 := by
    intro i root is
    split at is
    · exact ⟨‹i = 0›, (Option.some.inj is).symm⟩
    · cases is
  constructor
  · intro i root is
    rw [(of is).2]
    decide +kernel
  · intro i j root is is'
    rw [(of is).1, (of is').1]
  · intro i root page is _ _
    rw [(of is).2]
    rfl

theorem run_shows_space : Shows
    (step ⟨true, true, true⟩ space (.map 0 0x401000 0x90000 pageSize
      ⟨true, false, true, false, false, false⟩))
    ((spaceMachine.vmMap 0 0x401000 0x90000 true
      (act ⟨true, true, true⟩ space (.map 0 0x401000 0x90000 pageSize
        ⟨true, false, true, false, false, false⟩)).1).getD spaceMachine)
    fun i => if i = 0 then some 0x2000 else none :=
  (run_shows space_reached space_shows rfl (by decide +kernel) (by decide) (by decide)).1
    0x90000 ⟨true, false, true, false, false, false⟩ (by decide) (by decide)

end ReconOS.Vm
