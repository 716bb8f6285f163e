import ReconOS.Vm.Tables

/-! What holds of the tables at all times, and what it is to change an entry of them. -/
namespace ReconOS.Vm

open ReconOS.Lib

/-- The entries of the first table that are a root's own: all of the kernel's, and the lower half
of a space's. -/
def own (kernel root i : Nat) : Prop := root = kernel ∨ i < 256

/-- A large page's entry, its address and the bit that is among those of the address. -/
structure Large (level w : Nat) : Prop where
  middle : level = 1 ∨ level = 2
  present : w &&& ptePresent ≠ 0
  large : w &&& pteLarge ≠ 0
  addr : ∃ p, p % span (level + 1) = 0 ∧ p < 0x10000000000000 ∧
    w &&& pteAddrMask = p + (if w &&& ptePatLarge ≠ 0 then ptePatLarge else 0)

/-- What a table above the last holds. -/
inductive Upper (level : Nat) : Nat → Prop where
  | empty : Upper level 0
  | table {p : Nat} (frame : Frame p) : Upper level (tableEntry p)
  | large {w : Nat} (large : Large level w) : Upper level w

abbrev Homes := Nat → Option (Nat × List Nat)

structure Sound (s : Tables) (home : Homes) : Prop where
  placed : Radix.Placed target s.mem (own s.kernel) 4 home
  upper : ∀ p r pre i, home p = some (r, pre) → Radix.Owned (own s.kernel) r (pre ++ [i]) →
    pre.length < 3 → Upper pre.length (s.mem p i)
  kernel : home s.kernel = some (s.kernel, [])
  active : ∀ cpu root, s.active cpu = some root → home root = some (root, [])
  root : ∀ p r, home p = some (r, []) → p = r
  tag : ∀ p r pre, home p = some (r, pre) → home r = some (r, [])
  nodup : s.free.Nodup
  unused : ∀ p ∈ s.free, home p = none
  frame : ∀ p ∈ s.free, Frame p ∧ p ≠ 0
  real : ∀ p at_, home p = some at_ → Frame p ∧ p ≠ 0

variable {s s' s'' : Tables} {home home' home'' : Homes} {caps : Caps} {flags : Flags}
  {p r root i w cpu v va : Nat} {pre rest : List Nat}

theorem Upper.target_some {level : Nat} (upper : Upper level w) {q : Nat}
    (goes : target w = some q) : Frame q ∧ w = tableEntry q := by
  cases upper with
  | empty => cases goes
  | table frame =>
    rw [target_tableEntry frame, Option.some.injEq] at goes
    rw [← goes]
    exact ⟨frame, rfl⟩
  | large large =>
    rw [target, if_pos (Or.inr large.large)] at goes
    cases goes

/-! ## The words on the way -/

theorem owned_nil {kernel : Nat} : Radix.Owned (own kernel) r [] := by
  intro i rest parts
  cases parts

/-- On the way to a table there are only entries that point at tables. -/
theorem walk_tables (sound : Sound s home) {q : Nat} {done : List Nat}
    (start : home q = some (r, done)) (owned : Radix.Owned (own s.kernel) r (done ++ pre))
    (short : done.length + pre.length ≤ 3) (goes : Radix.reach target s.mem q pre = some p) :
    (Radix.walk target s.mem q pre).length = pre.length ∧
      ∀ w ∈ Radix.walk target s.mem q pre, ∃ t, w = tableEntry t := by
  induction pre generalizing q done with
  | nil =>
    refine ⟨rfl, ?_⟩
    intro w mem
    cases mem
  | cons j rest ih =>
    rw [Radix.reach] at goes
    rw [List.length_cons] at short
    have first := owned.front
    cases next : target (s.mem q j) with
    | none =>
      rw [next] at goes
      cases goes
    | some next_ =>
      rw [next] at goes
      have upper := sound.upper q r done j start first (by omega)
      have place := sound.placed q r done j next_ start first (by omega) next
      have same : done ++ [j] ++ rest = done ++ j :: rest := by
        rw [List.append_assoc, List.singleton_append]
      obtain ⟨long, all⟩ := ih place (by rwa [same])
        (by rw [List.length_append, List.length_singleton]; omega) goes
      rw [Radix.walk, next]
      constructor
      · exact congrArg (· + 1) long
      · intro w mem
        cases mem with
        | head => exact ⟨next_, (upper.target_some next).2⟩
        | tail _ mem => exact all w mem

/-- The tables above leave everything to the last entry. -/
theorem mapping_tables {words : List Nat} (tables : ∀ w ∈ words, ∃ t, w = tableEntry t) :
    (words ++ [w]).all (fun w => w &&& pteWrite ≠ 0) = decide (w &&& pteWrite ≠ 0) ∧
      (words ++ [w]).all (fun w => w &&& pteUser ≠ 0) = decide (w &&& pteUser ≠ 0) ∧
      (words ++ [w]).all (fun w => w &&& pteNx = 0) = decide (w &&& pteNx = 0) := by
  have each : ∀ f : Nat → Bool, (∀ t, f (tableEntry t) = true) → (words ++ [w]).all f = f w := by
    intro f passes
    have front : words.all f = true := by
      rw [List.all_eq_true]
      intro w mem
      obtain ⟨t, rfl⟩ := tables w mem
      exact passes t
    rw [List.all_append, front, Bool.true_and, List.all_cons, List.all_nil, Bool.and_true]
  refine ⟨each _ ?_, each _ ?_, each _ ?_⟩
  all_goals
    intro t
    rw [tableEntry_and (by decide)]
    rfl

/-! ## A changed entry -/

/-- An address that a root's own tables are for. -/
structure Covers (kernel root v : Nat) : Prop where
  canonical : Canonical v
  mine : root = kernel ∨ v < userLimit

theorem Covers.owned {kernel : Nat} (covers : Covers kernel root v) :
    Radix.Owned (own kernel) root (path v) := by
  intro i rest parts
  obtain ⟨rfl, -⟩ := List.cons.inj parts
  cases covers.mine with
  | inl same => exact Or.inl same
  | inr low =>
    right
    rw [i4_eq]
    unfold userLimit at low
    omega

theorem path_length : (path v).length = 4 := rfl

/-- From one state to another, as the roots' addresses have it. -/
structure Becomes (s : Tables) (home : Homes) (s' : Tables) (home' : Homes)
    (sees : Nat → Nat → Cell) : Prop where
  sound : Sound s' home'
  kernel : s'.kernel = s.kernel
  active : s'.active = s.active
  grows : ∀ p at_, home p = some at_ → home' p = some at_
  roots : ∀ root, home' root = some (root, []) → home root = some (root, [])
  view : ∀ root v, home root = some (root, []) → Covers s.kernel root v →
    s'.view root v = sees root v

theorem Becomes.refl (sound : Sound s home) : Becomes s home s home s.view :=
  ⟨sound, rfl, rfl, fun _ _ same => same, fun _ same => same, fun _ _ _ _ => rfl⟩

theorem Becomes.trans {sees sees' : Nat → Nat → Cell} (one : Becomes s home s' home' sees)
    (two : Becomes s' home' s'' home'' sees') : Becomes s home s'' home'' sees' := by
  constructor
  · exact two.sound
  · exact two.kernel.trans one.kernel
  · exact two.active.trans one.active
  · intro p at_ place
    exact two.grows p at_ (one.grows p at_ place)
  · intro root place
    exact one.roots root (two.roots root place)
  · intro root v place covers
    rw [← one.kernel] at covers
    exact two.view root v (one.grows _ _ place) covers

theorem Becomes.congr {sees sees' : Nat → Nat → Cell} (one : Becomes s home s' home' sees)
    (same : ∀ root v, home root = some (root, []) → Covers s.kernel root v →
      sees root v = sees' root v) : Becomes s home s' home' sees' := by
  refine ⟨one.sound, one.kernel, one.active, one.grows, one.roots, ?_⟩
  intro root v place covers
  exact (one.view root v place covers).trans (same root v place covers)

/-- An entry that is put where it may be: it is seen at the addresses that come to it. -/
theorem setEntry_becomes (sound : Sound s home) (start : home root = some (root, []))
    (owned : Radix.Owned (own s.kernel) root (pre ++ [i])) (short : pre.length < 4)
    (goes : Radix.reach target s.mem root pre = some p)
    (ends : pre.length = 3 ∨ target w = none) (upper : pre.length < 3 → Upper pre.length w) :
    Becomes s home (s.setEntry p i w) home fun root' v =>
      if root' = root ∧ pre ++ [i] <+: path v then cell (Radix.walk target s.mem root pre ++ [w]) v
      else s.view root' v := by
  have front : Radix.Owned (own s.kernel) root pre := by
    intro j later parts
    exact owned j (later ++ [i]) (by rw [parts, List.cons_append])
  have here := Radix.reach_place sound.placed start front short goes
  constructor
  · constructor
    · apply sound.placed.set here
      intro less q next
      cases ends with
      | inl last => omega
      | inr none_ =>
        rw [none_] at next
        cases next
    · intro p' r' pre' j place owned' less
      change Upper pre'.length (s.mem.set p i w p' j)
      by_cases same : p' = p ∧ j = i
      · obtain ⟨rfl, rfl⟩ := same
        obtain ⟨rfl, rfl⟩ := Prod.mk.inj (Option.some.inj (here.symm.trans place))
        rw [Radix.set_here]
        exact upper less
      · rw [Radix.set_other same]
        exact sound.upper p' r' pre' j place owned' less
    · exact sound.kernel
    · exact sound.active
    · exact sound.root
    · exact sound.tag
    · exact sound.nodup
    · exact sound.unused
    · exact sound.frame
    · exact sound.real
  · rfl
  · rfl
  · intro p' at_ place
    exact place
  · intro root' place
    exact place
  · intro root' v place covers
    split
    · rename_i on
      obtain ⟨rfl, rest, parts⟩ := on
      have beyond : Radix.onward target (s.setEntry p i w).mem w rest = [] := by
        cases ends with
        | inl last =>
          have long := congrArg List.length parts
          rw [List.length_append, List.length_append, path_length, last] at long
          obtain rfl := List.length_eq_zero_iff.mp (show rest.length = 0 by
            rw [List.length_singleton] at long
            omega)
          unfold Radix.onward
          cases target w with
          | none => rfl
          | some q => rfl
        | inr none_ => rw [Radix.onward, none_]
      rw [Tables.view, ← parts, List.append_assoc, List.singleton_append, Tables.setEntry,
        Radix.walk_set_on sound.placed start front short goes]
      exact congrArg (fun words => cell (_ ++ w :: words) v) beyond
    · rename_i off
      exact congrArg (cell · v) (Radix.walk_set_apart sound.placed place covers.owned
        (Nat.le_refl _) here off)

/-! ## The next level -/

theorem cell_zero (words : List Nat) : cell (words ++ [0]) v = .absent := by
  unfold cell
  rw [List.getLastD_concat]
  rw [if_neg (by decide), if_neg (fun both => both.2 (Nat.zero_and _))]

/-- What the allocator has left has no place in the tables. -/
theorem free_head (sound : Sound s home) {q : Nat} {left : List Nat} (free : s.free = q :: left) :
    home q = none ∧ (Frame q ∧ q ≠ 0) ∧ left.Nodup ∧
      ∀ p ∈ left, p ≠ q ∧ home p = none ∧ Frame p ∧ p ≠ 0 := by
  have nodup := sound.nodup
  rw [free, List.nodup_cons] at nodup
  have mem : q ∈ s.free := by
    rw [free]
    exact List.mem_cons_self
  refine ⟨sound.unused q mem, sound.frame q mem, nodup.2, ?_⟩
  intro p mem'
  have later : p ∈ s.free := by
    rw [free]
    exact List.mem_cons_of_mem q mem'
  refine ⟨?_, sound.unused p later, sound.frame p later⟩
  rintro rfl
  exact nodup.1 mem'

/-- An entry made to point at a table that was free. -/
def Tables.newTable (s : Tables) (p i q : Nat) (left : List Nat) : Tables where
  mem := (s.mem.clear q 0).set p i (tableEntry q)
  free := left
  kernel := s.kernel
  active := s.active

theorem newTable_sound (sound : Sound s home) (start : home root = some (root, []))
    (here : home p = some (root, pre)) {q : Nat} {left : List Nat}
    (free : s.free = q :: left) :
    Sound (s.newTable p i q left) (Function.update home q (some (root, pre ++ [i]))) := by
  have mem : q ∈ s.free := by
    rw [free]
    exact List.mem_cons_self
  have unused := sound.unused q mem
  have other : ∀ {p at_}, home p = some at_ → p ≠ q := by
    rintro p at_ place rfl
    rw [unused] at place
    cases place
  have grows : ∀ {p at_}, home p = some at_ →
      Function.update home q (some (root, pre ++ [i])) p = some at_ := by
    intro p at_ place
    rwa [Function.update_of_ne (other place)]
  have old : ∀ {p at_}, Function.update home q (some (root, pre ++ [i])) p = some at_ →
      p = q ∧ at_ = (root, pre ++ [i]) ∨ p ≠ q ∧ home p = some at_ := by
    intro p at_ place
    by_cases same : p = q
    · rw [same, Function.update_self, Option.some.injEq] at place
      exact Or.inl ⟨same, place.symm⟩
    · rw [Function.update_of_ne same] at place
      exact Or.inr ⟨same, place⟩
  have nodup := sound.nodup
  rw [free, List.nodup_cons] at nodup
  constructor
  · apply (sound.placed.fresh unused target_zero (root, pre ++ [i])).set (grows here)
    intro less next goes
    rw [target_tableEntry (sound.frame q mem).1, Option.some.injEq] at goes
    rw [← goes, Function.update_self]
  · intro p' r' pre' j place owned less
    change Upper pre'.length ((s.mem.clear q 0).set p i (tableEntry q) p' j)
    by_cases same : p' = p ∧ j = i
    · obtain ⟨rfl, rfl⟩ := same
      rw [Radix.set_here]
      exact Upper.table (sound.frame q mem).1
    · rw [Radix.set_other same]
      cases old place with
      | inl new =>
        rw [new.1, Radix.Store.clear, if_pos rfl]
        exact Upper.empty
      | inr before =>
        rw [Radix.Store.clear, if_neg before.1]
        exact sound.upper p' r' pre' j before.2 owned less
  · exact grows sound.kernel
  · intro cpu root' active
    exact grows (sound.active cpu root' active)
  · intro p' r' place
    cases old place with
    | inl new => exact absurd (Prod.mk.inj new.2).2.symm (List.concat_ne_nil i pre)
    | inr before => exact sound.root p' r' before.2
  · intro p' r' pre' place
    cases old place with
    | inl new =>
      obtain ⟨rfl, -⟩ := Prod.mk.inj new.2
      exact grows start
    | inr before => exact grows (sound.tag p' r' pre' before.2)
  · exact nodup.2
  · intro p' mem'
    have apart : p' ≠ q := by
      rintro rfl
      exact nodup.1 mem'
    rw [Function.update_of_ne apart]
    exact sound.unused p' (by rw [free]; exact List.mem_cons_of_mem q mem')
  · intro p' mem'
    exact sound.frame p' (by rw [free]; exact List.mem_cons_of_mem q mem')
  · intro p' at_ place
    cases old place with
    | inl new =>
      rw [new.1]
      exact sound.frame q mem
    | inr before => exact sound.real p' at_ before.2

/-- Nothing is seen of it, where there was nothing. -/
theorem newTable_becomes (sound : Sound s home) (start : home root = some (root, []))
    (owned : Radix.Owned (own s.kernel) root (pre ++ [i])) (short : pre.length < 3)
    (goes : Radix.reach target s.mem root pre = some p) (empty : s.mem p i = 0) {q : Nat}
    {left : List Nat} (free : s.free = q :: left) :
    Becomes s home (s.newTable p i q left) (Function.update home q (some (root, pre ++ [i])))
        s.view ∧
      Radix.reach target (s.newTable p i q left).mem root (pre ++ [i]) = some q := by
  have front : Radix.Owned (own s.kernel) root pre := by
    intro j later parts
    exact owned j (later ++ [i]) (by rw [parts, List.cons_append])
  have here := Radix.reach_place sound.placed start front (by omega) goes
  have mem : q ∈ s.free := by
    rw [free]
    exact List.mem_cons_self
  have unused := sound.unused q mem
  have grows : ∀ p at_, home p = some at_ →
      Function.update home q (some (root, pre ++ [i])) p = some at_ := by
    intro p at_ place
    rw [Function.update_of_ne]
    · exact place
    · rintro rfl
      rw [unused] at place
      cases place
  have placed := sound.placed.fresh unused target_zero (root, pre ++ [i])
  have start' := grows root _ start
  have here' := grows p _ here
  have goes' : Radix.reach target (s.mem.clear q 0) root pre = some p := by
    rwa [Radix.reach_clear sound.placed unused start front (by omega)]
  have apart : p ≠ q := by
    rintro rfl
    rw [unused] at here
    cases here
  constructor
  · constructor
    · exact newTable_sound sound start here free
    · rfl
    · rfl
    · exact grows
    · intro root' place
      by_cases same : root' = q
      · rw [same, Function.update_self, Option.some.injEq] at place
        exact absurd (Prod.mk.inj place).2 (List.concat_ne_nil i pre)
      · rwa [Function.update_of_ne same] at place
    · intro root' v place covers
      by_cases on : root' = root ∧ pre ++ [i] <+: path v
      · obtain ⟨rfl, rest, parts⟩ := on
        rw [List.append_assoc, List.singleton_append] at parts
        have long := congrArg List.length parts
        rw [List.length_append, List.length_cons, path_length] at long
        cases rest with
        | nil =>
          rw [List.length_nil] at long
          omega
        | cons j rest =>
          have before : Radix.walk target s.mem root' (path v) =
              Radix.walk target s.mem root' pre ++ [0] := by
            rw [← parts, Radix.walk_append goes, Radix.walk, empty]
            rfl
          have zero : (s.newTable p i q left).mem q j = 0 := by
            change (s.mem.clear q 0).set p i (tableEntry q) q j = 0
            rw [Radix.set_other fun both => apart both.1.symm, Radix.Store.clear, if_pos rfl]
          have after : Radix.walk target (s.newTable p i q left).mem root' (path v) =
              Radix.walk target (s.mem.clear q 0) root' pre ++ [tableEntry q] ++ [0] := by
            have beyond : Radix.onward target (s.newTable p i q left).mem (tableEntry q)
                (j :: rest) = [0] := by
              rw [Radix.onward, target_tableEntry (sound.frame q mem).1]
              change _ :: Radix.onward target _ _ rest = _
              rw [zero]
              rfl
            rw [← parts, List.append_assoc, List.singleton_append, ← beyond]
            exact Radix.walk_set_on placed start' front (Nat.lt_succ_of_lt short) goes'
          rw [Tables.view, Tables.view, before, after, cell_zero, cell_zero]
      · have kept := Radix.walk_set_apart placed (grows root' _ place) covers.owned
          (Nat.le_refl 4) here' on (w := tableEntry q)
        exact congrArg (cell · v) (kept.trans
          (Radix.walk_clear sound.placed unused place covers.owned (Nat.le_refl 4)))
  · have reached := Radix.reach_set (i := i) (w := tableEntry q) placed start' front
      (Nat.lt_succ_of_lt short) here'
    rw [goes'] at reached
    change Radix.reach target ((s.mem.clear q 0).set p i (tableEntry q)) root (pre ++ [i]) = _
    rw [Radix.reach_append reached, Radix.reach, Radix.set_here,
      target_tableEntry (sound.frame q mem).1]
    rfl

theorem nextLevel_create (sound : Sound s home) (start : home root = some (root, []))
    (owned : Radix.Owned (own s.kernel) root (pre ++ [i])) (short : pre.length < 3)
    (goes : Radix.reach target s.mem root pre = some p) :
    (∃ q s' home', s.nextLevel p i true = (some q, s') ∧ Becomes s home s' home' s.view ∧
      Radix.reach target s'.mem root (pre ++ [i]) = some q) ∨
    s.nextLevel p i true = (none, s) ∧ (s.free = [] ∨ Large pre.length (s.mem p i)) := by
  have front : Radix.Owned (own s.kernel) root pre := by
    intro j later parts
    exact owned j (later ++ [i]) (by rw [parts, List.cons_append])
  have here := Radix.reach_place sound.placed start front (by omega) goes
  have upper := sound.upper p root pre i here owned short
  rw [Tables.nextLevel]
  generalize holds : s.mem p i = e at upper
  cases upper with
  | empty =>
    rw [if_pos (Nat.zero_and _), if_pos rfl, Tables.allocTable]
    cases free : s.free with
    | nil => exact Or.inr ⟨rfl, Or.inl rfl⟩
    | cons q left =>
      obtain ⟨becomes, reached⟩ := newTable_becomes sound start owned short goes holds free
      exact Or.inl ⟨q, s.newTable p i q left, _, rfl, becomes, reached⟩
  | @table q frame =>
    have goes' := target_tableEntry frame
    have on : ¬ (tableEntry q &&& ptePresent = 0) ∧ ¬ (tableEntry q &&& pteLarge ≠ 0) := by
      rw [tableEntry_and (by decide), tableEntry_and (by decide)]
      decide
    rw [target, if_neg (by rw [not_or]; exact on)] at goes'
    rw [if_neg on.1, if_neg on.2, goes']
    refine Or.inl ⟨q, s, home, rfl, Becomes.refl sound, ?_⟩
    rw [Radix.reach_append goes, Radix.reach, holds, target_tableEntry frame]
    rfl
  | large large =>
    rw [if_neg large.present, if_pos large.large]
    exact Or.inr ⟨rfl, Or.inr large⟩

/-- Without making any, the next level is the table that the entry points at. -/
theorem nextLevel_find (s : Tables) : (s.nextLevel p i false).1 = target (s.mem p i) := by
  rw [Tables.nextLevel, target]
  by_cases absent : s.mem p i &&& ptePresent = 0
  · rw [if_pos absent, if_pos (Or.inl absent)]
    rfl
  · rw [if_neg absent]
    by_cases large : s.mem p i &&& pteLarge ≠ 0
    · rw [if_pos large, if_pos (Or.inr large)]
    · rw [if_neg large, if_neg (by rw [not_or]; exact ⟨absent, large⟩)]

end ReconOS.Vm
