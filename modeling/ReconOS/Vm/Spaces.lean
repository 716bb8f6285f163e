import ReconOS.Vm.Lookup

/-! Spaces made and given back. -/
namespace ReconOS.Vm

open ReconOS.Lib

variable {s s' : Tables} {home home' : Homes} {p q r root i w cpu v va level below : Nat}
  {done pre rest words : List Nat}

/-! ## A new space -/

/-- The first table of a new space: the upper half of the kernel's, and nothing in the lower. -/
def firstTable (m : Radix.Store Nat Nat) (kernel root : Nat) : Radix.Store Nat Nat := fun p i =>
  if p = root ∧ 256 ≤ i ∧ i < 512 then m.clear root 0 kernel i else m.clear root 0 p i

theorem firstTable_own {m : Radix.Store Nat Nat} {kernel : Nat} (low : p = root → i < 256) :
    firstTable m kernel root p i = m.clear root 0 p i := by
  apply if_neg
  rintro ⟨same, high, -⟩
  have := low same
  omega

structure NewRoot (s : Tables) (home : Homes) (root : Nat) (s' : Tables) : Prop where
  unused : home root = none
  kernel : s'.kernel = s.kernel
  active : s'.active = s.active
  sound : Sound s' (Function.update home root (some (root, [])))
  kept : ∀ root' v, home root' = some (root', []) → Covers s.kernel root' v →
    s'.view root' v = s.view root' v
  lower : ∀ v, Covers s.kernel root v → s'.view root v = .absent
  upper : ∀ i, 256 ≤ i → i < 512 → s'.mem root i = s'.mem s'.kernel i

/-- The kernel's half is seen through it as through the kernel's own table, so far. -/
theorem NewRoot.shares (new : NewRoot s home root s') {v : Nat} (high : 0xFFFF800000000000 ≤ v)
    (fits : v < 0x10000000000000000) : s'.view root v = s'.view s'.kernel v := by
  have place : 256 ≤ i4 v ∧ i4 v < 512 := by
    rw [i4_eq]
    omega
  unfold Tables.view path
  rw [Radix.walk, Radix.walk, new.upper (i4 v) place.1 place.2]

theorem asNewRoot_new (sound : Sound s home) (runs : s.asNewRoot = some (root, s')) :
    NewRoot s home root s' := by
  rw [Tables.asNewRoot, Tables.allocTable] at runs
  cases free : s.free with
  | nil =>
    rw [free] at runs
    cases runs
  | cons fresh left =>
    rw [free, Option.some.injEq, Prod.mk.injEq] at runs
    obtain ⟨rfl, rfl⟩ := runs
    obtain ⟨unused, ⟨frame, some_⟩, nodup, later⟩ := free_head sound free
    have other : ∀ {p at_}, home p = some at_ → p ≠ fresh := by
      rintro p at_ place rfl
      rw [unused] at place
      cases place
    have kernel := other sound.kernel
    have grows : ∀ {p at_}, home p = some at_ →
        Function.update home fresh (some (fresh, [])) p = some at_ := by
      intro p at_ place
      rwa [Function.update_of_ne (other place)]
    have low : ∀ {p r pre j}, Function.update home fresh (some (fresh, [])) p = some (r, pre) →
        Radix.Owned (own s.kernel) r (pre ++ [j]) → p = fresh → j < 256 := by
      rintro p r pre j place owned rfl
      rw [Function.update_self, Option.some.injEq, Prod.mk.injEq] at place
      obtain ⟨rfl, rfl⟩ := place
      exact (owned j [] rfl).resolve_left fun same => kernel same.symm
    have placed := sound.placed.fresh unused target_zero (fresh, [])
    have placed' : Radix.Placed target (firstTable s.mem s.kernel fresh) (own s.kernel) 4
        (Function.update home fresh (some (fresh, []))) := by
      intro p r pre j q place owned short goes
      rw [firstTable_own (low place owned)] at goes
      exact placed p r pre j q place owned short goes
    have walks : ∀ {root' v},
        Function.update home fresh (some (fresh, [])) root' = some (root', []) →
        Covers s.kernel root' v → Radix.walk target (firstTable s.mem s.kernel fresh) root' (path v) =
          Radix.walk target (s.mem.clear fresh 0) root' (path v) := by
      intro root' v place covers
      apply Radix.walk_congr placed place covers.owned (Nat.le_refl 4)
      intro p pre j place' front
      apply firstTable_own
      rintro rfl
      rw [Function.update_self, Option.some.injEq, Prod.mk.injEq] at place'
      obtain ⟨rfl, rfl⟩ := place'
      obtain ⟨first, -⟩ := List.cons_prefix_cons.mp front
      rw [first]
      exact (covers.owned (i4 v) _ rfl).resolve_left fun same => kernel same.symm
    constructor
    · exact unused
    · rfl
    · rfl
    · constructor
      · exact placed'
      · intro p r pre j place owned less
        change Upper pre.length (firstTable s.mem s.kernel fresh p j)
        rw [firstTable_own (low place owned), Radix.Store.clear]
        split
        · exact Upper.empty
        · rename_i old
          rw [Function.update_of_ne old] at place
          exact sound.upper p r pre j place owned less
      · exact grows sound.kernel
      · intro cpu root active
        exact grows (sound.active cpu root active)
      · intro p r place
        by_cases same : p = fresh
        · rw [same, Function.update_self, Option.some.injEq, Prod.mk.injEq] at place
          exact same.trans place.1
        · rw [Function.update_of_ne same] at place
          exact sound.root p r place
      · intro p r pre place
        by_cases same : p = fresh
        · rw [same, Function.update_self, Option.some.injEq, Prod.mk.injEq] at place
          rw [← place.1, Function.update_self]
        · rw [Function.update_of_ne same] at place
          exact grows (sound.tag p r pre place)
      · exact nodup
      · intro p mem
        obtain ⟨old, none_, -⟩ := later p mem
        rwa [Function.update_of_ne old]
      · intro p mem
        exact (later p mem).2.2
      · intro p at_ place
        by_cases same : p = fresh
        · rw [same]
          exact ⟨frame, some_⟩
        · rw [Function.update_of_ne same] at place
          exact sound.real p at_ place
    · intro root' v place covers
      have kept := walks (grows place) covers
      rw [Radix.walk_clear sound.placed unused place covers.owned (Nat.le_refl 4)] at kept
      exact congrArg (cell · v) kept
    · intro v covers
      have found := walks (Function.update_self ..) covers
      have zero : s.mem.clear fresh 0 fresh (i4 v) = 0 := if_pos rfl
      have nothing : Radix.walk target (s.mem.clear fresh 0) fresh (path v) = [0] := by
        rw [path, Radix.walk, zero]
        rfl
      rw [nothing] at found
      exact (congrArg (cell · v) found).trans (cell_zero [])
    · intro i least most
      change firstTable s.mem s.kernel fresh fresh i = firstTable s.mem s.kernel fresh s.kernel i
      rw [firstTable, if_pos ⟨rfl, least, most⟩, firstTable, if_neg fun all => kernel all.1]

/-! ## What a space gives back -/

/-- A space whose root is given back has no place any more, and neither has any of its tables. -/
def without (home : Homes) (root : Nat) : Homes := fun p =>
  (home p).filter fun at_ => !decide (at_.1 = root)

theorem without_some {at_ : Nat × List Nat} :
    without home root p = some at_ ↔ home p = some at_ ∧ at_.1 ≠ root := by
  rw [without, Option.filter_eq_some_iff, Bool.not_eq_true', decide_eq_false_iff_not]

namespace Tables

theorem Freed.tables_append (l l' : List Freed) :
    Freed.tables (l ++ l') = Freed.tables l ++ Freed.tables l' := by
  induction l with
  | nil => rfl
  | cons f l ih =>
    cases f with
    | table p => exact congrArg (p :: ·) ih
    | leaf p => exact ih

theorem Freed.tables_flatMap {α : Type} (f : α → List Freed) (l : List α) :
    Freed.tables (l.flatMap f) = l.flatMap fun a => Freed.tables (f a) := by
  induction l with
  | nil => rfl
  | cons a l ih => rw [List.flatMap_cons, Freed.tables_append, ih, List.flatMap_cons]

/-- What is given back for one entry. -/
def piece (mem : Radix.Store Nat Nat) (below table i : Nat) : List Freed :=
  let e := mem table i
  if e &&& ptePresent = 0 then []
  else if below + 1 < 4 ∧ e &&& pteLarge ≠ 0 then []
  else if below + 1 > 1 then
    freeLowerTables mem below (e &&& pteAddrMask) ++ [.table (e &&& pteAddrMask)]
  else [.leaf (e &&& pteAddrMask)]

theorem freeLowerTables_succ (mem : Radix.Store Nat Nat) (below table : Nat) :
    freeLowerTables mem (below + 1) table =
      (List.range (if below + 1 = 4 then 256 else 512)).flatMap (piece mem below table) := rfl

theorem piece_none {m : Radix.Store Nat Nat} (above : 0 < below)
    (upper : Upper level (m q i)) (place : level + below = 3)
    (none_ : target (m q i) = none) : piece m below q i = [] := by
  rw [piece]
  generalize m q i = e at upper none_
  cases upper with
  | empty => exact if_pos (Nat.zero_and _)
  | table frame =>
    rw [target_tableEntry frame] at none_
    cases none_
  | large large =>
    have middle := large.middle
    rw [if_neg large.present, if_pos ⟨by omega, large.large⟩]

theorem piece_some {m : Radix.Store Nat Nat} (above : 0 < below)
    (goes : target (m q i) = some p) :
    piece m below q i = freeLowerTables m below p ++ [.table p] := by
  obtain ⟨present, small⟩ := target_some_bits goes
  have addr : m q i &&& pteAddrMask = p := by
    rw [target, if_neg (by rw [not_or, not_not]; exact ⟨present, small⟩)] at goes
    exact Option.some.inj goes
  rw [piece]
  rw [if_neg present, if_neg fun both => both.2 small, if_pos (by omega), addr]

theorem piece_leaf (m : Radix.Store Nat Nat) :
    piece m 0 q i = if m q i &&& ptePresent = 0 ∨ m q i &&& pteLarge ≠ 0 then []
      else [.leaf (m q i &&& pteAddrMask)] := by
  rw [piece]
  by_cases absent : m q i &&& ptePresent = 0
  · rw [if_pos absent, if_pos (Or.inl absent)]
  · by_cases large : m q i &&& pteLarge ≠ 0
    · rw [if_neg absent, if_pos ⟨by decide, large⟩, if_pos (Or.inr large)]
    · rw [if_neg absent, if_neg fun both => large both.2, if_neg (by decide),
        if_neg (by rw [not_or]; exact ⟨absent, large⟩)]

end Tables

open Tables

theorem owned_step {kernel : Nat} (owned : Radix.Owned (own kernel) r done)
    (place : done.length + (below + 1) = 4) (less : i < if below + 1 = 4 then 256 else 512) :
    Radix.Owned (own kernel) r (done ++ [i]) := by
  intro j rest parts
  cases done with
  | nil =>
    obtain ⟨rfl, -⟩ := List.cons.inj parts
    rw [List.length_nil] at place
    rw [if_pos (by omega)] at less
    exact Or.inr less
  | cons k done =>
    obtain ⟨rfl, -⟩ := List.cons.inj parts
    exact owned k done rfl

/-- Each table below another is given back once, and each is at a place below it. The induction is
on the levels. -/
theorem freed_places (sound : Sound s home) (level : Nat) : ∀ {q done}, home q = some (r, done) →
    done.length + level = 4 → Radix.Owned (own s.kernel) r done →
    (Freed.tables (freeLowerTables s.mem level q)).Nodup ∧
      ∀ p ∈ Freed.tables (freeLowerTables s.mem level q),
        ∃ i rest, home p = some (r, done ++ i :: rest) := by
  induction level with
  | zero =>
    intro q done place sum owned
    exact ⟨List.nodup_nil, fun p mem => absurd mem List.not_mem_nil⟩
  | succ below ih =>
    intro q done place sum owned
    have each : ∀ i ∈ List.range (if below + 1 = 4 then 256 else 512),
        (Freed.tables (piece s.mem below q i)).Nodup ∧
          ∀ p ∈ Freed.tables (piece s.mem below q i), ∃ rest, home p = some (r, done ++ i :: rest) := by
      intro i less
      rw [List.mem_range] at less
      have owned' := owned_step owned sum less
      cases below with
      | zero =>
        rw [piece_leaf]
        split
        · exact ⟨List.nodup_nil, fun p mem => absurd mem List.not_mem_nil⟩
        · exact ⟨List.nodup_nil, fun p mem => absurd mem List.not_mem_nil⟩
      | succ below =>
        have upper := sound.upper q r done i place owned' (by omega)
        cases next : target (s.mem q i) with
        | none =>
          rw [piece_none (Nat.succ_pos below) upper (by omega) next]
          exact ⟨List.nodup_nil, fun p mem => absurd mem List.not_mem_nil⟩
        | some t =>
          have place' := sound.placed q r done i t place owned' (by omega) next
          obtain ⟨nodup, places⟩ := ih place'
            (by rw [List.length_append, List.length_singleton]; omega) owned'
          have last : Freed.tables [.table t] = [t] := rfl
          rw [piece_some (Nat.succ_pos below) next, Freed.tables_append, last]
          constructor
          · rw [List.nodup_append]
            refine ⟨nodup, List.nodup_singleton t, ?_⟩
            intro p mem p' mem'
            rw [List.mem_singleton.mp mem']
            rintro rfl
            obtain ⟨j, rest, deeper⟩ := places p mem
            rw [place', Option.some.injEq, Prod.mk.injEq] at deeper
            exact List.cons_ne_nil _ _ (List.self_eq_append_right.mp deeper.2)
          · intro p mem
            rcases List.mem_append.mp mem with mem | mem
            · obtain ⟨j, rest, deeper⟩ := places p mem
              exact ⟨j :: rest, by rw [deeper, List.append_assoc, List.singleton_append]⟩
            · rw [List.mem_singleton.mp mem]
              exact ⟨[], place'⟩
    rw [freeLowerTables_succ, Freed.tables_flatMap, List.nodup_flatMap]
    refine ⟨⟨fun i mem => (each i mem).1, ?_⟩, ?_⟩
    · apply List.nodup_range.pairwise_of_forall_ne
      intro i mem j mem' apart p here there
      obtain ⟨rest, at_⟩ := (each i mem).2 p here
      obtain ⟨rest', at_'⟩ := (each j mem').2 p there
      rw [at_, Option.some.injEq, Prod.mk.injEq, List.append_cancel_left_eq] at at_'
      exact apart (List.cons.inj at_'.2).1
    · intro p mem
      obtain ⟨i, less, mem⟩ := List.mem_flatMap.mp mem
      obtain ⟨rest, at_⟩ := (each i less).2 p mem
      exact ⟨i, rest, at_⟩

/-- A space given back: the allocator has each of its tables once, and none that is in use. -/
theorem asFreeRoot_sound (sound : Sound s home) (live : home root = some (root, []))
    (other : root ≠ s.kernel) (idle : ∀ cpu, s.active cpu ≠ some root) :
    Sound (s.asFreeRoot root).2 (without home root) := by
  obtain ⟨nodup, places⟩ := freed_places sound 4 live rfl owned_nil
  have tables : Freed.tables (freeLowerTables s.mem 4 root ++ [.table root]) =
      Freed.tables (freeLowerTables s.mem 4 root) ++ [root] := Freed.tables_append ..
  have mine : ∀ p ∈ Freed.tables (freeLowerTables s.mem 4 root ++ [.table root]),
      ∃ pre, home p = some (root, pre) := by
    intro p mem
    rw [tables] at mem
    rcases List.mem_append.mp mem with mem | mem
    · obtain ⟨i, rest, at_⟩ := places p mem
      exact ⟨_, at_⟩
    · rw [List.mem_singleton.mp mem]
      exact ⟨[], live⟩
  rw [asFreeRoot, if_neg (sound.real root _ live).2]
  constructor
  · exact sound.placed.drop fun r => decide (r = root)
  · intro p r pre i place owned less
    exact sound.upper p r pre i (without_some.mp place).1 owned less
  · exact without_some.mpr ⟨sound.kernel, other.symm⟩
  · intro cpu root' active
    refine without_some.mpr ⟨sound.active cpu root' active, ?_⟩
    rintro rfl
    exact idle cpu active
  · intro p r place
    exact sound.root p r (without_some.mp place).1
  · intro p r pre place
    obtain ⟨place, stays⟩ := without_some.mp place
    exact without_some.mpr ⟨sound.tag p r pre place, stays⟩
  · change (Freed.tables _ ++ s.free).Nodup
    rw [List.nodup_append]
    refine ⟨?_, sound.nodup, ?_⟩
    · rw [tables, List.nodup_append]
      refine ⟨nodup, List.nodup_singleton root, ?_⟩
      intro p mem p' mem'
      rw [List.mem_singleton.mp mem']
      rintro rfl
      obtain ⟨i, rest, deeper⟩ := places p mem
      rw [live, Option.some.injEq, Prod.mk.injEq] at deeper
      cases deeper.2
    · rintro p mem p' mem' rfl
      obtain ⟨pre, at_⟩ := mine p mem
      rw [sound.unused p mem'] at at_
      cases at_
  · intro p mem
    rw [Option.eq_none_iff_forall_ne_some]
    intro at_ place
    obtain ⟨place, stays⟩ := without_some.mp place
    rcases List.mem_append.mp mem with mem | mem
    · obtain ⟨pre, mine_⟩ := mine p mem
      rw [mine_, Option.some.injEq] at place
      rw [← place] at stays
      exact stays rfl
    · rw [sound.unused p mem] at place
      cases place
  · intro p mem
    rcases List.mem_append.mp mem with mem | mem
    · obtain ⟨pre, at_⟩ := mine p mem
      exact sound.real p _ at_
    · exact sound.frame p mem
  · intro p at_ place
    exact sound.real p at_ (without_some.mp place).1

/-! ## The pages given back -/

/-- The pages below a table that has so many levels, and which of them a number is. -/
def room : Nat → Nat
  | 0 => 1
  | level + 1 => 512 * room level

def digits : Nat → Nat → List Nat
  | 0, _ => []
  | level + 1, n => n / room level % 512 :: digits level n

theorem room_pos (level : Nat) : 0 < room level := by
  induction level with
  | zero => exact Nat.one_pos
  | succ level ih => exact Nat.mul_pos (by decide) ih

theorem digits_mod (level n : Nat) : digits level (n % room level) = digits level n := by
  suffices more : ∀ level k, room level ∣ k → digits level (n % k) = digits level n from
    more level _ (Nat.dvd_refl _)
  intro level
  induction level with
  | zero =>
    intro k whole
    rfl
  | succ level ih =>
    intro k whole
    have part : room level ∣ k := Nat.dvd_trans (Nat.dvd_mul_left ..) whole
    rw [digits, digits, ih k part]
    obtain ⟨m, rfl⟩ := whole
    have inner : n % (room (level + 1) * m) / room level = n / room level % (512 * m) := by
      rw [room, Nat.mul_comm 512, Nat.mul_assoc, Nat.mod_mul_right_div_self]
    rw [inner, Nat.mod_mul_right_mod]

/-- One list after another, each as long, is one list. -/
theorem flatMap_range {α : Type} {n : Nat} (pos : 0 < n) (g : Nat → Nat → Option α) (c : Nat) :
    (List.range c).flatMap (fun i => (List.range n).filterMap (g i)) =
      (List.range (c * n)).filterMap fun k => g (k / n) (k % n) := by
  induction c with
  | zero => rw [Nat.zero_mul]; rfl
  | succ c ih =>
    rw [List.range_succ, List.flatMap_append, ih, List.flatMap_singleton, Nat.add_mul, Nat.one_mul,
      List.range_add, List.filterMap_append, List.filterMap_map]
    congr 1
    apply List.filterMap_congr
    intro k mem
    have less := List.mem_range.mp mem
    rw [Function.comp_apply, Nat.add_comm, Nat.add_mul_div_right _ _ pos, Nat.div_eq_of_lt less,
      Nat.zero_add, Nat.add_mul_mod_self_right, Nat.mod_eq_of_lt less]

/-- The pages that are given back, in order. -/
def Tables.Freed.leaves : List Freed → List Nat
  | [] => []
  | .table _ :: rest => leaves rest
  | .leaf p :: rest => p :: leaves rest

theorem leaves_append (l l' : List Freed) :
    Freed.leaves (l ++ l') = Freed.leaves l ++ Freed.leaves l' := by
  induction l with
  | nil => rfl
  | cons f l ih =>
    cases f with
    | table p => exact ih
    | leaf p => exact congrArg (p :: ·) ih

theorem leaves_flatMap {α : Type} (f : α → List Freed) (l : List α) :
    Freed.leaves (l.flatMap f) = l.flatMap fun a => Freed.leaves (f a) := by
  induction l with
  | nil => rfl
  | cons a l ih => rw [List.flatMap_cons, leaves_append, ih, List.flatMap_cons]

/-- The page at the end of a walk that is given back. -/
def leafOf (level : Nat) (words : List Nat) : Option Nat :=
  if words.length = level ∧ words.getLastD 0 &&& ptePresent ≠ 0 ∧
      words.getLastD 0 &&& pteLarge = 0 then
    some (words.getLastD 0 &&& pteAddrMask)
  else none

theorem leafOf_cons (above : 0 < below) (words : List Nat) :
    leafOf (below + 1) (w :: words) = leafOf below words := by
  cases words with
  | nil =>
    rw [leafOf, if_neg fun all => absurd all.1 (by rw [List.length_singleton]; omega), leafOf,
      if_neg fun all => absurd all.1 (by rw [List.length_nil]; omega)]
  | cons w' words =>
    have same : (w :: w' :: words).length = below + 1 ↔ (w' :: words).length = below :=
      Nat.succ_inj
    exact if_congr (and_congr same Iff.rfl) rfl rfl

theorem filterMap_one {α β : Type} (f : α → Option β) (a : α) :
    [a].filterMap f = (f a).toList := by
  rw [List.filterMap_cons]
  cases f a with
  | none => rfl
  | some b => rfl

/-- The pages given back are those that are mapped, by their addresses. The induction is on the
levels. -/
theorem freed_leaves (sound : Sound s home) (level : Nat) : ∀ {q done}, home q = some (r, done) →
    done.length + level = 4 → Radix.Owned (own s.kernel) r done →
    Freed.leaves (freeLowerTables s.mem level q) =
      (List.range (if level = 4 then 256 * room 3 else room level)).filterMap fun n =>
        leafOf level (Radix.walk target s.mem q (digits level n)) := by
  induction level with
  | zero =>
    intro q done place sum owned
    have none_ : leafOf 0 [] = none := if_neg fun all => all.2.1 (Nat.zero_and _)
    change [] = List.filterMap (fun _ => leafOf 0 []) [0]
    rw [filterMap_one, none_]
    rfl
  | succ below ih =>
    intro q done place sum owned
    have count : (if below + 1 = 4 then 256 * room 3 else room (below + 1)) =
        (if below + 1 = 4 then 256 else 512) * room below := by
      by_cases top : below + 1 = 4
      · rw [if_pos top, if_pos top, show below = 3 by omega]
      · rw [if_neg top, if_neg top, room]
    have each : ∀ i ∈ List.range (if below + 1 = 4 then 256 else 512),
        Freed.leaves (piece s.mem below q i) = (List.range (room below)).filterMap fun n =>
          leafOf (below + 1) (Radix.walk target s.mem q (i :: digits below n)) := by
      intro i less
      rw [List.mem_range] at less
      have owned' := owned_step owned sum less
      cases below with
      | zero =>
        have walked : ∀ n, Radix.walk target s.mem q (i :: digits 0 n) = [s.mem q i] := by
          intro n
          rw [digits, Radix.walk]
          cases target (s.mem q i) with
          | none => rfl
          | some t => rfl
        rw [piece_leaf, show List.range (room 0) = [0] from rfl]
        by_cases skipped : s.mem q i &&& ptePresent = 0 ∨ s.mem q i &&& pteLarge ≠ 0
        · have none_ : leafOf (0 + 1) (Radix.walk target s.mem q (i :: digits 0 0)) = none := by
            rw [walked]
            exact if_neg fun all => skipped.elim all.2.1 fun large => large all.2.2
          rw [if_pos skipped, filterMap_one, none_]
          rfl
        · have some_ : leafOf (0 + 1) (Radix.walk target s.mem q (i :: digits 0 0)) =
              some (s.mem q i &&& pteAddrMask) := by
            rw [walked]
            rw [not_or, not_not] at skipped
            exact if_pos ⟨rfl, skipped⟩
          rw [if_neg skipped, filterMap_one, some_]
          rfl
      | succ below =>
        have upper := sound.upper q r done i place owned' (by omega)
        cases next : target (s.mem q i) with
        | none =>
          rw [piece_none (Nat.succ_pos below) upper (by omega) next]
          refine (List.filterMap_eq_nil_iff.mpr fun n mem => ?_).symm
          rw [Radix.walk, next]
          exact if_neg fun all => absurd all.1 (by rw [List.length_singleton]; omega)
        | some t =>
          have place' := sound.placed q r done i t place owned' (by omega) next
          have below_ := ih place' (by rw [List.length_append, List.length_singleton]; omega) owned'
          rw [if_neg (by omega)] at below_
          rw [piece_some (Nat.succ_pos below) next, leaves_append, below_,
            show Freed.leaves [.table t] = [] from rfl, List.append_nil]
          apply List.filterMap_congr
          intro n mem
          rw [Radix.walk, next]
          exact (leafOf_cons (Nat.succ_pos below) _).symm
    rw [freeLowerTables_succ, leaves_flatMap, count, List.flatMap_congr each,
      flatMap_range (room_pos below) fun i n =>
        leafOf (below + 1) (Radix.walk target s.mem q (i :: digits below n))]
    apply List.filterMap_congr
    intro n mem
    have less : n / room below < 512 := by
      have within := (Nat.div_lt_iff_lt_mul (room_pos below)).mpr (List.mem_range.mp mem)
      refine Nat.lt_of_lt_of_le within ?_
      split
      · decide
      · decide
    rw [digits_mod, digits, Nat.mod_eq_of_lt less]

/-- The page that a cell has, where it is one to give back: it is not part of a larger one, and not
write-combined. -/
def Cell.givenBack (coarse : Bool) : Cell → Option Nat
  | .mapped m => if coarse = true ∨ 4 ≤ m.kind then none else some m.addr
  | _ => none

theorem digits_path {n : Nat} (less : n < userLimit / pageSize) :
    digits 4 n = path (n * pageSize) := by
  change n < 0x800000000 at less
  have first : n / room 3 % 512 = i4 (n * pageSize) := by
    rw [i4_eq]
    change n / 0x8000000 % 512 = n * 0x1000 / 0x8000000000 % 512
    omega
  have second : n / room 2 % 512 = i3 (n * pageSize) := by
    rw [i3_eq]
    change n / 0x40000 % 512 = n * 0x1000 / 0x40000000 % 512
    omega
  have third : n / room 1 % 512 = i2 (n * pageSize) := by
    rw [i2_eq]
    change n / 0x200 % 512 = n * 0x1000 / 0x200000 % 512
    omega
  have last : n / room 0 % 512 = i1 (n * pageSize) := by
    rw [i1_eq]
    change n / 1 % 512 = n * 0x1000 / 0x1000 % 512
    omega
  rw [path, ← first, ← second, ← third, ← last]
  rfl

theorem walk_length_le {m : Radix.Store Nat Nat} (way : List Nat) :
    (Radix.walk target m q way).length ≤ way.length := by
  induction way generalizing q with
  | nil => exact Nat.le_refl 0
  | cons i rest ih =>
    rw [Radix.walk]
    cases target (m q i) with
    | none => exact Nat.succ_le_succ (Nat.zero_le _)
    | some t => exact Nat.succ_le_succ ih

theorem leafOf_view {n : Nat} (less : n < userLimit / pageSize) :
    leafOf 4 (Radix.walk target s.mem root (digits 4 n)) =
      (s.view root (n * pageSize)).givenBack (decide (s.Coarse root (n * pageSize))) := by
  rw [digits_path less]
  have long := @walk_length_le root s.mem (path (n * pageSize))
  rw [path_length] at long
  obtain ⟨words, same⟩ : ∃ words, words = Radix.walk target s.mem root (path (n * pageSize)) :=
    ⟨_, rfl⟩
  have coarse : s.Coarse root (n * pageSize) ↔
      words.length < 4 ∧ words.getLastD 0 &&& ptePresent ≠ 0 := by
    rw [same]
    rfl
  rw [Tables.view, ← same, leafOf]
  rw [← same] at long
  by_cases present : words.getLastD 0 &&& ptePresent ≠ 0
  · rw [cell, if_pos present]
    by_cases whole : words.length = 4
    · have kind := kind_combined words (n * pageSize)
      rw [if_pos whole] at kind
      by_cases large : words.getLastD 0 &&& pteLarge = 0
      · rw [if_pos ⟨whole, present, large⟩]
        refine Eq.symm ((if_neg ?_).trans ?_)
        · rw [decide_eq_true_eq, coarse]
          rintro (part | combined)
          · omega
          · exact kind.mp combined large
        · rw [mapping, whole]
          change some (_ / pageSize * pageSize + n * pageSize % pageSize) = _
          rw [Nat.div_mul_cancel (Nat.dvd_of_mod_eq_zero (mask_low _)), Nat.mul_mod_left,
            Nat.add_zero]
      · rw [if_neg fun all => large all.2.2]
        exact (if_pos (Or.inr (kind.mpr large))).symm
    · rw [if_neg fun all => whole all.1]
      exact (if_pos (Or.inl (decide_eq_true (coarse.mpr ⟨by omega, present⟩)))).symm
  · rw [if_neg fun all => present all.2.1, cell, if_neg present]
    split
    · rfl
    · rfl

/-- The pages given back with a space: every page that is mapped in it, once for each address, but
for those that are part of a larger page or write-combined. -/
theorem asFreeRoot_given (sound : Sound s home) (live : home root = some (root, [])) :
    Freed.leaves (s.asFreeRoot root).1 = (List.range (userLimit / pageSize)).filterMap fun n =>
      (s.view root (n * pageSize)).givenBack (decide (s.Coarse root (n * pageSize))) := by
  have count : (if 4 = 4 then 256 * room 3 else room 4) = userLimit / pageSize := by decide
  have leaves := freed_leaves sound 4 live rfl owned_nil
  rw [asFreeRoot, if_neg (sound.real root _ live).2, leaves_append, leaves, count,
    show Freed.leaves [.table root] = [] from rfl, List.append_nil]
  apply List.filterMap_congr
  intro n mem
  exact leafOf_view (List.mem_range.mp mem)

end ReconOS.Vm
