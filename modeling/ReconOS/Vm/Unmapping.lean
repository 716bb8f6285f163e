import ReconOS.Vm.Mapping

/-! `vm_unmap`, `vm_lookup`, and the pages that are swapped out. -/
namespace ReconOS.Vm

open ReconOS.Lib

variable {s s' : Tables} {home home' : Homes} {caps : Caps} {flags : Flags}
  {p r root i w cpu v va pa size level : Nat} {pre rest words : List Nat}

def Cell.unmapped : Cell → Cell
  | .mapped _ => .absent
  | found => found

/-! ## What is there -/

theorem set_self (m : Radix.Store Nat Nat) (p i : Nat) : m.set p i (m p i) = m := by
  funext p' i'
  unfold Radix.Store.set
  split
  · rename_i same
    rw [same.1, same.2]
  · rfl

/-- An entry that decides is what all the addresses of its page have. -/
theorem Slot.view (slot : Slot s home root va level p i)
    (ends : level = 3 ∨ target (s.mem p i) = none) (upper : level < 3 → Upper level (s.mem p i))
    (covers : Covers s.kernel root v) (here : v / span (level + 1) = va / span (level + 1)) :
    s.view root v = cell (Radix.walk target s.mem root ((path va).take level) ++ [s.mem p i]) v := by
  have same : s.setEntry p i (s.mem p i) = s := by
    rw [Tables.setEntry, set_self]
  have set := (slot.setEntry ends upper).view root v slot.start covers
  rw [same, if_pos ⟨rfl, here⟩] at set
  exact set

theorem Slot.upper (slot : Slot s home root va level p i) (above : level < 3) :
    Upper level (s.mem p i) := by
  have front : Radix.Owned (own s.kernel) root ((path va).take level) := by
    intro j later parts
    exact slot.owned j (later ++ [i]) (by rw [parts, List.cons_append])
  have here := Radix.reach_place slot.sound.placed slot.start front
    (by rw [slot.length]; omega) slot.goes
  have upper := slot.sound.upper p root _ i here slot.owned (by rwa [slot.length])
  rwa [slot.length] at upper

/-- Where a table above the last points at nothing, nothing is seen. -/
theorem empty_view (goes : Radix.reach target s.mem root ((path va).take level) = some p)
    (index : (path va).take level ++ [i] = (path va).take (level + 1))
    (empty : s.mem p i = 0) (same : path v = path va) : s.view root v = .absent := by
  have whole : path va = (path va).take level ++ i :: (path va).drop (level + 1) := by
    rw [← List.singleton_append, ← List.append_assoc, index, List.take_append_drop]
  have found : Radix.walk target s.mem root
      ((path va).take level ++ i :: (path va).drop (level + 1)) = _ := Radix.walk_append goes
  rw [← whole, ← same, Radix.walk, empty, target_zero] at found
  rw [Tables.view, found]
  exact cell_zero _

theorem target_some_bits {q : Nat} (goes : target w = some q) :
    w &&& ptePresent ≠ 0 ∧ w &&& pteLarge = 0 := by
  rw [target] at goes
  split at goes
  · cases goes
  · rename_i table
    rw [not_or, not_not] at table
    exact table

/-- How far the tables go for an address, and what they end in. -/
inductive Found (s : Tables) (home : Homes) (root va : Nat) : Prop where
  | no4 (none4 : target (s.mem root (i4 va)) = none)
      (absent : ∀ v, path v = path va → s.view root v = .absent)
  | giga {pdpt : Nat} (next4 : target (s.mem root (i4 va)) = some pdpt)
      (slot : Slot s home root va 1 pdpt (i3 va)) (large : Large 1 (s.mem pdpt (i3 va)))
  | no3 {pdpt : Nat} (next4 : target (s.mem root (i4 va)) = some pdpt)
      (empty : s.mem pdpt (i3 va) = 0) (absent : ∀ v, path v = path va → s.view root v = .absent)
  | mega {pdpt pd : Nat} (next4 : target (s.mem root (i4 va)) = some pdpt)
      (next3 : target (s.mem pdpt (i3 va)) = some pd)
      (slot : Slot s home root va 2 pd (i2 va)) (large : Large 2 (s.mem pd (i2 va)))
  | no2 {pdpt pd : Nat} (next4 : target (s.mem root (i4 va)) = some pdpt)
      (next3 : target (s.mem pdpt (i3 va)) = some pd)
      (empty : s.mem pd (i2 va) = 0) (absent : ∀ v, path v = path va → s.view root v = .absent)
  | page {pdpt pd pt : Nat} (next4 : target (s.mem root (i4 va)) = some pdpt)
      (next3 : target (s.mem pdpt (i3 va)) = some pd) (next2 : target (s.mem pd (i2 va)) = some pt)
      (slot : Slot s home root va 3 pt (i1 va))

theorem reach_next {q : Nat} (goes : Radix.reach target s.mem root pre = some p)
    (next : target (s.mem p i) = some q) (index : pre ++ [i] = rest) :
    Radix.reach target s.mem root rest = some q := by
  rw [← index, Radix.reach_append goes, Radix.reach, next]
  rfl

theorem found (sound : Sound s home) (start : home root = some (root, []))
    (covers : Covers s.kernel root va) : Found s home root va := by
  have goes0 : Radix.reach target s.mem root ((path va).take 0) = some root := rfl
  have owned : Radix.Owned (own s.kernel) root ([] ++ [i4 va]) := by
    intro j later parts
    obtain ⟨rfl, -⟩ := List.cons.inj parts
    exact covers.owned (i4 va) _ rfl
  have upper0 := sound.upper root root [] (i4 va) start owned (by decide)
  generalize holds0 : s.mem root (i4 va) = w at upper0
  cases upper0 with
  | large large => exact absurd large.middle (by decide)
  | empty =>
    exact Found.no4 (by rw [holds0]; rfl) fun v same => empty_view goes0 rfl holds0 same
  | @table pdpt frame =>
    have next4 : target (s.mem root (i4 va)) = some pdpt := by
      rw [holds0, target_tableEntry frame]
    have goes1 := reach_next goes0 next4 (show _ = (path va).take 1 from rfl)
    have slot1 : Slot s home root va 1 pdpt (i3 va) :=
      ⟨sound, start, covers, Or.inl rfl, goes1, rfl⟩
    have upper1 := slot1.upper (by decide)
    generalize holds1 : s.mem pdpt (i3 va) = w at upper1
    cases upper1 with
    | large large => exact Found.giga next4 slot1 (holds1 ▸ large)
    | empty => exact Found.no3 next4 holds1 fun v same => empty_view goes1 rfl holds1 same
    | @table pd frame =>
      have next3 : target (s.mem pdpt (i3 va)) = some pd := by
        rw [holds1, target_tableEntry frame]
      have goes2 := reach_next goes1 next3 (show _ = (path va).take 2 from rfl)
      have slot2 : Slot s home root va 2 pd (i2 va) :=
        ⟨sound, start, covers, Or.inr (Or.inl rfl), goes2, rfl⟩
      have upper2 := slot2.upper (by decide)
      generalize holds2 : s.mem pd (i2 va) = w at upper2
      cases upper2 with
      | large large => exact Found.mega next4 next3 slot2 (holds2 ▸ large)
      | empty => exact Found.no2 next4 next3 holds2 fun v same => empty_view goes2 rfl holds2 same
      | @table pt frame =>
        have next2 : target (s.mem pd (i2 va)) = some pt := by
          rw [holds2, target_tableEntry frame]
        have goes3 := reach_next goes2 next2 (show _ = (path va).take 3 from rfl)
        exact Found.page next4 next3 next2 ⟨sound, start, covers, Or.inr (Or.inr rfl), goes3, rfl⟩

/-! ## `vm_unmap` -/

theorem path_congr (canonical : Canonical v) (canonical' : Canonical va)
    (same : v / pageSize = va / pageSize) : path v = path va := by
  obtain ⟨a, b, c, d⟩ := (page_eq canonical canonical').mpr same
  rw [path, path, a, b, c, d]

/-- A page with nothing in it is as it would be after it was unmapped. -/
theorem unmapped_nothing (sound : Sound s home)
    (same : ∀ v, Covers s.kernel root v → v / pageSize = va / pageSize →
      (s.view root v).unmapped = s.view root v) :
    Becomes s home s home fun root' v =>
      if root' = root ∧ v / pageSize = va / pageSize then (s.view root' v).unmapped
      else s.view root' v := by
  refine (Becomes.refl sound).congr ?_
  intro root' v place covers
  split
  · rename_i here
    obtain ⟨rfl, here⟩ := here
    exact (same v covers here).symm
  · rfl

theorem unmapped_absent (sound : Sound s home) (canonical : Canonical va)
    (absent : ∀ v, path v = path va → s.view root v = .absent) :
    Becomes s home s home fun root' v =>
      if root' = root ∧ v / pageSize = va / pageSize then (s.view root' v).unmapped
      else s.view root' v := by
  apply unmapped_nothing sound
  intro v covers here
  rw [absent v (path_congr covers.canonical canonical here)]
  rfl

/-- An entry of a page that is mapped, made nothing. -/
theorem Slot.unmap (slot : Slot s home root va level p i)
    (ends : level = 3 ∨ target (s.mem p i) = none) (present : s.mem p i &&& ptePresent ≠ 0) :
    Becomes s home (s.setEntry p i 0) home fun root' v =>
      if root' = root ∧ v / span (level + 1) = va / span (level + 1) then
        (s.view root' v).unmapped
      else s.view root' v := by
  refine (slot.setEntry (Or.inr target_zero) fun _ => Upper.empty).congr ?_
  intro root' v place covers
  split
  · rename_i here
    obtain ⟨rfl, same⟩ := here
    rw [slot.view ends slot.upper covers same, cell_zero, cell, List.getLastD_concat,
      if_pos present]
    rfl
  · rfl

theorem unmapTurn_becomes (sound : Sound s home) (canonical : Canonical va)
    (aligned : va % pageSize = 0) (some_ : pageSize ≤ size) :
    (∃ n s', s.unmapTurn cpu va size = (some n, s') ∧ n ≤ size ∧ n % pageSize = 0 ∧ 0 < n ∧
      va % n = 0 ∧
      Becomes s home s' home fun root v =>
        if root = s.rootFor cpu va ∧ v / n = va / n then (s.view root v).unmapped
        else s.view root v) ∨
    s.unmapTurn cpu va size = (none, s) ∧ s.Coarse (s.rootFor cpu va) va := by
  have start := @rootFor_start s home cpu va sound
  have covers := @rootFor_covers s cpu va canonical
  rw [Tables.unmapTurn]
  generalize s.rootFor cpu va = root at start covers ⊢
  rw [nextLevel_find]
  cases found sound start covers with
  | no4 none4 absent =>
    rw [none4]
    exact Or.inl ⟨pageSize, s, rfl, some_, rfl, by decide, aligned,
      unmapped_absent sound canonical absent⟩
  | giga next4 slot large =>
    rw [next4]
    dsimp only
    rw [if_pos ⟨large.present, large.large⟩]
    split
    · exact Or.inr ⟨rfl, slot.coarse large⟩
    · rename_i whole
      rw [not_or, Nat.not_lt, not_not, low1g] at whole
      have ends : target (s.mem _ _) = none := if_pos (Or.inr large.large)
      exact Or.inl ⟨size1g, _, rfl, whole.1, by decide, by decide, whole.2,
        slot.unmap (Or.inr ends) large.present⟩
  | no3 next4 empty absent =>
    rw [next4]
    dsimp only
    rw [if_neg (by rw [empty]; decide), nextLevel_find, empty]
    exact Or.inl ⟨pageSize, s, rfl, some_, rfl, by decide, aligned,
      unmapped_absent sound canonical absent⟩
  | mega next4 next3 slot large =>
    rw [next4]
    dsimp only
    rw [if_neg fun both => both.2 (target_some_bits next3).2, nextLevel_find, next3]
    dsimp only
    rw [if_pos ⟨large.present, large.large⟩]
    split
    · exact Or.inr ⟨rfl, slot.coarse large⟩
    · rename_i whole
      rw [not_or, Nat.not_lt, not_not, low2m] at whole
      have ends : target (s.mem _ _) = none := if_pos (Or.inr large.large)
      exact Or.inl ⟨size2m, _, rfl, whole.1, by decide, by decide, whole.2,
        slot.unmap (Or.inr ends) large.present⟩
  | no2 next4 next3 empty absent =>
    rw [next4]
    dsimp only
    rw [if_neg fun both => both.2 (target_some_bits next3).2, nextLevel_find, next3]
    dsimp only
    rw [if_neg (by rw [empty]; decide), nextLevel_find, empty]
    exact Or.inl ⟨pageSize, s, rfl, some_, rfl, by decide, aligned,
      unmapped_absent sound canonical absent⟩
  | page next4 next3 next2 slot =>
    rw [next4]
    dsimp only
    rw [if_neg fun both => both.2 (target_some_bits next3).2, nextLevel_find, next3]
    dsimp only
    rw [if_neg fun both => both.2 (target_some_bits next2).2, nextLevel_find, next2]
    dsimp only
    split
    · rename_i present
      exact Or.inl ⟨pageSize, _, rfl, some_, rfl, by decide, aligned,
        slot.unmap (Or.inl rfl) present⟩
    · rename_i absent
      refine Or.inl ⟨pageSize, s, rfl, some_, rfl, by decide, aligned, unmapped_nothing sound ?_⟩
      intro v covers here
      rw [slot.view (Or.inl rfl) slot.upper covers here, cell, List.getLastD_concat,
        if_neg absent]
      split
      · rfl
      · rfl

/-- What the loop has unmapped when it ends. -/
def Unmapped (s : Tables) (r va done root v : Nat) : Cell :=
  if root = r ∧ va ≤ v ∧ v < va + done then (s.view root v).unmapped else s.view root v

theorem unmapped_none (sound : Sound s home) : Becomes s home s home (Unmapped s r va 0) := by
  refine (Becomes.refl sound).congr ?_
  intro root v place covers
  exact (if_neg fun within => by omega).symm

theorem unmapped_more {n done : Nat} (some_ : 0 < n) (aligned : va % n = 0)
    (one : Becomes s home s' home' fun root v =>
      if root = r ∧ v / n = va / n then (s.view root v).unmapped else s.view root v)
    {s'' : Tables} {home'' : Homes}
    (more : Becomes s' home' s'' home'' (Unmapped s' r (va + n) done)) :
    Becomes s home s'' home'' (Unmapped s r va (n + done)) := by
  refine (one.trans more).congr ?_
  intro root v place covers
  have block := @block_iff v va n some_ aligned
  unfold Unmapped
  rw [one.view root v place covers]
  by_cases now : root = r ∧ v / n = va / n
  · rw [if_pos now, if_neg (by rw [block] at now; omega), if_pos (by rw [block] at now; omega)]
  · rw [if_neg now]
    by_cases later : root = r ∧ va + n ≤ v ∧ v < va + n + done
    · rw [if_pos later, if_pos (by omega)]
    · rw [if_neg later, if_neg (by rw [block] at now; omega)]

theorem unmapLoop_becomes (cpu turns : Nat) :
    ∀ {s home va size}, Sound s home → Range va size → size ≤ turns * pageSize →
      va % pageSize = 0 → size % pageSize = 0 →
      ∃ ok s' done, Tables.unmapLoop cpu turns s va size = (ok, s') ∧ done ≤ size ∧
        done % pageSize = 0 ∧ (ok = true → done = size) ∧
        (ok = false → done < size ∧ s'.Coarse (s.rootFor cpu va) (va + done)) ∧
        Becomes s home s' home (Unmapped s (s.rootFor cpu va) va done) := by
  induction turns with
  | zero =>
    intro s home va size sound range few aligned whole
    refine ⟨true, s, 0, rfl, Nat.zero_le _, rfl, ?_, ?_, unmapped_none sound⟩
    · intro all
      rw [Nat.zero_mul] at few
      exact (Nat.le_zero.mp few).symm
    · intro none_
      cases none_
  | succ turns ih =>
    intro s home va size sound range few aligned whole
    rw [Tables.unmapLoop]
    by_cases none_ : size = 0
    · rw [if_pos none_]
      refine ⟨true, s, 0, rfl, Nat.zero_le _, rfl, fun all => none_.symm, ?_, unmapped_none sound⟩
      intro stopped
      cases stopped
    rw [if_neg none_]
    have some_ : pageSize ≤ size := by
      unfold pageSize at whole ⊢
      omega
    have canonical := range.canonical (Nat.pos_of_ne_zero none_)
    rcases @unmapTurn_becomes s home cpu va size sound canonical aligned some_ with
      ⟨n, s₁, turn, less, page, pos, start, one⟩ | ⟨turn, why⟩
    · rw [turn]
      dsimp only
      have fewer : size - n ≤ turns * pageSize := by
        rw [Nat.add_mul] at few
        unfold pageSize at page few ⊢
        omega
      obtain ⟨ok, s₂, done, rest, most, page', all, stops, more⟩ := @ih s₁ home (va + n) (size - n)
        one.sound (range.later less) fewer (by unfold pageSize at *; omega)
        (by unfold pageSize at *; omega)
      have root : Becomes s₁ home s₂ home (Unmapped s₁ (s.rootFor cpu va) (va + n) done) ∧
          (ok = false → s₁.rootFor cpu (va + n) = s.rootFor cpu va) := by
        by_cases last : n < size
        · have same := (@Becomes.rootFor s s₁ home home cpu (va + n) _ one).trans
            (range.rootFor last)
          rw [same] at more
          exact ⟨more, fun _ => same⟩
        · constructor
          · refine more.congr ?_
            intro root v place covers
            unfold Unmapped
            rw [if_neg (by omega), if_neg (by omega)]
          · intro stopped
            have := (stops stopped).1
            omega
      refine ⟨ok, s₂, n + done, rest, by omega, by unfold pageSize at *; omega, ?_, ?_,
        unmapped_more pos start one root.1⟩
      · intro whole'
        have := all whole'
        omega
      · intro stopped
        obtain ⟨short, why⟩ := stops stopped
        rw [root.2 stopped, Nat.add_assoc] at why
        exact ⟨by omega, why⟩
    · rw [turn]
      refine ⟨false, s, 0, rfl, Nat.zero_le _, rfl, ?_, ?_, unmapped_none sound⟩
      · intro all
        cases all
      · intro stopped
        exact ⟨Nat.pos_of_ne_zero none_, why⟩

theorem vmUnmap_unmapped (sound : Sound s home) (range : Range va size) {ok : Bool}
    (runs : s.vmUnmap cpu va size = some (ok, s')) :
    ∃ done, done ≤ size ∧ done % pageSize = 0 ∧ (ok = true → done = size) ∧
      (ok = false → done < size ∧ s'.Coarse (s.rootFor cpu va) (va + done)) ∧
      Becomes s home s' home (Unmapped s (s.rootFor cpu va) va done) := by
  rw [Tables.vmUnmap] at runs
  split at runs
  · cases runs
  · rename_i aligned
    rw [ne_eq, not_not] at aligned
    have parts := (or_low 12).mp aligned
    have turns : size ≤ size / pageSize * pageSize :=
      Nat.le_of_eq (Nat.div_mul_cancel (Nat.dvd_of_mod_eq_zero parts.2)).symm
    obtain ⟨ok', s₁, done, run, most, page, all, stops, becomes⟩ := unmapLoop_becomes cpu _ sound range
      turns parts.1 parts.2
    rw [run, Option.some.injEq, Prod.mk.injEq] at runs
    obtain ⟨rfl, rfl⟩ := runs
    exact ⟨done, most, page, all, stops, becomes⟩

end ReconOS.Vm
