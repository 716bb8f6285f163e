import ReconOS.Vm.Unmapping

/-! `vm_lookup`, and the entries that name a swap slot. -/
namespace ReconOS.Vm

open ReconOS.Lib

variable {s s' : Tables} {home home' : Homes} {p root i w cpu v va level slot : Nat}

instance (s : Tables) (root va : Nat) : Decidable (s.Coarse root va) :=
  inferInstanceAs (Decidable (_ ∧ _))

/-! ## `vm_lookup` -/

/-- What the lookup says of a page that is so many bytes: in the entry of a large page, the bit of
the attribute table is read as one of the address. -/
def Mapping.lookedUp (m : Mapping) (coarse : Bool) : Nat :=
  m.addr + (if coarse = true ∧ 4 ≤ m.kind then ptePatLarge else 0)

theorem cell_present {words : List Nat} (present : w &&& ptePresent ≠ 0) :
    cell (words ++ [w]) v = .mapped (mapping (words ++ [w]) v) := by
  rw [cell, List.getLastD_concat, if_pos present]

theorem kind_combined (words : List Nat) (va : Nat) : 4 ≤ (mapping words va).kind ↔
    words.getLastD 0 &&& (if words.length = 4 then ptePatSmall else ptePatLarge) ≠ 0 := by
  have pcd : (if words.getLastD 0 &&& ptePcd ≠ 0 then 2 else 0) ≤ 2 := by
    split
    · exact Nat.le_refl 2
    · exact Nat.zero_le 2
  have pwt : (if words.getLastD 0 &&& ptePwt ≠ 0 then 1 else 0) ≤ 1 := by
    split
    · exact Nat.le_refl 1
    · exact Nat.zero_le 1
  rw [mapping]
  dsimp only
  generalize (if words.getLastD 0 &&& ptePcd ≠ 0 then 2 else 0) = a at pcd ⊢
  generalize (if words.getLastD 0 &&& ptePwt ≠ 0 then 1 else 0) = b at pwt ⊢
  generalize (if words.length = 4 then ptePatSmall else ptePatLarge) = pat
  by_cases combined : words.getLastD 0 &&& pat ≠ 0
  · rw [if_pos combined]
    exact ⟨fun _ => combined, fun _ => by omega⟩
  · rw [if_neg combined]
    exact ⟨fun kind => by omega, fun bit => absurd bit combined⟩

theorem Large.lookedUp (large : Large level w) {words : List Nat} (long : words.length = level) :
    (mapping (words ++ [w]) va).lookedUp true = (w &&& pteAddrMask) + va % span (level + 1) := by
  obtain ⟨pa, aligned, small, addr⟩ := large.addr
  have middle := large.middle
  have wide : ptePatLarge < span (level + 1) := by
    rcases middle with rfl | rfl
    · decide
    · decide
  have low : (pa + (if w &&& ptePatLarge ≠ 0 then ptePatLarge else 0)) / span (level + 1) *
      span (level + 1) = pa := by
    have pos : 0 < span (level + 1) := Nat.zero_lt_of_lt wide
    have whole := Nat.div_add_mod pa (span (level + 1))
    rw [aligned, Nat.add_zero] at whole
    have less : (if w &&& ptePatLarge ≠ 0 then ptePatLarge else 0) < span (level + 1) := by
      split
      · exact wide
      · exact pos
    have same := (@block_iff (pa + _) pa _ pos aligned).mpr
      ⟨Nat.le_add_right _ _, Nat.add_lt_add_left less pa⟩
    rw [same, Nat.mul_comm, whole]
  have found : (mapping (words ++ [w]) va).addr = pa + va % span (level + 1) := by
    rw [mapping, List.getLastD_concat, List.length_append, List.length_singleton, long, addr, low]
  have kind := kind_combined (words ++ [w]) va
  rw [List.getLastD_concat, List.length_append, List.length_singleton, long, if_neg (by omega)]
    at kind
  rw [Mapping.lookedUp, found, addr]
  by_cases combined : w &&& ptePatLarge ≠ 0
  · rw [if_pos combined, if_pos ⟨rfl, kind.mpr combined⟩]
    omega
  · rw [if_neg combined, if_neg fun both => combined (kind.mp both.2)]
    omega

/-- What a lookup says of a cell. -/
def Cell.lookedUp (coarse : Bool) : Cell → Nat
  | .mapped m => m.lookedUp coarse
  | _ => 0

theorem Slot.whole (slot : Slot s home root va level p i)
    (ends : level = 3 ∨ target (s.mem p i) = none) :
    Radix.walk target s.mem root (path va) =
      Radix.walk target s.mem root ((path va).take level) ++ [s.mem p i] := by
  have whole : path va = (path va).take level ++ i :: (path va).drop (level + 1) := by
    rw [← List.singleton_append, ← List.append_assoc, slot.index, List.take_append_drop]
  have found : Radix.walk target s.mem root
      ((path va).take level ++ i :: (path va).drop (level + 1)) = _ := Radix.walk_append slot.goes
  rw [← whole] at found
  rw [found]
  cases ends with
  | inl last =>
    rw [last, Radix.walk]
    cases target (s.mem p i) with
    | none => rfl
    | some q => rfl
  | inr none_ => rw [Radix.walk, none_]

/-- The lookup finds what the processor would, but for a large page that is write-combined: there it
is a page further on. -/
theorem vmLookup_view (sound : Sound s home) (canonical : Canonical va) :
    s.vmLookup cpu va =
      (s.view (s.rootFor cpu va) va).lookedUp (decide (s.Coarse (s.rootFor cpu va) va)) := by
  have start := @rootFor_start s home cpu va sound
  have covers := @rootFor_covers s cpu va canonical
  rw [Tables.vmLookup]
  generalize s.rootFor cpu va = root at start covers ⊢
  rw [nextLevel_find]
  cases found sound start covers with
  | no4 none4 absent =>
    rw [none4, absent va rfl]
    rfl
  | giga next4 slot large =>
    have ends : target (s.mem _ _) = none := if_pos (Or.inr large.large)
    rw [next4, Tables.view, slot.whole (Or.inr ends), cell_present large.present,
      decide_eq_true (slot.coarse large)]
    dsimp only
    rw [if_pos large.large, low1g]
    exact (large.lookedUp slot.tables.1).symm
  | no3 next4 empty absent =>
    rw [next4, absent va rfl]
    dsimp only
    rw [if_neg (by rw [empty]; decide), nextLevel_find, empty]
    rfl
  | mega next4 next3 slot large =>
    have ends : target (s.mem _ _) = none := if_pos (Or.inr large.large)
    rw [next4, Tables.view, slot.whole (Or.inr ends), cell_present large.present,
      decide_eq_true (slot.coarse large)]
    dsimp only
    rw [if_neg (not_not.mpr (target_some_bits next3).2), nextLevel_find, next3]
    dsimp only
    rw [if_pos large.large, low2m]
    exact (large.lookedUp slot.tables.1).symm
  | no2 next4 next3 empty absent =>
    rw [next4, absent va rfl]
    dsimp only
    rw [if_neg (not_not.mpr (target_some_bits next3).2), nextLevel_find, next3]
    dsimp only
    rw [if_neg (by rw [empty]; decide), nextLevel_find, empty]
    rfl
  | page next4 next3 next2 slot =>
    have fine : decide (s.Coarse root va) = false := by
      apply decide_eq_false
      rintro ⟨short, -⟩
      rw [slot.whole (Or.inl rfl), List.length_append, slot.tables.1, List.length_singleton]
        at short
      exact absurd short (by decide)
    rw [next4, Tables.view, slot.whole (Or.inl rfl), fine]
    dsimp only
    rw [if_neg (not_not.mpr (target_some_bits next3).2), nextLevel_find, next3]
    dsimp only
    rw [if_neg (not_not.mpr (target_some_bits next2).2), nextLevel_find, next2]
    dsimp only
    split
    · rename_i absent
      rw [cell, List.getLastD_concat, if_neg (not_not.mpr absent)]
      split
      · rfl
      · rfl
    · rename_i present
      rw [cell_present present, low4k]
      refine Eq.symm (Nat.add_zero _ |>.trans ?_)
      rw [mapping, List.getLastD_concat, List.length_append, slot.tables.1]
      change (_ / pageSize * pageSize) + _ = _
      rw [Nat.div_mul_cancel (Nat.dvd_of_mod_eq_zero (mask_low _))]
      rfl

/-! ## Swap slots -/

def pageOf (va : Nat) : Nat := va / pageSize * pageSize

theorem pageOf_canonical (canonical : Canonical va) : Canonical (pageOf va) := by
  unfold Canonical userLimit at canonical ⊢
  unfold pageOf pageSize
  omega

theorem pageOf_div (va : Nat) : pageOf va / pageSize = va / pageSize :=
  Nat.mul_div_cancel _ (by decide)

theorem pageOf_rootFor (s : Tables) : s.rootFor cpu (pageOf va) = s.rootFor cpu va := by
  unfold Tables.rootFor pageOf pageSize userLimit
  by_cases low : va < 0x800000000000
  · rw [if_neg (by omega), if_neg (by omega)]
  · rw [if_pos (by omega), if_pos (by omega)]

/-- The entry of the smallest size, or there is none: a large page is there, or nothing. -/
theorem leafEntry_slot (sound : Sound s home) (canonical : Canonical va) :
    (∃ pt, s.leafEntry cpu va = some (pt, i1 va) ∧
      Slot s home (s.rootFor cpu va) va 3 pt (i1 va)) ∨
    s.leafEntry cpu va = none ∧
      ∀ v, Covers s.kernel (s.rootFor cpu va) v → v / pageSize = va / pageSize →
        s.Coarse (s.rootFor cpu va) v ∨ s.view (s.rootFor cpu va) v = .absent := by
  have start := @rootFor_start s home cpu va sound
  have covers := @rootFor_covers s cpu va canonical
  rw [Tables.leafEntry]
  generalize s.rootFor cpu va = root at start covers ⊢
  have same : ∀ {v}, Covers s.kernel root v → v / pageSize = va / pageSize → path v = path va :=
    fun covers here => path_congr covers.canonical canonical here
  have wide : ∀ {v}, Covers s.kernel root v → v / pageSize = va / pageSize →
      s.Coarse root va → s.Coarse root v := by
    intro v covers here coarse
    rwa [Tables.Coarse, same covers here]
  rw [nextLevel_find]
  cases found sound start covers with
  | no4 none4 absent =>
    rw [none4]
    exact Or.inr ⟨rfl, fun v covers here => Or.inr (absent v (same covers here))⟩
  | giga next4 slot large =>
    rw [next4]
    dsimp only
    rw [if_pos large.large]
    exact Or.inr ⟨rfl, fun v covers here => Or.inl (wide covers here (slot.coarse large))⟩
  | no3 next4 empty absent =>
    rw [next4]
    dsimp only
    rw [if_neg (by rw [empty]; decide), nextLevel_find, empty]
    exact Or.inr ⟨rfl, fun v covers here => Or.inr (absent v (same covers here))⟩
  | mega next4 next3 slot large =>
    rw [next4]
    dsimp only
    rw [if_neg (not_not.mpr (target_some_bits next3).2), nextLevel_find, next3]
    dsimp only
    rw [if_pos large.large]
    exact Or.inr ⟨rfl, fun v covers here => Or.inl (wide covers here (slot.coarse large))⟩
  | no2 next4 next3 empty absent =>
    rw [next4]
    dsimp only
    rw [if_neg (not_not.mpr (target_some_bits next3).2), nextLevel_find, next3]
    dsimp only
    rw [if_neg (by rw [empty]; decide), nextLevel_find, empty]
    exact Or.inr ⟨rfl, fun v covers here => Or.inr (absent v (same covers here))⟩
  | @page pdpt pd pt next4 next3 next2 slot =>
    rw [next4]
    dsimp only
    rw [if_neg (not_not.mpr (target_some_bits next3).2), nextLevel_find, next3]
    dsimp only
    rw [if_neg (not_not.mpr (target_some_bits next2).2), nextLevel_find, next2]
    exact Or.inl ⟨pt, rfl, slot⟩

def swapEntry (slot : Nat) : Nat := slot <<< 12 ||| pteSwapped

theorem swapEntry_eq (slot : Nat) : swapEntry slot = 0x1000 * slot + pteSwapped := by
  have parts : 0x1000 * slot + pteSwapped = 0x1000 * slot ||| pteSwapped :=
    Nat.two_pow_add_eq_or_of_lt (i := 12) (by decide) slot
  rw [parts, swapEntry, Nat.shiftLeft_eq, Nat.mul_comm]

theorem swapEntry_present (slot : Nat) : swapEntry slot &&& ptePresent = 0 := by
  have low : swapEntry slot &&& ptePresent = swapEntry slot % 2 := Nat.and_one_is_mod _
  rw [low, swapEntry_eq]
  unfold pteSwapped
  omega

theorem swapEntry_swapped (slot : Nat) : swapEntry slot &&& pteSwapped ≠ 0 := by
  rw [swapEntry, Nat.and_or_distrib_right, ne_eq, Nat.or_eq_zero_iff]
  exact fun both => absurd both.2 (by decide)

theorem swapEntry_slot (fits : slot < 0x100000000) :
    swapEntry slot >>> 12 % 0x100000000 = slot := by
  rw [swapEntry_eq, Nat.shiftRight_eq_div_pow]
  change (0x1000 * slot + 2) / 0x1000 % 0x100000000 = slot
  omega

theorem cell_swapped {words : List Nat} (long : words.length = 3) (fits : slot < 0x100000000) :
    cell (words ++ [swapEntry slot]) v = .swapped slot := by
  rw [cell, List.getLastD_concat, if_neg (not_not.mpr (swapEntry_present slot)),
    List.length_append, long, if_pos ⟨rfl, swapEntry_swapped slot⟩, swapEntry_slot fits]

theorem Slot.fine {pt : Nat} (at_ : Slot s home root va 3 pt i) : ¬ s.Coarse root va := by
  rintro ⟨short, -⟩
  rw [at_.whole (Or.inl rfl), List.length_append, at_.tables.1, List.length_singleton] at short
  exact absurd short (by decide)

theorem cell_unmapped {words : List Nat} (absent : w &&& ptePresent = 0) (m : Mapping) :
    cell (words ++ [w]) v ≠ .mapped m := by
  rw [cell, List.getLastD_concat, if_neg (not_not.mpr absent)]
  split
  · exact Cell.noConfusion
  · exact Cell.noConfusion

/-- A page is swapped out if it is mapped, and not part of a larger one, and the slot is not 0. -/
theorem vmSwapOut_swapped (sound : Sound s home) (canonical : Canonical va)
    (fits : slot < 0x100000000) {ok : Bool} (runs : s.vmSwapOut cpu va slot = (ok, s')) :
    (ok = true ↔ slot ≠ 0 ∧ (∃ m, s.view (s.rootFor cpu va) va = .mapped m) ∧
      ¬ s.Coarse (s.rootFor cpu va) va) ∧
    (ok = false → s' = s) ∧
    (ok = true → Becomes s home s' home fun root v =>
      if root = s.rootFor cpu va ∧ v / pageSize = va / pageSize then .swapped slot
      else s.view root v) := by
  have covers := @rootFor_covers s cpu va canonical
  have entry := @leafEntry_slot s home cpu (pageOf va) sound (pageOf_canonical canonical)
  rw [pageOf_rootFor] at entry
  rw [Tables.vmSwapOut, show va / pageSize * pageSize = pageOf va from rfl] at runs
  generalize s.rootFor cpu va = root at covers entry ⊢
  rcases entry with ⟨pt, here, at_⟩ | ⟨none_, why⟩
  · rw [here] at runs
    dsimp only at runs
    have view := at_.view (Or.inl rfl) at_.upper covers (pageOf_div va).symm
    have path : path va = path (pageOf va) :=
      path_congr canonical (pageOf_canonical canonical) (pageOf_div va).symm
    have fine : ¬ s.Coarse root va := by
      rw [Tables.Coarse, path]
      exact at_.fine
    split at runs
    · rename_i refused
      obtain ⟨rfl, rfl⟩ := Prod.mk.inj runs
      refine ⟨⟨fun true_ => Bool.noConfusion true_, ?_⟩, fun _ => rfl,
        fun true_ => Bool.noConfusion true_⟩
      rintro ⟨some_, ⟨m, mapped⟩, -⟩
      rw [view] at mapped
      exact absurd mapped (cell_unmapped (refused.resolve_right some_) m)
    · rename_i taken
      rw [not_or] at taken
      obtain ⟨rfl, rfl⟩ := Prod.mk.inj runs
      have mapped := view.trans (cell_present taken.1)
      refine ⟨⟨fun _ => ⟨taken.2, ⟨_, mapped⟩, fine⟩, fun _ => rfl⟩,
        fun false_ => Bool.noConfusion false_, fun _ => ?_⟩
      refine (at_.setEntry (Or.inl rfl) fun less => absurd less (by decide)).congr ?_
      intro root' v place covers'
      have page : v / span (3 + 1) = pageOf va / span (3 + 1) ↔ v / pageSize = va / pageSize := by
        change v / pageSize = pageOf va / pageSize ↔ _
        rw [pageOf_div]
      exact if_congr (and_congr Iff.rfl page) (cell_swapped at_.tables.1 fits) rfl
  · rw [none_] at runs
    obtain ⟨rfl, rfl⟩ := Prod.mk.inj runs
    refine ⟨⟨fun true_ => Bool.noConfusion true_, ?_⟩, fun _ => rfl,
      fun true_ => Bool.noConfusion true_⟩
    rintro ⟨-, ⟨m, mapped⟩, fine⟩
    rcases why va covers (pageOf_div va).symm with coarse | absent
    · exact absurd coarse fine
    · rw [absent] at mapped
      cases mapped

/-- The slot that a page was swapped out to. -/
def Cell.swapSlot : Cell → Nat
  | .swapped n => n
  | _ => 0

theorem vmSwapSlot_view (sound : Sound s home) (canonical : Canonical va) :
    s.vmSwapSlot cpu va = (s.view (s.rootFor cpu va) va).swapSlot := by
  have covers := @rootFor_covers s cpu va canonical
  have entry := @leafEntry_slot s home cpu (pageOf va) sound (pageOf_canonical canonical)
  rw [pageOf_rootFor] at entry
  rw [Tables.vmSwapSlot, show va / pageSize * pageSize = pageOf va from rfl]
  generalize s.rootFor cpu va = root at covers entry ⊢
  rcases entry with ⟨pt, here, at_⟩ | ⟨none_, why⟩
  · rw [here, at_.view (Or.inl rfl) at_.upper covers (pageOf_div va).symm, cell,
      List.getLastD_concat, List.length_append, at_.tables.1]
    dsimp only
    split
    · rfl
    · split
      · rename_i zero
        rw [if_neg fun both => both.2 zero]
        rfl
      · rename_i swapped
        rw [if_pos ⟨rfl, swapped⟩]
        rfl
  · rw [none_]
    rcases why va covers (pageOf_div va).symm with coarse | absent
    · rw [Tables.view, cell, if_pos coarse.2]
      rfl
    · rw [absent]
      rfl

end ReconOS.Vm
