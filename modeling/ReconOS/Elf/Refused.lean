import ReconOS.Elf.Reference

/-! What a refused program leaves behind. -/
namespace ReconOS.Elf

/-! ## Pages of a load -/

section
variable (m : Machine) (tables : Nat → Nat)

/-- The pages of page table that the maps of some calls took, `tables n` at the `n`th: a map keeps
them, whether or not it finds memory for the rest. -/
def tablesTaken (start stop : Nat) : Nat :=
  ((List.range' start (stop - start)).map fun n =>
    if (m.page n).isSome then tables n else 0).sum

/-- The mappings, and the number of allocated pages, are what they were. -/
def Untouched (before after : World) : Prop :=
  after.space = before.space ∧
    after.held.length + tablesTaken m tables before.calls after.calls = before.held.length

/-- The file passes the first pass, and there is an address space to put it in. -/
def Passes (arch : Nat) (space : Bool) (image : Option Image) : Prop :=
  space = true ∧ ∃ i ∈ image, ∃ found, inspect arch i = some (.ok found)

/-- There is no first page, or no memory to map it and none taken for that. -/
def RunsOutFirst (w : World) : Prop :=
  m.page w.calls = none ∨ m.maps w.calls = false ∧ tables w.calls = 0

end

variable {m : Machine} {tables : Nat → Nat} {image : Image} {w w' : World} {s : Segment}

/-- The load holds all that it held, and may have asked for more. -/
structure Holds (before after : World) : Prop where
  held : before.held.length ≤ after.held.length
  calls : before.calls ≤ after.calls

theorem Holds.refl (w : World) : Holds w w := ⟨Nat.le_refl _, Nat.le_refl _⟩

theorem Holds.trans {a b c : World} (first : Holds a b) (next : Holds b c) : Holds a c :=
  ⟨Nat.le_trans first.held next.held, Nat.le_trans first.calls next.calls⟩

/-! ## One page -/

theorem fill_holds {va frame : Nat} (filled : fill image s va frame w = some w') :
    w'.space = w.space ∧ w'.held = w.held ∧ w'.calls = w.calls := by
  obtain ⟨start, stop, -, -, eq⟩ := fill_eq image s va frame w
  rw [eq] at filled
  split at filled
  · unfold World.copy at filled
    split at filled
    · obtain ⟨bytes, -, rfl⟩ := Option.map_eq_some_iff.1 filled
      exact ⟨rfl, rfl, rfl⟩
    · cases filled
  · cases filled
    exact ⟨rfl, rfl, rfl⟩

/-- A page that is placed is held; one that is not leaves what there was. -/
theorem placePage_cases {va : Nat} {r : ElfResult}
    (placed : placePage m image s va w = some (r, w')) : w'.calls = w.calls + 1 ∧
      (r = .ok ∧ (m.page w.calls).isSome ∧ m.maps w.calls = true ∧
          w'.held.length = w.held.length + 1 ∨
        r = .noMemory ∧ (m.page w.calls = none ∨ m.maps w.calls = false) ∧
          w'.space = w.space ∧ w'.held = w.held) := by
  unfold placePage at placed
  cases asked : m.page w.calls with
  | none =>
    rw [asked] at placed
    cases placed
    exact ⟨rfl, .inr ⟨rfl, .inl rfl, rfl, rfl⟩⟩
  | some frame =>
    rw [asked] at placed
    dsimp only at placed
    split at placed
    · cases placed
    · rename_i filled there
      obtain ⟨space, held, calls⟩ := fill_holds there
      split at placed
      · rename_i maps
        cases placed
        refine ⟨calls, .inl ⟨rfl, rfl, maps, ?_⟩⟩
        show filled.held.length = _
        rw [held]
        rfl
      · rename_i maps
        cases placed
        refine ⟨calls, .inr ⟨rfl, .inr (Bool.eq_false_iff.2 maps), space, ?_⟩⟩
        show filled.held.erase frame = w.held
        rw [held]
        exact List.erase_cons_head ..

theorem placePage_holds {va : Nat} {r : ElfResult}
    (placed : placePage m image s va w = some (r, w')) : Holds w w' := by
  obtain ⟨calls, ⟨-, -, -, held⟩ | ⟨-, -, -, held⟩⟩ := placePage_cases placed
  · exact ⟨by omega, by omega⟩
  · exact ⟨by rw [held], by omega⟩

/-! ## A run of pages -/

theorem placeFrom_holds {fuel va : Nat} {r : ElfResult}
    (placed : placeFrom m image s fuel va w = some (r, w')) : Holds w w' := by
  induction fuel generalizing va w with
  | zero => cases placed
  | succ fuel ih =>
    unfold placeFrom at placed
    split at placed
    · split at placed
      · rename_i first
        exact (placePage_holds first).trans (ih placed)
      · exact placePage_holds placed
    · cases placed
      exact .refl _

theorem place_holds {segs : List Segment} {r : ElfResult}
    (placed : place m image segs w = some (r, w')) : Holds w w' := by
  induction segs generalizing w with
  | nil =>
    cases placed
    exact .refl _
  | cons s rest ih =>
    unfold place at placed
    split at placed
    · rename_i first
      exact (placeFrom_holds first).trans (ih placed)
    · exact placeFrom_holds placed

/-- The first page of segments decides: it is placed, and held to the end; or the rest never is. -/
theorem place_cases {rest : List Segment} {r : ElfResult} (some_ : s.vaFirst < s.vaLast)
    (placed : place m image (s :: rest) w = some (r, w')) :
    (m.page w.calls).isSome ∧ m.maps w.calls = true ∧ w.held.length < w'.held.length ∨
      (m.page w.calls = none ∨ m.maps w.calls = false) ∧ w'.space = w.space ∧ w'.held = w.held ∧
        w'.calls = w.calls + 1 := by
  have whole : ∃ r₁ w₁, placePage m image s s.vaFirst w = some (r₁, w₁) ∧
      (r₁ ≠ .ok → w' = w₁) ∧ Holds w₁ w' := by
    unfold place at placed
    cases from_ : placeFrom m image s ((s.vaLast - s.vaFirst) / pageSize + 1) s.vaFirst w with
    | none =>
      rw [from_] at placed
      cases placed
    | some found =>
      obtain ⟨r₂, w₂⟩ := found
      have onward : (r₂ ≠ .ok → w' = w₂) ∧ Holds w₂ w' := by
        rw [from_] at placed
        split at placed
        · rename_i same
          cases same
          exact ⟨fun not_ => absurd rfl not_, place_holds placed⟩
        · cases placed
          exact ⟨fun _ => rfl, .refl w'⟩
      unfold placeFrom at from_
      rw [if_pos some_] at from_
      split at from_
      · rename_i w₁ first
        exact ⟨.ok, w₁, first, fun not_ => absurd rfl not_, (placeFrom_holds from_).trans onward.2⟩
      · refine ⟨r₂, w₂, from_, onward⟩
  obtain ⟨r₁, w₁, first, same, holds⟩ := whole
  obtain ⟨calls, ⟨-, page, maps, held⟩ | ⟨failed, out, space, held⟩⟩ := placePage_cases first
  · have := holds.held
    exact .inl ⟨page, maps, by omega⟩
  · obtain rfl := same (by rw [failed]; decide)
    exact .inr ⟨out, space, held, calls⟩

/-! ## The whole load -/

/-- What passes the first pass is segments, with a page in the first of them at least. -/
theorem inspect_first {arch entry : Nat} {segs : List Segment}
    (passed : inspect arch image = some (.ok (segs, entry))) :
    ∃ s rest, segs = s :: rest ∧ s.vaFirst < s.vaLast := by
  obtain ⟨r, inspected, -, admits⟩ := inspect_admitted arch image
  cases passed.symm.trans inspected
  obtain ⟨taken, all, -, code⟩ := admits segs entry rfl
  cases headers : image.phdrs.filter Phdr.loads with
  | nil =>
    rw [taken, headers] at code
    cases code
  | cons h rest =>
    have mem : h ∈ image.phdrs.filter Phdr.loads := by
      rw [headers]
      exact List.mem_cons_self ..
    have sound := all.each h mem
    have loads := (List.mem_filter.1 mem).2
    unfold Phdr.loads at loads
    have some_ : h.memsz ≠ 0 := (of_decide_eq_true loads).2
    refine ⟨segmentOf h, rest.map segmentOf, by rw [taken, headers]; rfl, ?_⟩
    rw [sound.vaFirst, sound.vaLast]
    apply Nat.mul_lt_mul_of_pos_right
    · unfold Phdr.firstPage Phdr.endPage pageSize
      omega
    · decide

theorem tablesTaken_one (n : Nat) :
    tablesTaken m tables n (n + 1) = if (m.page n).isSome then tables n else 0 := by
  unfold tablesTaken
  rw [Nat.add_sub_cancel_left]
  simp

/-- Segments are not placed, and leave nothing, just where there is no memory for the first page. -/
theorem place_leaves {rest : List Segment} {r : ElfResult} (some_ : s.vaFirst < s.vaLast)
    (placed : place m image (s :: rest) w = some (r, w')) :
    Untouched m tables w w' ↔ RunsOutFirst m tables w := by
  unfold Untouched RunsOutFirst
  obtain ⟨page, maps, held⟩ | ⟨out, space, held, calls⟩ := place_cases some_ placed
  · constructor
    · rintro ⟨-, same⟩
      omega
    · rintro (none_ | ⟨unmapped, -⟩)
      · rw [none_] at page
        cases page
      · rw [maps] at unmapped
        cases unmapped
  · rw [space, held, calls, tablesTaken_one]
    cases asked : m.page w.calls with
    | none => simp
    | some frame =>
      have unmapped : m.maps w.calls = false := by
        cases out with
        | inl none_ =>
          rw [asked] at none_
          cases none_
        | inr unmapped => exact unmapped
      simp [unmapped]

/-- A file that passes is refused where its segments are not placed. -/
theorem elfLoad_placed {i : Image} {segs : List Segment} {entry : Nat} {r : ElfResult}
    {w' : World} {found : Option Nat} (passed : inspect m.arch i = some (.ok (segs, entry)))
    (loaded : elfLoad m true (some i) w = some (r, w', found)) (refused : r ≠ .ok) :
    place m i segs w = some (r, w') := by
  unfold elfLoad at loaded
  dsimp only at loaded
  rw [passed] at loaded
  dsimp only at loaded
  cases placed : place m i segs w with
  | none =>
    rw [placed] at loaded
    cases loaded
  | some result =>
    obtain ⟨r', w₁⟩ := result
    rw [placed] at loaded
    cases r' with
    | ok =>
      cases loaded
      exact absurd rfl refused
    | _ =>
      cases loaded
      rfl

/-- A file that does not pass leaves everything. -/
theorem elfLoad_stopped {space : Bool} {image : Option Image} {r : ElfResult} {w' : World}
    {found : Option Nat} (stopped : ¬Passes m.arch space image)
    (loaded : elfLoad m space image w = some (r, w', found)) : w' = w := by
  unfold elfLoad at loaded
  split at loaded
  · rename_i i
    cases inspected : inspect m.arch i with
    | none =>
      rw [inspected] at loaded
      cases loaded
    | some result =>
      rw [inspected] at loaded
      cases result with
      | error r' =>
        cases loaded
        rfl
      | ok found => exact absurd ⟨rfl, i, rfl, found, inspected⟩ stopped
  · cases loaded
    rfl

/-- A load that is refused leaves the mappings and the number of allocated pages as they were just
where the file does not pass the first pass, or there is no memory for its first page. -/
theorem refusal_leaves_nothing (m : Machine) (tables : Nat → Nat) (space : Bool)
    (image : Option Image) (w : World) {r : ElfResult} {w' : World} {entry : Option Nat}
    (loaded : elfLoad m space image w = some (r, w', entry)) (refused : r ≠ .ok) :
    Untouched m tables w w' ↔ ¬Passes m.arch space image ∨ RunsOutFirst m tables w := by
  by_cases passes : Passes m.arch space image
  · obtain ⟨rfl, i, rfl, ⟨segs, found⟩, passed⟩ := passes
    obtain ⟨s, rest, rfl, some_⟩ := inspect_first passed
    rw [place_leaves some_ (elfLoad_placed passed loaded refused)]
    exact ⟨.inr, fun either => either.resolve_left (not_not.2 ⟨rfl, i, rfl, _, passed⟩)⟩
  · obtain rfl := elfLoad_stopped passes loaded
    refine iff_of_true ⟨rfl, ?_⟩ (.inl passes)
    simp [tablesTaken]

/-- A machine with one page, or none. -/
def bare (some_ : Bool) : Machine :=
  { arch := 62
    page := fun n => if n = 0 ∧ some_ = true then some 7 else none
    fresh := by
      intro i j f one other
      by_cases first : i = 0 ∧ some_ = true
      · by_cases also : j = 0 ∧ some_ = true
        · exact first.1.trans also.1.symm
        · rw [if_neg also] at other
          cases other
      · rw [if_neg first] at one
        cases one
    maps := fun _ => true }

def unmapped : World := ⟨fun _ _ => 0, fun _ => none, 0, []⟩

/-- With no page, a file of two pages is refused, and leaves nothing. -/
theorem refusal_leaves_nothing_bare : ∃ w' entry,
    elfLoad (bare false) true (some tiny) unmapped = some (.noMemory, w', entry) ∧
      Untouched (bare false) (fun _ => 0) unmapped w' := by
  have refused : (elfLoad (bare false) true (some tiny) unmapped).map (·.1) = some .noMemory := by
    decide +kernel
  obtain ⟨⟨r, w', entry⟩, loaded, same⟩ := Option.map_eq_some_iff.1 refused
  obtain rfl : r = .noMemory := same
  refine ⟨w', entry, loaded, ?_⟩
  exact (refusal_leaves_nothing (bare false) (fun _ => 0) true (some tiny) unmapped loaded
    (by decide)).2 (.inr (.inl rfl))

/-- With one page, the first of two is placed, and stays. -/
theorem first_page_left_behind : ¬∀ m tables space image w r w' entry,
    elfLoad m space image w = some (r, w', entry) → r ≠ .ok → Untouched m tables w w' := by
  intro always
  have refused : (elfLoad (bare true) true (some tiny) unmapped).map
      (fun r => (r.1, r.2.1.held.length)) = some (.noMemory, 1) := by decide +kernel
  obtain ⟨⟨r, w', entry⟩, loaded, same⟩ := Option.map_eq_some_iff.1 refused
  obtain ⟨rfl, held⟩ : r = .noMemory ∧ w'.held.length = 1 := Prod.mk.inj same
  have count := (always (bare true) (fun _ => 0) true (some tiny) unmapped _ _ _ loaded
    (by decide)).2
  rw [held] at count
  have before : unmapped.held.length = 0 := rfl
  omega

end ReconOS.Elf
