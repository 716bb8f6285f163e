import ReconOS.Pmm.Owned

/-! Runs of free pages, and which of them a search sees. -/
namespace ReconOS.Pmm

variable {p : State} {map : List MemRegion}

/-- `count` pages from `start` on, one at least, are managed and free. -/
structure FreeRun (p : State) (start count : Nat) : Prop where
  some : 0 < count
  inside : start + count ≤ p.totalPages
  clear : ∀ i, start ≤ i → i < start + count → bitTest p i = false

/-- A run lies on one side of where the last search stopped. -/
def OneSide (p : State) (start count : Nat) : Prop :=
  start + count ≤ p.searchHint ∨ p.searchHint ≤ start

/-! ## The search -/

/-- A page in use, in every run of `count` from `low` on that ends by `high`. -/
def NoRun (p : State) (count low high : Nat) : Prop :=
  ∀ start, low ≤ start → start + count ≤ high →
    ∃ i, start ≤ i ∧ i < start + count ∧ bitTest p i = true

/-- A search that finds nothing has been past a page in use in every run ahead of it, and in every
run from page 0 on that ends by where it stopped. -/
theorem search_none {count left i run : Nat} (inside : i < p.totalPages) (behind : run ≤ i)
    (short : run < count) (once : left ≤ p.totalPages) (none_ : search p count left i run = none) :
    NoRun p count (i - run) (min (i + left) p.totalPages) ∧
      NoRun p count 0 (i + left - p.totalPages) := by
  induction left generalizing i run with
  | zero =>
    constructor
    · intro start low high
      omega
    · intro start low high
      omega
  | succ left ih =>
    have restart (pos : 0 < p.totalPages) (last : i + 1 = p.totalPages)
        (none_ : search p count left 0 0 = none) : NoRun p count 0 (i + (left + 1) - p.totalPages) := by
      have front := (ih pos (Nat.le_refl 0) (by omega) (by omega) none_).1
      intro start low high
      exact front start (by omega) (by omega)
    unfold search at none_
    split at none_
    · rename_i used
      have through {high : Nat} (ahead : NoRun p count (i + 1) high) : NoRun p count (i - run) high := by
        intro start low within
        by_cases later : i < start
        · exact ahead start later within
        · exact ⟨i, by omega, by omega, used⟩
      split at none_
      · refine ⟨through ?_, restart (by omega) (by omega) none_⟩
        intro start low high
        omega
      · obtain ⟨ahead, front⟩ := ih (by omega) (Nat.zero_le _) (by omega) (by omega) none_
        constructor
        · apply through
          intro start low high
          exact ahead start low (by omega)
        · intro start low high
          exact front start low (by omega)
    · split at none_
      · cases none_
      · split at none_
        · refine ⟨?_, restart (by omega) (by omega) none_⟩
          intro start low high
          omega
        · obtain ⟨ahead, front⟩ := ih (by omega) (by omega) (by omega) (by omega) none_
          constructor
          · intro start low high
            exact ahead start (by omega) (by omega)
          · intro start low high
            exact front start low (by omega)

/-- What a search finds before it comes round is among the pages left. -/
theorem search_within {count left i run last : Nat} (once : i + left ≤ p.totalPages)
    (found : search p count left i run = some last) : last < i + left := by
  induction left generalizing i run with
  | zero => cases found
  | succ left ih =>
    have round (wrapped : i + 1 ≥ p.totalPages) (found : search p count left 0 0 = some last) :
        last < i + (left + 1) := by
      obtain rfl : left = 0 := by omega
      cases found
    have onward {run : Nat} (found : search p count left (i + 1) run = some last) :
        last < i + (left + 1) := by
      have := ih (by omega) found
      omega
    unfold search at found
    split at found
    · split at found
      · exact round ‹_› found
      · exact onward found
    · split at found
      · cases found
        omega
      · split at found
        · exact round ‹_› found
        · exact onward found

/-- A run that is found is ahead of where the search began, or ends by there. -/
theorem search_oneSide {count left i run last : Nat} (inside : i < p.totalPages) (behind : run ≤ i)
    (short : run < count) (once : left ≤ p.totalPages)
    (found : search p count left i run = some last) :
    i - run + count ≤ last + 1 ∨ last + 1 ≤ i + left - p.totalPages := by
  induction left generalizing i run with
  | zero => cases found
  | succ left ih =>
    have restart (last_ : i + 1 = p.totalPages) (found : search p count left 0 0 = some last) :
        last + 1 ≤ i + (left + 1) - p.totalPages := by
      have := search_within (by omega) found
      omega
    unfold search at found
    split at found
    · split at found
      · exact .inr (restart (by omega) found)
      · cases ih (by omega) (Nat.zero_le _) (by omega) (by omega) found with
        | inl ahead => exact .inl (by omega)
        | inr front => exact .inr (by omega)
    · split at found
      · rename_i full
        cases found
        exact .inl (by omega)
      · split at found
        · exact .inr (restart (by omega) found)
        · cases ih (by omega) (by omega) (by omega) (by omega) found with
          | inl ahead => exact .inl (by omega)
          | inr front => exact .inr (by omega)

/-! ## Allocation -/

/-- An allocation that finds no run of pages says so, and one that finds a run takes it. -/
def Complete (p : State) (count : Nat) : Prop :=
  ((pmmAllocPages p count).1 = 0 → ∀ start, ¬FreeRun p start count) ∧
    ((pmmAllocPages p count).1 ≠ 0 →
      ∃ start, (pmmAllocPages p count).1 = p.basePaddr + start * pageSize ∧ FreeRun p start count ∧
        ∀ i, start ≤ i → i < start + count → bitTest (pmmAllocPages p count).2 i = true)

/-- Of two sides, the search sees both. -/
theorem search_sees {count start : Nat} (run : FreeRun p start count) (side : OneSide p start count)
    (hint : p.searchHint < p.totalPages) : search p count p.totalPages p.searchHint 0 ≠ none := by
  intro none_
  obtain ⟨ahead, front⟩ := search_none hint (Nat.zero_le _) run.some (Nat.le_refl _) none_
  have inside := run.inside
  have used : ∃ i, start ≤ i ∧ i < start + count ∧ bitTest p i = true := by
    cases side with
    | inl before => exact front start (Nat.zero_le _) (by omega)
    | inr after => exact ahead start (by omega) (by omega)
  obtain ⟨i, low, high, used⟩ := used
  rw [run.clear i low high] at used
  cases used

/-- What the search finds is a run, on one side. -/
theorem search_run {count last : Nat} (some : 0 < count) (hint : p.searchHint < p.totalPages)
    (found : search p count p.totalPages p.searchHint 0 = Option.some last) :
    FreeRun p (last + 1 - count) count ∧ OneSide p (last + 1 - count) count := by
  obtain ⟨before, long, clear⟩ := search_spec some hint (Nat.zero_le _) some
    (fun j from_ before => by omega) found
  refine ⟨⟨some, by omega, fun j low high => clear j low (by omega)⟩, ?_⟩
  cases search_oneSide hint (Nat.zero_le _) some (Nat.le_refl _) found with
  | inl ahead => exact .inr (by omega)
  | inr front => exact .inl (by omega)

/-- A run that is found has an address, and is taken. -/
theorem Sound.takes (sound : Sound map p) {count last : Nat} (some : 0 < count)
    (few : count ≤ p.totalPages) (hint : p.searchHint < p.totalPages)
    (found : search p count p.totalPages p.searchHint 0 = Option.some last) :
    (pmmAllocPages p count).1 = p.basePaddr + (last + 1 - count) * pageSize ∧
      (pmmAllocPages p count).1 ≠ 0 ∧
      ∀ i, last + 1 - count ≤ i → i < last + 1 - count + count →
        bitTest (pmmAllocPages p count).2 i = true := by
  obtain ⟨run, -⟩ := search_run some hint found
  have inside := run.inside
  have address := (sound.sized.addr (show last + 1 - count < p.totalPages by omega)).1
  unfold pmmAllocPages
  rw [if_neg (by omega), found]
  refine ⟨address, ?_, ?_⟩
  · dsimp only
    rw [address]
    exact (sound.clear _ (by omega) (run.clear _ (Nat.le_refl _) (by omega))).notZero
  · intro i low high
    have bits := (markUsed_spec count (last + 1 - count) sound.sized.counted sound.sized.spans).2.2
    exact (bits i).2 (.inl ⟨low, high, by omega⟩)

/-- An allocation is complete just where a run of free pages, if there is one, lies on one side of
where the last search stopped. -/
theorem Sound.complete_iff (sound : Sound map p) (count : Nat) :
    Complete p count ↔ ((∃ start, FreeRun p start count) →
      ∃ start, FreeRun p start count ∧ OneSide p start count) := by
  by_cases asked : count = 0 ∨ count > p.totalPages
  · have none_ (start : Nat) : ¬FreeRun p start count := by
      intro run
      have some := run.some
      have inside := run.inside
      omega
    have answer : (pmmAllocPages p count).1 = 0 := by
      unfold pmmAllocPages
      rw [if_pos asked]
    constructor
    · rintro - ⟨start, run⟩
      exact absurd run (none_ start)
    · intro
      exact ⟨fun _ => none_, fun some => absurd answer some⟩
  · have some : 0 < count := by omega
    have hint : p.searchHint < p.totalPages := by
      cases sound.hint with
      | inl hint => exact hint
      | inr none_ => omega
    cases found : search p count p.totalPages p.searchHint 0 with
    | none =>
      have answer : (pmmAllocPages p count).1 = 0 := by
        unfold pmmAllocPages
        rw [if_neg asked, found]
      constructor
      · rintro complete ⟨start, run⟩
        exact absurd run (complete.1 answer start)
      · intro sides
        refine ⟨fun _ start run => ?_, fun some => absurd answer some⟩
        obtain ⟨start, run, side⟩ := sides ⟨start, run⟩
        exact search_sees run side hint found
    | some last =>
      obtain ⟨run, side⟩ := search_run some hint found
      obtain ⟨address, notZero, taken⟩ := sound.takes some (by omega) hint found
      constructor
      · rintro - -
        exact ⟨_, run, side⟩
      · intro
        exact ⟨fun zero => absurd zero notZero, fun _ => ⟨_, address, run, taken⟩⟩

/-- After any calls, an allocation answers 0 only where there is no run of free pages, and else
takes one, just where a run, if there is one, lies on one side of where the last search stopped. -/
theorem contiguous_complete (fits : ∀ r ∈ usable map, r.Fits) {s : Owners}
    (reached : Reachable map s) (count : Nat) :
    Complete s.pmm count ↔ ((∃ start, FreeRun s.pmm start count) →
      ∃ start, FreeRun s.pmm start count ∧ OneSide s.pmm start count) :=
  (reachable_owned fits reached).sound.complete_iff count

theorem tenPages_fit : ∀ r ∈ usable tenPages, r.Fits := by
  intro r mem
  simp only [usable, tenPages, List.mem_filter, List.mem_cons, List.not_mem_nil, or_false] at mem
  rcases mem.1 with rfl | rfl <;> decide

/-- The allocator that `tenPages` makes. -/
def ten : State := (pmmInit tenPages).get tenPages_made

theorem ten_made : pmmInit tenPages = some ten := (Option.some_get tenPages_made).symm

theorem FreeRun.of_checks {start count : Nat} (some : 0 < count)
    (inside : start + count ≤ p.totalPages)
    (clear : ∀ k < count, bitTest p (start + k) = false) : FreeRun p start count := by
  refine ⟨some, inside, fun i low high => ?_⟩
  have here := clear (i - start) (by omega)
  rwa [show start + (i - start) = i by omega] at here

/-- Before any call, the pages behind the bitmap's are one run. -/
theorem contiguous_complete_ten : (pmmAllocPages ten 7).1 = 8192 ∧ Complete ten 7 := by
  have complete := contiguous_complete tenPages_fit (Reachable.init ten_made) 7
  dsimp only at complete
  have run : FreeRun ten 2 7 := .of_checks (by decide) (by decide +kernel) (by decide +kernel)
  have stop : ten.searchHint = 0 := by decide +kernel
  have side : OneSide ten 2 7 := by
    unfold OneSide
    omega
  exact ⟨by decide +kernel, complete.2 fun _ => ⟨2, run, side⟩⟩

/-- The same after four pages were out, and back again. -/
def tenStopped : State :=
  markFree (pmmAllocPages ten 4).2 2 4

/-- The search stops in the middle of seven free pages: five of them are not to be had. -/
theorem straddling_run_missed : ¬∀ map, (∀ r ∈ usable map, r.Fits) → ∀ s, Reachable map s →
    ∀ count, Complete s.pmm count := by
  intro always
  have reached : Reachable tenPages ⟨tenStopped, 2, []⟩ := by
    have out : Reachable tenPages ⟨(pmmAllocPages ten 4).2, 1, (pagesOf 0x2000 4).map (0, ·)⟩ := by
      apply (Reachable.init ten_made).call (.alloc 4) trivial
      have answer : (pmmAllocPages ten 4).1 = 0x2000 := by decide +kernel
      dsimp only [step, Owners.take]
      rw [answer]
      rfl
    apply out.call (.free 0x2000 4)
    · refine ⟨by decide, fun a mem => ?_⟩
      simpa using mem
    · dsimp only [step]
      have freed : pmmFreePages (pmmAllocPages ten 4).2 0x2000 4 = some tenStopped := by
        have index : pageIndex (pmmAllocPages ten 4).2.basePaddr 0x2000 = 2 := by decide +kernel
        unfold pmmFreePages
        rw [if_neg (by decide), if_neg (by decide +kernel), index, if_neg (by decide +kernel)]
        rfl
      rw [freed]
      rfl
  have complete : Complete tenStopped 5 := always tenPages tenPages_fit _ reached 5
  have run : FreeRun tenStopped 2 5 :=
    .of_checks (by decide) (by decide +kernel) (by decide +kernel)
  exact complete.1 (by decide +kernel) 2 run

end ReconOS.Pmm
