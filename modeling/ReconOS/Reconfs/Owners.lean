import ReconOS.Reconfs.Recover

/-! The owner table of a volume just made: what its leaves answer, and what setting an owner
changes. -/
namespace ReconOS.Reconfs

variable {dev : BlockDevice} {label : Option Name} {blockSize bs b : Nat} {fs : Fs} {s t u : St}

/-- One owner after another. -/
def setOwners (fs : Fs) (changes : List (Nat × Nat)) : M Unit :=
  Prog.each changes fun p => setOwner fs p.1 p.2

def ownersAfter (own : Nat → Nat) (changes : List (Nat × Nat)) : Nat → Nat :=
  changes.foldl (fun own p => Function.update own p.1 p.2) own

/-- Every block has its owner in the table, in a leaf for its range alone, and setting an owner
changes that one. -/
structure Addresses (fs : Fs) (s : St) : Prop where
  owner : ∀ b < fs.totalBlocks, ∃ t, ownerOf fs b s = (.ok (formatOwner fs b), t)
  leaf : ∃ addr : Nat → Nat,
    (∀ b < fs.totalBlocks, ∃ t, tableLeaf fs b s = (.ok (addr (b / fs.perLeaf)), t)) ∧
    ∀ i j, i * fs.perLeaf < fs.totalBlocks → j * fs.perLeaf < fs.totalBlocks → addr i = addr j →
      i = j
  change : ∀ changes t, setOwners fs changes s = (.ok (), t) → ∀ b < fs.totalBlocks,
    ∃ u, ownerOf fs b t = (.ok (ownersAfter (formatOwner fs) changes b), u)

/-! ## Reading -/

theorem tableLeaf_run {own : Nat → Nat} {leaf : Nat} (sized : fs.Sized)
    (table : TableOf fs (fs.now s) own) (reads : ∀ n, fs.dev.ask.read n = true)
    (here : leafAt (fs.now s) fs.perIndex fs.tableDepth fs.tableRoot (b / fs.perLeaf) = some leaf) :
    tableLeaf fs b s = (.ok leaf, s.ticked fs.tableDepth) := by
  rw [tableLeaf, table.spanOf_eq]
  apply (walkTable_run sized sized.perIndex_pos rfl table.inside here).1
  intro i _
  exact reads _

theorem ownerOf_run {own : Nat → Nat} (sized : fs.Sized) (table : TableOf fs (fs.now s) own)
    (reads : ∀ n, fs.dev.ask.read n = true) (inside : b < fs.totalBlocks) :
    ∃ t, ownerOf fs b s = (.ok (own b), t) := by
  obtain ⟨leaf, here, owner⟩ := table.leaf b inside
  have slots := readSlots_run sized (table.leaf_lt here) (s.ticked fs.tableDepth)
  rw [if_pos (reads _), Fs.now_ticked] at slots
  refine ⟨(s.ticked fs.tableDepth).ticked 1, ?_⟩
  rw [ownerOf, Prog.bind_of_ok (need_of _ inside s),
    Prog.bind_of_ok (tableLeaf_run sized table reads here), Prog.bind_of_ok slots, owner]
  rfl

/-! ## Setting -/

theorem setOwner_inside {owner : Nat} (run : setOwner fs b owner s = (.ok (), t)) :
    b < fs.totalBlocks := by
  simp only [setOwner, Prog.bind_eq_ok, need_eq_ok] at run
  obtain ⟨-, -, ⟨inside, -⟩, -⟩ := run
  exact inside

/-- Each owner set is one more change of what the leaves hold. -/
theorem Owns.setOwners {own : Nat → Nat} (accepted : Accepted dev bs)
    (owns : Owns (laidOut dev bs) ((laidOut dev bs).now s) own)
    (outside : ∀ b, (laidOut dev bs).totalBlocks ≤ b → own b = ownerVoid)
    (changes : List (Nat × Nat)) (run : setOwners (laidOut dev bs) changes s = (.ok (), t)) :
    Owns (laidOut dev bs) ((laidOut dev bs).now t) (ownersAfter own changes) ∧
      ∀ b, (laidOut dev bs).totalBlocks ≤ b → ownersAfter own changes b = ownerVoid := by
  induction changes generalizing s own with
  | nil =>
    cases run
    exact ⟨owns, outside⟩
  | cons p changes ih =>
    obtain ⟨_, v, one, rest⟩ := Prog.bind_eq_ok.mp run
    have inside := setOwner_inside one
    obtain ⟨-, stepped⟩ := owns.step accepted inside one
    apply ih stepped _ rest
    intro b past
    rw [Function.update_of_ne (by omega)]
    exact outside b past

/-! ## Mounted -/

theorem fresh_walkTable (depth span node index : Nat) :
    walkTable (freshFs dev label bs) depth span node index =
      walkTable (laidOut dev bs) depth span node index := by
  induction depth generalizing span node index with
  | zero => rfl
  | succ depth ih =>
    rw [walkTable, walkTable]
    simp only [ih]
    rfl

theorem fresh_tableLeaf (b : Nat) :
    tableLeaf (freshFs dev label bs) b = tableLeaf (laidOut dev bs) b :=
  fresh_walkTable ..

theorem fresh_ownerOf (b : Nat) :
    ownerOf (freshFs dev label bs) b = ownerOf (laidOut dev bs) b := by
  rw [ownerOf, ownerOf, fresh_tableLeaf]
  rfl

theorem fresh_setOwners (changes : List (Nat × Nat)) :
    setOwners (freshFs dev label bs) changes = setOwners (laidOut dev bs) changes := by
  have each : ∀ b owner, setOwner (freshFs dev label bs) b owner =
      setOwner (laidOut dev bs) b owner := by
    intro b owner
    rw [setOwner, setOwner, fresh_tableLeaf]
    rfl
  unfold setOwners
  simp only [each]

theorem fresh_owner : formatOwner (freshFs dev label bs) = formatOwner (laidOut dev bs) := rfl

/-- What is mounted after a format is the volume that it made, on the medium it left. -/
theorem mount_fresh (reads : ∀ n, dev.ask.read n = true)
    (made : format dev label blockSize s = (.ok (), t)) (mounted : mount dev t = (.ok fs, u)) :
    Same t u ∧ fs = freshFs dev label (formatSize dev blockSize) := by
  obtain ⟨same, found⟩ := mount_ok reads mounted
  obtain ⟨stamped, -⟩ := format_parts made
  obtain ⟨-, small, -⟩ := mountOf_eq_some.mp found
  have here := stamped.mountOf small
  rw [found] at here
  exact ⟨same, Option.some.inj here⟩

theorem Accepted.addresses (accepted : Accepted dev bs) (reads : ∀ n, dev.ask.read n = true)
    (owns : Owns (laidOut dev bs) ((laidOut dev bs).now s) (formatOwner (laidOut dev bs))) :
    Addresses (laidOut dev bs) s := by
  have outside : ∀ b, (laidOut dev bs).totalBlocks ≤ b →
      formatOwner (laidOut dev bs) b = ownerVoid := by
    intro b past
    have fits := accepted.fits
    exact if_neg (by omega)
  have table := owns.tableOf accepted outside
  constructor
  case owner =>
    intro b inside
    exact ownerOf_run accepted.sized table reads inside
  case leaf =>
    refine ⟨fun i => firstTable bs + i, ?_, ?_⟩
    · intro b inside
      exact ⟨_, tableLeaf_run accepted.sized table reads
        (accepted.leafAt_eq owns.shaped (accepted.leafIndex_lt inside))⟩
    · intro i j _ _ same
      exact Nat.add_left_cancel same
  case change =>
    intro changes t run b inside
    obtain ⟨owns, outside⟩ := owns.setOwners accepted outside changes run
    exact ownerOf_run accepted.sized (owns.tableOf accepted outside) reads inside

/-- The volume mounted and the one laid out read and write one table. -/
theorem fresh_addresses :
    Addresses (freshFs dev label bs) s ↔ Addresses (laidOut dev bs) s := by
  constructor
  · rintro ⟨owner, leaf, change⟩
    simp only [fresh_ownerOf, fresh_tableLeaf, fresh_setOwners, fresh_owner] at owner leaf change
    exact ⟨owner, leaf, change⟩
  · rintro ⟨owner, leaf, change⟩
    constructor
    case owner =>
      simp only [fresh_ownerOf, fresh_owner]
      exact owner
    case leaf =>
      simp only [fresh_tableLeaf]
      exact leaf
    case change =>
      simp only [fresh_ownerOf, fresh_setOwners, fresh_owner]
      exact change

/-! ## A sum that wraps -/

theorem leavesFor_wraps {n per : Nat} (small : n < 2 ^ 64) (wraps : 2 ^ 64 < n + per) :
    leavesFor n per = 0 := by
  have rest : (n + per - 1) % 2 ^ 64 < per := by
    rw [Nat.mod_eq_sub_mod (by omega)]
    exact Nat.lt_of_le_of_lt (Nat.mod_le _ _) (by omega)
  exact Nat.div_eq_of_lt rest

/-- With no leaf the table is one block, which the format has neither zeroed nor claimed. -/
theorem Takes.shared (wraps : 2 ^ 64 < (laidOut dev bs).totalBlocks + (laidOut dev bs).perLeaf) :
    (laidOut dev bs).tableDepth = 0 ∧ (laidOut dev bs).tableRoot = firstTable bs ∧
      formatUsed (laidOut dev bs) = firstTable bs := by
  have small : (laidOut dev bs).totalBlocks < 2 ^ 64 :=
    Nat.lt_of_le_of_lt (Nat.div_le_self _ _) dev.count_lt
  have none := leavesFor_wraps small wraps
  have depth : (laidOut dev bs).tableDepth = 0 := by
    change depthLoop (leavesFor (laidOut dev bs).totalBlocks (laidOut dev bs).perLeaf) _ _ _ _ = 0
    rw [none]
    rfl
  refine ⟨depth, ?_, ?_⟩
  · change topOf _ (laidOut dev bs).tableDepth _ _ = _
    rw [depth]
    rfl
  · rw [formatUsed, blocksForTable, none, depth]
    rfl

/-- The first claim is entry 0 of that block, and the rest leave it. -/
theorem Takes.first_claimed (takes : Takes dev bs)
    (wraps : 2 ^ 64 < (laidOut dev bs).totalBlocks + (laidOut dev bs).perLeaf) {n : Nat}
    (run : Prog.each (List.range (n + 1)) (fun i => setOwner (laidOut dev bs) i ownerArchive) s =
      (.ok (), t)) :
    ((laidOut dev bs).now t (firstTable bs)).slots 0 = ownerArchive := by
  obtain ⟨depth, root, -⟩ := Takes.shared wraps
  have kept := Prog.each_range_ok
    (I := fun i u => 0 < i → ((laidOut dev bs).now u (firstTable bs)).slots 0 = ownerArchive)
    (fun i _ u v claimed one _ => by
      obtain ⟨leaf, here, -, now⟩ := setOwner_ok takes.sized takes.depth_spec.2 one
      rw [depth, root] at here
      cases here
      rw [now, Function.update_self, slots_ofSlots]
      by_cases zero : 0 = i % (laidOut dev bs).perLeaf
      · rw [← zero, Function.update_self]
      · rw [Function.update_of_ne zero]
        apply claimed
        apply Nat.pos_of_ne_zero
        rintro rfl
        exact zero (Nat.zero_mod _).symm)
    (fun zero => absurd zero (Nat.lt_irrefl 0)) run
  exact kept (Nat.succ_pos n)

/-- Block `per_leaf` has the entry of block 0. -/
theorem Takes.misread (takes : Takes dev bs) (reads : ∀ n, dev.ask.read n = true)
    (wraps : 2 ^ 64 < (laidOut dev bs).totalBlocks + (laidOut dev bs).perLeaf)
    (claimed : ((laidOut dev bs).now s (firstTable bs)).slots 0 = ownerArchive) :
    ¬Addresses (laidOut dev bs) s := by
  intro addresses
  obtain ⟨depth, root, used⟩ := Takes.shared wraps
  have least : blockMin ≤ bs := takes.sized.blockMin_le
  have most : bs ≤ blockMax := Nat.le_of_dvd (by decide) (blockSizeOk_spec takes.sizeOk).2.1
  have leaf : (laidOut dev bs).perLeaf = bs / 8 := rfl
  simp only [blockMin, blockMax] at least most
  have inside : (laidOut dev bs).perLeaf < (laidOut dev bs).totalBlocks := by omega
  have front : firstTable bs ≤ (laidOut dev bs).perLeaf := by
    have few : blockMax / bs ≤ 16 := by
      apply Nat.le_of_lt_succ
      rw [Nat.div_lt_iff_lt_mul (by omega)]
      simp only [blockMax]
      omega
    rw [firstTable, firstDataBlock, superB]
    omega
  have tableInside : firstTable bs < (laidOut dev bs).totalBlocks := by omega
  have slots := readSlots_run takes.sized tableInside s
  rw [if_pos (show (laidOut dev bs).dev.ask.read _ = true from reads _)] at slots
  have walked : tableLeaf (laidOut dev bs) (laidOut dev bs).perLeaf s =
      (.ok (firstTable bs), s) := by
    rw [tableLeaf, depth, root]
    rfl
  obtain ⟨t, run⟩ := addresses.owner _ inside
  rw [ownerOf, Prog.bind_of_ok (need_of _ inside s), Prog.bind_of_ok walked,
    Prog.bind_of_ok slots, Nat.mod_self, claimed, formatOwner, used,
    if_neg (Nat.not_lt.mpr front)] at run
  cases run

/-! ## After a format -/

/-- The table of a volume just made addresses every block if and only if the sum that counts its
leaves does not wrap. -/
theorem owner_table_iff (reads : ∀ n, dev.ask.read n = true)
    (made : format dev label blockSize s = (.ok (), t)) (mounted : mount dev t = (.ok fs, u)) :
    Addresses fs u ↔ fs.totalBlocks + fs.perLeaf ≤ 2 ^ 64 := by
  obtain ⟨same, rfl⟩ := mount_fresh reads made mounted
  obtain ⟨⟨takes, -⟩, -, -, v, w, -, -, make, kept⟩ := format_parts made
  obtain ⟨-, x, -, -, claims⟩ := makeTable_claims takes make
  rw [fresh_addresses]
  change _ ↔ (laidOut dev (formatSize dev blockSize)).totalBlocks +
    (laidOut dev (formatSize dev blockSize)).perLeaf ≤ 2 ^ 64
  constructor
  · intro addresses
    by_contra wraps
    have wraps := Nat.lt_of_not_le wraps
    refine takes.misread reads wraps ?_ addresses
    rw [same.now, kept _ (Nat.le_refl _)]
    rw [(Takes.shared wraps).2.2, firstTable] at claims
    exact takes.first_claimed wraps claims
  · intro whole
    have accepted : Accepted dev (formatSize dev blockSize) := ⟨takes, whole⟩
    apply accepted.addresses reads
    rw [same.now]
    exact (format_claimed made whole).owns

theorem owner_table_small :
    ∃ fs t u, format smallDevice none 4096 blank = (.ok (), t) ∧
      mount smallDevice t = (.ok fs, u) ∧ Addresses fs u := by
  obtain ⟨fs, t, u, made, mounted, ⟨-, rfl⟩, -⟩ := fresh_volume 4096
    smallDevice_accepted granting_obliging (by decide) none blank
  exact ⟨_, t, u, made, mounted,
    (owner_table_iff (fun _ => rfl) made mounted).mpr (by decide +kernel)⟩

/-- As many blocks as a 64-bit number counts. -/
def wideDevice : BlockDevice := plainDevice (2 ^ 64 - 1) (by decide)

/-- There block 512 reads as part of the archive, which does not reach to it. -/
theorem wide_ranges_shared :
    ∃ fs t u v, format wideDevice none 4096 blank = (.ok (), t) ∧
      mount wideDevice t = (.ok fs, u) ∧ 512 < fs.totalBlocks ∧ formatOwner fs 512 = ownerVoid ∧
      ownerOf fs 512 u = (.ok ownerArchive, v) := by
  have format_ok : (format wideDevice none 4096 blank).1.isOk = true := by decide +kernel
  have mount_ok : (mount wideDevice (format wideDevice none 4096 blank).2).1.isOk = true := by
    decide +kernel
  have read : (ownerOf (freshFs wideDevice none 4096) 512
      (mount wideDevice (format wideDevice none 4096 blank).2).2).1.toOption =
        some ownerArchive := by
    decide +kernel
  rcases made : format wideDevice none 4096 blank with ⟨e | ⟨⟩, t⟩
  · rw [made] at format_ok
    cases format_ok
  rw [made] at mount_ok read
  rcases mounted : mount wideDevice t with ⟨e | fs, u⟩
  · rw [mounted] at mount_ok
    cases mount_ok
  obtain ⟨-, rfl⟩ := mount_fresh (fun _ => rfl) made mounted
  rw [mounted] at read
  rcases run : ownerOf (freshFs wideDevice none 4096) 512 u with ⟨e | owner, v⟩
  · rw [run] at read
    cases read
  · rw [run] at read
    cases read
    exact ⟨_, t, u, v, rfl, mounted, by decide +kernel, by decide +kernel, run⟩

end ReconOS.Reconfs
