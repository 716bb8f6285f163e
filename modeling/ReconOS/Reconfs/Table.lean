import ReconOS.Lib.Ledger
import ReconOS.Reconfs.Mount

/-! The owner table as the medium holds it: its blocks, its leaves, and the owner of each block. -/
namespace ReconOS.Reconfs

/-- The leaf numbered `index` below `node`, which is `depth` levels above the leaves. -/
def leafAt (c : Nat → Block) (perIndex : Nat) : Nat → Nat → Nat → Option Nat
  | 0, node, _ => some node
  | depth + 1, node, index =>
    let child := (c node).slots (index / perIndex ^ depth)
    if index / perIndex ^ depth < perIndex ∧ child ≠ 0 then
      leafAt c perIndex depth child (index % perIndex ^ depth)
    else none

theorem leafAt_succ (c : Nat → Block) (perIndex depth node index : Nat) :
    leafAt c perIndex (depth + 1) node index =
      if index / perIndex ^ depth < perIndex ∧
          (c node).slots (index / perIndex ^ depth) ≠ 0 then
        leafAt c perIndex depth ((c node).slots (index / perIndex ^ depth))
          (index % perIndex ^ depth)
      else none := rfl

/-- The children in use of an index block. -/
def kidsOf (perIndex : Nat) (slots : Nat → Nat) : List Nat :=
  ((List.range perIndex).map slots).filter (· ≠ 0)

/-- The blocks of the table from `node` down, each with its height above the leaves. -/
def tableNodes (c : Nat → Block) (perIndex : Nat) : Nat → Nat → List (Nat × Nat)
  | 0, node => [(0, node)]
  | depth + 1, node =>
    (depth + 1, node) :: (kidsOf perIndex (c node).slots).flatMap (tableNodes c perIndex depth)

theorem mem_kidsOf {perIndex : Nat} {slots : Nat → Nat} {k : Nat} :
    k ∈ kidsOf perIndex slots ↔ k ≠ 0 ∧ ∃ i < perIndex, slots i = k := by
  simp only [kidsOf, List.mem_filter, List.mem_map, List.mem_range, decide_eq_true_eq]
  exact and_comm

theorem tableNodes_self (c : Nat → Block) (perIndex depth node : Nat) :
    (depth, node) ∈ tableNodes c perIndex depth node := by
  cases depth <;> simp [tableNodes]

theorem leafAt_mem {c : Nat → Block} {perIndex depth node index leaf : Nat}
    (h : leafAt c perIndex depth node index = some leaf) :
    (0, leaf) ∈ tableNodes c perIndex depth node := by
  induction depth generalizing node index with
  | zero => cases h; exact List.mem_cons_self
  | succ depth ih =>
    simp only [leafAt] at h
    split at h
    · rename_i hc
      simp only [tableNodes, List.mem_cons, List.mem_flatMap]
      exact .inr ⟨_, mem_kidsOf.2 ⟨hc.2, _, hc.1, rfl⟩, ih h⟩
    · cases h

/-! ## From the bottom -/

/-- The leaves below `node`, in order. -/
def leafNodes (c : Nat → Block) (perIndex : Nat) : Nat → Nat → List Nat
  | 0, node => [node]
  | depth + 1, node => (kidsOf perIndex (c node).slots).flatMap (leafNodes c perIndex depth)

theorem leafNodes_succ (c : Nat → Block) (perIndex depth node : Nat) :
    leafNodes c perIndex (depth + 1) node =
      (leafNodes c perIndex depth node).flatMap fun m => kidsOf perIndex (c m).slots := by
  induction depth generalizing node with
  | zero => simp [leafNodes]
  | succ depth ih =>
    rw [leafNodes, List.flatMap_congr fun k _ => ih k, leafNodes, List.flatMap_assoc]

/-- A table one level taller is the table above its leaves, and its leaves. -/
theorem tableNodes_succ_perm (c : Nat → Block) (perIndex depth node : Nat) :
    ((tableNodes c perIndex (depth + 1) node).map Prod.snd).Perm
      ((tableNodes c perIndex depth node).map Prod.snd ++
        leafNodes c perIndex (depth + 1) node) := by
  induction depth generalizing node with
  | zero => simp [tableNodes, leafNodes, List.map_flatMap]
  | succ depth ih =>
    rw [tableNodes, tableNodes, leafNodes]
    simp only [List.map_cons, List.map_flatMap, List.cons_append]
    refine List.Perm.cons _ ?_
    refine (List.Perm.flatMap_left _ fun k _ => ih k).trans ?_
    exact (List.flatMap_append_perm _ _ _).symm

/-- The last step of the walk to a leaf. -/
theorem leafAt_succ_last {c : Nat → Block} {perIndex depth node index : Nat}
    (hi : index < perIndex ^ (depth + 1)) :
    leafAt c perIndex (depth + 1) node index =
      (leafAt c perIndex depth node (index / perIndex)).bind fun m =>
        if (c m).slots (index % perIndex) ≠ 0 then some ((c m).slots (index % perIndex))
        else none := by
  have hpi : 0 < perIndex := Nat.pos_of_ne_zero fun h => by simp [h] at hi
  induction depth generalizing node index with
  | zero =>
    have hlt : index < perIndex := by simpa using hi
    simp [leafAt, hlt, Nat.mod_eq_of_lt hlt]
  | succ depth ih =>
    have hmod : index % perIndex ^ (depth + 1) < perIndex ^ (depth + 1) :=
      Nat.mod_lt _ (Nat.pow_pos hpi)
    have hdiv : index / perIndex / perIndex ^ depth = index / perIndex ^ (depth + 1) := by
      rw [Nat.div_div_eq_div_mul, ← Nat.pow_succ']
    have hrem : index % perIndex ^ (depth + 1) / perIndex = index / perIndex % perIndex ^ depth := by
      rw [Nat.pow_succ', Nat.mod_mul_right_div_self]
    have hlow : index % perIndex ^ (depth + 1) % perIndex = index % perIndex :=
      Nat.mod_mod_of_dvd _ ⟨_, Nat.pow_succ'⟩
    rw [leafAt_succ, leafAt_succ c perIndex depth node (index / perIndex), hdiv]
    split
    · rw [ih hmod, hrem, hlow]
    · rfl

/-! ## Walking it -/

theorem walkTable_ok {fs : Fs} {depth node index leaf : Nat} {s t : St} (hpi : 0 < fs.perIndex)
    (h : walkTable fs depth (fs.perIndex ^ depth) node index s = (.ok leaf, t)) :
    Same s t ∧ leafAt (fs.now s) fs.perIndex depth node index = some leaf := by
  induction depth generalizing node index s with
  | zero => cases h; exact ⟨.refl _, rfl⟩
  | succ depth ih =>
    simp only [walkTable, Prog.bind_eq_ok, need_eq_ok, Prog.ensure_eq_ok] at h
    obtain ⟨slots, u, hr, -, _, ⟨-, rfl⟩, -, _, ⟨hlt, rfl⟩, -, _, ⟨hne, rfl⟩, h⟩ := h
    obtain ⟨hs, rfl, -⟩ := readSlots_ok hr
    rw [Nat.pow_succ, Nat.mul_div_cancel _ hpi] at hlt hne h
    obtain ⟨hs', hl⟩ := ih h
    refine ⟨hs.trans hs', ?_⟩
    rw [hs.now] at hl
    simp only [leafAt]
    rw [if_pos ⟨hlt, hne⟩]
    exact hl

/-- The walk makes one read a level: it ends at the leaf when all are answered, and otherwise with
an error, having changed nothing. -/
theorem walkTable_run {fs : Fs} (hz : fs.Sized) (hpi : 0 < fs.perIndex) {c : Nat → Block}
    {depth node index leaf : Nat} {s : St} (hc : fs.now s = c)
    (hin : ∀ p ∈ tableNodes c fs.perIndex depth node, p.2 < fs.totalBlocks)
    (hl : leafAt c fs.perIndex depth node index = some leaf) :
    ((∀ i < depth, fs.dev.ask.read (s.tick + i) = true) →
      walkTable fs depth (fs.perIndex ^ depth) node index s = (.ok leaf, s.ticked depth)) ∧
    ((∃ i < depth, fs.dev.ask.read (s.tick + i) = false) →
      ∃ t, walkTable fs depth (fs.perIndex ^ depth) node index s = (.error (.status .io), t) ∧
        Same s t) := by
  induction depth generalizing node index s with
  | zero =>
    cases hl
    exact ⟨fun _ => rfl, fun ⟨i, hi, _⟩ => absurd hi (Nat.not_lt_zero i)⟩
  | succ depth ih =>
    simp only [leafAt] at hl
    split at hl
    case isFalse => cases hl
    rename_i hcond
    obtain ⟨hlt, hne⟩ := hcond
    have hread := readSlots_run hz (hin _ (tableNodes_self ..)) s
    by_cases hr : fs.dev.ask.read s.tick = true
    case neg =>
      rw [if_neg hr] at hread
      refine ⟨fun hall => absurd (hall 0 (Nat.succ_pos _)) hr, fun _ => ?_⟩
      refine ⟨s.ticked 1, ?_, rfl, rfl⟩
      simp only [walkTable, Prog.bind_of_error hread]
    rw [if_pos hr, hc] at hread
    have hkid : (c node).slots (index / fs.perIndex ^ depth) ∈
        kidsOf fs.perIndex (c node).slots := mem_kidsOf.2 ⟨hne, _, hlt, rfl⟩
    have hstep : walkTable fs (depth + 1) (fs.perIndex ^ (depth + 1)) node index s =
        walkTable fs depth (fs.perIndex ^ depth) ((c node).slots (index / fs.perIndex ^ depth))
          (index % fs.perIndex ^ depth) (s.ticked 1) := by
      have hpow : fs.perIndex ^ depth ≠ 0 := Nat.pos_iff_ne_zero.1 (Nat.pow_pos hpi)
      have hbelow : fs.perIndex ^ depth = fs.perIndex ^ (depth + 1) / fs.perIndex := by
        rw [Nat.pow_succ, Nat.mul_div_cancel _ hpi]
      rw [hbelow] at hpow hlt hne ⊢
      simp only [walkTable]
      rw [Prog.bind_of_ok hread, Prog.bind_of_ok (Prog.ensure_of _ hpow _),
        Prog.bind_of_ok (need_of _ hlt _), Prog.bind_of_ok (need_of _ hne _)]
    have hin' : ∀ p ∈ tableNodes c fs.perIndex depth
        ((c node).slots (index / fs.perIndex ^ depth)), p.2 < fs.totalBlocks := fun p hp =>
      hin p (by
        simp only [tableNodes, List.mem_cons, List.mem_flatMap]
        exact .inr ⟨_, hkid, hp⟩)
    obtain ⟨hgood, hbad⟩ := ih (s := s.ticked 1) hc hin' hl
    rw [hstep]
    refine ⟨fun hall => ?_, fun ⟨i, hi, hno⟩ => ?_⟩
    · rw [hgood fun i hi => ?_, St.ticked_add, Nat.add_comm 1]
      have := hall (i + 1) (Nat.succ_lt_succ hi)
      rwa [St.ticked_tick, Nat.add_assoc, Nat.add_comm 1]
    · cases i with
      | zero => exact absurd hno (by simpa using hr)
      | succ i =>
        obtain ⟨t, ht, hs⟩ := hbad ⟨i, Nat.lt_of_succ_lt_succ hi, by
          rwa [St.ticked_tick, Nat.add_assoc, Nat.add_comm 1]⟩
        exact ⟨t, ht, hs⟩

/-- What the medium holds is an owner table, and it says `own`. -/
structure TableOf (fs : Fs) (c : Nat → Block) (own : Nat → Nat) : Prop where
  span : fs.perIndex ^ fs.tableDepth < 2 ^ 64
  leaf : ∀ b < fs.totalBlocks, ∃ l,
    leafAt c fs.perIndex fs.tableDepth fs.tableRoot (b / fs.perLeaf) = some l ∧
    own b = (c l).slots (b % fs.perLeaf)
  inside : ∀ p ∈ tableNodes c fs.perIndex fs.tableDepth fs.tableRoot, p.2 < fs.totalBlocks
  outside : ∀ b, fs.totalBlocks ≤ b → own b = ownerVoid

theorem TableOf.spanOf_eq {fs : Fs} {c : Nat → Block} {own : Nat → Nat} (h : TableOf fs c own) :
    spanOf fs.perIndex fs.tableDepth = fs.perIndex ^ fs.tableDepth :=
  Nat.mod_eq_of_lt h.span

theorem TableOf.unique {fs : Fs} {c : Nat → Block} {own own' : Nat → Nat} (h : TableOf fs c own)
    (h' : TableOf fs c own') : own = own' := by
  funext b
  by_cases inside : b < fs.totalBlocks
  · obtain ⟨l, at_l, same⟩ := h.leaf b inside
    obtain ⟨l', at_l', same'⟩ := h'.leaf b inside
    obtain rfl := Option.some.inj (at_l.symm.trans at_l')
    rw [same, same']
  · rw [h.outside b (Nat.le_of_not_lt inside), h'.outside b (Nat.le_of_not_lt inside)]

/-- The blocks of the live table, as the ledger lists them. -/
def tableClaims (nodes : List (Nat × Nat)) : Multiset (Nat × Nat) :=
  (nodes.map fun p => (p.2, ownerArchive) : List (Nat × Nat))

end ReconOS.Reconfs
