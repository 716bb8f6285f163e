import ReconOS.Reconfs.Table
import ReconOS.Reconfs.Txn

/-! The leaf images of a transaction: how they are loaded, and the owners they stand for. -/
namespace ReconOS.Reconfs

@[simp] theorem getTxn_bind {α : Type} (f : Txn → M α) (s : St) : (getTxn >>= f) s = f s.txn s := rfl

theorem Fs.Sized.perLeaf_pos {fs : Fs} (h : fs.Sized) : 0 < fs.perLeaf := by
  have hlo := h.blockMin_le
  rw [h.perLeaf_eq, perIndexFor]
  simp only [blockMin] at hlo
  omega

theorem Fs.Sized.perIndex_pos {fs : Fs} (h : fs.Sized) : 0 < fs.perIndex := by
  rw [h.perIndex_eq, ← h.perLeaf_eq]
  exact h.perLeaf_pos

/-! ## Images by number -/

theorem Txn.leaf?_mem {t : Txn} {want : Nat} {l : TxnLeaf} (h : t.leaf? want = some l) :
    l ∈ t.leaves ∧ l.index = want :=
  ⟨List.mem_of_find?_eq_some h, by simpa using List.find?_some h⟩

theorem Txn.leaf?_eq_none {t : Txn} {want : Nat} :
    t.leaf? want = none ↔ ∀ l ∈ t.leaves, l.index ≠ want := by
  simp [Txn.leaf?, List.find?_eq_none]

/-- The image just loaded is the one found, and the others are found as before. -/
theorem Txn.leaf?_append {t : Txn} {l : TxnLeaf} (hl : t.leaf? l.index = none) (want : Nat) :
    Txn.leaf? { t with leaves := t.leaves ++ [l] } want =
      if l.index = want then some l else t.leaf? want := by
  simp only [Txn.leaf?, List.find?_append] at hl ⊢
  by_cases h : l.index = want
  · subst h
    simp [hl]
  · simp [h]

/-! ## Loading one -/

theorem TableOf.leaf_lt {fs : Fs} {c : Nat → Block} {own : Nat → Nat} (h : TableOf fs c own)
    {index leaf : Nat}
    (hl : leafAt c fs.perIndex fs.tableDepth fs.tableRoot index = some leaf) :
    leaf < fs.totalBlocks :=
  h.inside _ (leafAt_mem hl)

/-- The state with one more leaf image. -/
def St.addImage (s : St) (l : TxnLeaf) : St :=
  { s with txn := { s.txn with leaves := s.txn.leaves ++ [l] } }

/-- The requests a leaf image costs, from request `n` on, are all answered. -/
def Answers.LeafAnswered (a : Answers) (depth n : Nat) : Prop :=
  a.memory n = true ∧ ∀ i ≤ depth, a.read (n + 1 + i) = true

/-- How many requests a leaf image costs. -/
def Fs.leafCost (fs : Fs) : Nat := fs.tableDepth + 2

/-- The image of a leaf, as the live table has it. -/
def liveImage (c : Nat → Block) (want old : Nat) : TxnLeaf :=
  ⟨want, old, 0, (c old).slots, false⟩

section Load

variable {fs : Fs} {own : Nat → Nat} {c : Nat → Block} {blk old : Nat} {s : St}

theorem leafFor_hit {l : TxnLeaf} (h : s.txn.leaf? (leafIndexOf fs blk) = some l) :
    leafFor fs blk s = (.ok (some l), s) := by
  simp only [leafFor, getTxn_bind, h, Prog.pure_run]

theorem leafFor_full (h : s.txn.leaf? (leafIndexOf fs blk) = none)
    (hfull : s.txn.leaves.length = txnLeaves) :
    leafFor fs blk s = (.ok none, { s with txn := { s.txn with failed := true } }) := by
  simp only [leafFor, getTxn_bind, h, hfull, ↓reduceIte]
  rfl

theorem readImage_answered (hz : fs.Sized) (ht : TableOf fs c own) (hc : fs.now s = c) {want : Nat}
    (hold : leafAt c fs.perIndex fs.tableDepth fs.tableRoot want = some old)
    (hans : ∀ i ≤ fs.tableDepth, fs.dev.ask.read (s.tick + i) = true) :
    readImage fs want s = (.ok (liveImage c want old), s.ticked (fs.tableDepth + 1)) := by
  have hwalk : liveLeafBlock fs want s = (.ok old, s.ticked fs.tableDepth) := by
    rw [liveLeafBlock, ht.spanOf_eq]
    exact (walkTable_run hz hz.perIndex_pos hc ht.inside hold).1 fun i hi =>
      hans i (Nat.le_of_lt hi)
  have hslots := readSlots_run hz (ht.leaf_lt hold) (s.ticked fs.tableDepth)
  rw [St.ticked_tick, if_pos (hans _ (Nat.le_refl _)), Fs.now_ticked, hc, St.ticked_add] at hslots
  simp only [readImage]
  rw [Prog.bind_of_ok hwalk, Prog.bind_of_ok hslots]
  rfl

theorem readImage_refused (hz : fs.Sized) (ht : TableOf fs c own) (hc : fs.now s = c) {want : Nat}
    (hold : leafAt c fs.perIndex fs.tableDepth fs.tableRoot want = some old)
    (hans : ∃ i ≤ fs.tableDepth, fs.dev.ask.read (s.tick + i) = false) :
    ∃ t, readImage fs want s = (.error (.status .io), t) ∧ Same s t := by
  obtain ⟨hgood, hbad⟩ := walkTable_run hz hz.perIndex_pos hc ht.inside hold
  rw [← ht.spanOf_eq] at hgood hbad
  by_cases hw : ∃ i < fs.tableDepth, fs.dev.ask.read (s.tick + i) = false
  · obtain ⟨t, hwalk, hs⟩ := hbad hw
    exact ⟨t, Prog.bind_of_error hwalk, hs⟩
  · have hwalk : liveLeafBlock fs want s = _ := hgood fun i hi => by
      by_contra hf
      exact hw ⟨i, hi, by simpa using hf⟩
    obtain ⟨i, hi, hno⟩ := hans
    have hlast : i = fs.tableDepth := by
      by_contra hne
      exact hw ⟨i, Nat.lt_of_le_of_ne hi hne, hno⟩
    subst hlast
    have hslots := readSlots_run hz (ht.leaf_lt hold) (s.ticked fs.tableDepth)
    rw [if_neg (by simpa using hno)] at hslots
    refine ⟨(s.ticked fs.tableDepth).ticked 1, ?_, rfl, rfl⟩
    rw [readImage, Prog.bind_of_ok hwalk, Prog.bind_of_error hslots]

theorem leafFor_answered (hz : fs.Sized) (ht : TableOf fs c own) (hc : fs.now s = c)
    (h : s.txn.leaf? (leafIndexOf fs blk) = none) (hroom : s.txn.leaves.length ≠ txnLeaves)
    (hold : leafAt c fs.perIndex fs.tableDepth fs.tableRoot (leafIndexOf fs blk) = some old)
    (hans : fs.dev.ask.LeafAnswered fs.tableDepth s.tick) :
    leafFor fs blk s = (.ok (some (liveImage c (leafIndexOf fs blk) old)),
      (s.ticked fs.leafCost).addImage (liveImage c (leafIndexOf fs blk) old)) := by
  have hload := readImage_answered hz ht (s := s.ticked 1) hc hold hans.2
  have hcost : 1 + (fs.tableDepth + 1) = fs.leafCost := by simp only [Fs.leafCost]; omega
  rw [St.ticked_add, hcost] at hload
  simp only [leafFor, getTxn_bind, h, hroom, ↓reduceIte]
  rw [Prog.bind_of_ok (kzalloc_run fs.dev s), hans.1]
  simp only [Bool.true_eq_false, ↓reduceIte]
  rw [statusOf, Prog.bind_of_ok (Prog.attempt_of_ok hload)]
  rfl

theorem leafFor_refused (hz : fs.Sized) (ht : TableOf fs c own) (hc : fs.now s = c)
    (h : s.txn.leaf? (leafIndexOf fs blk) = none) (hroom : s.txn.leaves.length ≠ txnLeaves)
    (hold : leafAt c fs.perIndex fs.tableDepth fs.tableRoot (leafIndexOf fs blk) = some old)
    (hans : ¬fs.dev.ask.LeafAnswered fs.tableDepth s.tick) :
    ∃ t, leafFor fs blk s = (.ok none, t) ∧ t.disk = s.disk ∧
      t.txn = { s.txn with failed := true } := by
  simp only [leafFor, getTxn_bind, h, hroom, ↓reduceIte]
  rw [Prog.bind_of_ok (kzalloc_run fs.dev s)]
  by_cases hmem : fs.dev.ask.memory s.tick = true
  case neg =>
    simp only [hmem, ↓reduceIte]
    exact ⟨_, rfl, rfl, rfl⟩
  have hsome : ∃ i ≤ fs.tableDepth, fs.dev.ask.read ((s.ticked 1).tick + i) = false := by
    by_contra hno
    exact hans ⟨hmem, fun i hi => by
      by_contra hf
      exact hno ⟨i, hi, by simpa using hf⟩⟩
  obtain ⟨t, hrun, hs⟩ := readImage_refused hz ht (s := s.ticked 1) hc hold hsome
  have hatt : statusOf (readImage fs (leafIndexOf fs blk)) (s.ticked 1) =
      (.ok (.error (.status .io)), t) := by
    simp only [statusOf, Prog.attempt, hrun]
    rfl
  rw [hmem]
  simp only [Bool.true_eq_false, ↓reduceIte]
  refine ⟨{ t with txn := { t.txn with failed := true } }, ?_, hs.1, by rw [hs.2]; rfl⟩
  rw [Prog.bind_of_ok hatt]
  rfl

end Load

end ReconOS.Reconfs
