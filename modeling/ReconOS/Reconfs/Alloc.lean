import ReconOS.Reconfs.Mounted

/-! The first allocation of a transaction: which free blocks the search can reach. -/
namespace ReconOS.Reconfs

/-- A search that began at request `n` has loaded the first `k` leaves, and changed nothing. -/
structure Scanning (fs : Fs) (c : Nat → Block) (own : Nat → Nat) (n k : Nat) (s : St) : Prop where
  now_eq : fs.now s = c
  tick_eq : s.tick = n + k * fs.leafCost
  index_eq : s.txn.leaves.map TxnLeaf.index = List.range k
  image : ∀ l ∈ s.txn.leaves, ∀ b < fs.totalBlocks, leafIndexOf fs b = l.index →
    l.data (b % fs.perLeaf) = own b
  freed : s.txn.freed = []
  sound : s.txn.failed = false

section Scan

variable {fs : Fs} {c : Nat → Block} {own : Nat → Nat} {n k b : Nat} {s : St}

theorem Scanning.length (h : Scanning fs c own n k s) : s.txn.leaves.length = k := by
  simpa using congrArg List.length h.index_eq

theorem Scanning.loaded (h : Scanning fs c own n k s) (hk : leafIndexOf fs b < k) :
    ∃ l ∈ s.txn.leaves, s.txn.leaf? (leafIndexOf fs b) = some l ∧ l.index = leafIndexOf fs b := by
  rcases hl : s.txn.leaf? (leafIndexOf fs b) with _ | l
  · have hmem : leafIndexOf fs b ∈ s.txn.leaves.map TxnLeaf.index := by
      rw [h.index_eq]; exact List.mem_range.2 hk
    obtain ⟨l, hl', heq⟩ := List.mem_map.1 hmem
    exact absurd heq (Txn.leaf?_eq_none.1 hl l hl')
  · obtain ⟨hmem, heq⟩ := Txn.leaf?_mem hl
    exact ⟨l, hmem, rfl, heq⟩

theorem Scanning.unloaded (h : Scanning fs c own n k s) (hk : k ≤ leafIndexOf fs b) :
    s.txn.leaf? (leafIndexOf fs b) = none := by
  refine Txn.leaf?_eq_none.2 fun l hl heq => ?_
  have hmem : l.index ∈ List.range k := h.index_eq ▸ List.mem_map_of_mem hl
  have := List.mem_range.1 hmem
  omega

theorem Scanning.hit (h : Scanning fs c own n k s) (hb : b < fs.totalBlocks)
    (hk : leafIndexOf fs b < k) : txnOwnerGet fs b s = (.ok (own b), s) := by
  obtain ⟨l, hmem, hl, heq⟩ := h.loaded hk
  simp only [txnOwnerGet]
  rw [Prog.bind_of_ok (leafFor_hit hl)]
  simp only [h.image l hmem b hb heq.symm, Prog.pure_run]

theorem Scanning.load (h : Scanning fs c own n k s) (hz : fs.Sized) (ht : TableOf fs c own)
    (hb : b < fs.totalBlocks) (hk : leafIndexOf fs b = k) (hroom : k ≠ txnLeaves)
    (hans : fs.dev.ask.LeafAnswered fs.tableDepth (n + k * fs.leafCost)) :
    ∃ t, txnOwnerGet fs b s = (.ok (own b), t) ∧ Scanning fs c own n (k + 1) t := by
  obtain ⟨old, hold, hown⟩ := ht.leaf b hb
  have hload := leafFor_answered hz ht h.now_eq (h.unloaded hk.ge) (h.length.symm ▸ hroom) hold
    (h.tick_eq ▸ hans)
  refine ⟨(s.ticked fs.leafCost).addImage (liveImage c (leafIndexOf fs b) old), ?_, h.now_eq, ?_,
    ?_, ?_, h.freed, h.sound⟩
  · simp only [txnOwnerGet]
    rw [Prog.bind_of_ok hload]
    simp only [Prog.pure_run, liveImage, hown]
  · simp only [St.addImage, St.ticked_tick, h.tick_eq, Nat.succ_mul, Nat.add_assoc]
  · simp only [St.addImage, St.ticked_txn, List.map_append, h.index_eq, List.map_cons,
      List.map_nil, liveImage, hk, List.range_succ]
  · intro l hl x hx hxl
    rcases List.mem_append.1 hl with hl | hl
    · exact h.image l hl x hx hxl
    · obtain rfl := List.mem_singleton.1 hl
      obtain ⟨old', hold', hown'⟩ := ht.leaf x hx
      have hsame : leafIndexOf fs x = leafIndexOf fs b := hxl
      rw [show x / fs.perLeaf = leafIndexOf fs b from hsame] at hold'
      rw [show b / fs.perLeaf = leafIndexOf fs b from rfl] at hold
      obtain rfl : old' = old := Option.some.inj (hold'.symm.trans hold)
      exact hown'.symm

theorem Scanning.stuck (h : Scanning fs c own n k s) (hz : fs.Sized) (ht : TableOf fs c own)
    (hb : b < fs.totalBlocks) (hk : leafIndexOf fs b = k)
    (hno : k = txnLeaves ∨ ¬fs.dev.ask.LeafAnswered fs.tableDepth (n + k * fs.leafCost)) :
    ∃ t, txnOwnerGet fs b s = (.ok ownerArchive, t) ∧ t.txn.failed = true := by
  obtain ⟨old, hold, -⟩ := ht.leaf b hb
  have hnone := h.unloaded hk.ge
  simp only [txnOwnerGet]
  by_cases hroom : k = txnLeaves
  · exact ⟨_, Prog.bind_of_ok (leafFor_full hnone (h.length.trans hroom)), rfl⟩
  · obtain ⟨t, hrun, -, htxn⟩ := leafFor_refused hz ht h.now_eq hnone
      (h.length.symm ▸ hroom) hold (h.tick_eq ▸ hno.resolve_left hroom)
    exact ⟨t, Prog.bind_of_ok hrun, by rw [htxn]⟩

/-- The search reaches `b` from where it stands: every leaf up to `b`'s has a place among the
images, and the requests it costs are answered. -/
def Reaches (fs : Fs) (n k b : Nat) : Prop :=
  leafIndexOf fs b < txnLeaves ∧
    ∀ j, k ≤ j → j ≤ leafIndexOf fs b →
      fs.dev.ask.LeafAnswered fs.tableDepth (n + j * fs.leafCost)

/-- Looking at one block: its live owner, or a poisoned transaction. -/
theorem Scanning.look (h : Scanning fs c own n k s) (hz : fs.Sized) (ht : TableOf fs c own)
    (hk16 : k ≤ txnLeaves) (hb : b < fs.totalBlocks) (hk : leafIndexOf fs b ≤ k) :
    (∃ t k', txnOwnerGet fs b s = (.ok (own b), t) ∧ Scanning fs c own n k' t ∧ k ≤ k' ∧
      k' ≤ txnLeaves ∧ leafIndexOf fs b < k' ∧
      ∀ j, k ≤ j → j < k' → fs.dev.ask.LeafAnswered fs.tableDepth (n + j * fs.leafCost)) ∨
    (¬Reaches fs n k b ∧ ∃ t, txnOwnerGet fs b s = (.ok ownerArchive, t) ∧ t.txn.failed = true) := by
  by_cases hlt : leafIndexOf fs b < k
  · exact .inl ⟨s, k, h.hit hb hlt, h, Nat.le_refl k, hk16, hlt, fun j hj hj' => by omega⟩
  have heq : leafIndexOf fs b = k := by omega
  by_cases hno : k = txnLeaves ∨ ¬fs.dev.ask.LeafAnswered fs.tableDepth (n + k * fs.leafCost)
  · refine .inr ⟨fun hr => ?_, h.stuck hz ht hb heq hno⟩
    rcases hno with hfull | hans
    · have := hr.1; omega
    · exact hans (hr.2 k (Nat.le_refl k) heq.ge)
  · rw [not_or, not_not] at hno
    obtain ⟨t, hrun, hs⟩ := h.load hz ht hb heq hno.1 hno.2
    refine .inl ⟨t, k + 1, hrun, hs, Nat.le_succ k, by omega, by omega, fun j hj hj' => ?_⟩
    obtain rfl : j = k := by omega
    exact hno.2

theorem allocScan_succ_run {owner left blk : Nat} {s t : St} {held : Nat} (hin : blk < fs.totalBlocks)
    (hrun : txnOwnerGet fs blk s = (.ok held, t)) :
    allocScan fs owner (left + 1) blk s =
      (if held = ownerVoid ∧ t.txn.wasFreedHere blk = false then
        if t.txn.failed = true then pure 0 else handOut fs blk owner
      else if t.txn.failed = true then pure 0
      else allocScan fs owner left (blk + 1) : M Nat) t := by
  simp only [allocScan]
  rw [if_neg (Nat.not_le.2 hin), Prog.bind_of_ok hrun, getTxn_bind]

/-- A block the search finds free it hands out. -/
theorem Scanning.take (owner : Nat) (h : Scanning fs c own n k s) (hlt : leafIndexOf fs b < k) :
    ∃ u, handOut fs b owner s = (.ok b, u) ∧ u.txn.failed = false := by
  obtain ⟨l, -, hl, -⟩ := h.loaded hlt
  have hset : txnOwnerSet fs b owner s =
      (.ok (), { s with txn := s.txn.setImage (leafIndexOf fs b) (b % fs.perLeaf) owner }) := by
    simp only [txnOwnerSet]
    rw [Prog.bind_of_ok (leafFor_hit hl)]
    rfl
  exact ⟨_, Prog.bind_of_ok hset, h.sound⟩

/-- What a search ends with when it ends well: a free block it could reach. -/
theorem allocScan_sound {owner left blk : Nat} {u : St} {r : Nat} (hz : fs.Sized)
    (ht : TableOf fs c own)
    (hleaf : leafIndexOf fs (firstDataBlock fs.blockSize) = 0)
    (h : Scanning fs c own n k s) (hk16 : k ≤ txnLeaves)
    (hlo : firstDataBlock fs.blockSize ≤ blk) (hk : leafIndexOf fs blk ≤ k)
    (hrun : allocScan fs owner left blk s = (.ok r, u)) (hr : r ≠ 0) :
    firstDataBlock fs.blockSize ≤ r ∧ r < fs.totalBlocks ∧ own r = ownerVoid ∧
      Reaches fs n k r := by
  induction left generalizing blk s k with
  | zero => cases hrun; exact absurd rfl hr
  | succ left ih =>
    -- The search may first have to wrap to the front.
    have hwrap : ∃ x, firstDataBlock fs.blockSize ≤ x ∧ x < fs.totalBlocks ∧
        leafIndexOf fs x ≤ k ∧ allocScan fs owner (left + 1) x s = (.ok r, u) := by
      by_cases hin : blk < fs.totalBlocks
      · exact ⟨blk, hlo, hin, hk, hrun⟩
      · refine ⟨firstDataBlock fs.blockSize, Nat.le_refl _, hz.front, by omega, ?_⟩
        simp only [allocScan, if_pos (Nat.not_lt.1 hin)] at hrun
        simpa only [allocScan, if_neg (Nat.not_le.2 hz.front)] using hrun
    obtain ⟨x, hxlo, hx, hxk, hrun⟩ := hwrap
    obtain ⟨t, k', hget, hs, hkk, hk'16, hlt, hans⟩ | ⟨-, t, hget, hfail⟩ :=
      h.look hz ht hk16 hx hxk
    · rw [allocScan_succ_run hx hget] at hrun
      split at hrun
      · rename_i hfree
        rw [if_neg (by simp [hs.sound])] at hrun
        obtain ⟨u', htake, -⟩ := hs.take owner hlt
        rw [htake] at hrun
        cases hrun
        exact ⟨hxlo, hx, hfree.1, by omega, fun j hj hj' => hans j hj (by omega)⟩
      · rw [if_neg (by simp [hs.sound])] at hrun
        have hnext : leafIndexOf fs (x + 1) ≤ k' := by
          have : leafIndexOf fs (x + 1) ≤ leafIndexOf fs x + 1 := by
            simp only [leafIndexOf]
            rw [Nat.succ_div]
            split <;> omega
          omega
        obtain ⟨hr1, hr2, hr3, hr4, hr5⟩ := ih hs hk'16 (by omega) hnext hrun
        refine ⟨hr1, hr2, hr3, hr4, fun j hj hj' => ?_⟩
        by_cases hjk : j < k'
        · exact hans j hj hjk
        · exact hr5 j (Nat.not_lt.1 hjk) hj'
    · -- A poisoned search hands out nothing.
      rw [allocScan_succ_run hx hget] at hrun
      rw [if_neg (by simp [ownerArchive, ownerVoid]), if_pos hfail] at hrun
      cases hrun
      exact absurd rfl hr

/-- A search that can reach a free block ends well. -/
theorem allocScan_complete (owner left : Nat) {blk : Nat} (hz : fs.Sized) (ht : TableOf fs c own)
    (h : Scanning fs c own n k s) (hk16 : k ≤ txnLeaves) (hk : leafIndexOf fs blk ≤ k)
    (hbb : blk ≤ b) (hleft : b - blk < left) (hb : b < fs.totalBlocks) (hfree : own b = ownerVoid)
    (hreach : Reaches fs n k b) :
    ∃ r u, allocScan fs owner left blk s = (.ok r, u) ∧ blk ≤ r ∧ u.txn.failed = false := by
  induction left generalizing blk s k with
  | zero => omega
  | succ left ih =>
    have hin : blk < fs.totalBlocks := by omega
    have hmono : leafIndexOf fs blk ≤ leafIndexOf fs b := Nat.div_le_div_right hbb
    obtain ⟨t, k', hget, hs, hkk, hk'16, hlt, hans⟩ | ⟨hno, -⟩ := h.look hz ht hk16 hin hk
    · rw [allocScan_succ_run hin hget]
      split
      · rw [if_neg (by simp [hs.sound])]
        obtain ⟨u, htake, hu⟩ := hs.take owner hlt
        exact ⟨blk, u, htake, Nat.le_refl _, hu⟩
      · rename_i hheld
        rw [if_neg (by simp [hs.sound])]
        have hne : blk ≠ b := by
          rintro rfl
          exact hheld ⟨hfree, by simp [Txn.wasFreedHere, hs.freed]⟩
        have hnext : leafIndexOf fs (blk + 1) ≤ k' := by
          have : leafIndexOf fs (blk + 1) ≤ leafIndexOf fs blk + 1 := by
            simp only [leafIndexOf]
            rw [Nat.succ_div]
            split <;> omega
          omega
        obtain ⟨r, u, hrun, hle, hu⟩ := ih hs hk'16 hnext (by omega) (by omega)
          ⟨hreach.1, fun j hj hj' => hreach.2 j (by omega) hj'⟩
        exact ⟨r, u, hrun, by omega, hu⟩
    · exact absurd ⟨by have := hreach.1; omega, fun j hj hj' => hreach.2 j hj (by omega)⟩ hno

end Scan

theorem Fs.Sized.firstData_lt_perLeaf {fs : Fs} (h : fs.Sized) :
    firstDataBlock fs.blockSize < fs.perLeaf := by
  have hlo := h.blockMin_le
  have hdiv : blockMax / fs.blockSize ≤ blockMax / blockMin := Nat.div_le_div_left hlo (by decide)
  have hsixteen : blockMax / blockMin = 16 := by decide
  rw [h.perLeaf_eq, firstDataBlock, superB, perIndexFor]
  simp only [blockMin] at hlo
  omega

theorem txnBegin_ok {fs : Fs} {s t : St} (h : txnBegin fs s = (.ok true, t)) :
    t.disk = s.disk ∧ t.tick = s.tick + 1 ∧ t.txn = freshTxn fs := by
  simp only [txnBegin] at h
  split at h
  · cases h
  · rw [Prog.bind_of_ok (kzalloc_run fs.dev s)] at h
    split at h
    · cases h; exact ⟨rfl, rfl, rfl⟩
    · cases h

section First

variable {fs : Fs} {own : Nat → Nat} {s t : St}

theorem Scanning.begin (hb : txnBegin fs s = (.ok true, t)) :
    Scanning fs (fs.now s) own t.tick 0 t := by
  obtain ⟨hdisk, -, htxn⟩ := txnBegin_ok hb
  exact ⟨by simp only [Fs.now, hdisk], by simp, by simp [htxn, freshTxn], by simp [htxn, freshTxn],
    by simp [htxn, freshTxn], by simp [htxn, freshTxn]⟩

theorem txnAlloc_first_run (hb : txnBegin fs s = (.ok true, t)) (owner : Nat) :
    txnAlloc fs owner t =
      allocScan fs owner fs.totalBlocks (firstDataBlock fs.blockSize) t := by
  simp [txnAlloc, (txnBegin_ok hb).2.2, freshTxn]

theorem Fs.Sized.firstData_leaf (hz : fs.Sized) :
    leafIndexOf fs (firstDataBlock fs.blockSize) = 0 :=
  Nat.div_eq_of_lt hz.firstData_lt_perLeaf

theorem txnAlloc_first_sound (hz : fs.Sized) (ht : TableOf fs (fs.now s) own)
    (hb : txnBegin fs s = (.ok true, t)) {owner blk : Nat} {u : St}
    (h : txnAlloc fs owner t = (.ok blk, u)) (hne : blk ≠ 0) :
    firstDataBlock fs.blockSize ≤ blk ∧ blk < fs.totalBlocks ∧ own blk = ownerVoid ∧
      Reaches fs t.tick 0 blk :=
  allocScan_sound hz ht hz.firstData_leaf (Scanning.begin hb) (Nat.zero_le _) (Nat.le_refl _)
    hz.firstData_leaf.le ((txnAlloc_first_run hb owner).symm.trans h) hne

/-- The first allocation of a transaction ends well exactly when a free block lies within the leaf
images a transaction may hold, counted from the front of the volume, and the requests made on the
way to it are answered. -/
theorem txnAlloc_first_iff (owner : Nat) (hz : fs.Sized) (ht : TableOf fs (fs.now s) own)
    (hb : txnBegin fs s = (.ok true, t)) :
    (∃ blk u, txnAlloc fs owner t = (.ok blk, u) ∧ blk ≠ 0 ∧ blk < fs.totalBlocks ∧
        own blk = ownerVoid ∧ u.txn.failed = false) ↔
      ∃ b, firstDataBlock fs.blockSize ≤ b ∧ b < fs.totalBlocks ∧ own b = ownerVoid ∧
        leafIndexOf fs b < txnLeaves ∧
        ∀ j ≤ leafIndexOf fs b,
          fs.dev.ask.LeafAnswered fs.tableDepth (t.tick + j * fs.leafCost) := by
  constructor
  · rintro ⟨blk, u, hrun, hne, -, -, -⟩
    obtain ⟨hlo, hlt, hfree, hroom, hans⟩ := txnAlloc_first_sound hz ht hb hrun hne
    exact ⟨blk, hlo, hlt, hfree, hroom, fun j hj => hans j (Nat.zero_le j) hj⟩
  · rintro ⟨b, hlo, hlt, hfree, hroom, hans⟩
    have hreach : Reaches fs t.tick 0 b := ⟨hroom, fun j _ hj => hans j hj⟩
    obtain ⟨r, u, hscanned, hle, hu⟩ := allocScan_complete owner fs.totalBlocks
      hz ht (Scanning.begin hb) (Nat.zero_le _) hz.firstData_leaf.le hlo
      (by omega) hlt hfree hreach
    rw [← txnAlloc_first_run hb] at hscanned
    have hpos : 0 < firstDataBlock fs.blockSize := Nat.succ_pos _
    obtain ⟨-, hr, hrfree, -⟩ := txnAlloc_first_sound hz ht hb hscanned (by omega)
    exact ⟨r, u, hscanned, by omega, hr, hrfree, hu⟩

end First

theorem txnBegin_run {fs : Fs} (ho : fs.dev.ask.Obliging) (hm : fs.mounted = true) (s : St) :
    txnBegin fs s = (.ok true, { s.ticked 1 with txn := freshTxn fs }) := by
  simp only [txnBegin, hm, Bool.true_eq_false, ↓reduceIte]
  rw [Prog.bind_of_ok (kzalloc_run fs.dev s), (ho s.tick).2.2.2]
  rfl

/-! ## On a volume just formatted -/

/-- A medium of zeros. -/
def blank : St := ⟨.fresh fun _ => .zero, 0, .empty⟩

/-- An outside that grants everything. -/
def granting : Answers where
  read _ := true
  write _ := .done
  flush _ := true
  memory _ := true
  clock n := n

theorem granting_obliging : granting.Obliging := fun _ => ⟨rfl, rfl, rfl, rfl⟩

/-- A device of 4 KiB blocks. -/
def plainDevice (blockCount : Nat) (h : blockCount < 2 ^ 64) : BlockDevice where
  blockSize := 4096
  blockCount := blockCount
  count_lt := h
  readOnly := false
  seekIsFree := true
  discardSupported := false
  transferHint := 0
  ask := granting

/-- 32 GiB: the owner table alone is longer than what sixteen leaves cover. -/
def bigDevice : BlockDevice := plainDevice (2 ^ 23) (by decide)

def smallDevice : BlockDevice := plainDevice 64 (by decide)

theorem bigDevice_accepted : Accepted bigDevice 4096 where
  writable := rfl
  sizeOk := by decide
  devPos := by decide
  divides := by decide
  fits := by decide +kernel
  whole := by decide +kernel

theorem smallDevice_accepted : Accepted smallDevice 4096 where
  writable := rfl
  sizeOk := by decide
  devPos := by decide
  divides := by decide
  fits := by decide +kernel
  whole := by decide +kernel

/-- The search misses the free space of a volume just formatted, if the volume is large. -/
theorem txnAlloc_first_misses :
    ∃ fs t u v, format bigDevice none 4096 blank = (.ok (), t) ∧ mount bigDevice t = (.ok fs, u) ∧
      TableOf fs (fs.now u) (formatOwner (laidOut bigDevice 4096)) ∧
      (∃ b, firstDataBlock fs.blockSize ≤ b ∧ b < fs.totalBlocks ∧
        formatOwner (laidOut bigDevice 4096) b = ownerVoid) ∧
      txnBegin fs u = (.ok true, v) ∧
      ∀ owner blk w, txnAlloc fs owner v = (.ok blk, w) → blk = 0 := by
  obtain ⟨fs, t, u, hformat, hmount, hready, htable⟩ := fresh_volume 4096
    bigDevice_accepted granting_obliging (by decide) none blank
  obtain rfl : fs = freshFs bigDevice none 4096 := hready.2
  change TableOf _ _ (formatOwner (laidOut bigDevice 4096)) at htable
  have hbegin := @txnBegin_run (freshFs bigDevice none 4096) granting_obliging rfl u
  refine ⟨_, t, u, _, hformat, hmount, htable, ⟨2 ^ 23 - 1, by decide, by decide +kernel,
    by decide +kernel⟩, hbegin, fun owner blk w hrun => ?_⟩
  by_contra hne
  obtain ⟨-, -, hfree, hroom, -⟩ := txnAlloc_first_sound hready.1.sized htable hbegin hrun hne
  have hused : 16 * 512 ≤ formatUsed (laidOut bigDevice 4096) := by decide +kernel
  have hleaf : leafIndexOf (freshFs bigDevice none 4096) blk = blk / 512 := rfl
  rw [hleaf, txnLeaves] at hroom
  rw [formatOwner, if_pos (by omega)] at hfree
  cases hfree

theorem txnAlloc_first_small :
    ∃ fs t u v, format smallDevice none 4096 blank = (.ok (), t) ∧
      mount smallDevice t = (.ok fs, u) ∧ txnBegin fs u = (.ok true, v) ∧
      ∃ blk w, txnAlloc fs 7 v = (.ok blk, w) ∧ blk ≠ 0 ∧ blk < fs.totalBlocks ∧
        formatOwner (laidOut smallDevice 4096) blk = ownerVoid ∧ w.txn.failed = false := by
  obtain ⟨fs, t, u, hformat, hmount, hready, htable⟩ := fresh_volume 4096
    smallDevice_accepted granting_obliging (by decide) none blank
  obtain rfl : fs = freshFs smallDevice none 4096 := hready.2
  have hbegin := @txnBegin_run (freshFs smallDevice none 4096) granting_obliging rfl u
  refine ⟨_, t, u, _, hformat, hmount, hbegin, ?_⟩
  refine (txnAlloc_first_iff 7 hready.1.sized htable hbegin).2 ⟨63, by decide, by decide +kernel,
    by decide +kernel, by decide +kernel, fun j _ => ⟨rfl, fun _ _ => rfl⟩⟩

end ReconOS.Reconfs
