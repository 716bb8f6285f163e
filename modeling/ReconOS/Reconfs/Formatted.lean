import ReconOS.Reconfs.Leaves

/-! What the format makes: an owner table that claims exactly the blocks the format stands on, and an
empty root directory, under two equal superblocks. -/
namespace ReconOS.Reconfs

/-! ## The index levels -/

/-- The index levels over a level of `count` blocks from `start` hold what `writeIndex` writes. -/
def Indexed (c : Nat → Block) (perIndex : Nat) : Nat → Nat → Nat → Prop
  | 0, _, _ => True
  | depth + 1, start, count =>
    (∀ k < ceilDiv count perIndex,
      (c (start + count + k)).slots = levelSlots perIndex start count k) ∧
    Indexed c perIndex depth (start + count) (ceilDiv count perIndex)

/-- The block of the top level. -/
def topOf (perIndex : Nat) : Nat → Nat → Nat → Nat
  | 0, start, _ => start
  | depth + 1, start, count => topOf perIndex depth (start + count) (ceilDiv count perIndex)

theorem topOf_range (perIndex depth start count : Nat) :
    start ≤ topOf perIndex depth start count ∧
      topOf perIndex depth start count ≤ start + (count + indexBlocks perIndex depth count) := by
  induction depth generalizing start count with
  | zero => exact ⟨Nat.le_refl _, Nat.le_add_right ..⟩
  | succ depth ih =>
    obtain ⟨hlo, hhi⟩ := ih (start + count) (ceilDiv count perIndex)
    simp only [topOf, indexBlocks]
    omega

theorem lt_ceilDiv {n per k : Nat} (hp : 0 < per) : k < ceilDiv n per ↔ k * per < n := by
  rw [ceilDiv, ← Nat.succ_le_iff, Nat.le_div_iff_mul_le hp, Nat.succ_mul]
  omega

theorem ceilDiv_pos {n per : Nat} (hp : 0 < per) (hn : 0 < n) : 0 < ceilDiv n per := by
  rw [lt_ceilDiv hp]; omega

/-- Where the sum does not wrap there is a leaf for every block. -/
theorem leavesFor_eq {n per : Nat} (hw : n + per ≤ 2 ^ 64) :
    leavesFor n per = ceilDiv n per := by
  rw [leavesFor, ceilDiv, Nat.mod_eq_of_lt (by omega)]

theorem leavesFor_mul_lt (n per : Nat) : leavesFor n per * per < 2 ^ 64 :=
  Nat.lt_of_le_of_lt (Nat.div_mul_le_self _ _) (Nat.mod_lt _ (by decide))

theorem leavesFor_le {n per : Nat} (hp : 0 < per) : leavesFor n per ≤ n := by
  have hround : leavesFor n per ≤ ceilDiv n per := Nat.div_le_div_right (Nat.mod_le _ _)
  refine Nat.le_trans hround ?_
  rw [← Nat.not_lt, lt_ceilDiv hp, Nat.not_lt]
  exact Nat.le_mul_of_pos_right _ hp

theorem ceilDiv_le_pow {n per depth : Nat} (hp : 0 < per) (hn : n ≤ per ^ (depth + 1)) :
    ceilDiv n per ≤ per ^ depth := by
  rw [← Nat.not_lt, lt_ceilDiv hp, ← Nat.pow_succ]
  exact Nat.not_lt.2 hn

theorem Indexed.congr {c c' : Nat → Block} {perIndex depth start count : Nat}
    (h : Indexed c perIndex depth start count)
    (heq : ∀ b, start + count ≤ b → b < start + count + indexBlocks perIndex depth count →
      (c' b).slots = (c b).slots) :
    Indexed c' perIndex depth start count := by
  induction depth generalizing start count with
  | zero => trivial
  | succ depth ih =>
    simp only [indexBlocks] at heq
    refine ⟨fun k hk => ?_, ih h.2 fun b hlo hhi => heq b (by omega) (by omega)⟩
    rw [heq _ (by omega) (by omega)]
    exact h.1 k hk

theorem kidsOf_levelSlots {perIndex start count k : Nat} (hs : 0 < start)
    (hk : k * perIndex < count) :
    kidsOf perIndex (levelSlots perIndex start count k) =
      List.range' (start + k * perIndex) (min perIndex (count - k * perIndex)) := by
  have hsplit : perIndex = min perIndex (count - k * perIndex) +
      (perIndex - min perIndex (count - k * perIndex)) := by omega
  generalize hm : min perIndex (count - k * perIndex) = m at hsplit
  rw [kidsOf, hsplit, List.range_add, List.map_append, List.filter_append]
  have hlow : (List.range m).map (levelSlots perIndex start count k) =
      List.range' (start + k * perIndex) m := by
    rw [List.range'_eq_map_range]
    refine List.map_congr_left fun j hj => ?_
    have hj := List.mem_range.1 hj
    rw [levelSlots, if_pos (by omega), Nat.add_assoc]
  have hhigh : ((List.range (perIndex - m)).map fun j => m + j).map
      (levelSlots perIndex start count k) =
      List.replicate (perIndex - m) 0 := by
    rw [List.map_map, List.eq_replicate_iff]
    refine ⟨by simp, fun b hb => ?_⟩
    obtain ⟨j, hj, rfl⟩ := List.mem_map.1 hb
    have hj := List.mem_range.1 hj
    simp only [Function.comp_apply, levelSlots]
    rw [if_neg (by omega)]
  rw [← hsplit, hlow, hhigh]
  have hpos : ∀ b ∈ List.range' (start + k * perIndex) m, decide (b ≠ 0) = true := by
    intro b hb
    have := (List.mem_range'_1.1 hb).1
    simp only [decide_eq_true_eq]
    omega
  rw [List.filter_eq_self.2 hpos]
  simp

/-- The leaves of the table below the top are the bottom level. -/
theorem Indexed.leafNodes {c : Nat → Block} {perIndex depth start count : Nat} (hp : 0 < perIndex)
    (h : Indexed c perIndex depth start count) (hs : 0 < start) (hc : 0 < count)
    (hn : count ≤ perIndex ^ depth) :
    Reconfs.leafNodes c perIndex depth (topOf perIndex depth start count) =
      List.range' start count := by
  induction depth generalizing start count with
  | zero =>
    obtain rfl : count = 1 := by simp at hn; omega
    rfl
  | succ depth ih =>
    have habove := ih h.2 (by omega) (ceilDiv_pos hp hc) (ceilDiv_le_pow hp hn)
    rw [topOf, leafNodes_succ, habove]
    have hcut : ∀ n ≤ ceilDiv count perIndex,
        (List.range' (start + count) n).flatMap (fun m => kidsOf perIndex (c m).slots) =
          List.range' start (min (n * perIndex) count) := by
      intro n hn'
      induction n with
      | zero => simp
      | succ n ihn =>
        have hlt : n * perIndex < count := (lt_ceilDiv hp).1 hn'
        rw [List.range'_concat, List.flatMap_append, ihn (Nat.le_of_succ_le hn')]
        simp only [List.flatMap_cons, List.flatMap_nil, List.append_nil, Nat.one_mul]
        rw [h.1 n hn', kidsOf_levelSlots hs hlt, Nat.min_eq_left (Nat.le_of_lt hlt)]
        rw [List.range'_append_1, Nat.succ_mul]
        congr 1
        omega
    rw [hcut _ (Nat.le_refl _)]
    congr 1
    have : count ≤ ceilDiv count perIndex * perIndex := by
      have := (lt_ceilDiv (k := ceilDiv count perIndex) hp (n := count)).not.1 (Nat.lt_irrefl _)
      omega
    omega

theorem Indexed.leafAt {c : Nat → Block} {perIndex depth start count : Nat} (hp : 0 < perIndex)
    (h : Indexed c perIndex depth start count) (hs : 0 < start)
    (hn : count ≤ perIndex ^ depth) {index : Nat} (hi : index < count) :
    Reconfs.leafAt c perIndex depth (topOf perIndex depth start count) index =
      some (start + index) := by
  induction depth generalizing start count index with
  | zero =>
    obtain rfl : index = 0 := by simp at hn; omega
    rfl
  | succ depth ih =>
    have hup : index / perIndex < ceilDiv count perIndex := by
      rw [lt_ceilDiv hp]
      exact Nat.lt_of_le_of_lt (Nat.div_mul_le_self _ _) hi
    rw [topOf, leafAt_succ_last (by omega), ih h.2 (by omega) (ceilDiv_le_pow hp hn) hup]
    have hsum : index / perIndex * perIndex + index % perIndex = index := Nat.div_add_mod' ..
    have hlt : index % perIndex < perIndex := Nat.mod_lt _ hp
    have hslot : levelSlots perIndex start count (index / perIndex) (index % perIndex) =
        start + index := by
      rw [levelSlots, hsum, if_pos ⟨hlt, hi⟩]
    simp only [Option.bind_some, h.1 _ hup, hslot]
    rw [if_pos (by omega)]

/-- The table's blocks are the run from the first leaf to the top. -/
theorem Indexed.nodes {c : Nat → Block} {perIndex depth start count : Nat} (hp : 0 < perIndex)
    (h : Indexed c perIndex depth start count) (hs : 0 < start) (hc : 0 < count)
    (hn : count ≤ perIndex ^ depth) :
    ((tableNodes c perIndex depth (topOf perIndex depth start count)).map Prod.snd).Perm
      (List.range' start (count + indexBlocks perIndex depth count)) := by
  induction depth generalizing start count with
  | zero =>
    obtain rfl : count = 1 := by simp at hn; omega
    exact List.Perm.refl _
  | succ depth ih =>
    have habove := ih h.2 (by omega) (ceilDiv_pos hp hc) (ceilDiv_le_pow hp hn)
    have hleaves := Indexed.leafNodes hp h hs hc hn
    rw [topOf] at hleaves ⊢
    refine (tableNodes_succ_perm ..).trans ?_
    rw [hleaves, indexBlocks, ← List.range'_append_1]
    exact (List.perm_append_comm).trans (List.Perm.append_left _ habove)

/-! ## How deep -/

theorem depthLoop_spec {leaves perIndex fuel depth : Nat}
    (hreach : leaves ≤ perIndex ^ (depth + fuel))
    (hmin : depth = 0 ∨ perIndex ^ (depth - 1) < leaves) :
    leaves ≤ perIndex ^ depthLoop leaves perIndex fuel (perIndex ^ depth) depth ∧
      (depthLoop leaves perIndex fuel (perIndex ^ depth) depth = 0 ∨
        perIndex ^ (depthLoop leaves perIndex fuel (perIndex ^ depth) depth - 1) < leaves) := by
  induction fuel generalizing depth with
  | zero => exact ⟨hreach, hmin⟩
  | succ fuel ih =>
    rw [depthLoop]
    split
    · rename_i hlt
      rw [← Nat.pow_succ]
      exact @ih (depth + 1) (by rwa [Nat.add_assoc, Nat.add_comm 1]) (.inr hlt)
    · rename_i hge
      exact ⟨Nat.not_lt.1 hge, hmin⟩

/-- The table is as deep as its leaves need, and no deeper. -/
theorem depthFor_spec (totalBlocks : Nat) {perLeaf perIndex : Nat} (hp : 1 < perIndex) (hl : 0 < perLeaf)
    (ht : totalBlocks < 2 ^ 64) :
    leavesFor totalBlocks perLeaf ≤ perIndex ^ depthFor totalBlocks perLeaf perIndex ∧
      (depthFor totalBlocks perLeaf perIndex = 0 ∨
        perIndex ^ (depthFor totalBlocks perLeaf perIndex - 1) < leavesFor totalBlocks perLeaf) := by
  have hreach : leavesFor totalBlocks perLeaf ≤ perIndex ^ (0 + 64) := by
    have hle : leavesFor totalBlocks perLeaf ≤ totalBlocks := leavesFor_le hl
    have hpow : 2 ^ 64 ≤ perIndex ^ 64 := Nat.pow_le_pow_left hp 64
    rw [Nat.zero_add]
    omega
  have h := depthLoop_spec hreach (.inl rfl)
  rwa [Nat.pow_zero] at h

/-! ## Writing it -/

theorem writeIndex_ok {fs : Fs} (hz : fs.Sized) {depth start count r : Nat} {s t : St}
    (h : writeIndex fs depth start count s = (.ok r, t)) :
    r = topOf fs.perIndex depth start count ∧ Indexed (fs.now t) fs.perIndex depth start count ∧
      t.txn = s.txn ∧
      ∀ b, b < start + count ∨ start + count + indexBlocks fs.perIndex depth count ≤ b →
        fs.now t b = fs.now s b := by
  induction depth generalizing start count s with
  | zero => cases h; exact ⟨rfl, trivial, rfl, fun _ _ => rfl⟩
  | succ depth ih =>
    simp only [writeIndex, Prog.bind_eq_ok] at h
    obtain ⟨_, u, hloop, h⟩ := h
    have hlevel := Prog.each_range_ok
      (I := fun i u => u.txn = s.txn ∧
        (∀ k < i, (fs.now u (start + count + k)).slots = levelSlots fs.perIndex start count k) ∧
        ∀ b, b < start + count ∨ start + count + i ≤ b → fs.now u b = fs.now s b)
      (fun i _ u v hu hw => by
        obtain ⟨htxn, hslots, hrest⟩ := hu
        have hnow := writeBlock_now hz hw
        refine ⟨(writeBlock_ok hw).2.1.trans htxn, fun k hk => ?_, fun b hb => ?_⟩
        · by_cases hki : k = i
          · subst hki; rw [hnow, Function.update_self]; rfl
          · rw [hnow, Function.update_of_ne (by omega)]
            exact hslots k (by omega)
        · rw [hnow, Function.update_of_ne (by omega)]
          exact hrest b (by omega))
      ⟨rfl, fun k hk => absurd hk (Nat.not_lt_zero k), fun _ _ => rfl⟩ hloop
    obtain ⟨htxn, hslots, hrest⟩ := hlevel
    obtain ⟨hr, hidx, htxn', hrest'⟩ := ih h
    refine ⟨hr, ⟨fun k hk => ?_, hidx⟩, htxn'.trans htxn, fun b hb => ?_⟩
    · rw [hrest' _ (.inl (by omega))]
      exact hslots k hk
    · simp only [indexBlocks] at hb
      rw [hrest' b (by omega), hrest b (by omega)]

theorem setOwner_ok {fs : Fs} (hz : fs.Sized) (hspan : fs.perIndex ^ fs.tableDepth < 2 ^ 64)
    {blk owner : Nat} {s t : St} {u : Unit} (h : setOwner fs blk owner s = (.ok u, t)) :
    ∃ leaf, leafAt (fs.now s) fs.perIndex fs.tableDepth fs.tableRoot (blk / fs.perLeaf) = some leaf ∧
      t.txn = s.txn ∧
      fs.now t = Function.update (fs.now s) leaf
        (.ofSlots (Function.update (fs.now s leaf).slots (blk % fs.perLeaf) owner)) := by
  simp only [setOwner, tableLeaf, Prog.bind_eq_ok, need_eq_ok] at h
  obtain ⟨-, _, ⟨-, rfl⟩, leaf, u, hw, slots, v, hr, h⟩ := h
  rw [spanOf, Nat.mod_eq_of_lt hspan] at hw
  obtain ⟨hs, hl⟩ := walkTable_ok hz.perIndex_pos hw
  obtain ⟨hs', rfl, -⟩ := readSlots_ok hr
  have hsame := hs.trans hs'
  refine ⟨leaf, hl, (writeBlock_ok h).2.1.trans hsame.2, ?_⟩
  rw [writeBlock_now hz h, hsame.now, hs.now]

/-! ## The volume made -/

/-- The volume as the format lays it out, before there is a superblock. -/
def laidOut (dev : BlockDevice) (bs : Nat) : Fs :=
  let fs := unread dev bs (bs / dev.blockSize)
  let depth := depthFor fs.totalBlocks fs.perLeaf fs.perIndex
  { fs with
    tableDepth := depth
    tableRoot := topOf fs.perIndex depth (firstTable bs) (leavesFor fs.totalBlocks fs.perLeaf) }

/-- How many blocks a format stands on. -/
def formatUsed (fs : Fs) : Nat :=
  firstTable fs.blockSize + blocksForTable fs.totalBlocks fs.tableDepth fs.perLeaf fs.perIndex

/-- The owners a format records. -/
def formatOwner (fs : Fs) (b : Nat) : Nat := if b < formatUsed fs then ownerArchive else ownerVoid

/-- A block size the format accepts on the device. -/
structure Takes (dev : BlockDevice) (bs : Nat) : Prop where
  writable : dev.readOnly = false
  sizeOk : blockSizeOk bs = true
  devPos : 0 < dev.blockSize
  divides : bs % dev.blockSize = 0
  fits : formatUsed (laidOut dev bs) < (laidOut dev bs).totalBlocks

/-- A block size at which the table has a leaf for every block, too. -/
structure Accepted (dev : BlockDevice) (bs : Nat) : Prop extends Takes dev bs where
  whole : (laidOut dev bs).totalBlocks + (laidOut dev bs).perLeaf ≤ 2 ^ 64

section Layout

variable {dev : BlockDevice} {bs : Nat}

theorem laidOut_blockSize : (laidOut dev bs).blockSize = bs := rfl

theorem Takes.sized (h : Takes dev bs) : (laidOut dev bs).Sized where
  devPos := h.devPos
  divides := h.divides
  sizeOk := h.sizeOk
  fits := Nat.div_mul_le_self ..
  front := by
    have := h.fits
    simp only [formatUsed, firstTable, laidOut_blockSize] at this ⊢
    omega
  perIndex_eq := rfl
  perLeaf_eq := rfl

theorem Takes.depth_spec (h : Takes dev bs) :
    let fs := laidOut dev bs
    leavesFor fs.totalBlocks fs.perLeaf ≤ fs.perIndex ^ fs.tableDepth ∧
      fs.perIndex ^ fs.tableDepth < 2 ^ 64 := by
  intro fs
  have hz : fs.Sized := h.sized
  have hpi : blockMin / 8 ≤ fs.perIndex := by
    rw [hz.perIndex_eq]; exact Nat.div_le_div_right hz.blockMin_le
  have hmin : blockMin / 8 = 512 := by decide
  have htot : fs.totalBlocks < 2 ^ 64 :=
    Nat.lt_of_le_of_lt (Nat.div_le_self _ _) dev.count_lt
  obtain ⟨hreach, hleast⟩ := depthFor_spec fs.totalBlocks
    (show 1 < fs.perIndex by omega) hz.perLeaf_pos htot
  refine ⟨hreach, ?_⟩
  change fs.perIndex ^ depthFor fs.totalBlocks fs.perLeaf fs.perIndex < _
  generalize hd : depthFor fs.totalBlocks fs.perLeaf fs.perIndex = d at hleast
  cases d with
  | zero => simp
  | succ d =>
    have hbelow : fs.perIndex ^ d < leavesFor fs.totalBlocks fs.perLeaf :=
      hleast.resolve_left (by omega)
    have hsame : fs.perLeaf = fs.perIndex := by rw [hz.perLeaf_eq, hz.perIndex_eq]
    calc fs.perIndex ^ (d + 1)
        = fs.perIndex ^ d * fs.perIndex := Nat.pow_succ ..
      _ ≤ leavesFor fs.totalBlocks fs.perLeaf * fs.perLeaf :=
          hsame ▸ Nat.mul_le_mul_right _ (Nat.le_of_lt hbelow)
      _ < 2 ^ 64 := leavesFor_mul_lt _ _

theorem Accepted.firstTable_pos : 0 < firstTable bs := Nat.succ_pos _

theorem Accepted.leaves_pos (h : Accepted dev bs) :
    0 < leavesFor (laidOut dev bs).totalBlocks (laidOut dev bs).perLeaf := by
  rw [leavesFor_eq h.whole]
  exact ceilDiv_pos h.sized.perLeaf_pos (by have := h.fits; omega)

/-- The index of the table is in place. -/
def Shaped (fs : Fs) (c : Nat → Block) : Prop :=
  Indexed c fs.perIndex fs.tableDepth (firstTable fs.blockSize) (leavesFor fs.totalBlocks fs.perLeaf)

/-- The leaves hold the owners `own`, and the index above them is in place. -/
structure Owns (fs : Fs) (c : Nat → Block) (own : Nat → Nat) : Prop where
  shaped : Shaped fs c
  leaf : ∀ i < leavesFor fs.totalBlocks fs.perLeaf, ∀ r < fs.perLeaf,
    (c (firstTable fs.blockSize + i)).slots r = own (i * fs.perLeaf + r)

theorem Accepted.leafAt_eq (h : Accepted dev bs) {c : Nat → Block} (hc : Shaped (laidOut dev bs) c)
    {i : Nat} (hi : i < leavesFor (laidOut dev bs).totalBlocks (laidOut dev bs).perLeaf) :
    leafAt c (laidOut dev bs).perIndex (laidOut dev bs).tableDepth (laidOut dev bs).tableRoot i =
      some (firstTable bs + i) :=
  Indexed.leafAt h.sized.perIndex_pos hc Accepted.firstTable_pos h.depth_spec.1 hi

theorem Accepted.leafIndex_lt (h : Accepted dev bs) {b : Nat}
    (hb : b < (laidOut dev bs).totalBlocks) :
    b / (laidOut dev bs).perLeaf < leavesFor (laidOut dev bs).totalBlocks (laidOut dev bs).perLeaf := by
  rw [leavesFor_eq h.whole, lt_ceilDiv h.sized.perLeaf_pos]
  exact Nat.lt_of_le_of_lt (Nat.div_mul_le_self _ _) hb

theorem Accepted.nodes (h : Accepted dev bs) {c : Nat → Block} (hc : Shaped (laidOut dev bs) c) :
    ((tableNodes c (laidOut dev bs).perIndex (laidOut dev bs).tableDepth
      (laidOut dev bs).tableRoot).map Prod.snd).Perm
      (List.range' (firstTable bs) (formatUsed (laidOut dev bs) - firstTable bs)) := by
  have := Indexed.nodes h.sized.perIndex_pos hc Accepted.firstTable_pos h.leaves_pos h.depth_spec.1
  rwa [formatUsed, laidOut_blockSize, Nat.add_sub_cancel_left, blocksForTable]

/-- Leaves in place are an owner table. -/
theorem Owns.tableOf {c : Nat → Block} {own : Nat → Nat} (hc : Owns (laidOut dev bs) c own)
    (h : Accepted dev bs) (hout : ∀ b, (laidOut dev bs).totalBlocks ≤ b → own b = ownerVoid) :
    TableOf (laidOut dev bs) c own where
  span := h.depth_spec.2
  leaf b hb := by
    refine ⟨_, h.leafAt_eq hc.shaped (h.leafIndex_lt hb), ?_⟩
    have hslot := hc.leaf _ (h.leafIndex_lt hb) _ (Nat.mod_lt b h.sized.perLeaf_pos)
    rw [Nat.div_add_mod'] at hslot
    exact hslot.symm
  inside p hp := by
    have hmem := ((h.nodes hc.shaped).mem_iff).1 (List.mem_map_of_mem (f := Prod.snd) hp)
    have := (List.mem_range'_1.1 hmem).2
    have hlt := h.fits
    have hle : firstTable bs ≤ formatUsed (laidOut dev bs) := Nat.le_add_right ..
    omega
  outside := hout

end Layout

/-- The two superblocks a format writes. -/
structure Stamped (dev : BlockDevice) (label : Option Name) (bs : Nat) (c : Nat → Block) :
    Prop where
  takes : Takes dev bs
  first : c superA =
    .ofSuper bs (firstSuper dev label (laidOut dev bs) (formatUsed (laidOut dev bs)))
  second : c (superB bs) =
    .ofSuper bs (firstSuper dev label (laidOut dev bs) (formatUsed (laidOut dev bs)))

/-- The medium after a format. -/
structure Made (dev : BlockDevice) (label : Option Name) (bs : Nat) (c : Nat → Block) : Prop where
  accepted : Accepted dev bs
  table : TableOf (laidOut dev bs) c (formatOwner (laidOut dev bs))
  nodes : ((tableNodes c (laidOut dev bs).perIndex (laidOut dev bs).tableDepth
    (laidOut dev bs).tableRoot).map Prod.snd).Perm
    (List.range' (firstTable bs) (formatUsed (laidOut dev bs) - firstTable bs))
  root : ∃ now, (c (firstDataBlock bs)).inode = some (rootDirectory now)
  first : c superA =
    .ofSuper bs (firstSuper dev label (laidOut dev bs) (formatUsed (laidOut dev bs)))
  second : c (superB bs) =
    .ofSuper bs (firstSuper dev label (laidOut dev bs) (formatUsed (laidOut dev bs)))

theorem Made.stamped {dev : BlockDevice} {label : Option Name} {bs : Nat} {c : Nat → Block}
    (h : Made dev label bs c) : Stamped dev label bs c :=
  ⟨h.accepted.toTakes, h.first, h.second⟩

theorem blockFlush_ok {dev : BlockDevice} {s t : St} {r : Bool}
    (h : blockFlush dev s = (.ok r, t)) :
    t.txn = s.txn ∧ (r = true ∧ t.disk = s.disk.flush ∨ r = false ∧ t.disk = s.disk) := by
  simp only [blockFlush, Prog.bind_eq_ok, request] at h
  obtain ⟨n, u, hn, h⟩ := h
  cases hn
  split at h
  · cases h; exact ⟨rfl, .inl ⟨rfl, rfl⟩⟩
  · cases h; exact ⟨rfl, .inr ⟨rfl, rfl⟩⟩

theorem flushed_ok {dev : BlockDevice} {s t : St} {u : Unit} (h : flushed dev s = (.ok u, t)) :
    t.txn = s.txn ∧ t.disk = s.disk.flush := by
  simp only [flushed, Prog.bind_eq_ok, need_eq_ok] at h
  obtain ⟨r, v, hf, rfl, rfl⟩ := h
  obtain ⟨htxn, ⟨-, hd⟩ | ⟨hno, -⟩⟩ := blockFlush_ok hf
  · exact ⟨htxn, hd⟩
  · cases hno

theorem flushed_now {dev : BlockDevice} {s t : St} {u : Unit} (h : flushed dev s = (.ok u, t))
    (fs : Fs) : fs.now t = fs.now s := by
  simp only [Fs.now, (flushed_ok h).2, Disk.contents_flush]

theorem writeLeaves_ok {fs : Fs} (hz : fs.Sized) {start n : Nat} {s t : St} {u : Unit}
    (h : Prog.each (List.range n) (fun i => writeBlock fs (start + i) (.ofSlots fun _ => 0)) s =
      (.ok u, t)) :
    t.txn = s.txn ∧ ∀ i < n, (fs.now t (start + i)).slots = fun _ => 0 := by
  refine Prog.each_range_ok
    (I := fun i u => u.txn = s.txn ∧ ∀ k < i, (fs.now u (start + k)).slots = fun _ => 0)
    (fun i _ u v hu hw => ?_) ⟨rfl, fun k hk => absurd hk (Nat.not_lt_zero k)⟩ h
  refine ⟨(writeBlock_ok hw).2.1.trans hu.1, fun k hk => ?_⟩
  rw [writeBlock_now hz hw]
  by_cases hki : k = i
  · subst hki; rw [Function.update_self]; rfl
  · rw [Function.update_of_ne (by omega)]
    exact hu.2 k (by omega)

/-- The leaves claim the first `n` blocks, and the index above them is in place. -/
structure Claimed (fs : Fs) (c : Nat → Block) (n : Nat) : Prop where
  shaped : Shaped fs c
  leaf : ∀ i < leavesFor fs.totalBlocks fs.perLeaf, ∀ r < fs.perLeaf,
    (c (firstTable fs.blockSize + i)).slots r =
      if i * fs.perLeaf + r < n then ownerArchive else ownerVoid

theorem Claimed.owns {fs : Fs} {c : Nat → Block} {n : Nat} (h : Claimed fs c n) :
    Owns fs c fun b => if b < n then ownerArchive else ownerVoid :=
  ⟨h.shaped, h.leaf⟩

theorem Claimed.tableOf {dev : BlockDevice} {bs n : Nat} {c : Nat → Block}
    (h : Claimed (laidOut dev bs) c n) (ha : Accepted dev bs)
    (hn : n ≤ (laidOut dev bs).totalBlocks) :
    TableOf (laidOut dev bs) c fun b => if b < n then ownerArchive else ownerVoid :=
  h.owns.tableOf ha fun b hb => if_neg (by omega)

/-- Setting an owner changes that one. -/
theorem Owns.step {dev : BlockDevice} {bs n owner : Nat} {own : Nat → Nat} {s t : St} {u : Unit}
    (ha : Accepted dev bs) (hn : n < (laidOut dev bs).totalBlocks)
    (h : Owns (laidOut dev bs) ((laidOut dev bs).now s) own)
    (hw : setOwner (laidOut dev bs) n owner s = (.ok u, t)) :
    t.txn = s.txn ∧
      Owns (laidOut dev bs) ((laidOut dev bs).now t) (Function.update own n owner) := by
  have hpl : 0 < (laidOut dev bs).perLeaf := ha.sized.perLeaf_pos
  obtain ⟨leaf, hl, htxn, hnow⟩ := setOwner_ok ha.sized ha.depth_spec.2 hw
  have hidx := ha.leafIndex_lt hn
  rw [ha.leafAt_eq h.shaped hidx] at hl
  cases hl
  refine ⟨htxn, h.shaped.congr fun b hlo _ => ?_, fun i hi r hr => ?_⟩
  · rw [hnow, Function.update_of_ne]
    rw [laidOut_blockSize] at hlo
    omega
  · have hold := h.leaf i hi r hr
    rw [laidOut_blockSize] at hold ⊢
    have hsplit : n / (laidOut dev bs).perLeaf * (laidOut dev bs).perLeaf +
        n % (laidOut dev bs).perLeaf = n := Nat.div_add_mod' ..
    rw [hnow]
    by_cases hb : i = n / (laidOut dev bs).perLeaf
    · subst hb
      rw [Function.update_self, slots_ofSlots]
      by_cases hr' : r = n % (laidOut dev bs).perLeaf
      · subst hr'
        rw [Function.update_self, hsplit, Function.update_self]
      · rw [Function.update_of_ne hr', hold, Function.update_of_ne (by omega)]
    · have hne : i * (laidOut dev bs).perLeaf + r ≠ n := by
        rintro rfl
        exact hb (by rw [Nat.mul_comm, Nat.mul_add_div hpl, Nat.div_eq_of_lt hr, Nat.add_zero])
      rw [Function.update_of_ne (by omega), hold, Function.update_of_ne hne]

theorem Claimed.step {dev : BlockDevice} {bs n : Nat} {s t : St} {u : Unit}
    (ha : Accepted dev bs) (hn : n < (laidOut dev bs).totalBlocks)
    (h : Claimed (laidOut dev bs) ((laidOut dev bs).now s) n)
    (hw : setOwner (laidOut dev bs) n ownerArchive s = (.ok u, t)) :
    t.txn = s.txn ∧ Claimed (laidOut dev bs) ((laidOut dev bs).now t) (n + 1) := by
  obtain ⟨htxn, hshaped, hleaf⟩ := h.owns.step ha hn hw
  refine ⟨htxn, hshaped, fun i hi r hr => ?_⟩
  rw [hleaf i hi r hr]
  by_cases hb : i * (laidOut dev bs).perLeaf + r = n
  · rw [hb, Function.update_self, if_pos (Nat.lt_succ_self n)]
  · rw [Function.update_of_ne hb]
    congr 1
    simp only [eq_iff_iff]
    omega

theorem formatBuffers_ok {dev : BlockDevice} {s t : St} {u : Unit}
    (h : formatBuffers dev s = (.ok u, t)) : Same s t := by
  simp only [formatBuffers, Prog.bind_eq_ok, need_eq_ok] at h
  obtain ⟨_, u1, hk1, _, u2, hk2, _, u3, hk3, _, u4, hk4, _, u5, hk5, -, rfl⟩ := h
  exact (kzalloc_ok hk1).trans ((kzalloc_ok hk2).trans ((kzalloc_ok hk3).trans
    ((kzalloc_ok hk4).trans (kzalloc_ok hk5))))

/-- Leaves of zeros under an index claim nothing. -/
theorem claimed_zero {dev : BlockDevice} {bs top : Nat}
    (hz : (unread dev bs (bs / dev.blockSize)).Sized) {s u t : St} {v : Unit}
    (hleaves : Prog.each
      (List.range (leavesFor (laidOut dev bs).totalBlocks (laidOut dev bs).perLeaf))
      (fun i => writeBlock (unread dev bs (bs / dev.blockSize)) (firstTable bs + i)
        (.ofSlots fun _ => 0)) s = (.ok v, u))
    (hindex : writeIndex (unread dev bs (bs / dev.blockSize)) (laidOut dev bs).tableDepth
      (firstTable bs) (leavesFor (laidOut dev bs).totalBlocks (laidOut dev bs).perLeaf) u =
        (.ok top, t)) :
    Claimed (laidOut dev bs) ((laidOut dev bs).now t) 0 := by
  obtain ⟨-, hzero⟩ := writeLeaves_ok hz hleaves
  obtain ⟨-, hidx, -, hrest⟩ := writeIndex_ok hz hindex
  refine ⟨hidx, fun i hi r _ => ?_⟩
  rw [if_neg (Nat.not_lt_zero _)]
  have hkeep := hrest (firstTable bs + i) (.inl (Nat.add_lt_add_left hi _))
  have := congrArg (fun b => b.slots r) hkeep
  exact this.trans (congrFun (hzero i hi) r)

/-- The volume being made differs from the one laid out in where the table is, which a block's
place on the medium does not depend on. -/
theorem Takes.unread_sized {dev : BlockDevice} {bs : Nat} (h : Takes dev bs) :
    (unread dev bs (bs / dev.blockSize)).Sized :=
  ⟨h.sized.devPos, h.sized.divides, h.sized.sizeOk, h.sized.fits, h.sized.front, rfl, rfl⟩

/-- The volume made is the one laid out, and its first blocks are claimed one by one. -/
theorem makeTable_claims {dev : BlockDevice} {bs : Nat} (ha : Takes dev bs) {fs : Fs} {s t : St}
    (h : makeTable (unread dev bs (bs / dev.blockSize)) (laidOut dev bs).tableDepth
      (formatUsed (laidOut dev bs)) s = (.ok fs, t)) :
    fs = laidOut dev bs ∧ ∃ u, u.txn = s.txn ∧
      Claimed (laidOut dev bs) ((laidOut dev bs).now u) 0 ∧
      Prog.each (List.range (formatUsed (laidOut dev bs)))
        (fun i => setOwner (laidOut dev bs) i ownerArchive) u = (.ok (), t) := by
  simp only [makeTable, Prog.bind_eq_ok] at h
  obtain ⟨_, u1, hleaves, top, u2, hindex, _, u3, hclaims, h⟩ := h
  have hstart := claimed_zero ha.unread_sized hleaves hindex
  obtain ⟨htxn1, -⟩ := writeLeaves_ok ha.unread_sized hleaves
  obtain ⟨rfl, -, htxn2, -⟩ := writeIndex_ok ha.unread_sized hindex
  cases h
  exact ⟨rfl, u2, htxn2.trans htxn1, hstart, hclaims⟩

theorem makeTable_ok {dev : BlockDevice} {bs : Nat} (ha : Accepted dev bs) {fs : Fs} {s t : St}
    (h : makeTable (unread dev bs (bs / dev.blockSize)) (laidOut dev bs).tableDepth
      (formatUsed (laidOut dev bs)) s = (.ok fs, t)) :
    fs = laidOut dev bs ∧ t.txn = s.txn ∧
      Claimed (laidOut dev bs) ((laidOut dev bs).now t) (formatUsed (laidOut dev bs)) := by
  obtain ⟨rfl, u2, htxn2, hstart, hclaims⟩ := makeTable_claims ha.toTakes h
  have hclaimed := Prog.each_range_ok
    (I := fun n u => u.txn = u2.txn ∧ Claimed (laidOut dev bs) ((laidOut dev bs).now u) n)
    (fun i hi u v hu hw => by
      obtain ⟨htxn, hc⟩ := Claimed.step ha (Nat.lt_trans hi ha.fits) hu.2 hw
      exact ⟨htxn.trans hu.1, hc⟩)
    ⟨rfl, hstart⟩ hclaims
  exact ⟨rfl, hclaimed.1.trans htxn2, hclaimed.2⟩

/-- The commit writes the two superblocks, and leaves nothing unflushed. -/
theorem formatCommit_ok {fs : Fs} (hz : fs.Sized) {sup : Super} {s t : St} {u : Unit}
    (h : formatCommit fs sup s = (.ok u, t)) :
    t.txn = s.txn ∧ (∃ d, t.disk = Disk.flush d) ∧
      fs.now t superA = .ofSuper fs.blockSize sup ∧
      fs.now t (superB fs.blockSize) = .ofSuper fs.blockSize sup ∧
      ∀ b, superB fs.blockSize < b → fs.now t b = fs.now s b := by
  simp only [formatCommit, Prog.bind_eq_ok] at h
  obtain ⟨_, u1, hf1, _, u2, ha, _, u3, hf2, _, u4, hb, hf3⟩ := h
  have hsuperB : superA < superB fs.blockSize := by
    have hle : fs.blockSize ≤ blockMax := by
      have hok := hz.sizeOk
      simp only [blockSizeOk, Bool.and_eq_true, decide_eq_true_eq] at hok
      exact hok.1.2
    exact Nat.div_pos hle (Nat.lt_of_lt_of_le (by decide) hz.blockMin_le)
  have hn5 : fs.now t = fs.now u4 := flushed_now hf3 fs
  have hn4 := writeBlock_now hz hb
  have hn3 : fs.now u3 = fs.now u2 := flushed_now hf2 fs
  have hn2 := writeBlock_now hz ha
  have hn1 : fs.now u1 = fs.now s := flushed_now hf1 fs
  refine ⟨?_, ⟨_, (flushed_ok hf3).2⟩, ?_, ?_, fun b hb => ?_⟩
  · rw [(flushed_ok hf3).1, (writeBlock_ok hb).2.1, (flushed_ok hf2).1, (writeBlock_ok ha).2.1,
      (flushed_ok hf1).1]
  · rw [hn5, hn4, Function.update_of_ne (by omega), hn3, hn2, Function.update_self]
  · rw [hn5, hn4, Function.update_self]
  · rw [hn5, hn4, Function.update_of_ne (by omega), hn3, hn2, Function.update_of_ne (by omega), hn1]

/-- A format that ends well has made the table, then a root directory and two superblocks below
it, all of it flushed. -/
theorem format_parts {dev : BlockDevice} {label : Option Name} {blockSize : Nat} {s t : St}
    (h : format dev label blockSize s = (.ok (), t)) :
    let bs := formatSize dev blockSize
    Stamped dev label bs ((laidOut dev bs).now t) ∧ (∃ d, t.disk = Disk.flush d) ∧
      (∃ now, ((laidOut dev bs).now t (firstDataBlock bs)).inode = some (rootDirectory now)) ∧
      ∃ u v, u.txn = s.txn ∧ t.txn = v.txn ∧
        makeTable (unread dev bs (bs / dev.blockSize)) (laidOut dev bs).tableDepth
          (formatUsed (laidOut dev bs)) u = (.ok (laidOut dev bs), v) ∧
        ∀ b, firstTable bs ≤ b → (laidOut dev bs).now t b = (laidOut dev bs).now v b := by
  simp only [format, Prog.bind_eq_ok, need_eq_ok, orErr_eq_ok, sectorsPerBlock_eq_some] at h
  generalize formatSize dev blockSize = bs at h ⊢
  obtain ⟨-, _, ⟨hro, rfl⟩, -, _, ⟨hok, rfl⟩, spb, _, ⟨⟨hpos, hdvd, rfl⟩, rfl⟩, -, _, ⟨hfit, rfl⟩,
    _, u1, hbuf, fs, u2, htable, now, u3, hclock, _, u4, hroot, hcommit⟩ := h
  have ha : Takes dev bs := ⟨hro, hok, hpos, hdvd, hfit⟩
  obtain ⟨rfl, -⟩ := makeTable_claims ha htable
  have hz := ha.sized
  obtain ⟨htxn, hflushed, hsa, hsb, hrest⟩ := formatCommit_ok hz hcommit
  have hn3 : (laidOut dev bs).now u3 = (laidOut dev bs).now u2 := (timeMonotonicNs_ok hclock).now _
  have hn4 := writeBlock_now hz hroot
  refine ⟨⟨ha, hsa, hsb⟩, hflushed, ⟨now, ?_⟩, u1, u2, (formatBuffers_ok hbuf).2, ?_, htable, ?_⟩
  · have hlast : superB (laidOut dev bs).blockSize < firstDataBlock bs := Nat.lt_succ_self _
    rw [hrest _ hlast, hn4, Function.update_self, inode_ofInode]
  · rw [htxn, (writeBlock_ok hroot).2.1, (timeMonotonicNs_ok hclock).2]
  · intro b hb
    rw [firstTable, firstDataBlock] at hb
    rw [hrest b (by rw [laidOut_blockSize]; omega), hn4,
      Function.update_of_ne (by rw [firstDataBlock]; omega), hn3]

/-- Where the table has a leaf for every block, a format that ends well has claimed what it stands
on. -/
theorem format_claimed {dev : BlockDevice} {label : Option Name} {blockSize : Nat} {s t : St}
    (h : format dev label blockSize s = (.ok (), t))
    (hw : (laidOut dev (formatSize dev blockSize)).totalBlocks +
      (laidOut dev (formatSize dev blockSize)).perLeaf ≤ 2 ^ 64) :
    Claimed (laidOut dev (formatSize dev blockSize))
      ((laidOut dev (formatSize dev blockSize)).now t)
      (formatUsed (laidOut dev (formatSize dev blockSize))) := by
  obtain ⟨⟨htakes, -⟩, -, -, u, v, -, -, hmake, hkeep⟩ := format_parts h
  obtain ⟨-, -, hclaimed⟩ := makeTable_ok ⟨htakes, hw⟩ hmake
  refine ⟨hclaimed.shaped.congr fun b hlo _ => ?_, fun i hi r hr => ?_⟩
  · rw [hkeep b (by rw [laidOut_blockSize] at hlo; omega)]
  · rw [laidOut_blockSize, hkeep _ (Nat.le_add_right ..)]
    exact hclaimed.leaf i hi r hr

/-- What such a format leaves on the medium, all of it flushed. -/
theorem format_ok {dev : BlockDevice} {label : Option Name} {blockSize : Nat} {s t : St}
    (h : format dev label blockSize s = (.ok (), t))
    (hw : (laidOut dev (formatSize dev blockSize)).totalBlocks +
      (laidOut dev (formatSize dev blockSize)).perLeaf ≤ 2 ^ 64) :
    Made dev label (formatSize dev blockSize)
        ((laidOut dev (formatSize dev blockSize)).now t) ∧
      t.txn = s.txn ∧ ∃ d, t.disk = Disk.flush d := by
  obtain ⟨⟨htakes, hsa, hsb⟩, hflushed, hroot, u, v, hu, ht, hmake, -⟩ := format_parts h
  have ha : Accepted dev (formatSize dev blockSize) := ⟨htakes, hw⟩
  obtain ⟨-, htxn, -⟩ := makeTable_ok ha hmake
  have hclaimed := format_claimed h hw
  exact ⟨⟨ha, hclaimed.tableOf ha (Nat.le_of_lt ha.fits), ha.nodes hclaimed.shaped, hroot, hsa,
    hsb⟩, ht.trans (htxn.trans hu), hflushed⟩

/-! ## When nothing is refused -/

section Obliged

variable {fs : Fs}

theorem writeIndex_total (hz : fs.Sized) (ho : fs.dev.ask.Obliging) (hw : fs.dev.readOnly = false)
    (depth start count : Nat)
    (hfit : start + count + indexBlocks fs.perIndex depth count ≤ fs.totalBlocks) (s : St) :
    ∃ r t, writeIndex fs depth start count s = (.ok r, t) := by
  induction depth generalizing start count s with
  | zero => exact ⟨start, s, rfl⟩
  | succ depth ih =>
    simp only [indexBlocks] at hfit
    obtain ⟨u, hu, -⟩ := Prog.each_range_total (n := ceilDiv count fs.perIndex) (s := s)
      (f := fun k => writeBlock fs (start + count + k)
        (.ofSlots (levelSlots fs.perIndex start count k)))
      (I := fun _ _ => True)
      (fun k hk u _ => by
        obtain ⟨t, ht⟩ := writeBlock_run hz ho hw (show start + count + k < _ by omega)
          (.ofSlots (levelSlots fs.perIndex start count k)) u
        exact ⟨t, ht, trivial⟩)
      trivial
    obtain ⟨r, t, ht⟩ := @ih (start + count) (ceilDiv count fs.perIndex) (by omega) u
    exact ⟨r, t, by rw [writeIndex, Prog.bind_of_ok hu]; exact ht⟩

theorem flushed_run {dev : BlockDevice} (ho : dev.ask.Obliging) (s : St) :
    ∃ t, flushed dev s = (.ok (), t) := by
  refine ⟨{ s.ticked 1 with disk := s.disk.flush }, ?_⟩
  have hflush : blockFlush dev s = (.ok true, { s.ticked 1 with disk := s.disk.flush }) := by
    rw [blockFlush, Prog.bind_of_ok (m := request) (s := s) rfl, if_pos (ho s.tick).2.2.1]
    rfl
  rw [flushed, Prog.bind_of_ok hflush]
  rfl

theorem formatBuffers_run {dev : BlockDevice} (ho : dev.ask.Obliging) (s : St) :
    ∃ t, formatBuffers dev s = (.ok (), t) := by
  have hm : ∀ n, dev.ask.memory n = true := fun n => (ho n).2.2.2
  refine ⟨((((s.ticked 1).ticked 1).ticked 1).ticked 1).ticked 1, ?_⟩
  rw [formatBuffers, Prog.bind_of_ok (kzalloc_run ..), Prog.bind_of_ok (kzalloc_run ..),
    Prog.bind_of_ok (kzalloc_run ..), Prog.bind_of_ok (kzalloc_run ..),
    Prog.bind_of_ok (kzalloc_run ..), need_of _ ⟨hm _, hm _, hm _, hm _, hm _⟩]

theorem setOwner_total {dev : BlockDevice} {bs n : Nat} (ha : Accepted dev bs)
    (ho : dev.ask.Obliging) {s : St} (hn : n < (laidOut dev bs).totalBlocks)
    (hc : Claimed (laidOut dev bs) ((laidOut dev bs).now s) n) (owner : Nat) :
    ∃ t, setOwner (laidOut dev bs) n owner s = (.ok (), t) := by
  have hz := ha.sized
  have htable := hc.tableOf ha (Nat.le_of_lt hn)
  obtain ⟨leaf, hl, -⟩ := htable.leaf n hn
  have hwalk := (walkTable_run hz hz.perIndex_pos rfl htable.inside hl).1 fun i _ => (ho _).1
  rw [← htable.spanOf_eq] at hwalk
  have hlt : leaf < (laidOut dev bs).totalBlocks := htable.inside _ (leafAt_mem hl)
  have hread := readSlots_run hz hlt (s.ticked (laidOut dev bs).tableDepth)
  rw [if_pos (show (laidOut dev bs).dev.ask.read _ = true from (ho _).1)] at hread
  obtain ⟨t, ht⟩ := writeBlock_run hz ho ha.writable hlt
    (.ofSlots (Function.update ((laidOut dev bs).now s leaf).slots
      (n % (laidOut dev bs).perLeaf) owner))
    ((s.ticked (laidOut dev bs).tableDepth).ticked 1)
  refine ⟨t, ?_⟩
  rw [setOwner, Prog.bind_of_ok (need_of _ hn s), tableLeaf, Prog.bind_of_ok hwalk,
    Prog.bind_of_ok hread]
  exact ht

theorem makeTable_total {dev : BlockDevice} {bs : Nat} (ha : Accepted dev bs)
    (ho : dev.ask.Obliging) (s : St) :
    ∃ t, makeTable (unread dev bs (bs / dev.blockSize)) (laidOut dev bs).tableDepth
      (formatUsed (laidOut dev bs)) s = (.ok (laidOut dev bs), t) := by
  have hz := ha.sized
  have hz0 := ha.unread_sized
  have hfit := ha.fits
  rw [formatUsed, blocksForTable, laidOut_blockSize] at hfit
  obtain ⟨u1, h1, -⟩ := Prog.each_range_total (s := s)
    (n := leavesFor (laidOut dev bs).totalBlocks (laidOut dev bs).perLeaf)
    (f := fun i => writeBlock (unread dev bs (bs / dev.blockSize)) (firstTable bs + i)
      (.ofSlots fun _ => 0))
    (I := fun _ _ => True)
    (fun i hi u _ => by
      obtain ⟨t, ht⟩ := writeBlock_run hz0 ho ha.writable
        (show firstTable bs + i < (laidOut dev bs).totalBlocks by omega) (.ofSlots fun _ => 0) u
      exact ⟨t, ht, trivial⟩)
    trivial
  obtain ⟨top, u2, h2⟩ := writeIndex_total hz0 ho ha.writable
    (laidOut dev bs).tableDepth (firstTable bs)
    (leavesFor (laidOut dev bs).totalBlocks (laidOut dev bs).perLeaf)
    (Nat.le_of_lt (by rw [Nat.add_assoc]; exact hfit)) u1
  have hstart := claimed_zero hz0 h1 h2
  obtain ⟨rfl, -⟩ := writeIndex_ok hz0 h2
  obtain ⟨u3, h3, -⟩ := Prog.each_range_total (n := formatUsed (laidOut dev bs)) (s := u2)
    (f := fun i => setOwner (laidOut dev bs) i ownerArchive)
    (I := fun n u => Claimed (laidOut dev bs) ((laidOut dev bs).now u) n)
    (fun i hi u hu => by
      have hlt := Nat.lt_trans hi ha.fits
      obtain ⟨t, ht⟩ := setOwner_total ha ho hlt hu ownerArchive
      exact ⟨t, ht, (Claimed.step ha hlt hu ht).2⟩)
    hstart
  refine ⟨u3, ?_⟩
  simp only [makeTable]
  exact (Prog.bind_of_ok h1).trans ((Prog.bind_of_ok h2).trans (Prog.bind_of_ok h3))

theorem formatCommit_total (hz : fs.Sized) (ho : fs.dev.ask.Obliging)
    (hw : fs.dev.readOnly = false) (sup : Super) (s : St) :
    ∃ t, formatCommit fs sup s = (.ok (), t) := by
  have hfront := hz.front
  rw [firstDataBlock] at hfront
  obtain ⟨u1, h1⟩ := flushed_run ho s
  obtain ⟨u2, h2⟩ := writeBlock_run hz ho hw
    (show superA < _ by simp only [superA]; omega) (.ofSuper fs.blockSize sup) u1
  obtain ⟨u3, h3⟩ := flushed_run ho u2
  obtain ⟨u4, h4⟩ := writeBlock_run hz ho hw
    (show superB fs.blockSize < _ by omega)
    (.ofSuper fs.blockSize sup) u3
  obtain ⟨u5, h5⟩ := flushed_run ho u4
  refine ⟨u5, ?_⟩
  rw [formatCommit, Prog.bind_of_ok h1, Prog.bind_of_ok h2, Prog.bind_of_ok h3, Prog.bind_of_ok h4]
  exact h5

/-- With nothing refused, a format the device has room for ends well. -/
theorem format_total {dev : BlockDevice} {blockSize : Nat}
    (ha : Accepted dev (formatSize dev blockSize)) (ho : dev.ask.Obliging) (label : Option Name)
    (s : St) : ∃ t, format dev label blockSize s = (.ok (), t) := by
  simp only [format]
  generalize formatSize dev blockSize = bs at ha ⊢
  have hspb : sectorsPerBlock dev bs = some (bs / dev.blockSize) :=
    sectorsPerBlock_eq_some.2 ⟨ha.devPos, ha.divides, rfl⟩
  obtain ⟨u1, h1⟩ := formatBuffers_run ho s
  obtain ⟨u2, h2⟩ := makeTable_total ha ho u1
  obtain ⟨u4, h4⟩ := writeBlock_run ha.sized ho ha.writable
    (show firstDataBlock bs < _ from ha.sized.front)
    (.ofInode (rootDirectory (dev.ask.clock u2.tick))) (u2.ticked 1)
  obtain ⟨t, h5⟩ := formatCommit_total ha.sized ho ha.writable
    (firstSuper dev label (laidOut dev bs) (formatUsed (laidOut dev bs))) u4
  refine ⟨t, ?_⟩
  rw [Prog.bind_of_ok (need_of _ ha.writable s), Prog.bind_of_ok (need_of _ ha.sizeOk s), hspb,
    Prog.bind_of_ok (m := orErr (some (bs / dev.blockSize)) .blockSize) (s := s) rfl]
  refine (Prog.bind_of_ok (need_of .tooSmall ha.fits s)).trans ?_
  rw [Prog.bind_of_ok h1]
  refine (Prog.bind_of_ok h2).trans ?_
  rw [Prog.bind_of_ok (m := timeMonotonicNs dev) (s := u2) rfl]
  exact (Prog.bind_of_ok h4).trans h5

end Obliged

end ReconOS.Reconfs
