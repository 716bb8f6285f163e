import ReconOS.Reconfs.Formatted

/-! What mounting finds: the volume the superblocks on the medium describe. -/
namespace ReconOS.Reconfs

/-! ## As a function of the medium -/

/-- `probe`'s finding. -/
def probeOf (dev : BlockDevice) (c : Nat → Block) (spb addr : Nat) : Option Nat :=
  let b := c (addr / dev.blockSize)
  if checkRange dev (addr / dev.blockSize) spb = true ∧ b.header.magic = reconfsMagic ∧
      b.header.version = reconfsVersion ∧ blockSizeOk b.header.blockSize = true then
    some b.header.blockSize
  else none

/-- What reading a superblock makes of the medium. -/
def superAt (fs : Fs) (c : Nat → Block) (addr : Nat) : Option Super :=
  if addr < fs.totalBlocks ∧ checkRange fs.dev (addr * fs.spb) fs.spb = true then
    (fs.view c addr).super fs.blockSize
  else none

/-- A superblock `mount` would consider. -/
def candidateOf (fs : Fs) (c : Nat → Block) (addr : Nat) : Option Super :=
  (superAt fs c addr).filter fun s => superOk s fs.totalBlocks && s.blockSize == fs.blockSize

/-- The volume under the newer superblock. -/
def chosenOf (fs : Fs) (c : Nat → Block) : Option Fs :=
  (believe (candidateOf fs c superA) (candidateOf fs c (superB fs.blockSize))).map fun s =>
    fs.under s.1 (if s.2 then superB fs.blockSize else superA)

/-- The volume on the medium. -/
def mountOf (dev : BlockDevice) (c : Nat → Block) : Option Fs := do
  let spb ← sectorsPerBlock dev blockMin
  let bs ← (probeOf dev c spb 0).or (probeOf dev c spb blockMax)
  let spb ← sectorsPerBlock dev bs
  chosenOf (unread dev bs spb) c

section Run

variable {dev : BlockDevice}

theorem probe_run (hr : ∀ n, dev.ask.read n = true) (spb addr : Nat) (s : St) :
    probe dev spb addr s = (.ok (probeOf dev s.disk.contents spb addr), s.ticked 1) := by
  have hread := blockRead_run dev (addr / dev.blockSize) spb s
  simp only [hr, and_true] at hread
  rw [probe, Prog.bind_of_ok hread, probeOf]
  by_cases hc : checkRange dev (addr / dev.blockSize) spb = true
  · simp only [hc, ↓reduceIte, true_and]
    split <;> rfl
  · simp [hc]

variable {fs : Fs}

theorem readSuper_run (hr : ∀ n, fs.dev.ask.read n = true)
    (hspb : sectorsPerBlock fs.dev fs.blockSize = some fs.spb) (addr : Nat) (s : St) :
    ∃ t, Same s t ∧ ((∃ sup, superAt fs s.disk.contents addr = some sup ∧
        readSuper fs addr s = (.ok sup, t)) ∨
      (superAt fs s.disk.contents addr = none ∧
        ∃ st, readSuper fs addr s = (.error (.status st), t))) := by
  by_cases hlt : addr < fs.totalBlocks
  case neg =>
    refine ⟨s, .refl s, .inr ⟨by simp [superAt, hlt], .range, ?_⟩⟩
    rw [readSuper, Prog.bind_of_error]
    rw [readBlock, Prog.bind_of_error (need_not _ hlt s)]
  have hread := readBlock_eq hspb hlt s
  simp only [hr, and_true] at hread
  refine ⟨s.ticked 1, ⟨rfl, rfl⟩, ?_⟩
  by_cases hin : checkRange fs.dev (addr * fs.spb) fs.spb = true
  · rw [if_pos hin] at hread
    rw [superAt, if_pos ⟨hlt, hin⟩, readSuper, Prog.bind_of_ok hread]
    change (∃ sup, (fs.now s addr).super fs.blockSize = some sup ∧ _) ∨
      ((fs.now s addr).super fs.blockSize = none ∧ _)
    rcases (fs.now s addr).super fs.blockSize with _ | sup
    · exact .inr ⟨rfl, .checksum, rfl⟩
    · exact .inl ⟨sup, rfl, rfl⟩
  · rw [if_neg hin] at hread
    refine .inr ⟨by simp [superAt, hin], .io, ?_⟩
    rw [readSuper, Prog.bind_of_error hread]

theorem candidate_run (hr : ∀ n, fs.dev.ask.read n = true)
    (hspb : sectorsPerBlock fs.dev fs.blockSize = some fs.spb) (addr : Nat) (s : St) :
    ∃ t, candidate fs addr s = (.ok (candidateOf fs s.disk.contents addr), t) ∧ Same s t := by
  obtain ⟨t, hs, ⟨sup, hsup, hrun⟩ | ⟨hnone, st, hrun⟩⟩ := readSuper_run hr hspb addr s
  · refine ⟨t, ?_, hs⟩
    have hatt : statusOf (readSuper fs addr) s = (.ok (.ok sup), t) := Prog.attempt_of_ok hrun
    rw [candidate, Prog.bind_of_ok hatt, candidateOf, hsup]
    by_cases hok : superOk sup fs.totalBlocks = true ∧ sup.blockSize = fs.blockSize
    · simp [hok, Option.filter_some]
    · have hno : (superOk sup fs.totalBlocks && sup.blockSize == fs.blockSize) = false := by
        rw [Bool.eq_false_iff]
        simpa using hok
      simp [hok, hno, Option.filter_some]
  · refine ⟨t, ?_, hs⟩
    have hatt : statusOf (readSuper fs addr) s = (.ok (.error (.status st)), t) := by
      simp only [statusOf, Prog.attempt, hrun]
      rfl
    rw [candidate, Prog.bind_of_ok hatt, candidateOf, hnone]
    rfl

theorem probeSize_run (hr : ∀ n, dev.ask.read n = true) (spb : Nat) (s : St) :
    ∃ t, probeSize dev spb s = (.ok ((probeOf dev s.disk.contents spb 0).or
      (probeOf dev s.disk.contents spb blockMax)), t) ∧ Same s t := by
  rw [probeSize, Prog.bind_of_ok (probe_run hr spb 0 s)]
  rcases probeOf dev s.disk.contents spb 0 with _ | bs
  · exact ⟨_, probe_run hr spb blockMax _, rfl, rfl⟩
  · exact ⟨s.ticked 1, rfl, rfl, rfl⟩

theorem chooseSuper_run (hr : ∀ n, fs.dev.ask.read n = true)
    (hspb : sectorsPerBlock fs.dev fs.blockSize = some fs.spb) (s : St) :
    ∃ t, Same s t ∧ chooseSuper fs s = (match chosenOf fs s.disk.contents with
      | some vol => .ok vol
      | none => .error (.status .notReconfs), t) := by
  obtain ⟨u, ha, hu⟩ := candidate_run hr hspb superA s
  obtain ⟨t, hb, ht⟩ := candidate_run hr hspb (superB fs.blockSize) u
  rw [hu.1] at hb
  refine ⟨t, hu.trans ht, ?_⟩
  rw [chooseSuper, Prog.bind_of_ok ha, Prog.bind_of_ok hb, chosenOf]
  rcases believe (candidateOf fs s.disk.contents superA)
    (candidateOf fs s.disk.contents (superB fs.blockSize)) with _ | sup <;> rfl

theorem unread_sectorsPerBlock {bs spb : Nat} (h : sectorsPerBlock dev bs = some spb) :
    sectorsPerBlock (unread dev bs spb).dev (unread dev bs spb).blockSize =
      some (unread dev bs spb).spb := by
  obtain ⟨-, -, rfl⟩ := sectorsPerBlock_eq_some.1 h
  exact h

/-- With a device that reads, mounting finds the volume on the medium. -/
theorem mount_ok (hr : ∀ n, dev.ask.read n = true) {s t : St}
    (h : mount dev s = (.ok fs, t)) : Same s t ∧ mountOf dev s.disk.contents = some fs := by
  simp only [mount, Prog.bind_eq_ok, orErr_eq_ok, need_eq_ok] at h
  obtain ⟨_, u1, hbuf, spb, _, ⟨hspb, rfl⟩, chosen, u3, hprobe, bs, _, ⟨rfl, rfl⟩,
    spb', _, ⟨hspb', rfl⟩, index, u4, hk1, leaf, u5, hk2, cand, u6, hk3, -, _, ⟨-, rfl⟩,
    hchoose⟩ := h
  obtain ⟨v3, hrun, hs3⟩ := probeSize_run hr spb u1
  rw [hrun] at hprobe
  obtain ⟨hbs, rfl⟩ := Prod.mk.inj hprobe
  have hs6 := (buffer_ok hbuf).trans (hs3.trans ((kzalloc_ok hk1).trans ((kzalloc_ok hk2).trans
    (kzalloc_ok hk3))))
  obtain ⟨v, hv, hfound⟩ := chooseSuper_run hr (unread_sectorsPerBlock hspb') u6
  rw [hfound, hs6.1] at hchoose
  rw [(buffer_ok hbuf).1] at hbs
  rcases hc : chosenOf (unread dev bs spb') s.disk.contents with _ | vol
  · rw [hc] at hchoose; cases hchoose
  · rw [hc] at hchoose
    cases hchoose
    refine ⟨hs6.trans hv, ?_⟩
    simp only [mountOf, hspb, Except.ok.inj hbs, hspb', hc, Option.bind_eq_bind, Option.bind_some]

/-- With nothing refused, mounting finds the volume on the medium if there is one. -/
theorem mount_run (ho : dev.ask.Obliging) {s : St} (h : mountOf dev s.disk.contents = some fs) :
    ∃ t, mount dev s = (.ok fs, t) ∧ Same s t := by
  have hr : ∀ n, dev.ask.read n = true := fun n => (ho n).1
  have hm : ∀ n, dev.ask.memory n = true := fun n => (ho n).2.2.2
  simp only [mountOf, Option.bind_eq_bind, Option.bind_eq_some_iff] at h
  obtain ⟨spb, hspb, bs, hbs, spb', hspb', hc⟩ := h
  obtain ⟨u3, hrun, hs3⟩ := probeSize_run hr spb (s.ticked 1)
  obtain ⟨t, ht, hfound⟩ := chooseSuper_run hr (unread_sectorsPerBlock hspb')
    (((u3.ticked 1).ticked 1).ticked 1)
  have hdisk : (((u3.ticked 1).ticked 1).ticked 1).disk = s.disk := hs3.1
  rw [hdisk, hc] at hfound
  have hsame : Same s u3 := ⟨hs3.1, hs3.2⟩
  refine ⟨t, ?_, hsame.trans ⟨ht.1, ht.2⟩⟩
  rw [mount, Prog.bind_of_ok (buffer_run (hm _)), hspb,
    Prog.bind_of_ok (m := orErr (some spb) .device) (s := s.ticked 1) rfl, Prog.bind_of_ok hrun]
  simp only [St.ticked_disk, hbs]
  rw [Prog.bind_of_ok (m := orErr (some bs) .notReconfs) (s := u3) rfl, hspb',
    Prog.bind_of_ok (m := orErr (some spb') .blockSize) (s := u3) rfl,
    Prog.bind_of_ok (kzalloc_run ..), Prog.bind_of_ok (kzalloc_run ..),
    Prog.bind_of_ok (kzalloc_run ..), Prog.bind_of_ok (need_of _ ⟨hm _, hm _, hm _⟩ _)]
  exact hfound

/-! ## What a mounted volume is -/

theorem superOk_spec {sup : Super} {n : Nat} (h : superOk sup n = true) :
    sup.magic = reconfsMagic ∧ sup.version = reconfsVersion ∧ blockSizeOk sup.blockSize = true ∧
      firstDataBlock sup.blockSize ≤ sup.rootInode ∧ sup.rootInode < sup.totalBlocks ∧
      firstDataBlock sup.blockSize ≤ sup.tableRoot ∧ sup.tableRoot < sup.totalBlocks ∧
      sup.totalBlocks ≤ n := by
  simp only [superOk, Bool.and_eq_true, beq_iff_eq, decide_eq_true_eq] at h
  obtain ⟨⟨⟨⟨⟨⟨⟨⟨⟨h1, h2⟩, h3⟩, -⟩, -⟩, h6⟩, h7⟩, h8⟩, h9⟩, h10⟩ := h
  exact ⟨h1, h2, h3, h6, h7, h8, h9, h10⟩

/-- A superblock the program wrote is one it would consider. -/
theorem candidateOf_ofSuper {c : Nat → Block} {addr : Nat} {sup : Super} (hlt : addr < fs.totalBlocks)
    (hin : checkRange fs.dev (addr * fs.spb) fs.spb = true)
    (hat : fs.view c addr = .ofSuper fs.blockSize sup) (hok : superOk sup fs.totalBlocks = true)
    (hsize : sup.blockSize = fs.blockSize) : candidateOf fs c addr = some sup := by
  have hsup : superAt fs c addr = some sup := by
    rw [superAt, if_pos ⟨hlt, hin⟩, hat, super_ofSuper]
  rw [candidateOf, hsup, Option.filter_some, hok, hsize, beq_self_eq_true, Bool.and_true, if_pos rfl]

theorem mountOf_eq {c : Nat → Block} {bs spb : Nat} {sup : Super} (spb₀ : Nat) (second : Bool)
    (h₀ : sectorsPerBlock dev blockMin = some spb₀) (hp : probeOf dev c spb₀ 0 = some bs)
    (hspb : sectorsPerBlock dev bs = some spb)
    (hbel : believe (candidateOf (unread dev bs spb) c superA)
      (candidateOf (unread dev bs spb) c (superB bs)) = some (sup, second)) :
    mountOf dev c =
      some ((unread dev bs spb).under sup (if second then superB bs else superA)) := by
  have hchosen : chosenOf (unread dev bs spb) c =
      some ((unread dev bs spb).under sup (if second then superB bs else superA)) := by
    rw [chosenOf]
    change (believe _ (candidateOf _ c (superB bs))).map _ = _
    rw [hbel]
    rfl
  simp only [mountOf, h₀, hp, hspb, hchosen, Option.bind_eq_bind, Option.bind_some, Option.some_or]

/-- A mounted volume is the one its superblock describes, on a device that has room for it. -/
structure Fs.Ready (fs : Fs) : Prop where
  mounted : fs.mounted = true
  devPos : 0 < fs.dev.blockSize
  divides : fs.blockSize % fs.dev.blockSize = 0
  super_ok : superOk fs.super (fs.dev.blockCount / fs.spb) = true
  blockSize_eq : fs.super.blockSize = fs.blockSize
  perIndex_eq : fs.perIndex = perIndexFor fs.blockSize
  perLeaf_eq : fs.perLeaf = perIndexFor fs.blockSize
  total_eq : fs.totalBlocks = fs.super.totalBlocks
  tableRoot_eq : fs.tableRoot = fs.super.tableRoot
  tableDepth_eq : fs.tableDepth = fs.super.tableDepth
  rootInode_eq : fs.rootInode = fs.super.rootInode
  live : fs.liveSuper = superA ∨ fs.liveSuper = superB fs.blockSize

theorem Fs.Ready.sized (h : fs.Ready) : fs.Sized where
  devPos := h.devPos
  divides := h.divides
  sizeOk := h.blockSize_eq ▸ (superOk_spec h.super_ok).2.2.1
  fits := by
    obtain ⟨-, -, -, -, -, -, -, hle⟩ := superOk_spec h.super_ok
    rw [← h.total_eq] at hle
    exact (Nat.mul_le_mul_right _ hle).trans (Nat.div_mul_le_self ..)
  front := by
    obtain ⟨-, -, -, hlo, hlt, -⟩ := superOk_spec h.super_ok
    rw [← h.total_eq] at hlt
    rw [h.blockSize_eq] at hlo
    omega
  perIndex_eq := h.perIndex_eq
  perLeaf_eq := h.perLeaf_eq

theorem ready_under {bs spb live : Nat} {sup : Super} (hspb : sectorsPerBlock dev bs = some spb)
    (hok : superOk sup (unread dev bs spb).totalBlocks = true) (hsize : sup.blockSize = bs)
    (hlive : live = superA ∨ live = superB bs) : ((unread dev bs spb).under sup live).Ready := by
  obtain ⟨hpos, hdvd, rfl⟩ := sectorsPerBlock_eq_some.1 hspb
  exact ⟨rfl, hpos, hdvd, hok, hsize, rfl, rfl, rfl, rfl, rfl, rfl, hlive⟩

theorem readBlock_same {blk : Nat} {s t : St} {r : Except Stop Block}
    (h : readBlock fs blk s = (r, t)) : Same s t := by
  by_cases hlt : blk < fs.totalBlocks
  case neg =>
    rw [readBlock, Prog.bind_of_error (need_not _ hlt s)] at h
    cases h; exact .refl s
  rcases hs : sectorsPerBlock fs.dev fs.blockSize with _ | spb
  · rw [readBlock, Prog.bind_of_ok (need_of _ hlt s), hs] at h
    cases h; exact .refl s
  · rw [readBlock, Prog.bind_of_ok (need_of _ hlt s), hs,
      Prog.bind_of_ok (m := orErr (some spb) .device) (s := s) rfl,
      Prog.bind_of_ok (blockRead_run ..)] at h
    split at h <;> cases h <;> exact ⟨rfl, rfl⟩

theorem readSuper_same {addr : Nat} {s t : St} {r : Except Stop Super}
    (h : readSuper fs addr s = (r, t)) : Same s t := by
  rcases hb : readBlock fs addr s with ⟨e | b, u⟩
  · rw [readSuper, Prog.bind_of_error hb] at h
    cases h; exact readBlock_same hb
  · rw [readSuper, Prog.bind_of_ok hb] at h
    generalize b.super fs.blockSize = o at h
    rcases o with _ | sup
    · cases h; exact readBlock_same hb
    · cases h; exact readBlock_same hb

theorem candidate_ok {addr : Nat} {s t : St} {r : Option Super}
    (h : candidate fs addr s = (.ok r, t)) :
    Same s t ∧ ∀ sup, r = some sup → superOk sup fs.totalBlocks = true ∧
      sup.blockSize = fs.blockSize := by
  simp only [candidate, Prog.bind_eq_ok] at h
  obtain ⟨r', u, hatt, h⟩ := h
  have hs := readSuper_same (Prog.attempt_eq_ok hatt)
  rcases r' with e | sup
  · cases h; exact ⟨hs, fun _ h => by cases h⟩
  · simp only at h
    split at h
    · rename_i hok
      cases h
      exact ⟨hs, fun _ h => by cases h; exact hok⟩
    · cases h; exact ⟨hs, fun _ h => by cases h⟩

theorem believe_some {a b : Option Super} {s : Super} {second : Bool}
    (h : believe a b = some (s, second)) :
    (second = false ∧ a = some s) ∨ (second = true ∧ b = some s) := by
  rcases a with _ | a <;> rcases b with _ | b <;> simp only [believe] at h
  · cases h
  · cases h; exact .inr ⟨rfl, rfl⟩
  · cases h; exact .inl ⟨rfl, rfl⟩
  · split at h
    · cases h; exact .inl ⟨rfl, rfl⟩
    · cases h; exact .inr ⟨rfl, rfl⟩

theorem probeSize_same {spb : Nat} {s t : St} {r : Option Nat}
    (h : probeSize dev spb s = (.ok r, t)) : Same s t := by
  have hprobe : ∀ {addr s t} {r : Option Nat}, probe dev spb addr s = (.ok r, t) → Same s t := by
    intro addr s t r h
    rw [probe, Prog.bind_of_ok (blockRead_run ..)] at h
    generalize (if checkRange dev (addr / dev.blockSize) spb = true ∧ dev.ask.read s.tick = true then
      some (s.disk.contents (addr / dev.blockSize)) else none) = o at h
    rcases o with _ | b
    · cases h; exact ⟨rfl, rfl⟩
    · simp only at h
      split at h <;> cases h <;> exact ⟨rfl, rfl⟩
  simp only [probeSize, Prog.bind_eq_ok] at h
  obtain ⟨a, u, ha, h⟩ := h
  rcases a with _ | bs
  · exact (hprobe ha).trans (hprobe h)
  · cases h; exact hprobe ha

/-- Whatever the device answers, a volume that mounts is ready. -/
theorem mount_ready {s t : St} (h : mount dev s = (.ok fs, t)) : Same s t ∧ fs.Ready := by
  simp only [mount, chooseSuper, Prog.bind_eq_ok, orErr_eq_ok, need_eq_ok] at h
  obtain ⟨_, u1, hbuf, spb, _, ⟨hspb, rfl⟩, chosen, u3, hprobe, bs, _, ⟨rfl, rfl⟩,
    spb', _, ⟨hspb', rfl⟩, index, u4, hk1, leaf, u5, hk2, cand, u6, hk3, -, _, ⟨-, rfl⟩,
    a, u7, ha, b, u8, hb, ⟨sup, second⟩, _, ⟨hbel, rfl⟩, hret⟩ := h
  obtain ⟨hs7, hcandA⟩ := candidate_ok ha
  obtain ⟨hs8, hcandB⟩ := candidate_ok hb
  cases hret
  refine ⟨(buffer_ok hbuf).trans ((probeSize_same hprobe).trans ((kzalloc_ok hk1).trans
    ((kzalloc_ok hk2).trans ((kzalloc_ok hk3).trans (hs7.trans hs8))))), ?_⟩
  obtain ⟨rfl, hsup⟩ | ⟨rfl, hsup⟩ := believe_some hbel
  · obtain ⟨hok, hsize⟩ := hcandA sup hsup
    exact ready_under hspb' hok hsize (.inl rfl)
  · obtain ⟨hok, hsize⟩ := hcandB sup hsup
    exact ready_under hspb' hok hsize (.inr rfl)

end Run

/-! ## Mounting what was just made -/

theorem Stamped.super_ok {dev : BlockDevice} {label : Option Name} {bs : Nat} {c : Nat → Block}
    (h : Stamped dev label bs c) :
    superOk (firstSuper dev label (laidOut dev bs) (formatUsed (laidOut dev bs)))
      (laidOut dev bs).totalBlocks = true := by
  have hroot : firstDataBlock bs ≤ (laidOut dev bs).tableRoot ∧
      (laidOut dev bs).tableRoot < (laidOut dev bs).totalBlocks := by
    have hplace : (laidOut dev bs).tableRoot = topOf (laidOut dev bs).perIndex
        (laidOut dev bs).tableDepth (firstTable bs)
        (leavesFor (laidOut dev bs).totalBlocks (laidOut dev bs).perLeaf) := rfl
    obtain ⟨hlo, hhi⟩ := topOf_range (laidOut dev bs).perIndex (laidOut dev bs).tableDepth
      (firstTable bs) (leavesFor (laidOut dev bs).totalBlocks (laidOut dev bs).perLeaf)
    rw [← hplace] at hlo hhi
    have hused : firstTable bs + blocksForTable (laidOut dev bs).totalBlocks
        (laidOut dev bs).tableDepth (laidOut dev bs).perLeaf (laidOut dev bs).perIndex <
        (laidOut dev bs).totalBlocks := h.takes.fits
    exact ⟨Nat.le_of_succ_le hlo, Nat.lt_of_le_of_lt hhi hused⟩
  have hfront := h.takes.sized.front
  have hok := h.takes.sizeOk
  simp only [firstSuper, superOk, laidOut_blockSize, beq_self_eq_true, Bool.true_and, hok,
    Nat.le_refl, decide_true, Bool.and_true, Bool.and_eq_true, bne_iff_ne]
  rw [laidOut_blockSize] at hfront
  exact ⟨⟨⟨by omega, decide_eq_true hfront⟩, decide_eq_true hroot.1⟩, decide_eq_true hroot.2⟩

/-- The volume a format makes, mounted. -/
def freshFs (dev : BlockDevice) (label : Option Name) (bs : Nat) : Fs :=
  (unread dev bs (bs / dev.blockSize)).under
    (firstSuper dev label (laidOut dev bs) (formatUsed (laidOut dev bs))) superA

/-- What was just made is mounted under its first superblock, if the device's blocks are no larger
than the smallest block the format allows. -/
theorem Stamped.mountOf {dev : BlockDevice} {label : Option Name} {bs : Nat} {c : Nat → Block}
    (h : Stamped dev label bs ((laidOut dev bs).view c)) (hsmall : blockMin % dev.blockSize = 0) :
    mountOf dev c = some (freshFs dev label bs) := by
  have hz := h.takes.sized
  have hdev := h.takes.devPos
  have hspb : sectorsPerBlock dev bs = some (bs / dev.blockSize) :=
    sectorsPerBlock_eq_some.2 ⟨hdev, h.takes.divides, rfl⟩
  have hspb0 : sectorsPerBlock dev blockMin = some (blockMin / dev.blockSize) :=
    sectorsPerBlock_eq_some.2 ⟨hdev, hsmall, rfl⟩
  have hA : c 0 = .ofSuper bs (firstSuper dev label (laidOut dev bs)
      (formatUsed (laidOut dev bs))) := by
    have := h.first
    rwa [Fs.view, superA, Nat.zero_mul] at this
  -- A probe of the first block sees the size the superblock was written with.
  have hin : checkRange dev (0 / dev.blockSize) (blockMin / dev.blockSize) = true := by
    have hfit := hz.inRange (show 0 < _ by have := hz.front; omega)
    have hle : blockMin / dev.blockSize ≤ bs / dev.blockSize :=
      Nat.div_le_div_right hz.blockMin_le
    change checkRange dev (0 * (bs / dev.blockSize)) (bs / dev.blockSize) = true at hfit
    simp only [checkRange, Bool.and_eq_true, decide_eq_true_eq, Nat.zero_mul, Nat.zero_div]
      at hfit ⊢
    omega
  have hprobe : probeOf dev c (blockMin / dev.blockSize) 0 = some bs := by
    have hok := h.takes.sizeOk
    rw [Nat.zero_div] at hin
    simp only [probeOf, Nat.zero_div, hA]
    rw [if_pos ⟨hin, rfl, rfl, hok⟩]
    rfl
  have hcand : ∀ addr < (laidOut dev bs).totalBlocks, (laidOut dev bs).view c addr = .ofSuper bs
      (firstSuper dev label (laidOut dev bs) (formatUsed (laidOut dev bs))) →
      candidateOf (unread dev bs (bs / dev.blockSize)) c addr =
        some (firstSuper dev label (laidOut dev bs) (formatUsed (laidOut dev bs))) :=
    fun addr hlt hat => candidateOf_ofSuper hlt (hz.inRange hlt) hat h.super_ok rfl
  have hfront : superB bs < (laidOut dev bs).totalBlocks := by
    have := hz.front
    rw [laidOut_blockSize, firstDataBlock] at this
    omega
  have ha := hcand superA (by simp only [superA]; omega) h.first
  have hb := hcand (superB bs) hfront h.second
  refine mountOf_eq _ false hspb0 hprobe hspb ?_
  rw [ha, hb, believe, if_pos (Nat.le_refl _)]

/-- A format nothing refuses, and a mount of what it made. -/
theorem fresh_volume {dev : BlockDevice} (blockSize : Nat)
    (ha : Accepted dev (formatSize dev blockSize)) (ho : dev.ask.Obliging)
    (hsmall : blockMin % dev.blockSize = 0) (label : Option Name) (s : St) :
    ∃ fs t u, format dev label blockSize s = (.ok (), t) ∧ mount dev t = (.ok fs, u) ∧
      (fs.Ready ∧ fs = freshFs dev label (formatSize dev blockSize)) ∧
      TableOf fs (fs.now u) (formatOwner (laidOut dev (formatSize dev blockSize))) := by
  obtain ⟨t, ht⟩ := format_total ha ho label s
  obtain ⟨hmade, -, -⟩ := format_ok ht ha.whole
  obtain ⟨u, hu, hs⟩ := mount_run ho (hmade.stamped.mountOf hsmall)
  refine ⟨_, t, u, ht, hu, ⟨(mount_ready hu).2, rfl⟩, ?_⟩
  have htable := hmade.table
  rw [hs.now]
  exact ⟨htable.span, htable.leaf, htable.inside, htable.outside⟩

end ReconOS.Reconfs
