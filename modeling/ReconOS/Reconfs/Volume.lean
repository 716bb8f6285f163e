import ReconOS.Reconfs.Format

/-! The device, the mounted volume, and the two functions every block goes through. -/
namespace ReconOS.Reconfs

/-- The device's answer to a write: done, or an error, after which the block is untouched (`none`)
or holds what the device stored of it. -/
inductive WriteAnswer where
  | done
  | error (left : Option Block)

/-- What the code does not choose: how the device, the heap and the clock answer the `n`-th
request made of the outside. -/
structure Answers where
  read : Nat → Bool
  write : Nat → WriteAnswer
  flush : Nat → Bool
  memory : Nat → Bool
  clock : Nat → Nat

/-- Every request is granted. -/
def Answers.Obliging (a : Answers) : Prop :=
  ∀ n, a.read n = true ∧ a.write n = .done ∧ a.flush n = true ∧ a.memory n = true

/-- A block device. Its length in blocks is a 64-bit number. -/
structure BlockDevice where
  blockSize : Nat
  blockCount : Nat
  count_lt : blockCount < 2 ^ 64
  readOnly : Bool
  seekIsFree : Bool
  discardSupported : Bool
  transferHint : Nat
  ask : Answers

/-- A mounted volume, `struct reconfs`. -/
structure Fs where
  dev : BlockDevice
  super : Super
  liveSuper : Nat
  blockSize : Nat
  perIndex : Nat
  perLeaf : Nat
  totalBlocks : Nat
  tableRoot : Nat
  tableDepth : Nat
  rootInode : Nat
  mounted : Bool

/-- An owner-table leaf a transaction holds in memory, `struct txn_leaf`. -/
structure TxnLeaf where
  index : Nat
  oldBlock : Nat
  newBlock : Nat
  data : Nat → Nat
  dirty : Bool

structure TxnMap where
  oldBlock : Nat
  newBlock : Nat

structure Txn where
  leaves : List TxnLeaf
  index : List TxnMap
  hint : Nat
  freed : List Nat
  newRootInode : Nat
  nextDossier : Nat
  blocksUsed : Nat
  failed : Bool

def Txn.empty : Txn := ⟨[], [], 0, [], 0, 0, 0, false⟩

/-- What the code runs on: the medium, how many requests the outside has answered, and the
transaction being built. -/
structure St where
  disk : Disk Block
  tick : Nat
  txn : Txn

abbrev M := Prog St Stop

def err {α : Type} (st : Status) : M α := Prog.fail (.status st)

def need (c : Prop) [Decidable c] (st : Status) : M Unit := Prog.ensure c (.status st)

/-- The value, or the status that stands for its absence. -/
def orErr {α : Type} (x : Option α) (st : Status) : M α :=
  match x with
  | some a => pure a
  | none => err st

/-- The status `m` ends with, for code that looks at it and goes on. -/
def statusOf {α : Type} (m : M α) : M (Except Stop α) := Prog.attempt (fun e => e == .fault) m

def getTxn : M Txn := fun s => (.ok s.txn, s)

def modifyTxn (f : Txn → Txn) : M Unit := Prog.modify fun s => { s with txn := f s.txn }

/-! ## The outside -/

/-- The number of the next request. -/
def request : M Nat := fun s => (.ok s.tick, { s with tick := s.tick + 1 })

def kzalloc (dev : BlockDevice) : M Bool := do
  let n ← request
  pure (dev.ask.memory n)

/-- A buffer the caller cannot go on without. -/
def buffer (dev : BlockDevice) : M Unit := do
  let got ← kzalloc dev
  need (got = true) .nomem

def timeMonotonicNs (dev : BlockDevice) : M Nat := do
  let n ← request
  pure (dev.ask.clock n)

/-- `check_range`, for a transfer of at least one block. -/
def checkRange (dev : BlockDevice) (lba count : Nat) : Bool :=
  decide (lba < dev.blockCount) && decide (count ≤ dev.blockCount - lba)

/-- `none` for every answer but `BLOCK_OK`. -/
def blockRead (dev : BlockDevice) (lba count : Nat) : M (Option Block) := do
  let n ← request
  let s ← Prog.get
  if checkRange dev lba count ∧ dev.ask.read n = true then
    pure (some (s.disk.contents lba))
  else
    pure none

def store (lba : Nat) (b : Block) : M Unit :=
  Prog.modify fun s => { s with disk := s.disk.write lba b }

/-- Whether the answer is `BLOCK_OK`. -/
def blockWrite (dev : BlockDevice) (lba count : Nat) (b : Block) : M Bool := do
  let n ← request
  if checkRange dev lba count ∧ dev.readOnly = false then
    match dev.ask.write n with
    | .done => store lba b; pure true
    | .error none => pure false
    | .error (some left) => store lba left; pure false
  else
    pure false

def blockFlush (dev : BlockDevice) : M Bool := do
  let n ← request
  if dev.ask.flush n = true then
    Prog.modify fun s => { s with disk := s.disk.flush }
    pure true
  else
    pure false

/-! ## Blocks -/

/-- How many device blocks a block of `blockSize` bytes is; `none` if they do not divide it. -/
def sectorsPerBlock (dev : BlockDevice) (blockSize : Nat) : Option Nat :=
  if dev.blockSize = 0 ∨ blockSize % dev.blockSize ≠ 0 then none
  else some (blockSize / dev.blockSize)

def isPow2 (n : Nat) : Bool := (List.range 64).any fun k => n == 2 ^ k

/-- A power of two between the two bounds. -/
def blockSizeOk (bs : Nat) : Bool :=
  decide (blockMin ≤ bs) && decide (bs ≤ blockMax) && isPow2 bs

def readBlock (fs : Fs) (blk : Nat) : M Block := do
  need (blk < fs.totalBlocks) .range
  let spb ← orErr (sectorsPerBlock fs.dev fs.blockSize) .device
  let b ← blockRead fs.dev (blk * spb) spb
  orErr b .io

/-- `reconfs_read_block` with no checksum, for the words of a table or index block. -/
def readSlots (fs : Fs) (blk : Nat) : M (Nat → Nat) := do
  let b ← readBlock fs blk
  pure b.slots

/-- `reconfs_read_block` with no checksum, for a block of entries or of file contents. -/
def readArea (fs : Fs) (blk : Nat) : M Area := do
  let b ← readBlock fs blk
  pure b.area

/-- `reconfs_read_block` under the inode checksum. -/
def readInode (fs : Fs) (blk : Nat) : M Inode := do
  let b ← readBlock fs blk
  orErr b.inode .checksum

/-- `reconfs_read_block` under the superblock checksum. -/
def readSuper (fs : Fs) (blk : Nat) : M Super := do
  let b ← readBlock fs blk
  orErr (b.super fs.blockSize) .checksum

def writeBlock (fs : Fs) (blk : Nat) (b : Block) : M Unit := do
  need (blk < fs.totalBlocks) .range
  let spb ← orErr (sectorsPerBlock fs.dev fs.blockSize) .device
  let done ← blockWrite fs.dev (blk * spb) spb b
  need (done = true) .io

/-! ## What they do -/

/-- The device blocks of one filesystem block. -/
def Fs.spb (fs : Fs) : Nat := fs.blockSize / fs.dev.blockSize

/-- The volume's blocks, over what the medium holds. -/
def Fs.view (fs : Fs) (c : Nat → Block) : Nat → Block := fun b => c (b * fs.spb)

/-- The volume as it reads now. -/
def Fs.now (fs : Fs) (s : St) : Nat → Block := fs.view s.disk.contents

/-- Only requests were made between the two states. -/
def Same (s t : St) : Prop := t.disk = s.disk ∧ t.txn = s.txn

theorem Same.refl (s : St) : Same s s := ⟨rfl, rfl⟩

theorem Same.trans {s t u : St} (h : Same s t) (k : Same t u) : Same s u :=
  ⟨k.1.trans h.1, k.2.trans h.2⟩

theorem Same.now {s t : St} (h : Same s t) (fs : Fs) : fs.now t = fs.now s := by
  simp only [Fs.now, h.1]

/-- The device's blocks tile the volume's, the volume fits the device, and there is more of it than
the superblocks. -/
structure Fs.Sized (fs : Fs) : Prop where
  devPos : 0 < fs.dev.blockSize
  divides : fs.blockSize % fs.dev.blockSize = 0
  sizeOk : blockSizeOk fs.blockSize = true
  fits : fs.totalBlocks * fs.spb ≤ fs.dev.blockCount
  front : firstDataBlock fs.blockSize < fs.totalBlocks
  perIndex_eq : fs.perIndex = perIndexFor fs.blockSize
  perLeaf_eq : fs.perLeaf = perIndexFor fs.blockSize

@[simp] theorem err_eq_ok {α : Type} {st : Status} {s t : St} {a : α} :
    ((err st : M α) s = (.ok a, t)) ↔ False := by
  simp [err]

@[simp] theorem need_eq_ok {c : Prop} [Decidable c] {st : Status} {s t : St} {u : Unit} :
    (need c st s = (.ok u, t)) ↔ c ∧ s = t := by
  simp [need]

@[simp] theorem orErr_eq_ok {α : Type} {x : Option α} {st : Status} {s t : St} {a : α} :
    (orErr x st s = (.ok a, t)) ↔ x = some a ∧ s = t := by
  cases x <;> simp [orErr]

theorem kzalloc_ok {dev : BlockDevice} {s t : St} {b : Bool} (h : kzalloc dev s = (.ok b, t)) :
    Same s t := by
  cases h
  exact .refl _

theorem buffer_ok {dev : BlockDevice} {s t : St} (h : buffer dev s = (.ok (), t)) : Same s t := by
  simp only [buffer, Prog.bind_eq_ok, need_eq_ok] at h
  obtain ⟨_, u, hk, -, rfl⟩ := h
  exact kzalloc_ok hk

theorem timeMonotonicNs_ok {dev : BlockDevice} {s t : St} {n : Nat}
    (h : timeMonotonicNs dev s = (.ok n, t)) : Same s t := by
  cases h
  exact .refl _

theorem sectorsPerBlock_eq_some {dev : BlockDevice} {bs n : Nat} :
    sectorsPerBlock dev bs = some n ↔
      0 < dev.blockSize ∧ bs % dev.blockSize = 0 ∧ n = bs / dev.blockSize := by
  simp only [sectorsPerBlock]
  split
  · simp only [reduceCtorEq, false_iff]; omega
  · simp only [Option.some.injEq]; omega

theorem blockRead_ok {dev : BlockDevice} {lba count : Nat} {s t : St} {r : Option Block}
    (h : blockRead dev lba count s = (.ok r, t)) :
    Same s t ∧ ∀ b, r = some b → b = s.disk.contents lba := by
  simp only [blockRead, Prog.bind_eq_ok, request] at h
  obtain ⟨n, u, hr, s', u', hg, h⟩ := h
  cases hr
  cases hg
  split at h
  · cases h
    exact ⟨.refl _, fun b hb => by cases hb; rfl⟩
  · cases h
    exact ⟨.refl _, fun b hb => by cases hb⟩

theorem readBlock_ok {fs : Fs} {blk : Nat} {s t : St} {b : Block}
    (h : readBlock fs blk s = (.ok b, t)) :
    Same s t ∧ b = fs.now s blk ∧ blk < fs.totalBlocks := by
  simp only [readBlock, Prog.bind_eq_ok, need_eq_ok, orErr_eq_ok, sectorsPerBlock_eq_some] at h
  obtain ⟨-, _, ⟨hlt, rfl⟩, spb, _, ⟨⟨-, -, rfl⟩, rfl⟩, r, u, hr, rfl, rfl⟩ := h
  obtain ⟨hs, hv⟩ := blockRead_ok hr
  exact ⟨hs, hv b rfl, hlt⟩

theorem readSlots_ok {fs : Fs} {blk : Nat} {s t : St} {f : Nat → Nat}
    (h : readSlots fs blk s = (.ok f, t)) :
    Same s t ∧ f = (fs.now s blk).slots ∧ blk < fs.totalBlocks := by
  simp only [readSlots, Prog.bind_eq_ok, Prog.pure_run, Prod.mk.injEq, Except.ok.injEq] at h
  obtain ⟨b, u, hb, rfl, rfl⟩ := h
  obtain ⟨hs, rfl, hlt⟩ := readBlock_ok hb
  exact ⟨hs, rfl, hlt⟩

theorem readArea_ok {fs : Fs} {blk : Nat} {s t : St} {a : Area}
    (h : readArea fs blk s = (.ok a, t)) :
    Same s t ∧ a = (fs.now s blk).area ∧ blk < fs.totalBlocks := by
  simp only [readArea, Prog.bind_eq_ok, Prog.pure_run, Prod.mk.injEq, Except.ok.injEq] at h
  obtain ⟨b, u, hb, rfl, rfl⟩ := h
  obtain ⟨hs, rfl, hlt⟩ := readBlock_ok hb
  exact ⟨hs, rfl, hlt⟩

theorem readInode_ok {fs : Fs} {blk : Nat} {s t : St} {i : Inode}
    (h : readInode fs blk s = (.ok i, t)) :
    Same s t ∧ (fs.now s blk).inode = some i ∧ blk < fs.totalBlocks := by
  simp only [readInode, Prog.bind_eq_ok, orErr_eq_ok] at h
  obtain ⟨b, u, hb, hi, rfl⟩ := h
  obtain ⟨hs, rfl, hlt⟩ := readBlock_ok hb
  exact ⟨hs, hi, hlt⟩

theorem Fs.Sized.blockMin_le {fs : Fs} (h : fs.Sized) : blockMin ≤ fs.blockSize := by
  have := h.sizeOk
  simp only [blockSizeOk, Bool.and_eq_true, decide_eq_true_eq] at this
  exact this.1.1

theorem Fs.Sized.spb_pos {fs : Fs} (h : fs.Sized) : 0 < fs.spb := by
  have hlo := h.blockMin_le
  have hpos : 0 < fs.blockSize := Nat.lt_of_lt_of_le (by decide) hlo
  exact Nat.div_pos (Nat.le_of_dvd hpos (Nat.dvd_of_mod_eq_zero h.divides)) h.devPos

/-- Distinct blocks lie apart on the medium. -/
theorem Fs.Sized.view_update {fs : Fs} (h : fs.Sized) (c : Nat → Block) (blk : Nat) (b : Block) :
    fs.view (Function.update c (blk * fs.spb) b) = Function.update (fs.view c) blk b := by
  funext x
  by_cases hx : x = blk
  · subst hx; simp [Fs.view]
  · have hne : x * fs.spb ≠ blk * fs.spb := fun heq =>
      hx (Nat.eq_of_mul_eq_mul_right h.spb_pos heq)
    simp [Fs.view, hx, hne]

/-- Whatever the device answers, a write leaves the rest of the medium alone. -/
theorem blockWrite_cases {dev : BlockDevice} {lba count : Nat} {b : Block} {s t : St} {r : Bool}
    (h : blockWrite dev lba count b s = (.ok r, t)) :
    t.txn = s.txn ∧ (r = true ∧ t.disk = s.disk.write lba b ∨
      r = false ∧ (t.disk = s.disk ∨ ∃ left, t.disk = s.disk.write lba left)) := by
  simp only [blockWrite, Prog.bind_eq_ok, request] at h
  obtain ⟨n, u, hn, h⟩ := h
  cases hn
  split at h
  · rcases hw : dev.ask.write s.tick with _ | (_ | left)
    · rw [hw] at h; cases h; exact ⟨rfl, .inl ⟨rfl, rfl⟩⟩
    · rw [hw] at h; cases h; exact ⟨rfl, .inr ⟨rfl, .inl rfl⟩⟩
    · rw [hw] at h; cases h; exact ⟨rfl, .inr ⟨rfl, .inr ⟨left, rfl⟩⟩⟩
  · cases h
    exact ⟨rfl, .inr ⟨rfl, .inl rfl⟩⟩

theorem writeBlock_ok {fs : Fs} {blk : Nat} {b : Block} {s t : St} {u : Unit}
    (h : writeBlock fs blk b s = (.ok u, t)) :
    t.disk = s.disk.write (blk * fs.spb) b ∧ t.txn = s.txn ∧ blk < fs.totalBlocks := by
  simp only [writeBlock, Prog.bind_eq_ok, need_eq_ok, orErr_eq_ok, sectorsPerBlock_eq_some] at h
  obtain ⟨-, _, ⟨hlt, rfl⟩, spb, _, ⟨⟨-, -, rfl⟩, rfl⟩, r, u, hr, rfl, rfl⟩ := h
  obtain ⟨htxn, ⟨-, hd⟩ | ⟨hf, -⟩⟩ := blockWrite_cases hr
  · exact ⟨hd, htxn, hlt⟩
  · cases hf

theorem writeBlock_now {fs : Fs} (hz : fs.Sized) {blk : Nat} {b : Block} {s t : St} {u : Unit}
    (h : writeBlock fs blk b s = (.ok u, t)) :
    fs.now t = Function.update (fs.now s) blk b := by
  simp only [Fs.now, (writeBlock_ok h).1, Disk.contents_write, hz.view_update]

/-! ## When the outside answers -/

/-- The state `n` requests later. -/
def St.ticked (s : St) (n : Nat) : St := { s with tick := s.tick + n }

@[simp] theorem St.ticked_disk (s : St) (n : Nat) : (s.ticked n).disk = s.disk := rfl

@[simp] theorem St.ticked_txn (s : St) (n : Nat) : (s.ticked n).txn = s.txn := rfl

@[simp] theorem St.ticked_tick (s : St) (n : Nat) : (s.ticked n).tick = s.tick + n := rfl

@[simp] theorem St.ticked_zero (s : St) : s.ticked 0 = s := rfl

theorem St.ticked_add (s : St) (m n : Nat) : (s.ticked m).ticked n = s.ticked (m + n) := by
  simp only [St.ticked, Nat.add_assoc]

@[simp] theorem Fs.now_ticked (fs : Fs) (s : St) (n : Nat) : fs.now (s.ticked n) = fs.now s := rfl

theorem kzalloc_run (dev : BlockDevice) (s : St) :
    kzalloc dev s = (.ok (dev.ask.memory s.tick), s.ticked 1) := rfl

theorem need_of {c : Prop} [Decidable c] (st : Status) (h : c) (s : St) : need c st s = (.ok (), s) :=
  Prog.ensure_of _ h s

theorem need_not {c : Prop} [Decidable c] (st : Status) (h : ¬c) (s : St) :
    need c st s = (.error (.status st), s) := by
  simp [need, Prog.ensure, h]

theorem buffer_run {dev : BlockDevice} {s : St} (h : dev.ask.memory s.tick = true) :
    buffer dev s = (.ok (), s.ticked 1) := by
  simp only [buffer, Prog.bind_of_ok (kzalloc_run dev s), need_of _ h]

theorem Fs.Sized.sectorsPerBlock_eq {fs : Fs} (h : fs.Sized) :
    sectorsPerBlock fs.dev fs.blockSize = some fs.spb :=
  sectorsPerBlock_eq_some.2 ⟨h.devPos, h.divides, rfl⟩

/-- A block of the volume is within the device. -/
theorem Fs.Sized.inRange {fs : Fs} (h : fs.Sized) {blk : Nat} (hb : blk < fs.totalBlocks) :
    checkRange fs.dev (blk * fs.spb) fs.spb = true := by
  have hle : (blk + 1) * fs.spb ≤ fs.totalBlocks * fs.spb := Nat.mul_le_mul_right _ hb
  have hfit := h.fits
  have hpos := h.spb_pos
  rw [Nat.succ_mul] at hle
  simp only [checkRange, Bool.and_eq_true, decide_eq_true_eq]
  omega

theorem blockRead_run (dev : BlockDevice) (lba count : Nat) (s : St) :
    blockRead dev lba count s =
      (.ok (if checkRange dev lba count = true ∧ dev.ask.read s.tick = true then
        some (s.disk.contents lba) else none), s.ticked 1) := by
  rw [blockRead, Prog.bind_of_ok (m := request) (s := s) rfl, Prog.get_bind]
  split <;> rfl

/-- What reading a block makes of the medium and of the device's answer. -/
theorem readBlock_eq {fs : Fs} (hspb : sectorsPerBlock fs.dev fs.blockSize = some fs.spb) {blk : Nat}
    (hb : blk < fs.totalBlocks) (s : St) :
    readBlock fs blk s =
      (if checkRange fs.dev (blk * fs.spb) fs.spb = true ∧ fs.dev.ask.read s.tick = true then
        .ok (fs.now s blk) else .error (.status .io), s.ticked 1) := by
  rw [readBlock, Prog.bind_of_ok (need_of _ hb s), hspb,
    Prog.bind_of_ok (m := orErr (some fs.spb) .device) (s := s) rfl,
    Prog.bind_of_ok (blockRead_run ..)]
  split <;> rfl

theorem readBlock_run {fs : Fs} (hz : fs.Sized) {blk : Nat} (hb : blk < fs.totalBlocks) (s : St) :
    readBlock fs blk s =
      (if fs.dev.ask.read s.tick = true then .ok (fs.now s blk) else .error (.status .io),
        s.ticked 1) := by
  simpa only [hz.inRange hb, true_and] using readBlock_eq hz.sectorsPerBlock_eq hb s

theorem readSlots_run {fs : Fs} (hz : fs.Sized) {blk : Nat} (hb : blk < fs.totalBlocks) (s : St) :
    readSlots fs blk s =
      (if fs.dev.ask.read s.tick = true then .ok (fs.now s blk).slots else .error (.status .io),
        s.ticked 1) := by
  simp only [readSlots, Prog.bind_run, readBlock_run hz hb s]
  split <;> rename_i heq
  · split at heq <;> simp_all
  · split at heq <;> simp_all

theorem writeBlock_run {fs : Fs} (hz : fs.Sized) (ho : fs.dev.ask.Obliging)
    (hw : fs.dev.readOnly = false) {blk : Nat} (hb : blk < fs.totalBlocks) (b : Block) (s : St) :
    ∃ t, writeBlock fs blk b s = (.ok (), t) := by
  have hwrite : blockWrite fs.dev (blk * fs.spb) fs.spb b s =
      (.ok true, { s.ticked 1 with disk := s.disk.write (blk * fs.spb) b }) := by
    rw [blockWrite, Prog.bind_of_ok (m := request) (s := s) rfl, if_pos ⟨hz.inRange hb, hw⟩,
      (ho s.tick).2.1]
    rfl
  refine ⟨{ s.ticked 1 with disk := s.disk.write (blk * fs.spb) b }, ?_⟩
  rw [writeBlock, Prog.bind_of_ok (need_of _ hb s), hz.sectorsPerBlock_eq,
    Prog.bind_of_ok (m := orErr (some fs.spb) .device) (s := s) rfl, Prog.bind_of_ok hwrite]
  rfl

end ReconOS.Reconfs
