import ReconOS.Reconfs.Mounted
import ReconOS.Reconfs.Alloc

/-! Allocation on whatever table the medium holds: no block is handed out twice. -/
namespace ReconOS.Reconfs

variable {α β : Type} {fs : Fs} {s t : St}

/-! ## Reading the table -/

/-- It ends with a value or a status, with the medium and the transaction as they were. -/
def ReadsOnly (m : M α) : Prop := ∀ s, Same s (m s).2 ∧ (m s).1 ≠ .error .fault

theorem ReadsOnly.bind {m : M α} {f : α → M β} (first : ReadsOnly m) (rest : ∀ a, ReadsOnly (f a)) :
    ReadsOnly (m >>= f) := by
  intro s
  obtain ⟨same, status⟩ := first s
  rw [Prog.bind_run]
  split
  case h_1 a t run =>
    rw [run] at same
    obtain ⟨later, status⟩ := rest a t
    exact ⟨same.trans later, status⟩
  case h_2 e t run =>
    rw [run] at same status
    refine ⟨same, ?_⟩
    intro is
    cases is
    exact status rfl

theorem readsOnly_pure (a : α) : ReadsOnly (pure a : M α) := by
  intro s
  refine ⟨.refl s, ?_⟩
  intro is
  cases is

theorem readsOnly_err (st : Status) : ReadsOnly (err st : M α) := by
  intro s
  refine ⟨.refl s, ?_⟩
  intro is
  cases is

theorem readsOnly_need (c : Prop) [Decidable c] (st : Status) : ReadsOnly (need c st) := by
  by_cases holds : c
  · rw [need, Prog.ensure, if_pos holds]
    exact readsOnly_pure ()
  · rw [need, Prog.ensure, if_neg holds]
    exact readsOnly_err st

theorem readsOnly_orErr (x : Option α) (st : Status) : ReadsOnly (orErr x st) := by
  cases x with
  | none => exact readsOnly_err st
  | some a => exact readsOnly_pure a

theorem readsOnly_blockRead (dev : BlockDevice) (lba count : Nat) :
    ReadsOnly (blockRead dev lba count) := by
  intro s
  rw [blockRead_run]
  refine ⟨⟨rfl, rfl⟩, ?_⟩
  intro is
  cases is

theorem readsOnly_readBlock (blk : Nat) : ReadsOnly (readBlock fs blk) :=
  (readsOnly_need _ _).bind fun _ => (readsOnly_orErr _ _).bind fun _ =>
    (readsOnly_blockRead _ _ _).bind fun _ => readsOnly_orErr _ _

theorem readsOnly_readSlots (blk : Nat) : ReadsOnly (readSlots fs blk) :=
  (readsOnly_readBlock blk).bind fun _ => readsOnly_pure _

/-- A walk down a table whose span is what it should be does not divide by zero. -/
theorem readsOnly_walkTable (positive : 0 < fs.perIndex) (depth node index : Nat) :
    ReadsOnly (walkTable fs depth (fs.perIndex ^ depth) node index) := by
  induction depth generalizing node index with
  | zero => exact readsOnly_pure node
  | succ depth ih =>
    have below : fs.perIndex ^ (depth + 1) / fs.perIndex = fs.perIndex ^ depth :=
      Nat.pow_succ' ▸ Nat.mul_div_cancel_left _ positive
    have some : fs.perIndex ^ depth ≠ 0 := Nat.pos_iff_ne_zero.mp (Nat.pow_pos positive)
    have ensured : ReadsOnly (Prog.ensure (fs.perIndex ^ depth ≠ 0) Stop.fault : M Unit) := by
      intro s
      rw [Prog.ensure_of _ some]
      exact readsOnly_pure () s
    rw [walkTable, below]
    exact (readsOnly_readSlots node).bind fun slots => ensured.bind fun _ =>
      (readsOnly_need _ _).bind fun _ => (readsOnly_need _ _).bind fun _ => ih _ _

/-- The table is no deeper than its span has bits for. -/
structure Spanned (fs : Fs) : Prop where
  sized : fs.Sized
  span : fs.perIndex ^ fs.tableDepth < 2 ^ 64

theorem Spanned.readImage (h : Spanned fs) (want : Nat) : ReadsOnly (readImage fs want) := by
  have walk : ReadsOnly (liveLeafBlock fs want) := by
    rw [liveLeafBlock, spanOf, Nat.mod_eq_of_lt h.span]
    exact readsOnly_walkTable h.sized.perIndex_pos _ _ _
  exact walk.bind fun _ => (readsOnly_readSlots _).bind fun _ => readsOnly_pure _

theorem readImage_index {want : Nat} {l : TxnLeaf} (run : readImage fs want s = (.ok l, t)) :
    l.index = want := by
  simp only [readImage, Prog.bind_eq_ok] at run
  obtain ⟨_, _, -, _, _, -, last⟩ := run
  cases last
  rfl

/-! ## Leaf images -/

/-- A transaction that has every image it had: what there is on the medium, and what was freed,
is as it was. -/
structure Grown (s t : St) : Prop where
  disk : t.disk = s.disk
  leaf : ∀ want l, s.txn.leaf? want = some l → t.txn.leaf? want = some l
  freed : t.txn.freed = s.txn.freed

theorem Grown.refl (s : St) : Grown s s := ⟨rfl, fun _ _ here => here, rfl⟩

/-- The image of a leaf is there afterwards, or the transaction is poisoned. -/
theorem Spanned.leafFor (h : Spanned fs) (blk : Nat) (s : St) :
    ∃ r t, leafFor fs blk s = (.ok r, t) ∧ Grown s t ∧
      match r with
      | some l => t.txn.leaf? (leafIndexOf fs blk) = some l
      | none => t.txn.failed = true := by
  have poison : ∀ u, Same s u → Grown s { u with txn := { u.txn with failed := true } } := by
    intro u same
    refine ⟨same.1, ?_, ?_⟩
    · intro want l here
      rw [← same.2] at here
      exact here
    · rw [same.2]
  unfold Reconfs.leafFor
  simp only [getTxn_bind]
  cases loaded : s.txn.leaf? (leafIndexOf fs blk) with
  | some l => exact ⟨some l, s, rfl, .refl s, loaded⟩
  | none =>
    dsimp only
    by_cases full : s.txn.leaves.length = txnLeaves
    · rw [if_pos full]
      exact ⟨none, _, rfl, poison s (.refl s), rfl⟩
    rw [if_neg full, Prog.bind_of_ok (kzalloc_run fs.dev s)]
    by_cases memory : fs.dev.ask.memory s.tick = false
    · rw [if_pos memory]
      exact ⟨none, _, rfl, poison (s.ticked 1) ⟨rfl, rfl⟩, rfl⟩
    rw [if_neg memory]
    obtain ⟨same, status⟩ := h.readImage (leafIndexOf fs blk) (s.ticked 1)
    rcases read : Reconfs.readImage fs (leafIndexOf fs blk) (s.ticked 1) with ⟨e | l, u⟩
    · rw [read] at same status
      have tried : statusOf (Reconfs.readImage fs (leafIndexOf fs blk)) (s.ticked 1) =
          (.ok (.error e), u) := by
        have mild : (e == .fault) = false := by
          simpa using fun is => status (congrArg Except.error is)
        simp only [statusOf, Prog.attempt, read, mild]
        rfl
      rw [Prog.bind_of_ok tried]
      exact ⟨none, _, rfl, poison u same, rfl⟩
    · rw [read] at same
      have tried : statusOf (Reconfs.readImage fs (leafIndexOf fs blk)) (s.ticked 1) =
          (.ok (.ok l), u) := Prog.attempt_of_ok read
      rw [Prog.bind_of_ok tried]
      have number := readImage_index read
      have absent : s.txn.leaf? l.index = none := by
        rw [number]
        exact loaded
      have kept : ∀ want, Txn.leaf? { u.txn with leaves := u.txn.leaves ++ [l] } want =
          if l.index = want then some l else s.txn.leaf? want := by
        intro want
        rw [same.2]
        exact Txn.leaf?_append absent want
      refine ⟨some l, { u with txn := { u.txn with leaves := u.txn.leaves ++ [l] } }, rfl,
        ⟨same.1, ?_, ?_⟩, ?_⟩
      · intro want l' here
        rw [kept, if_neg]
        · exact here
        · intro is
          rw [is, here] at absent
          cases absent
      · change u.txn.freed = _
        rw [same.2]
        rfl
      · change Txn.leaf? _ _ = _
        rw [kept, if_pos number]

/-! ## Blocks that are held -/

/-- The transaction has an image in which the block has an owner. -/
def Held (fs : Fs) (s : St) (b : Nat) : Prop :=
  ∃ l, s.txn.leaf? (leafIndexOf fs b) = some l ∧ l.data (b % fs.perLeaf) ≠ ownerVoid

theorem Held.grown {b : Nat} (held : Held fs s b) (grown : Grown s t) : Held fs t b := by
  obtain ⟨l, here, owned⟩ := held
  exact ⟨l, grown.leaf _ l here, owned⟩

theorem leaf?_changeLeaf {want other : Nat} {f : TxnLeaf → TxnLeaf}
    (keeps : ∀ l, (f l).index = l.index) (ls : List TxnLeaf) :
    (changeLeaf want f ls).find? (fun l => l.index == other) =
      if other = want then (ls.find? fun l => l.index == other).map f
      else ls.find? fun l => l.index == other := by
  induction ls with
  | nil => simp [changeLeaf]
  | cons l ls ih =>
    rw [changeLeaf]
    by_cases here : l.index = want
    · rw [if_pos here]
      by_cases same : other = want
      · rw [if_pos same, List.find?_cons_of_pos (by simp [keeps, here, same]),
          List.find?_cons_of_pos (by simp [here, same])]
        rfl
      · have differ : ¬want = other := fun is => same is.symm
        rw [if_neg same, List.find?_cons_of_neg (by simp [keeps, here, differ]),
          List.find?_cons_of_neg (by simp [here, differ])]
    · rw [if_neg here]
      by_cases found : l.index = other
      · have differ : ¬other = want := fun is => here (found.trans is)
        rw [if_neg differ, List.find?_cons_of_pos (by simp [found]),
          List.find?_cons_of_pos (by simp [found])]
      · rw [List.find?_cons_of_neg (by simpa using found),
          List.find?_cons_of_neg (by simpa using found), ih]

theorem Txn.leaf?_setImage (t : Txn) (want slot owner other : Nat) :
    (t.setImage want slot owner).leaf? other =
      if other = want then
        (t.leaf? other).map fun l =>
          { l with data := Function.update l.data slot owner, dirty := true }
      else t.leaf? other := by
  unfold Txn.leaf? Txn.setImage
  dsimp only
  rw [leaf?_changeLeaf]
  intro l
  rfl

/-- Giving a block an owner keeps every block that has one. -/
theorem Held.setImage {a b owner : Nat} (owned : owner ≠ ownerVoid) (held : Held fs s b) :
    Held fs { s with txn := s.txn.setImage (leafIndexOf fs a) (a % fs.perLeaf) owner } b := by
  obtain ⟨l, here, some⟩ := held
  by_cases leaf : leafIndexOf fs b = leafIndexOf fs a
  · refine ⟨{ l with data := Function.update l.data (a % fs.perLeaf) owner, dirty := true }, ?_, ?_⟩
    · rw [Txn.leaf?_setImage, if_pos leaf, here]
      rfl
    · by_cases slot : b % fs.perLeaf = a % fs.perLeaf
      · dsimp only
        rw [slot, Function.update_self]
        exact owned
      · dsimp only
        rw [Function.update_of_ne slot]
        exact some
  · refine ⟨l, ?_, some⟩
    rw [Txn.leaf?_setImage, if_neg leaf]
    exact here

theorem held_setImage {a owner : Nat} {l : TxnLeaf} (owned : owner ≠ ownerVoid)
    (here : s.txn.leaf? (leafIndexOf fs a) = some l) :
    Held fs { s with txn := s.txn.setImage (leafIndexOf fs a) (a % fs.perLeaf) owner } a := by
  refine ⟨{ l with data := Function.update l.data (a % fs.perLeaf) owner, dirty := true }, ?_, ?_⟩
  · rw [Txn.leaf?_setImage, if_pos rfl, here]
    rfl
  · dsimp only
    rw [Function.update_self]
    exact owned

/-! ## Handing out -/

/-- What one allocation does: it keeps the medium and every block that is held, and a block it hands
out is one of the volume's that was not held and now is. -/
structure Hands (fs : Fs) (s t : St) (r : Nat) : Prop where
  disk : t.disk = s.disk
  keeps : ∀ b, Held fs s b → Held fs t b
  inside : r ≠ 0 → r < fs.totalBlocks
  fresh : r ≠ 0 → ¬Held fs s r
  held : r ≠ 0 → Held fs t r

theorem Spanned.txnOwnerGet (h : Spanned fs) (blk : Nat) (s : St) :
    ∃ owner t, txnOwnerGet fs blk s = (.ok owner, t) ∧ Grown s t ∧
      (owner = ownerVoid → ∃ l, t.txn.leaf? (leafIndexOf fs blk) = some l ∧
        l.data (blk % fs.perLeaf) = ownerVoid) := by
  obtain ⟨r, t, run, grown, image⟩ := h.leafFor blk s
  unfold Reconfs.txnOwnerGet
  rw [Prog.bind_of_ok run]
  cases r with
  | none =>
    refine ⟨ownerArchive, t, rfl, grown, ?_⟩
    intro is
    cases is
  | some l => exact ⟨_, t, rfl, grown, fun free => ⟨l, image, free⟩⟩

/-- A block with an image is handed out. -/
theorem handOut_run {blk owner : Nat} {l : TxnLeaf}
    (here : s.txn.leaf? (leafIndexOf fs blk) = some l) :
    handOut fs blk owner s = (.ok blk, { s with
      txn := (s.txn.setImage (leafIndexOf fs blk) (blk % fs.perLeaf) owner).handedOut blk }) := by
  have set : txnOwnerSet fs blk owner s =
      (.ok (), { s with txn := s.txn.setImage (leafIndexOf fs blk) (blk % fs.perLeaf) owner }) := by
    simp only [txnOwnerSet]
    rw [Prog.bind_of_ok (leafFor_hit here)]
    rfl
  exact Prog.bind_of_ok set

theorem Hands.after_grown {u : St} {r : Nat} (hands : Hands fs u t r) (grown : Grown s u) :
    Hands fs s t r where
  disk := hands.disk.trans grown.disk
  keeps := fun b held => hands.keeps b (held.grown grown)
  inside := hands.inside
  fresh := fun some held => hands.fresh some (held.grown grown)
  held := hands.held

theorem hands_nothing (grown : Grown s t) : Hands fs s t 0 where
  disk := grown.disk
  keeps := fun _ held => held.grown grown
  inside := fun some => absurd rfl some
  fresh := fun some => absurd rfl some
  held := fun some => absurd rfl some

theorem handOut_hands {owner blk : Nat} {l : TxnLeaf} (owned : owner ≠ ownerVoid)
    (inside : blk < fs.totalBlocks) (here : s.txn.leaf? (leafIndexOf fs blk) = some l)
    (free : l.data (blk % fs.perLeaf) = ownerVoid) :
    Hands fs s { s with
      txn := (s.txn.setImage (leafIndexOf fs blk) (blk % fs.perLeaf) owner).handedOut blk } blk where
  disk := rfl
  keeps := fun _ held => held.setImage owned
  inside := fun _ => inside
  fresh := by
    rintro - ⟨l', here', some⟩
    rw [here] at here'
    cases here'
    exact some free
  held := fun _ => held_setImage owned here

theorem Spanned.allocScan (h : Spanned fs) {owner : Nat} (owned : owner ≠ ownerVoid)
    (left blk : Nat) (s : St) :
    ∃ r t, allocScan fs owner left blk s = (.ok r, t) ∧ Hands fs s t r := by
  induction left generalizing blk s with
  | zero => exact ⟨0, s, rfl, hands_nothing (.refl s)⟩
  | succ left ih =>
    -- The search may first have to wrap to the front.
    obtain ⟨addr, inside, same⟩ : ∃ addr < fs.totalBlocks,
        Reconfs.allocScan fs owner (left + 1) blk s = Reconfs.allocScan fs owner (left + 1) addr s := by
      by_cases past : fs.totalBlocks ≤ blk
      · have front := h.sized.front
        refine ⟨firstDataBlock fs.blockSize, front, ?_⟩
        simp only [Reconfs.allocScan]
        rw [if_pos past, if_neg (Nat.not_le.mpr front)]
      · exact ⟨blk, Nat.not_le.mp past, rfl⟩
    rw [same]
    obtain ⟨held, u, run, grown, image⟩ := h.txnOwnerGet addr s
    rw [allocScan_succ_run inside run]
    by_cases free : held = ownerVoid ∧ u.txn.wasFreedHere addr = false
    · rw [if_pos free]
      by_cases failed : u.txn.failed = true
      · rw [if_pos failed]
        exact ⟨0, u, rfl, hands_nothing grown⟩
      · rw [if_neg failed]
        obtain ⟨l, here, void⟩ := image free.1
        exact ⟨addr, _, handOut_run here, (handOut_hands owned inside here void).after_grown grown⟩
    · rw [if_neg free]
      by_cases failed : u.txn.failed = true
      · rw [if_pos failed]
        exact ⟨0, u, rfl, hands_nothing grown⟩
      · rw [if_neg failed]
        obtain ⟨r, t, rest, hands⟩ := ih (addr + 1) u
        exact ⟨r, t, rest, hands.after_grown grown⟩

/-- An allocation ends, with a block that was not held before or with none. -/
theorem Spanned.txnAlloc (h : Spanned fs) {owner : Nat} (owned : owner ≠ ownerVoid) (s : St) :
    ∃ r t, txnAlloc fs owner s = (.ok r, t) ∧ Hands fs s t r := by
  unfold Reconfs.txnAlloc
  rw [getTxn_bind]
  by_cases failed : s.txn.failed = true
  · rw [if_pos failed]
    exact ⟨0, s, rfl, hands_nothing (.refl s)⟩
  · rw [if_neg failed]
    exact h.allocScan owned _ _ s

/-- What a release does: it ends, with the medium as it was. -/
theorem Spanned.txnFree (h : Spanned fs) (blk : Nat) (s : St) :
    ∃ t, txnFree fs blk s = (.ok (), t) ∧ t.disk = s.disk := by
  unfold Reconfs.txnFree
  rw [getTxn_bind]
  by_cases skip : s.txn.failed = true ∨ blk = 0
  · rw [if_pos skip]
    exact ⟨s, rfl, rfl⟩
  · rw [if_neg skip]
    obtain ⟨r, t, run, grown, -⟩ := h.leafFor blk s
    have set : ∃ u, txnOwnerSet fs blk ownerVoid s = (.ok (), u) ∧ u.disk = s.disk := by
      unfold txnOwnerSet
      rw [Prog.bind_of_ok run]
      cases r with
      | none => exact ⟨t, rfl, grown.disk⟩
      | some l => exact ⟨_, rfl, grown.disk⟩
    obtain ⟨u, set, disk⟩ := set
    rw [Prog.bind_of_ok set]
    exact ⟨_, rfl, disk⟩

end ReconOS.Reconfs
