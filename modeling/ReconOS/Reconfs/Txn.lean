import ReconOS.Reconfs.Mount

/-! The transaction: allocation against images of the owner-table leaves. -/
namespace ReconOS.Reconfs

def txnLeaves : Nat := 16
def txnFreed : Nat := 256

/-! ## Leaf images -/

def leafIndexOf (fs : Fs) (blk : Nat) : Nat := blk / fs.perLeaf

/-- Where a leaf lives in the live table. The walk is `tableLeaf`'s. -/
def liveLeafBlock (fs : Fs) (leafIndex : Nat) : M Nat :=
  walkTable fs fs.tableDepth (spanOf fs.perIndex fs.tableDepth) fs.tableRoot leafIndex

def Txn.leaf? (t : Txn) (want : Nat) : Option TxnLeaf := t.leaves.find? fun l => l.index == want

/-- Poison the transaction. -/
def failTxn : M Unit := modifyTxn fun t => { t with failed := true }

/-- A leaf as the live table has it. -/
def readImage (fs : Fs) (leafIndex : Nat) : M TxnLeaf := do
  let old ← liveLeafBlock fs leafIndex
  let data ← readSlots fs old
  pure ⟨leafIndex, old, 0, data, false⟩

/-- The image of the leaf that holds `blk`, read from the live table the first time; `none`, and
the transaction poisoned, when there is no room, no memory or no reading it. -/
def leafFor (fs : Fs) (blk : Nat) : M (Option TxnLeaf) := do
  let want := leafIndexOf fs blk
  let t ← getTxn
  match t.leaf? want with
  | some l => pure (some l)
  | none =>
    if t.leaves.length = txnLeaves then
      failTxn
      pure none
    else
      let got ← kzalloc fs.dev
      if got = false then
        failTxn
        pure none
      else
        match ← statusOf (readImage fs want) with
        | .error _ =>
          failTxn
          pure none
        | .ok l =>
          modifyTxn fun t => { t with leaves := t.leaves ++ [l] }
          pure (some l)

/-- Change the leaf image numbered `want`. -/
def changeLeaf (want : Nat) (f : TxnLeaf → TxnLeaf) : List TxnLeaf → List TxnLeaf
  | [] => []
  | l :: ls => if l.index = want then f l :: ls else l :: changeLeaf want f ls

def Txn.setImage (t : Txn) (want slot owner : Nat) : Txn :=
  { t with
    leaves := changeLeaf want
      (fun l => { l with data := Function.update l.data slot owner, dirty := true }) t.leaves }

def txnOwnerGet (fs : Fs) (blk : Nat) : M Nat := do
  match ← leafFor fs blk with
  | none => pure ownerArchive
  | some l => pure (l.data (blk % fs.perLeaf))

def txnOwnerSet (fs : Fs) (blk owner : Nat) : M Unit := do
  match ← leafFor fs blk with
  | none => pure ()
  | some _ => modifyTxn fun t => t.setImage (leafIndexOf fs blk) (blk % fs.perLeaf) owner

/-! ## Allocation -/

def Txn.wasFreedHere (t : Txn) (blk : Nat) : Bool := t.freed.contains blk

def Txn.handedOut (t : Txn) (blk : Nat) : Txn :=
  { t with hint := blk + 1, blocksUsed := t.blocksUsed + 1 }

/-- Give a block found free its owner. -/
def handOut (fs : Fs) (blk owner : Nat) : M Nat := do
  txnOwnerSet fs blk owner
  modifyTxn fun t => t.handedOut blk
  pure blk

/-- Look at `left` more blocks from `blk` on, wrapping to the first data block. -/
def allocScan (fs : Fs) (owner : Nat) : Nat → Nat → M Nat
  | 0, _ => pure 0
  | left + 1, blk => do
    let blk := if fs.totalBlocks ≤ blk then firstDataBlock fs.blockSize else blk
    let held ← txnOwnerGet fs blk
    let t ← getTxn
    if held = ownerVoid ∧ t.wasFreedHere blk = false then
      if t.failed = true then pure 0 else handOut fs blk owner
    else if t.failed = true then
      pure 0
    else
      allocScan fs owner left (blk + 1)

/-- Zero when nothing can be handed out. -/
def txnAlloc (fs : Fs) (owner : Nat) : M Nat := do
  let t ← getTxn
  if t.failed = true then pure 0 else allocScan fs owner fs.totalBlocks t.hint

/-- One block fewer in use, and one more on the exclusion list; without room on it the transaction
is poisoned instead. -/
def Txn.released (t : Txn) (blk : Nat) : Txn :=
  if t.freed.length = txnFreed then { t with blocksUsed := t.blocksUsed - 1, failed := true }
  else { t with blocksUsed := t.blocksUsed - 1, freed := t.freed ++ [blk] }

def txnFree (fs : Fs) (blk : Nat) : M Unit := do
  let t ← getTxn
  if t.failed = true ∨ blk = 0 then
    pure ()
  else
    txnOwnerSet fs blk ownerVoid
    modifyTxn fun t => t.released blk

/-! ## Beginning -/

/-- A transaction on `fs`, before it has done anything. -/
def freshTxn (fs : Fs) : Txn :=
  { leaves := [], index := [], hint := firstDataBlock fs.blockSize, freed := []
    newRootInode := fs.rootInode, nextDossier := fs.super.nextDossier
    blocksUsed := fs.super.blocksUsed, failed := false }

/-- Whether a transaction was begun. Abandoning one is forgetting it: the next replaces it. -/
def txnBegin (fs : Fs) : M Bool := do
  if fs.mounted = false then
    pure false
  else
    let got ← kzalloc fs.dev
    if got = true then
      modifyTxn fun _ => freshTxn fs
      pure true
    else
      pure false

end ReconOS.Reconfs
