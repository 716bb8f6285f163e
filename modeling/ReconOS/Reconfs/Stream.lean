import ReconOS.Reconfs.Dir
import ReconOS.Reconfs.Fresh
import Mathlib.Data.List.GetD

/-! A directory's entries as the bytes they are: packed into blocks without straddling one, and
joined again without the padding. -/
namespace ReconOS.Reconfs

abbrev Bytes := List UInt8

/-! ## The code -/

/-- `rec_len`, at byte 8. -/
def recLenOf (bytes : Bytes) : Nat := (bytes.getD 8 0).toNat + 256 * (bytes.getD 9 0).toNat

/-- `name_len`, at byte 10. -/
def nameLenOf (bytes : Bytes) : Nat := (bytes.getD 10 0).toNat

/-- `inode`, at byte 0. -/
def inodeOf (bytes : Bytes) : Nat :=
  ((List.range 8).map fun i => (bytes.getD i 0).toNat * 256 ^ i).sum

/-- The first bytes of an area. -/
def Area.front (a : Area) (len : Nat) : Bytes := (List.range len).map a.bytes

/-- Bytes in an area, and zeros after them. -/
def areaOf (bytes : Bytes) : Area := ⟨fun i => bytes.getD i 0, []⟩

/-- `take_block`: the entries of what is left of a block, up to the padding. `got` is what the buffer
already holds. An entry is at least sixteen bytes, so the first argument only has to be the length. -/
def takeEntries (cap : Nat) : Nat → Bytes → Nat → Option Bytes
  | 0, _, _ => some []
  | fuel + 1, left, got =>
    if left.length < direntMin then some []
    else if recLenOf left = 0 then some []
    else if recLenOf left < direntMin ∨ left.length < recLenOf left ∨
        recLenOf left < nameLenOf left + direntMin then none
    else if cap < got + recLenOf left then none
    else
      (takeEntries cap fuel (left.drop (recLenOf left)) (got + recLenOf left)).map
        (left.take (recLenOf left) ++ ·)

def takeBytes (fs : Fs) (a : Area) (len got : Nat) : Option Bytes :=
  takeEntries (entriesCapacity fs) len (a.front len) got

/-- The entries in the direct blocks, joined. -/
def readBlocks (fs : Fs) : List Nat → Bytes → M Bytes
  | [], got => pure got
  | blk :: blks, got =>
    if blk = 0 then readBlocks fs blks got
    else do
      let area ← readArea fs blk
      let bytes ← orErr (takeBytes fs area fs.blockSize got.length) .corrupt
      readBlocks fs blks (got ++ bytes)

/-- `read_entries`. -/
def readStream (fs : Fs) (dir : Inode) : M Bytes := do
  buffer fs.dev
  if dir.inlineLen ≠ 0 then
    orErr (takeBytes fs dir.data dir.inlineLen 0) .corrupt
  else
    buffer fs.dev
    readBlocks fs dir.directs []

/-- The entries that still fit a block filled up to `fill`, and the rest. The first argument is the
length: no entry of a stream that was read has length zero, so the loop comes to its end. -/
def fillBytes (blockSize : Nat) : Nat → Nat → Bytes → Bytes × Bytes
  | 0, _, rest => ([], rest)
  | fuel + 1, fill, rest =>
    if rest = [] then ([], [])
    else if blockSize < fill + recLenOf rest then ([], rest)
    else
      let next := fillBytes blockSize fuel (fill + recLenOf rest) (rest.drop (recLenOf rest))
      (rest.take (recLenOf rest) ++ next.1, next.2)

/-- Pack a stream into direct blocks, `slots` of which are left; their numbers. -/
def writeBlocks (fs : Fs) (dossier : Nat) : Nat → Bytes → M (List Nat)
  | _, [] => pure []
  | 0, _ :: _ => err .dirFull
  | slots + 1, b :: rest => do
    let page := fillBytes fs.blockSize (b :: rest).length 0 (b :: rest)
    need (page.1 ≠ []) .corrupt
    let blk ← txnAlloc fs dossier
    need (blk ≠ 0) .nospace
    writeBlock fs blk { Block.zero with area := areaOf page.1 }
    let blks ← writeBlocks fs dossier slots page.2
    pure (blk :: blks)

/-- The directory's own block, with the stream inside it or in blocks of its own. -/
def writeStreamAt (fs : Fs) (blk : Nat) (ino : Inode) (bytes : Bytes) : M Unit :=
  if bytes.length ≤ inlineMax fs.blockSize then
    writeBlock fs blk (.ofInode { ino with data := areaOf bytes, inlineLen := bytes.length })
  else do
    buffer fs.dev
    let blks ← writeBlocks fs ino.dossier directCount bytes
    writeBlock fs blk (.ofInode { ino with direct := pointers blks })

/-- The directory's header, with nothing in it. -/
def dirInode (old : Inode) (len now : Nat) : Inode :=
  { old.rewritten len now with doubleIndirect := 0, tripleIndirect := 0 }

/-- `write_dir`. -/
def writeStream (fs : Fs) (oldBlock : Nat) (old : Inode) (bytes : Bytes) : M Nat := do
  let blk ← txnAlloc fs (if old.parent ≠ 0 then old.parent else ownerArchive)
  need (blk ≠ 0) .nospace
  buffer fs.dev
  let now ← timeMonotonicNs fs.dev
  writeStreamAt fs blk (dirInode old bytes.length now) bytes
  Prog.when (oldBlock ≠ 0) (releaseDir fs oldBlock old)
  pure blk

/-! ## Streams -/

/-- A well-formed entry, as its bytes. -/
structure Entry where
  bytes : Bytes
  least : direntMin ≤ bytes.length
  aligned : bytes.length % 8 = 0
  recLen : recLenOf bytes = bytes.length
  name : nameLenOf bytes + direntMin ≤ bytes.length
  used : inodeOf bytes ≠ 0

/-- The bytes of a stream of entries. -/
def stream (es : List Entry) : Bytes := es.flatMap Entry.bytes

@[simp] theorem stream_nil : stream [] = [] := rfl

@[simp] theorem stream_cons (e : Entry) (es : List Entry) : stream (e :: es) = e.bytes ++ stream es :=
  rfl

theorem stream_append (a b : List Entry) : stream (a ++ b) = stream a ++ stream b :=
  List.flatMap_append

theorem Entry.recLen_append (e : Entry) (rest : Bytes) :
    recLenOf (e.bytes ++ rest) = e.bytes.length := by
  have least : 16 ≤ e.bytes.length := e.least
  have same := e.recLen
  unfold recLenOf at same ⊢
  rw [List.getD_append _ _ _ _ (by omega), List.getD_append _ _ _ _ (by omega)]
  exact same

theorem Entry.nameLen_append (e : Entry) (rest : Bytes) :
    nameLenOf (e.bytes ++ rest) = nameLenOf e.bytes := by
  have least : 16 ≤ e.bytes.length := e.least
  unfold nameLenOf
  rw [List.getD_append _ _ _ _ (by omega)]

theorem Entry.ne_nil (e : Entry) : e.bytes ≠ [] := by
  intro is
  have least := e.least
  rw [is] at least
  cases least

theorem stream_eq_nil {es : List Entry} : stream es = [] ↔ es = [] := by
  cases es with
  | nil => exact ⟨fun _ => rfl, fun _ => rfl⟩
  | cons e es =>
    constructor
    · intro is
      rw [stream_cons, List.append_eq_nil_iff] at is
      exact absurd is.1 e.ne_nil
    · intro is
      cases is

/-! ## Taking apart what was padded -/

theorem recLenOf_zeros (n : Nat) : recLenOf (List.replicate n 0) = 0 := by
  have zero : ∀ i, (List.replicate n (0 : UInt8)).getD i 0 = 0 := by
    intro i
    rw [List.getD_eq_getElem?_getD, List.getElem?_replicate]
    split <;> rfl
  unfold recLenOf
  rw [zero, zero]
  rfl

theorem takeEntries_stream {cap : Nat} (es : List Entry) (pad fuel got : Nat)
    (enough : (stream es).length ≤ fuel) (room : got + (stream es).length ≤ cap) :
    takeEntries cap fuel (stream es ++ List.replicate pad 0) got = some (stream es) := by
  induction es generalizing fuel got with
  | nil =>
    cases fuel with
    | zero => rfl
    | succ fuel =>
      rw [stream_nil, List.nil_append, takeEntries]
      by_cases short : (List.replicate pad (0 : UInt8)).length < direntMin
      · rw [if_pos short]
      · rw [if_neg short, if_pos (recLenOf_zeros pad)]
  | cons e es ih =>
    have least : 16 ≤ e.bytes.length := e.least
    rw [stream_cons, List.length_append] at enough room
    obtain ⟨fuel, rfl⟩ : ∃ k, fuel = k + 1 := ⟨fuel - 1, by omega⟩
    have recLen := e.recLen_append (stream es ++ List.replicate pad 0)
    have nameLen := e.nameLen_append (stream es ++ List.replicate pad 0)
    have name := e.name
    have long : e.bytes.length ≤ (e.bytes ++ (stream es ++ List.replicate pad 0)).length := by
      rw [List.length_append]
      exact Nat.le_add_right _ _
    rw [stream_cons, List.append_assoc, takeEntries, recLen, nameLen,
      if_neg (by simp only [direntMin]; omega), if_neg (by omega),
      if_neg (by simp only [direntMin] at *; omega),
      if_neg (by omega), List.drop_left, List.take_left, ih fuel _ (by omega) (by omega)]
    rfl

theorem areaOf_front {bytes : Bytes} {len : Nat} (fits : bytes.length ≤ len) :
    (areaOf bytes).front len = bytes ++ List.replicate (len - bytes.length) 0 := by
  apply List.ext_getElem
  · simp only [Area.front, List.length_map, List.length_range, List.length_append,
      List.length_replicate]
    omega
  · intro i here there
    simp only [Area.front, List.getElem_map, List.getElem_range, areaOf]
    by_cases inside : i < bytes.length
    · rw [List.getElem_append_left inside, List.getD_eq_getElem _ _ inside]
    · rw [List.getElem_append_right (Nat.le_of_not_lt inside), List.getElem_replicate,
        List.getD_eq_default _ _ (Nat.le_of_not_lt inside)]

/-- What was packed into a block, or into the inode, is what is taken out of it. -/
theorem takeBytes_areaOf {fs : Fs} {es : List Entry} {len got : Nat}
    (fits : (stream es).length ≤ len) (room : got + (stream es).length ≤ entriesCapacity fs) :
    takeBytes fs (areaOf (stream es)) len got = some (stream es) := by
  rw [takeBytes, areaOf_front fits]
  exact takeEntries_stream es _ len got fits room

/-! ## Packing -/

/-- A page takes entries from the front for as long as they fit. -/
theorem fillBytes_stream {blockSize : Nat} (es : List Entry) (fuel fill : Nat)
    (enough : (stream es).length ≤ fuel) (within : fill ≤ blockSize) :
    ∃ page rest, es = page ++ rest ∧
      fillBytes blockSize fuel fill (stream es) = (stream page, stream rest) ∧
      fill + (stream page).length ≤ blockSize ∧
      ∀ e, rest.head? = some e → blockSize < fill + (stream page).length + e.bytes.length := by
  induction es generalizing fuel fill with
  | nil =>
    refine ⟨[], [], rfl, ?_, within, ?_⟩
    · cases fuel <;> rfl
    · intro e is
      cases is
  | cons e es ih =>
    have least : 16 ≤ e.bytes.length := e.least
    have recLen := e.recLen_append (stream es)
    rw [stream_cons, List.length_append] at enough
    obtain ⟨fuel, rfl⟩ : ∃ k, fuel = k + 1 := ⟨fuel - 1, by omega⟩
    have some : ¬e.bytes ++ stream es = [] := fun is => e.ne_nil (List.append_eq_nil_iff.mp is).1
    by_cases full : blockSize < fill + e.bytes.length
    · refine ⟨[], e :: es, rfl, ?_, within, ?_⟩
      · rw [stream_cons, fillBytes, if_neg some, recLen, if_pos full]
        rfl
      · intro first is
        cases is
        exact full
    · obtain ⟨page, rest, parts, filled, fits, next⟩ :=
        ih fuel (fill + e.bytes.length) (by omega) (by omega)
      refine ⟨e :: page, rest, ?_, ?_, ?_, ?_⟩
      · rw [parts, List.cons_append]
      · rw [stream_cons, fillBytes, if_neg some, recLen, if_neg full, List.drop_left,
          List.take_left, filled]
        rfl
      · rw [stream_cons, List.length_append]
        omega
      · intro first is
        have beyond := next first is
        rw [stream_cons, List.length_append]
        omega

/-! ## Blocks -/

section Blocks

variable {fs : Fs} {s : St}

/-- What the blocks hold, in order, is the pages. -/
def Holds (fs : Fs) (s : St) (blks : List Nat) (pages : List (List Entry)) : Prop :=
  List.Forall₂ (fun b page => (fs.now s b).area = areaOf (stream page) ∧
    (stream page).length ≤ fs.blockSize) blks pages

theorem Holds.congr {t : St} {blks : List Nat} {pages : List (List Entry)}
    (holds : Holds fs s blks pages) (same : ∀ b ∈ blks, fs.now t b = fs.now s b) :
    Holds fs t blks pages := by
  induction holds with
  | nil => exact .nil
  | cons here _ ih =>
    refine .cons ?_ (ih fun b inside => same b (List.mem_cons_of_mem _ inside))
    rw [same _ List.mem_cons_self]
    exact here

/-- How writing a stream ends when it does not end well. -/
def Refused (fs : Fs) (es : List Entry) (e : Stop) : Prop :=
  e = .status .dirFull ∨ e = .status .nospace ∨
    e = .status .corrupt ∧ ∃ x ∈ es, fs.blockSize < x.bytes.length

/-- Blocks that were free hold the stream, and what was held is as it was. -/
structure Written (fs : Fs) (s t : St) (slots : Nat) (es : List Entry) (blks : List Nat) :
    Prop where
  few : blks.length ≤ slots
  inside : ∀ b ∈ blks, b ≠ 0 ∧ b < fs.totalBlocks ∧ ¬Held fs s b ∧ Held fs t b
  pages : ∃ pages, es = pages.flatten ∧ Holds fs t blks pages

theorem Held.of_txn {t : St} {b : Nat} (held : Held fs s b) (same : t.txn = s.txn) :
    Held fs t b := by
  unfold Held
  rw [same]
  exact held

/-- A block is found, written and held, and no other that is held changes. -/
structure Placed (fs : Fs) (s t : St) (blk : Nat) (b : Block) : Prop where
  some : blk ≠ 0
  inside : blk < fs.totalBlocks
  fresh : ¬Held fs s blk
  held : Held fs t blk
  here : fs.now t blk = b
  keeps : ∀ x, Held fs s x → Held fs t x ∧ fs.now t x = fs.now s x

theorem writeBlock_placed (h : Spanned fs) (ho : fs.dev.ask.Obliging)
    (writable : fs.dev.readOnly = false) {t : St} {blk : Nat} (hands : Hands fs s t blk)
    (some : blk ≠ 0) (b : Block) :
    ∃ u, writeBlock fs blk b t = (.ok (), u) ∧ Placed fs s u blk b := by
  obtain ⟨u, run⟩ := writeBlock_run h.sized ho writable (hands.inside some) b t
  have now := writeBlock_now h.sized run
  have txn := (writeBlock_ok run).2.1
  refine ⟨u, run, some, hands.inside some, hands.fresh some, (hands.held some).of_txn txn, ?_, ?_⟩
  · rw [now, Function.update_self]
  · intro x held
    refine ⟨(hands.keeps x held).of_txn txn, ?_⟩
    have other : x ≠ blk := by
      rintro rfl
      exact hands.fresh some held
    rw [now, Function.update_of_ne other, Fs.now, Fs.now, hands.disk]

/-- One page more at the front. -/
theorem Written.cons {t u : St} {slots blk : Nat} {page es : List Entry} {blks : List Nat}
    (placed : Placed fs s t blk { Block.zero with area := areaOf (stream page) })
    (fits : (stream page).length ≤ fs.blockSize)
    (keeps : ∀ b, Held fs t b → Held fs u b ∧ fs.now u b = fs.now t b)
    (written : Written fs t u slots es blks) :
    Written fs s u (slots + 1) (page ++ es) (blk :: blks) := by
  obtain ⟨few, inside, pages, parts, holds⟩ := written
  have kept := keeps blk placed.held
  refine ⟨Nat.succ_le_succ few, ?_, page :: pages, ?_, .cons ⟨?_, fits⟩ holds⟩
  · intro b here
    rcases List.mem_cons.mp here with rfl | later
    · exact ⟨placed.some, placed.inside, placed.fresh, kept.1⟩
    · obtain ⟨nonzero, within, fresh, held⟩ := inside b later
      exact ⟨nonzero, within, fun old => fresh (placed.keeps b old).1, held⟩
  · rw [parts]
    rfl
  · rw [kept.2, placed.here]

theorem writeBlocks_spec (h : Spanned fs) (ho : fs.dev.ask.Obliging)
    (writable : fs.dev.readOnly = false) {dossier : Nat} (owned : dossier ≠ ownerVoid)
    (slots : Nat) (es : List Entry) (s : St) :
    ∃ r t, writeBlocks fs dossier slots (stream es) s = (r, t) ∧
      (∀ b, Held fs s b → Held fs t b ∧ fs.now t b = fs.now s b) ∧
      (∀ blks, r = .ok blks → Written fs s t slots es blks) ∧
      ∀ e, r = .error e → Refused fs es e := by
  have empty : ∀ slots s, ∃ r t, writeBlocks fs dossier slots (stream []) s = (r, t) ∧
      (∀ b, Held fs s b → Held fs t b ∧ fs.now t b = fs.now s b) ∧
      (∀ blks, r = .ok blks → Written fs s t slots [] blks) ∧
      ∀ e, r = .error e → Refused fs [] e := by
    intro slots s
    refine ⟨.ok [], s, by cases slots <;> rfl, fun b held => ⟨held, rfl⟩, ?_, ?_⟩
    · intro blks is
      cases is
      refine ⟨Nat.zero_le _, ?_, [], rfl, .nil⟩
      intro b here
      cases here
    · intro e is
      cases is
  induction slots generalizing es s with
  | zero =>
    cases es with
    | nil => exact empty 0 s
    | cons e es =>
      obtain ⟨b, rest, bytes⟩ := List.exists_cons_of_ne_nil
        (mt stream_eq_nil.mp (List.cons_ne_nil e es))
      refine ⟨.error (.status .dirFull), s, ?_, fun b held => ⟨held, rfl⟩, ?_, ?_⟩
      · rw [bytes]
        rfl
      · intro blks is
        cases is
      · intro stop is
        cases is
        exact .inl rfl
  | succ slots ih =>
    cases es with
    | nil => exact empty (slots + 1) s
    | cons e es =>
      obtain ⟨b, rest, bytes⟩ := List.exists_cons_of_ne_nil
        (mt stream_eq_nil.mp (List.cons_ne_nil e es))
      obtain ⟨page, left, parts, filled, fits, next⟩ := fillBytes_stream (e :: es)
        (stream (e :: es)).length 0 (Nat.le_refl _) (Nat.zero_le fs.blockSize)
      rw [bytes] at filled
      rw [Nat.zero_add] at fits
      rw [bytes, writeBlocks, filled]
      dsimp only
      by_cases none : page = []
      · -- The first entry is longer than a block.
        subst none
        rw [List.nil_append] at parts
        rw [Prog.bind_of_error (need_not _ (by simp) s)]
        refine ⟨_, s, rfl, fun b held => ⟨held, rfl⟩, ?_, ?_⟩
        · intro blks is
          cases is
        · intro stop is
          cases is
          refine .inr (.inr ⟨rfl, e, List.mem_cons_self, ?_⟩)
          have beyond := next e (by rw [← parts]; rfl)
          rw [stream_nil, List.length_nil, Nat.zero_add] at beyond
          exact beyond
      · rw [Prog.bind_of_ok (need_of _ (mt stream_eq_nil.mp none) s)]
        obtain ⟨blk, t, alloc, hands⟩ := h.txnAlloc owned s
        rw [Prog.bind_of_ok alloc]
        by_cases zero : blk ≠ 0
        case neg =>
          rw [Prog.bind_of_error (need_not _ zero t)]
          refine ⟨_, t, rfl, ?_, ?_, ?_⟩
          · intro b held
            refine ⟨hands.keeps b held, ?_⟩
            rw [Fs.now, Fs.now, hands.disk]
          · intro blks is
            cases is
          · intro stop is
            cases is
            exact .inr (.inl rfl)
        rw [Prog.bind_of_ok (need_of _ zero t)]
        obtain ⟨u, run, placed⟩ := writeBlock_placed h ho writable hands zero
          { Block.zero with area := areaOf (stream page) }
        rw [Prog.bind_of_ok run]
        obtain ⟨r, v, later, keeps, written, refused⟩ := ih left u
        have kept : ∀ b, Held fs s b → Held fs v b ∧ fs.now v b = fs.now s b := by
          intro b held
          obtain ⟨held, same⟩ := placed.keeps b held
          obtain ⟨held, same'⟩ := keeps b held
          exact ⟨held, same'.trans same⟩
        cases r with
        | error stop =>
          rw [Prog.bind_of_error later]
          refine ⟨_, v, rfl, kept, ?_, ?_⟩
          · intro blks is
            cases is
          · intro stop' is
            cases is
            rcases refused stop rfl with full | short | ⟨corrupt, x, inside, long⟩
            · exact .inl full
            · exact .inr (.inl short)
            · refine .inr (.inr ⟨corrupt, x, ?_, long⟩)
              rw [parts]
              exact List.mem_append_right _ inside
        | ok blks =>
          rw [Prog.bind_of_ok later]
          refine ⟨_, v, rfl, kept, ?_, ?_⟩
          · intro blks' is
            cases is
            rw [parts]
            exact (written blks rfl).cons placed fits keeps
          · intro stop is
            cases is

/-! ## Joining -/

theorem readArea_run (hz : fs.Sized) (ho : fs.dev.ask.Obliging) {blk : Nat}
    (inside : blk < fs.totalBlocks) (s : St) :
    readArea fs blk s = (.ok (fs.now s blk).area, s.ticked 1) := by
  have read := readBlock_run hz inside s
  rw [if_pos (ho s.tick).1] at read
  exact Prog.bind_of_ok read

theorem readBlocks_zeros (n : Nat) (got : Bytes) (s : St) :
    readBlocks fs (List.replicate n 0) got s = (.ok got, s) := by
  induction n with
  | zero => rfl
  | succ n ih =>
    rw [List.replicate_succ, readBlocks, if_pos rfl]
    exact ih

/-- The blocks of a stream join to the stream. -/
theorem readBlocks_stream (hz : fs.Sized) (ho : fs.dev.ask.Obliging) {blks : List Nat}
    {pages : List (List Entry)} (zeros : Nat) (got : Bytes)
    (inside : ∀ b ∈ blks, b ≠ 0 ∧ b < fs.totalBlocks) (holds : Holds fs s blks pages)
    (room : got.length + (stream pages.flatten).length ≤ entriesCapacity fs) (u : St)
    (same : fs.now u = fs.now s) :
    ∃ t, readBlocks fs (blks ++ List.replicate zeros 0) got u =
      (.ok (got ++ stream pages.flatten), t) := by
  induction holds generalizing got u with
  | nil =>
    refine ⟨u, ?_⟩
    rw [List.nil_append, readBlocks_zeros, List.flatten_nil, stream_nil, List.append_nil]
  | @cons blk page blks pages here rest ih =>
    obtain ⟨area, fits⟩ := here
    obtain ⟨nonzero, within⟩ := inside blk List.mem_cons_self
    rw [List.flatten_cons, stream_append, List.length_append] at room
    have taken : takeBytes fs (areaOf (stream page)) fs.blockSize got.length = some (stream page) :=
      takeBytes_areaOf fits (by omega)
    rw [← area, ← same] at taken
    obtain ⟨t, later⟩ := ih (got ++ stream page)
      (fun b later => inside b (List.mem_cons_of_mem _ later))
      (by rw [List.length_append]; omega) (u.ticked 1) same
    refine ⟨t, ?_⟩
    rw [List.cons_append, readBlocks, if_neg nonzero, Prog.bind_of_ok (readArea_run hz ho within u),
      taken]
    rw [List.append_assoc] at later
    rw [List.flatten_cons, stream_append]
    exact later

theorem directs_pointers {blks : List Nat} (few : blks.length ≤ directCount) (ino : Inode) :
    Inode.directs { ino with direct := pointers blks } =
      blks ++ List.replicate (directCount - blks.length) 0 := by
  apply List.ext_getElem
  · simp only [Inode.directs, List.length_map, List.length_range, List.length_append,
      List.length_replicate]
    omega
  · intro i here there
    simp only [Inode.directs, List.getElem_map, List.getElem_range, pointers]
    by_cases inside : i < blks.length
    · rw [List.getElem_append_left inside, List.getD_eq_getElem _ _ inside]
    · rw [List.getElem_append_right (Nat.le_of_not_lt inside), List.getElem_replicate,
        List.getD_eq_default _ _ (Nat.le_of_not_lt inside)]

/-! ## The round trip -/

/-- The directory's inode is at the block, and its entries read back as the stream. -/
def ReadsBack (fs : Fs) (t : St) (blk : Nat) (bytes : Bytes) : Prop :=
  ∃ ino u v, readInode fs blk t = (.ok ino, u) ∧ readStream fs ino u = (.ok bytes, v)

theorem readInode_run (hz : fs.Sized) (ho : fs.dev.ask.Obliging) {blk : Nat}
    (inside : blk < fs.totalBlocks) {ino : Inode} (here : fs.now s blk = .ofInode ino) :
    readInode fs blk s = (.ok ino, s.ticked 1) := by
  have read := readBlock_run hz inside s
  rw [if_pos (ho s.tick).1, here] at read
  exact Prog.bind_of_ok read

/-- A stream inside its inode reads back. -/
theorem inline_readsBack (hz : fs.Sized) (ho : fs.dev.ask.Obliging) {blk : Nat}
    (inside : blk < fs.totalBlocks) {ino : Inode} (clean : ino.direct = fun _ => 0)
    {es : List Entry} (room : (stream es).length ≤ entriesCapacity fs)
    (here : fs.now s blk = .ofInode
      { ino with data := areaOf (stream es), inlineLen := (stream es).length }) :
    ReadsBack fs s blk (stream es) := by
  have memory : ∀ n, fs.dev.ask.memory n = true := fun n => (ho n).2.2.2
  refine ⟨_, _, ?_, readInode_run hz ho inside here, ?_⟩
  · exact if (stream es).length ≠ 0 then (s.ticked 1).ticked 1 else ((s.ticked 1).ticked 1).ticked 1
  · rw [readStream, Prog.bind_of_ok (buffer_run (memory _))]
    dsimp only
    by_cases nonzero : (stream es).length ≠ 0
    · have taken : takeBytes fs (areaOf (stream es)) (stream es).length 0 = some (stream es) :=
        takeBytes_areaOf (Nat.le_refl _) (by rwa [Nat.zero_add])
      rw [if_pos nonzero, if_pos nonzero, taken]
      rfl
    · rw [if_neg nonzero, if_neg nonzero, Prog.bind_of_ok (buffer_run (memory _))]
      have zeros : Inode.directs
          { ino with data := areaOf (stream es), inlineLen := (stream es).length } =
            List.replicate directCount 0 := by
        simp only [Inode.directs, clean, List.map_const', List.length_range]
      have nothing : stream es = [] := List.eq_nil_of_length_eq_zero (not_not.mp nonzero)
      rw [zeros, readBlocks_zeros, nothing]

/-- A stream in blocks of its own reads back. -/
theorem blocks_readsBack (hz : fs.Sized) (ho : fs.dev.ask.Obliging) {blk : Nat}
    (inside : blk < fs.totalBlocks) {ino : Inode} (clean : ino.inlineLen = 0) {es : List Entry}
    (room : (stream es).length ≤ entriesCapacity fs) {blks : List Nat}
    {pages : List (List Entry)} (few : blks.length ≤ directCount)
    (within : ∀ b ∈ blks, b ≠ 0 ∧ b < fs.totalBlocks) (parts : es = pages.flatten)
    (holds : Holds fs s blks pages)
    (here : fs.now s blk = .ofInode { ino with direct := pointers blks }) :
    ReadsBack fs s blk (stream es) := by
  have memory : ∀ n, fs.dev.ask.memory n = true := fun n => (ho n).2.2.2
  subst parts
  obtain ⟨v, joined⟩ := readBlocks_stream hz ho (directCount - blks.length) [] within holds
    (by rwa [List.length_nil, Nat.zero_add]) (((s.ticked 1).ticked 1).ticked 1) rfl
  refine ⟨_, _, v, readInode_run hz ho inside here, ?_⟩
  rw [readStream, Prog.bind_of_ok (buffer_run (memory _))]
  dsimp only
  rw [if_neg (not_not.mpr clean), Prog.bind_of_ok (buffer_run (memory _)),
    directs_pointers few]
  exact joined

theorem writeStreamAt_spec (h : Spanned fs) (ho : fs.dev.ask.Obliging)
    (writable : fs.dev.readOnly = false) {blk : Nat} (inside : blk < fs.totalBlocks)
    (held : Held fs s blk) {ino : Inode} (owned : ino.dossier ≠ ownerVoid)
    (clean : ino.inlineLen = 0 ∧ ino.direct = fun _ => 0) {es : List Entry}
    (room : (stream es).length ≤ entriesCapacity fs) :
    ∃ r t, writeStreamAt fs blk ino (stream es) s = (r, t) ∧
      (r = .ok () → ∀ u, fs.now u = fs.now t → ReadsBack fs u blk (stream es)) ∧
      ∀ e, r = .error e → Refused fs es e := by
  have memory : ∀ n, fs.dev.ask.memory n = true := fun n => (ho n).2.2.2
  unfold writeStreamAt
  by_cases short : (stream es).length ≤ inlineMax fs.blockSize
  · rw [if_pos short]
    obtain ⟨t, run⟩ := writeBlock_run h.sized ho writable inside (.ofInode
      { ino with data := areaOf (stream es), inlineLen := (stream es).length }) s
    refine ⟨_, t, run, fun _ u same => ?_, ?_⟩
    · refine inline_readsBack h.sized ho inside clean.2 room ?_
      rw [same, writeBlock_now h.sized run, Function.update_self]
    · intro e is
      cases is
  · rw [if_neg short, Prog.bind_of_ok (buffer_run (memory _))]
    obtain ⟨r, t, run, keeps, written, refused⟩ :=
      writeBlocks_spec h ho writable owned directCount es (s.ticked 1)
    cases r with
    | error e =>
      rw [Prog.bind_of_error run]
      refine ⟨_, t, rfl, ?_, ?_⟩
      · intro is
        cases is
      · intro e' is
        cases is
        exact refused e rfl
    | ok blks =>
      obtain ⟨few, placed, pages, parts, holds⟩ := written blks rfl
      rw [Prog.bind_of_ok run]
      obtain ⟨u, last⟩ := writeBlock_run h.sized ho writable inside
        (.ofInode { ino with direct := pointers blks }) t
      have now := writeBlock_now h.sized last
      refine ⟨_, u, last, fun _ v same => ?_, ?_⟩
      · have apart : ∀ b ∈ blks, fs.now v b = fs.now t b := by
          intro b here
          have other : b ≠ blk := by
            rintro rfl
            exact (placed b here).2.2.1 held
          rw [same, now, Function.update_of_ne other]
        refine blocks_readsBack h.sized ho inside clean.1 room few ?_ parts (holds.congr apart) ?_
        · exact fun b here => ⟨(placed b here).1, (placed b here).2.1⟩
        · rw [same, now, Function.update_self]
      · intro e is
        cases is

theorem releaseDir_run (h : Spanned fs) (oldBlock : Nat) (old : Inode) (s : St) :
    ∃ t, releaseDir fs oldBlock old s = (.ok (), t) ∧ t.disk = s.disk := by
  have direct : ∀ (blks : List Nat) s, ∃ t,
      Prog.each blks (fun blk => if blk = 0 then pure () else txnFree fs blk) s = (.ok (), t) ∧
        t.disk = s.disk := by
    intro blks
    induction blks with
    | nil => exact fun s => ⟨s, rfl, rfl⟩
    | cons blk blks ih =>
      intro s
      by_cases zero : blk = 0
      · obtain ⟨t, run, disk⟩ := ih s
        refine ⟨t, ?_, disk⟩
        rw [Prog.each, if_pos zero]
        exact run
      · obtain ⟨u, freed, disk⟩ := h.txnFree blk s
        obtain ⟨t, run, disk'⟩ := ih u
        refine ⟨t, ?_, disk'.trans disk⟩
        rw [Prog.each, if_neg zero, Prog.bind_of_ok freed]
        exact run
  unfold releaseDir
  by_cases outside : old.inlineLen = 0
  · obtain ⟨u, run, disk⟩ := direct old.directs s
    obtain ⟨t, freed, disk'⟩ := h.txnFree oldBlock u
    refine ⟨t, ?_, disk'.trans disk⟩
    rw [Prog.when_of outside, freeDirect, Prog.bind_of_ok run]
    exact freed
  · obtain ⟨t, freed, disk⟩ := h.txnFree oldBlock s
    refine ⟨t, ?_, disk⟩
    rw [Prog.when_not outside]
    exact freed

/-- With a block for the directory, what is left is to write the entries. -/
theorem writeStream_start (memory : ∀ n, fs.dev.ask.memory n = true) (oldBlock : Nat) (old : Inode)
    (bytes : Bytes) {blk : Nat} {t : St} (nonzero : blk ≠ 0)
    (alloc : txnAlloc fs (if old.parent ≠ 0 then old.parent else ownerArchive) s = (.ok blk, t)) :
    writeStream fs oldBlock old bytes s = (do
      writeStreamAt fs blk (dirInode old bytes.length (fs.dev.ask.clock (t.tick + 1))) bytes
      Prog.when (oldBlock ≠ 0) (releaseDir fs oldBlock old)
      pure blk : M Nat) (t.ticked 2) := by
  have clock : timeMonotonicNs fs.dev (t.ticked 1) =
      (.ok (fs.dev.ask.clock (t.tick + 1)), t.ticked 2) := rfl
  rw [writeStream, Prog.bind_of_ok alloc, Prog.bind_of_ok (need_of _ nonzero t),
    Prog.bind_of_ok (buffer_run (memory _)), Prog.bind_of_ok clock]

/-- A stream that is written is the stream that is read, byte for byte and in order; and it is
refused for three reasons only. -/
theorem writeStream_readsBack (h : Spanned fs) (ho : fs.dev.ask.Obliging)
    (writable : fs.dev.readOnly = false) {old : Inode} (owned : old.dossier ≠ ownerVoid)
    (oldBlock : Nat) {es : List Entry} (room : (stream es).length ≤ entriesCapacity fs) (s : St) :
    ∃ r t, writeStream fs oldBlock old (stream es) s = (r, t) ∧
      (∀ blk, r = .ok blk → ReadsBack fs t blk (stream es)) ∧
      ∀ e, r = .error e → Refused fs es e := by
  have parent : (if old.parent ≠ 0 then old.parent else ownerArchive) ≠ ownerVoid := by
    split
    case isTrue some => exact some
    case isFalse => decide
  have memory : ∀ n, fs.dev.ask.memory n = true := fun n => (ho n).2.2.2
  obtain ⟨blk, t, alloc, hands⟩ := h.txnAlloc parent s
  by_cases nonzero : blk ≠ 0
  case neg =>
    rw [writeStream, Prog.bind_of_ok alloc, Prog.bind_of_error (need_not _ nonzero t)]
    refine ⟨_, t, rfl, ?_, ?_⟩
    · intro blk is
      cases is
    · intro e is
      cases is
      exact .inr (.inl rfl)
  rw [writeStream_start memory oldBlock old (stream es) nonzero alloc]
  have held : Held fs (t.ticked 2) blk := hands.held nonzero
  have owned' : (dirInode old (stream es).length (fs.dev.ask.clock (t.tick + 1))).dossier ≠
      ownerVoid := owned
  obtain ⟨r, u, run, back, refused⟩ := writeStreamAt_spec h ho writable (hands.inside nonzero) held
    owned' ⟨rfl, rfl⟩ room
  cases r with
  | error e =>
    rw [Prog.bind_of_error run]
    refine ⟨_, u, rfl, ?_, ?_⟩
    · intro blk is
      cases is
    · intro e' is
      cases is
      exact refused e rfl
  | ok done =>
    rw [Prog.bind_of_ok run]
    obtain ⟨v, released, disk⟩ : ∃ v,
        Prog.when (oldBlock ≠ 0) (releaseDir fs oldBlock old) u = (.ok (), v) ∧
          v.disk = u.disk := by
      by_cases replaces : oldBlock ≠ 0
      · rw [Prog.when_of replaces]
        exact releaseDir_run h oldBlock old u
      · rw [Prog.when_not replaces]
        exact ⟨u, rfl, rfl⟩
    rw [Prog.bind_of_ok released]
    refine ⟨.ok blk, v, rfl, ?_, ?_⟩
    · intro blk' is
      cases is
      refine back rfl v ?_
      rw [Fs.now, Fs.now, disk]
    · intro e is
      cases is

end Blocks

/-! ## Two streams -/

/-- A transaction on a small volume just made has a block to hand out. -/
theorem small_alloc :
    ∃ fs v blk w, Spanned fs ∧ fs.dev = smallDevice ∧ fs.blockSize = 4096 ∧
      txnAlloc fs ownerArchive v = (.ok blk, w) ∧ blk ≠ 0 := by
  obtain ⟨fs, t, u, -, -, ready, table⟩ := fresh_volume 4096 smallDevice_accepted
    granting_obliging (by decide) none blank
  obtain rfl : fs = freshFs smallDevice none 4096 := ready.2
  change TableOf _ _ (formatOwner (laidOut smallDevice 4096)) at table
  have begins := @txnBegin_run (freshFs smallDevice none 4096) granting_obliging rfl u
  have reaches : Reaches (freshFs smallDevice none 4096) (u.tick + 1) 0 63 :=
    ⟨by decide +kernel, fun j _ _ => ⟨rfl, fun _ _ => rfl⟩⟩
  have sized := ready.1.sized
  obtain ⟨blk, w, run, least, -⟩ := allocScan_complete ownerArchive
    (freshFs smallDevice none 4096).totalBlocks sized table (Scanning.begin begins)
    (Nat.zero_le _) sized.firstData_leaf.le (by decide +kernel) (by decide +kernel)
    (by decide +kernel) (by decide +kernel) reaches
  have alloc := (txnAlloc_first_run begins ownerArchive).trans run
  refine ⟨_, _, blk, w, ⟨sized, table.span⟩, rfl, rfl, alloc, ?_⟩
  have front : 0 < firstDataBlock (freshFs smallDevice none 4096).blockSize := Nat.succ_pos _
  exact Nat.pos_iff_ne_zero.mp (Nat.lt_of_lt_of_le front least)

/-- A directory with no parent. -/
def someDir : Inode := { Inode.zero with dossier := dossierRoot, type := typeDir }

/-- One name of one letter. -/
def shortEntry : Entry where
  bytes := [20, 0, 0, 0, 0, 0, 0, 0, 24, 0, 1, 1, 0, 0, 0, 0, 97, 0, 0, 0, 0, 0, 0, 0]
  least := by decide
  aligned := by decide
  recLen := by decide
  name := by decide
  used := by decide

/-- A stream of one entry is written inside the inode, and read back. -/
theorem short_readsBack :
    ∃ fs s blk t, writeStream fs 0 someDir (stream [shortEntry]) s = (.ok blk, t) ∧
      ReadsBack fs t blk (stream [shortEntry]) := by
  obtain ⟨fs, v, blk, w, spanned, device, size, alloc, nonzero⟩ := small_alloc
  have obliging : fs.dev.ask.Obliging := device ▸ granting_obliging
  have memory : ∀ n, fs.dev.ask.memory n = true := fun n => (obliging n).2.2.2
  have writable : fs.dev.readOnly = false := device ▸ rfl
  have room : (stream [shortEntry]).length ≤ entriesCapacity fs := by
    rw [entriesCapacity, size]
    decide
  have owned : someDir.dossier ≠ ownerVoid := by decide
  obtain ⟨r, t, run, back, -⟩ := writeStream_readsBack spanned obliging writable owned 0 room v
  obtain ⟨blk', w', alloc', hands⟩ := spanned.txnAlloc (by decide : ownerArchive ≠ ownerVoid) v
  rw [alloc] at alloc'
  cases alloc'
  have short : (stream [shortEntry]).length ≤ inlineMax fs.blockSize := by
    rw [size]
    decide
  have start := writeStream_start memory 0 someDir (stream [shortEntry]) nonzero alloc
  rw [run, writeStreamAt, if_pos short] at start
  obtain ⟨u, wrote⟩ := writeBlock_run spanned.sized obliging writable (hands.inside nonzero)
    (.ofInode { dirInode someDir (stream [shortEntry]).length (fs.dev.ask.clock (w.tick + 1)) with
      data := areaOf (stream [shortEntry]), inlineLen := (stream [shortEntry]).length })
    (w.ticked 2)
  rw [Prog.bind_of_ok wrote] at start
  cases start
  exact ⟨fs, v, blk, t, run, back blk rfl⟩

/-- The first bytes of an entry of 4104 bytes. -/
def longHeader : Bytes := [20, 0, 0, 0, 0, 0, 0, 0, 8, 16, 1, 1, 0, 0, 0, 0]

theorem longHeader_getD (pad : Bytes) {i : Nat} (inside : i < 16) :
    (longHeader ++ pad).getD i 0 = longHeader.getD i 0 := List.getD_append _ _ _ _ inside

/-- An entry longer than a block of 4096 bytes. -/
def longEntry : Entry where
  bytes := longHeader ++ List.replicate 4088 0
  least := by rw [List.length_append, List.length_replicate]; decide
  aligned := by rw [List.length_append, List.length_replicate]; decide
  recLen := by
    rw [recLenOf, longHeader_getD _ (by decide), longHeader_getD _ (by decide), List.length_append,
      List.length_replicate]
    decide
  name := by
    rw [nameLenOf, longHeader_getD _ (by decide), List.length_append, List.length_replicate]
    decide
  used := by
    have same : ∀ i ∈ List.range 8,
        ((longHeader ++ List.replicate 4088 0).getD i 0).toNat * 256 ^ i =
          (longHeader.getD i 0).toNat * 256 ^ i := by
      intro i here
      have inside := List.mem_range.mp here
      rw [longHeader_getD _ (by omega)]
    rw [inodeOf, List.map_congr_left same]
    decide

theorem longEntry_length : longEntry.bytes.length = 4104 := by
  rw [longEntry, List.length_append, List.length_replicate]
  rfl

/-- An entry longer than a block is refused as corrupt, not for want of room. -/
theorem long_refused :
    ∃ fs s t, Spanned fs ∧ fs.dev.ask.Obliging ∧ fs.dev.readOnly = false ∧
      (stream [longEntry]).length ≤ entriesCapacity fs ∧
      writeStream fs 0 someDir (stream [longEntry]) s = (.error (.status .corrupt), t) := by
  obtain ⟨fs, v, blk, w, spanned, device, size, alloc, nonzero⟩ := small_alloc
  have obliging : fs.dev.ask.Obliging := device ▸ granting_obliging
  have memory : ∀ n, fs.dev.ask.memory n = true := fun n => (obliging n).2.2.2
  have length : (stream [longEntry]).length = 4104 := by
    rw [stream_cons, stream_nil, List.append_nil, longEntry_length]
  have room : (stream [longEntry]).length ≤ entriesCapacity fs := by
    rw [entriesCapacity, size, length]
    decide
  have long : ¬(stream [longEntry]).length ≤ inlineMax fs.blockSize := by
    rw [size, length]
    decide
  obtain ⟨b, rest, bytes⟩ := List.exists_cons_of_ne_nil
    (mt stream_eq_nil.mp (List.cons_ne_nil longEntry []))
  have unfit : fillBytes fs.blockSize (b :: rest).length 0 (b :: rest) = ([], b :: rest) := by
    have recLen := longEntry.recLen_append []
    rw [← stream_nil, ← stream_cons, bytes, longEntry_length] at recLen
    rw [List.length_cons, fillBytes, if_neg (List.cons_ne_nil b rest), recLen, size]
    rfl
  refine ⟨fs, v, (w.ticked 2).ticked 1, spanned, obliging, device ▸ rfl, room, ?_⟩
  rw [writeStream_start memory 0 someDir _ nonzero alloc, writeStreamAt, if_neg long]
  refine Prog.bind_of_error ?_
  rw [Prog.bind_of_ok (buffer_run (memory _))]
  refine Prog.bind_of_error ?_
  rw [bytes, directCount, writeBlocks, unfit]
  exact Prog.bind_of_error (need_not _ (not_not.mpr rfl) _)

end ReconOS.Reconfs
