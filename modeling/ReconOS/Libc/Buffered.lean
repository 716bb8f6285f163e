import ReconOS.Libc.Stdio

/-! Reading through the buffer gives what reading without one gives. -/
namespace ReconOS.Libc

/-- What is in the buffer and not yet read. -/
def Stream.held (f : Stream) : List Byte := f.buffer.drop f.at'

/-- The buffer holds what comes next in the file from `off` on, and the descriptor is past it. -/
structure Reads (file : File) (f : Stream) (off : Nat) : Prop where
  next : f.held <+: file.content.drop off
  offset : f.fd.offset = off + f.held.length

/-- The stream stands for the reference stream `r`. -/
structure Rep (file : File) (f : Stream) (r : Ref) : Prop where
  reads : Reads file f r.off
  pushed : f.pushedBack = r.pushed
  position : f.position = r.position

/-- The kernel refuses the seek a call would make. -/
def Refused (file : File) (f : Stream) (offset : Int) (origin : Whence) : Prop :=
  sysSeek file f.fd (seekTarget f offset origin).1 (seekTarget f offset origin).2 = none

/-- The call is no `fgets` with a character pushed back, which it looks past, and no seek that is
refused with something read ahead or pushed back, which it throws away. -/
def Careful (file : File) (f : Stream) : ReadCall → Prop
  | .fgets room => f.pushedBack = none ∨ room ≤ 1
  | .fseek offset origin => Refused file f offset origin → f.held = [] ∧ f.pushedBack = none
  | .rewind => Refused file f 0 .seekSet → f.held = [] ∧ f.pushedBack = none
  | .fgetc | .fread _ _ _ | .ungetc _ | .ftell => True

instance (file : File) (f : Stream) (offset : Int) (origin : Whence) :
    Decidable (Refused file f offset origin) := inferInstanceAs (Decidable (_ = _))

instance (file : File) (f : Stream) (call : ReadCall) : Decidable (Careful file f call) :=
  match call with
  | .fgets room => inferInstanceAs (Decidable (f.pushedBack = none ∨ room ≤ 1))
  | .fseek offset origin =>
    inferInstanceAs (Decidable (Refused file f offset origin → f.held = [] ∧ f.pushedBack = none))
  | .rewind =>
    inferInstanceAs (Decidable (Refused file f 0 .seekSet → f.held = [] ∧ f.pushedBack = none))
  | .fgetc | .fread _ _ _ | .ungetc _ | .ftell => inferInstanceAs (Decidable True)

variable {file : File} {short : Nat → Nat} {f : Stream} {r : Ref} {off : Nat}

/-! ## The buffer -/

variable (short) in
/-- What `fill` leaves: the same place in the file, with something in the buffer unless the file is
at its end. -/
theorem fill_spec (h : Reads file f off) :
    Reads file (fill file short f).1 off ∧
    (fill file short f).2 = (fill file short f).1.held.length ∧
    ((fill file short f).2 = 0 → file.content.drop off = []) ∧
    (fill file short f).1.pushedBack = f.pushedBack ∧
    (fill file short f).1.position = f.position := by
  unfold fill
  split
  case isTrue more =>
    refine ⟨h, by simp [Stream.held], fun none => ?_, rfl, rfl⟩
    omega
  case isFalse used =>
    have empty : f.held = [] := List.drop_eq_nil_of_le (by omega)
    have at_off : f.fd.offset = off := by simpa [empty] using h.offset
    dsimp only
    split
    case isTrue none =>
      have got : (sysRead file short f.fd bufferSize).1 = [] := List.eq_nil_of_length_eq_zero none
      have offset : (sysRead file short f.fd bufferSize).2.offset = off := by
        change f.fd.offset + (sysRead file short f.fd bufferSize).1.length = off
        rw [got, at_off]
        rfl
      refine ⟨⟨List.nil_prefix, offset⟩, rfl, fun _ => ?_, rfl, rfl⟩
      have ends : min bufferSize (short f.fd.reads + 1) = 0 ∨ file.content.drop off = [] := by
        simpa [sysRead, at_off] using got
      refine ends.resolve_left fun zero => ?_
      simp only [bufferSize] at zero
      omega
    case isFalse some =>
      refine ⟨⟨?_, ?_⟩, rfl, fun none => absurd none some, rfl, rfl⟩
      · simpa [Stream.held, sysRead, at_off] using List.take_prefix _ _
      · simp [Stream.held, sysRead, at_off]

/-- Taking `k` bytes from the buffer reads `k` bytes of the file. -/
theorem Reads.take {k : Nat} (h : Reads file f off) (within : k ≤ f.held.length) (position : Int) :
    f.held.take k = (file.content.drop off).take k ∧
    Reads file { f with at' := f.at' + k, position := position } (off + k) := by
  obtain ⟨rest, split⟩ := h.next
  have held : ({ f with at' := f.at' + k, position := position } : Stream).held = f.held.drop k := by
    simp [Stream.held, List.drop_drop]
  refine ⟨?_, ⟨?_, ?_⟩⟩
  · rw [← split, List.take_append_of_le_length within]
  · rw [held, ← List.drop_drop, ← split, List.drop_append_of_le_length within]
    exact List.prefix_append _ _
  · rw [held, List.length_drop]
    change f.fd.offset = _
    rw [h.offset]
    omega

/-- The byte at the front of the buffer. -/
theorem Reads.head (h : Reads file f off) (some : f.held ≠ []) :
    file.content.drop off = f.buffer.getD f.at' 0 :: file.content.drop (off + 1) := by
  obtain ⟨c, rest, held⟩ := List.exists_cons_of_ne_nil some
  have byte : f.buffer.getD f.at' 0 = c := by
    rw [List.getD_eq_getElem?_getD, ← List.head?_drop]
    change f.held.head?.getD 0 = c
    rw [held]
    rfl
  obtain ⟨tail, split⟩ := h.next
  rw [held, List.cons_append] at split
  rw [byte, ← List.drop_drop, ← split]
  rfl

/-! ## The loops -/

variable (short) in
theorem freadLoop_spec (turns : Nat) {f : Stream} {off need : Nat} (h : Reads file f off)
    (enough : need ≤ turns) :
    (freadLoop file short turns f need).2 = (file.content.drop off).take need ∧
    Reads file (freadLoop file short turns f need).1
      (off + (freadLoop file short turns f need).2.length) ∧
    (freadLoop file short turns f need).1.pushedBack = f.pushedBack ∧
    (freadLoop file short turns f need).1.position = f.position := by
  induction turns generalizing f off need with
  | zero =>
    obtain rfl : need = 0 := by omega
    exact ⟨rfl, h, rfl, rfl⟩
  | succ turns ih =>
    obtain ⟨filled, count, ends, pushed, position⟩ := fill_spec short h
    unfold freadLoop
    split
    case isTrue none =>
      subst none
      exact ⟨rfl, h, rfl, rfl⟩
    case isFalse some =>
      dsimp only
      split
      case isTrue zero => exact ⟨by simp [ends zero], filled, pushed, position⟩
      case isFalse more =>
        have within : min need (fill file short f).2 ≤ (fill file short f).1.held.length := by omega
        obtain ⟨bytes, moved⟩ := filled.take within (fill file short f).1.position
        have turn : min need (fill file short f).2 + (need - min need (fill file short f).2) = need := by
          omega
        have some' : 1 ≤ min need (fill file short f).2 := by omega
        generalize min need (fill file short f).2 = m at *
        obtain ⟨rest, reads, pushed', position'⟩ := ih moved (show need - m ≤ turns by omega)
        have whole : (file.content.drop off).take need =
            (fill file short f).1.held.take m ++ (file.content.drop (off + m)).take (need - m) := by
          rw [bytes, ← List.drop_drop, ← List.take_add, turn]
        refine ⟨?_, ?_, pushed'.trans pushed, position'.trans position⟩
        · rw [rest, whole]
          rfl
        · have taken : ((fill file short f).1.held.take m).length = m := List.length_take_of_le within
          rw [List.length_append]
          change Reads file _ (off + (((fill file short f).1.held.take m).length + _))
          rw [taken, ← Nat.add_assoc]
          exact reads

variable (short) in
/-- What `fgets` reads, where nothing is pushed back. -/
theorem fgetsLoop_spec (n : Nat) {f : Stream} {off : Nat} (h : Reads file f off) :
    (fgetsLoop file short n f).2 = takeLine n (file.content.drop off) ∧
    Reads file (fgetsLoop file short n f).1 (off + (fgetsLoop file short n f).2.length) ∧
    (fgetsLoop file short n f).1.pushedBack = f.pushedBack ∧
    (fgetsLoop file short n f).1.position =
      f.position + (fgetsLoop file short n f).2.length := by
  induction n generalizing f off with
  | zero => exact ⟨rfl, h, rfl, by simp [fgetsLoop]⟩
  | succ n ih =>
    obtain ⟨filled, count, ends, pushed, position⟩ := fill_spec short h
    unfold fgetsLoop
    dsimp only
    split
    case isTrue zero => exact ⟨by simp [ends zero, takeLine], filled, pushed, by simp [position]⟩
    case isFalse more =>
      have some : (fill file short f).1.held ≠ [] := by
        rw [← List.length_pos_iff]
        omega
      have head := filled.head some
      obtain ⟨-, moved⟩ := filled.take (List.length_pos_iff.2 some)
        ((fill file short f).1.position + 1)
      rw [head, takeLine]
      split
      case isTrue => exact ⟨rfl, moved, pushed, by simp [position]⟩
      case isFalse =>
        obtain ⟨rest, reads, pushed', position'⟩ := ih moved
        refine ⟨by rw [rest], ?_, pushed'.trans pushed, ?_⟩
        · rw [List.length_cons, ← Nat.add_assoc, Nat.add_right_comm]
          exact reads
        · rw [position', List.length_cons, position]
          push_cast
          omega

/-! ## One call -/

/-- The character pushed back and `got` are read: that is all that was pushed back, and so many
bytes of the file. -/
theorem Ref.advance_read (r : Ref) (got : List Byte) :
    r.advance (r.pushed.toList ++ got).length = ⟨r.off + got.length, none⟩ := by
  obtain ⟨off, pushed⟩ := r
  cases pushed with
  | none => cases got <;> rfl
  | some c => simp [Ref.advance]

theorem Reads.ignores (h : Reads file f off) (pushed : Option Byte) (position : Int) :
    Reads file { f with pushedBack := pushed, position := position } off := ⟨h.next, h.offset⟩

variable (short) in
theorem fgetc_spec (rep : Rep file f r) :
    (fgetc file short f).2 = ((r.ahead file).take 1).head? ∧
    Rep file (fgetc file short f).1 (r.advance ((r.ahead file).take 1).length) := by
  obtain ⟨reads, pushed, position⟩ := rep
  obtain ⟨off, back⟩ := r
  dsimp only at reads pushed
  unfold fgetc
  rw [pushed]
  cases back with
  | some c =>
    have advance : (Ref.mk off (some c)).advance ((Ref.ahead file ⟨off, some c⟩).take 1).length =
        ⟨off, none⟩ := rfl
    rw [advance]
    exact ⟨rfl, reads.ignores _ _, rfl, by simp [position, Ref.position]⟩
  | none =>
    obtain ⟨filled, count, ends, pushed', position'⟩ := fill_spec short reads
    dsimp only [Ref.ahead, Option.toList_none, List.nil_append]
    split
    case isTrue zero =>
      rw [ends zero]
      exact ⟨rfl, filled, pushed'.trans pushed, position'.trans position⟩
    case isFalse more =>
      have some : (fill file short f).1.held ≠ [] := by
        rw [← List.length_pos_iff]
        omega
      obtain ⟨-, moved⟩ := filled.take (List.length_pos_iff.2 some)
        ((fill file short f).1.position + 1)
      rw [filled.head some]
      refine ⟨rfl, moved, pushed'.trans pushed, ?_⟩
      simp [position', position, Ref.position, Ref.advance]

variable (short) in
theorem fread_spec (rep : Rep file f r) {size count : Nat} (some : ¬(size = 0 ∨ count = 0)) :
    (fread file short f size count).2.1 = (r.ahead file).take (size * count) ∧
    Rep file (fread file short f size count).1
      (r.advance ((r.ahead file).take (size * count)).length) := by
  obtain ⟨reads, pushed, position⟩ := rep
  have one : 1 ≤ size * count := Nat.mul_pos (by omega) (by omega)
  have back : r.pushed.toList.length ≤ 1 := by cases r.pushed <;> simp
  obtain ⟨bytes, moved, gone, still⟩ := freadLoop_spec short (size * count)
    (reads.ignores none f.position) (Nat.sub_le (size * count) r.pushed.toList.length)
  have taken : (r.ahead file).take (size * count) = r.pushed.toList ++
      (file.content.drop r.off).take (size * count - r.pushed.toList.length) := by
    rw [Ref.ahead, List.take_append, List.take_of_length_le (by omega)]
  unfold fread
  rw [if_neg some, taken, Ref.advance_read]
  simp only [pushed]
  generalize freadLoop file short (size * count) { f with pushedBack := none }
    (size * count - r.pushed.toList.length) = loop at *
  rw [bytes] at moved
  refine ⟨by rw [bytes], moved.ignores _ _, gone, ?_⟩
  simp only [still, position, bytes, Ref.position, List.length_append, Option.toList_none,
    List.length_nil]
  push_cast
  omega

variable (short) in
theorem fgets_spec (rep : Rep file f r) {room : Int} (careful : f.pushedBack = none ∨ room ≤ 1) :
    (fgets file short f room).2 =
      (if takeLine (room - 1).toNat (r.ahead file) = [] then none
        else some (takeLine (room - 1).toNat (r.ahead file))) ∧
    Rep file (fgets file short f room).1
      (r.advance (takeLine (room - 1).toNat (r.ahead file)).length) := by
  obtain ⟨reads, pushed, position⟩ := rep
  by_cases small : room ≤ 1
  · have zero : (room - 1).toNat = 0 := by omega
    rw [zero]
    unfold fgets
    split
    · exact ⟨rfl, reads, pushed, position⟩
    · rw [zero]
      exact ⟨rfl, reads, pushed, position⟩
  · have none := careful.resolve_right small
    obtain ⟨off, back⟩ := r
    obtain rfl : back = Option.none := pushed.symm.trans none
    obtain ⟨line, moved, gone, still⟩ := fgetsLoop_spec short (room - 1).toNat reads
    unfold fgets
    rw [if_neg (by omega)]
    dsimp only [Ref.ahead, Option.toList_none, List.nil_append]
    generalize (room - 1).toNat = n at *
    rw [line] at moved still ⊢
    have advance := Ref.advance_read ⟨off, Option.none⟩ (takeLine n (file.content.drop off))
    simp only [Option.toList_none, List.nil_append] at advance
    rw [advance]
    refine ⟨rfl, moved, gone.trans pushed, ?_⟩
    simp [still, position, Ref.position]

theorem ungetc_spec (rep : Rep file f r) (c : Int) :
    ((buffered file short).step f (.ungetc c)).2 = ((unbuffered file).step r (.ungetc c)).2 ∧
    Rep file ((buffered file short).step f (.ungetc c)).1 ((unbuffered file).step r (.ungetc c)).1 := by
  obtain ⟨reads, pushed, position⟩ := rep
  dsimp only [buffered, unbuffered]
  unfold ungetc
  rw [pushed]
  by_cases negative : c < 0
  · rw [if_pos negative, if_pos (.inl negative)]
    exact ⟨rfl, reads, pushed, position⟩
  · cases back : r.pushed with
    | some b =>
      have held : c < 0 ∨ (some b).isSome = true := .inr rfl
      rw [if_neg negative, if_pos held]
      exact ⟨rfl, reads, pushed, position⟩
    | none =>
      rw [if_neg negative, if_neg (by simp), if_neg (by simp [negative])]
      exact ⟨rfl, ⟨reads.next, reads.offset⟩, rfl, by simp [position, Ref.position, back]⟩

variable (file) in
/-- Both streams ask the kernel for the same place. -/
theorem seek_target (position : f.position = r.position) (offset : Int) (origin : Whence) :
    sysSeek file f.fd (seekTarget f offset origin).1 (seekTarget f offset origin).2 =
      ((r.target file offset origin).filter file.reaches).map
        fun t => { f.fd with offset := t.toNat } := by
  cases origin with
  | seekSet =>
    simp only [seekTarget, sysSeek, Ref.target, Option.filter, reduceCtorEq, if_false]
    split <;> rfl
  | seekCur =>
    simp only [seekTarget, sysSeek, Ref.target, Option.filter, position, if_true]
    split <;> rfl
  | seekEnd =>
    simp only [seekTarget, sysSeek, Ref.target, Option.filter, reduceCtorEq, if_false]
    split <;> rfl
  | other => rfl

theorem seek_spec (rep : Rep file f r) {offset : Int} {origin : Whence}
    (careful : Refused file f offset origin → f.held = [] ∧ f.pushedBack = none) :
    (fseek file f offset origin).2 = (r.seek file offset origin).2 ∧
    Rep file (fseek file f offset origin).1 (r.seek file offset origin).1 := by
  obtain ⟨reads, pushed, position⟩ := rep
  have same := seek_target file position offset origin
  unfold Refused at careful
  unfold fseek Ref.seek
  dsimp only
  rw [same] at careful ⊢
  cases goes : (r.target file offset origin).filter file.reaches with
  | none =>
    obtain ⟨empty, unpushed⟩ := careful (by rw [goes]; rfl)
    have at_off : f.fd.offset = r.off := by simpa [empty] using reads.offset
    exact ⟨rfl, ⟨List.nil_prefix, at_off⟩, unpushed.symm.trans pushed, position⟩
  | some t =>
    obtain ⟨target, reached⟩ := Option.filter_eq_some_iff.1 goes
    have whole : (t.toNat : Int) = t := Int.toNat_of_nonneg (file.reaches_nonneg t reached)
    simp only [Option.map_some]
    split
    case isTrue set =>
      have to_t : (seekTarget f offset origin).1 = t := by
        cases origin <;> simp_all [seekTarget, Ref.target]
      refine ⟨rfl, ⟨List.nil_prefix, rfl⟩, rfl, ?_⟩
      simp [to_t, Ref.position, whole]
    case isFalse =>
      -- The kernel is asked where it went, and says so.
      have again : sysSeek file { f.fd with offset := t.toNat } 0 .seekCur =
          some { f.fd with offset := t.toNat } := by
        simp [sysSeek, whole, reached]
      rw [again]
      exact ⟨rfl, ⟨List.nil_prefix, rfl⟩, rfl, by simp [Ref.position]⟩

theorem seek_unpushed (f : Stream) (offset : Int) (origin : Whence) :
    (fseek file f offset origin).1.pushedBack = none := by
  unfold fseek
  dsimp only
  split
  · rfl
  · split
    · rfl
    · split <;> rfl

/-! ## Runs -/

theorem buffered_refines (file : File) (short : Nat → Nat) :
    (buffered file short).Refines (unbuffered file) (Careful file) (Rep file) := by
  intro f r call rep careful
  cases call with
  | fgetc =>
    obtain ⟨same, rep'⟩ := fgetc_spec short rep
    exact ⟨congrArg Answer.char same, rep'⟩
  | fread size count fits =>
    dsimp only [buffered, unbuffered]
    split
    case isTrue none =>
      unfold fread
      rw [if_pos none]
      exact ⟨rfl, rep⟩
    case isFalse some =>
      obtain ⟨same, rep'⟩ := fread_spec short rep some
      refine ⟨?_, rep'⟩
      rw [← same]
      unfold fread
      rw [if_neg some]
  | fgets room =>
    obtain ⟨same, rep'⟩ := fgets_spec short rep careful
    exact ⟨congrArg Answer.line same, rep'⟩
  | ungetc c => exact ungetc_spec rep c
  | fseek offset origin =>
    obtain ⟨same, rep'⟩ := seek_spec rep careful
    exact ⟨congrArg Answer.status same, rep'⟩
  | rewind =>
    obtain ⟨-, reads, pushed, position⟩ := seek_spec rep careful
    exact ⟨rfl, ⟨reads.next, reads.offset⟩, (seek_unpushed f 0 .seekSet).symm.trans pushed, position⟩
  | ftell => exact ⟨congrArg Answer.position rep.position, rep⟩

/-- The answers to any calls, in each of which no `fgets` meets a character pushed back and no seek
is refused while something is read ahead or pushed back: they are those of a stream that has no
buffer, whatever short counts the kernel reads. -/
theorem reads_equal (file : File) (short : Nat → Nat) (calls : List ReadCall)
    (careful : (buffered file short).Meets (Careful file) opened calls) :
    (buffered file short).answers opened calls = (unbuffered file).answers ⟨0, none⟩ calls := by
  refine (buffered_refines file short).answers ?_ careful
  exact ⟨⟨List.nil_prefix, rfl⟩, rfl, rfl⟩

/-- A file of two lines, open to a seek anywhere in it. -/
def twoLines : File where
  content := [102, 10, 115, 10]
  reaches t := decide (0 ≤ t ∧ t ≤ 4)
  reaches_nonneg _ h := (of_decide_eq_true h).1

/-- A character read, put back, read again; a line; back to the second line by its offset. -/
def rereading : List ReadCall :=
  [.fgetc, .ungetc 102, .fgetc, .fgets 80, .ftell, .fseek (-2) .seekEnd, .fread 1 2 (by decide)]

theorem rereading_equal : (buffered twoLines fun _ => 0).answers opened rereading =
    (unbuffered twoLines).answers ⟨0, none⟩ rereading :=
  reads_equal _ _ _ (by decide)

/-- A character pushed back is missing from the line read next. -/
theorem line_loses_pushback :
    (buffered twoLines fun _ => 0).answers opened [.ungetc 90, .fgets 80] ≠
      (unbuffered twoLines).answers ⟨0, none⟩ [.ungetc 90, .fgets 80] := by
  decide

end ReconOS.Libc
