import ReconOS.Libc.Buffered

/-! A seek the kernel refuses: what reads and positions after it still are. -/
namespace ReconOS.Libc

/-- A stream is read or written, never both. -/
inductive Mode where
  | reading | writing
  deriving DecidableEq

/-- `struct recon_stream` in either mode. Written, `buffer` holds what the kernel has not taken
yet. -/
structure FileStream where
  mode : Mode
  stream : Stream

/-- What may come after the seek. -/
inductive Look where
  | fgetc
  | fread (size count : Nat) (fits : size * count < 2 ^ 64)
  | fgets (room : Int)
  | ftell

def Look.call : Look → ReadCall
  | .fgetc => .fgetc
  | .fread size count fits => .fread size count fits
  | .fgets room => .fgets room
  | .ftell => .ftell

/-- What a stream that is written answers: nothing is read from it. -/
def unread (f : Stream) : Look → Answer
  | .fgetc => .char none
  | .fread _ _ _ => .items [] 0
  | .fgets _ => .line none
  | .ftell => .position (ftell f)

/-- A stream in either mode, as a machine that answers reads and tells its position. -/
def looked (file : File) (short : Nat → Nat) : Lib.Machine FileStream Look Answer where
  step f c :=
    match f.mode with
    | .reading =>
      let r := (buffered file short).step f.stream c.call
      (⟨.reading, r.1⟩, r.2)
    | .writing => (f, unread f.stream c)

/-- `flush_out`, when the kernel takes `takes` bytes before it takes none. -/
def flushOut (takes : Nat) (f : Stream) : Stream × Bool :=
  ({ f with
      buffer := []
      fd := { f.fd with offset := f.fd.offset + min takes f.buffer.length } },
    decide (f.buffer.length ≤ takes))

/-- `fseek` in either mode. `file` is the file once what was buffered is written. -/
def fseekAny (file : File) (takes : Nat) (f : FileStream) (offset : Int) (origin : Whence) :
    FileStream × Bool :=
  match f.mode with
  | .reading =>
    let r := fseek file f.stream offset origin
    (⟨.reading, r.1⟩, r.2)
  | .writing =>
    let flushed := flushOut takes f.stream
    if flushed.2 then
      let r := fseek file flushed.1 offset origin
      (⟨.writing, r.1⟩, r.2)
    else (⟨.writing, flushed.1⟩, false)

/-- The kernel is asked to seek, and refuses. -/
def SeekRefused (file : File) (takes : Nat) (f : FileStream) (offset : Int) (origin : Whence) :
    Prop :=
  match f.mode with
  | .reading => Refused file f.stream offset origin
  | .writing => (flushOut takes f.stream).2 = true ∧
      Refused file (flushOut takes f.stream).1 offset origin

variable (file : File) (short : Nat → Nat) {f g : Stream}

/-! ## Streams that read the same -/

/-- The two differ in nothing a read or a position can tell. -/
structure Level (f g : Stream) : Prop where
  fd : f.fd = g.fd
  held : f.held = g.held
  position : f.position = g.position
  pushedBack : f.pushedBack = g.pushedBack

theorem held_nil_iff (f : Stream) : f.held = [] ↔ f.buffer.length ≤ f.at' := List.drop_eq_nil_iff

theorem held_take (f : Stream) (n : Nat) (position : Int) :
    ({ f with at' := f.at' + n, position := position } : Stream).held = f.held.drop n := by
  simp [Stream.held, List.drop_drop]

theorem Level.fill (level : Level f g) :
    (Libc.fill file short f).2 = (Libc.fill file short g).2 ∧
      Level (Libc.fill file short f).1 (Libc.fill file short g).1 := by
  obtain ⟨fd, held, position, pushedBack⟩ := level
  by_cases empty : f.held = []
  · have emptyG : g.held = [] := held ▸ empty
    rw [held_nil_iff] at empty emptyG
    unfold Libc.fill
    rw [if_neg (Nat.not_lt.mpr empty), if_neg (Nat.not_lt.mpr emptyG), fd]
    dsimp only
    split
    · exact ⟨rfl, rfl, rfl, position, pushedBack⟩
    · exact ⟨rfl, rfl, rfl, position, pushedBack⟩
  · have more : f.at' < f.buffer.length := by
      rw [held_nil_iff] at empty
      omega
    have moreG : g.at' < g.buffer.length := by
      rw [held, held_nil_iff] at empty
      omega
    unfold Libc.fill
    rw [if_pos more, if_pos moreG]
    have size := congrArg List.length held
    simp only [Stream.held, List.length_drop] at size
    exact ⟨size, fd, held, position, pushedBack⟩

/-- Both take as much out of the buffer. -/
theorem Level.take (level : Level f g) (n : Nat) {p q : Int} (same : p = q) :
    Level { f with at' := f.at' + n, position := p } { g with at' := g.at' + n, position := q } where
  fd := level.fd
  held := by rw [held_take, held_take, level.held]
  position := same
  pushedBack := level.pushedBack

theorem Level.byte (level : Level f g) : f.buffer.getD f.at' 0 = g.buffer.getD g.at' 0 := by
  have head : ∀ h : Stream, h.buffer.getD h.at' 0 = h.held.head?.getD 0 := by
    intro h
    rw [Stream.held, List.head?_drop, List.getD_eq_getElem?_getD]
  rw [head, head, level.held]

theorem Level.fgetc (level : Level f g) :
    (Libc.fgetc file short f).2 = (Libc.fgetc file short g).2 ∧
      Level (Libc.fgetc file short f).1 (Libc.fgetc file short g).1 := by
  unfold Libc.fgetc
  rw [level.pushedBack]
  cases g.pushedBack with
  | some back =>
    exact ⟨rfl, level.fd, level.held, congrArg (· + 1) level.position, rfl⟩
  | none =>
    obtain ⟨count, filled⟩ := level.fill file short
    dsimp only
    rw [count]
    split
    · exact ⟨rfl, filled⟩
    · exact ⟨congrArg some filled.byte, filled.take 1 (congrArg (· + 1) filled.position)⟩

theorem Level.freadLoop (turns : Nat) (level : Level f g) (need : Nat) :
    (Libc.freadLoop file short turns f need).2 = (Libc.freadLoop file short turns g need).2 ∧
      Level (Libc.freadLoop file short turns f need).1
        (Libc.freadLoop file short turns g need).1 := by
  induction turns generalizing f g need with
  | zero => exact ⟨rfl, level⟩
  | succ turns ih =>
    unfold Libc.freadLoop
    split
    · exact ⟨rfl, level⟩
    obtain ⟨count, filled⟩ := level.fill file short
    dsimp only
    rw [count]
    split
    · exact ⟨rfl, filled⟩
    · obtain ⟨rest, after⟩ := ih (filled.take (min need (Libc.fill file short g).2) filled.position)
        (need - min need (Libc.fill file short g).2)
      have bytes := filled.held
      unfold Stream.held at bytes
      exact ⟨by rw [bytes, rest], after⟩

theorem Level.fread (level : Level f g) (size count : Nat) :
    (Libc.fread file short f size count).2 = (Libc.fread file short g size count).2 ∧
      Level (Libc.fread file short f size count).1 (Libc.fread file short g size count).1 := by
  unfold Libc.fread
  split
  · exact ⟨rfl, level⟩
  dsimp only
  rw [level.pushedBack]
  have taken : Level { f with pushedBack := none } { g with pushedBack := none } :=
    ⟨level.fd, level.held, level.position, rfl⟩
  obtain ⟨bytes, after⟩ := taken.freadLoop file short (size * count)
    (size * count - g.pushedBack.toList.length)
  rw [bytes]
  exact ⟨rfl, after.fd, after.held, by rw [after.position], after.pushedBack⟩

theorem Level.fgetsLoop (n : Nat) (level : Level f g) :
    (Libc.fgetsLoop file short n f).2 = (Libc.fgetsLoop file short n g).2 ∧
      Level (Libc.fgetsLoop file short n f).1 (Libc.fgetsLoop file short n g).1 := by
  induction n generalizing f g with
  | zero => exact ⟨rfl, level⟩
  | succ n ih =>
    unfold Libc.fgetsLoop
    obtain ⟨count, filled⟩ := level.fill file short
    dsimp only
    rw [count, filled.byte]
    split
    · exact ⟨rfl, filled⟩
    have moved := filled.take 1 (congrArg (· + 1) filled.position)
    split
    · exact ⟨rfl, moved⟩
    · obtain ⟨rest, after⟩ := ih moved
      exact ⟨by rw [rest], after⟩

theorem Level.fgets (level : Level f g) (room : Int) :
    (Libc.fgets file short f room).2 = (Libc.fgets file short g room).2 ∧
      Level (Libc.fgets file short f room).1 (Libc.fgets file short g room).1 := by
  unfold Libc.fgets
  split
  · exact ⟨rfl, level⟩
  · obtain ⟨line, after⟩ := level.fgetsLoop file short (room - 1).toNat
    dsimp only
    exact ⟨by rw [line], after⟩

/-- Two streams in one mode; what is written only tells its position. -/
structure Alike (f g : FileStream) : Prop where
  mode : f.mode = g.mode
  level : f.mode = .reading → Level f.stream g.stream
  position : f.stream.position = g.stream.position

theorem looked_alike (file : File) (short : Nat → Nat) :
    (looked file short).Refines (looked file short) (fun _ _ => True) Alike := by
  rintro ⟨mode, f⟩ ⟨mode', g⟩ look alike -
  obtain rfl : mode = mode' := alike.mode
  cases mode with
  | writing =>
    refine ⟨?_, alike⟩
    cases look with
    | fgetc | fread | fgets => rfl
    | ftell => exact congrArg Answer.position alike.position
  | reading =>
    have level : Level f g := alike.level rfl
    have step : ∀ {r s : Stream × Answer}, r.2 = s.2 ∧ Level r.1 s.1 →
        r.2 = s.2 ∧ Alike ⟨.reading, r.1⟩ ⟨.reading, s.1⟩ :=
      fun same => ⟨same.1, rfl, fun _ => same.2, same.2.position⟩
    apply step
    cases look with
    | fgetc =>
      obtain ⟨same, after⟩ := level.fgetc file short
      exact ⟨congrArg Answer.char same, after⟩
    | fread size count fits =>
      obtain ⟨same, after⟩ := level.fread file short size count
      exact ⟨congrArg (fun r : List Byte × Nat => Answer.items r.1 r.2) same, after⟩
    | fgets room =>
      obtain ⟨same, after⟩ := level.fgets file short room
      exact ⟨congrArg Answer.line same, after⟩
    | ftell => exact ⟨congrArg Answer.position level.position, level⟩

/-! ## How much there is to read -/

/-- Everything still to be read, the character pushed back first. -/
def Stream.ahead (file : File) (f : Stream) : List Byte :=
  f.pushedBack.toList ++ f.held ++ file.content.drop f.fd.offset

theorem fill_ahead (f : Stream) :
    (Libc.fill file short f).1.pushedBack = f.pushedBack ∧
      (Libc.fill file short f).1.ahead file = f.ahead file ∧
      (Libc.fill file short f).2 = (Libc.fill file short f).1.held.length ∧
      ((Libc.fill file short f).1.held = [] → file.content.drop f.fd.offset = [] ∧ f.held = []) := by
  unfold Libc.fill
  split
  case isTrue more =>
    have some : f.held ≠ [] := by
      rw [ne_eq, held_nil_iff]
      omega
    exact ⟨rfl, rfl, by simp [Stream.held], fun none => absurd none some⟩
  case isFalse used =>
    have none : f.held = [] := (held_nil_iff f).mpr (by omega)
    have got : (sysRead file short f.fd bufferSize).1 =
        (file.content.drop f.fd.offset).take (min bufferSize (short f.fd.reads + 1)) := rfl
    have offset : (sysRead file short f.fd bufferSize).2.offset =
        f.fd.offset + (sysRead file short f.fd bufferSize).1.length := rfl
    have some : 0 < min bufferSize (short f.fd.reads + 1) := by
      simp only [bufferSize]
      omega
    generalize min bufferSize (short f.fd.reads + 1) = n at got some
    dsimp only
    split
    case isTrue zero =>
      rw [zero, Nat.add_zero] at offset
      have ends : file.content.drop f.fd.offset = [] := by
        have := List.eq_nil_of_length_eq_zero zero
        rw [got, List.take_eq_nil_iff] at this
        exact this.resolve_left (by omega)
      refine ⟨rfl, ?_, rfl, fun _ => ⟨ends, none⟩⟩
      simp only [Stream.ahead, offset, none]
      rfl
    case isFalse more =>
      refine ⟨rfl, ?_, rfl, ?_⟩
      · have split : (sysRead file short f.fd bufferSize).1 ++
            (file.content.drop f.fd.offset).drop (sysRead file short f.fd bufferSize).1.length =
            file.content.drop f.fd.offset := by
          rw [got, List.length_take]
          by_cases long : n ≤ (file.content.drop f.fd.offset).length
          · rw [Nat.min_eq_left long, List.take_append_drop]
          · rw [Nat.min_eq_right (by omega), List.drop_length, List.append_nil,
              List.take_of_length_le (by omega)]
        simp only [Stream.ahead, none, offset, List.append_nil, ← List.drop_drop]
        rw [List.append_assoc]
        exact congrArg (f.pushedBack.toList ++ ·) split
      · intro empty
        exact absurd (congrArg List.length empty) more

theorem fgetc_ahead (f : Stream) :
    (Libc.fgetc file short f).2 = (f.ahead file).head? ∧
      (Libc.fgetc file short f).1.ahead file = (f.ahead file).tail := by
  unfold Libc.fgetc
  cases pushed : f.pushedBack with
  | some back => simp [Stream.ahead, Stream.held, pushed]
  | none =>
    obtain ⟨back, ahead, count, ends⟩ := fill_ahead file short f
    dsimp only
    rw [← ahead]
    rw [pushed] at back
    generalize Libc.fill file short f = r at *
    cases held : r.1.held with
    | nil =>
      rw [held] at count
      rw [if_pos (show r.2 = 0 from count)]
      have none : r.1.ahead file = [] := by
        rw [ahead, Stream.ahead, pushed, (ends held).1, (ends held).2]
        rfl
      simp [none]
    | cons c rest =>
      rw [held] at count
      rw [if_neg (by simp [count])]
      have byte : r.1.buffer.getD r.1.at' 0 = c := by
        rw [List.getD_eq_getElem?_getD, ← List.head?_drop]
        change r.1.held.head?.getD 0 = c
        rw [held]
        rfl
      have next := held_take r.1 1 (r.1.position + 1)
      rw [held] at next
      unfold Stream.ahead
      dsimp only
      rw [next, back, held, byte]
      exact ⟨rfl, rfl⟩

/-- So many characters read one after another are so many of what is ahead. -/
theorem fgetc_answers (n : Nat) (f : Stream) :
    (looked file short).answers ⟨.reading, f⟩ (List.replicate n .fgetc) =
      (List.range n).map fun i => .char (f.ahead file)[i]? := by
  induction n generalizing f with
  | zero => rfl
  | succ n ih =>
    obtain ⟨char, rest⟩ := fgetc_ahead file short f
    have step : (looked file short).step ⟨.reading, f⟩ .fgetc =
        (⟨.reading, (Libc.fgetc file short f).1⟩, .char (Libc.fgetc file short f).2) := rfl
    rw [List.replicate_succ, Lib.Machine.answers, step, ih, rest, char, List.range_succ_eq_map,
      List.map_cons, List.map_map, List.head?_eq_getElem?]
    congr 2
    funext i
    simp

/-! ## The seek -/

theorem refused_leaves {offset : Int} {origin : Whence} (refused : Refused file f offset origin) :
    fseek file f offset origin =
      ({ f with at' := 0, buffer := [], eof := false, pushedBack := none }, false) := by
  unfold fseek
  unfold Refused at refused
  dsimp only
  rw [refused]

/-- **A refused seek changes nothing a read or a position can tell exactly when the stream is
written, or nothing is read ahead and nothing is pushed back.** -/
theorem refused_seek_keeps_iff (takes : Nat) (f : FileStream) (offset : Int) (origin : Whence)
    (refused : SeekRefused file takes f offset origin) :
    (fseekAny file takes f offset origin).2 = false ∧
    ((∀ looks, (looked file short).answers (fseekAny file takes f offset origin).1 looks =
        (looked file short).answers f looks) ↔
      f.mode = .writing ∨ f.stream.held = [] ∧ f.stream.pushedBack = none) := by
  obtain ⟨mode, f⟩ := f
  have meets : ∀ (g : FileStream) looks, (looked file short).Meets (fun _ _ => True) g looks := by
    intro g looks
    induction looks generalizing g with
    | nil => trivial
    | cons look rest ih => exact ⟨trivial, ih _⟩
  cases mode with
  | writing =>
    obtain ⟨flushed, refused⟩ := refused
    have left := refused_leaves file refused
    unfold fseekAny
    dsimp only
    rw [if_pos flushed, left]
    refine ⟨rfl, ⟨fun _ => .inl rfl, fun _ looks => ?_⟩⟩
    apply (looked_alike file short).answers _ (meets _ _)
    exact ⟨rfl, fun reads => Mode.noConfusion reads, rfl⟩
  | reading =>
    have left := refused_leaves file refused
    unfold fseekAny
    dsimp only
    rw [left]
    refine ⟨rfl, ?_, ?_⟩
    · intro same
      right
      have count := same (List.replicate ((file.content.drop f.fd.offset).length + 1) .fgetc)
      rw [fgetc_answers, fgetc_answers, List.map_inj_left] at count
      have last := count (file.content.drop f.fd.offset).length (List.mem_range.mpr (by omega))
      have after : Stream.ahead file
          { f with at' := 0, buffer := [], eof := false, pushedBack := none } =
          file.content.drop f.fd.offset := rfl
      rw [after, List.getElem?_eq_none (Nat.le_refl _)] at last
      injection last with last
      have short := List.getElem?_eq_none_iff.mp last.symm
      simp only [Stream.ahead, List.length_append] at short
      constructor
      · exact List.eq_nil_of_length_eq_zero (by omega)
      · cases pushed : f.pushedBack with
        | none => rfl
        | some back =>
          rw [pushed, Option.toList_some, List.length_singleton] at short
          omega
    · rintro (writing | ⟨empty, unpushed⟩)
      · cases writing
      · intro looks
        apply (looked_alike file short).answers _ (meets _ _)
        exact ⟨rfl, fun _ => ⟨rfl, empty.symm, rfl, unpushed.symm⟩, rfl⟩

theorem fresh_seek_keeps :
    (looked twoLines fun _ => 9).answers
        (fseekAny twoLines 0 ⟨.reading, opened⟩ 9 .seekSet).1 [.fgetc, .ftell] =
      (looked twoLines fun _ => 9).answers ⟨.reading, opened⟩ [.fgetc, .ftell] :=
  (refused_seek_keeps_iff twoLines (fun _ => 9) 0 ⟨.reading, opened⟩ 9 .seekSet rfl).2.mpr
    (.inr ⟨rfl, rfl⟩) _

/-- The stream of two lines after its first character was read: the rest is in the buffer. -/
def halfRead : FileStream := ⟨.reading, (fgetc twoLines (fun _ => 9) opened).1⟩

theorem read_seek_loses :
    SeekRefused twoLines 0 halfRead 9 .seekSet ∧
      (fseekAny twoLines 0 halfRead 9 .seekSet).2 = false ∧
      (looked twoLines fun _ => 9).answers halfRead [.fgetc] = [.char (some 10)] ∧
      (looked twoLines fun _ => 9).answers (fseekAny twoLines 0 halfRead 9 .seekSet).1 [.fgetc] =
        [.char none] := by
  refine ⟨rfl, rfl, ?_, ?_⟩ <;> decide

end ReconOS.Libc
