import ReconOS.Http.Reply
import ReconOS.Lib.Feed

/-! The chunks of a body: what the framing says they are, and that the decoder reads the same out of
them wherever the network cuts. -/
namespace ReconOS.Http
open Libc Lib

/-! ## Cutting a body anywhere -/

/-- As much of a body as is kept. -/
def clip (bytes : Text) : Text := bytes.take (bodyMax - 1)

theorem append_eq (body bytes : Text) :
    append body bytes = body ++ bytes.take (bodyMax - 1 - body.length) := by
  unfold append
  split
  case isTrue => rw [Nat.sub_right_comm]
  case isFalse fits => rw [List.take_of_length_le (by omega)]

theorem append_nil (body : Text) : append body [] = body := by simp [append_eq]

theorem append_append (body x y : Text) : append (append body x) y = append body (x ++ y) := by
  simp only [append_eq, List.append_assoc, List.take_append, List.length_append, List.length_take]
  congr 3
  omega

theorem append_start (bytes : Text) : append [] bytes = clip bytes := by simp [append_eq, clip]

theorem clip_length (bytes : Text) : (clip bytes).length = min bytes.length (bodyMax - 1) := by
  rw [clip, List.length_take, Nat.min_comm]

theorem Body.take_take (b : Body) (x y : Text) : (b.take x).take y = b.take (x ++ y) := by
  simp only [Body.take, append_append, List.length_append, Nat.sub_sub]

theorem feedChunked_done {b : Body} (finished : b.done = true) (bytes : Text) :
    feedChunked b bytes = b := by
  cases bytes <;> simp [feedChunked, finished]

/-- Everything there is belongs to the chunk. -/
theorem feedChunked_within {b : Body} {bytes : Text} (going : b.done = false)
    (data : b.inSize = false) (within : bytes.length ≤ b.left) :
    feedChunked b bytes = b.take bytes := by
  cases bytes with
  | nil => simp [feedChunked, Body.take, append_nil]
  | cons c rest =>
    have room : rest.length + 1 ≤ b.left := within
    have some : 0 < b.left := by omega
    rw [feedChunked, if_neg (by simp [going]), if_neg (by simp [data]), if_pos some]
    dsimp only
    rw [Nat.min_eq_left room, List.take_of_length_le (by simp), List.drop_eq_nil_of_le (by simp),
      feedChunked]

/-- The chunk takes its own, and the rest is read after it. -/
theorem feedChunked_past {b : Body} {bytes : Text} (going : b.done = false)
    (data : b.inSize = false) (some : 0 < b.left) (past : b.left ≤ bytes.length) :
    feedChunked b bytes = feedChunked (b.take (bytes.take b.left)) (bytes.drop b.left) := by
  cases bytes with
  | nil => simp at past; omega
  | cons c rest =>
    rw [List.length_cons] at past
    rw [feedChunked, if_neg (by simp [going]), if_neg (by simp [data]), if_pos some]
    dsimp only
    rw [Nat.min_eq_right past]

theorem feedChunked_append (b : Body) (x y : Text) :
    feedChunked b (x ++ y) = feedChunked (feedChunked b x) y := by
  fun_induction feedChunked b x with
  | case1 b => rfl
  | case2 b c rest finished => rw [feedChunked_done finished, feedChunked_done finished]
  | case3 b rest going size ih => rw [← ih, List.cons_append, feedChunked]; simp [going, size]
  | case4 b c rest going size other ih =>
    rw [← ih, List.cons_append, feedChunked]
    simp [going, size, other]
  | case5 b c rest going size some take ih =>
    rw [← ih]
    replace going : b.done = false := by simpa using going
    replace size : b.inSize = false := by simpa using size
    by_cases past : b.left ≤ rest.length + 1
    · have all : take = b.left := Nat.min_eq_right past
      rw [all, feedChunked_past going size some (by simp; omega),
        List.take_append_of_le_length (by simpa using past),
        List.drop_append_of_le_length (by simpa using past)]
    · have all : take = rest.length + 1 := Nat.min_eq_left (by omega)
      rw [all, List.take_of_length_le (by simp), List.drop_eq_nil_of_le (by simp), List.nil_append]
      have left : (b.take (c :: rest)).left = b.left - (rest.length + 1) := rfl
      by_cases within : (c :: rest ++ y).length ≤ b.left
      · have room : y.length ≤ (b.take (c :: rest)).left := by
          rw [left]
          simp at within
          omega
        rw [feedChunked_within going size within,
          feedChunked_within (b := b.take (c :: rest)) going size room, Body.take_take]
      · have past : (b.take (c :: rest)).left ≤ y.length := by
          rw [left]
          simp at within
          omega
        have front : (c :: rest ++ y).take b.left =
            c :: rest ++ y.take (b.left - (rest.length + 1)) := by
          rw [List.take_append, List.take_of_length_le (by simp; omega)]
          rfl
        have back : (c :: rest ++ y).drop b.left = y.drop (b.left - (rest.length + 1)) := by
          rw [List.drop_append, List.drop_eq_nil_of_le (by simp; omega)]
          rfl
        rw [feedChunked_past going size some (by omega),
          feedChunked_past (b := b.take (c :: rest)) going size (by rw [left]; omega) past,
          Body.take_take, left, front, back]
  | case6 b rest going size none ih =>
    rw [← ih, List.cons_append, feedChunked]
    simp [going, size, none]
  | case7 b c rest going size none other ih =>
    rw [← ih, List.cons_append, feedChunked]
    simp [going, size, none, other]

theorem feedChunked_seamless : Seamless feedChunked :=
  ⟨fun _ => by rw [feedChunked], feedChunked_append⟩

/-! ## What the framing says -/

/-- A chunk's size is the number its line begins with, in hexadecimal. -/
def chunkSize (line : Text) : Nat := (strtoull line 16).1

structure Chunk where
  line : Text
  data : Text

/-- The chunks from a size line on, and whether the last one is among them. -/
def chunks (text : Text) : List Chunk × Bool :=
  match _first : Text.cut '\n' text with
  | none => ([], false)
  | some (line, after) =>
    let size := chunkSize line
    if size = 0 then ([⟨line, []⟩], true)
    else if after.length < size then ([⟨line, after⟩], false)
    else match _second : Text.cut '\n' (after.drop size) with
      | none => ([⟨line, after.take size⟩], false)
      | some (_, next) => (⟨line, after.take size⟩ :: (chunks next).1, (chunks next).2)
termination_by text.length
decreasing_by
  all_goals
    have one := congrArg List.length (Text.eq_of_cut _first).1
    have two := congrArg List.length (Text.eq_of_cut _second).1
    simp only [List.length_append, List.length_cons, List.length_drop] at one two
    omega

/-- What the array keeps of a size line reads as the line does. -/
def Chunk.legible (c : Chunk) : Bool :=
  chunkSize (textCopy chunkSizeMax (c.line.filter (· ≠ '\r'))) = chunkSize c.line

def legible (text : Text) : Bool := (chunks text).1.all Chunk.legible

def chunkData (text : Text) : Text := (chunks text).1.flatMap Chunk.data

theorem legible_line {line after : Text} (whole : '\n' ∉ line) (data : Text)
    (clear : legible (line ++ '\n' :: after) = true) : Chunk.legible ⟨line, data⟩ = true := by
  unfold legible at clear
  rw [chunks] at clear
  split at clear
  case h_1 none => simp [Text.cut_append whole] at none
  case h_2 line' after' is =>
    rw [Text.cut_append whole] at is
    cases is
    dsimp only at clear
    split at clear
    case isTrue => simpa [Chunk.legible] using clear
    case isFalse =>
      split at clear
      case isTrue => simpa [Chunk.legible] using clear
      case isFalse => split at clear <;> simp_all [Chunk.legible]

/-- Past a chunk, the lines are those of what comes next. -/
theorem legible_next {line after next : Text} (skipped : Text) (whole : '\n' ∉ line)
    (some : chunkSize line ≠ 0) (long : ¬after.length < chunkSize line)
    (is : after.drop (chunkSize line) = skipped ++ '\n' :: next) (whole' : '\n' ∉ skipped)
    (clear : legible (line ++ '\n' :: after) = true) : legible next = true := by
  unfold legible at *
  rw [chunks] at clear
  split at clear
  case h_1 none => simp [Text.cut_append whole] at none
  case h_2 line' after' here =>
    rw [Text.cut_append whole] at here
    cases here
    dsimp only at clear
    rw [if_neg some, if_neg long] at clear
    split at clear
    case h_1 none => rw [is, Text.cut_append whole'] at none; cases none
    case h_2 skipped' next' there =>
      rw [is, Text.cut_append whole'] at there
      cases there
      rw [List.all_cons, Bool.and_eq_true] at clear
      exact clear.2

theorem legible_front {a : Text} (b : Text) (clear : legible (a ++ b) = true) :
    legible a = true := by
  unfold legible
  fun_induction chunks a with
  | case1 => rfl
  | case2 text line after is =>
    obtain ⟨rfl, whole⟩ := Text.eq_of_cut is
    rw [List.append_assoc, List.cons_append] at clear
    simpa using legible_line whole [] clear
  | case3 text line after is size some short =>
    obtain ⟨rfl, whole⟩ := Text.eq_of_cut is
    rw [List.append_assoc, List.cons_append] at clear
    simpa using legible_line whole after clear
  | case4 text line after is size some long none =>
    obtain ⟨rfl, whole⟩ := Text.eq_of_cut is
    rw [List.append_assoc, List.cons_append] at clear
    simpa using legible_line whole (after.take size) clear
  | case5 text line after is size some long skipped next is' ih =>
    obtain ⟨rfl, whole⟩ := Text.eq_of_cut is
    obtain ⟨rest, whole'⟩ := Text.eq_of_cut is'
    rw [List.append_assoc, List.cons_append] at clear
    rw [List.all_cons, Bool.and_eq_true]
    constructor
    · exact legible_line whole (after.take size) clear
    · apply ih
      have far : ¬(after ++ b).length < chunkSize line := by
        rw [List.length_append]
        omega
      apply legible_next skipped whole some far _ whole' clear
      rw [List.drop_append_of_le_length (Nat.le_of_not_lt long), rest, List.append_assoc]
      rfl

/-! ## What the decoder reads -/

/-- At the start of a size line, with so much of the body read. -/
def Body.atSize (bytes : Text) : Body := ⟨bytes, 0, true, [], false⟩

theorem feedChunked_line (bytes size line : Text) (short : size.length < chunkSizeMax)
    (whole : '\n' ∉ line) :
    feedChunked ⟨bytes, 0, true, size, false⟩ line =
      ⟨bytes, 0, true, textCopy chunkSizeMax (size ++ line.filter (· ≠ '\r')), false⟩ := by
  induction line generalizing size with
  | nil =>
    rw [feedChunked, List.filter_nil, List.append_nil, textCopy_fits short]
  | cons c line ih =>
    rw [List.mem_cons, not_or] at whole
    rw [feedChunked, if_neg (by simp), if_pos rfl, if_neg (Ne.symm whole.1)]
    unfold Body.gather
    dsimp only
    split
    case isTrue room =>
      rw [ih _ (by simp; omega) whole.2, List.filter_cons_of_pos (by simpa using room.1)]
      simp
    case isFalse full =>
      rw [ih _ short whole.2]
      by_cases cr : c = '\r'
      · rw [List.filter_cons_of_neg (by simp [cr])]
      · have all : size.length = chunkSizeMax - 1 := by
          have := not_and.mp full cr
          omega
        rw [List.filter_cons_of_pos (by simpa using cr), textCopy, textCopy, ← all,
          List.take_left, List.take_left]

theorem feedChunked_skip (bytes line : Text) (whole : '\n' ∉ line) :
    feedChunked ⟨bytes, 0, false, [], false⟩ line = ⟨bytes, 0, false, [], false⟩ := by
  induction line with
  | nil => rw [feedChunked]
  | cons c line ih =>
    rw [List.mem_cons, not_or] at whole
    rw [feedChunked, if_neg (by simp), if_neg (by simp), if_neg (by simp),
      if_neg (Ne.symm whole.1), ih whole.2]

/-- A size line read whole: the chunk's data comes next, or nothing does. -/
theorem feedChunked_sized (bytes : Text) {line data : Text} (after : Text) (whole : '\n' ∉ line)
    (clear : Chunk.legible ⟨line, data⟩ = true) :
    feedChunked (.atSize bytes) (line ++ '\n' :: after) =
      feedChunked ⟨bytes, chunkSize line, false, [], decide (chunkSize line = 0)⟩ after := by
  unfold Chunk.legible at clear
  have same := of_decide_eq_true clear
  dsimp only at same
  rw [feedChunked_append, Body.atSize, feedChunked_line bytes [] line (by decide) whole,
    List.nil_append, feedChunked, if_neg (by simp), if_pos rfl, if_pos rfl]
  unfold Body.sized
  dsimp only
  rw [← chunkSize, same]

/-- A chunk's data read whole, and the line end after it. -/
theorem feedChunked_data (bytes data : Text) {line : Text} (next : Text)
    (whole : '\n' ∉ line) :
    feedChunked ⟨bytes, data.length, false, [], false⟩ (data ++ (line ++ '\n' :: next)) =
      feedChunked (.atSize (append bytes data)) next := by
  have here : feedChunked ⟨bytes, data.length, false, [], false⟩ data = _ :=
    feedChunked_within rfl rfl (Nat.le_refl _)
  rw [feedChunked_append, here, Body.take]
  dsimp only
  rw [Nat.sub_self, feedChunked_append, feedChunked_skip _ _ whole, feedChunked, if_neg (by simp),
    if_neg (by simp), if_neg (by simp), if_pos rfl]
  rfl

/-- **The decoder reads the chunks that are there**, where their size lines fit its array. -/
theorem feedChunked_chunks (bytes text : Text) (clear : legible text = true) :
    (feedChunked (.atSize bytes) text).done = (chunks text).2 ∧
      ((chunks text).2 = true →
        (feedChunked (.atSize bytes) text).bytes = append bytes (chunkData text)) := by
  unfold legible chunkData at *
  fun_induction chunks text generalizing bytes with
  | case1 text none =>
    have whole : '\n' ∉ text := fun inside => by simp [Text.cut, inside] at none
    rw [Body.atSize, feedChunked_line bytes [] text (by decide) whole]
    exact ⟨rfl, fun not => by cases not⟩
  | case2 text line after is size empty =>
    obtain ⟨rfl, whole⟩ := Text.eq_of_cut is
    have zero : chunkSize line = 0 := empty
    rw [feedChunked_sized bytes after whole (by simpa using clear), zero,
      feedChunked_done (by simp)]
    exact ⟨rfl, fun _ => by simp [append_nil]⟩
  | case3 text line after is size some short =>
    obtain ⟨rfl, whole⟩ := Text.eq_of_cut is
    have positive : ¬chunkSize line = 0 := some
    rw [feedChunked_sized bytes after whole (by simpa using clear), decide_eq_false positive,
      feedChunked_within rfl rfl (Nat.le_of_lt short)]
    exact ⟨rfl, fun not => by cases not⟩
  | case4 text line after is size some long none =>
    obtain ⟨rfl, whole⟩ := Text.eq_of_cut is
    have positive : ¬chunkSize line = 0 := some
    have rest : '\n' ∉ after.drop (chunkSize line) := fun inside => by
      simp [Text.cut, size, inside] at none
    have length : (after.take (chunkSize line)).length = chunkSize line := by
      rw [List.length_take]
      exact Nat.min_eq_left (Nat.le_of_not_lt long)
    have parts := List.take_append_drop (chunkSize line) after
    have data := feedChunked_within (b := ⟨bytes, chunkSize line, false, [], false⟩) rfl rfl
      (Nat.le_of_eq length)
    rw [feedChunked_sized bytes after whole (by simpa using clear), decide_eq_false positive,
      ← parts, feedChunked_append, parts, data, Body.take]
    dsimp only
    rw [length, Nat.sub_self, feedChunked_skip _ _ rest]
    exact ⟨rfl, fun not => by cases not⟩
  | case5 text line after is size some long skipped next is' ih =>
    obtain ⟨rfl, whole⟩ := Text.eq_of_cut is
    obtain ⟨rest, whole'⟩ := Text.eq_of_cut is'
    have positive : ¬chunkSize line = 0 := some
    have length : (after.take (chunkSize line)).length = chunkSize line := by
      rw [List.length_take]
      exact Nat.min_eq_left (Nat.le_of_not_lt long)
    have parts : after = after.take (chunkSize line) ++ (skipped ++ '\n' :: next) := by
      rw [← rest]
      exact (List.take_append_drop _ _).symm
    rw [List.all_cons, Bool.and_eq_true] at clear
    have step : feedChunked (.atSize bytes) (line ++ '\n' :: after) =
        feedChunked (.atSize (append bytes (after.take (chunkSize line)))) next := by
      rw [feedChunked_sized bytes after whole clear.1, decide_eq_false positive]
      conv => lhs; rw [parts]
      have here := feedChunked_data bytes (after.take (chunkSize line)) next whole'
      rw [length] at here
      exact here
    obtain ⟨ended, reads⟩ := ih (append bytes (after.take (chunkSize line))) clear.2
    rw [step]
    refine ⟨ended, fun all => ?_⟩
    rw [reads all, append_append, List.flatMap_cons]

end ReconOS.Http
