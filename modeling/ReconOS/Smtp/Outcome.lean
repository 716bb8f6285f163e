import ReconOS.Lib.Run
import ReconOS.Smtp.Session

/-! What a conversation may write, act on and report, whatever the server sends and whenever it is
closed. -/
namespace ReconOS.Smtp
open Libc Lib

/-! ## The rules -/

/-- What may be written in the clear. -/
def clearLines : List Said :=
  [.line (ended "EHLO reconos".toList), .line (ended "STARTTLS".toList)]

/-- What has been read since the last upgrade, but for the carriage returns. -/
def heardSince : List Out → Text :=
  List.foldl (fun read o =>
    match o with
    | .heard c => if c = '\r' then read else read ++ [c]
    | .secured => []
    | _ => read) []

/-- The server accepted the recipient with this number. -/
def Accepted (before : List Out) (i : Nat) : Prop :=
  ∃ code line, (code = 250 ∨ code = 251) ∧ .acted .rcpt i code true line ∈ before

/-- The letter was written, and after it the server's 250 was read. -/
def Taken (before : List Out) : Prop :=
  ∃ early i line late, before = early ++ .acted .body i 250 true line :: late ∧
    .wrote .letter ∈ early

variable (x : Sending)

/-- The stream is encrypted: it was opened so, or its upgrade is done. -/
def Hidden (before : List Out) : Prop := x.account.security = .tls ∨ .secured ∈ before

/-- Nothing has been closed and no outcome told. -/
structure Quiet (before : List Out) : Prop where
  close : .close ∉ before
  sent : .told .sent ∉ before
  failed : ∀ why, .told (.failed why) ∉ before

/-- What each thing that happens must have before it. -/
def Rule (before : List Out) : Out → Prop
  | .wrote what =>
    .close ∉ before ∧ (Hidden x before ∨ what ∈ clearLines) ∧
      (what = .letter → ∀ i < x.recipients.length, Accepted before i)
  | .acted _ _ _ _ line =>
    line ++ ['\n'] <:+ heardSince before ∧ (.started ∈ before → .secured ∈ before)
  | .told (.progress _) => .close ∉ before
  | .told .sent => Quiet before ∧ Taken before
  | .told (.failed _) => Quiet before
  | _ => True

/-- One outcome, told of what happened; nothing said in the clear; nothing after a close. -/
def Safe (s : Session) : Prop := Follows (Rule x) s.said

/-! ## The condition -/

/-- The owner's progress handler does not close the session. -/
def Patient : Prop := ∀ before what, x.closes (before ++ [.told (.progress what)]) = false

/-- The byte that ends the line which asks for the letter. -/
def Asked (s : Session) (c : Char) : Prop :=
  s.state = .data ∧ c = '\n' ∧ s.lineOverflowed = false ∧ s.discardRest = false ∧
    replyCode (cstring s.line) = some (354, true)

/-- The stream has room for the letter. -/
def Room (s : Session) : Prop :=
  ∃ stream ∈ s.stream, stream.outgoingUsed + x.message.length ≤ streamBuffer

/-- Where a read asks for the letter, there is room for it. -/
def RoomyRead (s : Session) (bytes : Text) : Prop :=
  ∀ n ∈ List.range bytes.length, ∀ c ∈ bytes[n]?,
    Asked (feed x s (bytes.take n)) c → Room x (feed x s (bytes.take n))

/-- A read that reaches the session has room for what it asks for. -/
def Roomy (s : Session) : Event → Prop
  | .received bytes =>
    s.freed = false → (∃ stream ∈ s.stream, stream.connected = true) → RoomyRead x s bytes
  | _ => True

/-! ## The invariant -/

/-- What a state says of the past. -/
def Stage (before : List Out) (recipientAt : Nat) : State → Prop
  | .greeting | .ehlo | .starttls => Quiet before
  | .ehloAgain | .auth | .authUser | .authPassword | .sender => Quiet before ∧ Hidden x before
  | .rcpt => Quiet before ∧ Hidden x before ∧ ∀ i < recipientAt, Accepted before i
  | .data => Quiet before ∧ Hidden x before ∧ ∀ i < x.recipients.length, Accepted before i
  | .body => Quiet before ∧ Hidden x before ∧ .wrote .letter ∈ before
  | .quit | .done => True

/-- The invariant of a session that is not given back. -/
structure Sound (s : Session) : Prop where
  safe : Safe x s
  stage : Stage x s.said s.recipientAt s.state
  line : s.lineOverflowed = false → s.line <:+ heardSince s.said
  started : .started ∈ s.said → .secured ∉ s.said → s.discardRest = true
  upgrading : ∀ stream, s.stream = some stream → stream.upgrading = true →
    s.discardRest = true ∧ s.state = .starttls ∧ s.line = [] ∧ s.lineOverflowed = false
  connected : ∀ stream, s.stream = some stream → stream.connected = false → s.state = .greeting
  idle : s.inHandler = false

/-- Nothing more happens once a session is given back. -/
def Kept (s : Session) : Prop := Safe x s ∧ (s.freed = false → Sound x s)

variable {x} {s : Session} {before : List Out} {o : Out}

/-! ## Longer pasts -/

theorem heardSince_append (a b : List Out) :
    heardSince (a ++ b) = b.foldl (fun read o =>
      match o with
      | .heard c => if c = '\r' then read else read ++ [c]
      | .secured => []
      | _ => read) (heardSince a) :=
  List.foldl_append

theorem Accepted.more {i : Nat} (is : Accepted before i) : Accepted (before ++ [o]) i := by
  obtain ⟨code, line, good, here⟩ := is
  exact ⟨code, line, good, List.mem_append_left _ here⟩

theorem Hidden.more (is : Hidden x before) : Hidden x (before ++ [o]) := by
  rcases is with opened | upgraded
  · exact .inl opened
  · exact .inr (List.mem_append_left _ upgraded)

/-- What neither closes nor tells an outcome. -/
def Mild : Out → Prop
  | .close | .told .sent | .told (.failed _) => False
  | _ => True

theorem Quiet.more (is : Quiet before) (mild : Mild o) : Quiet (before ++ [o]) := by
  constructor
  · intro here
    rcases List.mem_append.mp here with old | new
    · exact is.close old
    · rw [← List.mem_singleton.mp new] at mild
      exact mild
  · intro here
    rcases List.mem_append.mp here with old | new
    · exact is.sent old
    · rw [← List.mem_singleton.mp new] at mild
      exact mild
  · intro why here
    rcases List.mem_append.mp here with old | new
    · exact is.failed why old
    · rw [← List.mem_singleton.mp new] at mild
      exact mild

theorem Stage.more {recipientAt : Nat} {state : State} (is : Stage x before recipientAt state)
    (mild : Mild o) : Stage x (before ++ [o]) recipientAt state := by
  cases state with
  | greeting | ehlo | starttls => exact Quiet.more is mild
  | ehloAgain | auth | authUser | authPassword | sender => exact ⟨is.1.more mild, is.2.more⟩
  | rcpt | data => exact ⟨is.1.more mild, is.2.1.more, fun i below => (is.2.2 i below).more⟩
  | body => exact ⟨is.1.more mild, is.2.1.more, List.mem_append_left _ is.2.2⟩
  | quit | done => trivial

/-- Every state but the last two is a quiet one. -/
theorem Stage.quiet {recipientAt : Nat} {state : State} (is : Stage x before recipientAt state)
    (open' : state ≠ .quit ∧ state ≠ .done) : Quiet before := by
  cases state with
  | greeting | ehlo | starttls => exact is
  | ehloAgain | auth | authUser | authPassword | sender | rcpt | data | body => exact is.1
  | quit => exact absurd rfl open'.1
  | done => exact absurd rfl open'.2

/-! ## One thing more -/

/-- What is neither a byte read nor part of the upgrade. -/
def Plain : Out → Prop
  | .heard _ | .started | .secured => False
  | _ => True

theorem heardSince_plain (plain : Plain o) : heardSince (before ++ [o]) = heardSince before := by
  rw [heardSince_append]
  cases o with
  | heard | started | secured => exact plain.elim
  | wrote | acted | told | close => rfl

theorem Sound.log (sound : Sound x s) (plain : Plain o) (rule : Rule x s.said o)
    (stage : Stage x (s.said ++ [o]) s.recipientAt s.state) : Sound x (s.log o) where
  safe := follows_concat.mpr ⟨sound.safe, rule⟩
  stage := stage
  line := by
    intro whole
    have same : heardSince (s.log o).said = heardSince s.said := heardSince_plain plain
    rw [same]
    exact sound.line whole
  started := by
    intro begun pending
    have begun : .started ∈ s.said := by
      rcases List.mem_append.mp begun with old | new
      · exact old
      · rw [← List.mem_singleton.mp new] at plain
        exact plain.elim
    exact sound.started begun fun here => pending (List.mem_append_left _ here)
  upgrading := sound.upgrading
  connected := sound.connected
  idle := sound.idle

theorem Sound.mild (sound : Sound x s) (plain : Plain o) (rule : Rule x s.said o) (mild : Mild o) :
    Sound x (s.log o) := sound.log plain rule (sound.stage.more mild)

/-- The stream is up, and no upgrade of it is under way. -/
def Calm (s : Session) : Prop :=
  ∀ stream, s.stream = some stream → stream.connected = true ∧ stream.upgrading = false

theorem Sound.goto (sound : Sound x s) (calm : Calm s) (recipientAt : Nat) (state : State)
    (stage : Stage x s.said recipientAt state) :
    Sound x { s with recipientAt := recipientAt, state := state } where
  safe := sound.safe
  stage := stage
  line := sound.line
  started := sound.started
  upgrading := by
    intro stream here busy
    rw [(calm stream here).2] at busy
    cases busy
  connected := by
    intro stream here off
    rw [(calm stream here).1] at off
    cases off
  idle := sound.idle

/-! ## Handlers -/

theorem callHandler_eq (what : Told) (s : Session) :
    callHandler x what s =
      if x.closes (s.said ++ [.told what]) then
        { (s.log (.told what)).log .close with closeWanted := true, inHandler := false }
      else { s.log (.told what) with inHandler := false } := by
  unfold callHandler
  dsimp only [Session.log]
  split
  case isTrue => rfl
  case isFalse => rfl

theorem Sound.say (sound : Sound x s) (patient : Patient x) (quiet : Quiet s.said) (what : Text) :
    Sound x (say x what s) := by
  unfold Smtp.say
  split
  case isTrue =>
    rw [callHandler_eq, if_neg (by rw [patient]; decide)]
    have told := sound.mild (o := .told (.progress what)) trivial quiet.close trivial
    exact ⟨told.safe, told.stage, told.line, told.started, told.upgrading, told.connected, rfl⟩
  case isFalse => exact sound

@[simp] theorem callHandler_stream (what : Told) : (callHandler x what s).stream = s.stream := by
  rw [callHandler_eq]
  split <;> rfl

@[simp] theorem say_stream (what : Text) : (say x what s).stream = s.stream := by
  unfold say
  split
  · exact callHandler_stream _
  · rfl

/-- A handler that may not close leaves the session quiet. -/
theorem say_said (patient : Patient x) (what : Text) :
    (say x what s).said = s.said ∨ (say x what s).said = s.said ++ [.told (.progress what)] := by
  unfold say
  split
  case isTrue =>
    rw [callHandler_eq, if_neg (by rw [patient]; decide)]
    exact .inr rfl
  case isFalse => exact .inl rfl

/-- An outcome is told in the last state, where it no longer matters what the handler does. -/
theorem Sound.callHandler (sound : Sound x s) {what : Told} (rule : Rule x s.said (.told what))
    (last : s.state = .quit ∨ s.state = .done) : Sound x (callHandler x what s) := by
  have any : ∀ before recipientAt, Stage x before recipientAt s.state := by
    intro before recipientAt
    rcases last with is | is
    · rw [is]
      trivial
    · rw [is]
      trivial
  have told := sound.log (o := .told what) trivial rule (any _ _)
  rw [callHandler_eq]
  split
  case isTrue =>
    have closed := told.log (o := .close) trivial trivial (any _ _)
    exact ⟨closed.safe, closed.stage, closed.line, closed.started, closed.upgrading,
      closed.connected, rfl⟩
  case isFalse =>
    exact ⟨told.safe, told.stage, told.line, told.started, told.upgrading, told.connected, rfl⟩

theorem Sound.giveUp (sound : Sound x s) (calm : Calm s) (quiet : s.state ≠ .done → Quiet s.said)
    (why : Text) : Sound x (giveUp x why s) := by
  unfold Smtp.giveUp
  split
  case isTrue => exact sound
  case isFalse going =>
    have done := sound.goto calm s.recipientAt .done trivial
    dsimp only
    split
    case isTrue => exact done.callHandler (quiet going) (.inr rfl)
    case isFalse => exact done

@[simp] theorem giveUp_stream (why : Text) : (giveUp x why s).stream = s.stream := by
  unfold giveUp
  split
  case isTrue => rfl
  case isFalse =>
    dsimp only
    split
    case isTrue => exact callHandler_stream _
    case isFalse => rfl

/-! ## Writing -/

/-- The stream takes what it is given, or all of it is refused. -/
theorem streamSend_cases (what : Said) (s : Session) :
    streamSend x what s = s ∨ ∃ stream count, s.stream = some stream ∧
      streamSend x what s =
        { s with stream := some { stream with outgoingUsed := count } }.log (.wrote what) := by
  unfold streamSend
  cases up : s.stream with
  | none => exact .inl rfl
  | some stream =>
    dsimp only
    split
    case isTrue => exact .inr ⟨stream, _, rfl, rfl⟩
    case isFalse => exact .inl rfl

theorem Sound.streamSend (sound : Sound x s) {what : Said} (rule : Rule x s.said (.wrote what)) :
    Sound x (streamSend x what s) := by
  rcases streamSend_cases (x := x) what s with same | ⟨stream, count, up, is⟩
  · rw [same]
    exact sound
  · rw [is]
    have wrote := sound.mild (o := .wrote what) trivial rule trivial
    refine ⟨wrote.safe, wrote.stage, wrote.line, wrote.started, ?_, ?_, wrote.idle⟩
    · intro stream' here busy
      cases here
      exact sound.upgrading stream up busy
    · intro stream' here off
      cases here
      exact sound.connected stream up off

theorem Calm.streamSend (calm : Calm s) (what : Said) : Calm (streamSend x what s) := by
  rcases streamSend_cases (x := x) what s with same | ⟨stream, count, up, is⟩
  · rw [same]
    exact calm
  · rw [is]
    intro stream' here
    cases here
    exact calm stream up

theorem Quiet.line (quiet : Quiet before) {text : Text}
    (may : Hidden x before ∨ .line text ∈ clearLines) :
    Rule x before (.wrote (.line text)) := by
  refine ⟨quiet.close, may, ?_⟩
  intro is
  cases is

theorem Sound.sendLine (sound : Sound x s) (calm : Calm s) (quiet : Quiet s.said) {text : Text}
    (may : Hidden x s.said ∨ .line (ended text) ∈ clearLines) : Sound x (sendLine x text s) := by
  unfold Smtp.sendLine
  split
  case isTrue => exact sound.giveUp calm (fun _ => quiet) _
  case isFalse => exact sound.streamSend (quiet.line may)

theorem Sound.sendBase64 (sound : Sound x s) (calm : Calm s) (quiet : Quiet s.said)
    (hidden : Hidden x s.said) (text : Text) : Sound x (sendBase64 x text s) := by
  unfold Smtp.sendBase64
  dsimp only
  split
  case isTrue => exact sound.giveUp calm (fun _ => quiet) _
  case isFalse => exact sound.sendLine calm quiet (.inl hidden)

/-! ## Replies -/

theorem say_goto (what : Text) (state : State) :
    say x what { s with state := state } = { say x what s with state := state } := by
  unfold say
  rw [callHandler_eq, callHandler_eq]
  dsimp only [Session.log]
  split
  case isTrue => split <;> rfl
  case isFalse => rfl

/-- Progress is told and the next line sent. -/
theorem Sound.sayLine (sound : Sound x s) (calm : Calm s) (patient : Patient x) (what : Text)
    (quiet : Quiet s.said) {text : Text}
    (may : Hidden x s.said ∨ .line (ended text) ∈ clearLines) :
    Sound x (Smtp.sendLine x text (Smtp.say x what s)) := by
  have told := sound.say patient quiet what
  have calm' : Calm (Smtp.say x what s) := by
    intro stream here
    rw [say_stream] at here
    exact calm stream here
  rcases say_said (s := s) patient what with same | more
  · refine told.sendLine calm' ?_ ?_
    · rw [same]
      exact quiet
    · rw [same]
      exact may
  · refine told.sendLine calm' ?_ ?_
    · rw [more]
      exact quiet.more trivial
    · rw [more]
      exact may.imp_left Hidden.more

/-- Progress is told, and the next line sent in the next state. -/
theorem Sound.sayThen (sound : Sound x s) (calm : Calm s) (patient : Patient x) (what : Text)
    (state : State) (stage : Stage x s.said s.recipientAt state)
    (going : state ≠ .quit ∧ state ≠ .done) {text : Text}
    (may : Hidden x s.said ∨ .line (ended text) ∈ clearLines) :
    Sound x (Smtp.sendLine x text { Smtp.say x what s with state := state }) := by
  rw [← say_goto]
  exact (sound.goto calm s.recipientAt state stage).sayLine calm patient what (stage.quiet going) may

theorem startTls_ok {t : Session} (is : startTls x s = .ok t) :
    ∃ stream, s.stream = some stream ∧
      t = { s with stream := some { stream with tls := true, upgrading := true } }.log .started := by
  unfold startTls at is
  cases up : s.stream with
  | none =>
    rw [up] at is
    cases is
  | some stream =>
    rw [up] at is
    dsimp only at is
    split at is
    case isTrue => cases is
    split at is
    case isTrue => cases is
    split at is
    case isTrue => cases is
    split at is
    case isTrue => cases is
    split at is
    case isTrue => cases is
    cases is
    exact ⟨stream, rfl, rfl⟩

/-- The upgrade begins with everything read thrown away, or the conversation ends. -/
theorem Sound.upgrade (sound : Sound x s) (calm : Calm s) (is : s.state = .starttls)
    (quiet : Quiet s.said) :
    Sound x (match startTls x { s with line := [], lineOverflowed := false, discardRest := true } with
      | .error why => Smtp.giveUp x why
        { s with line := [], lineOverflowed := false, discardRest := true }
      | .ok t => t) := by
  have dropped : Sound x { s with line := [], lineOverflowed := false, discardRest := true } := by
    refine ⟨sound.safe, sound.stage, ?_, fun _ _ => rfl, ?_, sound.connected, sound.idle⟩
    · exact fun _ => List.nil_suffix
    · intro stream here busy
      rw [(calm stream here).2] at busy
      cases busy
  split
  case h_1 => exact dropped.giveUp calm (fun _ => quiet) _
  case h_2 t begun =>
    obtain ⟨stream, up, rfl⟩ := startTls_ok begun
    refine ⟨follows_concat.mpr ⟨sound.safe, trivial⟩, sound.stage.more trivial, ?_, fun _ _ => rfl,
      ?_, ?_, sound.idle⟩
    · exact fun _ => List.nil_suffix
    · exact fun _ _ _ => ⟨rfl, is, rfl, rfl⟩
    · intro stream' here off
      cases here
      rw [(calm stream up).1] at off
      cases off

/-- A recipient was accepted: the next one is named, or the letter offered. -/
theorem Sound.acceptedOne (sound : Sound x s) (calm : Calm s) (quiet : Quiet s.said)
    (hidden : Hidden x s.said) (all : ∀ i < s.recipientAt + 1, Accepted s.said i)
    (is : s.state = .rcpt) :
    Sound x (if s.recipientAt + 1 < x.recipients.length then
        Smtp.sendLine x ("RCPT TO:<".toList ++ recipient x (s.recipientAt + 1) ++ ['>'])
          { s with recipientAt := s.recipientAt + 1 }
      else Smtp.sendLine x "DATA".toList
        { s with recipientAt := s.recipientAt + 1, state := .data }) := by
  split
  case isTrue =>
    have moved := sound.goto calm (s.recipientAt + 1) .rcpt ⟨quiet, hidden, all⟩
    rw [← is] at moved
    exact moved.sendLine calm quiet (.inl hidden)
  case isFalse last =>
    have moved := sound.goto calm (s.recipientAt + 1) .data
      ⟨quiet, hidden, fun i below => all i (Nat.lt_of_lt_of_le below (Nat.le_of_not_lt last))⟩
    exact moved.sendLine calm quiet (.inl hidden)

/-- The letter is asked for, and there is room for it. -/
theorem Sound.letter (sound : Sound x s) (calm : Calm s) (room : Room x s)
    (quiet : Quiet s.said) (hidden : Hidden x s.said)
    (all : ∀ i < x.recipients.length, Accepted s.said i) :
    Sound x (Smtp.sendLine x ['.'] (Smtp.streamSend x .letter { s with state := .body })) := by
  obtain ⟨stream, up, fits⟩ := room
  have fits : stream.outgoingUsed + Said.letter.length x ≤ streamBuffer := fits
  have rule : Rule x s.said (.wrote .letter) := ⟨quiet.close, .inl hidden, fun _ => all⟩
  have sent : ∀ state, Smtp.streamSend x .letter { s with state := state } =
      { Smtp.streamSend x .letter s with state := state } := by
    intro state
    unfold Smtp.streamSend
    rw [up]
    dsimp only
    rw [if_pos fits, if_pos fits]
    rfl
  have said : (Smtp.streamSend x .letter s).said = s.said ++ [.wrote .letter] := by
    unfold Smtp.streamSend
    rw [up]
    dsimp only
    rw [if_pos fits]
    rfl
  have wrote := sound.streamSend rule
  have calm' := calm.streamSend (x := x) .letter
  have quiet' : Quiet (Smtp.streamSend x .letter s).said := by
    rw [said]
    exact quiet.more trivial
  have hidden' : Hidden x (Smtp.streamSend x .letter s).said := by
    rw [said]
    exact hidden.more
  have there : .wrote .letter ∈ (Smtp.streamSend x .letter s).said := by
    rw [said]
    exact List.mem_append_right _ (List.mem_singleton_self _)
  rw [sent]
  exact (wrote.goto calm' _ .body ⟨quiet', hidden', there⟩).sendLine calm' quiet' (.inl hidden')

/-- The server took the letter, and the owner is told. -/
theorem Sound.letterTaken (sound : Sound x s) (calm : Calm s) (quiet : Quiet s.said)
    (hidden : Hidden x s.said) (taken : Taken s.said) :
    Sound x (let t := Smtp.sendLine x "QUIT".toList { s with state := .quit }
      if x.sent then Smtp.callHandler x .sent t else t) := by
  have moved := sound.goto calm s.recipientAt .quit trivial
  have line : Smtp.sendLine x "QUIT".toList { s with state := .quit } =
      Smtp.streamSend x (.line (ended "QUIT".toList)) { s with state := .quit } := rfl
  have bid : Sound x (Smtp.streamSend x (.line (ended "QUIT".toList)) { s with state := .quit }) :=
    moved.streamSend (quiet.line (.inl hidden))
  dsimp only
  rw [line]
  split
  case isTrue =>
    rcases streamSend_cases (x := x) (.line (ended "QUIT".toList)) { s with state := .quit } with
      same | ⟨stream, count, up, is⟩
    · rw [same] at bid ⊢
      exact bid.callHandler ⟨quiet, taken⟩ (.inl rfl)
    · rw [is] at bid ⊢
      obtain ⟨early, i, heard, late, parts, there⟩ := taken
      refine bid.callHandler ⟨quiet.more trivial, early, i, heard,
        late ++ [.wrote (.line (ended "QUIT".toList))], ?_, there⟩ (.inl rfl)
      change s.said ++ [.wrote (.line (ended "QUIT".toList))] = _
      rw [parts, List.append_assoc, List.cons_append]
  case isFalse => exact bid

/-- The last line of a reply is acted on as the state has it. -/
theorem Sound.answer (sound : Sound x s) (calm : Calm s) (patient : Patient x) {code : Nat}
    {line : Text} {early : List Out} (past : Stage x early s.recipientAt s.state)
    (said : s.said = early ++ [.acted s.state s.recipientAt code true line])
    (room : s.state = .data → code = 354 → Room x s) : Sound x (answer x code s) := by
  have stage := sound.stage
  have acted : .acted s.state s.recipientAt code true line ∈ s.said := by
    rw [said]
    exact List.mem_append_right _ (List.mem_singleton_self _)
  unfold Smtp.answer
  cases is : s.state with
  | greeting =>
    rw [is] at stage
    dsimp only
    split
    case isTrue => exact sound.giveUp calm (fun _ => stage) _
    case isFalse =>
      exact sound.sayThen calm patient _ .ehlo stage (by decide) (.inr (List.mem_cons_self ..))
  | ehlo =>
    rw [is] at stage
    dsimp only
    split
    case isTrue => exact sound.giveUp calm (fun _ => stage) _
    case isFalse =>
      split
      case isTrue =>
        split
        case isTrue => exact sound.giveUp calm (fun _ => stage) _
        case isFalse =>
          exact sound.sayThen calm patient _ .starttls stage (by decide)
            (.inr (List.mem_cons_of_mem _ (List.mem_singleton_self _)))
      case isFalse other =>
        have hidden : Hidden x s.said := by
          left
          cases kind : x.account.security with
          | tls => rfl
          | starttls => exact absurd kind other
        exact sound.sayThen calm patient _ .auth ⟨stage, hidden⟩ (by decide) (.inl hidden)
  | starttls =>
    rw [is] at stage
    dsimp only
    split
    case isTrue => exact sound.giveUp calm (fun _ => stage) _
    case isFalse =>
      rw [← is]
      exact sound.upgrade calm is stage
  | ehloAgain =>
    rw [is] at stage
    dsimp only
    split
    case isTrue => exact sound.giveUp calm (fun _ => stage.1) _
    case isFalse => exact sound.sayThen calm patient _ .auth stage (by decide) (.inl stage.2)
  | auth =>
    rw [is] at stage
    dsimp only
    split
    case isTrue => exact sound.giveUp calm (fun _ => stage.1) _
    case isFalse =>
      exact (sound.goto calm s.recipientAt .authUser stage).sendBase64 calm stage.1 stage.2 _
  | authUser =>
    rw [is] at stage
    dsimp only
    split
    case isTrue => exact sound.giveUp calm (fun _ => stage.1) _
    case isFalse =>
      have sent := (sound.goto calm s.recipientAt .authPassword stage).sendBase64 calm stage.1
        stage.2 s.password
      exact ⟨sent.safe, sent.stage, sent.line, sent.started, sent.upgrading, sent.connected,
        sent.idle⟩
  | authPassword =>
    rw [is] at stage
    dsimp only
    split
    case isTrue => exact sound.giveUp calm (fun _ => stage.1) _
    case isFalse => exact sound.sayThen calm patient _ .sender stage (by decide) (.inl stage.2)
  | sender =>
    rw [is] at stage
    dsimp only
    split
    case isTrue => exact sound.giveUp calm (fun _ => stage.1) _
    case isFalse =>
      have moved := sound.goto calm 0 .rcpt
        ⟨stage.1, stage.2, fun i below => absurd below (Nat.not_lt_zero i)⟩
      exact moved.sendLine calm stage.1 (.inl stage.2)
  | rcpt =>
    rw [is] at stage acted
    dsimp only
    split
    case isTrue => exact sound.giveUp calm (fun _ => stage.1) _
    case isFalse good =>
      obtain ⟨quiet, hidden, all⟩ := stage
      rw [← is]
      refine sound.acceptedOne calm quiet hidden ?_ is
      intro i below
      rcases Nat.lt_succ_iff_lt_or_eq.mp below with earlier | rfl
      · exact all i earlier
      · refine ⟨code, line, ?_, acted⟩
        by_cases first : code = 250
        · exact .inl first
        · exact .inr (by_contra fun second => good ⟨first, second⟩)
  | data =>
    rw [is] at stage
    dsimp only
    split
    case isTrue => exact sound.giveUp calm (fun _ => stage.1) _
    case isFalse asked =>
      exact sound.letter calm (room is (by_contra asked)) stage.1 stage.2.1 stage.2.2
  | body =>
    rw [is] at stage past said
    dsimp only
    split
    case isTrue => exact sound.giveUp calm (fun _ => stage.1) _
    case isFalse good =>
      refine sound.letterTaken calm stage.1 stage.2.1 ?_
      rw [by_contra good] at said
      exact ⟨early, _, line, [], said, past.2.2⟩
  | quit => exact sound.goto calm s.recipientAt .done trivial
  | done => exact sound

@[simp] theorem noteOffer_said (code : Nat) (line : Text) :
    (noteOffer code line s).said = s.said ∧ (noteOffer code line s).state = s.state ∧
      (noteOffer code line s).recipientAt = s.recipientAt ∧
      (noteOffer code line s).stream = s.stream := by
  unfold noteOffer
  split
  case isTrue => exact ⟨rfl, rfl, rfl, rfl⟩
  case isFalse => exact ⟨rfl, rfl, rfl, rfl⟩

theorem Sound.noteOffer (sound : Sound x s) (code : Nat) (line : Text) :
    Sound x (noteOffer code line s) := by
  unfold Smtp.noteOffer
  split
  case isTrue =>
    exact ⟨sound.safe, sound.stage, sound.line, sound.started, sound.upgrading, sound.connected,
      sound.idle⟩
  case isFalse => exact sound

theorem Sound.onLine (sound : Sound x s) (calm : Calm s) (patient : Patient x) {line : Text}
    (heard : line ++ ['\n'] <:+ heardSince s.said) (reads : s.discardRest = false)
    (room : s.state = .data → replyCode (cstring line) = some (354, true) → Room x s) :
    Sound x (onLine x line s) := by
  unfold Smtp.onLine
  split
  case h_1 => exact sound
  case h_2 code last reply =>
    have upgraded : .started ∈ s.said → .secured ∈ s.said := by
      intro begun
      by_contra pending
      rw [sound.started begun pending] at reads
      cases reads
    have acted := sound.mild (o := .acted s.state s.recipientAt code last line) trivial
      ⟨heard, upgraded⟩ trivial
    have noted := acted.noteOffer code (cstring line)
    obtain ⟨said, state, place, stream⟩ := noteOffer_said
      (s := s.log (.acted s.state s.recipientAt code last line)) code (cstring line)
    dsimp only
    split
    case isTrue final =>
      subst final
      generalize Smtp.noteOffer code (cstring line)
        (s.log (.acted s.state s.recipientAt code true line)) = t at noted said state place stream ⊢
      have past : Stage x s.said t.recipientAt t.state := by
        rw [state, place]
        exact sound.stage
      have parts : t.said = s.said ++ [.acted t.state t.recipientAt code true line] := by
        rw [said, state, place]
        rfl
      refine noted.answer ?_ patient past parts ?_
      · intro here up
        rw [stream] at up
        exact calm here up
      · intro asked is
        rw [state] at asked
        obtain ⟨here, up, fits⟩ := room asked (is ▸ reply)
        exact ⟨here, stream.trans up, fits⟩
    case isFalse => exact noted

/-! ## Reads -/

theorem heardSince_heard (before : List Out) (c : Char) :
    heardSince (before ++ [.heard c]) =
      if c = '\r' then heardSince before else heardSince before ++ [c] := by
  rw [heardSince_append]
  rfl

theorem Sound.heard (sound : Sound x s) (calm : Calm s) (c : Char) (line : Text)
    (overflowed : Bool)
    (suffix : overflowed = false → line <:+ heardSince (s.said ++ [.heard c])) :
    Sound x { s.log (.heard c) with line := line, lineOverflowed := overflowed } where
  safe := follows_concat.mpr ⟨sound.safe, trivial⟩
  stage := sound.stage.more trivial
  line := suffix
  started := by
    intro begun pending
    have begun : .started ∈ s.said := by
      rcases List.mem_append.mp begun with old | new
      · exact old
      · cases List.mem_singleton.mp new
    exact sound.started begun fun here => pending (List.mem_append_left _ here)
  upgrading := by
    intro stream here busy
    rw [(calm stream here).2] at busy
    cases busy
  connected := sound.connected
  idle := sound.idle

theorem suffix_concat {a b : Text} (is : a <:+ b) (c : Char) : a ++ [c] <:+ b ++ [c] := by
  obtain ⟨front, rfl⟩ := is
  exact ⟨front, (List.append_assoc ..).symm⟩

theorem Sound.hear (sound : Sound x s) (calm : Calm s) (patient : Patient x)
    (reads : s.discardRest = false) {c : Char} (room : Asked s c → Room x s) :
    Sound x (hear x c s) := by
  have since := heardSince_heard s.said c
  unfold Smtp.hear
  dsimp only
  split
  case isTrue ret =>
    rw [if_pos ret] at since
    refine sound.heard calm c s.line s.lineOverflowed ?_
    rw [since]
    exact sound.line
  case isFalse keep =>
    rw [if_neg keep] at since
    split
    case isTrue newline =>
      split
      case isTrue =>
        exact sound.heard calm c [] false (fun _ => List.nil_suffix)
      case isFalse whole =>
        have whole : s.lineOverflowed = false := Bool.eq_false_iff.mpr whole
        have taken := sound.heard calm c [] s.lineOverflowed (fun _ => List.nil_suffix)
        refine taken.onLine calm patient ?_ reads ?_
        · change s.line ++ ['\n'] <:+ heardSince (s.said ++ [.heard c])
          rw [since, newline]
          exact suffix_concat (sound.line whole) _
        · intro data code
          exact room ⟨data, newline, whole, reads, code⟩
    case isFalse =>
      split
      case isTrue => exact sound.heard calm c s.line true (fun flag => by cases flag)
      case isFalse =>
        refine sound.heard calm c (s.line ++ [c]) s.lineOverflowed ?_
        intro whole
        rw [since]
        exact suffix_concat (sound.line whole) _

/-! ## The stream under a read -/

@[simp] theorem connected_streamSend (what : Said) :
    (streamSend x what s).stream.map Stream.connected = s.stream.map Stream.connected := by
  rcases streamSend_cases (x := x) what s with same | ⟨stream, count, up, is⟩
  · rw [same]
  · rw [is, up]
    rfl

@[simp] theorem connected_sendLine (text : Text) :
    (sendLine x text s).stream.map Stream.connected = s.stream.map Stream.connected := by
  unfold sendLine
  split
  case isTrue => rw [giveUp_stream]
  case isFalse => exact connected_streamSend _

@[simp] theorem connected_sendBase64 (text : Text) :
    (sendBase64 x text s).stream.map Stream.connected = s.stream.map Stream.connected := by
  unfold sendBase64
  dsimp only
  split
  case isTrue => rw [giveUp_stream]
  case isFalse => exact connected_sendLine _

theorem connected_upgrade (s : Session) :
    (match startTls x s with
      | .error why => giveUp x why s
      | .ok t => t).stream.map Stream.connected = s.stream.map Stream.connected := by
  split
  case h_1 => rw [giveUp_stream]
  case h_2 t begun =>
    obtain ⟨stream, up, rfl⟩ := startTls_ok begun
    rw [up]
    rfl

/-- Nothing a reply leads to takes the stream away or puts it back to connecting. -/
theorem connected_answer (code : Nat) :
    (answer x code s).stream.map Stream.connected = s.stream.map Stream.connected := by
  unfold answer
  cases s.state with
  | greeting | ehloAgain | auth | authUser | authPassword | sender =>
    dsimp only
    split <;> simp only [giveUp_stream, connected_sendLine, connected_sendBase64, say_stream]
  | ehlo =>
    dsimp only
    split
    case isTrue => rw [giveUp_stream]
    case isFalse =>
      split
      case isTrue => split <;> simp only [giveUp_stream, connected_sendLine, say_stream]
      case isFalse => simp only [connected_sendLine, say_stream]
  | starttls =>
    dsimp only
    split
    case isTrue => rw [giveUp_stream]
    case isFalse => exact connected_upgrade _
  | rcpt =>
    dsimp only
    split
    case isTrue => rw [giveUp_stream]
    case isFalse => split <;> simp only [connected_sendLine]
  | data =>
    dsimp only
    split <;> simp only [giveUp_stream, connected_sendLine, connected_streamSend]
  | body =>
    dsimp only
    split
    case isTrue => rw [giveUp_stream]
    case isFalse => split <;> simp only [callHandler_stream, connected_sendLine]
  | quit | done => rfl

theorem connected_hear (c : Char) :
    (hear x c s).stream.map Stream.connected = s.stream.map Stream.connected := by
  unfold hear
  dsimp only
  split
  case isTrue => rfl
  case isFalse =>
    split
    case isTrue =>
      split
      case isTrue => rfl
      case isFalse =>
        unfold onLine
        split
        case h_1 => rfl
        case h_2 code last reply =>
          dsimp only
          split
          case isTrue =>
            rw [connected_answer, (noteOffer_said _ _).2.2.2]
            rfl
          case isFalse =>
            rw [(noteOffer_said _ _).2.2.2]
            rfl
    case isFalse =>
      split
      case isTrue => rfl
      case isFalse => rfl

/-- While a read is taken apart the stream is up. -/
def Up (s : Session) : Prop := ∀ stream, s.stream = some stream → stream.connected = true

theorem Up.hear (up : Up s) (c : Char) : Up (hear x c s) := by
  intro stream here
  have same := connected_hear (x := x) (s := s) c
  rw [here, Option.map_some] at same
  obtain ⟨old, was, is⟩ := Option.map_eq_some_iff.mp same.symm
  rw [← is]
  exact up old was

/-- Outside an upgrade the stream is calm. -/
theorem Sound.calm (sound : Sound x s) (up : Up s) (reads : s.discardRest = false) : Calm s := by
  intro stream here
  refine ⟨up stream here, ?_⟩
  by_contra busy
  rw [(sound.upgrading stream here (by simpa using busy)).1] at reads
  cases reads

theorem Sound.feed (sound : Sound x s) (up : Up s) (patient : Patient x) {bytes : Text}
    (room : RoomyRead x s bytes) : Sound x (feed x s bytes) := by
  induction bytes generalizing s with
  | nil => exact sound
  | cons c bytes ih =>
    unfold Smtp.feed
    split
    case isTrue => exact sound
    case isFalse reads =>
      have reads : s.discardRest = false := Bool.eq_false_iff.mpr reads
      have heard := sound.hear (sound.calm up reads) patient reads
        (room 0 (List.mem_range.mpr (Nat.succ_pos _)) c rfl)
      split
      case isTrue => exact heard
      case isFalse more =>
        refine ih heard (up.hear c) ?_
        intro n inside d here
        have longer := room (n + 1) (List.mem_range.mpr (Nat.succ_lt_succ (List.mem_range.mp inside)))
          d here
        have same : Smtp.feed x s ((c :: bytes).take (n + 1)) =
            Smtp.feed x (Smtp.hear x c s) (bytes.take n) := by
          rw [List.take_succ_cons, Smtp.feed, if_neg (by rw [reads]; decide), if_neg more]
        rw [same] at longer
        exact longer

/-! ## Events -/

theorem Sound.secured (sound : Sound x s) (patient : Patient x) {stream : Stream}
    (up : s.stream = some stream) (busy : stream.upgrading = true) :
    Sound x (streamSecured x
      ({ s with stream := some { stream with upgrading := false } }.log .secured)) := by
  obtain ⟨-, is, none, -⟩ := sound.upgrading stream up busy
  have stage := sound.stage
  rw [is] at stage
  have quiet : Quiet (s.said ++ [.secured]) := Quiet.more stage trivial
  have here : .secured ∈ s.said ++ [.secured] :=
    List.mem_append_right _ (List.mem_singleton_self _)
  have on : stream.connected = true := by
    by_contra off
    have first := sound.connected stream up (by simpa using off)
    rw [is] at first
    cases first
  have upgraded : Sound x { s with
      stream := some { stream with upgrading := false }
      discardRest := false, offersStarttls := false, state := .ehloAgain
      said := s.said ++ [.secured] } := by
    refine ⟨follows_concat.mpr ⟨sound.safe, trivial⟩, ⟨quiet, .inr here⟩, ?_, ?_, ?_, ?_,
      sound.idle⟩
    · intro
      rw [none]
      exact List.nil_suffix
    · exact fun _ pending => absurd here pending
    · intro stream' there again
      cases there
      cases again
    · intro stream' there off
      cases there
      rw [on] at off
      cases off
  have calm : Calm { s with
      stream := some { stream with upgrading := false }
      discardRest := false, offersStarttls := false, state := .ehloAgain
      said := s.said ++ [.secured] } := by
    intro stream' there
    cases there
    exact ⟨on, rfl⟩
  exact upgraded.sayLine calm patient "Saying hello again, encrypted".toList quiet
    (.inl (.inr here))

theorem Sound.closed (sound : Sound x s) (reason : Text) : Sound x (streamClosed x reason s) := by
  have off : Sound x { s with stream := none } := by
    refine ⟨sound.safe, sound.stage, sound.line, sound.started, ?_, ?_, sound.idle⟩
    · intro stream here
      cases here
    · intro stream here
      cases here
  have calm : Calm { s with stream := none } := by
    intro stream here
    cases here
  unfold streamClosed
  dsimp only
  split
  case isTrue => exact off.goto calm s.recipientAt .done trivial
  case isFalse going =>
    refine off.giveUp calm (fun _ => sound.stage.quiet ?_) _
    exact ⟨fun quit => going (.inl quit), fun done => going (.inr done)⟩

theorem Sound.opened (sound : Sound x s) (patient : Patient x) {stream : Stream}
    (up : s.stream = some stream) (off : stream.connected = false) :
    Sound x (Smtp.say x "Connected".toList
      { s with stream := some { stream with connected := true } }) := by
  have stage := sound.stage
  rw [sound.connected stream up off] at stage
  have on : Sound x { s with stream := some { stream with connected := true } } := by
    refine ⟨sound.safe, sound.stage, sound.line, sound.started, ?_, ?_, sound.idle⟩
    · intro stream' here busy
      cases here
      exact sound.upgrading stream up busy
    · intro stream' here off
      cases here
      cases off
  exact on.say patient stage _

/-- A close outside the handlers gives the session back. -/
theorem Sound.given (sound : Sound x s) : Kept x (smtpClose s) := by
  unfold smtpClose
  dsimp only [Session.log]
  rw [sound.idle]
  refine ⟨follows_concat.mpr ⟨sound.safe, trivial⟩, ?_⟩
  intro used
  cases used

/-- What an event does keeps the invariant, or gives the session back. -/
theorem Sound.event (sound : Sound x s) (patient : Patient x) {stream : Stream}
    (up : s.stream = some stream) {e : Event}
    (room : ∀ bytes, e = .received bytes → stream.connected = true → RoomyRead x s bytes) :
    Kept x (streamEvent x stream s e) := by
  have keep : ∀ {t}, Sound x t → Kept x t := fun sound => ⟨sound.safe, fun _ => sound⟩
  cases e with
  | opened =>
    dsimp only [streamEvent]
    split
    case isTrue => exact keep sound
    case isFalse off => exact keep (sound.opened patient up (Bool.eq_false_iff.mpr off))
  | drained count =>
    refine keep ⟨sound.safe, sound.stage, sound.line, sound.started, ?_, ?_, sound.idle⟩
    · intro stream' here busy
      cases here
      exact sound.upgrading stream up busy
    · intro stream' here off
      cases here
      exact sound.connected stream up off
  | received bytes =>
    dsimp only [streamEvent]
    split
    case isTrue on =>
      refine keep (sound.feed ?_ patient (room bytes rfl on))
      intro stream' here
      rw [up] at here
      cases here
      exact on
    case isFalse => exact keep sound
  | secured =>
    dsimp only [streamEvent]
    split
    case isTrue busy => exact keep (sound.secured patient up busy)
    case isFalse => exact keep sound
  | closed reason => exact keep (sound.closed reason)
  | close => exact sound.given

theorem Kept.step (kept : Kept x s) (patient : Patient x) {e : Event} (room : Roomy x s e) :
    Kept x (step x s e) := by
  unfold Smtp.step
  split
  case isTrue => exact kept
  case isFalse used =>
    have used : s.freed = false := Bool.eq_false_iff.mpr used
    have sound := kept.2 used
    split
    case h_1 stream up =>
      refine sound.event patient up ?_
      rintro bytes rfl on
      exact room used ⟨stream, up, on⟩
    case h_2 => exact sound.given
    case h_3 => exact kept

/-! ## Runs -/

theorem begun_kept (password : Text) : Kept x (begun x password) := by
  have said : ∀ o ∈ (begun x password).said, o = .told (.progress "Connecting".toList) := by
    intro o here
    dsimp only [begun] at here
    split at here
    case isTrue => exact List.mem_singleton.mp here
    case isFalse => cases here
  have safe : Safe x (begun x password) := by
    unfold Safe begun
    dsimp only
    split
    case isTrue =>
      have first : Rule x [] (.told (.progress "Connecting".toList)) := List.not_mem_nil
      exact follows_concat.mpr ⟨follows_nil, first⟩
    case isFalse => exact follows_nil
  have quiet : Quiet (begun x password).said := by
    constructor
    · intro here
      cases said _ here
    · intro here
      cases said _ here
    · intro why here
      cases said _ here
  refine ⟨safe, fun _ => ⟨safe, quiet, fun _ => List.nil_suffix, ?_, ?_, fun _ _ _ => rfl, rfl⟩⟩
  · intro begun
    cases said _ begun
  · intro stream here busy
    cases here
    cases busy

theorem smtpSend_kept {password : Text} (is : smtpSend x password = some s) : Kept x s := by
  unfold smtpSend at is
  split at is
  case isTrue => cases is
  case isFalse =>
    split at is
    case isTrue =>
      cases is
      exact begun_kept password
    case isFalse => cases is

/-- Whatever the server sends, in whatever reads, and whenever the session is closed outside a
progress handler: as long as there is room for the letter where it is asked for, the conversation
writes, acts and reports by the rules. -/
theorem conversation_safe {password : Text} {start : Session} (patient : Patient x)
    (begins : smtpSend x password = some start) {events : List Event}
    (roomy : Allows (step x) (Roomy x) start events) : Safe x (run (step x) start events) :=
  (run_keeps (I := Kept x) (fun _ _ room kept => kept.step patient room) roomy
    (smtpSend_kept begins)).1

/-! ## Three conversations -/

instance (s : Session) (c : Char) : Decidable (Asked s c) :=
  inferInstanceAs (Decidable (_ ∧ _))

instance (x : Sending) (s : Session) : Decidable (Room x s) :=
  inferInstanceAs (Decidable (∃ stream, stream ∈ s.stream ∧ _))

instance (x : Sending) (s : Session) (bytes : Text) : Decidable (RoomyRead x s bytes) :=
  @List.decidableBAll _ _ (fun _ => @Option.decidableForallMem _ _
    (fun _ => inferInstanceAs (Decidable (_ → _))) _) _

instance decidableRoomy (x : Sending) (s : Session) : (e : Event) → Decidable (Roomy x s e)
  | .received _ => inferInstanceAs (Decidable (_ → (∃ stream, stream ∈ s.stream ∧ _) → _))
  | .opened | .drained _ | .secured | .closed _ | .close => inferInstanceAs (Decidable True)

/-- A letter to one, through a server that was opened encrypted. -/
def brief : Sending where
  account := ⟨['m'], ['u'], ['a', '@', 'b'], 0, .tls⟩
  recipients := [['c', '@', 'd']]
  message := ['h', 'i', '\r', '\n']
  progress := true
  sent := true
  failed := true
  closes := fun _ => false
  begins := fun _ => true
  tlsError := []
  opens := fun _ _ _ => true

/-- The server agrees to everything, the last of it in one read. -/
def agreeing : List Event :=
  [.opened, .received "220 a\n".toList, .received "250 b\n".toList, .received "334 c\n".toList,
    .received "334 d\n".toList, .received "235 e\n".toList, .received "250 f\n".toList,
    .received "250 g\n".toList, .received "354 h\n250 i\n".toList]

/-- A letter to two, through a server that encrypts when it is asked to. -/
def upgraded : Sending :=
  { brief with
    account := ⟨['m'], ['u'], ['a', '@', 'b'], 0, .starttls⟩
    recipients := [['c', '@', 'd'], ['e', '@', 'f']] }

/-- It offers to, and somebody between puts a line after its word to begin. -/
def encrypting : List Event :=
  [.opened, .received "220 a\n".toList, .received "250-b\n250 STARTTLS\n".toList,
    .drained 100, .received "220 c\n250 forged\n".toList, .secured, .received "250 d\n".toList,
    .received "334 e\n".toList, .received "334 f\n".toList, .received "235 g\n".toList,
    .received "250 h\n".toList, .received "250 i\n".toList, .received "251 j\n".toList,
    .received "354 k\n250 l\n".toList]

theorem upgraded_sent :
    Safe upgraded (run (step upgraded) (begun upgraded ['p']) encrypting) ∧
      .told .sent ∈ (run (step upgraded) (begun upgraded ['p']) encrypting).said ∧
      .secured ∈ (run (step upgraded) (begun upgraded ['p']) encrypting).said := by
  have roomy : Allows (step upgraded) (Roomy upgraded) (begun upgraded ['p']) encrypting := by
    decide +kernel
  have begins : smtpSend upgraded ['p'] = some (begun upgraded ['p']) := rfl
  exact ⟨conversation_safe (fun _ _ => rfl) begins roomy, by decide +kernel, by decide +kernel⟩

/-- Its owner closes the session in every handler. -/
def hasty : Sending := { brief with closes := fun _ => true }

/-- Its letter is as long as all that a stream holds. -/
def bulky : Sending := { brief with message := List.replicate streamBuffer 'a' }

/-- What the owner of `hasty` sees of a server that says hello. -/
def hastyRun : List Out :=
  (run (step hasty) (begun hasty ['p']) [.opened, .received "220 a\n".toList]).said

theorem hasty_writes :
    hastyRun = hastyRun.dropLast ++ [.wrote (.line (ended "EHLO reconos".toList))] ∧
      .close ∈ hastyRun.dropLast := by
  decide +kernel

theorem bulky_untaken :
    .told .sent ∈ (run (step bulky) (begun bulky ['p']) agreeing).said ∧
      .wrote .letter ∉ (run (step bulky) (begun bulky ['p']) agreeing).said := by
  decide +kernel

/-- A close in a progress handler is followed by a line written, and a letter that the stream has no
room for by the report that it was sent. -/
theorem rules_broken :
    ¬Safe hasty (run (step hasty) (begun hasty ['p']) [.opened, .received "220 a\n".toList]) ∧
      ¬Safe bulky (run (step bulky) (begun bulky ['p']) agreeing) := by
  constructor
  · intro safe
    obtain ⟨parts, closed⟩ := hasty_writes
    exact (safe _ _ _ parts).1 closed
  · intro safe
    obtain ⟨told, unwritten⟩ := bulky_untaken
    obtain ⟨before, after, parts⟩ := List.append_of_mem told
    obtain ⟨-, early, i, line, late, past, there⟩ := safe before _ after parts
    refine unwritten ?_
    rw [parts, past]
    exact List.mem_append_left _ (List.mem_append_left _ there)

end ReconOS.Smtp
