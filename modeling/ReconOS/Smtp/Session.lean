import ReconOS.Lib.Text
import ReconOS.Libc.Decimal

/-! One conversation with a server that is asked to take a letter. -/
namespace ReconOS.Smtp
open Libc Lib

def lineMax : Nat := 1024

/-- `STREAM_BUFFER`, what a stream holds before the socket takes it. -/
def streamBuffer : Nat := 8192

inductive Security where
  | tls | starttls
  deriving DecidableEq

structure Account where
  host : Text
  user : Text
  sender : Text
  port : Int
  security : Security

inductive State where
  | greeting | ehlo | starttls | ehloAgain | auth | authUser | authPassword | sender | rcpt | data
  | body | quit | done
  deriving DecidableEq

/-- A call of one of the owner's handlers. -/
inductive Told where
  | progress (what : Text)
  | sent
  | failed (why : Text)
  deriving DecidableEq

inductive Said where
  | line (text : Text)
  | letter
  deriving DecidableEq

/-- What happens, in order: bytes the stream takes and gives, replies that are acted on, handlers
that run, the upgrade, and `recon_smtp_close`. -/
inductive Out where
  | wrote (what : Said)
  | heard (c : Char)
  | acted (state : State) (recipient code : Nat) (last : Bool) (line : Text)
  | told (what : Told)
  | started
  | secured
  | close
  deriving DecidableEq

/-- What one call of `recon_smtp_send` fixes, and what the outside decides after what has happened
so far: whether a handler closes the session, and whether the handshake can begin. -/
structure Sending where
  account : Account
  recipients : List Text
  message : Text
  progress : Bool
  sent : Bool
  failed : Bool
  closes : List Out → Bool
  begins : List Out → Bool
  tlsError : Text
  opens : Text → Int → Bool → Bool

/-- The stream under the session. -/
structure Stream where
  connected : Bool
  tls : Bool
  upgrading : Bool
  outgoingUsed : Nat

structure Session where
  password : Text
  recipientAt : Nat
  stream : Option Stream
  state : State
  offersStarttls : Bool
  line : Text
  lineOverflowed : Bool
  discardRest : Bool
  inHandler : Bool
  closeWanted : Bool
  /-- Its memory is given back. -/
  freed : Bool
  /-- Everything that has happened. -/
  said : List Out

def Session.log (s : Session) (o : Out) : Session := { s with said := s.said ++ [o] }

variable (x : Sending)

/-! ## Handlers -/

def smtpClose (s : Session) : Session :=
  let s := s.log .close
  if s.inHandler then { s with closeWanted := true } else { s with stream := none, freed := true }

/-- A handler runs, and may close the session it is told about. -/
def callHandler (what : Told) (s : Session) : Session :=
  let s := { s with inHandler := true }.log (.told what)
  { (if x.closes s.said then smtpClose s else s) with inHandler := false }

def say (what : Text) (s : Session) : Session :=
  if x.progress then callHandler x (.progress what) s else s

def giveUp (why : Text) (s : Session) : Session :=
  if s.state = .done then s
  else
    let s := { s with state := .done }
    if x.failed then callHandler x (.failed why) s else s

/-! ## Writing -/

def Said.length : Said → Nat
  | .line text => text.length
  | .letter => x.message.length

/-- `recon_net_stream_send`, which refuses what its buffer has no room for. -/
def streamSend (what : Said) (s : Session) : Session :=
  match s.stream with
  | none => s
  | some stream =>
    if stream.outgoingUsed + what.length x ≤ streamBuffer then
      { s with
        stream := some { stream with outgoingUsed := stream.outgoingUsed + what.length x } }.log
          (.wrote what)
    else s

def ended (text : Text) : Text := text ++ ['\r', '\n']

def sendLine (text : Text) (s : Session) : Session :=
  if lineMax - 2 ≤ text.length then
    giveUp x "A line to the server was too long to send.".toList s
  else streamSend x (.line (ended text)) s

def sendBase64 (text : Text) (s : Session) : Session :=
  let encoded := Base64.encode (text.map Char.toNat)
  if encoded = [] ∨ 512 < encoded.length + 1 then
    giveUp x "That username or password is too long to send.".toList s
  else sendLine x encoded s

/-- `recon_net_stream_start_tls`, or why it will not. -/
def startTls (s : Session) : Except Text Session :=
  match s.stream with
  | none => .error "there is no stream to upgrade".toList
  | some stream =>
    if x.account.host = [] then
      .error "an upgrade needs a name to check the certificate against".toList
    else if stream.connected = false then .error "that connection is not up yet".toList
    else if stream.tls then .error "that connection is already encrypted".toList
    else if 0 < stream.outgoingUsed then
      .error "there are bytes still to send in the clear".toList
    else if x.begins s.said = false then .error x.tlsError
    else
      .ok ({ s with stream := some { stream with tls := true, upgrading := true } }.log .started)

/-! ## Replies -/

def isDigit (c : Char) : Bool := '0' ≤ c && c ≤ '9'

/-- Three digits, then a space or a hyphen: the code, and whether it is the last line. -/
def replyCode (line : Text) : Option (Nat × Bool) :=
  match line with
  | a :: b :: c :: mark :: _ =>
    if (isDigit a && isDigit b && isDigit c && (mark = ' ' || mark = '-')) = false then none
    else
      some ((a.toNat - '0'.toNat) * 100 + (b.toNat - '0'.toNat) * 10 + (c.toNat - '0'.toNat),
        mark = ' ')
  | _ => none

def recipient (i : Nat) : Text := x.recipients.getD i []

/-- The last line of a reply. -/
def answer (code : Nat) (s : Session) : Session :=
  match s.state with
  | .greeting =>
    if code ≠ 220 then giveUp x "The server did not greet us.".toList s
    else
      sendLine x "EHLO reconos".toList { say x "Saying hello".toList s with state := .ehlo }
  | .ehlo =>
    if code ≠ 250 then giveUp x "The server would not accept a greeting.".toList s
    else if x.account.security = .starttls then
      if s.offersStarttls = false then
        giveUp x ("That server did not offer to encrypt the connection, so nothing was sent. ".toList
          ++ "Either it cannot, or something between here and it removed the offer.".toList) s
      else
        sendLine x "STARTTLS".toList { say x "Encrypting".toList s with state := .starttls }
    else sendLine x "AUTH LOGIN".toList { say x "Signing in".toList s with state := .auth }
  | .starttls =>
    if code ≠ 220 then
      giveUp x "That server would not start encrypting, so nothing was sent.".toList s
    else
      let s := { s with line := [], lineOverflowed := false, discardRest := true }
      match startTls x s with
      | .error why => giveUp x why s
      | .ok s => s
  | .ehloAgain =>
    if code ≠ 250 then
      giveUp x "The server would not accept a greeting over the encrypted connection.".toList s
    else sendLine x "AUTH LOGIN".toList { say x "Signing in".toList s with state := .auth }
  | .auth =>
    if code ≠ 334 then
      giveUp x "The server would not take a username and password this way.".toList s
    else sendBase64 x x.account.user { s with state := .authUser }
  | .authUser =>
    if code ≠ 334 then giveUp x "The server did not ask for the password.".toList s
    else { sendBase64 x s.password { s with state := .authPassword } with password := [] }
  | .authPassword =>
    if code ≠ 235 then giveUp x "That username and password were not accepted.".toList s
    else
      sendLine x ("MAIL FROM:<".toList ++ x.account.sender ++ ['>'])
        { say x "Sending".toList s with state := .sender }
  | .sender =>
    if code ≠ 250 then giveUp x "The server would not accept the sender's address.".toList s
    else
      sendLine x ("RCPT TO:<".toList ++ recipient x 0 ++ ['>'])
        { s with state := .rcpt, recipientAt := 0 }
  | .rcpt =>
    if code ≠ 250 ∧ code ≠ 251 then
      giveUp x (textCopy 256 ("The server would not accept '".toList ++ recipient x s.recipientAt ++
        "' as a recipient.".toList)) s
    else
      let s := { s with recipientAt := s.recipientAt + 1 }
      if s.recipientAt < x.recipients.length then
        sendLine x ("RCPT TO:<".toList ++ recipient x s.recipientAt ++ ['>']) s
      else sendLine x "DATA".toList { s with state := .data }
  | .data =>
    if code ≠ 354 then giveUp x "The server would not take the message.".toList s
    else sendLine x ['.'] (streamSend x .letter { s with state := .body })
  | .body =>
    if code ≠ 250 then giveUp x "The server did not accept the message.".toList s
    else
      let s := sendLine x "QUIT".toList { s with state := .quit }
      if x.sent then callHandler x .sent s else s
  | .quit => { s with state := .done }
  | .done => s

/-- What the list of what the server can do says of encrypting. -/
def noteOffer (code : Nat) (line : Text) (s : Session) : Session :=
  if (s.state = .ehlo ∨ s.state = .ehloAgain) ∧ code = 250 ∧
      sameText ((line.drop 4).take 8) "STARTTLS".toList = true then
    { s with offersStarttls := true }
  else s

def onLine (line : Text) (s : Session) : Session :=
  match replyCode (cstring line) with
  | none => s
  | some (code, last) =>
    let s := noteOffer code (cstring line)
      (s.log (.acted s.state s.recipientAt code last line))
    if last then answer x code s else s

/-- One byte of a read. -/
def hear (c : Char) (s : Session) : Session :=
  let s := s.log (.heard c)
  if c = '\r' then s
  else if c = '\n' then
    if s.lineOverflowed then { s with lineOverflowed := false, line := [] }
    else onLine x s.line { s with line := [] }
  else if lineMax ≤ s.line.length + 1 then { s with lineOverflowed := true }
  else { s with line := s.line ++ [c] }

def feed (s : Session) : Text → Session
  | [] => s
  | c :: bytes =>
    if s.discardRest then s
    else if c = '\n' ∧ s.lineOverflowed = false ∧ (hear x c s).state = .done then hear x c s
    else feed (hear x c s) bytes

/-! ## Events -/

/-- What the outside does to the session. -/
inductive Event where
  | opened
  /-- The socket takes bytes that were queued. -/
  | drained (count : Nat)
  | received (bytes : Text)
  | secured
  | closed (reason : Text)
  | close

def streamSecured (s : Session) : Session :=
  sendLine x "EHLO reconos".toList (say x "Saying hello again, encrypted".toList
    { s with discardRest := false, offersStarttls := false, state := .ehloAgain })

def streamClosed (reason : Text) (s : Session) : Session :=
  let s := { s with stream := none }
  if s.state = .quit ∨ s.state = .done then { s with state := .done }
  else giveUp x (textCopy 256 (x.account.host ++ ": ".toList ++ reason)) s

/-- An event that the stream, as it is, can have. -/
def streamEvent (stream : Stream) (s : Session) : Event → Session
  | .opened =>
    if stream.connected then s
    else say x "Connected".toList { s with stream := some { stream with connected := true } }
  | .drained count =>
    { s with stream := some { stream with outgoingUsed := stream.outgoingUsed - count } }
  | .received bytes => if stream.connected then feed x s bytes else s
  | .secured =>
    if stream.upgrading then
      streamSecured x ({ s with stream := some { stream with upgrading := false } }.log .secured)
    else s
  | .closed reason => streamClosed x reason s
  | .close => smtpClose s

def step (s : Session) (e : Event) : Session :=
  if s.freed then s
  else
    match s.stream, e with
    | some stream, e => streamEvent x stream s e
    | none, .close => smtpClose s
    | none, _ => s

/-- The port that is asked for, or the usual one. -/
def sendPort : Int :=
  if 0 < x.account.port then x.account.port
  else if x.account.security = .starttls then 587 else 465

/-- A session whose stream is connecting. -/
def begun (password : Text) : Session where
  password := textCopy 256 password
  recipientAt := 0
  stream := some
    { connected := false, tls := x.account.security = .tls, upgrading := false, outgoingUsed := 0 }
  state := .greeting
  offersStarttls := false
  line := []
  lineOverflowed := false
  discardRest := false
  inHandler := false
  closeWanted := false
  freed := false
  said := if x.progress then [.told (.progress "Connecting".toList)] else []

/-- `recon_smtp_send`, for a letter that composes. No handler can close what it has not been given
yet. -/
def smtpSend (password : Text) : Option Session :=
  if x.account.host = [] ∨ x.account.sender = [] ∨ password = [] then none
  else if x.opens x.account.host (sendPort x) (x.account.security = .tls) then
    some (begun x password)
  else none

end ReconOS.Smtp
