import ReconOS.Cookies.Jar
import ReconOS.Libc.Decimal

/-! An HTTP reply as it arrives: the head gathered until its blank line, the body in one of three
framings, and what is handed on when it is over. A byte is a character here. -/
namespace ReconOS.Http
open Libc Lib

def headMax : Nat := 16384
def bodyMax : Nat := 2 * 1024 * 1024
def urlMax : Nat := 2048
def lineMax : Nat := 4096
def contentTypeMax : Nat := 128
def chunkSizeMax : Nat := 32

/-- How the body is delimited, which the headers decide. -/
inductive BodyKind where
  | untilClose | length | chunked
  deriving DecidableEq

/-- Who was asked, which a cookie is kept for. -/
structure Asked where
  host : Text
  path : Text
  secure : Bool
  now : Int

/-! ## The head -/

/-- What the head says, as it is read. -/
structure Fields where
  status : Int
  contentType : Text
  location : Text
  kind : BodyKind
  announced : Nat
  /-- A chunk size comes first. -/
  inSize : Bool
  jar : Option Cookies.Jar
  cookiesSet : Nat
  cookieRefused : Text

def Fields.fresh (jar : Option Cookies.Jar) : Fields :=
  ⟨0, [], [], .untilClose, 0, false, jar, 0, []⟩

/-- The lines up to the empty one. What no line end follows is none. -/
def headLines (line : Text) : Text → List Text
  | '\r' :: '\n' :: rest => if line.isEmpty then [] else line.reverse :: headLines [] rest
  | c :: rest => headLines (c :: line) rest
  | [] => []

/-- What follows the name and its colon, where the line is of that name. -/
def headerValue (header name : Text) : Option Text :=
  if sameText (header.take name.length) name ∧ header[name.length]? = some ':' then
    some ((header.drop (name.length + 1)).dropWhile blank)
  else none

/-- `strcasestr` finds it. -/
def holdsText (text part : Text) : Bool := text.tails.any fun t => sameText (t.take part.length) part

def cookieTooLong : Text :=
  "a cookie longer than this reads was refused rather than stored half".toList

def readCookie (asked : Asked) (f : Fields) (cut : Bool) (value : Text) : Fields :=
  if cut then { f with cookieRefused := cookieTooLong }
  else match f.jar with
    | none => f
    | some jar =>
      match Cookies.set jar asked.host asked.path asked.secure value asked.now with
      | (jar, some why) => { f with jar := some jar, cookieRefused := textCopy 192 why }
      | (jar, none) => { f with jar := some jar, cookiesSet := f.cookiesSet + 1 }

/-- One header line, of which `line` is what the array took. -/
def readHeader (asked : Asked) (f : Fields) (whole : Text) : Fields :=
  let line := textCopy lineMax whole
  match headerValue line "Content-Type".toList with
  | some value => { f with contentType := textCopy contentTypeMax value }
  | none =>
  match headerValue line "Location".toList with
  -- Left empty when it will not fit: a cut address is a different one.
  | some value => { f with location := if value.length < urlMax then value else [] }
  | none =>
  match headerValue line "Content-Length".toList, f.kind with
  | some value, .untilClose | some value, .length =>
    { f with announced := (strtoull value 10).1, kind := .length }
  | _, _ =>
  match headerValue line "Set-Cookie".toList with
  | some value => readCookie asked f (decide (whole.length ≥ lineMax)) value
  | none =>
  match headerValue line "Transfer-Encoding".toList with
  | some value =>
    -- Chunked wins over a length when a server sends both.
    if holdsText value "chunked".toList then { f with kind := .chunked, inSize := true } else f
  | none => f

def readStatus (f : Fields) (line : Text) : Fields :=
  { f with status := ((Text.cut ' ' (textCopy lineMax line)).map fun p => atoi p.2).getD 0 }

def readHead (asked : Asked) (f : Fields) (head : Text) : Fields :=
  match headLines [] (cstring head) with
  | [] => f
  | first :: rest => rest.foldl (readHeader asked) (readStatus f first)

def blankLine : Text := ['\r', '\n', '\r', '\n']

/-- How long the head is, its blank line with it, where it is all there. -/
def splitHead : Text → Option Nat
  | [] => none
  | c :: rest => if blankLine.isPrefixOf (c :: rest) then some 4 else (splitHead rest).map (· + 1)

/-! ## The body -/

/-- The last byte of the array is kept for the terminator. -/
def append (body bytes : Text) : Text :=
  if body.length + bytes.length ≥ bodyMax then body ++ bytes.take (bodyMax - body.length - 1)
  else body ++ bytes

/-- What is known of a body as it arrives, the chunks and their sizes among it. -/
structure Body where
  bytes : Text
  left : Nat
  inSize : Bool
  size : Text
  done : Bool
  deriving DecidableEq

def Body.empty (inSize : Bool) : Body := ⟨[], 0, inSize, [], false⟩

/-- The line that says how long a chunk is has ended. -/
def Body.sized (b : Body) : Body :=
  let left := (strtoull b.size 16).1
  { b with left := left, size := [], inSize := false, done := left = 0 }

/-- One character of that line, while there is room for it. -/
def Body.gather (b : Body) (c : Char) : Body :=
  if c ≠ '\r' ∧ b.size.length < chunkSizeMax - 1 then { b with size := b.size ++ [c] } else b

/-- As much of the chunk as is here. -/
def Body.take (b : Body) (bytes : Text) : Body :=
  { b with bytes := append b.bytes bytes, left := b.left - bytes.length }

def feedChunked (b : Body) : Text → Body
  | [] => b
  | c :: rest =>
    if b.done then b
    else if b.inSize then
      if c = '\n' then feedChunked b.sized rest else feedChunked (b.gather c) rest
    else if 0 < b.left then
      let take := min (rest.length + 1) b.left
      feedChunked (b.take ((c :: rest).take take)) ((c :: rest).drop take)
    -- The line end after a chunk's data.
    else if c = '\n' then feedChunked { b with inSize := true } rest
    else feedChunked b rest
termination_by bytes => bytes.length
decreasing_by all_goals grind

/-! ## A request -/

structure Request where
  /-- The array the head is gathered in. -/
  head : Text
  headDone : Bool
  fields : Fields
  body : Body

def Request.begun (jar : Option Cookies.Jar) : Request :=
  ⟨[], false, .fresh jar, .empty false⟩

/-- What is handed to whoever asked. -/
structure Done where
  ok : Bool
  body : Option Text
  length : Nat
  contentType : Text
  error : Text
  deriving DecidableEq

/-- What a request has come to. -/
inductive Outcome where
  | waiting (r : Request)
  /-- `done` was called, and the request is freed. -/
  | finished (d : Done)
  /-- Another address is asked for in its place. -/
  | redirected (location : Text)
  /-- The request was used after it was freed. -/
  | astray

/-- What comes next, where anything does. -/
def Outcome.andThen (o : Outcome) (next : Request → Outcome) : Outcome :=
  match o with
  | .waiting r => next r
  | other => other

@[simp] theorem Outcome.waiting_andThen (r : Request) (next : Request → Outcome) :
    (Outcome.waiting r).andThen next = next r := rfl

@[simp] theorem Outcome.astray_andThen (next : Request → Outcome) :
    Outcome.astray.andThen next = .astray := rfl

def statusSentence (status : Int) : Option Text :=
  if status = 400 then some "the server said that request was malformed".toList
  else if status = 401 then some "that page needs a sign-in, which this cannot do".toList
  else if status = 403 then some "the server refused to show that page".toList
  else if status = 404 then some "there is no page at that address".toList
  else if status = 408 then some "the server gave up waiting".toList
  else if status = 410 then some "that page is gone, and the server says deliberately so".toList
  else if status = 429 then some "the server is asking to be left alone for a while".toList
  else if status = 500 then some "something went wrong at the server's end".toList
  else if status = 502 then some "the server in front could not reach the one behind".toList
  else if status = 503 then some "the server is not taking requests right now".toList
  else if status = 504 then some "the server in front waited too long for the one behind".toList
  else none

def statusError (status : Int) : Text :=
  (statusSentence status).getD
    ("the server answered ".toList ++ printInt status ++ ", which this does not understand".toList)

def failed (contentType error : Text) : Done := ⟨false, none, 0, contentType, textCopy 256 error⟩

/-- A status that is a page's. -/
def fine (status : Int) : Bool := 200 ≤ status && status < 300

def redirects (f : Fields) : Bool := 300 ≤ f.status && f.status < 400 && !f.location.isEmpty

/-- The body ended where its framing says. -/
def finishOk (f : Fields) (body : Text) : Outcome :=
  if redirects f then .redirected f.location
  else if fine f.status then .finished ⟨true, some body, body.length, f.contentType, []⟩
  else .finished (failed f.contentType (statusError f.status))

def finishFailed (f : Fields) (error : Text) : Outcome := .finished (failed f.contentType error)

def deliver (r : Request) (bytes : Text) : Outcome :=
  match r.fields.kind with
  | .chunked =>
    let body := feedChunked r.body bytes
    if body.done then finishOk r.fields body.bytes else .waiting { r with body := body }
  | kind =>
    let body := { r.body with bytes := append r.body.bytes bytes }
    if kind = .length ∧ body.bytes.length ≥ r.fields.announced then finishOk r.fields body.bytes
    else .waiting { r with body := body }

def noEnd : Text := "the server's reply had no end to its headers".toList

/-- What the array of the head could not take. A request that is over is gone by then. -/
def spill (o : Outcome) (bytes : Text) : Outcome :=
  if bytes = [] then o
  else match o with
    | .waiting r => deliver r bytes
    | .finished _ => .astray
    -- The request is another one by now, and what arrives before its head is dropped.
    | .redirected location => .redirected location
    | .astray => .astray

def received (asked : Asked) (r : Request) (bytes : Text) : Outcome :=
  if r.headDone then deliver r bytes
  else
    let room := headMax - r.head.length - 1
    let head := r.head ++ bytes.take room
    match splitHead (cstring head) with
    | none =>
      if room = 0 then finishFailed r.fields noEnd else .waiting { r with head := head }
    | some length =>
      let fields := readHead asked r.fields head
      let r : Request := ⟨head, true, fields, .empty fields.inSize⟩
      let o := if head.length > length then deliver r (head.drop length) else .waiting r
      spill o (bytes.drop room)

/-- Why a connection is over. -/
inductive Reason where
  | ok | noSuchHost | unreachable | timedOut | noNetwork
  /-- The other end could not prove who it is, and nothing was received from it. -/
  | untrusted (why : Text)
  deriving DecidableEq

def reasonName : Reason → Text
  | .ok => "answered".toList
  | .noSuchHost => "no such host".toList
  | .unreachable => "unreachable".toList
  | .timedOut => "timed out".toList
  | .noNetwork => "no network".toList
  | .untrusted _ => "could not prove who it is".toList

def noAnswer (asked : Asked) (reason : Reason) : Text :=
  asked.host ++ " did not answer: ".toList ++ reasonName reason

def endedEarly (asked : Asked) : Text :=
  "the connection to ".toList ++ asked.host ++ " ended before the page did".toList

def closed (asked : Asked) (r : Request) (reason : Reason) : Outcome :=
  match reason with
  | .untrusted why => finishFailed r.fields why
  | reason =>
    if r.headDone ∧ r.fields.kind = .untilClose then finishOk r.fields r.body.bytes
    else if r.headDone ∧ r.fields.kind = .length ∧ r.body.bytes.length ≥ r.fields.announced then
      finishOk r.fields r.body.bytes
    else if ¬r.headDone then finishFailed r.fields (noAnswer asked reason)
    else finishFailed r.fields (endedEarly asked)

/-- The reads one after another, and the close. Once it is over nothing more is heard. -/
def hear (asked : Asked) (reason : Reason) (r : Request) : List Text → Outcome
  | [] => closed asked r reason
  | bytes :: rest =>
    (received asked r bytes).andThen fun r => hear asked reason r rest

end ReconOS.Http
