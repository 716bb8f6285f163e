import ReconOS.Libc.Decimal
import ReconOS.Lib.Run

/-! Cookies: what a server's `Set-Cookie` says, the jar it is kept in, and the header that hands it
back. -/
namespace ReconOS.Cookies
open Libc Lib

def nameMax : Nat := 128
def valueMax : Nat := 1024
def hostMax : Nat := 256
def pathMax : Nat := 256
def perHost : Nat := 50
def cookieMax : Nat := 300

/-- Four hundred days, in seconds. -/
def cookieLongest : Int := 400 * 24 * 60 * 60

structure Cookie where
  host : Text
  path : Text
  name : Text
  value : Text
  secure : Bool
  httpOnly : Bool
  wasNarrowed : Bool
  /-- 0 for the life of the window. -/
  expires : Int
  /-- When it arrived. -/
  serial : Nat
  deriving DecidableEq

/-- What is kept, the first arrival first, no two under one number. -/
structure Jar where
  kept : List Cookie
  nextSerial : Nat
  room : kept.length ≤ cookieMax
  rising : kept.Pairwise fun c d => c.serial < d.serial
  known : ∀ c ∈ kept, c.serial ≤ nextSerial

def Jar.empty : Jar := ⟨[], 0, Nat.zero_le _, List.Pairwise.nil, by simp⟩

/-! ## Dates -/

def months : List Text :=
  ["jan".toList, "feb".toList, "mar".toList, "apr".toList, "may".toList, "jun".toList,
    "jul".toList, "aug".toList, "sep".toList, "oct".toList, "nov".toList, "dec".toList]

/-- Days since 1970 of a civil date. -/
def daysFromCivil (y m d : Int) : Int :=
  let y := if m ≤ 2 then y - 1 else y
  let era := (if y ≥ 0 then y else y - 399) / 400
  let yoe := y - era * 400
  let doy := (153 * (m + (if m > 2 then -3 else 9)) + 2) / 5 + d - 1
  let doe := yoe * 365 + yoe / 4 - yoe / 100 + doy
  era * 146097 + doe - 719468

/-- Letters, digits and colons, as long as they run; a colon begins none. -/
def pieceLoop (current : Text) : Text → List Text
  | [] => if current.isEmpty then [] else [current.reverse]
  | c :: rest =>
    if current.isEmpty then
      if c.isAlphanum then pieceLoop [c] rest else pieceLoop [] rest
    else if c.isAlphanum || c = ':' then pieceLoop (c :: current) rest
    else current.reverse :: pieceLoop [] rest

/-- `%d` at the front of a text. -/
def scanInt (text : Text) : Option (Int × Text) :=
  let (value, rest) := strtol text 10
  if rest.length = text.length then none else some (toInt32 value, rest)

/-- `%d:%d:%d`, all three. -/
def scanTime (piece : Text) : Option (Int × Int × Int) :=
  match scanInt piece with
  | some (h, ':' :: rest) =>
    match scanInt rest with
    | some (m, ':' :: rest) =>
      match scanInt rest with
      | some (s, _) => some (h, m, s)
      | none => none
    | _ => none
  | _ => none

structure Date where
  hour : Int
  minute : Int
  second : Int
  day : Int
  month : Int
  year : Int

/-- One to twelve. -/
def monthOf (piece : Text) : Option Nat :=
  (months.findIdx? fun m => sameText (piece.take 3) m).map (· + 1)

/-- A number that is a day or a year, where there is none yet. -/
def readNumber (d : Date) (piece : Text) : Date :=
  if piece.head?.any Char.isDigit then
    let number := atoi piece
    if d.day < 0 ∧ piece.length ≤ 2 ∧ 1 ≤ number ∧ number ≤ 31 then { d with day := number }
    else if d.year < 0 ∧ (piece.length = 2 ∨ piece.length = 4) then { d with year := number }
    else d
  else d

def readMonth (d : Date) (piece : Text) : Date :=
  if d.month < 0 ∧ piece.head?.any Char.isAlpha ∧ piece.length ≥ 3 then
    match monthOf piece with
    | some m => { d with month := m }
    | none => readNumber d piece
  else readNumber d piece

def readPiece (d : Date) (piece : Text) : Date :=
  if piece.length > 31 then d
  else if d.hour < 0 then
    match scanTime piece with
    | some (h, m, s) => { d with hour := h, minute := m, second := s }
    | none => readMonth d piece
  else readMonth d piece

/-- Two digits are a year of this century or the last. -/
def fullYear (year : Int) : Int :=
  if 0 ≤ year ∧ year ≤ 69 then year + 2000
  else if 70 ≤ year ∧ year ≤ 99 then year + 1900
  else year

/-- Whether a date can be read, and when it is. -/
def readExpiry (text : Text) : Option Int :=
  let d := (pieceLoop [] text).foldl readPiece ⟨-1, -1, -1, -1, -1, -1⟩
  if d.day < 0 ∨ d.month < 0 ∨ d.year < 0 ∨ d.hour < 0 then none
  else
    let year := fullYear d.year
    if d.hour > 23 ∨ d.minute > 59 ∨ d.second > 60 ∨ year < 1601 then none
    else
      let when' := daysFromCivil year d.month d.day * 86400 + d.hour * 3600 + d.minute * 60 +
        d.second
      some (if when' < 0 then 0 else when')

/-! ## Matching -/

def trailing (c : Char) : Bool := c = ' ' || c = '\t' || c = '\r' || c = '\n'

def trim (text : Text) : Text := (text.rdropWhile trailing).dropWhile blank

/-- Everything before the last slash of the request's path. -/
def defaultPath (requestPath : Text) : Text :=
  if requestPath.head? = some '/' then
    let before := (requestPath.rdropWhile (· ≠ '/')).dropLast
    if before.isEmpty then ['/'] else before
  else ['/']

/-- `/foo` reaches `/foo` and `/foo/bar`, and not `/foobar`. -/
def pathMatches (cookiePath path : Text) : Bool :=
  cookiePath.isEmpty ||
    (cookiePath.isPrefixOf path &&
      (path.length = cookiePath.length || cookiePath.getLast? = some '/' ||
        path[cookiePath.length]? = some '/'))

def domainNamesTheHost (domain host : Text) : Bool :=
  sameText (if domain.head? = some '.' then domain.tail else domain) host

/-! ## What a `Set-Cookie` says -/

structure Attributes where
  path : Text
  wantSecure : Bool
  httpOnly : Bool
  wasNarrowed : Bool
  maxAge : Option Int
  expires : Option Int
  deriving DecidableEq

/-- How much of an attribute and of a path there is room for. -/
structure Cuts where
  piece : Text → Text
  path : Text → Text

/-- The arrays of this file. -/
def cuts : Cuts := ⟨textCopy (pathMax + 64), textCopy pathMax⟩

/-- One attribute's name and value. -/
def readAttribute (cut : Cuts) (host : Text) (a : Attributes) (piece : Text) : Attributes :=
  let whole := trim (cut.piece piece)
  let (word, value) := match Text.cut '=' whole with
    | some (word, value) => (trim word, some (trim value))
    | none => (whole, none)
  if sameText word "secure".toList then { a with wantSecure := true }
  else if sameText word "httponly".toList then { a with httpOnly := true }
  else match value with
    | none => a
    | some value =>
      if sameText word "path".toList then
        if value.head? = some '/' then { a with path := cut.path value } else a
      else if sameText word "domain".toList then
        if !value.isEmpty && !domainNamesTheHost value host then { a with wasNarrowed := true }
        else a
      else if sameText word "max-age".toList then { a with maxAge := some (strtoll value 10).1 }
      else if sameText word "expires".toList then { a with expires := readExpiry value }
      else a

/-- Max-Age beats Expires, neither reaches past the longest, and 0 is no expiry at all. -/
def expiryOf (a : Attributes) (now : Int) : Int :=
  let when' := match a.maxAge with
    | some age => if age ≤ 0 then 1 else now + (if age > cookieLongest then cookieLongest else age)
    | none =>
      match a.expires with
      | some e => if e = 0 then 1 else e
      | none => 0
  if when' > now ∧ when' - now > cookieLongest then now + cookieLongest else when'

/-- A cookie as a server asks for it. -/
structure Setting where
  path : Text
  name : Text
  value : Text
  secure : Bool
  httpOnly : Bool
  wasNarrowed : Bool
  expires : Int
  deriving DecidableEq

def noName : Text := "a cookie with no name is not stored".toList

/-- The name and the value, which are everything before the first semicolon. -/
def readPair (setCookie : Text) : Except Text (Text × Text) :=
  let pair := setCookie.takeWhile (· ≠ ';')
  if pair.length ≥ nameMax + valueMax + 4 then
    .error "that cookie is longer than this keeps".toList
  else match Text.cut '=' pair with
    | none => .error noName
    | some (name, value) =>
      if name.length ≥ nameMax then
        .error "that cookie's name is longer than this keeps".toList
      else if value.length ≥ valueMax then
        .error "that cookie's value is longer than this keeps".toList
      else if (trim name).isEmpty then .error noName
      else .ok (trim name, trim value)

def readAttributes (cut : Cuts) (host path setCookie : Text) : Attributes :=
  (setCookie.splitOn ';').tail.foldl (readAttribute cut host)
    ⟨cut.path (defaultPath path), false, false, false, none, none⟩

def refusedInsecure : Text :=
  ("a Secure cookie arrived over an unencrypted connection, " ++
    "which is how one side of a site overwrites the other's session " ++
    "-- refused").toList

def readSet (cut : Cuts) (host path : Text) (secure : Bool) (setCookie : Text) (now : Int) :
    Except Text Setting :=
  match readPair setCookie with
  | .error why => .error why
  | .ok (name, value) =>
    let a := readAttributes cut host path setCookie
    if a.wantSecure && !secure then .error refusedInsecure
    else .ok ⟨a.path, name, value, a.wantSecure, a.httpOnly, a.wasNarrowed, expiryOf a now⟩

/-! ## Storing -/

def expired (c : Cookie) (now : Int) : Bool := c.expires ≠ 0 && c.expires ≤ now

/-- Some of what was kept. -/
def Jar.fewer (j : Jar) (kept : List Cookie) (sub : kept.Sublist j.kept) : Jar where
  kept := kept
  nextSerial := j.nextSerial
  room := Nat.le_trans sub.length_le j.room
  rising := j.rising.sublist sub
  known := fun c inside => j.known c (sub.mem inside)

def sweep (j : Jar) (now : Int) : Jar :=
  j.fewer (j.kept.filter fun c => !expired c now) List.filter_sublist

/-- By the three things that identify one. -/
def isAt (host path name : Text) (c : Cookie) : Bool :=
  sameText c.host host && c.path = path && c.name = name

def find (j : Jar) (host path name : Text) : Option Nat := j.kept.findIdx? (isAt host path name)

def dropAt (j : Jar) (i : Nat) : Jar := j.fewer (j.kept.eraseIdx i) (List.eraseIdx_sublist _ _)

/-- A cookie with no expiry outlives one with any expiry at all. -/
def sooner (a b : Int) : Bool := (b = 0 && a ≠ 0) || (a ≠ 0 && b ≠ 0 && a < b)

/-- The place and the expiry of the host's cookie that is over first, from place `i` on. -/
def soonestLoop (host : Text) (i : Nat) (best : Option (Nat × Int)) :
    List Cookie → Option (Nat × Int)
  | [] => best
  | c :: rest =>
    if sameText c.host host then
      match best with
      | none => soonestLoop host (i + 1) (some (i, c.expires)) rest
      | some (j, b) =>
        if sooner c.expires b then soonestLoop host (i + 1) (some (i, c.expires)) rest
        else soonestLoop host (i + 1) (some (j, b)) rest
    else soonestLoop host (i + 1) best rest

def soonest (j : Jar) (host : Text) : Option Nat := (soonestLoop host 0 none j.kept).map Prod.fst

def here (j : Jar) (host : Text) : Nat := j.kept.countP fun c => sameText c.host host

/-- The jar with a place free in it, by dropping the host's soonest where the host has its fill. -/
def makeRoom (j : Jar) (host : Text) : Option Jar :=
  if here j host < perHost ∧ j.kept.length < cookieMax then some j
  else if here j host ≥ perHost then (soonest j host).map (dropAt j)
  else none

/-- A new arrival, if there is a place. -/
def Jar.append (j : Jar) (host : Text) (s : Setting) : Jar :=
  if space : j.kept.length < cookieMax then
    let c : Cookie :=
      { host := textCopy hostMax host, path := s.path, name := s.name, value := s.value
        secure := s.secure, httpOnly := s.httpOnly, wasNarrowed := s.wasNarrowed
        expires := s.expires, serial := j.nextSerial + 1 }
    { kept := j.kept ++ [c]
      nextSerial := j.nextSerial + 1
      room := by rw [List.length_append]; exact space
      rising := by
        rw [List.pairwise_append]
        refine ⟨j.rising, List.pairwise_singleton _ _, fun d inside e is => ?_⟩
        rw [List.mem_singleton.mp is]
        exact Nat.lt_succ_of_le (j.known d inside)
      known := by
        intro d inside
        cases List.mem_append.mp inside with
        | inl old => exact Nat.le_succ_of_le (j.known d old)
        | inr new => exact Nat.le_of_eq (congrArg Cookie.serial (List.mem_singleton.mp new)) }
  else j

/-- What a server refreshes keeps its place and its number. -/
def Cookie.refreshed (c : Cookie) (s : Setting) : Cookie :=
  { c with value := s.value, secure := s.secure, httpOnly := s.httpOnly
           wasNarrowed := s.wasNarrowed, expires := s.expires }

theorem modify_serials (l : List Cookie) (i : Nat) (s : Setting) :
    (l.modify i (·.refreshed s)).map (·.serial) = l.map (·.serial) := by
  induction l generalizing i with
  | nil => simp
  | cons c l ih =>
    cases i with
    | zero => rfl
    | succ i => simpa using ih i

def Jar.refresh (j : Jar) (i : Nat) (s : Setting) : Jar where
  kept := j.kept.modify i (·.refreshed s)
  nextSerial := j.nextSerial
  room := by rw [List.length_modify]; exact j.room
  rising := by
    have serials : ((j.kept.modify i (·.refreshed s)).map (·.serial)).Pairwise (· < ·) := by
      rw [modify_serials, List.pairwise_map]
      exact j.rising
    exact List.pairwise_map.mp serials
  known := by
    intro c inside
    have serial := List.mem_map_of_mem (f := (·.serial)) inside
    rw [modify_serials] at serial
    obtain ⟨d, was, same⟩ := List.mem_map.mp serial
    exact same ▸ j.known d was

/-- The jar is written to by what a server asked for. -/
def keep (j : Jar) (host : Text) (s : Setting) (now : Int) : Jar × Option Text :=
  match find j host s.path s.name with
  | some i =>
    -- A cookie already over is a deletion.
    if s.expires ≠ 0 ∧ s.expires ≤ now then (dropAt j i, none) else (j.refresh i s, none)
  | none =>
    if s.expires ≠ 0 ∧ s.expires ≤ now then (j, none)
    else match makeRoom j host with
      | none => (j, some "this is holding as many cookies as it will".toList)
      | some j => (j.append host s, none)

/-- What it became, and why it was refused where it was. -/
def set (j : Jar) (host path : Text) (secure : Bool) (setCookie : Text) (now : Int) :
    Jar × Option Text :=
  if host.isEmpty then (j, some "there was nothing to store".toList)
  else match readSet cuts host path secure setCookie now with
    | .error why => (sweep j now, some why)
    | .ok s => keep (sweep j now) host s now

/-! ## Sending -/

/-- Longer paths first, and the first arrival first among equal ones. -/
def moreSpecific (a b : Cookie) : Bool :=
  if a.path.length ≠ b.path.length then a.path.length > b.path.length
  else a.serial < b.serial

/-- One step of the insertion sort: past those it goes before. -/
def insertFromEnd (c : Cookie) : List Cookie → List Cookie
  | [] => [c]
  | d :: rest => if moreSpecific c d then d :: insertFromEnd c rest else c :: d :: rest

/-- The insertion sort, its sorted part held last first. -/
def sortLoop (sorted : List Cookie) : List Cookie → List Cookie
  | [] => sorted.reverse
  | c :: rest => sortLoop (insertFromEnd c sorted) rest

def reaches (host path : Text) (secure : Bool) (c : Cookie) : Bool :=
  sameText c.host host && !(c.secure && !secure) && pathMatches c.path path

def pairText (c : Cookie) : Text := c.name ++ '=' :: c.value

def separator : Text := "; ".toList

/-- As many whole pairs as there is room for. -/
def headerLoop (size : Nat) (text : Text) : List Cookie → Text
  | [] => text
  | c :: rest =>
    let more := (if text.isEmpty then [] else separator) ++ pairText c
    if text.length + more.length + 1 > size then text else headerLoop size (text ++ more) rest

def wantPath (path : Text) : Text := if path.head? = some '/' then path else ['/']

/-- The cookies a request carries, in the order they are sent. -/
def order (j : Jar) (host path : Text) (secure : Bool) : List Cookie :=
  sortLoop [] (j.kept.filter (reaches host (wantPath path) secure))

def header (j : Jar) (host path : Text) (secure : Bool) (now : Int) (size : Nat) : Jar × Text :=
  if size = 0 ∨ host.isEmpty then (j, [])
  else
    let j := sweep j now
    (j, headerLoop size [] (order j host path secure))

/-! ## Runs -/

inductive Move where
  | set (host path : Text) (secure : Bool) (setCookie : Text) (now : Int)
  | sweep (now : Int)
  | header (host path : Text) (secure : Bool) (now : Int) (size : Nat)
  deriving DecidableEq

def step (j : Jar) : Move → Jar
  | .set host path secure setCookie now => (set j host path secure setCookie now).1
  | .sweep now => sweep j now
  | .header host path secure now size => (header j host path secure now size).1

end ReconOS.Cookies
