import ReconOS.Libc.Decimal
import ReconOS.Lib.Run

/-! The firewall: its switch, its defaults and its rules, the file they are kept in, and the
question asked of them. -/
namespace ReconOS.Firewall
open Libc Lib

def rulesMax : Nat := 100
def nameMax : Nat := 48
def reconPort : Int := 7420

inductive Direction where
  | fwIn | fwOut
  deriving DecidableEq

inductive Protocol where
  | tcp | udp | any
  deriving DecidableEq

inductive Action where
  | allow | block
  deriving DecidableEq

/-- A string in an array of `nameMax`. -/
@[ext] structure Label where
  text : Text
  fits : text.length < nameMax
  ends : nul ∉ text
  deriving DecidableEq

/-- `direction` is `none` for `RECON_FW_DIRECTION_COUNT`, which the type lets a caller write. -/
@[ext] structure Rule where
  name : Label
  direction : Option Direction
  protocol : Protocol
  portFrom : Int
  portTo : Int
  program : Label
  action : Action
  enabled : Bool
  ints : IsInt portFrom ∧ IsInt portTo
  deriving DecidableEq

/-- What is in force. -/
structure Policy where
  on : Bool
  defaultIn : Action
  defaultOut : Action
  rules : List Rule
  room : rules.length ≤ rulesMax
  deriving DecidableEq

/-! ## Names -/

def directionName : Option Direction → Text
  | some .fwIn => "in".toList
  | some .fwOut => "out".toList
  | none => "?".toList

def protocolName : Protocol → Text
  | .tcp => "tcp".toList
  | .udp => "udp".toList
  | .any => "any".toList

def actionName : Action → Text
  | .allow => "allow".toList
  | .block => "block".toList

/-! ## Words -/

/-- `none`: neither word. -/
def actionFromChecked (word : Text) : Option Action :=
  if sameText word "allow".toList then some .allow
  else if sameText word "block".toList then some .block
  else none

def actionFrom (word : Text) (fallback : Action) : Action :=
  (actionFromChecked word).getD fallback

/-- Yes, no, or neither. -/
def yesOrNo (word : Text) : Option Bool :=
  if sameText word "yes".toList || sameText word "on".toList || sameText word "true".toList ||
      word = "1".toList then some true
  else if sameText word "no".toList || sameText word "off".toList ||
      sameText word "false".toList || word = "0".toList then some false
  else none

def protocolFrom (word : Text) : Protocol :=
  if sameText word "tcp".toList then .tcp
  else if sameText word "udp".toList then .udp
  else .any

def trailing (c : Char) : Bool := c = ' ' || c = '\t' || c = '\r'

def trim (text : Text) : Text := (text.dropWhile blank).rdropWhile trailing

/-! ## The file -/

/-- What the file says of itself, line by line. -/
def commentLines : List Text :=
  ["# The ReconOS firewall.".toList,
    "#".toList,
    "# This decides what ReconOS itself opens and accepts. It is not the".toList,
    "# host's firewall and does not touch it.".toList,
    "#".toList,
    "# The first rule that matches decides. Order is what settles it, so".toList,
    "# the order of these lines is part of the rule.".toList,
    "#".toList,
    "#   rule = on | direction | protocol | ports | program | action | name".toList,
    "#".toList,
    "# ports is from-to, or 0-0 for any. program is * for any.".toList]

def comments : Text := commentLines.flatMap (· ++ ['\n'])

def fileHeader (on defaultIn defaultOut : Text) : Text :=
  comments ++ ['\n'] ++
    "on = ".toList ++ on ++ ['\n'] ++
    "default in = ".toList ++ defaultIn ++ ['\n'] ++
    "default out = ".toList ++ defaultOut ++ ['\n'] ++ ['\n']

def yesWord (on : Bool) : Text := if on then "yes".toList else "no".toList
def onWord (on : Bool) : Text := if on then "on".toList else "off".toList

/-- The seven fields of a rule, as text. -/
structure Fields where
  enabled : Text
  direction : Text
  protocol : Text
  ports : Text
  program : Text
  action : Text
  name : Text
  deriving DecidableEq

def bar : Text := " | ".toList

def joinFields (f : Fields) : Text :=
  f.enabled ++ bar ++ f.direction ++ bar ++ f.protocol ++ bar ++ f.ports ++ bar ++ f.program ++
    bar ++ f.action ++ bar ++ f.name

def printPorts (portFrom portTo : Int) : Text := printInt portFrom ++ '-' :: printInt portTo

/-- What is written of each field. -/
def fieldsOf (r : Rule) : Fields where
  enabled := onWord r.enabled
  direction := directionName r.direction
  protocol := protocolName r.protocol
  ports := printPorts r.portFrom r.portTo
  program := if r.program.text.isEmpty then ['*'] else r.program.text
  action := actionName r.action
  name := r.name.text

def fieldsLine (f : Fields) : Text := "rule = ".toList ++ joinFields f ++ ['\n']

def ruleLine (r : Rule) : Text := fieldsLine (fieldsOf r)

def textSize : Nat := rulesMax * 160 + 512

/-- A line there is no room for ends the file. -/
def writeLoop (text : Text) : List Rule → Text
  | [] => text
  | r :: rest =>
    if text.length < textSize then
      if (ruleLine r).length ≥ textSize - text.length then text
      else writeLoop (text ++ ruleLine r) rest
    else text

/-- What `write_rules` hands to the file system. -/
def rulesText (fw : Policy) : Text :=
  writeLoop (fileHeader (yesWord fw.on) (actionName fw.defaultIn) (actionName fw.defaultOut))
    fw.rules

theorem copied_ends (text : Text) : nul ∉ textCopy nameMax (cstring text) := fun inside =>
  nul_not_mem_cstring text (List.mem_of_mem_take inside)

/-- `recon_text_copy` into a label. -/
def Label.copy (text : Text) : Label :=
  ⟨textCopy nameMax (cstring text), textCopy_length _ _ (by decide), copied_ends text⟩

/-- The two ends of a range, or one port for both. -/
def parsePorts (ports : Text) : Int × Int :=
  match Text.cut '-' ports with
  | some (from', to') => (atoi from', atoi to')
  | none => (atoi ports, atoi ports)

theorem parsePorts_ints (ports : Text) :
    IsInt (parsePorts ports).1 ∧ IsInt (parsePorts ports).2 := by
  unfold parsePorts
  split
  · exact ⟨atoi_isInt _, atoi_isInt _⟩
  · exact ⟨atoi_isInt _, atoi_isInt _⟩

/-- What comes after a seventh bar is not looked at. -/
def splitFields (value : Text) : Option Fields :=
  match value.splitOn '|' with
  | f0 :: f1 :: f2 :: f3 :: f4 :: f5 :: f6 :: _ =>
    some ⟨trim f0, trim f1, trim f2, trim f3, trim f4, trim f5, trim f6⟩
  | _ => none

def ruleOf (f : Fields) : Rule where
  name := .copy f.name
  direction := some (if sameText f.direction "in".toList then .fwIn else .fwOut)
  protocol := protocolFrom f.protocol
  portFrom := (parsePorts f.ports).1
  portTo := (parsePorts f.ports).2
  program := .copy (if f.program = ['*'] then [] else f.program)
  action := actionFrom f.action .block
  enabled := sameText f.enabled "on".toList
  ints := parsePorts_ints f.ports

def parseRule (value : Text) : Option Rule := (splitFields value).map ruleOf

/-! ## What ships -/

theorem port_isInt {p : Int} (small : 0 ≤ p ∧ p < 65536) : IsInt p := by
  unfold IsInt
  omega

/-- A rule about ports that is there to be turned on. -/
def shipped (name : Text) (direction : Direction) (protocol : Protocol) (portFrom portTo : Int)
    (enabled : Bool) (fits : name.length < nameMax ∧ nul ∉ name)
    (ports : (0 ≤ portFrom ∧ portFrom < 65536) ∧ 0 ≤ portTo ∧ portTo < 65536) : Rule where
  name := ⟨name, fits.1, fits.2⟩
  direction := some direction
  protocol := protocol
  portFrom := portFrom
  portTo := portTo
  program := ⟨[], Nat.zero_lt_succ _, List.not_mem_nil⟩
  action := .allow
  enabled := enabled
  ints := ⟨port_isInt ports.1, port_isInt ports.2⟩

def defaults : List Rule :=
  [shipped "ReconOS remote access".toList .fwIn .tcp reconPort reconPort false (by decide)
      (by decide),
    shipped "Secure shell".toList .fwIn .tcp 22 22 false (by decide) (by decide),
    shipped "Remote screen (VNC)".toList .fwIn .tcp 5900 5900 false (by decide) (by decide),
    shipped "Windows file sharing".toList .fwIn .tcp 445 445 false (by decide) (by decide),
    shipped "Printing".toList .fwIn .tcp 631 631 false (by decide) (by decide),
    shipped "Web server".toList .fwIn .tcp 80 80 false (by decide) (by decide),
    shipped "Web server (secure)".toList .fwIn .tcp 443 443 false (by decide) (by decide),
    shipped "File transfer (FTP)".toList .fwIn .tcp 20 21 false (by decide) (by decide),
    shipped "Mail, incoming (IMAP)".toList .fwIn .tcp 143 143 false (by decide) (by decide),
    shipped "Mail, incoming (SMTP)".toList .fwIn .tcp 25 25 false (by decide) (by decide),
    shipped "Name service (DNS)".toList .fwIn .udp 53 53 false (by decide) (by decide),
    shipped "Network discovery".toList .fwIn .udp 137 138 false (by decide) (by decide),
    shipped "Database (PostgreSQL)".toList .fwIn .tcp 5432 5432 false (by decide) (by decide),
    shipped "Database (MySQL)".toList .fwIn .tcp 3306 3306 false (by decide) (by decide),
    shipped "Remote desktop (RDP)".toList .fwIn .tcp 3389 3389 false (by decide) (by decide),
    shipped "Web".toList .fwOut .tcp 80 80 true (by decide) (by decide),
    shipped "Web (secure)".toList .fwOut .tcp 443 443 true (by decide) (by decide),
    shipped "Name lookups".toList .fwOut .udp 53 53 true (by decide) (by decide),
    shipped "Time".toList .fwOut .udp 123 123 true (by decide) (by decide),
    shipped "Secure shell, out".toList .fwOut .tcp 22 22 false (by decide) (by decide),
    shipped "Mail, sending".toList .fwOut .tcp 587 587 false (by decide) (by decide),
    shipped "Mail, collecting".toList .fwOut .tcp 993 993 false (by decide) (by decide),
    shipped "File transfer, out".toList .fwOut .tcp 20 21 false (by decide) (by decide)]

def isBuiltIn (r : Rule) : Bool :=
  defaults.any fun d => d.name.text = r.name.text && d.direction = r.direction &&
    d.protocol = r.protocol && d.portFrom = r.portFrom && d.portTo = r.portTo

def writeDefaults : Policy := ⟨true, .block, .allow, defaults, by decide⟩

/-! ## Reading the file -/

def Policy.default (fw : Policy) : Direction → Action
  | .fwIn => fw.defaultIn
  | .fwOut => fw.defaultOut

def Policy.withDefault (fw : Policy) (a : Action) : Direction → Policy
  | .fwIn => { fw with defaultIn := a }
  | .fwOut => { fw with defaultOut := a }

/-- One more rule, where there is room. -/
def Policy.push (fw : Policy) (r : Rule) : Policy :=
  if room : fw.rules.length < rulesMax then
    { fw with rules := fw.rules ++ [r], room := by rw [List.length_append]; exact room }
  else fw

/-- One setting. A value that is not understood leaves it alone. -/
def setting (fw : Policy) (key value : Text) : Policy :=
  if sameText key "on".toList then
    match yesOrNo value with
    | some on => { fw with on := on }
    | none => fw
  else if sameText key "default in".toList then
    match actionFromChecked value with
    | some a => fw.withDefault a .fwIn
    | none => fw
  else if sameText key "default out".toList then
    match actionFromChecked value with
    | some a => fw.withDefault a .fwOut
    | none => fw
  else if sameText key "rule".toList then
    match parseRule value with
    | some r => fw.push r
    | none => fw
  else fw

/-- The key and the value of one line, trimmed. -/
def lineParts (line : Text) : Option (Text × Text) :=
  let line := trim line
  if line.isEmpty || line.head? = some '#' then none
  else (Text.cut '=' line).map fun (before, after) => (trim before, trim after)

def readLine (fw : Policy) (line : Text) : Policy :=
  match lineParts line with
  | some (key, value) => setting fw key value
  | none => fw

/-- The defaults without their rules: what a file is read into. -/
def fresh : Policy := { writeDefaults with rules := [], room := Nat.zero_le _ }

def readRules (text : Text) : Policy :=
  (Text.tokens '\n' (cstring text)).foldl readLine fresh

/-! ## The calls -/

/-- What becomes of a write. One that fails may leave anything behind. -/
inductive Write where
  | lands
  | fails (left : Option Text)
  deriving DecidableEq

/-- What is in force, and the file. -/
structure State where
  fw : Policy
  file : Option Text

def writeRules (w : Write) (s : State) : State × Bool :=
  match w with
  | .lands => ({ s with file := some (rulesText s.fw) }, true)
  | .fails left => ({ s with file := left }, false)

def init (w : Write) (file : Option Text) : State × Bool :=
  match file with
  | none => writeRules w ⟨writeDefaults, none⟩
  | some text => (⟨readRules text, file⟩, true)

def setOn (w : Write) (s : State) (on : Bool) : State × Bool :=
  writeRules w { s with fw := { s.fw with on := on } }

def setDefault (w : Write) (s : State) (direction : Option Direction) (a : Action) :
    State × Bool :=
  match direction with
  | none => (s, false)
  | some d => writeRules w { s with fw := s.fw.withDefault a d }

def add (w : Write) (s : State) (r : Rule) : State × Bool :=
  if s.fw.rules.length ≥ rulesMax then (s, false)
  else if r.name.text.isEmpty then (s, false)
  else if r.portFrom < 0 ∨ r.portTo > 65535 ∨ r.portFrom > r.portTo then (s, false)
  else writeRules w { s with fw := s.fw.push r }

/-- The rules replaced by no more of them. -/
def Policy.withRules (fw : Policy) (rules : List Rule) (fewer : rules.length ≤ fw.rules.length) :
    Policy :=
  { fw with rules := rules, room := Nat.le_trans fewer fw.room }

def remove (w : Write) (s : State) (index : Int) : State × Bool :=
  if index < 0 ∨ index ≥ s.fw.rules.length then (s, false)
  else if (s.fw.rules[index.toNat]?).any isBuiltIn then (s, false)
  else
    let fw := s.fw.withRules (s.fw.rules.eraseIdx index.toNat) (List.length_eraseIdx_le _ _)
    writeRules w { s with fw := fw }

def Rule.switched (r : Rule) (on : Bool) : Rule := { r with enabled := on }

def setRuleOn (w : Write) (s : State) (index : Int) (on : Bool) : State × Bool :=
  if index < 0 ∨ index ≥ s.fw.rules.length then (s, false)
  else
    let fw := s.fw.withRules (s.fw.rules.modify index.toNat (·.switched on))
      (Nat.le_of_eq (List.length_modify _ _ _))
    writeRules w { s with fw := fw }

/-- Taken out of its place and put in another. -/
def moved (rules : List Rule) (index to' : Nat) : List Rule :=
  match rules[index]? with
  | none => rules
  | some moving => (rules.eraseIdx index).insertIdx to' moving

theorem moved_length (rules : List Rule) (index to' : Nat) :
    (moved rules index to').length ≤ rules.length := by
  unfold moved
  split
  · exact Nat.le_refl _
  · rename_i moving at_i
    obtain ⟨less, -⟩ := List.getElem?_eq_some_iff.mp at_i
    have erased := List.length_eraseIdx_add_one less
    have put := @List.length_insertIdx_le_succ _ (rules.eraseIdx index) moving to'
    omega

def move (w : Write) (s : State) (index by' : Int) : State × Bool :=
  let to' := index + by'
  if index < 0 ∨ index ≥ s.fw.rules.length ∨ to' < 0 ∨ to' ≥ s.fw.rules.length then (s, false)
  else
    let fw := s.fw.withRules (moved s.fw.rules index.toNat to'.toNat) (moved_length _ _ _)
    writeRules w { s with fw := fw }

/-! ## The question -/

structure Query where
  direction : Direction
  protocol : Protocol
  port : Int
  program : Option Text
  deriving DecidableEq

/-- Both zero is every port. -/
def portMatches (r : Rule) (port : Int) : Bool :=
  (r.portFrom = 0 && r.portTo = 0) || (r.portFrom ≤ port && port ≤ r.portTo)

def ruleMatches (r : Rule) (q : Query) : Bool :=
  r.enabled && r.direction = some q.direction &&
    (r.protocol = .any || q.protocol = .any || r.protocol = q.protocol) &&
    portMatches r q.port &&
    (r.program.text.isEmpty || q.program.any (sameText r.program.text))

def directionWord : Direction → Text
  | .fwIn => "incoming".toList
  | .fwOut => "outgoing".toList

/-- Whether it is allowed, and why. The first rule that matches decides. -/
def allows (fw : Policy) (q : Query) : Bool × Text :=
  if !fw.on then (true, "the firewall is off".toList)
  else match fw.rules.find? (ruleMatches · q) with
    | some r => (r.action = .allow, r.name.text)
    | none =>
      (fw.default q.direction = .allow,
        "nothing matched; ".toList ++ directionWord q.direction ++ " is ".toList ++
          actionName (fw.default q.direction) ++ " by default".toList)

/-! ## Runs -/

inductive Call where
  | setOn (on : Bool)
  | setDefault (direction : Option Direction) (a : Action)
  | add (r : Rule)
  | remove (index : Int)
  | setRuleOn (index : Int) (on : Bool)
  | move (index by' : Int)

/-- A call, and what becomes of the write it may make. -/
structure Move where
  call : Call
  write : Write

def called (s : State) (m : Move) : State × Bool :=
  match m.call with
  | .setOn on => setOn m.write s on
  | .setDefault direction a => setDefault m.write s direction a
  | .add r => add m.write s r
  | .remove index => remove m.write s index
  | .setRuleOn index on => setRuleOn m.write s index on
  | .move index by' => move m.write s index by'

def step (s : State) (m : Move) : State := (called s m).1

end ReconOS.Firewall
