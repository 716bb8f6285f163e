import ReconOS.Lib.Slots
import ReconOS.Libc.Decimal
import ReconOS.Lib.Run

/-! Accounts: who there is, what a password is checked against, and the file the list is kept in. -/
namespace ReconOS.Users

open Libc Lib

def usersMax : Nat := 32
def nameMax : Nat := 32
def saltSize : Nat := 16
def hashSize : Nat := 32
def iterationsNow : Nat := 120000

/-- `RECON_USERS_FILE`. -/

inductive Role where
  | limited | administrator
  deriving DecidableEq

abbrev Bytes (n : Nat) := { bytes : List UInt8 // bytes.length = n }

/-- What a password is checked against. -/
structure Secret where
  iterations : Nat
  salt : Bytes saltSize
  hash : Bytes hashSize
  positive : 0 < iterations
  range : iterations < 2 ^ 32

/-- A name that a folder can have, and that ends no line and no field. -/
def nameIsValid (name : Text) : Bool :=
  !name.isEmpty && name.length < nameMax && name.head? ≠ some '.' && name.head? ≠ some ' ' &&
    name.getLast? ≠ some ' ' &&
    name.all fun c => c ≠ '/' && c ≠ ':' && c ≠ '\\' && c ≠ '\n' && 0x20 ≤ c.toNat

/-- A used slot. Without a password it has no secret. -/
structure Account where
  name : Text
  nameValid : nameIsValid name = true
  role : Role
  secret : Option Secret

/-! ## The table -/

/-- A free slot is `none`. -/
@[ext] structure Table where
  slots : List (Option Account)
  count : Int
  size : slots.length = usersMax

def Table.empty : Table := ⟨List.replicate usersMax none, 0, List.length_replicate⟩

/-- One slot is written, and the count is moved by what that changes. -/
def Table.put (t : Table) (i : Nat) (slot : Option Account) (change : Int) : Table :=
  ⟨t.slots.set i slot, t.count + change, by rw [List.length_set]; exact t.size⟩

/-- The used slots, in their order. -/
def Table.accounts (t : Table) : List Account := t.slots.reduceOption

def isNamed (name : Text) (slot : Option Account) : Bool := slot.any fun a => sameText a.name name

def Table.find (t : Table) (name : Text) : Option Nat := t.slots.findIdx? (isNamed name)

def Table.account (t : Table) (name : Text) : Option Account :=
  (t.find name).bind fun i => t.slots[i]?.join

def Table.adminCount (t : Table) : Nat :=
  (t.accounts.filter fun a => a.role = .administrator).length

/-! ## On disk -/

/-- `recon_to_hex`. -/
def toHex (bytes : List UInt8) : Text :=
  bytes.flatMap fun b => [digitChar false (b.toNat / 16), digitChar false (b.toNat % 16)]

def hexPairs : Text → Option (List UInt8)
  | [] => some []
  | [_] => none
  | high :: low :: rest =>
    match digitIn 16 high, digitIn 16 low, hexPairs rest with
    | some h, some l, some bytes => some (UInt8.ofNat (h * 16 + l) :: bytes)
    | _, _, _ => none

/-- `recon_from_hex`: as many bytes as there is room for, no more and no fewer. -/
def fromHex (size : Nat) (text : Text) : Option (Bytes size) :=
  (hexPairs text).bind fun bytes => if exact : bytes.length = size then some ⟨bytes, exact⟩ else none

def decimal (n : Nat) : Text := (digitsOf n 10 false).reverse

def roleText : Role → Text
  | .administrator => "administrator".toList
  | .limited => "limited".toList

def secretText : Option Secret → Text
  | some s => decimal s.iterations ++ ':' :: toHex s.salt.1 ++ ':' :: toHex s.hash.1
  | none => decimal 0 ++ [':', ':']

def accountText (a : Account) : Text := a.name ++ ':' :: roleText a.role ++ ':' :: secretText a.secret

def commentLines : List Text :=
  ["# ReconOS accounts.".toList,
    "# name:role:iterations:salt:hash".toList,
    "# Passwords are PBKDF2-HMAC-SHA256. Editing this by hand can only".toList,
    "# lock you out; there is no way to write a password in from here.".toList]

/-- What `save` writes. The array has room for all of it. -/
def saveText (accounts : List Account) : Text :=
  (commentLines.flatMap fun line => line ++ ['\n']) ++
    '\n' :: accounts.flatMap fun a => accountText a ++ ['\n']

/-- A line at its colons, as many of them at most. -/
def splitFields : Nat → Text → List Text
  | 0, line => [line]
  | more + 1, line =>
    match Text.cut ':' line with
    | some (field, rest) => field :: splitFields more rest
    | none => [line]

def roleOf (text : Text) : Role :=
  if sameText text "administrator".toList then .administrator else .limited

/-- Without all of its parts, a password is none. -/
def secretOf (count : Text) : List Text → Option Secret
  | salt :: hash :: _ =>
    let n := (strtoul count 10).1 % 2 ^ 32
    if positive : 0 < n then
      match fromHex saltSize salt, fromHex hashSize hash with
      | some s, some h => some ⟨n, s, h, positive, Nat.mod_lt _ (by decide)⟩
      | _, _ => none
    else none
  | _ => none

def accountOf : List Text → Option Account
  | name :: role :: count :: rest =>
    if valid : nameIsValid name = true then some ⟨name, valid, roleOf role, secretOf count rest⟩
    else none
  | _ => none

/-- What a line says, where it can be used. -/
def readLine (line : Text) : Option Account :=
  let line := line.dropWhile blank
  if line = [] ∨ line.head? = some '#' then none else accountOf (splitFields 4 line)

/-- One usable line after another, while there is a free slot. -/
def fill (t : Table) : List Text → Table
  | [] => t
  | line :: rest =>
    match readLine line with
    | none => fill t rest
    | some a =>
      if (t.find a.name).isSome then fill t rest
      else match Slots.firstFree t.slots with
        | none => t
        | some i => fill (t.put i (some a) 1) rest

def parse (text : Text) : Table := fill .empty (Text.tokens '\n' (cstring text))

/-- What a file comes to. Without one there are no accounts yet. -/
def load : Option Text → Table
  | some text => parse text
  | none => .empty

/-! What is done to accounts: making, removing and changing them, each undone where it is not
saved, and signing in and out. -/

/-- Who the filesystem takes to be signed in, and whether it lets them write outside their own
folder. -/
structure Seat where
  user : Text
  admin : Bool
  deriving DecidableEq

/-- Nobody signed in is ReconOS itself. -/
def Seat.own : Seat := ⟨"Administrator".toList, true⟩

structure State where
  table : Table
  /-- Empty where nobody is signed in. -/
  current : Text
  seat : Seat
  file : Option Text
  /-- What became of the save the last call made, where it made one. -/
  saved : Option Bool

/-- `recon_users_init`, on what it reads. -/
def init (read : Option Text) (u : State) : State := { u with table := load read, current := [] }

/-- A start on a file, with nobody signed in. -/
def booted (file : Option Text) : State := init file ⟨.empty, [], .own, file, none⟩

/-- The list is under `/System`, where only an administrator writes. One that does not land leaves
the file that was there. -/
def save (u : State) (lands : Bool) : Bool × State :=
  if u.seat.admin && lands then
    (true, { u with file := some (saveText u.table.accounts), saved := some true })
  else (false, { u with saved := some false })

/-- A change to the table that is taken back where it is not saved. -/
def saveOr (u : State) (changed undo : Table → Table) (lands : Bool) : Bool × State :=
  let r := save { u with table := changed u.table } lands
  if r.1 then r else (false, { r.2 with table := undo r.2.table })

variable (derive : Text → Bytes saltSize → Nat → Bytes hashSize)

/-- `set_password`: the account's new secret, or no randomness to make one with. -/
def newSecret (password : Text) (salt : Option (Bytes saltSize)) : Option (Option Secret) :=
  if password = [] then some none
  else salt.map fun salt =>
    some ⟨iterationsNow, salt, derive password salt iterationsNow, by decide, by decide⟩

/-- `salt` is what the source of randomness gives, and `folders` whether the account's folders
were made. -/
def create (u : State) (name password : Text) (role : Role) (salt : Option (Bytes saltSize))
    (folders lands : Bool) : Bool × State :=
  if valid : nameIsValid name = true then
    if (u.table.find name).isSome then (false, u)
    else if u.table.count ≥ usersMax then (false, u)
    else match Slots.firstFree u.table.slots, newSecret derive password salt with
      | some i, some secret =>
        if folders then
          saveOr u (·.put i (some ⟨name, valid, role, secret⟩) 1) (·.put i none (-1)) lands
        else (false, u)
      | _, _ => (false, u)
  else (false, u)

/-- `emptied` is what becomes of the account's folder, where it was asked for. -/
def remove (u : State) (name : Text) (deleteFiles lands emptied : Bool) : Bool × State :=
  match u.table.find name, u.table.account name with
  | some i, some a =>
    if u.current ≠ [] ∧ sameText u.current name then (false, u)
    else if a.role = .administrator ∧ u.table.adminCount ≤ 1 then (false, u)
    else
      let r := saveOr u (·.put i none (-1)) (·.put i (some a) 1) lands
      (r.1 && (!deleteFiles || emptied), r.2)
  | _, _ => (false, u)

def setRole (u : State) (name : Text) (role : Role) (lands : Bool) : Bool × State :=
  match u.table.find name, u.table.account name with
  | some i, some a =>
    if a.role = .administrator ∧ role ≠ .administrator ∧ u.table.adminCount ≤ 1 then (false, u)
    else saveOr u (·.put i (some { a with role }) 0) (·.put i (some a) 0) lands
  | _, _ => (false, u)

def setPassword (u : State) (name password : Text) (salt : Option (Bytes saltSize))
    (lands : Bool) : Bool × State :=
  match u.table.find name, u.table.account name with
  | some i, some a =>
    match newSecret derive password salt with
    | some secret => saveOr u (·.put i (some { a with secret }) 0) (·.put i (some a) 0) lands
    | none => (false, u)
  | _, _ => (false, u)

/-! ## Signing in -/

def check (t : Table) (name password : Text) : Bool :=
  match t.account name with
  | none => false
  | some a =>
    match a.secret with
    | none => password.isEmpty
    | some s => derive password s.salt s.iterations = s.hash

/-- The filesystem follows. -/
def login (u : State) (name password : Text) : Bool × State :=
  if check derive u.table name password then
    match u.table.account name with
    | some a =>
      (true, { u with current := a.name, seat := ⟨a.name, a.role = .administrator⟩ })
    | none => (false, u)
  else (false, u)

def logout (u : State) : State := { u with current := [], seat := .own }

def currentIsAdmin (u : State) : Bool :=
  (u.table.account u.current).any fun a => a.role = .administrator

/-- Nobody signed in yet means setup. -/
def mayAdminister (u : State) : Bool := u.current = [] || currentIsAdmin u

/-! ## Calls -/

inductive Call where
  | create (name password : Text) (role : Role) (salt : Option (Bytes saltSize))
      (folders lands : Bool)
  | remove (name : Text) (deleteFiles lands emptied : Bool)
  | setRole (name : Text) (role : Role) (lands : Bool)
  | setPassword (name password : Text) (salt : Option (Bytes saltSize)) (lands : Bool)
  | login (name password : Text)
  | logout

def called (u : State) : Call → Bool × State
  | .create name password role salt folders lands =>
    create derive u name password role salt folders lands
  | .remove name deleteFiles lands emptied => remove u name deleteFiles lands emptied
  | .setRole name role lands => setRole u name role lands
  | .setPassword name password salt lands => setPassword derive u name password salt lands
  | .login name password => login derive u name password
  | .logout => (true, logout u)

/-- What a call returns, and what it leaves. -/
def answer (u : State) (c : Call) : Bool × State := called derive { u with saved := none } c

def step (u : State) (c : Call) : State := (answer derive u c).2

/-- Any function will do where nobody has a password. -/
def noDerive : Text → Bytes saltSize → Nat → Bytes hashSize :=
  fun _ _ _ => ⟨List.replicate hashSize 0, List.length_replicate⟩

end ReconOS.Users
