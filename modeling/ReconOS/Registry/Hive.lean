import ReconOS.Libc.Decimal
import ReconOS.Lib.Run
import Mathlib.Data.Char
import Mathlib.Data.List.Lex
import Mathlib.Data.List.Sort
import Mathlib.Data.List.ReduceOption

/-! The registry: settings by key, a hive of them for the system and one for the account, and the
text file each is written to. -/
namespace ReconOS.Registry
open Libc Lib

def entriesMax : Nat := 512
def keyMax : Nat := 128
def valueMax : Nat := 512

inductive Scope where
  | system | user
  deriving DecidableEq

/-! ## Keys -/

/-- One character after another: no empty segment, and nothing but what reads as part of a name. -/
def keyLoop (previousWasSlash : Bool) : Text → Bool
  | [] => true
  | c :: rest =>
    if c = '/' then !previousWasSlash && keyLoop true rest
    else (c.isAlphanum || c = '-' || c = '_' || c = '.') && keyLoop false rest

def keyIsValid (key : Text) : Bool :=
  !key.isEmpty && key.length < keyMax && key.head? ≠ some '/' && key.getLast? ≠ some '/' &&
    keyLoop false key

/-- At or under a prefix, compared by segment. -/
def keyUnder (key pre : Text) : Bool :=
  pre.isEmpty ||
    (pre.isPrefixOf key && (key.length = pre.length || key[pre.length]? = some '/'))

/-! ## A hive -/

/-- A used entry. Its value is a string of its array. -/
@[ext] structure Entry where
  key : Text
  value : Text
  keyValid : keyIsValid key = true
  valueFits : value.length < valueMax
  valueEnds : nul ∉ value

theorem Entry.same_iff (a b : Entry) : a.key = b.key ∧ a.value = b.value ↔ a = b := by
  constructor
  · rintro ⟨key, value⟩
    exact Entry.ext key value
  · rintro rfl
    exact ⟨rfl, rfl⟩

instance : DecidableEq Entry := fun a b => decidable_of_iff _ (Entry.same_iff a b)

/-- An unused slot is `none`. -/
structure Hive where
  entries : List (Option Entry)
  count : Int
  slots : entries.length = entriesMax
  deriving DecidableEq

def Hive.empty : Hive := ⟨List.replicate entriesMax none, 0, List.length_replicate⟩

/-- One slot is written, and the count is moved by what that changes. -/
def Hive.put (h : Hive) (i : Nat) (e : Option Entry) (change : Int) : Hive :=
  ⟨h.entries.set i e, h.count + change, by rw [List.length_set]; exact h.slots⟩

def Hive.find (h : Hive) (key : Text) : Option Nat :=
  h.entries.findIdx? fun slot => slot.any (·.key = key)

def Hive.firstUnused (h : Hive) : Option Nat := h.entries.findIdx? Option.isNone

/-- The used entries, in slot order. -/
def Hive.used (h : Hive) : List Entry := h.entries.reduceOption

def Hive.get (h : Hive) (key : Text) : Option Text :=
  ((h.find key).bind fun i => h.entries[i]?.join).map (·.value)

/-! ## On disk -/

/-- One character of a value, as it is written. -/
def escapeChar (atAnEnd : Bool) (c : Char) : Text :=
  if c = '\\' then ['\\', '\\']
  else if c = '\n' then ['\\', 'n']
  else if c = '\r' then ['\\', 'r']
  else if atAnEnd && blank c then ['\\', c]
  else [c]

/-- `first` is whether this is the value's first character; `used` is what is written already. -/
def escapeLoop (size : Nat) (first : Bool) (used : Nat) : Text → Text
  | [] => []
  | c :: rest =>
    if used + 2 < size then
      let written := escapeChar (first || rest.isEmpty) c
      written ++ escapeLoop size false (used + written.length) rest
    else []

def escape (value : Text) (size : Nat) : Text := escapeLoop size true 0 value

/-- What a backslash and a character stand for. -/
def unescapeChar (c : Char) : Char :=
  if c = 'n' then '\n' else if c = 'r' then '\r' else c

/-- `room` is how many more characters the array takes. -/
def unescapeLoop : Nat → Text → Text
  | 0, _ => []
  | _ + 1, [] => []
  | room + 1, c :: rest =>
    if c ≠ '\\' then c :: unescapeLoop room rest
    else match rest with
      | [] => []
      | d :: rest => unescapeChar d :: unescapeLoop room rest

def unescape (text : Text) (size : Nat) : Text := unescapeLoop (size - 1) text

/-- Used entries come before unused ones, and by key among themselves. -/
def notAfter (a b : Option Entry) : Bool :=
  match a, b with
  | some a, some b => !decide (b.key < a.key)
  | some _, none => true
  | none, some _ => false
  | none, none => true

/-- `qsort`: some order that the comparison allows, of the same entries. -/
structure Qsort where
  sort : List (Option Entry) → List (Option Entry)
  perm : ∀ l, (sort l).Perm l
  ordered : ∀ l, (sort l).Pairwise fun a b => notAfter a b = true

def sortHive (q : Qsort) (h : Hive) : Hive :=
  ⟨q.sort h.entries, h.count, by rw [(q.perm _).length_eq]; exact h.slots⟩

def capacity : Nat := entriesMax * (keyMax + valueMax * 2 + 8) + 256

def scopeName : Scope → Text
  | .system => "system".toList
  | .user => "user".toList

def header (scope : Scope) : Text :=
  "# ReconOS registry -- ".toList ++ scopeName scope ++ " settings.\n".toList ++
    "# key = value, one per line. Edited by hand at your own risk;\n".toList ++
    "# a line that will not parse is skipped, not repaired.\n\n".toList

/-- The text being put together, and how much of it the writer believes there is. -/
structure Draft where
  text : Text
  used : Nat

/-- `snprintf` at the end of the draft: as much as there is room for, and all of it counted. -/
def Draft.print (d : Draft) (line : Text) : Draft :=
  ⟨d.text ++ textCopy (capacity - d.used) line, d.used + line.length⟩

def entryLine (e : Entry) : Text :=
  e.key ++ " = ".toList ++ escape e.value (valueMax * 2 + 4) ++ ['\n']

def saveLoop (d : Draft) : List (Option Entry) → Draft
  | [] => d
  | slot :: rest =>
    if d.used < capacity then
      match slot with
      | none => saveLoop d rest
      | some e => saveLoop (d.print (entryLine e)) rest
    else d

/-- What `save` hands to the file system. -/
def saveText (scope : Scope) (entries : List (Option Entry)) : Text :=
  let d := saveLoop (Draft.print ⟨[], 0⟩ (header scope)) entries
  d.text.take d.used

/-- The key and the value of one line, with what surrounds them taken off. -/
def readLine (line : Text) : Option (Text × Text) :=
  let line := line.dropWhile blank
  if line.isEmpty || line.head? = some '#' then none
  else (Text.cut '=' line).map fun (before, after) =>
    (before.rdropWhile blank, after.dropWhile blank)

theorem unescapeLoop_length (room : Nat) (text : Text) :
    (unescapeLoop room text).length ≤ room := by
  fun_induction unescapeLoop room text with
  | case1 => exact Nat.le_refl _
  | case2 => exact Nat.zero_le _
  | case3 room c rest other ih => exact Nat.succ_le_succ ih
  | case4 => exact Nat.zero_le _
  | case5 room c other d rest ih => exact Nat.succ_le_succ ih

theorem unescapeChar_ne_nul {c : Char} (some : c ≠ nul) : unescapeChar c ≠ nul := by
  unfold unescapeChar
  split
  · decide
  · split
    · decide
    · exact some

theorem nul_not_mem_unescapeLoop (room : Nat) {text : Text} (whole : nul ∉ text) :
    nul ∉ unescapeLoop room text := by
  fun_induction unescapeLoop room text with
  | case1 => exact List.not_mem_nil
  | case2 => exact List.not_mem_nil
  | case3 room c rest other ih =>
    rw [List.mem_cons, not_or] at whole ⊢
    exact ⟨whole.1, ih whole.2⟩
  | case4 => exact List.not_mem_nil
  | case5 room c other d rest ih =>
    simp only [List.mem_cons, not_or] at whole ⊢
    exact ⟨(unescapeChar_ne_nul (Ne.symm whole.2.1)).symm, ih whole.2.2⟩

/-- The entry a line's key and value make. The text they come out of is a string. -/
def entryOf (key value : Text) (valid : keyIsValid key = true) : Entry where
  key := key
  value := unescape (cstring value) valueMax
  keyValid := valid
  valueFits := Nat.lt_of_le_of_lt (unescapeLoop_length _ _) (by decide)
  valueEnds := nul_not_mem_unescapeLoop _ (nul_not_mem_cstring value)

/-- The lines one after another. A line that will not parse is skipped. -/
def fill (h : Hive) : List Text → Hive
  | [] => h
  | line :: rest =>
    match readLine line with
    | none => fill h rest
    | some (key, value) =>
      if valid : keyIsValid key = true then
        if h.count ≥ entriesMax then fill h rest
        else match h.firstUnused with
          | none => h
          | some i => fill (h.put i (some (entryOf key value valid)) 1) rest
      else fill h rest

def parse (text : Text) : Hive := fill .empty (Text.tokens '\n' (cstring text))

/-! ## The two hives and their files -/

/-- One hive, the file it is written to, and the name that file had before. -/
structure Side where
  hive : Hive
  file : Option Text
  legacy : Option Text

/-- What becomes of a write. One that fails may leave anything behind. -/
inductive Write where
  | lands
  | fails (left : Option Text)
  deriving DecidableEq

def Write.file (w : Write) (text : Text) : Option Text :=
  match w with
  | .lands => some text
  | .fails left => left

def save (q : Qsort) (scope : Scope) (w : Write) (s : Side) : Side × Bool :=
  let hive := sortHive q s.hive
  ({ s with hive := hive, file := w.file (saveText scope hive.entries) }, w = .lands)

/-- A file under the old name is read once, written back under the new one and taken away. -/
def load (q : Qsort) (scope : Scope) (w : Write) (file legacy : Option Text) : Side :=
  match file with
  | some text => ⟨parse text, file, legacy⟩
  | none =>
    match scope, legacy with
    | .user, some text =>
      let (s, ok) := save q scope w ⟨parse text, none, legacy⟩
      if ok then { s with legacy := none } else s
    | _, _ => ⟨.empty, none, legacy⟩

/-- Both hives of a running system. -/
abbrev Hives := Scope → Side

def init (q : Qsort) (w : Write) (files legacy : Scope → Option Text) : Hives :=
  fun scope => load q scope w (files scope) (legacy scope)

/-! ## Writing -/

theorem cstring_fits {value : Text} {size : Nat} (fits : ¬(cstring value).length ≥ size) :
    (cstring value).length < size := Nat.lt_of_not_le fits

/-- Writing what is there already touches no disk. -/
def set (q : Qsort) (scope : Scope) (w : Write) (s : Side) (key value : Text) : Side × Bool :=
  if valid : keyIsValid (cstring key) = true then
    if long : (cstring value).length ≥ valueMax then (s, false)
    else
      let e : Entry :=
        ⟨cstring key, cstring value, valid, cstring_fits long, nul_not_mem_cstring value⟩
      if s.hive.get e.key = some e.value then (s, true)
      else match s.hive.find e.key with
        | some i => save q scope w { s with hive := s.hive.put i (some e) 0 }
        | none =>
          match s.hive.firstUnused with
          | none => (s, false)
          | some i => save q scope w { s with hive := s.hive.put i (some e) 1 }
  else (s, false)

def remove (q : Qsort) (scope : Scope) (w : Write) (s : Side) (key : Text) : Side × Bool :=
  if keyIsValid (cstring key) then
    match s.hive.find (cstring key) with
    | none => (s, false)
    | some i => save q scope w { s with hive := s.hive.put i none (-1) }
  else (s, false)

/-- Every used entry at or under the prefix is cleared. -/
def clearUnder (pre : Text) : List (Option Entry) → List (Option Entry) × Nat
  | [] => ([], 0)
  | slot :: rest =>
    let (cleared, removed) := clearUnder pre rest
    if slot.any fun e => keyUnder e.key pre then (none :: cleared, removed + 1)
    else (slot :: cleared, removed)

theorem clearUnder_length (pre : Text) (l : List (Option Entry)) :
    (clearUnder pre l).1.length = l.length := by
  induction l with
  | nil => rfl
  | cons slot rest ih =>
    unfold clearUnder
    dsimp only
    split <;> simp only [List.length_cons, ih]

def Hive.removeUnder (h : Hive) (pre : Text) : Hive :=
  ⟨(clearUnder pre h.entries).1, h.count - (clearUnder pre h.entries).2,
    by rw [clearUnder_length]; exact h.slots⟩

def removeAll (q : Qsort) (scope : Scope) (w : Write) (s : Side) (pre : Text) : Side × Nat :=
  let removed := (clearUnder (cstring pre) s.hive.entries).2
  if removed > 0 then
    ((save q scope w { s with hive := s.hive.removeUnder (cstring pre) }).1, removed)
  else (s, removed)

/-! ## Runs -/

inductive Call where
  | set (key value : Text)
  | remove (key : Text)
  | removeAll (pre : Text)
  deriving DecidableEq

/-- One call on one of the hives, and what becomes of the write it may make. -/
structure Move where
  scope : Scope
  call : Call
  write : Write
  deriving DecidableEq

def called (q : Qsort) (scope : Scope) (w : Write) (s : Side) : Call → Side
  | .set key value => (set q scope w s key value).1
  | .remove key => (remove q scope w s key).1
  | .removeAll pre => (removeAll q scope w s pre).1

def step (q : Qsort) (h : Hives) (m : Move) : Hives :=
  Function.update h m.scope (called q m.scope m.write (h m.scope) m.call)

end ReconOS.Registry
