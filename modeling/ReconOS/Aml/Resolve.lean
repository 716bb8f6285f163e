import Mathlib.Data.List.Basic

/-! The machine's table of devices, names and methods, as the parser walks it. A cursor is the bytes
from it to its end. -/
namespace ReconOS.Aml

abbrev Bytes := List UInt8

/-- A name segment up to its NUL, without the padding behind it. -/
abbrev Name := List UInt8

def maxDevices : Nat := 64
def maxMethods : Nat := 192
def maxNames : Nat := 256

/-- `struct aml_method`. -/
structure Method where
  name : Name
  device : Name
  args : Nat
  body : Bytes
  deriving DecidableEq, Repr

/-- `struct aml_name`: a name that is an object, and the bytes of it. -/
structure Named where
  name : Name
  device : Name
  object : Bytes
  deriving DecidableEq, Repr

/-- What a table declares by a name. -/
inductive Decl where
  | method (m : Method)
  | object (n : Named)
  deriving DecidableEq, Repr

def Decl.name : Decl → Name
  | .method m => m.name
  | .object n => n.name

def Decl.device : Decl → Name
  | .method m => m.device
  | .object n => n.device

/-- `struct aml_state`, as far as names go. `declared` is every declaration that the walk met, kept or
not; no code reads it. -/
structure State where
  methods : List Method
  names : List Named
  devices : Nat
  declared : List Decl

def State.empty : State := ⟨[], [], 0, []⟩

/-! ## Pieces -/

/-- `pkg_length`: what remains of a package after its length, and the cursor past that. -/
def pkgLength (c : Bytes) : Option (Nat × Bytes) :=
  match c with
  | [] => none
  | lead :: rest =>
    let follow := lead.toNat / 64
    if rest.length < follow then none
    else
      let more := (List.range follow).map fun i => (rest.getD i 0).toNat <<< (4 + i * 8)
      let v := if follow = 0 then lead.toNat % 64 else lead.toNat % 16 + more.foldr (· + ·) 0
      if v < 1 + follow then none else some (v - (1 + follow), rest.drop follow)

/-- The package's own bytes and the cursor past them. -/
def package (c : Bytes) : Option (Bytes × Bytes) :=
  match pkgLength c with
  | none => none
  | some (len, rest) => if rest.length < len then none else some (rest.take len, rest.drop len)

/-- A segment as a C string, its padding dropped. -/
def segment (bytes : Bytes) : Name :=
  (bytes.reverse.dropWhile (· == 0x5F)).reverse.takeWhile (· != 0)

def segments (count : Nat) (c : Bytes) : Option (Name × Bytes) :=
  if c.length < count * 4 then none
  else
    let c := c.drop ((count - 1) * 4)
    some (segment (c.take 4), c.drop 4)

/-- `name_string`: the last segment. -/
def nameString (c : Bytes) : Option (Name × Bytes) :=
  match c.dropWhile fun b => b == 0x5C || b == 0x5E with
  | [] => none
  | 0x00 :: rest => some ([], rest)
  | 0x2E :: rest => segments 2 rest
  | 0x2F :: rest =>
    match rest with
    | [] => none
    | count :: rest => if count = 0 then none else segments count.toNat rest
  | c => segments 1 c

def skip (n : Nat) (c : Bytes) : Option Bytes := if c.length < n then none else some (c.drop n)

/-- `data_object`: the cursor past a constant, and its value where it is a number. -/
def dataObject (c : Bytes) : Option (Bytes × Bool) :=
  match c with
  | [] => none
  | 0x00 :: rest | 0x01 :: rest | 0xFF :: rest => some (rest, true)
  | 0x0A :: rest => (skip 1 rest).map (·, true)
  | 0x0B :: rest => (skip 2 rest).map (·, true)
  | 0x0C :: rest => (skip 4 rest).map (·, true)
  | 0x0E :: rest => (skip 8 rest).map (·, true)
  | 0x0D :: rest =>
    match rest.dropWhile (· != 0) with
    | [] => none
    | _ :: rest => some (rest, false)
  | 0x11 :: rest | 0x12 :: rest | 0x13 :: rest => (package rest).map fun p => (p.2, false)
  | _ => none

/-- `read_sleep_package`, by where it leaves the cursor. -/
def readSleepPackage (c : Bytes) : Bytes :=
  match c with
  | 0x12 :: rest =>
    match pkgLength rest with
    | none => rest
    | some (len, rest) => if rest.length < len then rest else rest.drop len
  | c => c

/-! ## Declarations -/

/-- `_S1` to `_S5`. -/
def isSleep : Name → Bool
  | [0x5F, 0x53, d] => 0x31 ≤ d && d ≤ 0x35
  | _ => false

/-- `_HID`. -/
def hid : Name := [0x5F, 0x48, 0x49, 0x44]

/-- The bytes that a cursor was moved over. -/
def passed (before after : Bytes) : Bytes := before.take (before.length - after.length)

/-- A device's name as it is copied into an entry; outside any there is none. -/
def deviceOf (device : Option Name) : Name := device.getD []

/-- An object kept, where there is room. -/
def State.keepName (s : State) (n : Named) : State :=
  { s with
    names := if s.names.length < maxNames then s.names ++ [n] else s.names
    declared := s.declared ++ [.object n] }

/-- An object that is put elsewhere. -/
def State.passName (s : State) (n : Named) (devices : Nat) : State :=
  { s with devices := devices, declared := s.declared ++ [.object n] }

def State.keepMethod (s : State) (m : Method) : State :=
  { s with
    methods := if s.methods.length < maxMethods then s.methods ++ [m] else s.methods
    declared := s.declared ++ [.method m] }

/-- `OP_NAME`. -/
def nameTerm (device : Option Name) (c : Bytes) (s : State) : Option (Bytes × State) :=
  match nameString c with
  | none => none
  | some (name, c) =>
    if isSleep name = true then
      let after := readSleepPackage c
      some (after, s.passName ⟨name, deviceOf device, passed c after⟩ s.devices)
    else
      match dataObject c with
      | none => none
      | some (after, _) =>
        let n : Named := ⟨name, deviceOf device, passed c after⟩
        if name = hid ∧ device.isSome = true ∧ s.devices < maxDevices then
          some (after, s.passName n (s.devices + 1))
        else some (after, s.keepName n)

/-- `OP_METHOD`. A header that cannot be read is stepped over. -/
def methodTerm (device : Option Name) (c : Bytes) (s : State) : Option (Bytes × State) :=
  match pkgLength c with
  | none => none
  | some (len, c) =>
    if c.length < len then none
    else
      let after := c.drop len
      match nameString c with
      | none => some (after, s)
      | some (_, []) => some (after, s)
      | some (name, flags :: body) =>
        -- the header may have run on past the package
        if body.length < after.length then some (after, s)
        else
          some (after, s.keepMethod
            ⟨name, deviceOf device, flags.toNat % 8, body.take (body.length - after.length)⟩)

/-- `term`, with the walk that goes into what it holds. `none` stops the walk. -/
def term (inner : Option Name → Bytes → State → State) (device : Option Name) (c : Bytes)
    (s : State) : Option (Bytes × State) :=
  match c with
  | [] => none
  | 0x08 :: c => nameTerm device c s
  | 0x10 :: c =>
    match package c with
    | none => none
    | some (held, after) =>
      match nameString held with
      | none => none
      | some (_, held) => some (after, inner device held s)
  | 0x14 :: c => methodTerm device c s
  | 0xA0 :: c | 0xA1 :: c | 0xA2 :: c => (package c).map fun p => (p.2, s)
  | 0x06 :: c =>
    match nameString c with
    | none => none
    | some (_, c) => (nameString c).map fun p => (p.2, s)
  | 0x15 :: c =>
    match nameString c with
    | none => none
    | some (_, c) => (skip 2 c).map (·, s)
  | 0x5B :: c =>
    match c with
    | 0x82 :: c =>
      match package c with
      | none => none
      | some (held, after) =>
        match nameString held with
        | none => none
        | some (child, held) => some (after, inner (some child) held s)
    | 0x81 :: c | 0x86 :: c | 0x87 :: c | 0x83 :: c | 0x84 :: c | 0x85 :: c =>
      (package c).map fun p => (p.2, s)
    | 0x80 :: c =>
      match nameString c with
      | none => none
      | some (_, c) =>
        match skip 1 c with
        | none => none
        | some c =>
          match dataObject c with
          | none => none
          | some (c, _) => (dataObject c).map fun p => (p.1, s)
    | 0x01 :: c =>
      match nameString c with
      | none => none
      | some (_, c) => (skip 1 c).map (·, s)
    | 0x02 :: c => (nameString c).map fun p => (p.2, s)
    | _ => none
  | _ => none

/-- The loop of `walk`. Each term takes a byte at least, so the length bounds the rounds. -/
def walkLoop (inner : Option Name → Bytes → State → State) (device : Option Name) :
    Nat → Bytes → State → State
  | 0, _, s => s
  | _ + 1, [], s => s
  | n + 1, c, s =>
    match term inner device c s with
    | none => s
    | some (after, s) => if after.length = c.length then s else walkLoop inner device n after s

/-- `walk`, with so many depths left. -/
def walk : Nat → Option Name → Bytes → State → State
  | 0, _, _, s => s
  | left + 1, device, c, s => walkLoop (walk left) device c.length c s

/-- `aml_init`, on the bytes behind the table's header. Nothing is entered past a depth of 16. -/
def amlInit (table : Bytes) : State := walk 17 none table .empty

/-! Which declaration a name is, in a method of a device. -/

variable {s s' : State} {device : Option Name} {c after : Bytes} {d name : Name}
  {inner : Option Name → Bytes → State → State}

/-! ## The two searches -/

/-- The search that both tables have: the device's own entries first, then any. -/
def deviceFirst {α : Type} (name_ device_ : α → Name) (table : List α) (device name : Name) :
    Option α :=
  match if device ≠ [] then table.find? fun a => name_ a = name ∧ device_ a = device else none with
  | some a => some a
  | none => table.find? fun a => name_ a = name

def findMethod (s : State) (device name : Name) : Option Method :=
  deviceFirst Method.name Method.device s.methods device name

def findName (s : State) (device name : Name) : Option Named :=
  deviceFirst Named.name Named.device s.names device name

/-- What `eval_term` takes a name for: a method to call, or an object to read. -/
def used (s : State) (device name : Name) : Option Decl :=
  match findMethod s device name with
  | some m => some (.method m)
  | none => (findName s device name).map .object

/-- The device that the body of a method is evaluated in. -/
def context (m : Name) (caller : Name) : Name := if m ≠ [] then m else caller

/-! ## What is to hold -/

/-- It is one of the device's own. -/
def OwnedBy (s : State) (d name : Name) (decl : Decl) : Prop :=
  decl ∈ s.declared ∧ decl.device = d ∧ decl.name = name

/-- A name that the device declares, evaluated in one of its methods, is one of its declarations. -/
def Nearest (s : State) (d name : Name) : Prop :=
  (∃ decl, OwnedBy s d name decl) →
    ∀ caller, ∃ decl, used s (context d caller) name = some decl ∧ OwnedBy s d name decl

/-- The devices of the entries of a table that have a name. -/
def devicesOf {α : Type} (name_ device_ : α → Name) (table : List α) (name : Name) : List Name :=
  (table.filter fun a => name_ a = name).map device_

def methodDevices (s : State) (name : Name) : List Name :=
  devicesOf Method.name Method.device s.methods name

def nameDevices (s : State) (name : Name) : List Name :=
  devicesOf Named.name Named.device s.names name

/-- The device is one of them; and where its name is all padding, the only one. -/
def Reached (d : Name) (devices : List Name) : Prop := d ∈ devices ∧ (d = [] → ∀ x ∈ devices, x = [])

/-- A method of the device is kept by the name, or none at all is and an object of the device is. -/
def Found (s : State) (d name : Name) : Prop :=
  Reached d (methodDevices s name) ∨
    methodDevices s name = [] ∧ Reached d (nameDevices s name)

/-! ## What is kept was declared -/

structure Kept (s : State) : Prop where
  methods : ∀ m ∈ s.methods, .method m ∈ s.declared
  names : ∀ n ∈ s.names, .object n ∈ s.declared

theorem Kept.keepName (kept : Kept s) (n : Named) : Kept (s.keepName n) where
  methods m mem := List.mem_append_left _ (kept.methods m mem)
  names o mem := by
    change o ∈ (if s.names.length < maxNames then s.names ++ [n] else s.names) at mem
    split at mem
    · cases List.mem_append.1 mem with
      | inl old => exact List.mem_append_left _ (kept.names o old)
      | inr new =>
        cases List.mem_singleton.1 new
        exact List.mem_append_right _ (List.mem_singleton.2 rfl)
    · exact List.mem_append_left _ (kept.names o mem)

theorem Kept.passName (kept : Kept s) (n : Named) (devices : Nat) : Kept (s.passName n devices) where
  methods m mem := List.mem_append_left _ (kept.methods m mem)
  names o mem := List.mem_append_left _ (kept.names o mem)

theorem Kept.keepMethod (kept : Kept s) (m : Method) : Kept (s.keepMethod m) where
  methods o mem := by
    change o ∈ (if s.methods.length < maxMethods then s.methods ++ [m] else s.methods) at mem
    split at mem
    · cases List.mem_append.1 mem with
      | inl old => exact List.mem_append_left _ (kept.methods o old)
      | inr new =>
        cases List.mem_singleton.1 new
        exact List.mem_append_right _ (List.mem_singleton.2 rfl)
    · exact List.mem_append_left _ (kept.methods o mem)
  names n mem := List.mem_append_left _ (kept.names n mem)

theorem nameTerm_kept (kept : Kept s) (read : nameTerm device c s = some (after, s')) : Kept s' := by
  unfold nameTerm at read
  split at read
  · cases read
  · split at read
    · cases read
      exact kept.passName _ _
    · split at read
      · cases read
      · dsimp only at read
        split at read
        · cases read
          exact kept.passName _ _
        · cases read
          exact kept.keepName _

theorem methodTerm_kept (kept : Kept s) (read : methodTerm device c s = some (after, s')) :
    Kept s' := by
  unfold methodTerm at read
  split at read
  · cases read
  · split at read
    · cases read
    · dsimp only at read
      split at read
      · cases read
        exact kept
      · cases read
        exact kept
      · split at read
        · cases read
          exact kept
        · cases read
          exact kept.keepMethod _

/-- A term that declares nothing leaves the state. -/
theorem kept_map {α : Type} {o : Option α} {f : α → Bytes} (kept : Kept s)
    (read : (o.map fun p => (f p, s)) = some (after, s')) : Kept s' := by
  cases o with
  | none => cases read
  | some p =>
    cases read
    exact kept

theorem term_kept (walks : ∀ device c s, Kept s → Kept (inner device c s)) (kept : Kept s)
    (read : term inner device c s = some (after, s')) : Kept s' := by
  unfold term at read
  split at read
  · cases read
  · exact nameTerm_kept kept read
  · split at read
    · cases read
    · split at read
      · cases read
      · cases read
        exact walks _ _ _ kept
  · exact methodTerm_kept kept read
  iterate 3 exact kept_map kept read
  · split at read
    · cases read
    · exact kept_map kept read
  · split at read
    · cases read
    · exact kept_map kept read
  · split at read
    · split at read
      · cases read
      · split at read
        · cases read
        · cases read
          exact walks _ _ _ kept
    iterate 6 exact kept_map kept read
    · split at read
      · cases read
      · split at read
        · cases read
        · split at read
          · cases read
          · exact kept_map kept read
    · split at read
      · cases read
      · exact kept_map kept read
    · exact kept_map kept read
    · cases read
  · cases read

theorem walkLoop_kept (walks : ∀ device c s, Kept s → Kept (inner device c s)) (kept : Kept s)
    (n : Nat) (c : Bytes) : Kept (walkLoop inner device n c s) := by
  induction n generalizing c s with
  | zero => exact kept
  | succ n ih =>
    cases c with
    | nil => exact kept
    | cons b c =>
      unfold walkLoop
      split
      · exact kept
      · rename_i after s' read
        have kept' := term_kept walks kept read
        split
        · exact kept'
        · exact ih kept' after

theorem walk_kept (left : Nat) (device : Option Name) (c : Bytes) (s : State) (kept : Kept s) :
    Kept (walk left device c s) := by
  induction left generalizing device c s with
  | zero => exact kept
  | succ left ih => exact walkLoop_kept ih kept c.length c

theorem empty_kept : Kept .empty where
  methods m mem := by cases mem
  names n mem := by cases mem

theorem amlInit_kept (table : Bytes) : Kept (amlInit table) := walk_kept 17 none table .empty empty_kept

/-! ## Searching -/

section
variable {α : Type} {name_ device_ : α → Name} {table : List α} {a : α}

theorem mem_devicesOf : d ∈ devicesOf name_ device_ table name ↔
    ∃ a ∈ table, name_ a = name ∧ device_ a = d := by
  unfold devicesOf
  rw [List.mem_map]
  constructor
  · rintro ⟨a, mem, eq⟩
    obtain ⟨mem, named⟩ := List.mem_filter.1 mem
    exact ⟨a, mem, by simpa using named, eq⟩
  · rintro ⟨a, mem, named, eq⟩
    exact ⟨a, List.mem_filter.2 ⟨mem, by simpa using named⟩, eq⟩

theorem find_named (found : table.find? (fun a => name_ a = name) = some a) :
    a ∈ table ∧ name_ a = name :=
  ⟨List.mem_of_find?_eq_some found, by simpa using List.find?_some found⟩

/-- What is found is in the table, and has the name. -/
theorem deviceFirst_mem (found : deviceFirst name_ device_ table d name = some a) :
    a ∈ table ∧ name_ a = name := by
  unfold deviceFirst at found
  split at found
  · rename_i b own
    cases found
    split at own
    · have both := List.find?_some own
      simp only [Bool.decide_and, Bool.and_eq_true, decide_eq_true_eq] at both
      exact ⟨List.mem_of_find?_eq_some own, both.1⟩
    · cases own
  · exact find_named found

/-- Where the device has an entry by the name, one of its own is found. -/
theorem deviceFirst_own (some_ : d ≠ []) (own : d ∈ devicesOf name_ device_ table name) :
    ∃ a, deviceFirst name_ device_ table d name = some a ∧ device_ a = d := by
  obtain ⟨a, mem, named, mine⟩ := mem_devicesOf.1 own
  unfold deviceFirst
  rw [if_pos some_]
  cases found : table.find? fun a => name_ a = name ∧ device_ a = d with
  | none =>
    have := List.find?_eq_none.1 found a mem
    simp [named, mine] at this
  | some b =>
    have both := List.find?_some found
    simp only [Bool.decide_and, Bool.and_eq_true, decide_eq_true_eq] at both
    exact ⟨b, rfl, both.2⟩

/-- Nothing is found just where no entry has the name. -/
theorem deviceFirst_none : deviceFirst name_ device_ table d name = none ↔
    devicesOf name_ device_ table name = [] := by
  constructor
  · intro none_
    unfold deviceFirst at none_
    split at none_
    · cases none_
    · rw [devicesOf, List.map_eq_nil_iff, List.filter_eq_nil_iff]
      exact List.find?_eq_none.1 none_
  · intro none_
    cases found : deviceFirst name_ device_ table d name with
    | none => rfl
    | some a =>
      obtain ⟨mem, named⟩ := deviceFirst_mem found
      have here : device_ a ∈ devicesOf name_ device_ table name :=
        mem_devicesOf.2 ⟨a, mem, named, rfl⟩
      rw [none_] at here
      cases here

/-- Evaluated in a device's methods, whoever calls them, a name is found among the device's own
entries just where one is there, and for a device with no name no other is. -/
theorem deviceFirst_context :
    (∀ caller, ∃ a, deviceFirst name_ device_ table (context d caller) name = some a ∧
      device_ a = d) ↔ Reached d (devicesOf name_ device_ table name) := by
  constructor
  · intro found
    obtain ⟨a, found_, mine⟩ := found []
    obtain ⟨mem, named⟩ := deviceFirst_mem found_
    refine ⟨mem_devicesOf.2 ⟨a, mem, named, mine⟩, ?_⟩
    rintro rfl x other
    by_contra some_
    obtain ⟨a, found_, mine⟩ := found x
    obtain ⟨b, found', theirs⟩ := deviceFirst_own some_ other
    cases found_.symm.trans found'
    exact some_ (theirs.symm.trans mine)
  · rintro ⟨own, only⟩ caller
    by_cases some_ : d ≠ []
    · rw [context, if_pos some_]
      exact deviceFirst_own some_ own
    · rw [context, if_neg some_]
      have none_ := not_not.1 some_
      cases found : deviceFirst name_ device_ table caller name with
      | none =>
        rw [deviceFirst_none] at found
        rw [found] at own
        cases own
      | some a =>
        obtain ⟨mem, named⟩ := deviceFirst_mem found
        exact ⟨a, rfl, (only none_ _ (mem_devicesOf.2 ⟨a, mem, named, rfl⟩)).trans none_.symm⟩

end

/-- In every table, a name that a device declares is its own declaration where the device has a method
kept by it, or no method at all is kept by it and the device has an object kept; and only then. -/
theorem nearest_declaration (table : Bytes) (d name : Name) :
    Nearest (amlInit table) d name ↔
      ((∃ decl, OwnedBy (amlInit table) d name decl) → Found (amlInit table) d name) := by
  have kept := amlInit_kept table
  generalize amlInit table = s at kept ⊢
  unfold Nearest
  apply imp_congr_right
  intro _
  unfold Found
  constructor
  · intro nearest
    by_cases none_ : methodDevices s name = []
    · refine .inr ⟨none_, deviceFirst_context.1 ?_⟩
      intro caller
      obtain ⟨decl, is, -, mine, -⟩ := nearest caller
      have no_method : findMethod s (context d caller) name = none := deviceFirst_none.2 none_
      unfold used at is
      rw [no_method] at is
      obtain ⟨n, found, rfl⟩ := Option.map_eq_some_iff.1 is
      exact ⟨n, found, mine⟩
    · refine .inl (deviceFirst_context.1 ?_)
      intro caller
      obtain ⟨decl, is, -, mine, -⟩ := nearest caller
      unfold used at is
      cases found : findMethod s (context d caller) name with
      | none => exact absurd (deviceFirst_none.1 found) none_
      | some m =>
        rw [found] at is
        cases is
        exact ⟨m, found, mine⟩
  · rintro (methods | ⟨none_, names⟩) caller
    · obtain ⟨m, found, mine⟩ := deviceFirst_context.2 methods caller
      obtain ⟨mem, named⟩ := deviceFirst_mem found
      refine ⟨.method m, ?_, kept.methods m mem, mine, named⟩
      unfold used
      rw [show findMethod s (context d caller) name = some m from found]
    · obtain ⟨n, found, mine⟩ := deviceFirst_context.2 names caller
      obtain ⟨mem, named⟩ := deviceFirst_mem found
      refine ⟨.object n, ?_, kept.names n mem, mine, named⟩
      unfold used
      rw [show findMethod s (context d caller) name = none from deviceFirst_none.2 none_,
        show findName s (context d caller) name = some n from found]
      rfl

/-- `Device (DEV0) { Name (_STA, 15) }`, and `Device (DEV1) { Method (_STA) { Return (0) } }`. -/
def twoDevices : Bytes :=
  [0x5B, 0x82, 0x0C, 0x44, 0x45, 0x56, 0x30, 0x08, 0x5F, 0x53, 0x54, 0x41, 0x0A, 0x0F,
    0x5B, 0x82, 0x0E, 0x44, 0x45, 0x56, 0x31, 0x14, 0x08, 0x5F, 0x53, 0x54, 0x41, 0x00, 0xA4, 0x00]

/-- The first device's own object is passed by for the other one's method. -/
theorem other_method_used :
    ¬Nearest (amlInit twoDevices) [0x44, 0x45, 0x56, 0x30] [0x5F, 0x53, 0x54, 0x41] := by
  intro nearest
  have mine : OwnedBy (amlInit twoDevices) [0x44, 0x45, 0x56, 0x30] [0x5F, 0x53, 0x54, 0x41]
      (.object ⟨[0x5F, 0x53, 0x54, 0x41], [0x44, 0x45, 0x56, 0x30], [0x0A, 0x0F]⟩) := by
    refine ⟨?_, rfl, rfl⟩
    decide +kernel
  obtain ⟨decl, is, -, device, -⟩ := nearest ⟨_, mine⟩ []
  have other : (used (amlInit twoDevices) (context [0x44, 0x45, 0x56, 0x30] [])
      [0x5F, 0x53, 0x54, 0x41]).map Decl.device = some [0x44, 0x45, 0x56, 0x31] := by
    decide +kernel
  rw [is, Option.map_some, device] at other
  exact absurd other (by decide)

end ReconOS.Aml
