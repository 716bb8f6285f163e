import ReconOS.Users.File
import ReconOS.Users.Accounts

/-! What a call can do: it is refused, it is not saved, it changes one account, or somebody else is
signed in. -/
namespace ReconOS.Users
open Libc Lib

/-! ## Saving -/

theorem Table.put_back {t : Table} {i : Nat} {slot : Option Account} (here : t.slots[i]? = some slot)
    (new : Option Account) {change undo : Int} (zero : change + undo = 0) :
    (t.put i new change).put i slot undo = t := by
  obtain ⟨inside, is⟩ := List.getElem?_eq_some_iff.mp here
  refine Table.ext ?_ ?_
  · rw [Table.put, Table.put]
    dsimp only
    rw [List.set_set, ← is, List.set_getElem_self]
  · rw [Table.put, Table.put]
    dsimp only
    omega

/-- A change is saved, or all there is of it is that it was not. -/
theorem saveOr_eq {u : State} {changed undo : Table → Table}
    (back : undo (changed u.table) = u.table) (lands : Bool) :
    saveOr u changed undo lands =
      if u.seat.admin && lands then
        (true, { u with
          table := changed u.table, file := some (saveText (changed u.table).accounts)
          saved := some true })
      else (false, { u with saved := some false }) := by
  unfold saveOr save
  dsimp only
  by_cases may : (u.seat.admin && lands) = true
  · rw [if_pos may, if_pos may]
    rfl
  · rw [if_neg may, if_neg may]
    simp [back]

/-! ## Names -/

/-- Names that are the same are the same as the same others. -/
theorem sameText_congr {a b : Text} (same : sameText a b = true) (c : Text) :
    sameText c a = sameText c b := by
  rw [sameText, decide_eq_true_eq] at same
  rw [sameText, sameText, same]

theorem Table.find_account {t : Table} {name : Text} {i : Nat} (is : t.find name = some i) :
    ∃ a, t.account name = some a ∧ t.slots[i]? = some (some a) ∧ sameText a.name name = true := by
  obtain ⟨inside, named, -⟩ := List.findIdx?_eq_some_iff_getElem.mp is
  rw [isNamed, Option.any_eq_true] at named
  obtain ⟨a, here, same⟩ := named
  refine ⟨a, ?_, ?_, same⟩
  · rw [Table.account, is, Option.bind_some, List.getElem?_eq_getElem inside, here]
    rfl
  · rw [List.getElem?_eq_getElem inside, here]

theorem Table.account_of_find_none {t : Table} {name : Text} (is : t.find name = none) :
    t.account name = none := by
  rw [Table.account, is]
  rfl

/-! ## One account -/

theorem absent_differ {t : Table} {a : Account} (absent : (t.find a.name).isSome = false) :
    ∀ b ∈ t.accounts, Differ b a := by
  rw [t.find_isSome, List.any_eq_false] at absent
  intro b inside
  simpa [Differ] using absent b inside

/-- Another role or secret is no other name. -/
theorem Distinct.replace {front back : List Account} {a b : Account}
    (distinct : Distinct (front ++ a :: back)) (same : b.name = a.name) :
    Distinct (front ++ b :: back) := by
  unfold Distinct at *
  rw [List.pairwise_middle differ_symm, List.pairwise_cons] at *
  unfold Differ at *
  rw [same]
  exact distinct

/-- What has to hold for an account to be made: of its name and of what is asked for, and that it
is saved. -/
structure Accepted (u : State) (name password : Text) (salt : Option (Bytes saltSize))
    (folders lands : Bool) : Prop where
  valid : nameIsValid name = true
  absent : (u.table.find name).isSome = false
  room : u.table.count < usersMax
  random : password = [] ∨ salt.isSome = true
  folders : folders = true
  may : u.seat.admin = true
  lands : lands = true

/-- One account more or fewer, or another role or secret for one that there is. -/
inductive Change (u : State) (c : Call) (t : Table) : Prop where
  | created (a : Account) (password : Text) (salt : Option (Bytes saltSize)) (folders lands : Bool)
      (call : c = .create a.name password a.role salt folders lands)
      (accepted : Accepted u a.name password salt folders lands) (front back : List Account)
      (before : u.table.accounts = front ++ back) (after : t.accounts = front ++ a :: back)
      (count : t.count = u.table.count + 1)
  | removed (a : Account) (apart : u.current ≠ [] → sameText u.current a.name = false)
      (spare : a.role = .administrator → 1 < u.table.adminCount) (front back : List Account)
      (before : u.table.accounts = front ++ a :: back) (after : t.accounts = front ++ back)
      (count : t.count = u.table.count - 1)
  | reroled (a : Account) (name : Text) (role : Role) (call : c = .setRole name role true)
      (named : sameText a.name name = true)
      (spare : a.role = .administrator → role ≠ .administrator → 1 < u.table.adminCount)
      (front back : List Account) (before : u.table.accounts = front ++ a :: back)
      (after : t.accounts = front ++ { a with role } :: back) (count : t.count = u.table.count)
  | rekeyed (a : Account) (secret : Option Secret) (front back : List Account)
      (before : u.table.accounts = front ++ a :: back)
      (after : t.accounts = front ++ { a with secret } :: back) (count : t.count = u.table.count)

inductive Effect (u : State) (c : Call) : Bool × State → Prop where
  | refused : Effect u c (false, u)
  | unsaved : Effect u c (false, { u with saved := some false })
  | changed (ok : Bool) (t : Table) (may : u.seat.admin = true) (change : Change u c t) :
      Effect u c (ok, { u with
        table := t, file := some (saveText t.accounts), saved := some true })
  | signedIn (a : Account) (known : a ∈ u.table.accounts) :
      Effect u c (true, { u with current := a.name, seat := ⟨a.name, a.role = .administrator⟩ })
  | signedOut : Effect u c (true, logout u)

variable {derive : Text → Bytes saltSize → Nat → Bytes hashSize} {u : State}

theorem newSecret_some {password : Text} {salt : Option (Bytes saltSize)} {secret : Option Secret}
    (is : newSecret derive password salt = some secret) : password = [] ∨ salt.isSome = true := by
  unfold newSecret at is
  split at is
  case isTrue empty => exact .inl empty
  case isFalse =>
    cases salt with
    | none => cases is
    | some salt => exact .inr rfl

/-- A saved change of one slot, or none. -/
theorem saveOr_effect {c : Call} {i : Nat} {old : Option Account} (new : Option Account)
    (here : u.table.slots[i]? = some old) {change undo : Int} (zero : change + undo = 0)
    {lands : Bool}
    (is : u.seat.admin = true → lands = true → Change u c (u.table.put i new change)) :
    Effect u c (saveOr u (·.put i new change) (·.put i old undo) lands) := by
  rw [saveOr_eq (Table.put_back here new zero)]
  split
  case isTrue both =>
    rw [Bool.and_eq_true] at both
    exact .changed true _ both.1 (is both.1 both.2)
  case isFalse => exact .unsaved

theorem create_effect (name password : Text) (role : Role) (salt : Option (Bytes saltSize))
    (folders lands : Bool) :
    Effect u (.create name password role salt folders lands)
      (create derive u name password role salt folders lands) := by
  unfold create
  split
  case isFalse => exact .refused
  case isTrue valid =>
    split
    case isTrue => exact .refused
    case isFalse absent =>
      split
      case isTrue => exact .refused
      case isFalse room =>
        split
        case h_1 i secret free made =>
          split
          case isFalse => exact .refused
          case isTrue foldersMade =>
            have here := Slots.firstFree_some free
            apply saveOr_effect _ here (by omega)
            intro may landed
            obtain ⟨front, back, before, after⟩ :=
              Table.accounts_put here (some ⟨name, valid, role, secret⟩) 1
            refine .created ⟨name, valid, role, secret⟩ password salt folders lands rfl
              ⟨valid, by simpa using absent, by omega, newSecret_some made, foldersMade, may,
                landed⟩ front back ?_ ?_ rfl
            · simpa using before
            · simpa using after
        case h_2 => exact .refused

theorem remove_effect (name : Text) (deleteFiles lands emptied : Bool) :
    Effect u (.remove name deleteFiles lands emptied) (remove u name deleteFiles lands emptied) := by
  unfold remove
  cases found : u.table.find name with
  | none => exact .refused
  | some i =>
    obtain ⟨a, account, here, named⟩ := Table.find_account found
    rw [account]
    dsimp only
    split
    case isTrue => exact .refused
    case isFalse apart =>
      split
      case isTrue => exact .refused
      case isFalse spare =>
        rw [saveOr_eq (Table.put_back here none (by omega))]
        split
        case isFalse => exact .unsaved
        case isTrue both =>
          rw [Bool.and_eq_true] at both
          obtain ⟨front, back, before, after⟩ := Table.accounts_put here none (-1)
          refine .changed _ _ both.1 (.removed a ?_ ?_ front back ?_ ?_ rfl)
          · intro someone
            rw [sameText_congr named]
            simpa [someone] using apart
          · intro admin
            simpa [admin] using spare
          · simpa using before
          · simpa using after

theorem setRole_effect (name : Text) (role : Role) (lands : Bool) :
    Effect u (.setRole name role lands) (setRole u name role lands) := by
  unfold setRole
  cases found : u.table.find name with
  | none => exact .refused
  | some i =>
    obtain ⟨a, account, here, named⟩ := Table.find_account found
    rw [account]
    dsimp only
    split
    case isTrue => exact .refused
    case isFalse spare =>
      apply saveOr_effect _ here (by omega)
      intro _ landed
      obtain ⟨front, back, before, after⟩ := Table.accounts_put here (some { a with role }) 0
      refine .reroled a name role (by rw [landed]) named ?_ front back ?_ ?_ (Int.add_zero _)
      · intro admin other
        simpa [admin, other] using spare
      · simpa using before
      · simpa using after

theorem setPassword_effect (name password : Text) (salt : Option (Bytes saltSize)) (lands : Bool) :
    Effect u (.setPassword name password salt lands)
      (setPassword derive u name password salt lands) := by
  unfold setPassword
  cases found : u.table.find name with
  | none => exact .refused
  | some i =>
    obtain ⟨a, account, here, -⟩ := Table.find_account found
    rw [account]
    dsimp only
    split
    case h_2 => exact .refused
    case h_1 secret _ =>
      apply saveOr_effect _ here (by omega)
      intro _ _
      obtain ⟨front, back, before, after⟩ := Table.accounts_put here (some { a with secret }) 0
      refine .rekeyed a secret front back ?_ ?_ (Int.add_zero _)
      · simpa using before
      · simpa using after

theorem login_effect (name password : Text) :
    Effect u (.login name password) (login derive u name password) := by
  unfold login
  split
  case isFalse => exact .refused
  case isTrue =>
    split
    case h_2 => exact .refused
    case h_1 a account =>
      rw [Table.account_eq] at account
      exact .signedIn a (List.mem_of_find?_eq_some account)

/-- **All that a call can do.** -/
theorem called_effect (derive : Text → Bytes saltSize → Nat → Bytes hashSize) (u : State)
    (c : Call) : Effect u c (called derive u c) := by
  cases c with
  | create => exact create_effect ..
  | remove => exact remove_effect ..
  | setRole => exact setRole_effect ..
  | setPassword => exact setPassword_effect ..
  | login => exact login_effect ..
  | logout => exact .signedOut

end ReconOS.Users
