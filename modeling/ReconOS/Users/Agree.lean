import ReconOS.Users.Effect

/-! Two ideas of who may administer: the filesystem's, and the account list's. -/
namespace ReconOS.Users
open Libc Lib

inductive Move where
  /-- `recon_users_init`, with what it reads. -/
  | init (read : Option Text)
  | call (c : Call)

def moved (derive : Text → Bytes saltSize → Nat → Bytes hashSize) (u : State) : Move → State
  | .init read => init read u
  | .call c => step derive u c

/-- The two are the same, and so is who is signed in where anybody is. -/
structure Agrees (u : State) : Prop where
  admin : u.seat.admin = mayAdminister u
  user : u.current ≠ [] → u.seat.user = u.current

/-- Whoever is signed in has an account. -/
structure Seated (u : State) : Prop where
  distinct : Distinct u.table.accounts
  known : u.current ≠ [] → ∃ a ∈ u.table.accounts, a.name = u.current

variable {derive : Text → Bytes saltSize → Nat → Bytes hashSize} {u : State}

/-! ## The account of a name -/

theorem account_of_mem {t : Table} (distinct : Distinct t.accounts) {a : Account}
    (inside : a ∈ t.accounts) {name : Text} (named : sameText a.name name = true) :
    t.account name = some a := by
  rw [t.account_eq]
  obtain ⟨front, back, parts⟩ := List.append_of_mem inside
  rw [parts] at distinct ⊢
  have before : ∀ b ∈ front, ¬sameText b.name name = true := by
    intro b inFront
    have differ := (List.pairwise_append.mp distinct).2.2 b inFront a List.mem_cons_self
    rw [← sameText_congr named]
    simpa [Differ] using differ
  rw [List.find?_append, List.find?_eq_none.mpr before, Option.none_or]
  exact List.find?_cons_of_pos named

theorem mayAdminister_of_mem (distinct : Distinct u.table.accounts) {a : Account}
    (inside : a ∈ u.table.accounts) (is : a.name = u.current) :
    mayAdminister u = decide (a.role = .administrator) := by
  obtain ⟨c, rest, name, -⟩ := a.head
  have someone : u.current ≠ [] := by
    rw [← is, name]
    exact List.cons_ne_nil c rest
  unfold mayAdminister currentIsAdmin
  rw [account_of_mem distinct inside (is ▸ sameText_refl _)]
  simp [someone]

theorem mayAdminister_nobody (nobody : u.current = []) : mayAdminister u = true := by
  simp [mayAdminister, nobody]

/-! ## What a call does to them -/

/-- A signed-in administrator gives the role up, another being left to have it. -/
structure StepsDown (u : State) (name : Text) (role : Role) (lands : Bool) : Prop where
  own : u.current ≠ [] ∧ sameText u.current name = true
  admin : currentIsAdmin u = true
  gives : role ≠ .administrator
  spare : 1 < u.table.adminCount
  lands : lands = true

/-- Where the two stay the same: the list is not read again with a limited account signed in, and
nobody signed in steps down. -/
def InStep (u : State) : Move → Prop
  | .init _ => mayAdminister u = true
  | .call (.setRole name role lands) => ¬StepsDown u name role lands
  | _ => True

/-- An account that is signed in stays what it was, or nobody is signed in. -/
theorem Seated.keep {v : State} (seated : Seated u) (agrees : Agrees u)
    (distinct : Distinct v.table.accounts) (current : v.current = u.current)
    (seat : v.seat = u.seat)
    (kept : ∀ a ∈ u.table.accounts, a.name = u.current →
      ∃ b ∈ v.table.accounts, b.name = a.name ∧ b.role = a.role) : Seated v ∧ Agrees v := by
  by_cases nobody : u.current = []
  · constructor
    · exact ⟨distinct, fun someone => absurd (current.trans nobody) someone⟩
    · constructor
      · rw [mayAdminister_nobody (current.trans nobody), seat, agrees.admin,
          mayAdminister_nobody nobody]
      · exact fun someone => absurd (current.trans nobody) someone
  · obtain ⟨a, inside, is⟩ := seated.known nobody
    obtain ⟨b, inside', name, role⟩ := kept a inside is
    have is' : b.name = v.current := by rw [name, is, current]
    constructor
    · exact ⟨distinct, fun _ => ⟨b, inside', is'⟩⟩
    · constructor
      · rw [mayAdminister_of_mem distinct inside' is', seat, agrees.admin,
          mayAdminister_of_mem seated.distinct inside is, role]
      · intro _
        rw [seat, current]
        exact agrees.user nobody

theorem Change.distinct {c : Call} {t : Table} (change : Change u c t)
    (distinct : Distinct u.table.accounts) : Distinct t.accounts := by
  cases change with
  | created a _ _ _ _ _ accepted front back before after =>
    have apart := absent_differ accepted.absent
    rw [before] at distinct apart
    exact after ▸ distinct.insert apart
  | removed a _ _ front back before after =>
    rw [before] at distinct
    rw [after]
    exact List.Pairwise.sublist (List.Sublist.append (.refl _) (List.sublist_cons_self _ _)) distinct
  | reroled a _ _ _ _ _ front back before after =>
    rw [before] at distinct
    exact after ▸ distinct.replace rfl
  | rekeyed a _ front back before after =>
    rw [before] at distinct
    exact after ▸ distinct.replace rfl

theorem Account.someone {a : Account} (is : a.name = u.current) : u.current ≠ [] := by
  obtain ⟨c, rest, name, -⟩ := a.head
  rw [← is, name]
  exact List.cons_ne_nil c rest

/-- The signed-in account is still there, with its role or the one it was given. -/
theorem Change.follow {c : Call} {t : Table} (change : Change u c t) {a : Account}
    (inside : a ∈ u.table.accounts) (is : a.name = u.current) :
    ∃ b ∈ t.accounts, b.name = a.name ∧ (b.role = a.role ∨
      ∃ name, c = .setRole name b.role true ∧ sameText a.name name = true ∧
        (a.role = .administrator → b.role ≠ .administrator → 1 < u.table.adminCount)) := by
  cases change with
  | created new _ _ _ _ _ _ front back before after =>
    refine ⟨a, ?_, rfl, .inl rfl⟩
    rw [before, List.mem_append] at inside
    rw [after]
    rcases inside with inFront | inBack
    · exact List.mem_append_left _ inFront
    · exact List.mem_append_right _ (List.mem_cons_of_mem _ inBack)
  | removed old apart _ front back before after =>
    refine ⟨a, ?_, rfl, .inl rfl⟩
    rw [before, List.mem_append, List.mem_cons] at inside
    rw [after, List.mem_append]
    rcases inside with inFront | rfl | inBack
    · exact .inl inFront
    · have other := apart (Account.someone is)
      rw [← is, sameText_refl] at other
      cases other
    · exact .inr inBack
  | reroled old name role call named spare front back before after =>
    rw [before, List.mem_append, List.mem_cons] at inside
    rw [after]
    rcases inside with inFront | rfl | inBack
    · exact ⟨a, List.mem_append_left _ inFront, rfl, .inl rfl⟩
    · exact ⟨{ a with role }, by simp, rfl, .inr ⟨name, call, named, spare⟩⟩
    · exact ⟨a, by simp [inBack], rfl, .inl rfl⟩
  | rekeyed old secret front back before after =>
    rw [before, List.mem_append, List.mem_cons] at inside
    rw [after]
    rcases inside with inFront | rfl | inBack
    · exact ⟨a, List.mem_append_left _ inFront, rfl, .inl rfl⟩
    · exact ⟨{ a with secret }, by simp, rfl, .inl rfl⟩
    · exact ⟨a, by simp [inBack], rfl, .inl rfl⟩

theorem Change.keeps {c : Call} {t : Table} (change : Change u c t) (seated : Seated u)
    (agrees : Agrees u) (may : u.seat.admin = true) (inStep : InStep u (.call c)) {a : Account}
    (inside : a ∈ u.table.accounts) (is : a.name = u.current) :
    ∃ b ∈ t.accounts, b.name = a.name ∧ b.role = a.role := by
  obtain ⟨b, inside', name, same | ⟨given, rfl, named, spare⟩⟩ := change.follow inside is
  · exact ⟨b, inside', name, same⟩
  · refine ⟨b, inside', name, ?_⟩
    have admin : a.role = .administrator := by
      have told := mayAdminister_of_mem seated.distinct inside is
      rw [← agrees.admin, may] at told
      exact of_decide_eq_true told.symm
    by_contra other
    have gives : b.role ≠ .administrator := fun same => other (same.trans admin.symm)
    refine inStep ⟨⟨Account.someone is, is ▸ named⟩, ?_, gives, spare admin gives, rfl⟩
    rw [currentIsAdmin, account_of_mem seated.distinct inside (is ▸ sameText_refl _)]
    simp [admin]

theorem InStep.unsaved {m : Move} (inStep : InStep u m) :
    InStep { u with saved := none } m := by
  cases m with
  | init read => exact inStep
  | call c =>
    cases c with
    | setRole name role lands =>
      exact fun down => inStep ⟨down.own, down.admin, down.gives, down.spare, down.lands⟩
    | create => trivial
    | remove => trivial
    | setPassword => trivial
    | login => trivial
    | logout => trivial

theorem call_inStep {c : Call} (seated : Seated u) (agrees : Agrees u)
    (inStep : InStep u (.call c)) : Seated (step derive u c) ∧ Agrees (step derive u c) := by
  have effect := called_effect derive { u with saved := none } c
  unfold step answer
  generalize called derive { u with saved := none } c = r at effect ⊢
  have same : ∀ a ∈ u.table.accounts, a.name = u.current →
      ∃ b ∈ u.table.accounts, b.name = a.name ∧ b.role = a.role :=
    fun a inside _ => ⟨a, inside, rfl, rfl⟩
  cases effect with
  | refused => exact seated.keep agrees seated.distinct rfl rfl same
  | unsaved => exact seated.keep agrees seated.distinct rfl rfl same
  | changed ok t may change =>
    refine seated.keep agrees (change.distinct seated.distinct) ?_ ?_ fun a inside is => ?_
    · rfl
    · rfl
    · exact change.keeps ⟨seated.distinct, seated.known⟩ ⟨agrees.admin, agrees.user⟩ may
        inStep.unsaved inside is
  | signedIn a known =>
    refine ⟨⟨seated.distinct, fun _ => ⟨a, known, rfl⟩⟩, ⟨?_, fun _ => rfl⟩⟩
    apply Eq.symm
    apply mayAdminister_of_mem
    · exact seated.distinct
    · exact known
    · rfl
  | signedOut =>
    exact ⟨⟨seated.distinct, fun someone => absurd rfl someone⟩, rfl,
      fun someone => absurd rfl someone⟩

theorem init_seated (read : Option Text) (u : State) : Seated (init read u) :=
  ⟨(load_sound read).1.distinct, fun someone => absurd rfl someone⟩

/-- Who steps down is an administrator to the filesystem still. -/
theorem stepsDown_apart {name : Text} {role : Role} {lands : Bool} (seated : Seated u)
    (agrees : Agrees u) (down : StepsDown u name role lands) :
    ¬Agrees (step derive u (.setRole name role lands)) := by
  obtain ⟨⟨someone, own⟩, admin, gives, spare, rfl⟩ := down
  obtain ⟨a, inside, is⟩ := seated.known someone
  have named : sameText a.name name = true := is ▸ own
  have may : u.seat.admin = true := by
    rw [agrees.admin, mayAdminister, admin, Bool.or_true]
  have account := account_of_mem seated.distinct inside named
  obtain ⟨i, found⟩ : ∃ i, u.table.find name = some i := by
    cases found : u.table.find name with
    | some i => exact ⟨i, rfl⟩
    | none =>
      rw [Table.account_of_find_none found] at account
      cases account
  obtain ⟨a', account', here, -⟩ := Table.find_account found
  obtain rfl : a' = a := Option.some.inj (account'.symm.trans account)
  have spare' : ¬(a'.role = .administrator ∧ role ≠ .administrator ∧
      ({ u with saved := none } : State).table.adminCount ≤ 1) := by
    rintro ⟨-, -, few⟩
    exact absurd spare (Nat.not_lt.mpr few)
  have made : (step derive u (.setRole name role true)) =
      { u with
        table := u.table.put i (some { a' with role }) 0
        file := some (saveText (u.table.put i (some { a' with role }) 0).accounts)
        saved := some true } := by
    show (setRole { u with saved := none } name role true).2 = _
    unfold setRole
    dsimp only
    rw [found, account]
    dsimp only
    rw [if_neg spare', saveOr_eq (Table.put_back here _ (by omega)), may, Bool.and_self, if_pos rfl]
  obtain ⟨front, back, before, after⟩ := Table.accounts_put here (some { a' with role }) 0
  have distinct : Distinct (u.table.put i (some { a' with role }) 0).accounts := by
    have old := seated.distinct
    rw [before, Option.toList_some, List.append_assoc, List.singleton_append] at old
    rw [after, Option.toList_some, List.append_assoc, List.singleton_append]
    exact old.replace rfl
  intro later
  have limited : mayAdminister (step derive u (.setRole name role true)) =
      decide (role = .administrator) := by
    rw [made]
    apply mayAdminister_of_mem (a := { a' with role })
    · exact distinct
    · dsimp only
      rw [after]
      simp
    · exact is
  have told := later.admin
  rw [limited, made] at told
  exact gives (of_decide_eq_true (told.symm.trans may))

theorem moved_agrees_iff (m : Move) (seated : Seated u) (agrees : Agrees u) :
    Agrees (moved derive u m) ↔ InStep u m := by
  cases m with
  | init read =>
    have fresh : mayAdminister (init read u) = true := mayAdminister_nobody rfl
    constructor
    · intro later
      exact agrees.admin.symm.trans (later.admin.trans fresh)
    · intro may
      refine ⟨?_, fun someone => absurd rfl someone⟩
      show u.seat.admin = mayAdminister (init read u)
      rw [agrees.admin, may, fresh]
  | call c =>
    constructor
    · intro later
      cases c with
      | setRole name role lands => exact fun down => stepsDown_apart seated agrees down later
      | create => trivial
      | remove => trivial
      | setPassword => trivial
      | login => trivial
      | logout => trivial
    · exact fun inStep => (call_inStep seated agrees inStep).2

theorem moved_seated (m : Move) (seated : Seated u) : Seated (moved derive u m) := by
  cases m with
  | init read => exact init_seated read u
  | call c =>
    have effect := called_effect derive { u with saved := none } c
    show Seated (called derive { u with saved := none } c).2
    generalize called derive { u with saved := none } c = r at effect ⊢
    cases effect with
    | refused => exact ⟨seated.distinct, seated.known⟩
    | unsaved => exact ⟨seated.distinct, seated.known⟩
    | signedIn a known => exact ⟨seated.distinct, fun _ => ⟨a, known, rfl⟩⟩
    | signedOut => exact ⟨seated.distinct, fun someone => absurd rfl someone⟩
    | changed ok t may change =>
      refine ⟨change.distinct seated.distinct, fun someone => ?_⟩
      obtain ⟨a, inside, is⟩ := seated.known someone
      obtain ⟨b, inside', name, -⟩ := change.follow inside is
      exact ⟨b, inside', name.trans is⟩

/-! ## Runs -/

theorem begin_seated (file : Option Text) : Seated (booted file) := init_seated file _

theorem begin_agrees (file : Option Text) : Agrees (booted file) :=
  ⟨rfl, fun someone => absurd rfl someone⟩

/-- **The filesystem and the account list agree in every state reached, exactly where the list is
not read again under a limited account and nobody signed in steps down.** -/
theorem administrator_agrees_iff (file : Option Text) (moves : List Move) :
    Throughout (moved derive) (fun u _ => Agrees u) (booted file) moves ↔
      Allows (moved derive) InStep (booted file) moves := by
  apply throughout_iff (I := Seated) (H := Agrees)
  · exact fun _ m => moved_seated m
  · exact fun _ m => moved_agrees_iff m
  · exact fun _ _ _ => Iff.rfl
  · exact begin_seated file
  · exact begin_agrees file

/-- Two administrators, of whom the one signed in steps down. -/
def steppingDown : List Move :=
  [.call (.create ['a'] [] .administrator none true true),
    .call (.create ['b'] [] .administrator none true true), .call (.login ['a'] []),
    .call (.setRole ['a'] .limited true)]

/-- It may not administer any more, and the filesystem lets it. -/
theorem stepped_down_writes :
    (run (moved noDerive) (booted none) steppingDown).seat = ⟨['a'], true⟩ ∧
      mayAdminister (run (moved noDerive) (booted none) steppingDown) = false ∧
      ¬Throughout (moved noDerive) (fun u _ => Agrees u) (booted none) steppingDown := by
  have ends : (run (moved noDerive) (booted none) steppingDown).seat = ⟨['a'], true⟩ ∧
      mayAdminister (run (moved noDerive) (booted none) steppingDown) = false := by
    decide +kernel
  refine ⟨ends.1, ends.2, fun all => ?_⟩
  have agrees := (all steppingDown [] (by simp)).admin
  rw [ends.1, ends.2] at agrees
  cases agrees

end ReconOS.Users
