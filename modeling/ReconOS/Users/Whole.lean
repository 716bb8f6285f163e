import ReconOS.Users.Effect

/-! The accounts over any calls: counted, each with a name of its own, with an administrator once
there is one, and what a start on the saved file makes of them. -/
namespace ReconOS.Users
open Libc Lib

variable {derive : Text → Bytes saltSize → Nat → Bytes hashSize} {u : State}

/-! ## What a change keeps -/

theorem Change.sound {c : Call} {t : Table} (change : Change u c t) (sound : u.table.Sound) :
    t.Sound := by
  have counted := sound.counted
  have distinct := sound.distinct
  cases change with
  | created a _ _ _ _ _ accepted front back before after count =>
    have apart := absent_differ accepted.absent
    rw [before] at counted distinct apart
    refine ⟨?_, after ▸ distinct.insert apart⟩
    rw [count, counted, after]
    simp only [List.length_append, List.length_cons, Nat.cast_add, Nat.cast_one]
    omega
  | removed a _ _ front back before after count =>
    rw [before] at counted distinct
    constructor
    · rw [count, counted, after]
      simp only [List.length_append, List.length_cons, Nat.cast_add, Nat.cast_one]
      omega
    · rw [after]
      exact List.Pairwise.sublist
        (List.Sublist.append (.refl _) (List.sublist_cons_self _ _)) distinct
  | reroled a _ _ _ _ _ front back before after count =>
    rw [before] at counted distinct
    refine ⟨?_, after ▸ distinct.replace rfl⟩
    rw [count, counted, after, List.length_append, List.length_append]
    rfl
  | rekeyed a _ front back before after count =>
    rw [before] at counted distinct
    refine ⟨?_, after ▸ distinct.replace rfl⟩
    rw [count, counted, after, List.length_append, List.length_append]
    rfl

def isAdmin (a : Account) : Bool := a.role = .administrator

theorem adminCount_split {t : Table} {front back : List Account} {a : Account}
    (is : t.accounts = front ++ a :: back) :
    t.adminCount = (front ++ back).countP isAdmin + if isAdmin a then 1 else 0 := by
  have count : t.adminCount = t.accounts.countP isAdmin := List.countP_eq_length_filter.symm
  rw [count, is, List.countP_append, List.countP_cons, List.countP_append, Nat.add_assoc]

theorem Change.administered {c : Call} {t : Table} (change : Change u c t)
    (some : 0 < u.table.adminCount) : 0 < t.adminCount := by
  cases change with
  | created a _ _ _ _ _ _ front back before after =>
    have count : u.table.adminCount = (front ++ back).countP isAdmin := by
      rw [← before]
      exact List.countP_eq_length_filter.symm
    rw [adminCount_split after]
    omega
  | removed a _ spare front back before after =>
    have count : t.adminCount = (front ++ back).countP isAdmin := by
      rw [← after]
      exact List.countP_eq_length_filter.symm
    have split := adminCount_split before
    by_cases admin : isAdmin a = true
    · have more := spare (by simpa [isAdmin] using admin)
      rw [if_pos admin] at split
      omega
    · rw [if_neg admin] at split
      omega
  | reroled a _ role _ _ spare front back before after =>
    have split := adminCount_split before
    rw [adminCount_split after]
    by_cases admin : isAdmin { a with role } = true
    · rw [if_pos admin]
      omega
    · rw [if_neg admin]
      by_cases was : isAdmin a = true
      · have more := spare (by simpa [isAdmin] using was) (by simpa [isAdmin] using admin)
        rw [if_pos was] at split
        omega
      · rw [if_neg was] at split
        omega
  | rekeyed a _ front back before after =>
    have split := adminCount_split before
    rw [adminCount_split after]
    exact split ▸ some

/-! ## What every state has -/

/-- The accounts a start would find are those there are, but for the hidden ones. -/
structure Steady (u : State) : Prop where
  sound : u.table.Sound
  filed : (load u.file).accounts = u.table.accounts.filter fun a => ¬a.Hidden

theorem Table.accounts_short (t : Table) : t.accounts.length ≤ usersMax :=
  Nat.le_trans (List.reduceOption_length_le _) (Nat.le_of_eq t.size)

theorem begin_steady (file : Option Text) : Steady (booted file) := by
  obtain ⟨sound, shown⟩ := load_sound file
  refine ⟨sound, ?_⟩
  rw [List.filter_eq_self.mpr fun a inside => by simpa using shown a inside]
  rfl

theorem step_steady (c : Call) (steady : Steady u) : Steady (step derive u c) := by
  have effect := called_effect derive { u with saved := none } c
  unfold step answer
  generalize called derive { u with saved := none } c = r at effect ⊢
  cases effect with
  | refused => exact ⟨steady.sound, steady.filed⟩
  | unsaved => exact ⟨steady.sound, steady.filed⟩
  | changed ok t may change =>
    have sound := change.sound steady.sound
    exact ⟨sound, (load_saveText sound.distinct t.accounts_short).accounts⟩
  | signedIn => exact ⟨steady.sound, steady.filed⟩
  | signedOut => exact ⟨steady.sound, steady.filed⟩

theorem step_administered (c : Call) (some : 0 < u.table.adminCount) :
    0 < (step derive u c).table.adminCount := by
  have effect := called_effect derive { u with saved := none } c
  unfold step answer
  generalize called derive { u with saved := none } c = r at effect ⊢
  cases effect with
  | refused => exact some
  | unsaved => exact some
  | changed ok t may change => exact change.administered some
  | signedIn => exact some
  | signedOut => exact some

/-- A call whose save fails says so and leaves the table. -/
def Undone (derive : Text → Bytes saltSize → Nat → Bytes hashSize) (u : State) (c : Call) : Prop :=
  let r := answer derive u c
  r.2.saved = some false → r.1 = false ∧ r.2.table = u.table

theorem call_undone (u : State) (c : Call) : Undone derive u c := by
  have effect := called_effect derive { u with saved := none } c
  unfold Undone answer
  generalize called derive { u with saved := none } c = r at effect ⊢
  dsimp only
  intro unsaved
  cases effect with
  | refused => cases unsaved
  | unsaved => exact ⟨rfl, rfl⟩
  | changed => cases unsaved
  | signedIn => cases unsaved
  | signedOut => cases unsaved

/-! ## A start on the saved file -/

/-- The same names and roles, and the same passwords. -/
def Restarts (derive : Text → Bytes saltSize → Nat → Bytes hashSize) (u : State) : Prop :=
  let again := init u.file u
  again.table.accounts.map (fun a => (a.name, a.role)) =
      u.table.accounts.map (fun a => (a.name, a.role)) ∧
    ∀ name password, check derive again.table name password = check derive u.table name password

def AllShown (t : Table) : Prop := ∀ a ∈ t.accounts, ¬a.Hidden

theorem restarts_iff (steady : Steady u) : Restarts derive u ↔ AllShown u.table := by
  constructor
  · rintro ⟨names, -⟩
    have lengths := congrArg List.length names
    rw [List.length_map, List.length_map] at lengths
    have filed : (init u.file u).table.accounts = _ := steady.filed
    rw [filed, List.length_filter_eq_length_iff] at lengths
    intro a inside
    simpa using lengths a inside
  · intro shown
    have same : (init u.file u).table.accounts = u.table.accounts := by
      refine steady.filed.trans (List.filter_eq_self.mpr ?_)
      intro a inside
      simpa using shown a inside
    unfold Restarts
    dsimp only
    refine ⟨by rw [same], fun name password => ?_⟩
    unfold check
    rw [Table.account_eq, same, ← Table.account_eq]

/-- No account is made whose name begins as a comment does. -/
def Clear (u : State) : Call → Prop
  | .create name password _ salt folders lands =>
    name.head? = some '#' → ¬Accepted u name password salt folders lands
  | _ => True

/-- What is accepted is made. -/
theorem create_accepted (derive : Text → Bytes saltSize → Nat → Bytes hashSize)
    (steady : Steady u) {name password : Text} {salt : Option (Bytes saltSize)}
    {folders lands : Bool} (role : Role) (accepted : Accepted u name password salt folders lands) :
    ∃ a ∈ (create derive u name password role salt folders lands).2.table.accounts,
      a.name = name := by
  obtain ⟨valid, absent, notFull, random, rfl, may, rfl⟩ := accepted
  have short : u.table.slots.reduceOption.length < u.table.slots.length := by
    have counted := steady.sound.counted
    have size := u.table.size
    unfold Table.accounts at counted
    omega
  obtain ⟨i, free⟩ := Slots.firstFree_of_short short
  obtain ⟨secret, made⟩ : ∃ secret, newSecret derive password salt = some secret := by
    unfold newSecret
    split
    case isTrue => exact ⟨_, rfl⟩
    case isFalse some =>
      obtain ⟨salt, rfl⟩ := Option.isSome_iff_exists.mp (random.resolve_left some)
      exact ⟨_, rfl⟩
  have here := Slots.firstFree_some free
  unfold create
  rw [dif_pos valid, absent, if_neg Bool.false_ne_true, if_neg (Int.not_le.mpr notFull)]
  simp only [free, made, if_true]
  rw [saveOr_eq (Table.put_back here _ (by omega)), may, Bool.and_self, if_pos rfl]
  obtain ⟨front, back, -, after⟩ := Table.accounts_put here (some ⟨name, valid, role, secret⟩) 1
  refine ⟨⟨name, valid, role, secret⟩, ?_, rfl⟩
  dsimp only
  rw [after]
  simp

theorem step_shown_iff (c : Call) (steady : Steady u) (shown : AllShown u.table) :
    AllShown (step derive u c).table ↔ Clear u c := by
  constructor
  · intro after
    cases c with
    | create name password role salt folders lands =>
      intro hidden accepted
      obtain ⟨a, inside, is⟩ := create_accepted derive
        (u := { u with saved := none }) ⟨steady.sound, steady.filed⟩ role
        ⟨accepted.valid, accepted.absent, accepted.room, accepted.random, accepted.folders,
          accepted.may, accepted.lands⟩
      apply after a inside
      rw [Account.Hidden, is]
      exact hidden
    | remove => trivial
    | setRole => trivial
    | setPassword => trivial
    | login => trivial
    | logout => trivial
  · intro clear
    have effect := called_effect derive { u with saved := none } c
    unfold step answer
    generalize called derive { u with saved := none } c = r at effect ⊢
    cases effect with
    | refused => exact shown
    | unsaved => exact shown
    | signedIn => exact shown
    | signedOut => exact shown
    | changed ok t may change =>
      intro b inside
      cases change with
      | created a password salt folders lands call accepted front back before after =>
        dsimp only at inside before
        rw [after, List.mem_append, List.mem_cons] at inside
        have old : ∀ b ∈ front ++ back, ¬b.Hidden := before ▸ shown
        rcases inside with inFront | rfl | inBack
        · exact old b (List.mem_append_left _ inFront)
        · subst call
          intro hidden
          exact clear hidden ⟨accepted.valid, accepted.absent, accepted.room, accepted.random,
            accepted.folders, accepted.may, accepted.lands⟩
        · exact old b (List.mem_append_right _ inBack)
      | removed a _ _ front back before after =>
        dsimp only at inside before
        rw [after] at inside
        apply shown b
        rw [before]
        exact (List.Sublist.append (.refl _) (List.sublist_cons_self _ _)).subset inside
      | reroled a _ role _ _ _ front back before after =>
        dsimp only at inside before
        rw [after, List.mem_append, List.mem_cons] at inside
        have old : ∀ b ∈ front ++ a :: back, ¬b.Hidden := before ▸ shown
        rcases inside with inFront | rfl | inBack
        · exact old b (List.mem_append_left _ inFront)
        · exact old a (by simp)
        · exact old b (by simp [inBack])
      | rekeyed a secret front back before after =>
        dsimp only at inside before
        rw [after, List.mem_append, List.mem_cons] at inside
        have old : ∀ b ∈ front ++ a :: back, ¬b.Hidden := before ▸ shown
        rcases inside with inFront | rfl | inBack
        · exact old b (List.mem_append_left _ inFront)
        · exact old a (by simp)
        · exact old b (by simp [inBack])

/-! ## Runs -/

/-- The accounts are whole in a state, and stay so through the calls to come. -/
structure Whole (derive : Text → Bytes saltSize → Nat → Bytes hashSize) (u : State)
    (calls : List Call) : Prop where
  counted : u.table.count = u.table.accounts.length
  distinct : Distinct u.table.accounts
  restarts : Restarts derive u
  undone : ∀ c rest, calls = c :: rest → Undone derive u c
  administered : 0 < u.table.adminCount → 0 < (run (step derive) u calls).table.adminCount

theorem run_administered (calls : List Call) (some : 0 < u.table.adminCount) :
    0 < (run (step derive) u calls).table.adminCount := by
  induction calls generalizing u with
  | nil => exact some
  | cons c calls ih => exact ih (step_administered c some)

theorem whole_iff_shown (steady : Steady u) (calls : List Call) :
    Whole derive u calls ↔ AllShown u.table := by
  constructor
  · intro whole
    exact (restarts_iff steady).mp whole.restarts
  · intro shown
    exact {
      counted := steady.sound.counted
      distinct := steady.sound.distinct
      restarts := (restarts_iff steady).mpr shown
      undone := fun c _ _ => call_undone u c
      administered := run_administered calls }

/-- **The accounts stay whole, restarts included, exactly where none is made whose name begins as a
comment does.** -/
theorem accounts_whole_iff (file : Option Text) (calls : List Call) :
    Throughout (step derive) (Whole derive) (booted file) calls ↔
      Allows (step derive) Clear (booted file) calls := by
  apply throughout_iff (I := Steady) (H := fun u => AllShown u.table)
  · exact fun _ c => step_steady c
  · exact fun _ c => step_shown_iff c
  · exact fun _ calls steady => whole_iff_shown steady calls
  · exact begin_steady file
  · exact (load_sound file).2

theorem hash_valid : nameIsValid ['#'] = true := by decide

/-- An administrator without a password. -/
def hashAccount : Account := ⟨['#'], hash_valid, .administrator, none⟩

theorem hash_created :
    step noDerive (booted none) (.create ['#'] [] .administrator none true true) =
      { booted none with
        table := Table.empty.put 0 (some hashAccount) 1
        file := some (saveText [hashAccount]), saved := some true } := by
  rfl

/-- An administrator is made, and the next start finds no account at all. -/
theorem hash_account_lost :
    let u := step noDerive (booted none) (.create ['#'] [] .administrator none true true)
    u.table.adminCount = 1 ∧ u.saved = some true ∧ (init u.file u).table.accounts = [] ∧
      ¬Throughout (step noDerive) (Whole noDerive) (booted none)
        [.create ['#'] [] .administrator none true true] := by
  have lost : (load (some (saveText [hashAccount]))).accounts = [] := by
    have read := load_saveText (List.pairwise_singleton Differ hashAccount) (by decide)
    have hidden : hashAccount.Hidden := rfl
    rw [read.accounts]
    simp [hidden]
  rw [hash_created]
  refine ⟨rfl, rfl, lost, fun all => ?_⟩
  have whole := all [.create ['#'] [] .administrator none true true] [] rfl
  rw [run, run, hash_created] at whole
  have names := whole.restarts.1
  dsimp only [init] at names
  rw [lost] at names
  cases names

end ReconOS.Users
