import Mathlib.Algebra.BigOperators.Group.List.Basic

/-! Threads over one shared state, in every order: a move lets one thread run one section, starts a
thread, or changes the shared state from outside. -/
namespace ReconOS.Lib

/-- What one section of a thread does, what starting a thread does, and what the outside does. -/
structure System (σ τ ε κ ω : Type) where
  act : ε → σ → τ → σ × τ
  start : κ → σ → σ × τ
  outside : ω → σ → σ

/-- Thread `i` runs a section, meeting `e`; a thread is started; the outside moves. -/
inductive Move (ε κ ω : Type) where
  | act (i : Nat) (e : ε)
  | start (k : κ)
  | outside (o : ω)

structure World (σ τ : Type) where
  shared : σ
  threads : List τ

namespace System

variable {σ τ ε κ ω : Type} (S : System σ τ ε κ ω)

def step (w : World σ τ) : Move ε κ ω → World σ τ
  | .act i e =>
    match w.threads[i]? with
    | none => w
    | some t => ⟨(S.act e w.shared t).1, w.threads.set i (S.act e w.shared t).2⟩
  | .start k => ⟨(S.start k w.shared).1, w.threads ++ [(S.start k w.shared).2]⟩
  | .outside o => ⟨S.outside o w.shared, w.threads⟩

theorem step_act {w : World σ τ} {i : Nat} {t : τ} (at_i : w.threads[i]? = some t) (e : ε) :
    S.step w (.act i e) = ⟨(S.act e w.shared t).1, w.threads.set i (S.act e w.shared t).2⟩ := by
  simp only [step, at_i]

theorem step_act_none {w : World σ τ} {i : Nat} (at_i : w.threads[i]? = none) (e : ε) :
    S.step w (.act i e) = w := by
  simp only [step, at_i]

def play (w : World σ τ) : List (Move ε κ ω) → World σ τ
  | [] => w
  | m :: rest => play (S.step w m) rest

theorem play_append (w : World σ τ) (l l' : List (Move ε κ ω)) :
    S.play w (l ++ l') = S.play (S.play w l) l' := by
  induction l generalizing w with
  | nil => rfl
  | cons m l ih => exact ih _

/-- The section a move runs, if it runs one, is one that `ok` allows where it runs. -/
def Allowed (ok : ε → σ → τ → Prop) (w : World σ τ) : Move ε κ ω → Prop
  | .act i e => ∀ t ∈ w.threads[i]?, ok e w.shared t
  | .start _ | .outside _ => True

/-- Every section the moves run is allowed where it runs. -/
def Meets (ok : ε → σ → τ → Prop) (w : World σ τ) : List (Move ε κ ω) → Prop
  | [] => True
  | m :: rest => Allowed ok w m ∧ Meets ok (S.step w m) rest

instance (ok : ε → σ → τ → Prop) [∀ e s t, Decidable (ok e s t)] (w : World σ τ)
    (m : Move ε κ ω) : Decidable (Allowed ok w m) :=
  match m with
  | .act i e => inferInstanceAs (Decidable (∀ t ∈ w.threads[i]?, ok e w.shared t))
  | .start _ | .outside _ => inferInstanceAs (Decidable True)

instance decidableMeets (ok : ε → σ → τ → Prop) [∀ e s t, Decidable (ok e s t)] :
    (w : World σ τ) → (moves : List (Move ε κ ω)) → Decidable (S.Meets ok w moves)
  | _, [] => inferInstanceAs (Decidable True)
  | w, m :: rest =>
    have := decidableMeets ok (S.step w m) rest
    inferInstanceAs (Decidable (Allowed ok w m ∧ S.Meets ok (S.step w m) rest))

/-! ## Invariants -/

/-- `I` holds of the shared state and `J` of each thread over it, and every move allowed keeps
both: for the thread that moves, and for any other. -/
structure Inductive (ok : ε → σ → τ → Prop) (I : σ → Prop) (J : σ → τ → Prop) : Prop where
  act : ∀ e s t, ok e s t → I s → J s t → I (S.act e s t).1 ∧ J (S.act e s t).1 (S.act e s t).2
  others : ∀ e s t u, ok e s t → I s → J s t → J s u → J (S.act e s t).1 u
  start : ∀ k s, I s → I (S.start k s).1 ∧ J (S.start k s).1 (S.start k s).2
  startOthers : ∀ k s u, I s → J s u → J (S.start k s).1 u
  outside : ∀ o s, I s → I (S.outside o s)
  outsideOthers : ∀ o s u, I s → J s u → J (S.outside o s) u

variable {S} {ok : ε → σ → τ → Prop} {I : σ → Prop} {J : σ → τ → Prop}

theorem Inductive.step (h : S.Inductive ok I J) {w : World σ τ} {m : Move ε κ ω}
    (allowed : Allowed ok w m)
    (inv : I w.shared ∧ ∀ t ∈ w.threads, J w.shared t) :
    I (S.step w m).shared ∧ ∀ t ∈ (S.step w m).threads, J (S.step w m).shared t := by
  obtain ⟨shared, each⟩ := inv
  cases m with
  | act i e =>
    cases at_i : w.threads[i]? with
    | none =>
      simp only [System.step, at_i]
      exact ⟨shared, each⟩
    | some t =>
      have allowed : ok e w.shared t := allowed t at_i
      have own := each t (List.mem_of_getElem? at_i)
      obtain ⟨shared', own'⟩ := h.act e w.shared t allowed shared own
      simp only [System.step, at_i]
      refine ⟨shared', fun u mem => ?_⟩
      rcases List.mem_or_eq_of_mem_set mem with other | rfl
      · exact h.others e w.shared t u allowed shared own (each u other)
      · exact own'
  | start k =>
    obtain ⟨shared', own'⟩ := h.start k w.shared shared
    refine ⟨shared', fun u mem => ?_⟩
    rcases List.mem_append.1 mem with other | new
    · exact h.startOthers k w.shared u shared (each u other)
    · rw [List.mem_singleton.1 new]
      exact own'
  | outside o =>
    exact ⟨h.outside o w.shared shared, fun u mem => h.outsideOthers o w.shared u shared (each u mem)⟩

/-- An inductive invariant holds after any moves that `ok` allows. -/
theorem Inductive.play (h : S.Inductive ok I J) {w : World σ τ} {moves : List (Move ε κ ω)}
    (meets : S.Meets ok w moves) (inv : I w.shared ∧ ∀ t ∈ w.threads, J w.shared t) :
    I (S.play w moves).shared ∧ ∀ t ∈ (S.play w moves).threads, J (S.play w moves).shared t := by
  induction moves generalizing w with
  | nil => exact inv
  | cons m rest ih => exact ih meets.2 (h.step meets.1 inv)

/-! ## Moves that depend on all the threads -/

variable (S) in
/-- Every move is one that `ok` allows in the world it is made in. -/
def Heeds (ok : World σ τ → Move ε κ ω → Prop) (w : World σ τ) : List (Move ε κ ω) → Prop
  | [] => True
  | m :: rest => ok w m ∧ Heeds ok (S.step w m) rest

instance decidableHeeds (ok : World σ τ → Move ε κ ω → Prop) [∀ w m, Decidable (ok w m)] :
    (w : World σ τ) → (moves : List (Move ε κ ω)) → Decidable (S.Heeds ok w moves)
  | _, [] => inferInstanceAs (Decidable True)
  | w, m :: rest =>
    have := decidableHeeds ok (S.step w m) rest
    inferInstanceAs (Decidable (ok w m ∧ S.Heeds ok (S.step w m) rest))

/-- What each move allowed keeps holds after any number of them. -/
theorem Heeds.play {ok : World σ τ → Move ε κ ω → Prop} {I : World σ τ → Prop}
    (keeps : ∀ w m, ok w m → I w → I (S.step w m)) {w : World σ τ} {moves : List (Move ε κ ω)}
    (heeds : S.Heeds ok w moves) (inv : I w) : I (S.play w moves) := by
  induction moves generalizing w with
  | nil => exact inv
  | cons m rest ih => exact ih heeds.2 (keeps w m heeds.1 inv)

/-! ## Conservation -/

variable {M : Type} [AddCommMonoid M]

/-- What is in the shared state and in the threads' hands, added up. -/
def total (inShared : σ → M) (inHand : τ → M) (w : World σ τ) : M :=
  inShared w.shared + (w.threads.map inHand).sum

variable (S)

/-- A section moves things between the shared state and the thread's hands; `due` says what there
should be in all, and grows by what a started thread brings. -/
structure Conserves (inShared : σ → M) (inHand : τ → M) (due : σ → M) : Prop where
  act : ∀ e s t, due (S.act e s t).1 = due s ∧
    inShared (S.act e s t).1 + inHand (S.act e s t).2 = inShared s + inHand t
  start : ∀ k s, ∃ new, due (S.start k s).1 = due s + new ∧
    inShared (S.start k s).1 + inHand (S.start k s).2 = inShared s + new
  outside : ∀ o s, due (S.outside o s) = due s ∧ inShared (S.outside o s) = inShared s

variable {S} {inShared : σ → M} {inHand : τ → M} {due : σ → M}

variable (inHand) in
/-- One thread's hands, and the rest of the threads'. -/
theorem sum_set (l : List τ) (i : Nat) (t : τ) (at_i : l[i]? = some t) :
    ∃ rest : M, (l.map inHand).sum = inHand t + rest ∧
      ∀ t', ((l.set i t').map inHand).sum = inHand t' + rest := by
  induction l generalizing i with
  | nil => simp at at_i
  | cons u l ih =>
    cases i with
    | zero =>
      simp only [List.getElem?_cons_zero, Option.some.injEq] at at_i
      subst at_i
      exact ⟨(l.map inHand).sum, by simp, fun t' => by simp⟩
    | succ i =>
      obtain ⟨rest, before, after⟩ := ih i (by simpa using at_i)
      refine ⟨inHand u + rest, ?_, fun t' => ?_⟩
      · rw [List.map_cons, List.sum_cons, before, add_left_comm]
      · rw [List.set_cons_succ, List.map_cons, List.sum_cons, after, add_left_comm]

theorem Conserves.step (h : S.Conserves inShared inHand due) {w : World σ τ}
    (m : Move ε κ ω) (inv : total inShared inHand w = due w.shared) :
    total inShared inHand (S.step w m) = due (S.step w m).shared := by
  cases m with
  | act i e =>
    cases at_i : w.threads[i]? with
    | none =>
      simp only [System.step, at_i]
      exact inv
    | some t =>
      obtain ⟨same, moved⟩ := h.act e w.shared t
      obtain ⟨rest, before, after⟩ := sum_set inHand w.threads i t at_i
      simp only [System.step, at_i, total] at inv ⊢
      rw [same, after, ← add_assoc, moved, add_assoc, ← before, inv]
  | start k =>
    obtain ⟨new, more, brought⟩ := h.start k w.shared
    simp only [System.step, total, List.map_append, List.map_cons, List.map_nil, List.sum_append,
      List.sum_singleton] at inv ⊢
    rw [more, ← inv, add_comm (w.threads.map inHand).sum, ← add_assoc, brought, add_right_comm]
  | outside o =>
    obtain ⟨same, kept⟩ := h.outside o w.shared
    simp only [System.step, total] at inv ⊢
    rw [same, kept, inv]

/-- Whatever the order, what there is adds up to what is due. -/
theorem Conserves.play (h : S.Conserves inShared inHand due) {w : World σ τ}
    (moves : List (Move ε κ ω)) (inv : total inShared inHand w = due w.shared) :
    total inShared inHand (S.play w moves) = due (S.play w moves).shared := by
  induction moves generalizing w with
  | nil => exact inv
  | cons m rest ih => exact ih (h.step m inv)

/-! ## Getting to an end -/

def weighed {α : Type} (weight : α → Nat) : List α → Nat
  | [] => 0
  | a :: rest => weight a + weighed weight rest

theorem weighed_set {α : Type} (weight : α → Nat) {l : List α} {i : Nat} {a : α}
    (at_i : l[i]? = some a) (b : α) :
    weighed weight (l.set i b) + weight a = weighed weight l + weight b := by
  induction l generalizing i with
  | nil => simp at at_i
  | cons c rest ih =>
    cases i with
    | zero =>
      simp only [List.getElem?_cons_zero, Option.some.injEq] at at_i
      simp only [List.set_cons_zero, weighed, at_i]
      omega
    | succ i =>
      have later := ih (i := i) (by simpa using at_i)
      simp only [List.set_cons_succ, weighed]
      omega

/-- What there is left to do, in the shared state and for the threads. -/
def workLeft (shared : σ → Nat) (weight : τ → Nat) (w : World σ τ) : Nat :=
  shared w.shared + weighed weight w.threads

variable {shared : σ → Nat} {weight : τ → Nat}

theorem workLeft_act_lt {w : World σ τ} {i : Nat} {t : τ} {e : ε} (at_i : w.threads[i]? = some t)
    (less : shared (S.act e w.shared t).1 + weight (S.act e w.shared t).2 <
      shared w.shared + weight t) :
    workLeft shared weight (S.step w (.act i e)) < workLeft shared weight w := by
  have moved := weighed_set weight at_i (S.act e w.shared t).2
  rw [S.step_act at_i, workLeft, workLeft]
  dsimp only
  omega

/-- Where some thread can always go on with the work until it is at an end, there are sections that
lead there. -/
theorem exhausts (e : ε) {ok ended : World σ τ → Prop}
    (goes : ∀ w, ok w → ¬ ended w → ∃ i, ok (S.step w (.act i e)) ∧
      workLeft shared weight (S.step w (.act i e)) < workLeft shared weight w)
    (w : World σ τ) (start : ok w) :
    ∃ turns : List Nat, ok (S.play w (turns.map fun i => .act i e)) ∧
      ended (S.play w (turns.map fun i => .act i e)) := by
  induction left : workLeft shared weight w using Nat.strongRecOn generalizing w with
  | _ n ih =>
    by_cases here : ended w
    · exact ⟨[], start, here⟩
    · obtain ⟨i, ok', less⟩ := goes w start here
      obtain ⟨turns, there⟩ := ih _ (left ▸ less) _ ok' rfl
      exact ⟨i :: turns, there⟩

end System

end ReconOS.Lib
