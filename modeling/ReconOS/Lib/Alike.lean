import ReconOS.Lib.Prog

/-! Two programs run from two states that are related: they end alike, and what they leave is
related again. -/
namespace ReconOS
namespace Prog

variable {σ ε α β γ δ : Type}

/-- In one error, or with values that are related. -/
inductive Ends (V : α → β → Prop) : Except ε α → Except ε β → Prop where
  | error (e : ε) : Ends V (.error e) (.error e)
  | ok {a : α} {b : β} (values : V a b) : Ends V (.ok a) (.ok b)

theorem Ends.eq {a b : Except ε α} (ends : Ends (· = ·) a b) : a = b := by
  cases ends with
  | error e => rfl
  | ok values => rw [values]

def AlikeAt (R : σ → σ → Prop) (V : α → β → Prop) (m : Prog σ ε α) (n : Prog σ ε β) (s t : σ) :
    Prop :=
  Ends V (m s).1 (n t).1 ∧ R (m s).2 (n t).2

def Alike (R : σ → σ → Prop) (V : α → β → Prop) (m : Prog σ ε α) (n : Prog σ ε β) : Prop :=
  ∀ s t, R s t → AlikeAt R V m n s t

variable {R : σ → σ → Prop} {V : α → β → Prop} {W : γ → δ → Prop}

theorem Alike.pure {a : α} {b : β} (values : V a b) :
    Alike R V (pure a : Prog σ ε α) (pure b : Prog σ ε β) :=
  fun _ _ related => ⟨.ok values, related⟩

theorem Alike.fail {e : ε} : Alike R V (fail e : Prog σ ε α) (fail e : Prog σ ε β) :=
  fun _ _ related => ⟨.error e, related⟩

theorem Alike.get : Alike R R (get : Prog σ ε σ) get := fun _ _ related => ⟨.ok related, related⟩

theorem AlikeAt.get {s t : σ} (related : R s t) :
    AlikeAt R (fun x y => x = s ∧ y = t) (get : Prog σ ε σ) get s t :=
  ⟨.ok ⟨rfl, rfl⟩, related⟩

theorem Alike.modify {f g : σ → σ} (keeps : ∀ s t, R s t → R (f s) (g t)) :
    Alike R (· = ·) (modify f : Prog σ ε Unit) (modify g) :=
  fun s t related => ⟨.ok rfl, keeps s t related⟩

theorem AlikeAt.mono {R' : σ → σ → Prop} {V' : α → β → Prop} {m : Prog σ ε α} {n : Prog σ ε β}
    {s t : σ} (alike : AlikeAt R V m n s t) (states : ∀ s t, R s t → R' s t)
    (values : ∀ a b, V a b → V' a b) : AlikeAt R' V' m n s t := by
  obtain ⟨ends, left⟩ := alike
  refine ⟨?_, states _ _ left⟩
  generalize (m s).1 = o at ends ⊢
  generalize (n t).1 = o' at ends ⊢
  cases ends with
  | error e => exact .error e
  | ok same => exact .ok (values _ _ same)

theorem Alike.mono {V' : α → β → Prop} {m : Prog σ ε α} {n : Prog σ ε β} (alike : Alike R V m n)
    (weaker : ∀ a b, V a b → V' a b) : Alike R V' m n :=
  fun s t related => (alike s t related).mono (fun _ _ left => left) weaker

theorem AlikeAt.bind {m : Prog σ ε α} {n : Prog σ ε β} {f : α → Prog σ ε γ} {g : β → Prog σ ε δ}
    {s t : σ} (first : AlikeAt R V m n s t) (next : ∀ a b, V a b → Alike R W (f a) (g b)) :
    AlikeAt R W (m >>= f) (n >>= g) s t := by
  obtain ⟨ends, left⟩ := first
  unfold AlikeAt
  rw [bind_run, bind_run]
  generalize m s = x at ends left ⊢
  generalize n t = y at ends left ⊢
  obtain ⟨o, s'⟩ := x
  obtain ⟨o', t'⟩ := y
  dsimp only at ends left
  cases ends with
  | error e => exact ⟨.error e, left⟩
  | ok values => exact next _ _ values s' t' left

theorem Alike.bind {m : Prog σ ε α} {n : Prog σ ε β} {f : α → Prog σ ε γ} {g : β → Prog σ ε δ}
    (first : Alike R V m n) (next : ∀ a b, V a b → Alike R W (f a) (g b)) :
    Alike R W (m >>= f) (n >>= g) :=
  fun s t related => (first s t related).bind next

theorem Alike.ensure {c d : Prop} [Decidable c] [Decidable d] (same : c ↔ d) {e : ε} :
    Alike R (fun _ _ => c) (ensure c e : Prog σ ε Unit) (ensure d e) := by
  unfold Prog.ensure
  by_cases holds : c
  · rw [if_pos holds, if_pos (same.mp holds)]
    exact Alike.pure holds
  · rw [if_neg holds, if_neg (holds ∘ same.mpr)]
    exact Alike.fail

theorem Alike.ite {c d : Prop} [Decidable c] [Decidable d] (same : c ↔ d) {m m' : Prog σ ε α}
    {n n' : Prog σ ε β} (yes : c → Alike R V m n) (no : ¬c → Alike R V m' n') :
    Alike R V (if c then m else m') (if d then n else n') := by
  by_cases holds : c
  · rw [if_pos holds, if_pos (same.mp holds)]
    exact yes holds
  · rw [if_neg holds, if_neg (holds ∘ same.mpr)]
    exact no holds

theorem Alike.when {c d : Prop} [Decidable c] [Decidable d] (same : c ↔ d) {m n : Prog σ ε Unit}
    (alike : c → Alike R (· = ·) m n) : Alike R (· = ·) (when c m) (when d n) :=
  Alike.ite same alike fun _ => Alike.pure rfl

theorem AlikeAt.attempt {fatal : ε → Bool} {m : Prog σ ε α} {n : Prog σ ε β} {s t : σ}
    (alike : AlikeAt R V m n s t) :
    AlikeAt R (Ends V) (Prog.attempt fatal m) (Prog.attempt fatal n) s t := by
  obtain ⟨ends, left⟩ := alike
  unfold AlikeAt Prog.attempt
  generalize m s = x at ends left ⊢
  generalize n t = y at ends left ⊢
  obtain ⟨o, s'⟩ := x
  obtain ⟨o', t'⟩ := y
  dsimp only at ends left
  cases ends with
  | ok values => exact ⟨.ok (.ok values), left⟩
  | error e =>
    dsimp only
    split
    · exact ⟨.error e, left⟩
    · exact ⟨.ok (.error e), left⟩

theorem Alike.attempt {fatal : ε → Bool} {m : Prog σ ε α} {n : Prog σ ε β}
    (alike : Alike R V m n) : Alike R (Ends V) (Prog.attempt fatal m) (Prog.attempt fatal n) :=
  fun s t related => (alike s t related).attempt

theorem Alike.each {as : List α} {f g : α → Prog σ ε Unit}
    (alike : ∀ a ∈ as, Alike R (· = ·) (f a) (g a)) : Alike R (· = ·) (each as f) (each as g) := by
  induction as with
  | nil => exact Alike.pure rfl
  | cons a as ih =>
    apply (alike a List.mem_cons_self).bind
    intro _ _ _
    exact ih fun b inside => alike b (List.mem_cons_of_mem a inside)

/-- What the first of the two keeps, and what it tells of the value, can be had as well. -/
theorem Alike.and {I : σ → Prop} {S : α → Prop} {m : Prog σ ε α} {n : Prog σ ε β}
    (alike : Alike R V m n) (keeps : Keeps I m S) :
    Alike (fun s t => R s t ∧ I s) (fun a b => V a b ∧ S a) m n := by
  intro s t both
  obtain ⟨ends, left⟩ := alike s t both.1
  obtain ⟨kept, tells⟩ := keeps s both.2
  refine ⟨?_, left, kept⟩
  generalize (m s).1 = o at ends tells ⊢
  generalize (n t).1 = o' at ends ⊢
  cases ends with
  | error e => exact .error e
  | ok values => exact .ok ⟨values, tells _ rfl⟩

end Prog
end ReconOS
