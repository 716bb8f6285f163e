import Mathlib.Logic.Basic

/-! Imperative code with errors, as a function on an explicit state: the program, the rules for
reading a successful run backwards, and the rule for what every run keeps. -/
namespace ReconOS

/-- Code over a state `σ`: it ends with a value or an error, and in either case leaves a state. -/
def Prog (σ ε α : Type) : Type := σ → Except ε α × σ

namespace Prog

variable {σ ε α β : Type}

instance : Monad (Prog σ ε) where
  pure a := fun s => (.ok a, s)
  bind m f := fun s =>
    match m s with
    | (.ok a, t) => f a t
    | (.error e, t) => (.error e, t)

def fail (e : ε) : Prog σ ε α := fun s => (.error e, s)

def get : Prog σ ε σ := fun s => (.ok s, s)

def modify (f : σ → σ) : Prog σ ε Unit := fun s => (.ok (), f s)

/-- Go on only when `c` holds. -/
def ensure (c : Prop) [Decidable c] (e : ε) : Prog σ ε Unit := if c then pure () else fail e

/-- Run `m` only when `c` holds. -/
def when (c : Prop) [Decidable c] (m : Prog σ ε Unit) : Prog σ ε Unit := if c then m else pure ()

/-- Run `m` and hand its outcome on, an error included, unless the error is a fatal one. -/
def attempt (fatal : ε → Bool) (m : Prog σ ε α) : Prog σ ε (Except ε α) := fun s =>
  match m s with
  | (.ok a, t) => (.ok (.ok a), t)
  | (.error e, t) => if fatal e = true then (.error e, t) else (.ok (.error e), t)

/-- A loop over a list, left at the first error. -/
def each : List α → (α → Prog σ ε Unit) → Prog σ ε Unit
  | [], _ => pure ()
  | a :: as, f => do f a; each as f

/-! ## Running -/

@[simp] theorem pure_run (a : α) (s : σ) : (pure a : Prog σ ε α) s = (.ok a, s) := rfl

@[simp] theorem fail_run (e : ε) (s : σ) : (fail e : Prog σ ε α) s = (.error e, s) := rfl

@[simp] theorem get_run (s : σ) : (get : Prog σ ε σ) s = (.ok s, s) := rfl

@[simp] theorem modify_run (f : σ → σ) (s : σ) : (modify f : Prog σ ε Unit) s = (.ok (), f s) := rfl

theorem bind_run (m : Prog σ ε α) (f : α → Prog σ ε β) (s : σ) :
    (m >>= f) s = match m s with
      | (.ok a, t) => f a t
      | (.error e, t) => (.error e, t) := rfl

theorem bind_of_ok {m : Prog σ ε α} {f : α → Prog σ ε β} {s t : σ} {a : α}
    (h : m s = (.ok a, t)) : (m >>= f) s = f a t := by
  simp only [bind_run, h]

theorem bind_of_error {m : Prog σ ε α} {f : α → Prog σ ε β} {s t : σ} {e : ε}
    (h : m s = (.error e, t)) : (m >>= f) s = (.error e, t) := by
  simp only [bind_run, h]

@[simp] theorem get_bind (f : σ → Prog σ ε β) (s : σ) : (get >>= f) s = f s s := rfl

@[simp] theorem modify_bind (g : σ → σ) (f : Unit → Prog σ ε β) (s : σ) :
    (modify g >>= f) s = f () (g s) := rfl

@[simp] theorem pure_bind (a : α) (f : α → Prog σ ε β) (s : σ) : (pure a >>= f) s = f a s := rfl

theorem ensure_of {c : Prop} [Decidable c] (e : ε) (h : c) (s : σ) :
    ensure c e s = (.ok (), s) := by
  simp [ensure, h]

/-! ## Reading a successful run backwards -/

theorem bind_eq_ok {m : Prog σ ε α} {f : α → Prog σ ε β} {s t : σ} {b : β} :
    (m >>= f) s = (.ok b, t) ↔ ∃ a u, m s = (.ok a, u) ∧ f a u = (.ok b, t) := by
  rw [bind_run]
  rcases h : m s with ⟨_ | a, u⟩
  · simp
  · constructor
    · intro hf; exact ⟨a, u, rfl, hf⟩
    · rintro ⟨a', u', heq, hf⟩
      cases heq
      exact hf

@[simp] theorem fail_eq_ok {e : ε} {s t : σ} {a : α} :
    ((fail e : Prog σ ε α) s = (.ok a, t)) ↔ False := by
  simp [fail]

@[simp] theorem ensure_eq_ok {c : Prop} [Decidable c] {e : ε} {s t : σ} {u : Unit} :
    (ensure c e s = (.ok u, t)) ↔ c ∧ s = t := by
  by_cases h : c <;> simp [ensure, h]

theorem when_of {c : Prop} [Decidable c] {m : Prog σ ε Unit} (h : c) : when c m = m := by
  simp [when, h]

theorem when_not {c : Prop} [Decidable c] {m : Prog σ ε Unit} (h : ¬c) : when c m = pure () := by
  simp [when, h]

/-- An attempt ends well with what `m` ends with. -/
theorem attempt_eq_ok {fatal : ε → Bool} {m : Prog σ ε α} {s t : σ} {r : Except ε α}
    (h : attempt fatal m s = (.ok r, t)) : m s = (r, t) := by
  rcases hm : m s with ⟨e | a, u⟩
  · simp only [attempt, hm] at h
    split at h
    · cases h
    · cases h; rfl
  · simp only [attempt, hm] at h
    cases h; rfl

theorem attempt_of_ok {fatal : ε → Bool} {m : Prog σ ε α} {s t : σ} {a : α}
    (h : m s = (.ok a, t)) : attempt fatal m s = (.ok (.ok a), t) := by
  simp only [attempt, h]

theorem each_cons_eq_ok {a : α} {as : List α} {f : α → Prog σ ε Unit} {s t : σ} {v : Unit} :
    each (a :: as) f s = (.ok v, t) ↔ ∃ u, f a s = (.ok (), u) ∧ each as f u = (.ok (), t) := by
  simp only [each, bind_eq_ok]
  constructor
  · rintro ⟨_, u, h⟩; exact ⟨u, h⟩
  · rintro ⟨u, h⟩; exact ⟨(), u, h⟩

/-- A counting loop that ends well, read backwards: what each round carries on. -/
theorem each_range'_ok {n : Nat} {f : Nat → Prog σ ε Unit} {I : Nat → σ → Prop} {a : Nat} {s t : σ}
    (hstep : ∀ i, a ≤ i → i < a + n → ∀ s t, I i s → f i s = (.ok (), t) → I (i + 1) t)
    (hs : I a s) (h : each (List.range' a n) f s = (.ok (), t)) : I (a + n) t := by
  induction n generalizing a s with
  | zero => cases h; exact hs
  | succ n ih =>
    rw [List.range'_succ, each_cons_eq_ok] at h
    obtain ⟨u, hu, h⟩ := h
    have hI := hstep a (Nat.le_refl a) (by omega) s u hs hu
    have := ih (fun i hi hi' => hstep i (by omega) (by omega)) hI h
    rwa [Nat.add_assoc, Nat.add_comm 1] at this

theorem each_range_ok {n : Nat} {f : Nat → Prog σ ε Unit} {I : Nat → σ → Prop} {s t : σ}
    (hstep : ∀ i < n, ∀ s t, I i s → f i s = (.ok (), t) → I (i + 1) t)
    (hs : I 0 s) (h : each (List.range n) f s = (.ok (), t)) : I n t := by
  rw [List.range_eq_range'] at h
  have := each_range'_ok (a := 0) (n := n) (fun i _ hi => hstep i (by omega)) hs h
  rwa [Nat.zero_add] at this

/-- A counting loop each round of which goes on ends well. -/
theorem each_range'_total {n : Nat} {f : Nat → Prog σ ε Unit} {I : Nat → σ → Prop} {a : Nat} {s : σ}
    (hstep : ∀ i, a ≤ i → i < a + n → ∀ s, I i s → ∃ t, f i s = (.ok (), t) ∧ I (i + 1) t)
    (hs : I a s) : ∃ t, each (List.range' a n) f s = (.ok (), t) ∧ I (a + n) t := by
  induction n generalizing a s with
  | zero => exact ⟨s, rfl, hs⟩
  | succ n ih =>
    obtain ⟨u, hu, hI⟩ := hstep a (Nat.le_refl a) (by omega) s hs
    obtain ⟨t, ht, hIt⟩ := ih (fun i hi hi' => hstep i (by omega) (by omega)) hI
    rw [List.range'_succ]
    refine ⟨t, each_cons_eq_ok.2 ⟨u, hu, ht⟩, ?_⟩
    rwa [Nat.add_assoc, Nat.add_comm 1] at hIt

theorem each_range_total {n : Nat} {f : Nat → Prog σ ε Unit} {I : Nat → σ → Prop} {s : σ}
    (hstep : ∀ i < n, ∀ s, I i s → ∃ t, f i s = (.ok (), t) ∧ I (i + 1) t)
    (hs : I 0 s) : ∃ t, each (List.range n) f s = (.ok (), t) ∧ I n t := by
  rw [List.range_eq_range']
  have := each_range'_total (a := 0) (n := n) (fun i _ hi => hstep i (by omega)) hs
  rwa [Nat.zero_add] at this

/-! ## What every run keeps -/

/-- However `m` ends, it keeps `I`; a value it ends with satisfies `R`. -/
def Keeps (I : σ → Prop) (m : Prog σ ε α) (R : α → Prop) : Prop :=
  ∀ s, I s → I (m s).2 ∧ ∀ a, (m s).1 = .ok a → R a

section Keeps

variable {I : σ → Prop} {R : α → Prop} {S : β → Prop}

theorem Keeps.pure {a : α} (h : R a) : Keeps I (pure a : Prog σ ε α) R := by
  intro s hs
  refine ⟨hs, fun b hb => ?_⟩
  cases hb
  exact h

theorem Keeps.fail {e : ε} : Keeps I (fail e : Prog σ ε α) R := by
  intro s hs
  exact ⟨hs, fun b hb => by cases hb⟩

theorem Keeps.bind {m : Prog σ ε α} {f : α → Prog σ ε β} (hm : Keeps I m R)
    (hf : ∀ a, R a → Keeps I (f a) S) : Keeps I (m >>= f) S := by
  intro s hs
  have h := hm s hs
  rw [bind_run]
  rcases hr : m s with ⟨e | a, t⟩
  · rw [hr] at h
    exact ⟨h.1, fun b hb => by cases hb⟩
  · rw [hr] at h
    exact hf a (h.2 a rfl) t h.1

theorem Keeps.mono {m : Prog σ ε α} {R' : α → Prop} (hm : Keeps I m R) (h : ∀ a, R a → R' a) :
    Keeps I m R' :=
  fun s hs => ⟨(hm s hs).1, fun a ha => h a ((hm s hs).2 a ha)⟩

theorem Keeps.get : Keeps I (get : Prog σ ε σ) I := by
  intro s hs
  exact ⟨hs, fun a ha => by cases ha; exact hs⟩

theorem Keeps.modify {f : σ → σ} (h : ∀ s, I s → I (f s)) :
    Keeps I (modify f : Prog σ ε Unit) (fun _ => True) :=
  fun s hs => ⟨h s hs, fun _ _ => trivial⟩

theorem Keeps.ensure {c : Prop} [Decidable c] {e : ε} :
    Keeps I (ensure c e : Prog σ ε Unit) (fun _ => c) := by
  by_cases h : c
  · intro s hs; simpa [Prog.ensure, h] using hs
  · intro s hs; simpa [Prog.ensure, h] using hs

theorem Keeps.attempt {fatal : ε → Bool} {m : Prog σ ε α} (hm : Keeps I m R) :
    Keeps I (attempt fatal m) (fun r => ∀ a, r = .ok a → R a) := by
  intro s hs
  have h := hm s hs
  rcases hr : m s with ⟨e | a, t⟩
  · rw [hr] at h
    by_cases hf : fatal e = true
    · simp only [Prog.attempt, hr, hf, ↓reduceIte]
      exact ⟨h.1, fun r hr => by cases hr⟩
    · simp only [Prog.attempt, hr, hf, Bool.false_eq_true, ↓reduceIte]
      exact ⟨h.1, fun r hr => by cases hr; exact fun a ha => by cases ha⟩
  · rw [hr] at h
    simp only [Prog.attempt, hr]
    exact ⟨h.1, fun r hr => by cases hr; exact fun b hb => by cases hb; exact h.2 a rfl⟩

theorem Keeps.ite {c : Prop} [Decidable c] {m n : Prog σ ε α} (hm : c → Keeps I m R)
    (hn : ¬c → Keeps I n R) : Keeps I (if c then m else n) R := by
  split
  · exact hm ‹_›
  · exact hn ‹_›

theorem Keeps.when {c : Prop} [Decidable c] {m : Prog σ ε Unit}
    (hm : c → Keeps I m fun _ => True) : Keeps I (when c m) fun _ => True :=
  Keeps.ite hm fun _ => Keeps.pure trivial

theorem Keeps.each {as : List α} {f : α → Prog σ ε Unit}
    (h : ∀ a ∈ as, Keeps I (f a) (fun _ => True)) : Keeps I (each as f) (fun _ => True) := by
  induction as with
  | nil => exact Keeps.pure trivial
  | cons a as ih =>
    exact (h a List.mem_cons_self).bind fun _ _ => ih fun b hb => h b (List.mem_cons_of_mem _ hb)

end Keeps

/-! ## What no run ends with -/

/-- However `m` ends, it keeps `I`, and not with a bad error; a value it ends with satisfies `R`. -/
def Spares (I : σ → Prop) (bad : ε → Prop) (m : Prog σ ε α) (R : α → Prop) : Prop :=
  ∀ s, I s → I (m s).2 ∧ (∀ e, (m s).1 = .error e → ¬bad e) ∧ ∀ a, (m s).1 = .ok a → R a

section Spares

variable {I : σ → Prop} {bad : ε → Prop} {R : α → Prop} {S : β → Prop}

theorem Spares.pure {a : α} (h : R a) : Spares I bad (pure a : Prog σ ε α) R := by
  intro s hs
  refine ⟨hs, fun e he => ?_, fun b hb => ?_⟩
  · cases he
  · cases hb
    exact h

theorem Spares.fail {e : ε} (h : ¬bad e) : Spares I bad (fail e : Prog σ ε α) R := by
  intro s hs
  refine ⟨hs, fun e' he => ?_, fun b hb => ?_⟩
  · cases he
    exact h
  · cases hb

theorem Spares.bind {m : Prog σ ε α} {f : α → Prog σ ε β} (hm : Spares I bad m R)
    (hf : ∀ a, R a → Spares I bad (f a) S) : Spares I bad (m >>= f) S := by
  intro s hs
  have h := hm s hs
  rw [bind_run]
  rcases hr : m s with ⟨e | a, t⟩
  · rw [hr] at h
    refine ⟨h.1, fun e' he => ?_, fun b hb => ?_⟩
    · cases he
      exact h.2.1 e rfl
    · cases hb
  · rw [hr] at h
    exact hf a (h.2.2 a rfl) t h.1

theorem Spares.mono {m : Prog σ ε α} {R' : α → Prop} (hm : Spares I bad m R)
    (h : ∀ a, R a → R' a) : Spares I bad m R' :=
  fun s hs => ⟨(hm s hs).1, (hm s hs).2.1, fun a ha => h a ((hm s hs).2.2 a ha)⟩

theorem Spares.ite {c : Prop} [Decidable c] {m n : Prog σ ε α} (hm : c → Spares I bad m R)
    (hn : ¬c → Spares I bad n R) : Spares I bad (if c then m else n) R := by
  split
  · exact hm ‹_›
  · exact hn ‹_›

end Spares

end Prog

end ReconOS
