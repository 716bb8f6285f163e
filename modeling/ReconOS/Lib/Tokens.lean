import ReconOS.Lib.Interleave
import Mathlib.Algebra.Order.Monoid.Canonical.Defs
import Mathlib.Algebra.Order.Pi
import Mathlib.Algebra.Order.Ring.Nat

/-! Threads over one shared state, with tokens that none of them can copy: what is held, in the
shared state and in the threads' hands, is what is due. -/
namespace ReconOS.Lib

namespace System

variable {σ τ ε κ ω : Type}
variable {M : Type} [AddCommMonoid M]

/-! ## One thread's hands, and the others' -/

theorem sum_eraseIdx (inHand : τ → M) (l : List τ) (i : Nat) (t : τ) (at_i : l[i]? = some t) :
    (l.map inHand).sum = inHand t + ((l.eraseIdx i).map inHand).sum ∧
      ∀ t', ((l.set i t').map inHand).sum = inHand t' + ((l.eraseIdx i).map inHand).sum := by
  induction l generalizing i with
  | nil => simp at at_i
  | cons u l ih =>
    cases i with
    | zero =>
      simp only [List.getElem?_cons_zero, Option.some.injEq] at at_i
      subst at_i
      simp
    | succ i =>
      obtain ⟨before, after⟩ := ih i (by simpa using at_i)
      refine ⟨?_, fun t' => ?_⟩
      · rw [List.map_cons, List.sum_cons, before, add_left_comm, List.eraseIdx_cons_succ,
          List.map_cons, List.sum_cons]
      · rw [List.set_cons_succ, List.map_cons, List.sum_cons, after, add_left_comm,
          List.eraseIdx_cons_succ, List.map_cons, List.sum_cons]

theorem sum_apply {T : Type} (inHand : τ → T → Nat) (l : List τ) (x : T) :
    (l.map inHand).sum x = (l.map fun t => inHand t x).sum := by
  induction l with
  | nil => rfl
  | cons t l ih => simp [ih]

/-- Where there is some of a token in the threads' hands, there is one that has some. -/
theorem exists_holder {T : Type} {inHand : τ → T → Nat} {l : List τ} {x : T}
    (some_ : 0 < (l.map inHand).sum x) : ∃ t ∈ l, 0 < inHand t x := by
  by_contra none_
  have zero : ∀ n ∈ l.map fun t => inHand t x, n = 0 := by
    intro n there
    obtain ⟨t, mem, rfl⟩ := List.mem_map.1 there
    by_contra pos
    exact none_ ⟨t, mem, Nat.pos_of_ne_zero pos⟩
  rw [sum_apply, List.sum_eq_zero zero] at some_
  exact Nat.lt_irrefl 0 some_

variable [PartialOrder M] (S : System σ τ ε κ ω)

/-- `I` holds of the shared state, `J` of each thread over it, and the tokens add up: what a section
adds to them it adds to what is due. A section may rely on the tokens that the thread, and any other
one beside it, have in hand. -/
structure Keeps (ok : ε → σ → τ → Prop) (I : σ → Prop) (J : σ → τ → Prop)
    (inShared : σ → M) (inHand : τ → M) (due : σ → M) : Prop where
  act : ∀ e s t, ok e s t → I s → J s t → inShared s + inHand t ≤ due s →
    I (S.act e s t).1 ∧ J (S.act e s t).1 (S.act e s t).2 ∧
      inShared (S.act e s t).1 + inHand (S.act e s t).2 + due s =
        inShared s + inHand t + due (S.act e s t).1
  others : ∀ e s t u, ok e s t → I s → J s t → J s u →
    inShared s + inHand t + inHand u ≤ due s → J (S.act e s t).1 u
  start : ∀ k s, I s → I (S.start k s).1 ∧ J (S.start k s).1 (S.start k s).2 ∧
    inShared (S.start k s).1 + inHand (S.start k s).2 + due s = inShared s + due (S.start k s).1
  startOthers : ∀ k s u, I s → J s u → J (S.start k s).1 u
  outside : ∀ o s, I s → I (S.outside o s) ∧
    inShared (S.outside o s) + due s = inShared s + due (S.outside o s)
  outsideOthers : ∀ o s u, I s → J s u → J (S.outside o s) u

/-- What `Keeps` keeps. -/
structure Kept (I : σ → Prop) (J : σ → τ → Prop) (inShared : σ → M) (inHand : τ → M) (due : σ → M)
    (w : World σ τ) : Prop where
  shared : I w.shared
  each : ∀ t ∈ w.threads, J w.shared t
  balance : total inShared inHand w = due w.shared

variable {S} {ok : ε → σ → τ → Prop} {I : σ → Prop} {J : σ → τ → Prop}
variable {inShared : σ → M} {inHand : τ → M} {due : σ → M}

theorem mem_set_cases {l : List τ} {i : Nat} {u t' : τ} (mem : u ∈ l.set i t') :
    u = t' ∨ u ∈ l.eraseIdx i := by
  induction l generalizing i with
  | nil => simp at mem
  | cons v l ih =>
    cases i with
    | zero =>
      cases List.mem_cons.1 mem with
      | inl same => exact .inl same
      | inr rest => exact .inr rest
    | succ i =>
      cases List.mem_cons.1 mem with
      | inl same => exact .inr (same ▸ List.mem_cons_self ..)
      | inr rest =>
        cases ih rest with
        | inl same => exact .inl same
        | inr other => exact .inr (List.mem_cons_of_mem v other)

variable [CanonicallyOrderedAdd M]

variable (inHand) in
theorem le_sum_hands {l : List τ} {u : τ} (mem : u ∈ l) : inHand u ≤ (l.map inHand).sum := by
  induction l with
  | nil => simp at mem
  | cons v l ih =>
    rw [List.map_cons, List.sum_cons]
    cases List.mem_cons.1 mem with
    | inl same => exact same ▸ le_self_add
    | inr rest => exact le_trans (ih rest) le_add_self

/-- No thread has in hand more than is due. -/
theorem Kept.hand_le {w : World σ τ} (kept : Kept I J inShared inHand due w) {t : τ}
    (mem : t ∈ w.threads) : inShared w.shared + inHand t ≤ due w.shared := by
  obtain ⟨more, sum⟩ := le_iff_exists_add.1 (le_sum_hands inHand mem)
  rw [← kept.balance, total, sum, ← add_assoc]
  exact le_self_add

/-- Nor two threads together. -/
theorem Kept.hands_le {w : World σ τ} (kept : Kept I J inShared inHand due w) {i : Nat} {t u : τ}
    (at_i : w.threads[i]? = some t) (mem : u ∈ w.threads.eraseIdx i) :
    inShared w.shared + inHand t + inHand u ≤ due w.shared := by
  obtain ⟨more, sum⟩ := le_iff_exists_add.1 (le_sum_hands inHand mem)
  rw [← kept.balance, total, (sum_eraseIdx inHand _ i t at_i).1, sum, ← add_assoc, ← add_assoc]
  exact le_self_add

/-- A token there is one of is in one thread's hands at most. -/
theorem Kept.only_holder {T : Type} {inShared : σ → T → Nat} {inHand : τ → T → Nat}
    {due : σ → T → Nat} {w : World σ τ} (kept : Kept I J inShared inHand due w) {x : T}
    (one : due w.shared x ≤ 1) {i j : Nat} {t u : τ} (at_i : w.threads[i]? = some t)
    (at_j : w.threads[j]? = some u) (holds : 0 < inHand t x) (holds' : 0 < inHand u x) : i = j := by
  by_contra differ
  have mem : u ∈ w.threads.eraseIdx i :=
    List.mem_eraseIdx_iff_getElem?.2 ⟨j, Ne.symm differ, at_j⟩
  have both := kept.hands_le at_i mem x
  simp only [Pi.add_apply] at both
  omega

variable [IsCancelAdd M]

theorem Keeps.step (h : S.Keeps ok I J inShared inHand due) {w : World σ τ} {m : Move ε κ ω}
    (allowed : Allowed ok w m) (kept : Kept I J inShared inHand due w) :
    Kept I J inShared inHand due (S.step w m) := by
  cases m with
  | act i e =>
    cases at_i : w.threads[i]? with
    | none =>
      simp only [System.step, at_i]
      exact kept
    | some t =>
      have allowed : ok e w.shared t := allowed t at_i
      have mem := List.mem_of_getElem? at_i
      obtain ⟨before, after⟩ := sum_eraseIdx inHand w.threads i t at_i
      obtain ⟨shared, own, moved⟩ :=
        h.act e w.shared t allowed kept.shared (kept.each t mem) (kept.hand_le mem)
      simp only [System.step, at_i]
      refine ⟨shared, ?_, ?_⟩
      · intro u mem_u
        cases mem_set_cases mem_u with
        | inl same => exact same ▸ own
        | inr other =>
          exact h.others e w.shared t u allowed kept.shared (kept.each t mem)
            (kept.each u (List.mem_of_mem_eraseIdx other)) (kept.hands_le at_i other)
      · have balance := kept.balance
        rw [total, before, ← add_assoc] at balance
        rw [total, after, ← add_assoc]
        refine add_right_cancel (b := due w.shared) ?_
        rw [add_right_comm, moved, add_right_comm, balance, add_comm]
  | start k =>
    obtain ⟨shared, own, brought⟩ := h.start k w.shared kept.shared
    refine ⟨shared, ?_, ?_⟩
    · intro u mem
      cases List.mem_append.1 mem with
      | inl other => exact h.startOthers k w.shared u kept.shared (kept.each u other)
      | inr same => exact List.mem_singleton.1 same ▸ own
    · have balance := kept.balance
      simp only [System.step, total, List.map_append, List.map_cons, List.map_nil, List.sum_append,
        List.sum_singleton] at balance ⊢
      refine add_right_cancel (b := due w.shared) ?_
      rw [add_comm (w.threads.map inHand).sum, ← add_assoc, add_right_comm, brought,
        add_right_comm, balance, add_comm]
  | outside o =>
    obtain ⟨shared, moved⟩ := h.outside o w.shared kept.shared
    refine ⟨shared, fun u mem => h.outsideOthers o w.shared u kept.shared (kept.each u mem), ?_⟩
    have balance := kept.balance
    simp only [System.step, total] at balance ⊢
    refine add_right_cancel (b := due w.shared) ?_
    rw [add_right_comm, moved, add_right_comm, balance, add_comm]

/-- Whatever the order of the moves that `ok` allows. -/
theorem Keeps.play (h : S.Keeps ok I J inShared inHand due) {w : World σ τ}
    {moves : List (Move ε κ ω)} (meets : S.Meets ok w moves)
    (kept : Kept I J inShared inHand due w) : Kept I J inShared inHand due (S.play w moves) := by
  induction moves generalizing w with
  | nil => exact kept
  | cons m rest ih => exact ih meets.2 (h.step meets.1 kept)

/-- Where every section is allowed, every list of moves is. -/
theorem meets_true (w : World σ τ) (moves : List (Move ε κ ω)) :
    S.Meets (fun _ _ _ => True) w moves := by
  induction moves generalizing w with
  | nil => trivial
  | cons m rest ih => exact ⟨by cases m <;> simp [Allowed], ih _⟩

end System

end ReconOS.Lib
