import Mathlib.Data.Multiset.UnionInter
import Mathlib.Data.Multiset.AddSub
import Mathlib.Data.Multiset.MapFold

/-! Ownership as a ledger: a map from keys to owners, and the multiset of claims it records. A
claim made or given up changes one entry of each. -/
namespace ReconOS

variable {κ ν : Type}

/-- `own` records exactly the claims in `M`, each key claimed once; every other key is `void`. -/
structure Ledger (void : ν) (own : κ → ν) (M : Multiset (κ × ν)) : Prop where
  once : (M.map Prod.fst).Nodup
  mem_iff : ∀ k v, (k, v) ∈ M ↔ own k = v ∧ v ≠ void

namespace Ledger

variable {void : ν} {own : κ → ν} {M A B : Multiset (κ × ν)} {k : κ} {v : ν}

theorem own_eq (h : Ledger void own M) (hm : (k, v) ∈ M) : own k = v := ((h.mem_iff k v).1 hm).1

theorem ne_void (h : Ledger void own M) (hm : (k, v) ∈ M) : v ≠ void := ((h.mem_iff k v).1 hm).2

theorem mem_of_ne (h : Ledger void own M) (hk : own k ≠ void) : (k, own k) ∈ M :=
  (h.mem_iff k (own k)).2 ⟨rfl, hk⟩

theorem key_iff (h : Ledger void own M) : k ∈ M.map Prod.fst ↔ own k ≠ void := by
  simp only [Multiset.mem_map, Prod.exists, exists_and_right, exists_eq_right]
  constructor
  · rintro ⟨v, hm⟩ hv
    exact h.ne_void hm ((h.own_eq hm).symm.trans hv)
  · intro hk
    exact ⟨own k, h.mem_of_ne hk⟩

theorem free_iff (h : Ledger void own M) : own k = void ↔ k ∉ M.map Prod.fst := by
  rw [h.key_iff, not_not]

/-- A map records one multiset of claims. -/
theorem unique {N : Multiset (κ × ν)} (h : Ledger void own M) (h' : Ledger void own N) : M = N := by
  refine (Multiset.Nodup.ext (.of_map _ h.once) (.of_map _ h'.once)).2 ?_
  rintro ⟨k, v⟩
  rw [h.mem_iff, h'.mem_iff]

theorem claim [DecidableEq κ] (h : Ledger void own M) (hk : own k = void) (hv : v ≠ void) :
    Ledger void (Function.update own k v) ((k, v) ::ₘ M) := by
  have hnot : k ∉ M.map Prod.fst := h.free_iff.1 hk
  refine ⟨?_, fun x w => ?_⟩
  · simpa using ⟨by simpa using hnot, h.once⟩
  · rw [Multiset.mem_cons]
    by_cases hx : x = k
    · subst hx
      have hno : (x, w) ∉ M := fun hm => hnot (Multiset.mem_map_of_mem Prod.fst hm)
      simp only [Function.update_self, hno, or_false, Prod.mk.injEq, true_and]
      constructor
      · rintro rfl; exact ⟨rfl, hv⟩
      · exact fun hw => hw.1.symm
    · simp [hx, h.mem_iff]

end Ledger

end ReconOS
