import Mathlib.Data.UInt
import Mathlib.Algebra.Order.Ring.Nat

/-! Byte-addressed memory: eight-byte words stored low byte first, ranges filled and copied, and
which sixteen-byte slots a change may have touched. -/
namespace ReconOS

/-- Memory, a byte at each address. -/
abbrev Mem := Nat → UInt8

namespace Mem

/-- The word at `a`, low byte first. -/
@[irreducible] def load (m : Mem) (a : Nat) : Nat :=
  (m a).toNat + 256 * ((m (a + 1)).toNat + 256 * ((m (a + 2)).toNat + 256 * ((m (a + 3)).toNat +
    256 * ((m (a + 4)).toNat + 256 * ((m (a + 5)).toNat + 256 * ((m (a + 6)).toNat +
      256 * (m (a + 7)).toNat))))))

@[irreducible] def store (m : Mem) (a v : Nat) : Mem := fun x =>
  if a ≤ x ∧ x < a + 8 then UInt8.ofNat (v / 256 ^ (x - a)) else m x

/-- `n` bytes at `a`, all set to `v`. -/
def fill (m : Mem) (a n : Nat) (v : UInt8) : Mem := fun x => if a ≤ x ∧ x < a + n then v else m x

/-- `n` bytes copied from `src` to `dst`. -/
def copy (m : Mem) (dst src n : Nat) : Mem := fun x =>
  if dst ≤ x ∧ x < dst + n then m (src + (x - dst)) else m x

variable {m m' m'' : Mem} {a b v : Nat}

theorem store_byte_at (m : Mem) (a v i : Nat) (h : i < 8) :
    (m.store a v) (a + i) = UInt8.ofNat (v / 256 ^ i) := by
  have hin : a ≤ a + i ∧ a + i < a + 8 := by omega
  rw [store, if_pos hin, Nat.add_sub_cancel_left]

theorem store_byte_ne {x : Nat} (h : x < a ∨ a + 8 ≤ x) : (m.store a v) x = m x := by
  unfold store
  apply if_neg
  omega

/-- A word stored is the word read back. -/
theorem load_store_self (hv : v < 2 ^ 64) : (m.store a v).load a = v := by
  have h0 := store_byte_at m a v 0 (by omega)
  rw [Nat.add_zero] at h0
  simp only [load, h0, store_byte_at, Nat.reduceLT, UInt8.toNat_ofNat', Nat.reducePow]
  omega

theorem load_congr (h : ∀ i < 8, m' (a + i) = m (a + i)) : m'.load a = m.load a := by
  have h0 := h 0 (by omega)
  rw [Nat.add_zero] at h0
  simp only [load, h0, h, Nat.reduceLT]

theorem load_store_ne (h : b + 8 ≤ a ∨ a + 8 ≤ b) : (m.store a v).load b = m.load b := by
  apply load_congr
  intro i hi
  apply store_byte_ne
  omega

/-- Stores to different words can be swapped. -/
theorem store_comm {m : Mem} {a b v w : Nat} (h : a + 8 ≤ b ∨ b + 8 ≤ a) :
    (m.store a v).store b w = (m.store b w).store a v := by
  funext x
  by_cases ha : a ≤ x ∧ x < a + 8
  · rw [store_byte_ne (by omega)]
    unfold store
    rw [if_pos ha, if_pos ha]
  · rw [store_byte_ne (m := m.store b w) (by omega)]
    unfold store
    by_cases hb : b ≤ x ∧ x < b + 8
    · rw [if_pos hb, if_pos hb]
    · rw [if_neg hb, if_neg hb, if_neg ha]

theorem carry_lt {n rest : Nat} (low : UInt8) (h : rest < 256 ^ n) :
    low.toNat + 256 * rest < 256 ^ (n + 1) := by
  have byte := low.toNat_lt
  rw [Nat.pow_succ]
  omega

theorem load_lt (m : Mem) (a : Nat) : m.load a < 2 ^ 64 := by
  unfold load
  change _ < 256 ^ 8
  iterate 7 apply carry_lt
  exact (m (a + 7)).toNat_lt

/-! ## What a change may have touched -/

/-- Only bytes of sixteen-byte slots that start at an address satisfying `P` differ. -/
def Only (P : Nat → Prop) (m m' : Mem) : Prop :=
  ∀ x, (∀ y, P y → x < y ∨ y + 16 ≤ x) → m' x = m x

variable {P Q : Nat → Prop}

theorem Only.refl (P : Nat → Prop) (m : Mem) : Only P m m := fun _ _ => rfl

theorem Only.trans (h : Only P m m') (k : Only P m' m'') : Only P m m'' := by
  intro x hx
  rw [k x hx, h x hx]

theorem Only.symm (h : Only P m m') : Only P m' m := fun x hx => (h x hx).symm

theorem Only.mono (h : Only P m m') (hpq : ∀ y, P y → Q y) : Only Q m m' := by
  intro x hx
  exact h x fun y hy => hx y (hpq y hy)

theorem Only.store (m : Mem) {s : Nat} (a v : Nat) (hs : P s) (h : s ≤ a) (h' : a + 8 ≤ s + 16) :
    Only P m (m.store a v) := by
  intro x hx
  have := hx s hs
  apply store_byte_ne
  omega

/-- A word outside the touched slots reads as before. -/
theorem Only.load (h : Only P m m') {x : Nat} (hx : ∀ y, P y → x + 8 ≤ y ∨ y + 16 ≤ x) :
    m'.load x = m.load x := by
  apply load_congr
  intro i hi
  apply h
  intro y hy
  have := hx y hy
  omega

end Mem

end ReconOS
