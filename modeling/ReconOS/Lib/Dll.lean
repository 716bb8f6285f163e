import ReconOS.Lib.Memory
import Mathlib.Data.List.Perm.Subperm

/-! Doubly linked lists in memory. A node keeps its two links in the slot `off` bytes into it: the
next node, then the one before, with zero for none. -/
namespace ReconOS.Mem

/-- Put `a` in front of the list that starts at `first`. -/
def pushFront (m : Mem) (off first a : Nat) : Mem :=
  let m := m.store (a + off + 8) 0
  let m := m.store (a + off) first
  if first ≠ 0 then m.store (first + off + 8) a else m

/-- Take `a` out of the list that starts at `first`; the list's new start comes back with it. -/
def unlink (m : Mem) (off first a : Nat) : Mem × Nat :=
  let prev := m.load (a + off + 8)
  let r := if prev ≠ 0 then (m.store (prev + off) (m.load (a + off)), first)
    else (m, m.load (a + off))
  let next := r.1.load (a + off)
  (if next ≠ 0 then r.1.store (next + off + 8) (r.1.load (a + off + 8)) else r.1, r.2)

/-- A stretch of list: entered at `cur` from `prev`, through the nodes listed, out to `out`. -/
def Path (m : Mem) (off : Nat) : (prev cur : Nat) → List Nat → (out : Nat) → Prop
  | _, cur, [], out => cur = out
  | prev, cur, a :: as, out =>
    cur = a ∧ a ≠ 0 ∧ m.load (a + off + 8) = prev ∧ Path m off a (m.load (a + off)) as out

/-- A whole list, from its start. -/
def Links (m : Mem) (off first : Nat) (as : List Nat) : Prop := Path m off 0 first as 0

/-- Addresses that can be nodes of one list: all different, aligned, and addresses. -/
structure Nodes (as : List Nat) : Prop where
  nodup : as.Nodup
  aligned : ∀ x ∈ as, x % 16 = 0
  lt : ∀ x ∈ as, x < 2 ^ 64

def lastOf : (prev : Nat) → List Nat → Nat
  | prev, [] => prev
  | _, a :: as => lastOf a as

variable {m m' : Mem} {off prev cur out first a b : Nat} {as bs : List Nat}

theorem Nodes.sublist (h : Nodes bs) (hs : as.Sublist bs) : Nodes as :=
  ⟨h.nodup.sublist hs, fun x hx => h.aligned x (hs.subset hx), fun x hx => h.lt x (hs.subset hx)⟩

theorem Path.append : Path m off prev cur (as ++ bs) out ↔
    ∃ mid, Path m off prev cur as mid ∧ Path m off (lastOf prev as) mid bs out := by
  induction as generalizing prev cur with
  | nil =>
    simp only [List.nil_append, Path, lastOf]
    constructor
    · intro h; exact ⟨cur, rfl, h⟩
    · rintro ⟨_, rfl, h⟩; exact h
  | cons x as ih =>
    simp only [List.cons_append, Path, ih, lastOf]
    constructor
    · rintro ⟨hx, h0, hp, mid, h, h'⟩; exact ⟨mid, ⟨hx, h0, hp, h⟩, h'⟩
    · rintro ⟨mid, ⟨hx, h0, hp, h⟩, h'⟩; exact ⟨hx, h0, hp, mid, h, h'⟩

theorem Path.congr (h : Path m off prev cur as out)
    (hw : ∀ x ∈ as, m'.load (x + off) = m.load (x + off) ∧
      m'.load (x + off + 8) = m.load (x + off + 8)) : Path m' off prev cur as out := by
  induction as generalizing prev cur with
  | nil => exact h
  | cons x as ih =>
    obtain ⟨hx, h0, hp, h⟩ := h
    obtain ⟨hn, hp'⟩ := hw x List.mem_cons_self
    refine ⟨hx, h0, hp'.trans hp, ?_⟩
    rw [hn]
    exact ih h fun y hy => hw y (List.mem_cons_of_mem x hy)

theorem Path.ne_zero (h : Path m off prev cur as out) {x : Nat} (hx : x ∈ as) : x ≠ 0 := by
  induction as generalizing prev cur with
  | nil => cases hx
  | cons y as ih =>
    obtain ⟨-, h0, -, h⟩ := h
    rcases List.mem_cons.1 hx with rfl | hx
    · exact h0
    · exact ih h hx

/-- The last node of a stretch sent elsewhere. -/
theorem Path.setNext (h : Path m off prev cur (as ++ [a]) out) (hn : Nodes (as ++ [a]))
    {v : Nat} (hv : v < 2 ^ 64) :
    Path (m.store (a + off) v) off prev cur (as ++ [a]) v := by
  obtain ⟨mid, h, hmid, h0, hp, -⟩ := Path.append.1 h
  apply Path.append.2
  refine ⟨mid, h.congr ?_, hmid, h0, ?_, load_store_self hv⟩
  · intro x hx
    have hne : x ≠ a := by
      have := (List.nodup_append.1 hn.nodup).2.2 x hx a List.mem_cons_self
      exact this
    have hxa := hn.aligned x (List.mem_append_left _ hx)
    have haa := hn.aligned a (List.mem_append_right _ List.mem_cons_self)
    constructor
    · apply load_store_ne; omega
    · apply load_store_ne; omega
  · rw [load_store_ne (by omega)]
    exact hp

/-- The first node of a stretch entered from elsewhere. -/
theorem Path.setPrev (h : Path m off prev cur (a :: as) out) (hn : Nodes (a :: as))
    {v : Nat} (hv : v < 2 ^ 64) :
    Path (m.store (a + off + 8) v) off v cur (a :: as) out := by
  obtain ⟨hc, h0, -, h⟩ := h
  have hframe : (m.store (a + off + 8) v).load (a + off) = m.load (a + off) := by
    apply load_store_ne; omega
  refine ⟨hc, h0, load_store_self hv, ?_⟩
  rw [hframe]
  apply h.congr
  intro x hx
  have hne : x ≠ a := by
    rintro rfl
    exact (List.nodup_cons.1 hn.nodup).1 hx
  have hxa := hn.aligned x (List.mem_cons_of_mem a hx)
  have haa := hn.aligned a List.mem_cons_self
  constructor
  · apply load_store_ne; omega
  · apply load_store_ne; omega

/-- Fewer nodes than addresses. -/
theorem Nodes.length_lt (h : Nodes as) (h0 : ∀ x ∈ as, x ≠ 0) : as.length < 2 ^ 64 := by
  have hsub : as ⊆ List.range' 1 (2 ^ 64 - 1) := by
    intro x hx
    have := h.lt x hx
    have := h0 x hx
    rw [List.mem_range'_1]
    omega
  have hle := (h.nodup.subperm hsub).length_le
  rw [List.length_range'] at hle
  omega

/-- The nodes from `a` on, `n` of them at most. -/
def walk (m : Mem) (off : Nat) : (n a : Nat) → List Nat
  | 0, _ => []
  | n + 1, a => if a = 0 then [] else a :: walk m off n (m.load (a + off))

theorem Path.walk_eq (h : Path m off prev cur as 0) {n : Nat} (hn : as.length < n) :
    m.walk off n cur = as := by
  induction as generalizing prev cur n with
  | nil =>
    obtain ⟨n, rfl⟩ : ∃ k, n = k + 1 := ⟨n - 1, by simp at hn; omega⟩
    rw [show cur = 0 from h]
    simp [walk]
  | cons x as ih =>
    obtain ⟨n, rfl⟩ : ∃ k, n = k + 1 := ⟨n - 1, by simp at hn; omega⟩
    obtain ⟨rfl, h0, -, h⟩ := h
    rw [walk, if_neg h0, ih h (by simpa using hn)]

/-! ## What the two operations do -/

theorem Links.first_mem (h : Links m off first as) (h0 : first ≠ 0) : first ∈ as := by
  cases as with
  | nil => exact absurd h h0
  | cons x as => rw [h.1]; exact List.mem_cons_self

theorem Links.congr (h : Links m off first as)
    (hw : ∀ x ∈ as, m'.load (x + off) = m.load (x + off) ∧
      m'.load (x + off + 8) = m.load (x + off + 8)) : Links m' off first as :=
  Path.congr h hw

theorem Links.pushFront (h : Links m off first as) (hn : Nodes (a :: as)) (h0 : a ≠ 0) :
    Links (m.pushFront off first a) off a (a :: as) := by
  have hlt := hn.lt a List.mem_cons_self
  have haa := hn.aligned a List.mem_cons_self
  have hnext : ((m.store (a + off + 8) 0).store (a + off) first).load (a + off + 8) = 0 := by
    rw [load_store_ne (by omega), load_store_self (by omega)]
  have hrest : ∀ x ∈ as, ∀ k, k ≤ 8 → ((m.store (a + off + 8) 0).store (a + off) first).load
      (x + off + k) = m.load (x + off + k) := by
    intro x hx k hk
    have hne : x ≠ a := by
      rintro rfl
      exact (List.nodup_cons.1 hn.nodup).1 hx
    have hxa := hn.aligned x (List.mem_cons_of_mem a hx)
    rw [load_store_ne (by omega), load_store_ne (by omega)]
  have htail : Links ((m.store (a + off + 8) 0).store (a + off) first) off first as :=
    h.congr fun x hx => ⟨hrest x hx 0 (by omega), hrest x hx 8 (by omega)⟩
  cases as with
  | nil =>
    have hf : first = 0 := h
    subst hf
    simp only [Mem.pushFront, ne_eq, not_true_eq_false, ↓reduceIte]
    refine ⟨rfl, h0, hnext, ?_⟩
    rw [load_store_self (by omega)]
    rfl
  | cons x as =>
    have hf : first = x := h.1
    subst hf
    have hf0 : first ≠ 0 := h.2.1
    have hne : first ≠ a := by
      rintro rfl
      exact (List.nodup_cons.1 hn.nodup).1 List.mem_cons_self
    have hfa := hn.aligned first (List.mem_cons_of_mem a List.mem_cons_self)
    have hflt := hn.lt first (List.mem_cons_of_mem a List.mem_cons_self)
    simp only [Mem.pushFront, ne_eq, hf0, not_false_eq_true, ↓reduceIte]
    refine ⟨rfl, h0, ?_, ?_⟩
    · rw [load_store_ne (by omega)]
      exact hnext
    · rw [load_store_ne (by omega), load_store_self hflt]
      exact htail.setPrev (hn.sublist (List.sublist_cons_self a _)) hlt

theorem pushFront_only (h : Links m off first as) :
    Only (fun y => ∃ x ∈ a :: as, y = x + off) m (m.pushFront off first a) := by
  have ha : ∃ x ∈ a :: as, a + off = x + off := ⟨a, List.mem_cons_self, rfl⟩
  have hpair : Only (fun y => ∃ x ∈ a :: as, y = x + off) m
      ((m.store (a + off + 8) 0).store (a + off) first) :=
    (Only.store m _ _ ha (by omega) (by omega)).trans
      (Only.store _ _ _ ha (by omega) (by omega))
  unfold Mem.pushFront
  split
  · rename_i h0
    have hf : ∃ x ∈ a :: as, first + off = x + off :=
      ⟨first, List.mem_cons_of_mem a (h.first_mem h0), rfl⟩
    exact hpair.trans (Only.store _ _ _ hf (by omega) (by omega))
  · exact hpair

theorem pushFront_store {m : Mem} {off first a b v : Nat}
    (ha : b + 8 ≤ a + off ∨ a + off + 16 ≤ b)
    (hf : first ≠ 0 → b + 8 ≤ first + off ∨ first + off + 16 ≤ b) :
    (m.store b v).pushFront off first a = (m.pushFront off first a).store b v := by
  have h1 : (m.store b v).store (a + off + 8) 0 = (m.store (a + off + 8) 0).store b v :=
    store_comm (by omega)
  have h2 : ((m.store (a + off + 8) 0).store b v).store (a + off) first =
      ((m.store (a + off + 8) 0).store (a + off) first).store b v := store_comm (by omega)
  unfold pushFront
  simp only [h1, h2]
  split
  · rename_i h0
    have := hf h0
    exact store_comm (by omega)
  · rfl

/-- What leads out of a node leads to the rest of the list. -/
theorem Links.split (h : Links m off first (as ++ a :: bs)) :
    Path m off 0 first as a ∧ a ≠ 0 ∧ m.load (a + off + 8) = lastOf 0 as ∧
      Path m off a (m.load (a + off)) bs 0 := by
  obtain ⟨mid, hpre, rfl, h0, hp, hpost⟩ := Path.append.1 h
  exact ⟨hpre, h0, hp, hpost⟩

theorem lastOf_concat (prev : Nat) (as : List Nat) (a : Nat) : lastOf prev (as ++ [a]) = a := by
  induction as generalizing prev with
  | nil => rfl
  | cons x as ih => exact ih x

/-- The start of a stretch, entered from elsewhere: the write that says so, where there is a node to
say it. -/
def setBack (m : Mem) (off next v : Nat) : Mem :=
  if next ≠ 0 then m.store (next + off + 8) v else m

theorem Path.setBack {v : Nat} (h : Path m off prev cur as 0) (hn : Nodes as) (hv : v < 2 ^ 64) :
    Path (m.setBack off cur v) off v cur as 0 := by
  cases as with
  | nil => exact h
  | cons x as =>
    obtain rfl : cur = x := h.1
    unfold Mem.setBack
    rw [if_pos h.2.1]
    exact Path.setPrev h hn hv

theorem setBack_only {v : Nat} (h : Path m off prev cur as 0) :
    Only (fun y => ∃ x ∈ as, y = x + off) m (m.setBack off cur v) := by
  unfold Mem.setBack
  split
  · rename_i h0
    cases as with
    | nil => exact absurd h h0
    | cons x as =>
      obtain rfl : cur = x := h.1
      exact Only.store _ _ _ ⟨cur, List.mem_cons_self, rfl⟩ (by omega) (by omega)
  · exact Only.refl _ _

theorem Only.path {P : Nat → Prop} (h : Only P m m') (hp : Path m off prev cur as out)
    (hx : ∀ x ∈ as, ∀ y, P y → x + off + 16 ≤ y ∨ y + 16 ≤ x + off) :
    Path m' off prev cur as out := by
  apply hp.congr
  intro x hmem
  constructor
  · apply h.load
    intro y hy
    have := hx x hmem y hy
    omega
  · apply h.load
    intro y hy
    have := hx x hmem y hy
    omega

/-- Taking a node out leaves the rest of the list, in order. -/
theorem Links.unlink (h : Links m off first (as ++ a :: bs)) (hn : Nodes (as ++ a :: bs)) :
    Links (m.unlink off first a).1 off (m.unlink off first a).2 (as ++ bs) ∧
      Only (fun y => ∃ x ∈ as ++ bs, y = x + off) m (m.unlink off first a).1 := by
  obtain ⟨hpre, ha0, hprev, hpost⟩ := h.split
  have hnb : Nodes bs := hn.sublist ((List.sublist_cons_self a bs).trans
    (List.sublist_append_right as _))
  have hna : Nodes as := hn.sublist (List.sublist_append_left as _)
  have hdisj := List.nodup_append.1 hn.nodup
  have hab : a ∉ bs := (List.nodup_cons.1 hdisj.2.1).1
  have haa := hn.aligned a (by simp)
  have hapart : ∀ x ∈ as, ∀ y ∈ a :: bs, x + off + 16 ≤ y + off ∨ y + off + 16 ≤ x + off := by
    intro x hx y hy
    have hne : x ≠ y := hdisj.2.2 x hx y hy
    have := hna.aligned x hx
    have := hn.aligned y (List.mem_append_right as hy)
    omega
  rcases List.eq_nil_or_concat' as with rfl | ⟨ps, p, rfl⟩
  · have hp0 : m.load (a + off + 8) = 0 := hprev
    have hun : m.unlink off first a = (m.setBack off (m.load (a + off)) 0, m.load (a + off)) := by
      simp only [Mem.unlink, hp0, ne_eq, not_true_eq_false, ↓reduceIte, Mem.setBack]
    have hback : Path (m.setBack off (m.load (a + off)) 0) off 0 (m.load (a + off)) bs 0 :=
      hpost.setBack hnb (Nat.two_pow_pos 64)
    rw [hun, List.nil_append]
    constructor
    · exact hback
    · exact setBack_only hpost
  · have hpm : p ∈ ps ++ [p] := by simp
    have hp0 : p ≠ 0 := hpre.ne_zero hpm
    rw [lastOf_concat] at hprev
    have hpa := hapart p hpm a List.mem_cons_self
    have hstore : ∀ k, k ≤ 8 → (m.store (p + off) (m.load (a + off))).load (a + off + k) =
        m.load (a + off + k) := by
      intro k hk
      apply load_store_ne; omega
    have hnext := hstore 0 (by omega)
    rw [Nat.add_zero] at hnext
    have hun : m.unlink off first a =
        ((m.store (p + off) (m.load (a + off))).setBack off (m.load (a + off)) p, first) := by
      simp only [Mem.unlink, hprev, ne_eq, hp0, not_false_eq_true, ↓reduceIte, hnext,
        hstore 8 (by omega), Mem.setBack]
    rw [hun]
    have honly : Only (fun y => y = p + off) m (m.store (p + off) (m.load (a + off))) :=
      Only.store _ _ _ rfl (by omega) (by omega)
    have hpre' : Path (m.store (p + off) (m.load (a + off))) off 0 first (ps ++ [p])
        (m.load (a + off)) := hpre.setNext hna (load_lt m _)
    have hpost' : Path (m.store (p + off) (m.load (a + off))) off a (m.load (a + off)) bs 0 := by
      apply honly.path hpost
      intro x hx y hy
      have := hapart p hpm x (List.mem_cons_of_mem a hx)
      omega
    have hback := setBack_only (v := p) hpost'
    constructor
    · apply Path.append.2
      refine ⟨m.load (a + off), hback.path hpre' ?_, ?_⟩
      · rintro x hx y ⟨z, hz, rfl⟩
        exact hapart x hx z (List.mem_cons_of_mem a hz)
      · rw [lastOf_concat]
        exact hpost'.setBack hnb (hna.lt p hpm)
    · apply Only.trans
      · apply honly.mono
        rintro y rfl
        exact ⟨p, by simp, rfl⟩
      · apply hback.mono
        rintro y ⟨x, hx, rfl⟩
        exact ⟨x, List.mem_append_right _ hx, rfl⟩

end ReconOS.Mem
