import ReconOS.Fat32.Format
import ReconOS.Gpt.Encode

/-! The allocation table written: an entry in both copies, and a chain of free clusters. On a device
that answers, what comes of it. -/
namespace ReconOS.Fat32
open Gpt Lib Prog

variable (m : Machine) (v : Volume)

def writeSectors (sector count : Nat) (buf : Bytes) : Op Unit :=
  blockWrite m (sector * v.bytesPerSector / v.devSectorSize) (count * v.per) buf

/-- A number in an entry, the bits that are none of it kept. -/
def mergeEntry (old value : Nat) : Nat :=
  old / clusterNumbers * clusterNumbers + value % clusterNumbers

/-- A block of the table with one entry's number changed. -/
def Volume.withEntry (buf : Bytes) (cluster value : Nat) : Bytes :=
  let within := cluster % v.perSector * 4
  buf.put32 within (mergeEntry (buf.le32 within) value)

/-- The entry in one copy: its sector is read, changed and written. -/
def entrySetCopy (cluster value copy : Nat) : Op Unit := do
  let buf ← readSectors m v (v.fatStart + copy * v.fatSectors + cluster / v.perSector) 1
  writeSectors m v (v.fatStart + copy * v.fatSectors + cluster / v.perSector) 1
    (v.withEntry buf cluster value)

/-- `entry_set`. -/
def entrySet (cluster value : Nat) : Op Unit :=
  if ¬v.ClusterOk cluster ∨ v.fatSectors ≤ cluster / v.perSector then fail .corrupt
  else do
    let room ← m.kzalloc
    if room = true then each (List.range v.fatCount) (entrySetCopy m v cluster value)
    else fail .nomem

def clusterLast : Nat := 0x0FFFFFFF

/-- The loop of `alloc_chain`, at cluster `c` with so many made. -/
def allocFrom (count : Nat) : (fuel : Nat) → (c prev head made : Nat) → Op Nat
  | 0, _, _, _, _ => hang
  | fuel + 1, c, prev, head, made =>
    if count ≤ made then pure head
    else if ¬v.ClusterOk c then fail .tooLarge
    else do
      let value ← nextCluster m v c
      if value ≠ clusterFree then allocFrom count fuel (c + 1) prev head made
      else do
        entrySet m v c clusterLast
        when (prev ≠ 0) (entrySet m v prev c)
        allocFrom count fuel (c + 1) c (if prev ≠ 0 then head else c) (made + 1)

/-- `alloc_chain`. -/
def allocChain (fuel count : Nat) : Op Nat :=
  if count = 0 then pure 0 else allocFrom m v count fuel clusterFirst 0 0 0

/-! ## Runs by the blocks they find and leave -/

/-- From any world with these blocks it ends like this, and leaves those. -/
def Turns {α : Type} (before : Nat → Bytes) (op : Op α) (r : Except Stop α)
    (after : Nat → Bytes) : Prop :=
  ∀ w : World, w.block = before → ∃ w' : World, op w = (r, w') ∧ w'.block = after

section Turns

variable {α β : Type} {b b₁ b₂ : Nat → Bytes} {op : Op α} {f : α → Op β} {a : α}
  {r : Except Stop β} {e : Stop}

theorem Turns.pure : Turns b (pure a : Op α) (.ok a) b := fun w is => ⟨w, rfl, is⟩

theorem Turns.bind (first : Turns b op (.ok a) b₁) (rest : Turns b₁ (f a) r b₂) :
    Turns b (op >>= f) r b₂ := by
  intro w is
  obtain ⟨w₁, runs, is₁⟩ := first w is
  obtain ⟨w₂, runs', is₂⟩ := rest w₁ is₁
  exact ⟨w₂, (bind_of_ok runs).trans runs', is₂⟩

theorem Turns.bind_error (first : Turns b op (.error e) b₁) :
    Turns b (op >>= f) (.error e) b₁ := by
  intro w is
  obtain ⟨w₁, runs, is₁⟩ := first w is
  exact ⟨w₁, bind_of_error runs, is₁⟩

theorem Turns.unique {b' : Nat → Bytes} {r r' : Except Stop α} (first : Turns b op r b₁)
    (second : Turns b op r' b') : r = r' := by
  obtain ⟨w₁, runs, _⟩ := first ⟨b, [], 0, 0⟩ rfl
  obtain ⟨w₂, runs', _⟩ := second ⟨b, [], 0, 0⟩ rfl
  exact congrArg Prod.fst (runs.symm.trans runs')

theorem turns_fail {s : Status} : Turns b (fail s : Op α) (.error (.failed s)) b :=
  fun w is => ⟨w, rfl, is⟩

end Turns

/-! ## A device that answers -/

/-- Memory and device answer, a sector is a block, and there are two tables on the device. -/
structure Plain (m : Machine) (v : Volume) : Prop where
  heap : ∀ n, m.heap n = true
  moves : ∀ n, m.moves n = true
  sector : v.bytesPerSector = m.blockSize
  block : v.devSectorSize = m.blockSize
  large : 512 ≤ m.blockSize
  two : v.fatCount = 2
  fits : v.fatStart + v.fatSectors * 2 ≤ m.blockCount

variable {m v} {b : Nat → Bytes}

theorem Plain.kzalloc (plain : Plain m v) : Turns b m.kzalloc (.ok true) b := by
  intro w is
  refine ⟨{ w with asked := w.asked + 1 }, ?_, is⟩
  rw [Machine.kzalloc, plain.heap]

/-- The bytes from a block on. -/
def Machine.bytesOf (m : Machine) (b : Nat → Bytes) (lba : Nat) : Bytes :=
  fun i => b (lba + i / m.blockSize) (i % m.blockSize)

theorem bytesOf_first {lba i : Nat} (less : i < m.blockSize) : m.bytesOf b lba i = b lba i := by
  unfold Machine.bytesOf
  rw [Nat.div_eq_of_lt less, Nat.mod_eq_of_lt less, Nat.add_zero]

theorem Plain.lba (plain : Plain m v) (sector : Nat) :
    sector * v.bytesPerSector / v.devSectorSize = sector := by
  have some : 0 < m.blockSize := Nat.lt_of_lt_of_le (by decide) plain.large
  rw [plain.sector, plain.block, Nat.mul_div_cancel _ some]

theorem Plain.per (plain : Plain m v) : v.per = 1 := by
  have some : 0 < m.blockSize := Nat.lt_of_lt_of_le (by decide) plain.large
  rw [Volume.per, plain.sector, plain.block, Nat.div_self some]

theorem Plain.read (plain : Plain m v) {sector count : Nat} (some : 0 < count)
    (fits : sector + count ≤ m.blockCount) :
    Turns b (readSectors m v sector count) (.ok (m.bytesOf b sector)) b := by
  intro w is
  refine ⟨{ w with reads := w.reads ++ [(sector, count)], moved := w.moved + 1 }, ?_, is⟩
  unfold readSectors Machine.blockRead
  rw [plain.lba, plain.per, Nat.mul_one]
  dsimp only
  rw [if_pos ⟨.inr ⟨by omega, by omega⟩, plain.moves _⟩, ← is]
  rfl

theorem Plain.write (plain : Plain m v) {sector : Nat} (fits : sector < m.blockCount)
    (buf : Bytes) :
    Turns b (writeSectors m v sector 1 buf) (.ok ()) (Function.update b sector buf) := by
  intro w is
  refine ⟨{ w with block := Function.update b sector buf, moved := w.moved + 1 }, ?_, rfl⟩
  unfold writeSectors blockWrite
  rw [plain.lba, plain.per, Nat.mul_one]
  dsimp only
  rw [if_pos ⟨.inr ⟨fits, by omega⟩, plain.moves _⟩, is]
  congr 2
  funext k
  by_cases here : k = sector
  · rw [here, if_pos ⟨Nat.le_refl _, Nat.lt_succ_self _⟩, Function.update_self, Nat.sub_self]
    funext i
    rw [Nat.zero_mul, Nat.zero_add]
  · rw [if_neg (by omega), Function.update_of_ne here]

/-! ## The tables -/

/-- The two tables are the same. -/
def Agree (m : Machine) (v : Volume) (b : Nat → Bytes) : Prop :=
  ∀ s < v.fatSectors, ∀ i < m.blockSize,
    b (v.fatStart + s) i = b (v.fatStart + v.fatSectors + s) i

/-- A cluster's entry, in the first table. -/
def Volume.entry (v : Volume) (b : Nat → Bytes) (c : Nat) : Nat :=
  (b (v.fatStart + c / v.perSector)).le32 (c % v.perSector * 4) % clusterNumbers

theorem Plain.within (plain : Plain m v) (c : Nat) :
    c % v.perSector * 4 + 4 ≤ m.blockSize := by
  have large := plain.large
  have some : 0 < v.perSector := by
    unfold Volume.perSector
    rw [plain.sector]
    omega
  have less := Nat.mod_lt c some
  unfold Volume.perSector at less ⊢
  rw [plain.sector] at less ⊢
  omega

theorem le32_bytesOf {lba o : Nat} (within : o + 4 ≤ m.blockSize) :
    (m.bytesOf b lba).le32 o = (b lba).le32 o :=
  Bytes.le32_between fun _ _ _ => bytesOf_first (by omega)

theorem Plain.fatSector (plain : Plain m v) (agree : Agree m v b) {s : Nat}
    (low : s < v.fatSectors) :
    Turns b (fatSector m v s) (.ok (m.bytesOf b (v.fatStart + s))) b := by
  have fits := plain.fits
  unfold Fat32.fatSector
  refine Turns.bind (plain.read (by decide) (by omega)) ?_
  rw [if_neg (by rw [plain.two]; decide)]
  refine Turns.bind (plain.read (by decide) (by omega)) ?_
  rw [if_pos]
  · exact Turns.pure
  · intro i less
    rw [plain.sector] at less
    rw [bytesOf_first less, bytesOf_first less, agree s low i less]

theorem Plain.nextCluster (plain : Plain m v) (agree : Agree m v b) {c : Nat}
    (ok : v.ClusterOk c) (low : c / v.perSector < v.fatSectors) :
    Turns b (nextCluster m v c) (.ok (v.entry b c)) b := by
  unfold Fat32.nextCluster
  rw [if_neg (not_not.mpr ok), if_neg (Nat.not_le.mpr low)]
  refine Turns.bind plain.kzalloc (Turns.bind plain.kzalloc ?_)
  rw [if_pos (Bool.and_self true)]
  refine Turns.bind (plain.fatSector agree low) ?_
  have same := @le32_bytesOf m b (v.fatStart + c / v.perSector) _ (plain.within c)
  rw [Volume.entry, ← same]
  exact Turns.pure

theorem Plain.entrySetCopy (plain : Plain m v) {c copy sector : Nat} (value : Nat)
    (is : v.fatStart + copy * v.fatSectors + c / v.perSector = sector)
    (fits : sector < m.blockCount) :
    Turns b (entrySetCopy m v c value copy) (.ok ())
      (Function.update b sector (v.withEntry (m.bytesOf b sector) c value)) := by
  unfold Fat32.entrySetCopy
  rw [is]
  exact Turns.bind (plain.read (by decide) fits) (plain.write fits _)

/-- An entry changed is no other's bytes. -/
theorem withEntry_apart (buf : Bytes) {c c' : Nat} (value : Nat)
    (sector : c' / v.perSector = c / v.perSector) (other : c' ≠ c) :
    (v.withEntry buf c value).le32 (c' % v.perSector * 4) =
      buf.le32 (c' % v.perSector * 4) := by
  have differ : c' % v.perSector ≠ c % v.perSector := by
    intro same
    apply other
    rw [← Nat.div_add_mod c' v.perSector, ← Nat.div_add_mod c v.perSector, sector, same]
  exact Bytes.le32_put32_of_apart (by omega)

theorem withEntry_congr {p q : Bytes} {c value i : Nat}
    (entry : p.le32 (c % v.perSector * 4) = q.le32 (c % v.perSector * 4)) (same : p i = q i) :
    v.withEntry p c value i = v.withEntry q c value i := by
  unfold Volume.withEntry Bytes.put32 Bytes.copy
  rw [entry, same]

/-- An entry set is set in both tables; the others are as they were. -/
theorem Plain.entrySet (plain : Plain m v) (agree : Agree m v b) {c : Nat} (value : Nat)
    (ok : v.ClusterOk c) (low : c / v.perSector < v.fatSectors) :
    ∃ b', Turns b (entrySet m v c value) (.ok ()) b' ∧ Agree m v b' ∧
      ∀ c', c' ≠ c → c' / v.perSector < v.fatSectors → v.entry b' c' = v.entry b c' := by
  have fits := plain.fits
  obtain ⟨place, place_eq⟩ : ∃ k, k = c / v.perSector := ⟨_, rfl⟩
  rw [← place_eq] at low
  obtain ⟨first, first_eq⟩ : ∃ k, k = v.fatStart + place := ⟨_, rfl⟩
  obtain ⟨second, second_eq⟩ : ∃ k, k = v.fatStart + v.fatSectors + place := ⟨_, rfl⟩
  have differ : first ≠ second := by omega
  obtain ⟨b₁, once⟩ : ∃ b₁, b₁ = Function.update b first
    (v.withEntry (m.bytesOf b first) c value) := ⟨_, rfl⟩
  obtain ⟨b₂, twice⟩ : ∃ b₂, b₂ = Function.update b₁ second
    (v.withEntry (m.bytesOf b₁ second) c value) := ⟨_, rfl⟩
  have firstIs : b₂ first = v.withEntry (m.bytesOf b first) c value := by
    rw [twice, Function.update_of_ne differ, once, Function.update_self]
  have secondIs : b₂ second = v.withEntry (m.bytesOf b₁ second) c value := by
    rw [twice, Function.update_self]
  have later : b₁ second = b second := by
    rw [once, Function.update_of_ne differ.symm]
  have elsewhere : ∀ k, k ≠ first → k ≠ second → b₂ k = b k := by
    intro k not not'
    rw [twice, Function.update_of_ne not', once, Function.update_of_ne not]
  refine ⟨b₂, ?_, ?_, ?_⟩
  · have bad : ¬(¬v.ClusterOk c ∨ v.fatSectors ≤ c / v.perSector) :=
      not_or.mpr ⟨not_not.mpr ok, Nat.not_le.mpr (place_eq ▸ low)⟩
    have two : List.range v.fatCount = [0, 1] := by
      rw [plain.two]
      rfl
    unfold Fat32.entrySet
    rw [if_neg bad]
    refine Turns.bind plain.kzalloc ?_
    rw [if_pos rfl, two, twice, once]
    refine Turns.bind (plain.entrySetCopy value ?_ (by omega : first < _)) ?_
    · rw [Nat.zero_mul, Nat.add_zero, first_eq, place_eq]
    refine Turns.bind (plain.entrySetCopy value ?_ (by omega : second < _)) Turns.pure
    · rw [Nat.one_mul, second_eq, place_eq]
  · intro s less i inside
    by_cases here : s = place
    · have entry : (m.bytesOf b first).le32 (c % v.perSector * 4) =
          (m.bytesOf b₁ second).le32 (c % v.perSector * 4) := by
        have within := plain.within c
        rw [le32_bytesOf within, le32_bytesOf within, later, first_eq, second_eq]
        exact Bytes.le32_between fun k _ _ => agree _ low k (by omega)
      rw [here, ← first_eq, ← second_eq, firstIs, secondIs]
      apply withEntry_congr entry
      rw [bytesOf_first inside, bytesOf_first inside, later, first_eq, second_eq]
      exact agree _ low i inside
    · rw [elsewhere _ (by omega) (by omega), elsewhere _ (by omega) (by omega)]
      exact agree s less i inside
  · intro c' other inside
    unfold Volume.entry
    by_cases here : c' / v.perSector = place
    · rw [here, ← first_eq, firstIs, withEntry_apart _ value (here.trans place_eq) other,
        le32_bytesOf (plain.within c')]
    · generalize c' / v.perSector = place' at here inside ⊢
      rw [elsewhere _ (by omega) (by omega)]

/-! ## A chain -/

/-- Every cluster's entry is in the table, and from `c` on they are all free. -/
structure FreeFrom (m : Machine) (v : Volume) (b : Nat → Bytes) (c : Nat) : Prop where
  agree : Agree m v b
  covered : ∀ c', v.ClusterOk c' → c' / v.perSector < v.fatSectors
  free : ∀ c', v.ClusterOk c' → c ≤ c' → v.entry b c' = clusterFree

/-- What is free to the end is all of it had. -/
theorem Plain.allocFrom (plain : Plain m v) {count fuel c prev head made : Nat}
    (from_ : FreeFrom m v b c) (first : clusterFirst ≤ c)
    (before : prev = 0 ∨ v.ClusterOk prev ∧ prev < c)
    (left : made + (v.dataClusters + clusterFirst - c) = count) (fuelled : count < made + fuel) :
    ∃ got b', Turns b (allocFrom m v count fuel c prev head made) (.ok got) b' := by
  induction fuel generalizing b c prev head made with
  | zero => omega
  | succ fuel ih =>
    unfold Fat32.allocFrom
    by_cases done : count ≤ made
    · rw [if_pos done]
      exact ⟨head, b, Turns.pure⟩
    · have ok : v.ClusterOk c := ⟨first, by omega⟩
      have free := from_.free c ok (Nat.le_refl c)
      have next := plain.nextCluster from_.agree ok (from_.covered c ok)
      obtain ⟨b₁, set, agree₁, same₁⟩ :=
        plain.entrySet from_.agree clusterLast ok (from_.covered c ok)
      have from₁ : FreeFrom m v b₁ (c + 1) := by
        refine ⟨agree₁, from_.covered, fun c' ok' later => ?_⟩
        rw [same₁ c' (by omega) (from_.covered c' ok')]
        exact from_.free c' ok' (by omega)
      rw [if_neg done, if_neg (not_not.mpr ok)]
      have linked : ∃ b₂, Turns b₁ (when (prev ≠ 0) (Fat32.entrySet m v prev c)) (.ok ()) b₂ ∧
          FreeFrom m v b₂ (c + 1) := by
        by_cases none : prev = 0
        · rw [when_not (not_not.mpr none)]
          exact ⟨b₁, Turns.pure, from₁⟩
        · obtain ⟨okPrev, less⟩ := before.resolve_left none
          obtain ⟨b₂, set', agree₂, same₂⟩ :=
            plain.entrySet agree₁ c okPrev (from_.covered prev okPrev)
          rw [when_of none]
          refine ⟨b₂, set', agree₂, from_.covered, fun c' ok' later => ?_⟩
          rw [same₂ c' (by omega) (from_.covered c' ok')]
          exact from₁.free c' ok' later
      obtain ⟨b₂, link, from₂⟩ := linked
      obtain ⟨got, b', rest⟩ := @ih b₂ (c + 1) c (if prev ≠ 0 then head else c) (made + 1) from₂
        (by omega) (.inr ⟨ok, Nat.lt_succ_self c⟩) (by omega) (by omega)
      refine ⟨got, b', Turns.bind next ?_⟩
      rw [free, if_neg (not_not.mpr rfl)]
      exact Turns.bind set (Turns.bind link rest)

end ReconOS.Fat32
