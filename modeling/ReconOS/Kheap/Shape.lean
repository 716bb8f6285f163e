import ReconOS.Lib.Chain
import Mathlib.Data.List.Perm.Subperm

/-! The kernel heap: slabs of objects of one size, and runs of pages for what is larger. -/
namespace ReconOS.Kheap

open Lib

def pageSize : Nat := 0x1000
def u64Size : Nat := 0x10000000000000000

/-- More nodes than any list has. -/
def longest : Nat := 0x10000000000000000

abbrev Class := Fin 6

def classSize (c : Class) : Nat := [16, 32, 64, 128, 256, 512].get c

/-- `SLAB_HEADER_SIZE`: `struct slab` is 32 bytes. -/
def slabHeaderSize : Nat := 32

def slabMagic : Nat := 0x52534C41

/-- The class of a `struct large`, which is 24 bytes. -/
def recordClass : Class := ⟨1, by decide⟩

/-- `struct slab`, at the start of its page. -/
structure Slab where
  magic : Nat
  objSize : Nat
  total : Nat
  inUse : Nat
  freeList : Nat
  next : Nat
  deriving DecidableEq, Repr

/-- The slabs by the page they are in, the words of what is handed out, the heads of the lists, and
which pages the page allocator has given out to the heap. A `struct large` is three words: the
address, the pages, and the next record. -/
structure Heap where
  slab : Nat → Slab
  word : Nat → Nat
  slabs : Class → Nat
  larges : Nat
  out : Nat → Bool

def heapInit : Heap := ⟨fun _ => ⟨0, 0, 0, 0, 0, 0⟩, fun _ => 0, fun _ => 0, 0, fun _ => false⟩

namespace Heap

def setWord (h : Heap) (a v : Nat) : Heap := { h with word := Function.update h.word a v }

def setSlab (h : Heap) (p : Nat) (s : Slab) : Heap := { h with slab := Function.update h.slab p s }

def nextSlab (h : Heap) (p : Nat) : Nat := (h.slab p).next

def nextLarge (h : Heap) (r : Nat) : Nat := h.word (r + 16)

/-! ## Pages -/

/-- The page at `q` is in the run of `n` pages from `a`. -/
def inRun (a n q : Nat) : Bool := decide (a ≤ q ∧ q < a + n * pageSize)

/-- A run of pages that the page allocator may give: none of them is out. -/
def CanGive (h : Heap) (a n : Nat) : Prop :=
  a ≠ 0 ∧ n ≠ 0 ∧ a % pageSize = 0 ∧ a + n * pageSize ≤ u64Size ∧
    ∀ k < n, h.out (a + k * pageSize) = false

instance (h : Heap) (a n : Nat) : Decidable (h.CanGive a n) := inferInstanceAs (Decidable (_ ∧ _))

/-- `pmm_alloc_pages`, which would answer `a`; what it may not give it refuses. -/
def pmmAlloc (h : Heap) (a n : Nat) : Option Heap :=
  if h.CanGive a n then some { h with out := fun q => h.out q || inRun a n q } else none

/-- `pmm_free_pages`: `none` is a panic, at a page that is not out. -/
def pmmFree (h : Heap) (a n : Nat) : Option Heap :=
  if ∀ k < n, h.out (a + k * pageSize) = true then
    some { h with out := fun q => h.out q && !inRun a n q }
  else none

/-! ## Slabs -/

/-- The free list threaded through objects `i - 1`, ..., 0, in front of `head`. -/
def thread (body obj : Nat) : Nat → (Nat → Nat) → Nat → (Nat → Nat) × Nat
  | 0, word, head => (word, head)
  | i + 1, word, head =>
    thread body obj i (Function.update word (body + i * obj) head) (body + i * obj)

/-- How many objects a slab holds. -/
def capacity (c : Class) : Nat := (pageSize - slabHeaderSize) / classSize c

/-- `grow_class`, the page allocator answering `page`. -/
def growClass (h : Heap) (c : Class) (page : Nat) : Option Heap :=
  (h.pmmAlloc page 1).map fun h =>
    let threaded := thread (page + slabHeaderSize) (classSize c) (capacity c) h.word 0
    { h with
      word := threaded.1
      slab := Function.update h.slab page
        ⟨slabMagic, classSize c, capacity c, 0, threaded.2, h.slabs c⟩
      slabs := Function.update h.slabs c page }

/-- The first object of a slab's free list. -/
def takeObject (h : Heap) (p : Nat) : Nat × Heap :=
  let s := h.slab p
  (s.freeList, h.setSlab p { s with freeList := h.word s.freeList, inUse := s.inUse + 1 })

/-- `kmalloc` of a class. `none` is a call that does not come back. -/
def kmallocClass (h : Heap) (c : Class) (page : Nat) : Option (Nat × Heap) :=
  match seek 0 h.nextSlab (fun p => decide ((h.slab p).freeList ≠ 0)) longest none (h.slabs c) with
  | none => none
  | some (_, p) =>
    if p ≠ 0 then some (h.takeObject p)
    else
      match h.growClass c page with
      | none => some (0, h)
      | some h => some (h.takeObject page)

/-- `*link = next`, the link being a slab's or the head of the class's list. -/
def linkSlab (h : Heap) (c : Class) (link : Option Nat) (next : Nat) : Heap :=
  match link with
  | none => { h with slabs := Function.update h.slabs c next }
  | some q => h.setSlab q { h.slab q with next := next }

/-- `release_slab`. `none` is a panic. -/
def releaseSlab (h : Heap) (c : Class) (p : Nat) : Option Heap :=
  match seek 0 h.nextSlab (fun q => decide (q = p)) longest none (h.slabs c) with
  | none => none
  | some (link, at_) =>
    if at_ = 0 then none else (h.linkSlab c link (h.nextSlab p)).pmmFree p 1

def pageOf (ptr : Nat) : Nat := ptr / pageSize * pageSize

def classFor (size : Nat) : Option Class := (List.finRange 6).find? fun c => decide (size ≤ classSize c)

/-- The object of a slab put back. -/
def giveObject (h : Heap) (ptr : Nat) : Heap :=
  let s := h.slab (pageOf ptr)
  (h.setWord ptr s.freeList).setSlab (pageOf ptr) { s with freeList := ptr, inUse := s.inUse - 1 }

/-- `kfree` of what is not page-aligned. `none` is a panic. -/
def kfreeObject (h : Heap) (ptr : Nat) : Option Heap :=
  let p := pageOf ptr
  if (h.slab p).magic ≠ slabMagic then none
  else if (h.slab p).inUse = 0 then none
  else
    let h := h.giveObject ptr
    if (h.slab p).inUse = 0 then
      match classFor (h.slab p).objSize with
      | some c => h.releaseSlab c p
      | none => some h
    else some h

/-! ## Runs of pages -/

/-- What the page allocator would answer to each question. -/
structure Answers where
  pages : Nat
  page : Nat
  deriving DecidableEq, Repr

/-- `alloc_large`; its record is an object of `recordClass`. -/
def allocLarge (h : Heap) (size : Nat) (a : Answers) : Option (Nat × Heap) :=
  let pages := (size + pageSize - 1) % u64Size / pageSize
  match h.pmmAlloc a.pages pages with
  | none => some (0, h)
  | some h =>
    match h.kmallocClass recordClass a.page with
    | none => none
    | some (rec_, h) =>
      if rec_ = 0 then (h.pmmFree a.pages pages).map fun h => (0, h)
      else
        some (a.pages,
          { (((h.setWord rec_ a.pages).setWord (rec_ + 8) pages).setWord (rec_ + 16) h.larges) with
            larges := rec_ })

/-- `*link = next`, the link being a record's or the head of the list. -/
def linkLarge (h : Heap) (link : Option Nat) (next : Nat) : Heap :=
  match link with
  | none => { h with larges := next }
  | some r => h.setWord (r + 16) next

/-- `free_large`; the record goes back as an object. -/
def freeLarge (h : Heap) (ptr : Nat) : Option Heap :=
  match seek 0 h.nextLarge (fun r => decide (h.word r = ptr)) longest none h.larges with
  | none => none
  | some (link, rec_) =>
    if rec_ = 0 then none
    else
      let h := h.linkLarge link (h.nextLarge rec_)
      match h.pmmFree (h.word rec_) (h.word (rec_ + 8)) with
      | none => none
      | some h => h.kfreeObject rec_

/-! ## Calls -/

def kmalloc (h : Heap) (size : UInt64) (a : Answers) : Option (Nat × Heap) :=
  if size.toNat = 0 then some (0, h)
  else
    match classFor size.toNat with
    | none => h.allocLarge size.toNat a
    | some c => h.kmallocClass c a.page

def kfree (h : Heap) (ptr : Nat) : Option Heap :=
  if ptr = 0 then some h
  else if ptr % pageSize = 0 then h.freeLarge ptr
  else h.kfreeObject ptr

end Heap

example : Heap.classFor 24 = some recordClass := by decide

/-! What the heap's lists say: its slabs, the objects of each that are free, and the pages it has. -/

open Lib Heap

/-! ## Objects of a slab -/

theorem classSize_spec (c : Class) : 16 ≤ classSize c ∧ classSize c ≤ 512 ∧ classSize c % 16 = 0 := by
  decide +revert

theorem capacity_spec (c : Class) :
    0 < capacity c ∧ capacity c * classSize c + slabHeaderSize ≤ pageSize := by
  decide +revert

theorem classSize_inj {c d : Class} (same : classSize c = classSize d) : c = d := by
  decide +revert

theorem classFor_classSize (c : Class) : classFor (classSize c) = some c := by
  decide +revert

/-- `o` is where an object of the slab at `p` starts. -/
def Obj (c : Class) (p o : Nat) : Prop := ∃ i < capacity c, o = p + slabHeaderSize + i * classSize c

def objects (c : Class) (p : Nat) : List Nat :=
  (List.range (capacity c)).map fun i => p + slabHeaderSize + i * classSize c

variable {c d : Class} {p q o o' : Nat}

theorem mem_objects : o ∈ objects c p ↔ Obj c p o := by
  simp only [objects, List.mem_map, List.mem_range, Obj]
  constructor
  · rintro ⟨i, less, rfl⟩
    exact ⟨i, less, rfl⟩
  · rintro ⟨i, less, rfl⟩
    exact ⟨i, less, rfl⟩

theorem objects_length : (objects c p).length = capacity c := by simp [objects]

theorem objects_nodup : (objects c p).Nodup := by
  refine List.Nodup.map ?_ List.nodup_range
  intro i j same
  have positive := (classSize_spec c).1
  have same : i * classSize c = j * classSize c := by simpa using same
  exact Nat.eq_of_mul_eq_mul_right (by omega) same

theorem Obj.bounds (h : Obj c p o) : p + slabHeaderSize ≤ o ∧ o + classSize c ≤ p + pageSize := by
  obtain ⟨i, less, rfl⟩ := h
  have last := Nat.mul_le_mul_right (classSize c) less
  rw [Nat.succ_mul] at last
  have := (capacity_spec c).2
  omega

theorem Obj.pageOf (h : Obj c p o) (aligned : p % pageSize = 0) : pageOf o = p := by
  have := h.bounds
  have := (classSize_spec c).1
  simp only [Heap.pageOf, pageSize, slabHeaderSize] at *
  omega

theorem Obj.unaligned (h : Obj c p o) (aligned : p % pageSize = 0) : o % pageSize ≠ 0 := by
  have := h.bounds
  have := (classSize_spec c).1
  simp only [pageSize, slabHeaderSize] at *
  omega

theorem Obj.mod16 (h : Obj c p o) (aligned : p % pageSize = 0) : o % 16 = 0 := by
  obtain ⟨i, _, rfl⟩ := h
  have size := (classSize_spec c).2.2
  have inner : i * classSize c % 16 = 0 := by rw [Nat.mul_mod, size, Nat.mul_zero]
  simp only [pageSize, slabHeaderSize] at *
  omega

theorem Obj.apart (h : Obj c p o) (h' : Obj c p o') (other : o ≠ o') :
    o + classSize c ≤ o' ∨ o' + classSize c ≤ o := by
  obtain ⟨i, _, rfl⟩ := h
  obtain ⟨j, _, rfl⟩ := h'
  have differ : i ≠ j := by
    rintro rfl
    exact other rfl
  cases Nat.lt_or_gt_of_ne differ with
  | inl less =>
    have := Nat.mul_le_mul_right (classSize c) (Nat.succ_le_of_lt less)
    rw [Nat.succ_mul] at this
    omega
  | inr more =>
    have := Nat.mul_le_mul_right (classSize c) (Nat.succ_le_of_lt more)
    rw [Nat.succ_mul] at this
    omega

theorem free_length_le {free : List Nat} (nodup : free.Nodup) (each : ∀ o ∈ free, Obj c p o) :
    free.length ≤ capacity c := by
  rw [← objects_length (p := p)]
  exact (List.subperm_of_subset nodup fun o mem => mem_objects.2 (each o mem)).length_le

/-- With an object that is not free, not all are. -/
theorem free_length_lt {free : List Nat} (nodup : free.Nodup) (each : ∀ o ∈ free, Obj c p o)
    (there : Obj c p o) (used : o ∉ free) : free.length < capacity c := by
  have more := free_length_le (c := c) (p := p) (List.nodup_cons.2 ⟨used, nodup⟩) (by
    intro q mem
    cases List.mem_cons.1 mem with
    | inl same => exact same ▸ there
    | inr mem => exact each q mem)
  exact more

/-- With free ones less than there are, some object is not free. -/
theorem exists_used {free : List Nat} (less : free.length < capacity c) : ∃ o, Obj c p o ∧ o ∉ free := by
  by_contra none_
  have all : objects c p ⊆ free := by
    intro o mem
    by_contra used
    exact none_ ⟨o, mem_objects.1 mem, used⟩
  have := (List.subperm_of_subset (objects_nodup (c := c) (p := p)) all).length_le
  rw [objects_length] at this
  omega

/-! ## The heap's shape -/

/-- The slabs of each class, and the free objects of each slab. -/
structure View where
  slabs : Class → List Nat
  free : Nat → List Nat

/-- A page that is a slab. -/
structure SlabOk (h : Heap) (free : List Nat) (c : Class) (p : Nat) : Prop where
  magic : (h.slab p).magic = slabMagic
  objSize : (h.slab p).objSize = classSize c
  total : (h.slab p).total = capacity c
  chain : Chain 0 h.word (h.slab p).freeList free
  each : ∀ o ∈ free, Obj c p o
  count : (h.slab p).inUse + free.length = capacity c

/-- A run of pages, and two of them that share none. -/
def RunOk (r : Nat × Nat) : Prop :=
  r.1 % pageSize = 0 ∧ r.1 ≠ 0 ∧ r.2 ≠ 0 ∧ r.1 + r.2 * pageSize ≤ u64Size

def Apart (r r' : Nat × Nat) : Prop := r.1 + r.2 * pageSize ≤ r'.1 ∨ r'.1 + r'.2 * pageSize ≤ r.1

/-- The lists are as `v` says, the objects in use are those listed, and the pages that are out are
the slabs and the runs listed. -/
structure Shape (h : Heap) (v : View) (held : List Nat) (runs : List (Nat × Nat)) : Prop where
  slabs : ∀ c, Chain 0 h.nextSlab (h.slabs c) (v.slabs c)
  slab : ∀ c, ∀ p ∈ v.slabs c, SlabOk h (v.free p) c p
  page : ∀ c, ∀ p ∈ v.slabs c, RunOk (p, 1)
  once : held.Nodup
  held : ∀ o, o ∈ held ↔ ∃ c, ∃ p ∈ v.slabs c, Obj c p o ∧ o ∉ v.free p
  run : ∀ r ∈ runs, RunOk r
  apart : runs.Pairwise Apart
  slabApart : ∀ c, ∀ p ∈ v.slabs c, ∀ r ∈ runs, Apart (p, 1) r
  out : ∀ q, q % pageSize = 0 →
    (h.out q = true ↔ (∃ c, q ∈ v.slabs c) ∨ ∃ r ∈ runs, inRun r.1 r.2 q = true)

theorem inRun_iff {a n q : Nat} : inRun a n q = true ↔ a ≤ q ∧ q < a + n * pageSize := by
  simp [inRun]

theorem inRun_one (aligned : p % pageSize = 0) (aligned' : q % pageSize = 0) :
    inRun p 1 q = true ↔ q = p := by
  rw [inRun_iff]
  simp only [pageSize] at *
  omega

namespace Shape

variable {h h' : Heap} {v v' : View} {held : List Nat} {runs : List (Nat × Nat)}

theorem class_eq (shape : Shape h v held runs) (mem : p ∈ v.slabs c) (mem' : p ∈ v.slabs d) :
    c = d :=
  classSize_inj ((shape.slab c p mem).objSize.symm.trans (shape.slab d p mem').objSize)

/-- The slab of an object in use. -/
theorem holder (shape : Shape h v held runs) (mem : o ∈ held) :
    ∃ c, pageOf o ∈ v.slabs c ∧ Obj c (pageOf o) o ∧ o ∉ v.free (pageOf o) := by
  obtain ⟨c, p, slab, obj, used⟩ := (shape.held o).1 mem
  have at_ := obj.pageOf (shape.page c p slab).1
  exact ⟨c, at_.symm ▸ slab, at_.symm ▸ obj, at_.symm ▸ used⟩

/-- Objects of slabs share nothing. -/
theorem objects_apart (shape : Shape h v held runs) (mem : p ∈ v.slabs c) (mem' : q ∈ v.slabs d)
    (obj : Obj c p o) (obj' : Obj d q o') (other : o ≠ o') :
    o + classSize c ≤ o' ∨ o' + classSize d ≤ o := by
  by_cases same : p = q
  · subst same
    obtain rfl := shape.class_eq mem mem'
    exact obj.apart obj' other
  · have := (shape.page c p mem).1
    have := (shape.page d q mem').1
    have := obj.bounds
    have := obj'.bounds
    simp only [pageSize] at *
    omega

theorem lists_short (shape : Shape h v held runs) (c : Class) : (v.slabs c).length < longest := by
  have below : ∀ p ∈ v.slabs c, p < longest - 1 := by
    intro p mem
    have := (shape.page c p mem).2.2.2
    simp only [pageSize, u64Size, longest] at *
    omega
  have := length_le_of_nodup (shape.slabs c).nodup below
  simp only [longest] at *
  omega

theorem of_eq (shape : Shape h v held runs) (slab : h'.slab = h.slab) (word : h'.word = h.word)
    (slabs : h'.slabs = h.slabs) (out : h'.out = h.out) : Shape h' v held runs where
  slabs d := by
    rw [slabs]
    refine (shape.slabs d).congr fun q _ => ?_
    rw [Heap.nextSlab, slab]
    rfl
  slab d q mem := by
    obtain ⟨magic, objSize, total, chain, each, count⟩ := shape.slab d q mem
    refine ⟨?_, ?_, ?_, ?_, each, ?_⟩ <;> rw [slab]
    · exact magic
    · exact objSize
    · exact total
    · rw [word]
      exact chain
    · exact count
  page := shape.page
  once := shape.once
  held := shape.held
  run := shape.run
  apart := shape.apart
  slabApart := shape.slabApart
  out := by
    rw [out]
    exact shape.out

/-- A word that is no free object's link may be anything. -/
theorem setWord (shape : Shape h v held runs) {a : Nat}
    (free : ∀ c, ∀ p ∈ v.slabs c, a ∉ v.free p) (x : Nat) : Shape (h.setWord a x) v held runs where
  slabs := shape.slabs
  slab c p mem := by
    obtain ⟨magic, objSize, total, chain, each, count⟩ := shape.slab c p mem
    refine ⟨magic, objSize, total, chain.congr fun o free' => Function.update_of_ne ?_ .., each, count⟩
    rintro rfl
    exact free c p mem free'
  page := shape.page
  once := shape.once
  held := shape.held
  run := shape.run
  apart := shape.apart
  slabApart := shape.slabApart
  out := shape.out

end Shape

end ReconOS.Kheap
