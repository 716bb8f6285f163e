import ReconOS.Kheap.Objects

/-! The heap and what it has handed out: the objects and runs that callers have, and the records of
the runs. -/
namespace ReconOS.Kheap

open Lib Heap

def Heap.run (h : Heap) (r : Nat) : Nat × Nat := (h.word r, h.word (r + 8))

/-- The pointers of a ledger that are objects of slabs. -/
def smalls (live : List (Nat × Nat)) : List Nat :=
  (live.map Prod.fst).filter fun ptr => decide (ptr % pageSize ≠ 0)

/-- What the heap has handed out: each pointer with the size asked for. -/
structure Whole (h : Heap) (v : View) (held records : List Nat) (live : List (Nat × Nat)) : Prop where
  shape : Shape h v held (records.map h.run)
  busy : Busy v held
  split : held.Perm (smalls live ++ records)
  chain : Chain 0 h.nextLarge h.larges records
  record : ∀ r ∈ records, ∃ p ∈ v.slabs recordClass, Obj recordClass p r
  once : (live.map Prod.fst).Nodup
  small : ∀ x ∈ live, x.1 % pageSize ≠ 0 → ∃ c, ∃ p ∈ v.slabs c, Obj c p x.1 ∧ x.2 ≤ classSize c
  big : ∀ x ∈ live, x.1 % pageSize = 0 → ∃ r ∈ records, h.word r = x.1 ∧ x.2 ≤ h.word (r + 8) * pageSize
  owned : ∀ r ∈ records, h.word r ∈ live.map Prod.fst

/-- The words of the records are the same. -/
def SameRecords (h h' : Heap) (records : List Nat) : Prop :=
  ∀ r ∈ records, h'.word r = h.word r ∧ h'.word (r + 8) = h.word (r + 8) ∧
    h'.word (r + 16) = h.word (r + 16)

variable {h h' : Heap} {v v' : View} {held records : List Nat} {runs : List (Nat × Nat)}
variable {live : List (Nat × Nat)} {c d : Class} {p q o o' a : Nat}

namespace SameRecords

theorem run_map (same : SameRecords h h' records) : records.map h'.run = records.map h.run := by
  refine List.map_congr_left fun r mem => ?_
  obtain ⟨addr, pages, _⟩ := same r mem
  rw [Heap.run, Heap.run, addr, pages]

theorem chain (same : SameRecords h h' records) {head : Nat} (chain : Chain 0 h.nextLarge head records) :
    Chain 0 h'.nextLarge head records :=
  chain.congr fun r mem => (same r mem).2.2

end SameRecords

namespace Shape

/-- Inside an object in use there is no free one's link. -/
theorem inside_free (shape : Shape h v held runs) (mem : o ∈ held) (slab : p ∈ v.slabs c)
    (obj : Obj c p o) (from_ : o ≤ a) (before : a < o + classSize c) :
    ∀ d, ∀ q ∈ v.slabs d, a ∉ v.free q := by
  intro d q slab' free
  have obj' := (shape.slab d q slab').each a free
  by_cases same : a = o
  · subst same
    obtain ⟨d', slab'', obj'', used⟩ := shape.holder mem
    rw [obj'.pageOf (shape.page d q slab').1] at used
    exact used free
  · have := shape.objects_apart slab slab' obj obj' (Ne.symm same)
    have := (classSize_spec d).1
    omega

/-- Objects in use are in different places. -/
theorem inside_ne (shape : Shape h v held runs) (slab : p ∈ v.slabs c) (obj : Obj c p o)
    (slab' : q ∈ v.slabs d) (obj' : Obj d q o') (other : o ≠ o') {k k' : Nat}
    (less : k < classSize c) (less' : k' < classSize d) : o + k ≠ o' + k' := by
  have := shape.objects_apart slab slab' obj obj' other
  omega

/-- The slab of what is still in use is still one. -/
theorem still {held' : List Nat} {runs' : List (Nat × Nat)} (shape : Shape h v held runs)
    (shape' : Shape h' v' held' runs') (slabs : ∀ d, ∀ q ∈ v'.slabs d, q ∈ v.slabs d)
    (slab : q ∈ v.slabs d) (obj : Obj d q o) (mem : o ∈ held') : q ∈ v'.slabs d := by
  obtain ⟨d', slab', obj', _⟩ := shape'.holder mem
  rw [obj.pageOf (shape.page d q slab).1] at slab'
  obtain rfl := shape.class_eq slab (slabs d' q slab')
  exact slab'

end Shape

namespace Whole

theorem record_held (whole : Whole h v held records live) {r : Nat} (mem : r ∈ records) : r ∈ held :=
  whole.split.mem_iff.2 (List.mem_append_right _ mem)

theorem recordSize : 24 < classSize recordClass := by decide

/-- The words of the records are in slabs. -/
theorem record_page (whole : Whole h v held records live) {r k : Nat} (mem : r ∈ records) (less : k ≤ 16) :
    ∃ d, pageOf (r + k) ∈ v.slabs d := by
  obtain ⟨p, slab, obj⟩ := whole.record r mem
  have aligned := (whole.shape.page _ p slab).1
  have bounds := obj.bounds
  have size := recordSize
  have at_ : pageOf (r + k) = p := by
    simp only [Heap.pageOf, pageSize, slabHeaderSize] at *
    omega
  exact ⟨recordClass, at_.symm ▸ slab⟩

/-- What another object's words are does not matter to the records. -/
theorem away (whole : Whole h v held records live) (slab : p ∈ v.slabs c) (obj : Obj c p o)
    (notRecord : o ∉ records) {k : Nat} (less : k < classSize c)
    (word : ∀ a, a ≠ o + k → h'.word a = h.word a) : SameRecords h h' records := by
  intro r mem
  obtain ⟨q, slab', obj'⟩ := whole.record r mem
  have other : o ≠ r := by
    rintro rfl
    exact notRecord mem
  have apart (k' : Nat) (less' : k' ≤ 16) : h'.word (r + k') = h.word (r + k') := by
    refine word _ (Ne.symm ?_)
    exact whole.shape.inside_ne slab obj slab' obj' other less
      (Nat.lt_of_le_of_lt less' (by decide : 16 < classSize recordClass))
  exact ⟨apart 0 (by omega), apart 8 (by omega), apart 16 (by omega)⟩

/-- The heap changed where no record is, with the same handed out. -/
theorem keep {held' : List Nat} (whole : Whole h v held records live) (same : SameRecords h h' records)
    (larges : h'.larges = h.larges) (shape : Shape h' v' held' (records.map h.run))
    (perm : held'.Perm held) (busy : Busy v' held') (slabs : ∀ d, ∀ q ∈ v.slabs d, q ∈ v'.slabs d) :
    Whole h' v' held' records live where
  shape := by
    rw [same.run_map]
    exact shape
  busy := busy
  split := perm.trans whole.split
  chain := by
    rw [larges]
    exact same.chain whole.chain
  record r mem := by
    obtain ⟨p, slab, obj⟩ := whole.record r mem
    exact ⟨p, slabs _ p slab, obj⟩
  once := whole.once
  small x mem unaligned := by
    obtain ⟨c, p, slab, obj, fits⟩ := whole.small x mem unaligned
    exact ⟨c, p, slabs c p slab, obj, fits⟩
  big x mem aligned := by
    obtain ⟨r, mem', at_, fits⟩ := whole.big x mem aligned
    obtain ⟨addr, pages, _⟩ := same r mem'
    exact ⟨r, mem', addr.trans at_, by rw [pages]; exact fits⟩
  owned r mem := by
    rw [(same r mem).1]
    exact whole.owned r mem

/-! ## Small allocations -/

theorem took (whole : Whole h v held records live) {ptr size : Nat}
    (took : Took c h v held (records.map h.run) ptr h' v') (fits : size ≤ classSize c) :
    Whole h' v' (ptr :: held) records ((ptr, size) :: live) := by
  obtain ⟨p, slab, obj⟩ := took.obj
  have aligned := (took.shape.page c p slab).1
  have unaligned := obj.unaligned aligned
  have new : ptr ∉ held := (List.nodup_cons.1 took.shape.once).1
  have same : SameRecords h h' records := fun r mem =>
    ⟨took.word r (whole.record_page (k := 0) mem (by omega)),
      took.word _ (whole.record_page (k := 8) mem (by omega)),
      took.word _ (whole.record_page (k := 16) mem (by omega))⟩
  have notLive : ptr ∉ live.map Prod.fst := by
    intro mem
    refine new (whole.split.mem_iff.2 (List.mem_append_left _ ?_))
    exact List.mem_filter.2 ⟨mem, by simpa using unaligned⟩
  refine ⟨?_, took.busy, ?_, ?_, ?_, List.nodup_cons.2 ⟨notLive, whole.once⟩, ?_, ?_, ?_⟩
  · rw [same.run_map]
    exact took.shape
  · have smaller : smalls ((ptr, size) :: live) = ptr :: smalls live := by
      simp [smalls, unaligned]
    rw [smaller]
    exact whole.split.cons ptr
  · rw [took.larges]
    exact same.chain whole.chain
  · intro r mem
    obtain ⟨p, slab, obj⟩ := whole.record r mem
    exact ⟨p, took.slabs _ p slab, obj⟩
  · intro x mem unaligned'
    rcases List.mem_cons.1 mem with rfl | mem
    · exact ⟨c, p, slab, obj, fits⟩
    · obtain ⟨c, p, slab, obj, fits⟩ := whole.small x mem unaligned'
      exact ⟨c, p, took.slabs c p slab, obj, fits⟩
  · intro x mem aligned'
    rcases List.mem_cons.1 mem with rfl | mem
    · exact absurd aligned' unaligned
    · obtain ⟨r, mem', at_, fits⟩ := whole.big x mem aligned'
      obtain ⟨addr, pages, _⟩ := same r mem'
      exact ⟨r, mem', addr.trans at_, by rw [pages]; exact fits⟩
  · intro r mem
    rw [(same r mem).1]
    exact List.mem_cons_of_mem _ (whole.owned r mem)

theorem kmallocClass (whole : Whole h v held records live) (c : Class) (page : Nat) {size : Nat}
    (fits : size ≤ classSize c) :
    h.kmallocClass c page = some (0, h) ∨
      ∃ ptr h' v', h.kmallocClass c page = some (ptr, h') ∧ ptr ≠ 0 ∧
        Whole h' v' (ptr :: held) records ((ptr, size) :: live) := by
  cases whole.shape.kmallocClass whole.busy c page with
  | inl none_ => exact .inl none_
  | inr found =>
    obtain ⟨ptr, h', v', made, took⟩ := found
    obtain ⟨_, _, obj⟩ := took.obj
    exact .inr ⟨ptr, h', v', made, obj.ne_zero, whole.took took fits⟩

/-- An object that a caller has is no record. -/
theorem small_not_record (whole : Whole h v held records live) {ptr : Nat}
    (mem : ptr ∈ smalls live) : ptr ∉ records := by
  intro isRecord
  have nodup := whole.split.nodup whole.shape.once
  exact (List.nodup_append.1 nodup).2.2 ptr mem ptr isRecord rfl

theorem smalls_filter (once : (live.map Prod.fst).Nodup) (ptr : Nat) :
    smalls (live.filter fun x => decide (x.1 ≠ ptr)) = (smalls live).erase ptr := by
  have nodup : (smalls live).Nodup := once.filter _
  have mapped : (live.filter fun x => decide (x.1 ≠ ptr)).map Prod.fst =
      (live.map Prod.fst).filter fun a => decide (a ≠ ptr) := by
    rw [List.filter_map]
    rfl
  rw [nodup.erase_eq_filter, smalls, smalls, mapped, List.filter_filter, List.filter_filter]
  refine List.filter_congr fun a _ => ?_
  simp [Bool.and_comm, bne, Bool.beq_eq_decide_eq]

theorem freeSmall (whole : Whole h v held records live) {ptr : Nat} (mem : ptr ∈ live.map Prod.fst)
    (unaligned : ptr % pageSize ≠ 0) :
    ∃ h' v', h.kfreeObject ptr = some h' ∧
      Whole h' v' (held.erase ptr) records (live.filter fun x => decide (x.1 ≠ ptr)) := by
  have small : ptr ∈ smalls live := List.mem_filter.2 ⟨mem, by simpa using unaligned⟩
  have isHeld : ptr ∈ held := whole.split.mem_iff.2 (List.mem_append_left _ small)
  have notRecord := whole.small_not_record small
  obtain ⟨c, slab, obj, _⟩ := whole.shape.holder isHeld
  obtain ⟨h', v', freed, shape, busy, larges, slabs, word⟩ := whole.shape.kfreeObject whole.busy isHeld
  have same : SameRecords h h' records := whole.away slab obj notRecord (k := 0)
    (Nat.lt_of_lt_of_le (by decide) (classSize_spec c).1) word
  have record_held {r : Nat} (mem' : r ∈ records) : r ∈ held.erase ptr := by
    refine (whole.shape.once.mem_erase_iff).2 ⟨?_, whole.record_held mem'⟩
    rintro rfl
    exact notRecord mem'
  refine ⟨h', v', freed, ?_, busy, ?_, ?_, ?_, ?_, ?_, ?_, ?_⟩
  · rw [same.run_map]
    exact shape
  · rw [smalls_filter whole.once]
    refine (whole.split.erase ptr).trans ?_
    rw [List.erase_append_left _ small]
  · rw [larges]
    exact same.chain whole.chain
  · intro r mem'
    obtain ⟨p, slab', obj'⟩ := whole.record r mem'
    exact ⟨p, whole.shape.still shape slabs slab' obj' (record_held mem'), obj'⟩
  · exact (whole.once.sublist (List.filter_sublist.map _))
  · intro x mem' unaligned'
    obtain ⟨mem', other⟩ := List.mem_filter.1 mem'
    have other : x.1 ≠ ptr := of_decide_eq_true other
    obtain ⟨d, q, slab', obj', fits⟩ := whole.small x mem' unaligned'
    refine ⟨d, q, whole.shape.still shape slabs slab' obj' ?_, obj', fits⟩
    refine (whole.shape.once.mem_erase_iff).2 ⟨other, whole.split.mem_iff.2 ?_⟩
    refine List.mem_append_left _ (List.mem_filter.2 ⟨List.mem_map_of_mem mem', ?_⟩)
    simpa using unaligned'
  · intro x mem' aligned'
    obtain ⟨mem', _⟩ := List.mem_filter.1 mem'
    obtain ⟨r, isRecord, at_, fits⟩ := whole.big x mem' aligned'
    obtain ⟨addr, pages, _⟩ := same r isRecord
    exact ⟨r, isRecord, addr.trans at_, by rw [pages]; exact fits⟩
  · intro r isRecord
    rw [(same r isRecord).1]
    obtain ⟨x, mem', at_⟩ := List.mem_map.1 (whole.owned r isRecord)
    refine List.mem_map.2 ⟨x, List.mem_filter.2 ⟨mem', ?_⟩, at_⟩
    have aligned' := (whole.shape.run _ (List.mem_map_of_mem isRecord)).1
    simp only [Heap.run] at aligned'
    refine decide_eq_true ?_
    rintro same'
    rw [← same', at_] at unaligned
    exact unaligned aligned'

end Whole

end ReconOS.Kheap
