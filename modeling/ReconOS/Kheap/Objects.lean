import ReconOS.Kheap.Pages

/-! Calls on one class: what they leave of the slabs and of what is held. -/
namespace ReconOS.Kheap

open Lib Heap

variable {h h' : Heap} {v : View} {held : List Nat} {runs : List (Nat × Nat)}
variable {c d : Class} {p q o a n : Nat}

/-- Every slab has an object in use. -/
def Busy (v : View) (held : List Nat) : Prop := ∀ c, ∀ p ∈ v.slabs c, ∃ o ∈ held, Obj c p o

/-! ## A new slab -/

theorem thread_spec (body obj i : Nat) (positive : 0 < obj) (some_ : 0 < body) {word : Nat → Nat}
    {head : Nat} {l : List Nat} (chain : Chain 0 word head l) (after : ∀ a ∈ l, body + i * obj ≤ a) :
    Chain 0 (thread body obj i word head).1 (thread body obj i word head).2
      ((List.range i).map (fun k => body + k * obj) ++ l) ∧
    ∀ a, (∀ k < i, a ≠ body + k * obj) → (thread body obj i word head).1 a = word a := by
  induction i generalizing word head l with
  | zero => exact ⟨chain, fun _ _ => rfl⟩
  | succ i ih =>
    have new : body + i * obj ∉ l := by
      intro mem
      have := after _ mem
      rw [Nat.succ_mul] at this
      omega
    obtain ⟨longer, frame⟩ := ih (chain.push (by omega) new) (by
      intro a mem
      rcases List.mem_cons.1 mem with rfl | mem
      · exact Nat.le_refl _
      · have := after a mem
        rw [Nat.succ_mul] at this
        omega)
    constructor
    · rw [List.range_succ, List.map_append, List.append_assoc]
      exact longer
    · intro a apart
      refine (frame a fun k less => apart k (by omega)).trans (Function.update_of_ne ?_ ..)
      exact apart i (by omega)

namespace Shape

theorem not_slab (shape : Shape h v held ((p, 1) :: runs)) (c : Class) : p ∉ v.slabs c := by
  intro mem
  have := shape.slabApart c p mem (p, 1) (List.mem_cons_self ..)
  simp only [Apart, pageSize] at this
  omega

/-- A page of its own made a slab. -/
theorem addSlab (shape : Shape h v held ((p, 1) :: runs)) (c : Class) :
    let threaded := thread (p + slabHeaderSize) (classSize c) (capacity c) h.word 0
    Shape { h with
        word := threaded.1
        slab := Function.update h.slab p
          ⟨slabMagic, classSize c, capacity c, 0, threaded.2, h.slabs c⟩
        slabs := Function.update h.slabs c p }
      ⟨Function.update v.slabs c (p :: v.slabs c), Function.update v.free p (objects c p)⟩ held runs ∧
    ∀ a, pageOf a ≠ p → threaded.1 a = h.word a := by
  intro threaded
  have ok : RunOk (p, 1) := shape.run _ (List.mem_cons_self ..)
  have aligned : p % pageSize = 0 := ok.1
  obtain ⟨size, _, _⟩ := classSize_spec c
  have empty : Chain 0 h.word 0 [] := rfl
  obtain ⟨chain, frame⟩ := thread_spec (p + slabHeaderSize) (classSize c) (capacity c) (by omega)
    (by simp only [slabHeaderSize]; omega) empty (by simp)
  rw [List.append_nil] at chain
  have frame' : ∀ a, pageOf a ≠ p → threaded.1 a = h.word a := by
    intro a away
    refine frame a fun k less same => away ?_
    exact Obj.pageOf ⟨k, less, same⟩ aligned
  have old (d : Class) (q : Nat) (mem : q ∈ v.slabs d) : q ≠ p := by
    rintro rfl
    exact shape.not_slab d mem
  have memSlabs (d : Class) (q : Nat) : q ∈ (Function.update v.slabs c (p :: v.slabs c)) d ↔
      q ∈ v.slabs d ∨ d = c ∧ q = p := by
    by_cases same : d = c
    · subst same
      rw [Function.update_self, List.mem_cons]
      simp [or_comm]
    · rw [Function.update_of_ne same]
      simp [same]
  have links (d : Class) : Chain 0
      (fun q => (Function.update h.slab p
        ⟨slabMagic, classSize c, capacity c, 0, threaded.2, h.slabs c⟩ q).next)
      (h.slabs d) (v.slabs d) := by
    refine (shape.slabs d).congr fun q mem => ?_
    rw [Function.update_of_ne (old d q mem)]
    rfl
  refine ⟨⟨?_, ?_, ?_, shape.once, ?_, ?_, ?_, ?_, ?_⟩, frame'⟩
  · intro d
    by_cases same : d = c
    · subst same
      show Chain 0 _ (Function.update h.slabs d p d) (Function.update v.slabs d _ d)
      rw [Function.update_self, Function.update_self]
      refine ⟨rfl, ok.2.1, ?_⟩
      show Chain 0 _ (Function.update h.slab p _ p).next _
      rw [Function.update_self]
      exact links d
    · show Chain 0 _ (Function.update h.slabs c p d) (Function.update v.slabs c _ d)
      rw [Function.update_of_ne same, Function.update_of_ne same]
      exact links d
  · intro d q mem
    rcases (memSlabs d q).1 mem with mem | ⟨rfl, rfl⟩
    · have other := old d q mem
      obtain ⟨magic, objSize, total, chain, each, count⟩ := shape.slab d q mem
      show SlabOk _ (Function.update v.free p _ q) d q
      rw [Function.update_of_ne other]
      have same : (Function.update h.slab p
          ⟨slabMagic, classSize c, capacity c, 0, threaded.2, h.slabs c⟩) q = h.slab q :=
        Function.update_of_ne other ..
      refine ⟨?_, ?_, ?_, ?_, each, ?_⟩ <;> dsimp only <;> rw [same]
      · exact magic
      · exact objSize
      · exact total
      · refine chain.congr fun o mem' => frame' o ?_
        rw [(each o mem').pageOf (shape.page d q mem).1]
        exact other
      · exact count
    · show SlabOk _ (Function.update v.free q _ q) d q
      rw [Function.update_self]
      have same : (Function.update h.slab q
          ⟨slabMagic, classSize d, capacity d, 0, threaded.2, h.slabs d⟩) q =
            ⟨slabMagic, classSize d, capacity d, 0, threaded.2, h.slabs d⟩ := Function.update_self ..
      refine ⟨?_, ?_, ?_, ?_, fun o => mem_objects.1, ?_⟩ <;> dsimp only <;> rw [same]
      · exact chain
      · rw [objects_length, Nat.zero_add]
  · intro d q mem
    rcases (memSlabs d q).1 mem with mem | ⟨rfl, rfl⟩
    · exact shape.page d q mem
    · exact ok
  · intro o
    rw [shape.held o]
    constructor
    · rintro ⟨d, q, mem, obj, used⟩
      refine ⟨d, q, (memSlabs d q).2 (.inl mem), obj, ?_⟩
      show o ∉ Function.update v.free p _ q
      rw [Function.update_of_ne (old d q mem)]
      exact used
    · rintro ⟨d, q, mem, obj, used⟩
      rcases (memSlabs d q).1 mem with mem | ⟨rfl, rfl⟩
      · have used : o ∉ Function.update v.free p (objects c p) q := used
        rw [Function.update_of_ne (old d q mem)] at used
        exact ⟨d, q, mem, obj, used⟩
      · have used : o ∉ Function.update v.free q (objects d q) q := used
        rw [Function.update_self] at used
        exact absurd (mem_objects.2 obj) used
  · exact fun r mem => shape.run r (List.mem_cons_of_mem _ mem)
  · exact (List.pairwise_cons.1 shape.apart).2
  · intro d q mem r mem'
    rcases (memSlabs d q).1 mem with mem | ⟨rfl, rfl⟩
    · exact shape.slabApart d q mem r (List.mem_cons_of_mem _ mem')
    · exact (List.pairwise_cons.1 shape.apart).1 r mem'
  · intro q aligned'
    refine (shape.out q aligned').trans ?_
    simp only [List.mem_cons, exists_eq_or_imp, inRun_one aligned aligned', memSlabs]
    constructor
    · rintro (⟨d, mem⟩ | rfl | run)
      · exact .inl ⟨d, .inl mem⟩
      · exact .inl ⟨c, .inr ⟨rfl, rfl⟩⟩
      · exact .inr run
    · rintro (⟨d, mem | ⟨_, rfl⟩⟩ | run)
      · exact .inl ⟨d, mem⟩
      · exact .inr (.inl rfl)
      · exact .inr (.inr run)

/-- A slab that nothing is held of, off its list: a page of its own again. -/
theorem dropSlab (shape : Shape h v held runs) {before after : List Nat}
    (at_ : v.slabs c = before ++ p :: after) (idle : ∀ o ∈ held, ¬Obj c p o)
    (word : h'.word = h.word) (out : h'.out = h.out)
    (header : ∀ q, ∃ next, h'.slab q = { h.slab q with next := next })
    (chain : Chain 0 h'.nextSlab (h'.slabs c) (before ++ after))
    (others : ∀ d, d ≠ c → Chain 0 h'.nextSlab (h'.slabs d) (v.slabs d)) :
    Shape h' ⟨Function.update v.slabs c (before ++ after), v.free⟩ held ((p, 1) :: runs) := by
  have slab : p ∈ v.slabs c := by rw [at_]; simp
  have page := shape.page c p slab
  have nodup := (shape.slabs c).nodup
  rw [at_] at nodup
  have apart : p ∉ before ++ after := by
    have middle := List.nodup_middle.1 nodup
    exact (List.nodup_cons.1 middle).1
  have memSlabs (d : Class) (q : Nat) : q ∈ (Function.update v.slabs c (before ++ after)) d ↔
      q ∈ v.slabs d ∧ q ≠ p := by
    by_cases same : d = c
    · subst same
      rw [Function.update_self, at_]
      simp only [List.mem_append, List.mem_cons]
      constructor
      · intro mem
        refine ⟨mem.imp_right .inr, ?_⟩
        rintro rfl
        exact apart (List.mem_append.2 mem)
      · rintro ⟨mem | rfl | mem, other⟩
        · exact .inl mem
        · exact absurd rfl other
        · exact .inr mem
    · rw [Function.update_of_ne same]
      refine ⟨fun mem => ⟨mem, ?_⟩, fun mem => mem.1⟩
      rintro rfl
      exact same (shape.class_eq mem slab)
  refine ⟨?_, ?_, ?_, shape.once, ?_, ?_, ?_, ?_, ?_⟩
  · intro d
    by_cases same : d = c
    · subst same
      show Chain 0 _ _ (Function.update v.slabs d _ d)
      rw [Function.update_self]
      exact chain
    · show Chain 0 _ _ (Function.update v.slabs c _ d)
      rw [Function.update_of_ne same]
      exact others d same
  · intro d q mem
    obtain ⟨magic, objSize, total, chain, each, count⟩ := shape.slab d q ((memSlabs d q).1 mem).1
    obtain ⟨next, same⟩ := header q
    refine ⟨?_, ?_, ?_, ?_, each, ?_⟩ <;> rw [same]
    · exact magic
    · exact objSize
    · exact total
    · rw [word]
      exact chain
    · exact count
  · exact fun d q mem => shape.page d q ((memSlabs d q).1 mem).1
  · intro o
    rw [shape.held o]
    constructor
    · rintro ⟨d, q, mem, obj, used⟩
      refine ⟨d, q, (memSlabs d q).2 ⟨mem, ?_⟩, obj, used⟩
      rintro rfl
      obtain rfl := shape.class_eq mem slab
      exact idle o ((shape.held o).2 ⟨d, q, mem, obj, used⟩) obj
    · rintro ⟨d, q, mem, obj, used⟩
      exact ⟨d, q, ((memSlabs d q).1 mem).1, obj, used⟩
  · intro r mem
    rcases List.mem_cons.1 mem with rfl | mem
    · exact page
    · exact shape.run r mem
  · exact List.pairwise_cons.2 ⟨fun r mem => shape.slabApart c p slab r mem, shape.apart⟩
  · intro d q mem r mem'
    obtain ⟨mem, other⟩ := (memSlabs d q).1 mem
    rcases List.mem_cons.1 mem' with rfl | mem'
    · have := (shape.page d q mem).1
      have := page.1
      simp only [Kheap.Apart, pageSize] at *
      omega
    · exact shape.slabApart d q mem r mem'
  · intro q aligned'
    rw [out, shape.out q aligned']
    simp only [List.mem_cons, exists_eq_or_imp, inRun_one page.1 aligned', memSlabs]
    constructor
    · rintro (⟨d, mem⟩ | run)
      · by_cases same : q = p
        · exact .inr (.inl same)
        · exact .inl ⟨d, mem, same⟩
      · exact .inr (.inr run)
    · rintro (⟨d, mem, _⟩ | rfl | run)
      · exact .inl ⟨d, mem⟩
      · exact .inl ⟨c, slab⟩
      · exact .inr run

/-- A slab passed over by the link before it. -/
theorem linkSlab (shape : Shape h v held runs) {before after : List Nat}
    (at_ : v.slabs c = before ++ p :: after) (idle : ∀ o ∈ held, ¬Obj c p o) :
    let h' := h.linkSlab c before.getLast? (h.nextSlab p)
    h'.word = h.word ∧ h'.larges = h.larges ∧
      Shape h' ⟨Function.update v.slabs c (before ++ after), v.free⟩ held ((p, 1) :: runs) := by
  intro h'
  have chain := shape.slabs c
  rw [at_] at chain
  have unlinked := chain.unlink
  unfold h' Heap.linkSlab
  split at unlinked
  · rename_i last
    obtain ⟨rfl, rest⟩ := unlinked
    refine ⟨rfl, rfl, ?_⟩
    refine shape.dropSlab at_ idle rfl rfl (fun q => ⟨_, rfl⟩) ?_ fun d other => ?_
    · show Chain 0 h.nextSlab (Function.update h.slabs c _ c) _
      rw [Function.update_self]
      exact rest
    · show Chain 0 h.nextSlab (Function.update h.slabs c _ d) _
      rw [Function.update_of_ne other]
      exact shape.slabs d
  · rename_i prev last
    obtain ⟨mem, rest⟩ := unlinked
    rw [last]
    have links : (h.setSlab prev { h.slab prev with next := h.nextSlab p }).nextSlab =
        Function.update h.nextSlab prev (h.nextSlab p) := by
      funext q
      unfold Heap.nextSlab
      by_cases same : q = prev
      · subst same
        rw [setSlab_self, Function.update_self]
      · rw [setSlab_other _ same, Function.update_of_ne same]
    refine ⟨rfl, rfl, ?_⟩
    refine shape.dropSlab at_ idle rfl rfl (fun q => ?_) ?_ fun d other => ?_
    · by_cases same : q = prev
      · subst same
        exact ⟨_, setSlab_self _⟩
      · exact ⟨_, setSlab_other _ same⟩
    · rw [links]
      exact rest
    · rw [links]
      refine (shape.slabs d).congr fun q mem' => Function.update_of_ne ?_ ..
      rintro rfl
      exact other (shape.class_eq mem' (by rw [at_]; exact List.mem_append_left _ mem))

/-- An empty slab goes back to the page allocator. -/
theorem releaseSlab (shape : Shape h v held runs) (slab : p ∈ v.slabs c)
    (idle : ∀ o ∈ held, ¬Obj c p o) :
    ∃ h' v', h.releaseSlab c p = some h' ∧ Shape h' v' held runs ∧ h'.word = h.word ∧
      h'.larges = h.larges ∧ ∀ d q, q ∈ v'.slabs d → q ∈ v.slabs d ∧ q ≠ p := by
  cases (shape.slabs c).seek_spec (fun q => decide (q = p)) (shape.lists_short c) none with
  | inr none_ => exact absurd rfl (of_decide_eq_false (none_.1 p slab))
  | inl found =>
    obtain ⟨before, p', after, at_, same, _, found⟩ := found
    obtain rfl : p' = p := of_decide_eq_true same
    rw [Option.or_none] at found
    obtain ⟨word, larges, dropped⟩ := shape.linkSlab at_ idle
    obtain ⟨h₂, freed, shape₂, word', _, larges'⟩ := pmmFree
      (show Shape _ _ held ([] ++ (p', 1) :: runs) from dropped)
    refine ⟨h₂, _, ?_, shape₂, word'.trans word, larges'.trans larges, ?_⟩
    · unfold Heap.releaseSlab
      rw [found]
      dsimp only
      rw [if_neg (shape.page c p' slab).2.1]
      exact freed
    · intro d q mem
      have apart : p' ∉ before ++ after := by
        have nodup := (shape.slabs c).nodup
        rw [at_] at nodup
        exact (List.nodup_cons.1 (List.nodup_middle.1 nodup)).1
      by_cases at_c : d = c
      · subst at_c
        have mem : q ∈ Function.update v.slabs d (before ++ after) d := mem
        rw [Function.update_self] at mem
        refine ⟨?_, ?_⟩
        · rw [at_]
          simp only [List.mem_append, List.mem_cons] at mem ⊢
          exact mem.imp_right .inr
        · rintro rfl
          exact apart mem
      · have mem : q ∈ Function.update v.slabs c (before ++ after) d := mem
        rw [Function.update_of_ne at_c] at mem
        refine ⟨mem, ?_⟩
        rintro rfl
        exact at_c (shape.class_eq mem slab)

end Shape

/-! ## Calls -/

/-- A class's object taken from the slab `p`, nothing that was held having moved. -/
structure Took (c : Class) (h : Heap) (v : View) (held : List Nat) (runs : List (Nat × Nat))
    (ptr : Nat) (h' : Heap) (v' : View) : Prop where
  shape : Shape h' v' (ptr :: held) runs
  busy : Busy v' (ptr :: held)
  obj : ∃ p ∈ v'.slabs c, Obj c p ptr
  larges : h'.larges = h.larges
  slabs : ∀ d, ∀ q ∈ v.slabs d, q ∈ v'.slabs d
  word : ∀ a, (∃ d, pageOf a ∈ v.slabs d) → h'.word a = h.word a

theorem Took.of_take {h₁ : Heap} {v₁ : View} {rest : List Nat} (shape : Shape h₁ v₁ held runs)
    (busy : Busy v held) (slab : p ∈ v₁.slabs c) (free : v₁.free p = o :: rest)
    (slabs : ∀ d, ∀ q ∈ v.slabs d, q ∈ v₁.slabs d)
    (new : ∀ d, ∀ q ∈ v₁.slabs d, q ∈ v.slabs d ∨ d = c ∧ q = p) (larges : h₁.larges = h.larges)
    (word : ∀ a, (∃ d, pageOf a ∈ v.slabs d) → h₁.word a = h.word a) :
    (h₁.takeObject p).1 = o ∧ Took c h v held runs o (h₁.takeObject p).2
      { v₁ with free := Function.update v₁.free p rest } := by
  obtain ⟨first, obj, shape'⟩ := shape.takeObject slab free
  refine ⟨first, shape', ?_, ⟨p, slab, obj⟩, larges, slabs, word⟩
  intro d q mem
  cases new d q mem with
  | inl old =>
    obtain ⟨x, mem', obj'⟩ := busy d q old
    exact ⟨x, List.mem_cons_of_mem o mem', obj'⟩
  | inr new =>
    obtain ⟨rfl, rfl⟩ := new
    exact ⟨o, List.mem_cons_self .., obj⟩

theorem Obj.ne_zero (obj : Obj c p o) : o ≠ 0 := by
  have := obj.bounds
  simp only [slabHeaderSize] at this
  omega

theorem objects_cons (c : Class) (p : Nat) :
    ∃ o rest, objects c p = o :: rest := by
  have length := objects_length (c := c) (p := p)
  have := (capacity_spec c).1
  cases same : objects c p with
  | nil =>
    rw [same, List.length_nil] at length
    omega
  | cons o rest => exact ⟨o, rest, rfl⟩

/-- An object of a class, if there is one to be had. -/
theorem Shape.kmallocClass (shape : Shape h v held runs) (busy : Busy v held) (c : Class)
    (page : Nat) : h.kmallocClass c page = some (0, h) ∨
      ∃ ptr h' v', h.kmallocClass c page = some (ptr, h') ∧ Took c h v held runs ptr h' v' := by
  unfold Heap.kmallocClass
  cases (shape.slabs c).seek_spec (fun p => decide ((h.slab p).freeList ≠ 0)) (shape.lists_short c)
    none with
  | inl found =>
    obtain ⟨before, p, after, at_, some_, _, found⟩ := found
    have slab : p ∈ v.slabs c := by rw [at_]; simp
    have chain := (shape.slab c p slab).chain
    rw [found]
    dsimp only
    rw [if_pos (shape.page c p slab).2.1]
    cases free : v.free p with
    | nil =>
      rw [free] at chain
      have nonzero : (h.slab p).freeList ≠ 0 := of_decide_eq_true some_
      exact absurd chain nonzero
    | cons o rest =>
      obtain ⟨first, took⟩ := Took.of_take (h := h) (v := v) shape busy slab free
        (fun _ _ mem => mem) (fun _ _ mem => .inl mem) rfl fun _ _ => rfl
      refine .inr ⟨o, (h.takeObject p).2, _, ?_, took⟩
      rw [← first]
  | inr none_ =>
    obtain ⟨_, last, found⟩ := none_
    rw [found]
    dsimp only
    rw [if_neg (by simp)]
    unfold growClass
    cases given : h.pmmAlloc page 1 with
    | none => exact .inl rfl
    | some h₁ =>
      obtain ⟨_, same⟩ := pmmAlloc_eq given
      obtain ⟨grown, frame⟩ := (shape.pmmAlloc given).addSlab c
      obtain ⟨o, rest, first⟩ := objects_cons c page
      have isNew := (shape.pmmAlloc given).not_slab
      have memSlabs (d : Class) (q : Nat) :
          q ∈ (Function.update v.slabs c (page :: v.slabs c)) d ↔ q ∈ v.slabs d ∨ d = c ∧ q = page := by
        by_cases at_ : d = c
        · subst at_
          rw [Function.update_self, List.mem_cons]
          simp [or_comm]
        · rw [Function.update_of_ne at_]
          simp [at_]
      obtain ⟨first', took⟩ := Took.of_take (h := h) (v := v) (p := page) (c := c)
        (o := o) grown busy ((memSlabs c page).2 (.inr ⟨rfl, rfl⟩))
        ((Function.update_self ..).trans first) (fun d q mem => (memSlabs d q).2 (.inl mem))
        (fun d q mem => (memSlabs d q).1 mem) (by rw [same]) (by
          rintro a ⟨d, mem⟩
          refine (frame a ?_).trans (by rw [same])
          rintro new
          rw [new] at mem
          exact isNew d mem)
      refine .inr ⟨o, _, _, ?_, took⟩
      rw [← first']
      rfl

/-- An object in use given back; its slab's page too, when nothing else of it is in use. -/
theorem Shape.kfreeObject (shape : Shape h v held runs) (busy : Busy v held) (mem : o ∈ held) :
    ∃ h' v', h.kfreeObject o = some h' ∧ Shape h' v' (held.erase o) runs ∧
      Busy v' (held.erase o) ∧ h'.larges = h.larges ∧ (∀ d, ∀ q ∈ v'.slabs d, q ∈ v.slabs d) ∧
      ∀ a, a ≠ o → h'.word a = h.word a := by
  obtain ⟨c, slab, obj, used⟩ := shape.holder mem
  obtain ⟨magic, objSize, total, chain, each, count⟩ := shape.slab c (pageOf o) slab
  obtain ⟨_, _, given⟩ := shape.giveObject mem
  have less := free_length_lt chain.nodup each obj used
  have header : (h.giveObject o).slab (pageOf o) =
      { h.slab (pageOf o) with freeList := o, inUse := (h.slab (pageOf o)).inUse - 1 } :=
    setSlab_self _
  have word : ∀ a, a ≠ o → (h.giveObject o).word a = h.word a :=
    fun a other => Function.update_of_ne other ..
  have still {d : Class} {q x : Nat} (slab' : q ∈ v.slabs d) (mem' : x ∈ held) (obj' : Obj d q x)
      (other : q ≠ pageOf o) : x ∈ held.erase o := by
    refine (shape.once.mem_erase_iff).2 ⟨?_, mem'⟩
    rintro rfl
    exact other (obj'.pageOf (shape.page d q slab').1).symm
  unfold Heap.kfreeObject
  dsimp only
  rw [if_neg (by rw [magic]; simp), if_neg (by omega), header, objSize, classFor_classSize]
  dsimp only
  by_cases last : (h.slab (pageOf o)).inUse - 1 = 0
  · rw [if_pos last]
    have idle : ∀ x ∈ held.erase o, ¬Obj c (pageOf o) x := by
      intro x mem' obj'
      obtain ⟨other, mem'⟩ := (shape.once.mem_erase_iff).1 mem'
      obtain ⟨d, slab', obj'', used'⟩ := shape.holder mem'
      have at_ := obj'.pageOf (shape.page c _ slab).1
      rw [at_] at used'
      have nodup := List.nodup_cons.2 ⟨used, chain.nodup⟩
      have both := free_length_lt (o := x) nodup (by
        intro y mem''
        rcases List.mem_cons.1 mem'' with rfl | mem''
        · exact obj
        · exact each y mem'') obj' (by
        rw [List.mem_cons, not_or]
        exact ⟨other, used'⟩)
      rw [List.length_cons] at both
      omega
    obtain ⟨h', v', released, shape', word', larges, slabs⟩ := given.releaseSlab slab idle
    refine ⟨h', v', released, shape', ?_, larges, fun d q mem' => (slabs d q mem').1,
      fun a other => by rw [word', word a other]⟩
    intro d q mem'
    obtain ⟨mem', other⟩ := slabs d q mem'
    obtain ⟨x, mem'', obj'⟩ := busy d q mem'
    exact ⟨x, still mem' mem'' obj' other, obj'⟩
  · rw [if_neg last]
    refine ⟨_, _, rfl, given, ?_, rfl, fun d q mem' => mem', word⟩
    intro d q mem'
    by_cases same : q = pageOf o
    · subst same
      obtain rfl := shape.class_eq mem' slab
      have ok := given.slab d (pageOf o) mem'
      have count' := ok.count
      rw [header] at count'
      obtain ⟨x, obj', used'⟩ := exists_used (c := d) (p := pageOf o) (by
        show List.length _ < capacity d
        have := count'
        dsimp only at this
        exact Nat.lt_of_lt_of_eq (Nat.lt_add_of_pos_left (Nat.pos_of_ne_zero last)) this)
      exact ⟨x, (given.held x).2 ⟨d, pageOf o, mem', obj', used'⟩, obj'⟩
    · obtain ⟨x, mem'', obj'⟩ := busy d q mem'
      exact ⟨x, still mem' mem'' obj' same, obj'⟩

end ReconOS.Kheap
