import ReconOS.Kheap.Shape

/-! Pages taken from the page allocator and given back, and objects of slabs. -/
namespace ReconOS.Kheap

open Lib Heap

variable {h h' : Heap} {v : View} {held : List Nat} {runs : List (Nat × Nat)}
variable {c d : Class} {p q o a n : Nat}

/-! ## Runs of pages -/

theorem inRun_of_index {k : Nat} (less : k < n) : inRun a n (a + k * pageSize) = true := by
  rw [inRun_iff]
  simp only [pageSize]
  omega

/-- Runs that have no page in common. -/
theorem apart_of_pages {r r' : Nat × Nat} (ok : RunOk r) (ok' : RunOk r')
    (none_ : ∀ k < r.2, inRun r'.1 r'.2 (r.1 + k * pageSize) = false) : Apart r r' := by
  obtain ⟨aligned, _, some_, _⟩ := ok
  obtain ⟨aligned', _, some', _⟩ := ok'
  by_contra overlap
  rw [Apart, not_or] at overlap
  by_cases after : r'.1 ≤ r.1
  · have first := none_ 0 (by omega)
    rw [← Bool.not_eq_true, inRun_iff] at first
    omega
  · have index : (r'.1 - r.1) / pageSize < r.2 := by
      simp only [pageSize] at *
      omega
    have here := none_ _ index
    rw [← Bool.not_eq_true, inRun_iff] at here
    simp only [pageSize] at *
    omega

theorem Apart.not_inRun {r r' : Nat × Nat} (apart : Apart r r') (there : inRun r.1 r.2 q = true) :
    inRun r'.1 r'.2 q = false := by
  rw [← Bool.not_eq_true, inRun_iff]
  rw [inRun_iff] at there
  rw [Apart] at apart
  omega

theorem Apart.symm {r r' : Nat × Nat} (apart : Apart r r') : Apart r' r := Or.symm apart

theorem pmmAlloc_eq (given : h.pmmAlloc a n = some h') :
    h.CanGive a n ∧ h' = { h with out := fun q => h.out q || inRun a n q } := by
  unfold pmmAlloc at given
  split at given
  · rename_i can
    exact ⟨can, (Option.some.inj given).symm⟩
  · cases given

namespace Shape

/-- A run given is none of those out. -/
theorem pmmAlloc (shape : Shape h v held runs) (given : h.pmmAlloc a n = some h') :
    Shape h' v held ((a, n) :: runs) := by
  obtain ⟨⟨some_, many, aligned, bound, fresh⟩, rfl⟩ := pmmAlloc_eq given
  have ok : RunOk (a, n) := ⟨aligned, some_, many, bound⟩
  have away (r : Nat × Nat) (ok' : RunOk r)
      (all : ∀ q, q % pageSize = 0 → inRun r.1 r.2 q = true → h.out q = true) : Apart (a, n) r := by
    refine apart_of_pages ok ok' fun k less => ?_
    by_contra there
    have out := all (a + k * pageSize) (by simp only [pageSize] at *; omega) (by simpa using there)
    rw [fresh k less] at out
    cases out
  have runAway (r : Nat × Nat) (mem : r ∈ runs) : Apart (a, n) r :=
    away r (shape.run r mem) fun q aligned' there => (shape.out q aligned').2 (.inr ⟨r, mem, there⟩)
  have slabAway (c : Class) (p : Nat) (mem : p ∈ v.slabs c) : Apart (p, 1) (a, n) := by
    have page := shape.page c p mem
    refine (away (p, 1) page fun q aligned' there => (shape.out q aligned').2 (.inl ⟨c, ?_⟩)).symm
    rw [(inRun_one page.1 aligned').1 there]
    exact mem
  refine ⟨shape.slabs, fun c p mem => ?_, shape.page, shape.once, shape.held, ?_, ?_, ?_, ?_⟩
  · obtain ⟨magic, objSize, total, chain, each, count⟩ := shape.slab c p mem
    exact ⟨magic, objSize, total, chain, each, count⟩
  · intro r mem
    cases List.mem_cons.1 mem with
    | inl same => exact same ▸ ok
    | inr mem => exact shape.run r mem
  · exact List.pairwise_cons.2 ⟨runAway, shape.apart⟩
  · intro c p mem r mem'
    cases List.mem_cons.1 mem' with
    | inl same => exact same ▸ slabAway c p mem
    | inr mem' => exact shape.slabApart c p mem r mem'
  · intro q aligned'
    rw [Bool.or_eq_true, shape.out q aligned']
    constructor
    · rintro ((slab | ⟨r, mem, there⟩) | there)
      · exact .inl slab
      · exact .inr ⟨r, List.mem_cons_of_mem _ mem, there⟩
      · exact .inr ⟨(a, n), List.mem_cons_self .., there⟩
    · rintro (slab | ⟨r, mem, there⟩)
      · exact .inl (.inl slab)
      · rcases List.mem_cons.1 mem with rfl | mem
        · exact .inr there
        · exact .inl (.inr ⟨r, mem, there⟩)

/-- A run given back. -/
theorem pmmFree {before after : List (Nat × Nat)} {r : Nat × Nat}
    (shape : Shape h v held (before ++ r :: after)) :
    ∃ h', h.pmmFree r.1 r.2 = some h' ∧ Shape h' v held (before ++ after) ∧ h'.word = h.word ∧
      h'.slab = h.slab ∧ h'.larges = h.larges := by
  have mem : r ∈ before ++ r :: after := by simp
  have aligned := (shape.run r mem).1
  have out : ∀ k < r.2, h.out (r.1 + k * pageSize) = true := by
    intro k less
    refine (shape.out _ ?_).2 (.inr ⟨r, mem, inRun_of_index less⟩)
    simp only [pageSize] at *
    omega
  have sublist : (before ++ after).Sublist (before ++ r :: after) :=
    List.Sublist.append_left (List.sublist_cons_self r after) before
  have apart : ∀ r' ∈ before ++ after, Apart r r' := by
    intro r' mem'
    have pairs := List.pairwise_append.1 shape.apart
    cases List.mem_append.1 mem' with
    | inl earlier => exact (pairs.2.2 r' earlier r (List.mem_cons_self ..)).symm
    | inr later => exact (List.pairwise_cons.1 pairs.2.1).1 r' later
  refine ⟨_, if_pos out, ⟨shape.slabs, fun c p mem => ?_, shape.page, shape.once, shape.held, ?_, ?_,
    ?_, ?_⟩, rfl, rfl, rfl⟩
  · obtain ⟨magic, objSize, total, chain, each, count⟩ := shape.slab c p mem
    exact ⟨magic, objSize, total, chain, each, count⟩
  · exact fun r' mem' => shape.run r' (sublist.subset mem')
  · exact shape.apart.sublist sublist
  · exact fun c p slab r' mem' => shape.slabApart c p slab r' (sublist.subset mem')
  · intro q aligned'
    show (h.out q && !inRun r.1 r.2 q) = true ↔ _
    rw [Bool.and_eq_true, shape.out q aligned']
    constructor
    · rintro ⟨slab | ⟨r', mem', there⟩, away⟩
      · exact .inl slab
      · refine .inr ⟨r', ?_, there⟩
        rcases List.mem_append.1 mem' with earlier | later
        · exact List.mem_append_left _ earlier
        · rcases List.mem_cons.1 later with rfl | later
          · rw [there] at away
            cases away
          · exact List.mem_append_right _ later
    · rintro (⟨c, slab⟩ | ⟨r', mem', there⟩)
      · refine ⟨.inl ⟨c, slab⟩, ?_⟩
        have away := shape.slabApart c q slab r mem
        rw [away.not_inRun ((inRun_one aligned' aligned').2 rfl)]
        rfl
      · refine ⟨.inr ⟨r', sublist.subset mem', there⟩, ?_⟩
        rw [(apart r' mem').symm.not_inRun there]
        rfl

end Shape

/-! ## Objects -/

theorem setSlab_other (s : Slab) (other : q ≠ p) : (h.setSlab p s).slab q = h.slab q :=
  Function.update_of_ne other ..

@[simp] theorem setSlab_self (s : Slab) : (h.setSlab p s).slab p = s := Function.update_self ..

/-- A header that keeps its link leaves the lists of slabs as they were. -/
theorem chain_setSlab {s : Slab} {head : Nat} {l : List Nat} (chain : Chain 0 h.nextSlab head l)
    (same : s.next = (h.slab p).next) : Chain 0 (h.setSlab p s).nextSlab head l := by
  refine chain.congr fun q _ => ?_
  unfold Heap.nextSlab
  by_cases at_ : q = p
  · subst at_
    rw [setSlab_self, same]
  · rw [setSlab_other s at_]

theorem SlabOk.other {free : List Nat} {s : Slab} (ok : SlabOk h free c q) (other : q ≠ p) :
    SlabOk (h.setSlab p s) free c q := by
  have same := setSlab_other (h := h) s other
  refine ⟨?_, ?_, ?_, ?_, ok.each, ?_⟩
  · rw [same]
    exact ok.magic
  · rw [same]
    exact ok.objSize
  · rw [same]
    exact ok.total
  · rw [same]
    exact ok.chain
  · rw [same]
    exact ok.count

namespace Shape

/-- The first free object of a slab, now in use. -/
theorem takeObject (shape : Shape h v held runs) (slab : p ∈ v.slabs c) {rest : List Nat}
    (free : v.free p = o :: rest) :
    (h.takeObject p).1 = o ∧ Obj c p o ∧
      Shape (h.takeObject p).2 { v with free := Function.update v.free p rest } (o :: held) runs := by
  obtain ⟨magic, objSize, total, chain, each, count⟩ := shape.slab c p slab
  have nodup := chain.nodup
  rw [free] at chain each count nodup
  obtain ⟨first, some_, further⟩ := chain
  obtain ⟨apart, _⟩ := List.nodup_cons.1 nodup
  have obj := each o (List.mem_cons_self ..)
  have aligned := (shape.page c p slab).1
  have free' (q : Nat) (x : Nat) : x ∉ (Function.update v.free p rest) q ↔
      x ∉ v.free q ∨ q = p ∧ x = o := by
    by_cases same : q = p
    · subst same
      rw [Function.update_self, free, List.mem_cons, not_or]
      by_cases here : x = o
      · subst here
        simp [apart]
      · simp [here]
    · rw [Function.update_of_ne same]
      simp [same]
  refine ⟨first, obj, ⟨?_, ?_, shape.page, ?_, ?_, shape.run, shape.apart, shape.slabApart, shape.out⟩⟩
  · intro d
    exact chain_setSlab (shape.slabs d) rfl
  · intro d q slab'
    by_cases same : q = p
    · subst same
      obtain rfl := shape.class_eq slab slab'
      rw [show ({ v with free := Function.update v.free q rest } : View).free q = rest from
        Function.update_self ..]
      refine ⟨?_, ?_, ?_, ?_, fun x mem => each x (List.mem_cons_of_mem o mem), ?_⟩ <;>
        simp only [Heap.takeObject, setSlab_self]
      · exact magic
      · exact objSize
      · exact total
      · rw [first]
        exact further
      · rw [List.length_cons] at count
        omega
    · rw [show ({ v with free := Function.update v.free p rest } : View).free q = v.free q from
        Function.update_of_ne same ..]
      exact (shape.slab d q slab').other same
  · refine List.nodup_cons.2 ⟨fun mem => ?_, shape.once⟩
    obtain ⟨d, q, slab', obj', used⟩ := (shape.held o).1 mem
    have same : q = p := (obj'.pageOf (shape.page d q slab').1).symm.trans (obj.pageOf aligned)
    subst same
    rw [free] at used
    exact used (List.mem_cons_self ..)
  · intro x
    rw [List.mem_cons, shape.held x]
    constructor
    · rintro (rfl | ⟨d, q, slab', obj', used⟩)
      · exact ⟨c, p, slab, obj, (free' p x).2 (.inr ⟨rfl, rfl⟩)⟩
      · exact ⟨d, q, slab', obj', (free' q x).2 (.inl used)⟩
    · rintro ⟨d, q, slab', obj', used⟩
      rcases (free' q x).1 used with used | ⟨_, rfl⟩
      · exact .inr ⟨d, q, slab', obj', used⟩
      · exact .inl rfl

/-- An object put back, at the front of its slab's free list. -/
theorem giveObject (shape : Shape h v held runs) (mem : o ∈ held) :
    ∃ c, pageOf o ∈ v.slabs c ∧
      Shape (h.giveObject o)
        { v with free := Function.update v.free (pageOf o) (o :: v.free (pageOf o)) }
        (held.erase o) runs := by
  obtain ⟨c, slab, obj, used⟩ := shape.holder mem
  refine ⟨c, slab, ?_⟩
  generalize at_ : pageOf o = p at slab obj used
  have page := shape.page c p slab
  have clear : ∀ d, ∀ q ∈ v.slabs d, o ∉ v.free q := by
    intro d q slab' free
    have obj' := (shape.slab d q slab').each o free
    have same : q = p := (obj'.pageOf (shape.page d q slab').1).symm.trans (obj.pageOf page.1)
    exact used (same ▸ free)
  have worded := shape.setWord clear (h.slab p).freeList
  obtain ⟨magic, objSize, total, chain, each, count⟩ := worded.slab c p slab
  have full : (v.free p).length < capacity c := free_length_lt chain.nodup each obj used
  have free' (q : Nat) (x : Nat) : x ∉ (Function.update v.free p (o :: v.free p)) q ↔
      x ∉ v.free q ∧ ¬(q = p ∧ x = o) := by
    by_cases same : q = p
    · subst same
      rw [Function.update_self, List.mem_cons, not_or]
      simp [and_comm]
    · rw [Function.update_of_ne same]
      simp [same]
  have heap : h.giveObject o = (h.setWord o (h.slab p).freeList).setSlab p
      { h.slab p with freeList := o, inUse := (h.slab p).inUse - 1 } := by
    rw [Heap.giveObject, at_]
  rw [heap]
  refine ⟨?_, ?_, shape.page, ?_, ?_, shape.run, shape.apart, shape.slabApart, shape.out⟩
  · intro d
    exact chain_setSlab (h := h.setWord o (h.slab p).freeList) (shape.slabs d) rfl
  · intro d q slab'
    by_cases same : q = p
    · subst same
      obtain rfl := shape.class_eq slab slab'
      rw [show ({ v with free := Function.update v.free q (o :: v.free q) } : View).free q =
        o :: v.free q from Function.update_self ..]
      refine ⟨?_, ?_, ?_, ?_, ?_, ?_⟩
      · rw [setSlab_self]
        exact magic
      · rw [setSlab_self]
        exact objSize
      · rw [setSlab_self]
        exact total
      · rw [setSlab_self]
        have positive := obj.bounds
        refine ⟨rfl, ?_, ?_⟩
        · simp only [slabHeaderSize] at positive
          omega
        · show Chain 0 _ (Function.update h.word o _ o) _
          rw [Function.update_self]
          exact chain
      · intro x mem
        rcases List.mem_cons.1 mem with rfl | mem
        · exact obj
        · exact each x mem
      · rw [setSlab_self, List.length_cons]
        have count : (h.slab q).inUse + (v.free q).length = capacity c := count
        dsimp only
        omega
    · rw [show ({ v with free := Function.update v.free p (o :: v.free p) } : View).free q = v.free q
        from Function.update_of_ne same ..]
      exact (worded.slab d q slab').other same
  · exact shape.once.erase o
  · intro x
    rw [shape.once.mem_erase_iff, shape.held x]
    constructor
    · rintro ⟨other, d, q, slab', obj', used'⟩
      exact ⟨d, q, slab', obj', (free' q x).2 ⟨used', fun same => other same.2⟩⟩
    · rintro ⟨d, q, slab', obj', used'⟩
      obtain ⟨used', other⟩ := (free' q x).1 used'
      refine ⟨?_, d, q, slab', obj', used'⟩
      rintro rfl
      exact other ⟨(obj'.pageOf (shape.page d q slab').1).symm.trans (obj.pageOf page.1), rfl⟩

end Shape

end ReconOS.Kheap
