import ReconOS.Kheap.Whole
import Mathlib.Data.List.Pairwise

/-! Runs of pages, their records, and what callers write. -/
namespace ReconOS.Kheap

open Lib Heap

variable {h h' : Heap} {v v' : View} {held records : List Nat} {runs : List (Nat × Nat)}
variable {live : List (Nat × Nat)} {c d : Class} {p q o o' a : Nat}

namespace Whole

/-- A word of a record that is still to be listed. -/
theorem setRecordWord {r : Nat} (shape : Shape h v held runs) (mem : r ∈ held)
    (obj : ∃ p ∈ v.slabs recordClass, Obj recordClass p r) {k : Nat} (less : k ≤ 16) (x : Nat) :
    Shape (h.setWord (r + k) x) v held runs := by
  obtain ⟨p, slab, obj⟩ := obj
  refine shape.setWord (shape.inside_free mem slab obj (Nat.le_add_right r k) ?_) x
  have := recordSize
  omega

/-- The record of a run filled in. -/
def withRecord (h : Heap) (r addr pages : Nat) : Heap :=
  { (((h.setWord r addr).setWord (r + 8) pages).setWord (r + 16) h.larges) with larges := r }

theorem record_word (h : Heap) (r addr pages : Nat) :
    (withRecord h r addr pages).word r = addr ∧ (withRecord h r addr pages).word (r + 8) = pages ∧
      (withRecord h r addr pages).word (r + 16) = h.larges ∧
      ∀ a, a ≠ r → a ≠ r + 8 → a ≠ r + 16 → (withRecord h r addr pages).word a = h.word a := by
  refine ⟨?_, ?_, Function.update_self .., ?_⟩
  · refine (Function.update_of_ne (by omega) ..).trans ((Function.update_of_ne (by omega) ..).trans ?_)
    exact Function.update_self ..
  · exact (Function.update_of_ne (by omega) ..).trans (Function.update_self ..)
  · intro a first second third
    exact (Function.update_of_ne third ..).trans ((Function.update_of_ne second ..).trans
      (Function.update_of_ne first ..))

/-- A run with its record. -/
theorem recorded (whole : Whole h v held records live) {h₁ : Heap} {addr pages size r : Nat}
    (given : h.pmmAlloc addr pages = some h₁)
    (took : Took recordClass h₁ v held ((addr, pages) :: records.map h.run) r h' v')
    (fits : size ≤ pages * pageSize) :
    Whole (withRecord h' r addr pages) v' (r :: held) (r :: records) ((addr, size) :: live) := by
  obtain ⟨can, same₁⟩ := pmmAlloc_eq given
  obtain ⟨some_, many, aligned, _⟩ := can
  obtain ⟨first, second, third, others⟩ := record_word h' r addr pages
  have new : r ∉ held := (List.nodup_cons.1 took.shape.once).1
  have isHeld : r ∈ r :: held := List.mem_cons_self ..
  have same : SameRecords h (withRecord h' r addr pages) records := by
    intro r' mem
    obtain ⟨p, slab, obj⟩ := took.obj
    obtain ⟨p', slab', obj'⟩ := whole.record r' mem
    have other : r ≠ r' := by
      rintro rfl
      exact new (whole.record_held mem)
    have size := recordSize
    have apart (k : Nat) (less : k ≤ 16) : (withRecord h' r addr pages).word (r' + k) = h.word (r' + k) := by
      have away (k' : Nat) (less' : k' ≤ 16) : r' + k ≠ r + k' :=
        Ne.symm (took.shape.inside_ne slab obj (took.slabs _ p' slab') obj' other (by omega) (by omega))
      rw [others _ (away 0 (by omega)) (away 8 (by omega)) (away 16 (by omega)),
        took.word _ (whole.record_page mem less), same₁]
    exact ⟨apart 0 (by omega), apart 8 (by omega), apart 16 (by omega)⟩
  have shape : Shape (withRecord h' r addr pages) v' (r :: held) ((addr, pages) :: records.map h.run) := by
    have one := setRecordWord took.shape isHeld took.obj (k := 0) (by omega) addr
    have two := setRecordWord one isHeld took.obj (k := 8) (by omega) pages
    have three := setRecordWord two isHeld took.obj (k := 16) (by omega) h'.larges
    exact three.of_eq rfl rfl rfl rfl
  have notLive : addr ∉ live.map Prod.fst := by
    intro mem
    obtain ⟨x, mem, at_⟩ := List.mem_map.1 mem
    obtain ⟨r', isRecord, at', _⟩ := whole.big x mem (by rw [at_]; exact aligned)
    have apart := (List.pairwise_cons.1 took.shape.apart).1 _ (List.mem_map_of_mem isRecord)
    have ok := whole.shape.run _ (List.mem_map_of_mem isRecord)
    obtain ⟨_, _, some', _⟩ := ok
    simp only [Heap.run, Apart] at apart some'
    rw [at', at_] at apart
    simp only [pageSize] at apart
    omega
  refine ⟨?_, took.busy, ?_, ?_, ?_, List.nodup_cons.2 ⟨notLive, whole.once⟩, ?_, ?_, ?_⟩
  · rw [List.map_cons, same.run_map, show (withRecord h' r addr pages).run r = (addr, pages) by
      rw [Heap.run, first, second]]
    exact shape
  · have smaller : smalls ((addr, size) :: live) = smalls live := by
      simp [smalls, aligned]
    rw [smaller]
    exact (whole.split.cons r).trans List.perm_middle.symm
  · obtain ⟨p, slab, obj⟩ := took.obj
    refine ⟨rfl, obj.ne_zero, ?_⟩
    show Chain 0 _ ((withRecord h' r addr pages).word (r + 16)) _
    rw [third, took.larges, same₁]
    exact same.chain whole.chain
  · intro r' mem
    rcases List.mem_cons.1 mem with rfl | mem
    · exact took.obj
    · obtain ⟨p, slab, obj⟩ := whole.record r' mem
      exact ⟨p, took.slabs _ p slab, obj⟩
  · intro x mem unaligned
    rcases List.mem_cons.1 mem with rfl | mem
    · exact absurd aligned unaligned
    · obtain ⟨c, p, slab, obj, fits⟩ := whole.small x mem unaligned
      exact ⟨c, p, took.slabs c p slab, obj, fits⟩
  · intro x mem aligned'
    rcases List.mem_cons.1 mem with rfl | mem
    · exact ⟨r, List.mem_cons_self .., first, by rw [second]; exact fits⟩
    · obtain ⟨r', mem', at_, fits⟩ := whole.big x mem aligned'
      obtain ⟨addr', pages', _⟩ := same r' mem'
      exact ⟨r', List.mem_cons_of_mem _ mem', addr'.trans at_, by rw [pages']; exact fits⟩
  · intro r' mem
    rcases List.mem_cons.1 mem with rfl | mem
    · rw [first]
      exact List.mem_cons_self ..
    · rw [(same r' mem).1]
      exact List.mem_cons_of_mem _ (whole.owned r' mem)

/-- A run of pages for what no class is large enough for, if there is one to be had. -/
theorem allocLarge (whole : Whole h v held records live) {size : Nat} (positive : 0 < size)
    (word : size < u64Size) (a : Answers) :
    ∃ ptr h', h.allocLarge size a = some (ptr, h') ∧
      (ptr = 0 ∧ (∃ v' held', Whole h' v' held' records live) ∨
        ptr ≠ 0 ∧ ∃ v' held' records', Whole h' v' held' records' ((ptr, size) :: live)) := by
  unfold Heap.allocLarge
  dsimp only
  generalize counted : (size + pageSize - 1) % u64Size / pageSize = pages
  cases given : h.pmmAlloc a.pages pages with
  | none => exact ⟨0, h, rfl, .inl ⟨rfl, v, held, whole⟩⟩
  | some h₁ =>
    obtain ⟨can, same₁⟩ := pmmAlloc_eq given
    obtain ⟨some_, many, aligned, _⟩ := can
    have fits : size ≤ pages * pageSize := by
      simp only [pageSize, u64Size] at *
      omega
    have shape := whole.shape.pmmAlloc given
    dsimp only
    cases shape.kmallocClass whole.busy recordClass a.page with
    | inl none_ =>
      rw [none_]
      dsimp only
      rw [if_pos rfl]
      obtain ⟨h₂, freed, shape₂, word₂, _, larges₂⟩ := Shape.pmmFree
        (show Shape h₁ v held ([] ++ (a.pages, pages) :: _) from shape)
      rw [freed]
      have same : SameRecords h h₂ records := by
        intro r _
        rw [word₂, same₁]
        exact ⟨rfl, rfl, rfl⟩
      refine ⟨0, h₂, rfl, .inl ⟨rfl, v, held, ?_⟩⟩
      exact whole.keep same (larges₂.trans (by rw [same₁])) shape₂ (.refl _) whole.busy
        fun _ _ mem => mem
    | inr found =>
      obtain ⟨r, h', v', made, took⟩ := found
      obtain ⟨_, _, obj⟩ := took.obj
      rw [made]
      dsimp only
      rw [if_neg obj.ne_zero]
      exact ⟨a.pages, _, rfl, .inr ⟨some_, v', _, _, whole.recorded given took fits⟩⟩

theorem records_short (whole : Whole h v held records live) : records.length < longest := by
  have below : ∀ r ∈ records, r < longest - 1 := by
    intro r mem
    obtain ⟨p, slab, obj⟩ := whole.record r mem
    have := (whole.shape.page _ p slab).2.2.2
    have := obj.bounds
    have := recordSize
    simp only [pageSize, u64Size, longest] at *
    omega
  have := length_le_of_nodup whole.chain.nodup below
  simp only [longest] at *
  omega

/-- A record's run is no other record's. -/
theorem run_ne (whole : Whole h v held records live) {r r' : Nat} (mem : r ∈ records)
    (mem' : r' ∈ records) (other : r ≠ r') : Apart (h.run r) (h.run r') ∧ h.word r ≠ h.word r' := by
  have : Std.Symm fun a b => Apart (h.run a) (h.run b) := ⟨fun _ _ => Apart.symm⟩
  have apart := (List.pairwise_map.1 whole.shape.apart).forall mem mem' other
  refine ⟨apart, fun same => ?_⟩
  have some_ := (whole.shape.run _ (List.mem_map_of_mem mem)).2.2.1
  have some' := (whole.shape.run _ (List.mem_map_of_mem mem')).2.2.1
  simp only [Heap.run, Apart, pageSize] at apart some_ some'
  rw [same] at apart
  omega

/-- A record passed over by the link before it. -/
theorem linkLarge (whole : Whole h v held records live) {before after : List Nat} {r : Nat}
    (at_ : records = before ++ r :: after) :
    let h' := h.linkLarge before.getLast? (h.nextLarge r)
    Shape h' v held (records.map h.run) ∧ (∀ x ∈ records, h'.run x = h.run x) ∧
      Chain 0 h'.nextLarge h'.larges (before ++ after) := by
  intro h'
  have chain := whole.chain
  rw [at_] at chain
  have unlinked := chain.unlink
  unfold h' Heap.linkLarge
  split at unlinked
  · rename_i last
    obtain ⟨rfl, rest⟩ := unlinked
    exact ⟨whole.shape.of_eq rfl rfl rfl rfl, fun _ _ => rfl, rest⟩
  · rename_i prev last
    obtain ⟨mem, rest⟩ := unlinked
    rw [last]
    have mem : prev ∈ records := by
      rw [at_]
      exact List.mem_append_left _ mem
    obtain ⟨p, slab, obj⟩ := whole.record prev mem
    refine ⟨setRecordWord whole.shape (whole.record_held mem) ⟨p, slab, obj⟩ (by omega) _, ?_, ?_⟩
    · intro x mem'
      obtain ⟨p', slab', obj'⟩ := whole.record x mem'
      have size := recordSize
      have apart (k : Nat) (less : k ≤ 8) : x + k ≠ prev + 16 := by
        by_cases same : prev = x
        · omega
        · exact Ne.symm (whole.shape.inside_ne slab obj slab' obj' same (by omega) (by omega))
      exact Prod.ext (Function.update_of_ne (apart 0 (by omega)) ..)
        (Function.update_of_ne (apart 8 (by omega)) ..)
    · have links : (h.setWord (prev + 16) (h.nextLarge r)).nextLarge =
          Function.update h.nextLarge prev (h.nextLarge r) := by
        funext x
        show Function.update h.word (prev + 16) _ (x + 16) = _
        by_cases same : x = prev
        · subst same
          rw [Function.update_self, Function.update_self]
        · rw [Function.update_of_ne (by omega), Function.update_of_ne same]
          rfl
      rw [links]
      exact rest

/-- A run given back, and its record with it. -/
theorem freeLarge (whole : Whole h v held records live) {ptr : Nat} (mem : ptr ∈ live.map Prod.fst)
    (aligned : ptr % pageSize = 0) :
    ∃ h' v' held' records', h.freeLarge ptr = some h' ∧
      Whole h' v' held' records' (live.filter fun x => decide (x.1 ≠ ptr)) := by
  obtain ⟨x, inLive, rfl⟩ := List.mem_map.1 mem
  obtain ⟨r₀, mem₀, at₀, _⟩ := whole.big x inLive aligned
  cases whole.chain.seek_spec (fun r => decide (h.word r = x.1)) whole.records_short none with
  | inr none_ => exact absurd at₀ (of_decide_eq_false (none_.1 r₀ mem₀))
  | inl found =>
    obtain ⟨before, r, after, at_, same, _, found⟩ := found
    have same : h.word r = x.1 := of_decide_eq_true same
    have isRecord : r ∈ records := by rw [at_]; simp
    have isHeld := whole.record_held isRecord
    obtain ⟨p, slab, obj⟩ := whole.record r isRecord
    rw [Option.or_none] at found
    obtain ⟨shape₁, run₁, chain₁⟩ := whole.linkLarge at_
    have words := run₁ r isRecord
    generalize linked : h.linkLarge before.getLast? (h.nextLarge r) = h₁ at shape₁ run₁ chain₁ words
    rw [at_, List.map_append, List.map_cons] at shape₁
    obtain ⟨h₂, freed, shape₂, word₂, _, larges₂⟩ := shape₁.pmmFree
    obtain ⟨h₃, v₃, back, shape₃, busy₃, larges₃, slabs₃, word₃⟩ := shape₂.kfreeObject whole.busy isHeld
    have nodup := whole.chain.nodup
    rw [at_] at nodup
    have apart : r ∉ before ++ after := (List.nodup_cons.1 (List.nodup_middle.1 nodup)).1
    have sub : before ++ after ⊆ records := by
      rw [at_]
      exact (List.Sublist.append_left (List.sublist_cons_self r after) before).subset
    have other {r' : Nat} (mem' : r' ∈ before ++ after) : r' ≠ r := by
      rintro rfl
      exact apart mem'
    have same₃ : SameRecords h₁ h₃ (before ++ after) := by
      intro r' mem'
      obtain ⟨p', slab', obj'⟩ := whole.record r' (sub mem')
      have away (k : Nat) (less : k ≤ 16) : h₃.word (r' + k) = h₁.word (r' + k) := by
        rw [word₃, word₂]
        have size := recordSize
        exact whole.shape.inside_ne slab' obj' slab obj (other mem') (by omega)
          (Nat.lt_of_lt_of_le Nat.zero_lt_one (by omega))
      exact ⟨away 0 (by omega), away 8 (by omega), away 16 (by omega)⟩
    have runs₃ : ∀ r' ∈ before ++ after, h₃.run r' = h.run r' := by
      intro r' mem'
      obtain ⟨addr, pages, _⟩ := same₃ r' mem'
      rw [← run₁ r' (sub mem'), Heap.run, Heap.run, addr, pages]
    have isHeld₃ {o : Nat} (mem' : o ∈ held) (other' : o ≠ r) : o ∈ held.erase r :=
      (whole.shape.once.mem_erase_iff).2 ⟨other', mem'⟩
    have kept : live.filter (fun y => decide (y.1 ≠ x.1)) ⊆ live := List.filter_subset_self _
    refine ⟨h₃, v₃, held.erase r, before ++ after, ?_, ?_, busy₃, ?_, ?_, ?_, ?_, ?_, ?_, ?_⟩
    · unfold Heap.freeLarge
      rw [found]
      dsimp only
      rw [if_neg obj.ne_zero, linked]
      have one : h₁.word r = (h.run r).1 := congrArg Prod.fst words
      have two : h₁.word (r + 8) = (h.run r).2 := congrArg Prod.snd words
      rw [one, two, freed]
      exact back
    · rw [List.map_congr_left runs₃, List.map_append]
      exact shape₃
    · have notSmall : r ∉ smalls live := by
        intro small
        exact whole.small_not_record small isRecord
      have smaller : smalls (live.filter fun y => decide (y.1 ≠ x.1)) = smalls live := by
        rw [smalls_filter whole.once, List.erase_of_not_mem]
        intro small
        have := (List.mem_filter.1 small).2
        simp only [decide_eq_true_eq] at this
        exact this aligned
      rw [smaller]
      refine (whole.split.erase r).trans ?_
      rw [List.erase_append_right _ notSmall, at_]
      refine List.Perm.append_left _ ?_
      exact (List.perm_middle.erase r).trans (by rw [List.erase_cons_head])
    · rw [larges₃, larges₂]
      exact same₃.chain chain₁
    · intro r' mem'
      obtain ⟨p', slab', obj'⟩ := whole.record r' (sub mem')
      refine ⟨p', shape₂.still shape₃ slabs₃ slab' obj' ?_, obj'⟩
      exact isHeld₃ (whole.record_held (sub mem')) (other mem')
    · exact whole.once.sublist (List.filter_sublist.map _)
    · intro y mem' unaligned
      have inLive := kept mem'
      obtain ⟨d, q, slab', obj', fits⟩ := whole.small y inLive unaligned
      refine ⟨d, q, shape₂.still shape₃ slabs₃ slab' obj' (isHeld₃ ?_ ?_), obj', fits⟩
      · refine whole.split.mem_iff.2 (List.mem_append_left _ ?_)
        exact List.mem_filter.2 ⟨List.mem_map_of_mem inLive, by simpa using unaligned⟩
      · intro same'
        have small : y.1 ∈ smalls live :=
          List.mem_filter.2 ⟨List.mem_map_of_mem inLive, by simpa using unaligned⟩
        exact whole.small_not_record small (same' ▸ isRecord)
    · intro y mem' aligned'
      obtain ⟨inLive, differ⟩ := List.mem_filter.1 mem'
      obtain ⟨r', isRecord', at', fits⟩ := whole.big y inLive aligned'
      have away : r' ≠ r := by
        rintro rfl
        exact of_decide_eq_true differ (at'.symm.trans same)
      have inRest : r' ∈ before ++ after := by
        rw [at_] at isRecord'
        simp only [List.mem_append, List.mem_cons] at isRecord' ⊢
        rcases isRecord' with early | rfl | late
        · exact .inl early
        · exact absurd rfl away
        · exact .inr late
      have run := runs₃ r' inRest
      have one : h₃.word r' = h.word r' := congrArg Prod.fst run
      have two : h₃.word (r' + 8) = h.word (r' + 8) := congrArg Prod.snd run
      exact ⟨r', inRest, one.trans at', by rw [two]; exact fits⟩
    · intro r' mem'
      have one : h₃.word r' = h.word r' := congrArg Prod.fst (runs₃ r' mem')
      rw [one]
      obtain ⟨y, inLive, at'⟩ := List.mem_map.1 (whole.owned r' (sub mem'))
      refine List.mem_map.2 ⟨y, List.mem_filter.2 ⟨inLive, decide_eq_true ?_⟩, at'⟩
      rw [at', ← same]
      exact (whole.run_ne (sub mem') isRecord (other mem')).2

end Whole

end ReconOS.Kheap
