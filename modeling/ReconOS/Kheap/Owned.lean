import ReconOS.Kheap.Large

/-! The kernel heap over any calls, the page allocator refusing whenever it likes. -/
namespace ReconOS.Kheap

open Lib Heap

/-! ## Calls -/

/-- The heap, and what is live: each pointer with the size asked for. -/
structure Owners where
  heap : Heap
  live : List (Nat × Nat)

inductive Call where
  | malloc (size : UInt64) (a : Answers)
  | free (ptr : Nat)
  /-- A caller writes a word of what it has. -/
  | write (a v : Nat)

/-- `none` where the kernel panics, or does not come back. -/
def step (s : Owners) : Call → Option Owners
  | .malloc size a =>
    (s.heap.kmalloc size a).map fun answer =>
      ⟨answer.2, if answer.1 = 0 then s.live else (answer.1, size.toNat) :: s.live⟩
  | .free ptr =>
    (s.heap.kfree ptr).map fun h => ⟨h, s.live.filter fun x => decide (x.1 ≠ ptr)⟩
  | .write a v => some ⟨s.heap.setWord a v, s.live⟩

/-- Only what is live is freed or written. -/
def Legal (s : Owners) : Call → Prop
  | .malloc _ _ => True
  | .free ptr => ptr = 0 ∨ ptr ∈ s.live.map Prod.fst
  | .write a _ => a % 8 = 0 ∧ ∃ x ∈ s.live, x.1 ≤ a ∧ a < x.1 + x.2

instance (s : Owners) : (c : Call) → Decidable (Legal s c)
  | .malloc .. => inferInstanceAs (Decidable True)
  | .free _ => inferInstanceAs (Decidable (_ ∨ _))
  | .write .. => inferInstanceAs (Decidable (_ ∧ _))

inductive Reachable : Owners → Prop where
  | init : Reachable ⟨heapInit, []⟩
  | call {s s' : Owners} (reached : Reachable s) (c : Call) (legal : Legal s c)
      (made : step s c = some s') : Reachable s'

/-- Calls one after the other, while each is legal and none panics. -/
def perform (s : Owners) : List Call → Option Owners
  | [] => some s
  | c :: rest => if Legal s c then (step s c).bind fun s' => perform s' rest else none

theorem Reachable.perform {calls : List Call} {s s' : Owners} (reached : Reachable s)
    (made : perform s calls = some s') : Reachable s' := by
  induction calls generalizing s with
  | nil =>
    cases made
    exact reached
  | cons c rest ih =>
    unfold Kheap.perform at made
    split at made
    · rename_i legal
      obtain ⟨next, stepped, made⟩ := Option.bind_eq_some_iff.1 made
      exact ih (reached.call c legal stepped) made
    · cases made

/-! ## Every call -/

variable {h h' : Heap} {v : View} {held records : List Nat} {live : List (Nat × Nat)}
variable {c d : Class} {p q a : Nat} {s : Owners}

theorem init_whole : Whole heapInit ⟨fun _ => [], fun _ => []⟩ [] [] [] where
  shape := {
    slabs := fun _ => rfl
    slab := by simp
    page := by simp
    once := List.nodup_nil
    held := by simp
    run := by simp
    apart := List.Pairwise.nil
    slabApart := by simp
    out := by simp [heapInit] }
  busy := by simp [Busy]
  split := .refl _
  chain := rfl
  record := by simp
  once := List.nodup_nil
  small := by simp
  big := by simp
  owned := by simp

namespace Whole

/-- What a caller has of a run is in no slab. -/
theorem big_away (whole : Whole h v held records live) {r : Nat} (mem : r ∈ records)
    (from_ : h.word r ≤ a) (before : a < h.word r + h.word (r + 8) * pageSize) (d : Class) :
    pageOf a ∉ v.slabs d := by
  intro slab
  have apart := whole.shape.slabApart d _ slab _ (List.mem_map_of_mem mem)
  have aligned := (whole.shape.run _ (List.mem_map_of_mem mem)).1
  simp only [Heap.run, Apart, Heap.pageOf, pageSize] at *
  omega

theorem write (whole : Whole h v held records live) {x : Nat × Nat} (mem : x ∈ live)
    (from_ : x.1 ≤ a) (before : a < x.1 + x.2) (y : Nat) :
    Whole (h.setWord a y) v held records live := by
  have word : ∀ b, b ≠ a → (h.setWord a y).word b = h.word b :=
    fun b other => Function.update_of_ne other ..
  by_cases aligned : x.1 % pageSize = 0
  · obtain ⟨r, isRecord, at_, fits⟩ := whole.big x mem aligned
    have away := whole.big_away (a := a) isRecord (by omega) (by omega)
    have same : SameRecords h (h.setWord a y) records := by
      intro r' mem'
      have apart (k : Nat) (less : k ≤ 16) : (h.setWord a y).word (r' + k) = h.word (r' + k) := by
        refine word _ ?_
        rintro rfl
        obtain ⟨d, slab⟩ := whole.record_page mem' less
        exact away d slab
      exact ⟨apart 0 (by omega), apart 8 (by omega), apart 16 (by omega)⟩
    refine whole.keep same rfl (whole.shape.setWord ?_ y) (.refl _) whole.busy fun _ _ mem => mem
    intro d q slab free
    have at' := ((whole.shape.slab d q slab).each a free).pageOf (whole.shape.page d q slab).1
    exact away d (at'.symm ▸ slab)
  · obtain ⟨c, p, slab, obj, fits⟩ := whole.small x mem aligned
    have small : x.1 ∈ smalls live :=
      List.mem_filter.2 ⟨List.mem_map_of_mem mem, by simpa using aligned⟩
    have isHeld := whole.split.mem_iff.2 (List.mem_append_left _ small)
    obtain ⟨k, rfl⟩ := Nat.exists_eq_add_of_le from_
    have same : SameRecords h (h.setWord (x.1 + k) y) records :=
      whole.away slab obj (whole.small_not_record small) (by omega) word
    refine whole.keep same rfl (whole.shape.setWord ?_ y) (.refl _) whole.busy fun _ _ mem => mem
    exact whole.shape.inside_free isHeld slab obj from_ (by omega)

theorem kmalloc (whole : Whole h v held records live) (size : UInt64) (a : Answers) :
    ∃ ptr h', h.kmalloc size a = some (ptr, h') ∧ ∃ v' held' records', Whole h' v' held' records'
      (if ptr = 0 then live else (ptr, size.toNat) :: live) := by
  unfold Heap.kmalloc
  split
  · exact ⟨0, h, rfl, v, held, records, whole⟩
  rename_i some_
  cases chosen : classFor size.toNat with
  | none =>
    obtain ⟨ptr, h', made, given⟩ :=
      whole.allocLarge (Nat.pos_of_ne_zero some_) size.toNat_lt_size a
    refine ⟨ptr, h', made, ?_⟩
    cases given with
    | inl none_ =>
      obtain ⟨zero, v', held', whole'⟩ := none_
      rw [if_pos zero]
      exact ⟨v', held', records, whole'⟩
    | inr given =>
      obtain ⟨nonzero, v', held', records', whole'⟩ := given
      rw [if_neg nonzero]
      exact ⟨v', held', records', whole'⟩
  | some c =>
    have fits : size.toNat ≤ classSize c := by
      have := List.find?_some chosen
      simpa using this
    cases whole.kmallocClass c a.page fits with
    | inl none_ => exact ⟨0, h, none_, v, held, records, whole⟩
    | inr given =>
      obtain ⟨ptr, h', v', made, nonzero, whole'⟩ := given
      refine ⟨ptr, h', made, v', ptr :: held, records, ?_⟩
      rw [if_neg nonzero]
      exact whole'

theorem ne_zero (whole : Whole h v held records live) : 0 ∉ live.map Prod.fst := by
  intro mem
  obtain ⟨x, mem, at_⟩ := List.mem_map.1 mem
  obtain ⟨r, isRecord, at', _⟩ := whole.big x mem (by rw [at_]; rfl)
  have some_ := (whole.shape.run _ (List.mem_map_of_mem isRecord)).2.1
  exact some_ (at'.trans at_)

theorem kfree (whole : Whole h v held records live) {ptr : Nat}
    (legal : ptr = 0 ∨ ptr ∈ live.map Prod.fst) :
    ∃ h', h.kfree ptr = some h' ∧ ∃ v' held' records',
      Whole h' v' held' records' (live.filter fun x => decide (x.1 ≠ ptr)) := by
  unfold Heap.kfree
  cases legal with
  | inl zero =>
    refine ⟨h, if_pos zero, v, held, records, ?_⟩
    have all : live.filter (fun x => decide (x.1 ≠ ptr)) = live := by
      refine List.filter_eq_self.2 fun x mem => decide_eq_true ?_
      rintro rfl
      exact whole.ne_zero (zero ▸ List.mem_map_of_mem mem)
    rw [all]
    exact whole
  | inr mem =>
    have nonzero : ptr ≠ 0 := by
      rintro rfl
      exact whole.ne_zero mem
    rw [if_neg nonzero]
    split
    · rename_i aligned
      obtain ⟨h', v', held', records', freed, whole'⟩ := whole.freeLarge mem aligned
      exact ⟨h', freed, v', held', records', whole'⟩
    · rename_i unaligned
      obtain ⟨h', v', freed, whole'⟩ := whole.freeSmall mem unaligned
      exact ⟨h', freed, v', _, records, whole'⟩

end Whole

/-- Every call that is legal comes back, and keeps everything in its place. -/
theorem step_whole {call : Call} (whole : Whole s.heap v held records s.live) (legal : Legal s call) :
    ∃ s', step s call = some s' ∧ ∃ v' held' records', Whole s'.heap v' held' records' s'.live := by
  cases call with
  | malloc size a =>
    obtain ⟨ptr, h', made, whole'⟩ := whole.kmalloc size a
    refine ⟨_, by rw [step, made]; rfl, whole'⟩
  | free ptr =>
    obtain ⟨h', made, whole'⟩ := whole.kfree legal
    exact ⟨_, by rw [step, made]; rfl, whole'⟩
  | write a y =>
    obtain ⟨_, x, mem, from_, before⟩ := legal
    exact ⟨_, rfl, v, held, records, whole.write mem from_ before y⟩

theorem reachable_whole (reached : Reachable s) :
    ∃ v held records, Whole s.heap v held records s.live := by
  induction reached with
  | init => exact ⟨_, _, _, init_whole⟩
  | call _ c legal made ih =>
    obtain ⟨v, held, records, whole⟩ := ih
    obtain ⟨s', made', whole'⟩ := step_whole whole legal
    cases made.symm.trans made'
    exact whole'

/-! ## What it comes to -/

/-- The record of a run, 0 where there is none. -/
def recordOf (h : Heap) (ptr : Nat) : Nat :=
  match seek 0 h.nextLarge (fun r => decide (h.word r = ptr)) longest none h.larges with
  | some (_, r) => r
  | none => 0

/-- How many bytes there are at a pointer. -/
def roomOf (h : Heap) (ptr : Nat) : Nat :=
  if ptr % pageSize = 0 then h.word (recordOf h ptr + 8) * pageSize else (h.slab (pageOf ptr)).objSize

def IsSlab (h : Heap) (c : Class) (p : Nat) : Prop := ∃ l, Chain 0 h.nextSlab (h.slabs c) l ∧ p ∈ l

def IsRecord (h : Heap) (r : Nat) : Prop := ∃ l, Chain 0 h.nextLarge h.larges l ∧ r ∈ l

/-- The object is on the free list of the slab at `p`. -/
def IsFree (h : Heap) (p o : Nat) : Prop := ∃ l, Chain 0 h.word (h.slab p).freeList l ∧ o ∈ l

structure Sound (s : Owners) : Prop where
  /-- What is live is in different places. -/
  apart : s.live.Pairwise fun x y =>
    x.1 + roomOf s.heap x.1 ≤ y.1 ∨ y.1 + roomOf s.heap y.1 ≤ x.1
  /-- It is as large as was asked for, and aligned: to a page, if no class is large enough. -/
  fits : ∀ x ∈ s.live, x.2 ≤ roomOf s.heap x.1 ∧ x.1 % 16 = 0 ∧ (512 < x.2 → x.1 % pageSize = 0)
  /-- Every object of a slab is in use or on its free list, once. -/
  counted : ∀ c p, IsSlab s.heap c p → (s.heap.slab p).total = capacity c ∧
    ∃ free, Chain 0 s.heap.word (s.heap.slab p).freeList free ∧ free.Nodup ∧
      (s.heap.slab p).inUse + free.length = capacity c ∧
      ∀ o ∈ free, Obj c p o ∧ o ∉ s.live.map Prod.fst ∧ ¬IsRecord s.heap o
  /-- No object is on two free lists, and no slab on two lists. -/
  once : ∀ c d p q, IsSlab s.heap c p → IsSlab s.heap d q →
    (p = q → c = d) ∧ ∀ o, IsFree s.heap p o → IsFree s.heap q o → p = q
  /-- `kfree` finds the slab of an object, or the record of a run. -/
  routed : ∀ x ∈ s.live,
    (x.1 % pageSize ≠ 0 → ∃ c, IsSlab s.heap c (pageOf x.1) ∧ Obj c (pageOf x.1) x.1) ∧
    (x.1 % pageSize = 0 → IsRecord s.heap (recordOf s.heap x.1) ∧
      s.heap.word (recordOf s.heap x.1) = x.1)
  /-- A page is out just while something live is in it, a caller's or a record of a run. -/
  returned : ∀ q, q % pageSize = 0 → (s.heap.out q = true ↔
    (∃ x ∈ s.live, x.1 < q + pageSize ∧ q < x.1 + roomOf s.heap x.1) ∨
      ∃ r, IsRecord s.heap r ∧ pageOf r = q)
  /-- No legal call panics, or walks a list for ever. -/
  answered : ∀ c, Legal s c → (step s c).isSome

namespace Whole

theorem isSlab_iff (whole : Whole h v held records live) : IsSlab h c p ↔ p ∈ v.slabs c := by
  constructor
  · rintro ⟨l, chain, mem⟩
    rwa [chain.unique (whole.shape.slabs c)] at mem
  · exact fun mem => ⟨_, whole.shape.slabs c, mem⟩

theorem isRecord_iff (whole : Whole h v held records live) {r : Nat} : IsRecord h r ↔ r ∈ records := by
  constructor
  · rintro ⟨l, chain, mem⟩
    rwa [chain.unique whole.chain] at mem
  · exact fun mem => ⟨_, whole.chain, mem⟩

theorem isFree_iff (whole : Whole h v held records live) (slab : p ∈ v.slabs c) {o : Nat} :
    IsFree h p o ↔ o ∈ v.free p := by
  have chain' := (whole.shape.slab c p slab).chain
  constructor
  · rintro ⟨l, chain, mem⟩
    rwa [chain.unique chain'] at mem
  · exact fun mem => ⟨_, chain', mem⟩

/-- The slab of an object that a caller has. -/
theorem small_room (whole : Whole h v held records live) {x : Nat × Nat} (mem : x ∈ live)
    (unaligned : x.1 % pageSize ≠ 0) :
    ∃ c, pageOf x.1 ∈ v.slabs c ∧ Obj c (pageOf x.1) x.1 ∧ x.1 ∉ v.free (pageOf x.1) ∧
      x.2 ≤ classSize c ∧ roomOf h x.1 = classSize c := by
  obtain ⟨c, p, slab, obj, fits⟩ := whole.small x mem unaligned
  have at_ := obj.pageOf (whole.shape.page c p slab).1
  subst at_
  have small : x.1 ∈ smalls live :=
    List.mem_filter.2 ⟨List.mem_map_of_mem mem, by simpa using unaligned⟩
  obtain ⟨d, slab', _, used⟩ :=
    whole.shape.holder (whole.split.mem_iff.2 (List.mem_append_left _ small))
  refine ⟨c, slab, obj, used, fits, ?_⟩
  rw [roomOf, if_neg unaligned, (whole.shape.slab c _ slab).objSize]

/-- The record of a run that a caller has. -/
theorem big_room (whole : Whole h v held records live) {x : Nat × Nat} (mem : x ∈ live)
    (aligned : x.1 % pageSize = 0) :
    recordOf h x.1 ∈ records ∧ h.word (recordOf h x.1) = x.1 ∧ x.2 ≤ roomOf h x.1 ∧
      roomOf h x.1 = h.word (recordOf h x.1 + 8) * pageSize := by
  obtain ⟨r, isRecord, at_, fits⟩ := whole.big x mem aligned
  have found : recordOf h x.1 ∈ records ∧ h.word (recordOf h x.1) = x.1 := by
    unfold recordOf
    cases whole.chain.seek_spec (fun r => decide (h.word r = x.1)) whole.records_short none with
    | inl found =>
      obtain ⟨before, r', after, split, same, _, found⟩ := found
      rw [found]
      exact ⟨by rw [split]; simp, of_decide_eq_true same⟩
    | inr none_ => exact absurd at_ (of_decide_eq_false (none_.1 r isRecord))
  have room : roomOf h x.1 = h.word (recordOf h x.1 + 8) * pageSize := by rw [roomOf, if_pos aligned]
  refine ⟨found.1, found.2, ?_, room⟩
  have same : r = recordOf h x.1 := by
    by_contra other
    exact (whole.run_ne isRecord found.1 other).2 (at_.trans found.2.symm)
  rw [room, ← same]
  exact fits

theorem live_apart (whole : Whole h v held records live) {x y : Nat × Nat} (mem : x ∈ live)
    (mem' : y ∈ live) (other : x.1 ≠ y.1) :
    x.1 + roomOf h x.1 ≤ y.1 ∨ y.1 + roomOf h y.1 ≤ x.1 := by
  by_cases aligned : x.1 % pageSize = 0 <;> by_cases aligned' : y.1 % pageSize = 0
  · obtain ⟨isRecord, at_, _, room⟩ := whole.big_room mem aligned
    obtain ⟨isRecord', at', _, room'⟩ := whole.big_room mem' aligned'
    have differ : recordOf h x.1 ≠ recordOf h y.1 := by
      intro same
      rw [same] at at_
      exact other (at_.symm.trans at')
    have apart := (whole.run_ne isRecord isRecord' differ).1
    rw [Apart, Heap.run, Heap.run, at_, at', ← room, ← room'] at apart
    exact apart
  · obtain ⟨isRecord, at_, _, room⟩ := whole.big_room mem aligned
    obtain ⟨d, slab', obj', _, _, room'⟩ := whole.small_room mem' aligned'
    have apart := whole.shape.slabApart d _ slab' _ (List.mem_map_of_mem isRecord)
    rw [Apart, Heap.run, at_, ← room] at apart
    have := obj'.bounds
    simp only [pageSize] at *
    omega
  · obtain ⟨c, slab, obj, _, _, room⟩ := whole.small_room mem aligned
    obtain ⟨isRecord', at', _, room'⟩ := whole.big_room mem' aligned'
    have apart := whole.shape.slabApart c _ slab _ (List.mem_map_of_mem isRecord')
    rw [Apart, Heap.run, at', ← room'] at apart
    have := obj.bounds
    simp only [pageSize] at *
    omega
  · obtain ⟨c, slab, obj, _, _, room⟩ := whole.small_room mem aligned
    obtain ⟨d, slab', obj', _, _, room'⟩ := whole.small_room mem' aligned'
    rw [room, room']
    exact whole.shape.objects_apart slab slab' obj obj' other

theorem out_iff (whole : Whole h v held records live) (aligned : q % pageSize = 0) :
    h.out q = true ↔ (∃ x ∈ live, x.1 < q + pageSize ∧ q < x.1 + roomOf h x.1) ∨
      ∃ r, IsRecord h r ∧ pageOf r = q := by
  rw [whole.shape.out q aligned]
  constructor
  · rintro (⟨c, slab⟩ | ⟨run, mem, there⟩)
    · obtain ⟨o, isHeld, obj⟩ := whole.busy c q slab
      rcases List.mem_append.1 (whole.split.mem_iff.1 isHeld) with small | isRecord
      · obtain ⟨mem, unaligned⟩ := List.mem_filter.1 small
        obtain ⟨x, inLive, rfl⟩ := List.mem_map.1 mem
        obtain ⟨d, _, _, _, _, room⟩ := whole.small_room inLive (of_decide_eq_true unaligned)
        have := obj.bounds
        have := (classSize_spec c).1
        have := (classSize_spec d).1
        exact .inl ⟨x, inLive, by omega, by omega⟩
      · exact .inr ⟨o, whole.isRecord_iff.2 isRecord, obj.pageOf aligned⟩
    · obtain ⟨r, isRecord, rfl⟩ := List.mem_map.1 mem
      obtain ⟨x, mem, at_⟩ := List.mem_map.1 (whole.owned r isRecord)
      have aligned' := (whole.shape.run _ (List.mem_map_of_mem isRecord)).1
      obtain ⟨isRecord', at', _, room⟩ := whole.big_room mem (by rw [at_]; exact aligned')
      have same : recordOf h x.1 = r := by
        by_contra other
        exact (whole.run_ne isRecord' isRecord other).2 (at'.trans at_)
      rw [inRun_iff] at there
      rw [same] at room
      simp only [Heap.run] at there
      refine .inl ⟨x, mem, ?_, ?_⟩
      · rw [at_]
        simp only [pageSize]
        omega
      · rw [room, at_]
        exact there.2
  · rintro (⟨x, mem, before, after⟩ | ⟨r, isRecord, rfl⟩)
    · by_cases aligned' : x.1 % pageSize = 0
      · obtain ⟨isRecord, at_, _, room⟩ := whole.big_room mem aligned'
        refine .inr ⟨_, List.mem_map_of_mem isRecord, ?_⟩
        rw [inRun_iff, Heap.run, at_, ← room]
        refine ⟨?_, after⟩
        simp only [pageSize] at *
        omega
      · obtain ⟨c, slab, obj, _, _, room⟩ := whole.small_room mem aligned'
        have bounds := obj.bounds
        have here : q = pageOf x.1 := by
          have page := (whole.shape.page c _ slab).1
          rw [room] at after
          simp only [pageSize] at *
          omega
        exact .inl ⟨c, here ▸ slab⟩
    · obtain ⟨p, slab, obj⟩ := whole.record r (whole.isRecord_iff.1 isRecord)
      rw [obj.pageOf (whole.shape.page _ p slab).1]
      exact .inl ⟨_, slab⟩

end Whole

/-- After any calls, of which those that free or write are of what is live, and whatever the page
allocator refuses. -/
theorem heap_sound (reached : Reachable s) : Sound s := by
  obtain ⟨v, held, records, whole⟩ := reachable_whole reached
  refine ⟨?_, ?_, ?_, ?_, ?_, fun q aligned => whole.out_iff aligned, ?_⟩
  · refine (List.pairwise_map.1 whole.once).imp_of_mem ?_
    exact fun mem mem' other => whole.live_apart mem mem' other
  · intro x mem
    by_cases aligned : x.1 % pageSize = 0
    · obtain ⟨_, _, fits, _⟩ := whole.big_room mem aligned
      refine ⟨fits, ?_, fun _ => aligned⟩
      simp only [pageSize] at aligned
      omega
    · obtain ⟨c, slab, obj, _, fits, room⟩ := whole.small_room mem aligned
      refine ⟨by rw [room]; exact fits, obj.mod16 (whole.shape.page c _ slab).1, fun large => ?_⟩
      have := (classSize_spec c).2.1
      omega
  · intro c p isSlab
    have slab := whole.isSlab_iff.1 isSlab
    obtain ⟨_, _, total, chain, each, count⟩ := whole.shape.slab c p slab
    refine ⟨total, v.free p, chain, chain.nodup, count, fun o free => ?_⟩
    have obj := each o free
    have notHeld : o ∉ held := by
      intro isHeld
      obtain ⟨_, _, _, used⟩ := whole.shape.holder isHeld
      rw [obj.pageOf (whole.shape.page c p slab).1] at used
      exact used free
    refine ⟨obj, fun mem => notHeld (whole.split.mem_iff.2 (List.mem_append_left _ ?_)), fun isRecord =>
      notHeld (whole.record_held (whole.isRecord_iff.1 isRecord))⟩
    have unaligned := obj.unaligned (whole.shape.page c p slab).1
    exact List.mem_filter.2 ⟨mem, by simpa using unaligned⟩
  · intro c d p q isSlab isSlab'
    have slab := whole.isSlab_iff.1 isSlab
    have slab' := whole.isSlab_iff.1 isSlab'
    refine ⟨fun same => whole.shape.class_eq slab (same ▸ slab'), fun o free free' => ?_⟩
    have obj := (whole.shape.slab c p slab).each o ((whole.isFree_iff slab).1 free)
    have obj' := (whole.shape.slab d q slab').each o ((whole.isFree_iff slab').1 free')
    exact (obj.pageOf (whole.shape.page c p slab).1).symm.trans
      (obj'.pageOf (whole.shape.page d q slab').1)
  · intro x mem
    refine ⟨fun unaligned => ?_, fun aligned => ?_⟩
    · obtain ⟨c, slab, obj, _⟩ := whole.small_room mem unaligned
      exact ⟨c, whole.isSlab_iff.2 slab, obj⟩
    · obtain ⟨isRecord, at_, _⟩ := whole.big_room mem aligned
      exact ⟨whole.isRecord_iff.2 isRecord, at_⟩
  · intro call legal
    obtain ⟨s', made, _⟩ := step_whole whole legal
    rw [made]
    rfl

/-- Two objects of the largest class and one of a smaller, a run of three pages whose record is of that
class, and another run that is refused; one object is written, and then freed, and so is the run. -/
def severalCalls : List Call :=
  [.malloc 512 ⟨0, 0x1000⟩, .malloc 500 ⟨0, 0⟩, .malloc 24 ⟨0, 0x2000⟩, .malloc 9000 ⟨0x10000, 0⟩,
    .malloc 5000 ⟨0x11000, 0⟩, .write 0x1020 7, .free 0x1020, .malloc 5000 ⟨0x20000, 0⟩,
    .free 0x10000]

theorem several_live : (perform ⟨heapInit, []⟩ severalCalls).map Owners.live =
    some [(0x20000, 5000), (0x2020, 24), (0x1220, 500)] := by decide +kernel

theorem heap_sound_several : ∃ s, perform ⟨heapInit, []⟩ severalCalls = some s ∧
    s.live = [(0x20000, 5000), (0x2020, 24), (0x1220, 500)] ∧ Sound s := by
  obtain ⟨s, made, live⟩ := Option.map_eq_some_iff.1 several_live
  exact ⟨s, made, live, heap_sound (Reachable.init.perform made)⟩

/-- An object of 512 bytes. -/
def oneObject : Option Owners := perform ⟨heapInit, []⟩ [.malloc 512 ⟨0, 0x1000⟩]

theorem oneObject_made : oneObject.isSome := by decide +kernel

theorem oneObject_reachable : Reachable (oneObject.get oneObject_made) :=
  Reachable.init.perform (Option.some_get oneObject_made).symm

/-- Objects are as aligned as a slab's header leaves them, not as their class is large. -/
theorem object_not_class_aligned : ¬∀ s, Reachable s → ∀ x ∈ s.live,
    x.1 % pageSize ≠ 0 → x.1 % roomOf s.heap x.1 = 0 := by
  intro always
  have aligned := always _ oneObject_reachable (0x1020, 512) (by decide +kernel) (by decide)
  revert aligned
  decide +kernel

end ReconOS.Kheap
