import ReconOS.Pagecache.Counts

/-! One copy of a page of a file, for as long as anybody has it. -/
namespace ReconOS.Pagecache

open Lib Lib.System

/-- While no page is asked for that its count has no room for, after any moves: no two entries may
be served for the same part of a file; a page that `pagecache_get` returned, and that its caller has
not put, is out, in the entry for what was asked, still holds what was read from there, and no other
call has it to itself; each entry counts the calls that have a reference to it; and no page was
given back twice. -/
theorem one_copy {moves : List (Move Around Call Empty)}
    (room : pagecache.Meets (fun _ s t => Room s t) boot moves) :
    let w := pagecache.play boot moves
    (∀ i j fs id offset, (w.shared.entries i).Serves fs id offset →
      (w.shared.entries j).Serves fs id offset → i = j) ∧
    (∀ t ∈ w.threads, ∀ page, t.point.has = some page →
      w.shared.out page = true ∧ t.HasRead w.shared page ∧
      (∃ i, t.point.slot = some i ∧ (w.shared.entries i).Of t ∧ (w.shared.entries i).page = page) ∧
      ∀ u ∈ w.threads, u.point.loose ≠ some page) ∧
    (∀ i, (w.shared.entries i).refs = w.threads.countP fun t => t.point.slot = some i) ∧
    w.shared.panicked = false := by
  intro w
  have kept : Kept Sound Has (fun _ => 0) inHand due w := pagecache_keeps.play room boot_kept
  have sound := kept.shared
  refine ⟨sound.once, ?_, ?_, sound.calm⟩
  · intro t mem page held
    have has := kept.each t mem
    obtain ⟨i, slot⟩ : ∃ i, t.point.slot = some i := by
      cases at_ : t.point with
      | releasing file i page => exact ⟨i, rfl⟩
      | holding i page => exact ⟨i, rfl⟩
      | looking | allocating | reading | inserting | dropping | answering | writingBack | forgetting
      | returned =>
        rw [at_] at held
        cases held
    obtain ⟨valid, fs, id, offset⟩ := has.entry i slot
    have at_ := has.page i page slot held
    have out := sound.out i valid
    obtain ⟨time, read⟩ := sound.filled i valid
    rw [at_] at out read
    rw [fs, id, offset] at read
    refine ⟨out, ⟨time, read⟩, ⟨i, slot, has.entry i slot, at_⟩, ?_⟩
    intro u mem_u own
    have budget : inHand u ≤ due w.shared := by
      have := kept.hand_le mem_u
      rwa [zero_add] at this
    exact (budget_loose budget own).2 i ⟨valid, at_⟩
  · intro i
    have balance := congrFun kept.balance (.ref i)
    rw [← count_holders]
    simpa [total, due] using balance.symm

/-! ## More references than are counted -/

def tmpfs : FileOps := ⟨1, true, false, true, false⟩
def tmpFile : File := ⟨some tmpfs, 1⟩
def plain : Around := ⟨pageSize, true, some 6, .put⟩

/-- One call reads the page in. -/
def firstGet : List (Move Around Call Empty) :=
  [.start (.get (some tmpFile) 0), .act 0 plain, .act 0 plain, .act 0 plain, .act 0 plain]

/-- `n` more find it there, the first of them being thread `k`. -/
def moreGets : Nat → Nat → List (Move Around Call Empty)
  | 0, _ => []
  | n + 1, k => .start (.get (some tmpFile) 0) :: .act k plain :: moreGets n (k + 1)

theorem one_copy_shared : ∃ w, w = pagecache.play boot (firstGet ++ moreGets 2 1) ∧
    (w.shared.entries ⟨0, by decide⟩).refs = w.threads.countP
      (fun t => t.point.slot = some ⟨0, by decide⟩) := by
  have room : pagecache.Meets (fun _ s t => Room s t) boot (firstGet ++ moreGets 2 1) := by
    decide +kernel
  exact ⟨_, rfl, (one_copy room).2.2.1 _⟩

/-- What a run of gets has made of the entry that they find. -/
structure Counted (w : World Shared Thread) (n : Nat) : Prop where
  found : find w.shared tmpfs.table tmpFile.id 0 = some ⟨0, by decide⟩
  refs : (w.shared.entries ⟨0, by decide⟩).refs = n % u32Size
  holders : (w.threads.countP fun t => t.point.slot = some ⟨0, by decide⟩) = n

theorem find_setEntry {s : Shared} {i : Slot} {e : Entry} {fs id offset : Nat}
    (same : ∀ j, ((s.setEntry i e).entries j).Serves fs id offset ↔
      (s.entries j).Serves fs id offset) :
    find (s.setEntry i e) fs id offset = find s fs id offset := by
  unfold find
  congr 1
  funext j
  exact decide_eq_decide.2 (same j)

theorem enter_get (s : Shared) :
    enter (.get (some tmpFile) 0) s = (s.tick, ⟨tmpFile, tmpfs, 0, s.clock, .looking⟩) := rfl

theorem Counted.hit {w : World Shared Thread} {n : Nat} (counted : Counted w n) :
    let w' := pagecache.play w [.start (.get (some tmpFile) 0), .act w.threads.length plain]
    Counted w' (n + 1) ∧ w'.threads.length = w.threads.length + 1 := by
  let i : Slot := ⟨0, by decide⟩
  let e := w.shared.entries i
  let t : Thread := ⟨tmpFile, tmpfs, 0, w.shared.clock, .looking⟩
  let s' := (w.shared.setEntry i { e.hold with referenced := true }).tick.tick
  have found : find w.shared.tick t.ops.table t.file.id t.offset = some i := counted.found
  have hit : pagecache.act plain w.shared.tick t = (s', { t with point := .holding i e.page }) := by
    show act plain w.shared.tick t = _
    simp only [act, advance, t, look, found]
    rfl
  have played : pagecache.play w [.start (.get (some tmpFile) 0), .act w.threads.length plain] =
      ⟨s', w.threads ++ [{ t with point := .holding i e.page }]⟩ := by
    have last : (w.threads ++ [t])[w.threads.length]? = some t := by simp
    simp only [System.play, System.step]
    rw [show pagecache.start (.get (some tmpFile) 0) w.shared = (w.shared.tick, t) from enter_get _]
    simp only [last, hit]
    simp
  rw [played]
  refine ⟨⟨?_, ?_, ?_⟩, by simp⟩
  · refine Eq.trans (find_setEntry fun j => ?_) counted.found
    by_cases at_ : j = i
    · subst at_
      rw [setEntry_entries_self]
      exact Iff.rfl
    · rw [setEntry_entries_of_ne at_]
  · show ((w.shared.setEntry i _).entries i).refs = _
    rw [setEntry_entries_self]
    show (e.refs + 1) % u32Size = _
    rw [show e.refs = n % u32Size from counted.refs, Nat.mod_add_mod]
  · rw [List.countP_append, counted.holders]
    simp [Point.slot, i]

theorem Counted.hits {w : World Shared Thread} {m : Nat} (n : Nat) (counted : Counted w m) :
    Counted (pagecache.play w (moreGets n w.threads.length)) (m + n) := by
  induction n generalizing w m with
  | zero => exact counted
  | succ n ih =>
    obtain ⟨counted', length⟩ := counted.hit
    have rest := ih counted'
    rw [length] at rest
    rw [show m + (n + 1) = m + 1 + n by omega]
    exact rest

theorem firstGet_counted : Counted (pagecache.play boot firstGet) 1 := by
  constructor <;> decide +kernel

/-- With 2 ^ 32 gets of one page that have not been put, its count is 0. -/
theorem count_wraps : ¬∀ moves i, ((pagecache.play boot moves).shared.entries i).refs =
    (pagecache.play boot moves).threads.countP fun t => t.point.slot = some i := by
  intro always
  have counted := firstGet_counted.hits (u32Size - 1)
  rw [show (pagecache.play boot firstGet).threads.length = 1 by decide +kernel, ← play_append] at counted
  have same := always (firstGet ++ moreGets (u32Size - 1) 1) ⟨0, by decide⟩
  rw [counted.refs, counted.holders] at same
  revert same
  decide

end ReconOS.Pagecache
