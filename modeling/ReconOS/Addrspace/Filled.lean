import ReconOS.Addrspace.Frames
import Mathlib.Data.List.Nodup

/-! What the page cache answers with, and what the handler puts in a page. -/
namespace ReconOS.Addrspace

open Machine

/-- The bytes of the files that can be named. -/
abbrev Volume := Nat → Nat → List Nat

def File.On (f : File) (volume : Volume) : Prop :=
  f.identity ≠ 0 → f.bytes = volume f.fs f.identity

variable {volume : Volume} {m m' : Machine} {i i' page page' frame slot addr : Nat} {w w' : Bool}
  {f : File} {a : Around}

/-- Every file is what its name says, no region is shared, and the cache's pages hold what the
files they are named for hold. -/
structure Filled (volume : Volume) (m : Machine) : Prop where
  files : ∀ i, ∀ r ∈ (m.spaces i).regions, ∀ f, r.file = some f → f.On volume
  unshared : ∀ i, ∀ r ∈ (m.spaces i).regions, r.shared = false
  cached : ∀ c ∈ m.cache, ∀ j < pageSize,
    m.bytes c.frame j = byteAt (volume c.fs c.identity) (c.offset + j)

/-- A part of a file read over zeroes is what the file has there, and zero past that. -/
theorem File.read_zeroes (f : File) (pos want : Nat) {j : Nat} :
    f.read pos want zeroes j = if j < want then byteAt f.bytes (pos + j) else 0 := by
  unfold File.read byteAt
  by_cases wanted : j < want
  · rw [if_pos wanted]
    split
    · rfl
    · rename_i short
      rw [List.getElem?_eq_none (by omega)]
      rfl
  · rw [if_neg wanted, if_neg (by omega)]
    rfl

/-- What the page of a region's file is to hold: the file's part of the region, then zeroes. -/
theorem fillFromFile_eq {r : Region} {reads : Bool} {p : Page}
    (filled : fillFromFile r f page reads zeroes = some p) {j : Nat} (less : j < pageSize) :
    p j = if page - r.start + j < r.fileLen then
        byteAt f.bytes ((r.fileOffset + (page - r.start)) % u64Size + j)
      else 0 := by
  unfold fillFromFile at filled
  dsimp only at filled
  split at filled
  · rename_i past
    cases filled
    rw [if_neg (by omega)]
    rfl
  · rename_i inside
    split at filled
    · cases filled
    · cases filled
      rw [File.read_zeroes]
      by_cases backed : page - r.start + j < r.fileLen
      · rw [if_pos backed, if_pos (by omega)]
      · rw [if_neg backed, if_neg (by omega)]

/-- What the cache has of a file is in a page of its own, and one reference to it is nobody's yet. -/
structure Answered (volume : Volume) (m : Machine) (f : File) (offset frame : Nat) (m' : Machine) :
    Prop where
  owned : Owned m'
  filled : Filled volume m'
  spaces : m'.spaces = m.spaces
  zeroPage : m'.zeroPage = m.zeroPage
  swap : m'.swap = m.swap
  bytes : ∀ i page frame w, m.entry i page = .present frame w → m'.bytes frame = m.bytes frame
  named : f.identity ≠ 0 ∧ offset % pageSize = 0
  has : ∀ j < pageSize, m'.bytes frame j = byteAt f.bytes (offset + j)
  mine : ∃ c ∈ m'.cache, c.frame = frame
  spare : ∀ c ∈ m'.cache, c.frame = frame → 0 < c.refs ∧ Held m' frame (c.refs - 1)

theorem frame_inj {cache : List Cached} (distinct : (cache.map Cached.frame).Nodup) {c d : Cached}
    (mem : c ∈ cache) (mem' : d ∈ cache) (same : c.frame = d.frame) : c = d :=
  List.inj_on_of_nodup_map distinct mem mem' same

/-- What `find` looks for. -/
theorem find_cached {fs identity offset : Nat} {c : Cached}
    (found : m.cache.find? (fun e => e.fs = fs ∧ e.identity = identity ∧ e.offset = offset) = some c) :
    c ∈ m.cache ∧ c.fs = fs ∧ c.identity = identity ∧ c.offset = offset :=
  ⟨List.mem_of_find?_eq_some found, by simpa using List.find?_some found⟩

theorem spare_spec {victim : Option (Option Nat)} (owned : Owned m)
    (taken : m.spare victim = some m') :
    Owned m' ∧ m'.spaces = m.spaces ∧ m'.zeroPage = m.zeroPage ∧ m'.swap = m.swap ∧
      m'.bytes = m.bytes ∧ (∀ c ∈ m'.cache, c ∈ m.cache) ∧
      ∀ frame, Uncached m frame → m.out frame = true → m'.out frame = true := by
  unfold Machine.spare at taken
  split at taken
  · cases taken
  · cases taken
    exact ⟨owned, rfl, rfl, rfl, rfl, fun _ mem => mem, fun _ _ out => out⟩
  · rename_i k
    split at taken
    · cases taken
    · rename_i e at_
      split at taken
      · rename_i unheld
        cases taken
        have mem : e ∈ m.cache := List.mem_of_getElem? at_
        obtain ⟨notZero, _, held⟩ := owned.cached e mem
        rw [unheld] at held
        have nowhere := held.none_of_zero
        have sub (c : Cached) (mem : c ∈ m.cache.eraseIdx k) : c ∈ m.cache := List.mem_of_mem_eraseIdx mem
        obtain ⟨less, get⟩ := List.getElem?_eq_some_iff.1 at_
        have split_ : m.cache = m.cache.take k ++ e :: m.cache.drop (k + 1) := by
          rw [← get, ← List.drop_eq_getElem_cons less, List.take_append_drop]
        have rest : m.cache.eraseIdx k = m.cache.take k ++ m.cache.drop (k + 1) :=
          List.eraseIdx_eq_take_drop_succ ..
        have distinct := owned.distinct
        rw [split_, List.map_append, List.map_cons] at distinct
        obtain ⟨notMem, distinct'⟩ := List.nodup_cons.1 (List.nodup_middle.1 distinct)
        rw [← List.map_append, ← rest] at notMem distinct'
        have away : ∀ c ∈ m.cache.eraseIdx k, c.frame ≠ e.frame := by
          intro c mem same
          exact notMem (same ▸ List.mem_map_of_mem (f := Cached.frame) mem)
        have owned₁ : Owned (m.setCache (m.cache.eraseIdx k)) := by
          refine owned.setCache distinct' ?_ ?_ ?_
          · exact fun c mem => owned.cached c (sub c mem)
          · exact fun c mem => .inl fun uncached => uncached c (sub c mem) rfl
          · intro d mem
            by_cases same : d = e
            · exact .inr (same ▸ nowhere)
            · refine .inl ⟨d, ?_, rfl⟩
              rw [split_] at mem
              rw [rest]
              cases List.mem_append.1 mem with
              | inl before => exact List.mem_append_left _ before
              | inr after =>
                cases List.mem_cons.1 after with
                | inl here => exact absurd here same
                | inr after => exact List.mem_append_right _ after
        refine ⟨owned₁.freePage notZero away nowhere, rfl, rfl, rfl, rfl, sub, ?_⟩
        intro frame uncached out
        show Function.update m.out e.frame false frame = true
        rw [Function.update_of_ne (uncached e mem).symm]
        exact out
      · cases taken

/-- `pagecache_get` has a page to answer with, or has done no more than write in a page it gave
back. -/
theorem pagecacheGet_spec (owned : Owned m) (filled : Filled volume m) (on : f.On volume)
    (offset : Nat) (a : Around) :
    (∃ frame, (m.pagecacheGet f offset a).1 = some frame ∧
      Answered volume m f offset frame (m.pagecacheGet f offset a).2) ∨
    (m.pagecacheGet f offset a).1 = none ∧
      ((m.pagecacheGet f offset a).2 = m ∨ ∃ frame p, m.out frame = false ∧
        (m.pagecacheGet f offset a).2 = m.setBytes frame p) := by
  unfold pagecacheGet
  split
  · exact .inr ⟨rfl, .inl rfl⟩
  rename_i asked
  have named : f.identity ≠ 0 ∧ offset % pageSize = 0 := by
    rw [not_or, not_not] at asked
    exact asked.symm
  split
  · rename_i c found
    obtain ⟨mem, fs, identity, at_⟩ := find_cached found
    obtain ⟨_, _, held⟩ := owned.cached c mem
    have only (d : Cached) (mem' : d ∈ m.cache) (same : d.frame = c.frame) : d = c :=
      frame_inj owned.distinct mem' mem same
    refine .inl ⟨c.frame, rfl, ?_, ?_, rfl, rfl, rfl, fun _ _ _ _ _ => rfl, named, ?_, ?_, ?_⟩
    · refine owned.recount ?_
      intro d mem' same
      rw [only d mem' same]
      exact held.mono (Nat.le_succ _) fun _ _ _ at_ => at_
    · refine ⟨filled.files, filled.unshared, ?_⟩
      intro d mem' j less
      obtain ⟨e, mem', same, fs', identity', offset', _⟩ := mem_recount mem'
      rw [same, fs', identity', offset']
      exact filled.cached e mem' j less
    · intro j less
      rw [on named.1, ← fs, ← identity, ← at_]
      exact filled.cached c mem j less
    · have := List.mem_map_of_mem (f := Cached.frame) mem
      rw [← recount_frames c.frame (· + 1) m.cache] at this
      exact List.mem_map.1 this
    · intro d mem' same
      obtain ⟨e, mem', same', _, _, _, count, _⟩ := mem_recount mem'
      rw [count same, only e mem' (same'.symm.trans same)]
      exact ⟨Nat.succ_pos _, held⟩
  · rename_i missing
    split
    · exact .inr ⟨rfl, .inl rfl⟩
    rename_i m₁ given
    obtain ⟨free, rfl⟩ := allocPage_eq given
    obtain ⟨notZero, uncached, nowhere⟩ := owned.loose free
    split
    · exact .inr ⟨rfl, .inr ⟨a.cachePage, zeroes, free, freePage_taken free _⟩⟩
    · dsimp only
      have owned₁ : Owned ((m.taken a.cachePage).setBytes a.cachePage (f.read offset pageSize zeroes)) :=
        (owned.taken a.cachePage).setBytes notZero _
      split
      · exact .inr ⟨rfl, .inr ⟨a.cachePage, _, free, freePage_taken free _⟩⟩
      · rename_i m₂ spared
        obtain ⟨owned₂, spaces, zeroPage, swap, bytes, sub, outs⟩ := spare_spec owned₁ spared
        have out : m₂.out a.cachePage = true := outs _ uncached (Function.update_self ..)
        have uncached₂ : Uncached m₂ a.cachePage := fun c mem => uncached c (sub c mem)
        have nowhere₂ (i page : Nat) (w : Bool) : m₂.entry i page ≠ .present a.cachePage w := by
          unfold Machine.entry
          rw [spaces]
          exact nowhere i page w
        have away (g : Nat) (other : g ≠ a.cachePage) : m₂.bytes g = m.bytes g := by
          rw [bytes]
          exact Function.update_of_ne other ..
        have has : m₂.bytes a.cachePage = f.read offset pageSize zeroes := by
          rw [bytes]
          exact Function.update_self ..
        have reads (j : Nat) (less : j < pageSize) :
            m₂.bytes a.cachePage j = byteAt f.bytes (offset + j) := by
          rw [has, File.read_zeroes, if_pos less]
        refine .inl ⟨a.cachePage, rfl, ?_, ?_, spaces, zeroPage, swap, ?_, named, reads, ?_, ?_⟩
        · refine owned₂.setCache ?_ ?_ ?_ ?_
          · rw [List.map_cons, List.nodup_cons]
            refine ⟨?_, owned₂.distinct⟩
            intro mem
            obtain ⟨c, mem, same⟩ := List.mem_map.1 mem
            exact uncached₂ c mem same
          · intro c mem
            cases List.mem_cons.1 mem with
            | inl new =>
              rw [new, zeroPage]
              exact ⟨notZero, out, .of_none nowhere₂ _⟩
            | inr old => exact owned₂.cached c old
          · intro c mem
            cases List.mem_cons.1 mem with
            | inl new =>
              rw [new]
              exact .inr nowhere₂
            | inr old => exact .inl fun un => un c old rfl
          · exact fun d mem => .inl ⟨d, List.mem_cons_of_mem _ mem, rfl⟩
        · refine ⟨?_, ?_, ?_⟩
          · show ∀ i, ∀ r ∈ (m₂.spaces i).regions, _
            rw [spaces]
            exact filled.files
          · show ∀ i, ∀ r ∈ (m₂.spaces i).regions, _
            rw [spaces]
            exact filled.unshared
          · intro c mem j less
            cases List.mem_cons.1 mem with
            | inl new =>
              rw [new]
              dsimp only
              rw [← on named.1]
              exact reads j less
            | inr old =>
              show m₂.bytes c.frame j = _
              rw [away _ (uncached₂ c old)]
              exact filled.cached c (sub c old) j less
        · intro i page g w at_
          refine away g ?_
          rintro rfl
          exact nowhere i page w at_
        · exact ⟨_, List.mem_cons_self .., rfl⟩
        · intro c mem same
          cases List.mem_cons.1 mem with
          | inl new =>
            rw [new]
            exact ⟨Nat.one_pos, .of_none nowhere₂ _⟩
          | inr old => exact absurd same (uncached₂ c old)

end ReconOS.Addrspace
