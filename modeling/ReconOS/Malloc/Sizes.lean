import ReconOS.Malloc.Program

/-! What a request answers with, and where it writes, against the size asked for. -/
namespace ReconOS.Malloc

open Mem (Only)

/-- A request for memory, but for the pointer that a `realloc` passes on. -/
inductive Request
  | malloc (bytes : Nat)
  | calloc (count each : Nat)
  | realloc (bytes : Nat)

namespace Request

def act (p : Nat) : Request → Act
  | malloc bytes => .malloc bytes
  | calloc count each => .calloc count each
  | realloc bytes => .realloc p bytes

def asked : Request → Nat
  | malloc bytes => bytes
  | calloc count each => count * each
  | realloc bytes => bytes

/-- The arguments are of type `size_t`. -/
def Typed : Request → Prop
  | malloc bytes => bytes < sizeLimit
  | calloc count each => count < sizeLimit ∧ each < sizeLimit
  | realloc bytes => bytes < sizeLimit

def Fits : Request → Prop
  | malloc bytes => Sizable bytes
  | calloc count each => sizeLimit ≤ count * each ∨ Sizable (count * each)
  | realloc bytes => Sizable bytes

end Request

/-- The answer to a request for `bytes`: nothing, or a payload as large as that in one range the
source has out. Nothing outside such ranges is written. -/
structure Answered (h : Heap) (bytes : Nat) (out : Nat × Heap) : Prop where
  payload : out.1 = 0 ∨ bytes ≤ out.2.room out.1 ∧
    ∃ r ∈ out.2.lent, r.1 ≤ out.1 ∧ out.1 + out.2.room out.1 ≤ r.1 + r.2
  writes : ∀ i, (∀ r, r ∈ h.lent ∨ r ∈ out.2.lent → i < r.1 ∨ r.1 + r.2 ≤ i) → out.2.mem i = h.mem i

section Answered

variable {h h' : Heap} {rs rs' : List Region} {bins : Nat → List Nat} {bytes x n : Nat} {c : Blk}
  {out : Nat × Heap}

theorem writes_of_granted (ho : Only (Granted h h') h.mem h'.mem) (i : Nat)
    (hi : ∀ r, r ∈ h.lent ∨ r ∈ h'.lent → i < r.1 ∨ r.1 + r.2 ≤ i) : h'.mem i = h.mem i := by
  apply ho
  rintro y ⟨r, hr, hlo, hhi⟩
  have := hi r hr
  omega

theorem MallocLeaves.answered (hl : MallocLeaves h rs bytes out) : Answered h bytes out := by
  obtain ⟨q, h'⟩ := out
  obtain ⟨rs', bins', hs', -, hall, -, honly⟩ := hl
  constructor
  · rcases hall with ⟨rfl, -⟩ | ⟨b, n, rfl, hle, hgiven⟩
    · exact .inl rfl
    · right
      exact hs'.payload_lent (hgiven.used.mem_iff.2 List.mem_cons_self) hle
  · apply writes_of_granted
    exact honly.mono fun y hy => hs'.granted_after hy

theorem ReallocLeaves.answered (hl : ReallocLeaves h rs x c bytes out) : Answered h bytes out := by
  obtain ⟨q, h'⟩ := out
  obtain ⟨rs', bins', hs', -, honly, hall⟩ := hl
  constructor
  · rcases hall with ⟨rfl, -⟩ | ⟨b, n, rfl, hle, hmoved⟩
    · exact .inl rfl
    · right
      obtain ⟨ps, -, hps⟩ := hmoved.used
      exact hs'.payload_lent (hps.mem_iff.2 List.mem_cons_self) hle
  · exact writes_of_granted honly

theorem FreeLeaves.answered (hs : Settled h rs bins) (hl : FreeLeaves h rs x c h') :
    Answered h bytes (0, h') := by
  obtain ⟨rs', bins', -, -, -, honly, -⟩ := hl
  refine ⟨.inl rfl, ?_⟩
  apply writes_of_granted
  exact honly.mono fun y hy => hs.granted hy

/-- A request of a size that fits, whatever the program did before. -/
theorem Backed.answered {src : Source} {w : World} (hsrc : src.Honest) (hw : Backed w rs bins)
    {req : Request} (hf : req.Fits) {p : Nat} (hp : p = 0 ∨ (w.held p).isSome) :
    Answered w.heap req.asked ((req.act p).run src w.heap) := by
  cases req with
  | malloc bytes => exact (malloc_spec hsrc hw.settled hw.counted hf).answered
  | calloc count each => exact (calloc_spec hsrc hw.settled hw.counted hf).answered
  | realloc bytes =>
    simp only [Request.act, Request.asked, Act.run]
    rcases hp with rfl | hheld
    · have hm : w.heap.realloc src 0 bytes = w.heap.malloc src bytes := by
        simp [Heap.realloc]
      rw [hm]
      exact (malloc_spec hsrc hw.settled hw.counted hf).answered
    · obtain ⟨n, hn⟩ := Option.isSome_iff_exists.1 hheld
      obtain ⟨x, c, hx, rfl, -⟩ := hw.block p n hn
      by_cases h0 : bytes = 0
      · have hx0 : x + header ≠ 0 := by simp [header]
        have hm : w.heap.realloc src (x + header) bytes = (0, w.heap.free src (x + header)) := by
          simp only [Heap.realloc, hx0, h0, ↓reduceIte]
        rw [hm]
        exact (free_spec src hw.settled hw.counted hx).answered hw.settled
      · exact (realloc_spec hsrc hw.settled hw.counted hf h0 hx).answered

end Answered

/-! ## The sizes for which a sum wraps -/

/-- A source with one range to give, at `a`, to a request of at most `limit`. -/
def Source.once (a limit : Nat) : Source where
  take _ lent ask := if lent = [] ∧ ask ≤ limit then a else 0
  giveBack := none

theorem Source.once_honest {a limit : Nat} (ha : a % align = 0) (hl : a + limit ≤ sizeLimit) :
    (Source.once a limit).Honest := by
  constructor
  · intro i lent ask
    simp only [Source.once]
    split
    · exact ha
    · rfl
  · intro i lent ask h0
    simp only [Source.once] at h0 ⊢
    split at h0
    · rename_i hone
      rw [if_pos hone]
      omega
    · exact absurd rfl h0
  · intro i lent ask h0 p hp
    simp only [Source.once] at h0
    split at h0
    · rename_i hone
      rw [hone.1] at hp
      cases hp
    · exact absurd rfl h0

/-- A source of one page. -/
def onePage : Source := .once 4096 4096

theorem onePage_honest : onePage.Honest := Source.once_honest (by decide) (by decide)

theorem wantFor_wraps {bytes : Nat} (hlo : sizeLimit - 80 < bytes) (hhi : bytes ≤ sizeLimit - 32) :
    ∃ want ask, wantFor bytes = some want ∧ Heap.askFor want true = ask ∧ ask ≤ 32 ∧
      largeBlock ≤ want := by
  have hup : alignUp ((bytes + header) % sizeLimit) = (bytes + 31) / 16 * 16 := by
    unfold alignUp
    simp only [align, header, sizeLimit] at *
    omega
  have hwant : wantFor bytes = some ((bytes + 31) / 16 * 16) := by
    unfold wantFor
    simp only [hup]
    rw [if_neg (by omega), max_eq_left]
    simp only [sizeLimit, minBlock] at *
    omega
  have hneed : (regionHeader + (bytes + 31) / 16 * 16 + header) % sizeLimit =
      (bytes + 31) / 16 * 16 + 48 - sizeLimit := by
    simp only [header, regionHeader, sizeLimit] at *
    omega
  have hup' : alignUp ((bytes + 31) / 16 * 16 + 48 - sizeLimit) =
      (bytes + 31) / 16 * 16 + 48 - sizeLimit := by
    unfold alignUp
    simp only [align, sizeLimit] at *
    omega
  have hask : Heap.askFor ((bytes + 31) / 16 * 16) true =
      (bytes + 31) / 16 * 16 + 48 - sizeLimit := by
    simp only [Heap.askFor, hneed, hup', ↓reduceIte, Nat.lt_irrefl]
  refine ⟨_, _, hwant, hask, ?_, ?_⟩
  · simp only [sizeLimit] at *
    omega
  · simp only [largeBlock, regionBytes, sizeLimit] at *
    omega

/-- The first block's head, in a region that has no room for it; its size is past the rest. -/
theorem layBlock_small (h : Heap) {r ask : Nat} (hask : ask ≤ 32) :
    (h.layBlock r ask).load (r + 40) = sizeLimit - 46 + ask := by
  have hword : (ask + sizeLimit - regionHeader - header) % sizeLimit + 2 = sizeLimit - 46 + ask := by
    simp only [header, regionHeader, sizeLimit]
    omega
  have hlt : sizeLimit - 46 + ask < 2 ^ 64 := by
    simp only [sizeLimit]
    omega
  have hfar : ∀ h' : Heap, h'.load (r + 40) = sizeLimit - 46 + ask →
      r + 48 ≤ h'.nextBlock (r + regionHeader) := by
    intro h' hh
    change h'.head (r + regionHeader) = _ at hh
    simp only [Heap.nextBlock, Heap.sizeOf, hh]
    simp only [regionHeader, align, sizeLimit]
    omega
  have hkeep : ∀ (h' : Heap) (a v : Nat), r + 48 ≤ a → (h'.store a v).load (r + 40) =
      h'.load (r + 40) := by
    intro h' a v ha
    exact Mem.load_store_ne (by omega)
  have hfoot : ∀ h' : Heap, h'.load (r + 40) = sizeLimit - 46 + ask →
      (h'.writeFooter (r + regionHeader)).load (r + 40) = sizeLimit - 46 + ask := by
    intro h' hh
    exact (hkeep h' _ _ (hfar h' hh)).trans hh
  unfold Heap.layBlock
  simp only [hword]
  have h1 : ((h.store (r + regionHeader) 0).store (r + regionHeader + 8)
      (sizeLimit - 46 + ask)).load (r + 40) = sizeLimit - 46 + ask := by
    simp only [regionHeader]
    exact Mem.load_store_self hlt
  generalize (h.store (r + regionHeader) 0).store (r + regionHeader + 8) (sizeLimit - 46 + ask) = h₁
    at h1 ⊢
  have hf1 := hfar h₁ h1
  have h2 := (hkeep h₁ (h₁.nextBlock (r + regionHeader)) 0 hf1).trans h1
  have h3 := (hkeep (h₁.store (h₁.nextBlock (r + regionHeader)) 0)
    (h₁.nextBlock (r + regionHeader) + 8) 1 (by omega)).trans h2
  exact hfoot _ h3

/-- The word just past a range of at most 32 bytes, after a request whose sum wrapped. The tag after
the block runs past the end of memory, where the machine's addresses wrap round to the range or just
before it; neither is this word. -/
theorem malloc_wraps {bytes : Nat} (hlo : sizeLimit - 80 < bytes) (hhi : bytes ≤ sizeLimit - 32)
    (mem : Mem) : ∃ ask, ask ≤ 32 ∧
      ((fresh mem).malloc onePage bytes).1 = 4096 + 48 ∧
      ((fresh mem).malloc onePage bytes).2.lent = [(4096, ask)] ∧
      sizeLimit - 46 ≤ ((fresh mem).malloc onePage bytes).2.mem.load 4136 := by
  obtain ⟨want, ask, hwant, hask, hle, hlarge⟩ := wantFor_wraps hlo hhi
  refine ⟨ask, hle, ?_⟩
  have htake : onePage.take 0 [] ask = 4096 := by
    simp only [onePage, Source.once]
    rw [if_pos ⟨trivial, by omega⟩]
  generalize hlaid : ({ fresh mem with called := 1, lent := [(4096, ask)] } : Heap).layRegion 4096
    ask true = h₁
  have hmalloc : (fresh mem).malloc onePage bytes = h₁.handOut (4096 + regionHeader) := by
    have hregion : (fresh mem).takeRegion onePage want true = (4096, h₁) := by
      have htake' : onePage.take (fresh mem).called (fresh mem).lent ask = 4096 := htake
      simp only [Heap.takeRegion, hask, htake']
      rw [← hlaid]
      rfl
    simp only [Heap.malloc, hwant, hlarge, ↓reduceIte, Heap.mallocLarge, hregion]
    rfl
  have hlent : h₁.lent = [(4096, ask)] := by
    rw [← hlaid]
    rfl
  have hhead : h₁.load (4096 + 40) = sizeLimit - 46 + ask := by
    rw [← hlaid]
    exact layBlock_small _ hle
  rw [hmalloc]
  refine ⟨rfl, hlent, ?_⟩
  -- Marked in use, the head is as large; the tag after the block is past it.
  have hword : (sizeLimit - 46 + ask) / 2 * 2 + 1 < 2 ^ 64 := by
    simp only [sizeLimit]
    omega
  have hused : (h₁.setUsed (4096 + regionHeader)).load (4096 + 40) =
      (sizeLimit - 46 + ask) / 2 * 2 + 1 := by
    have hhead' : h₁.head (4096 + regionHeader) = sizeLimit - 46 + ask := hhead
    unfold Heap.setUsed
    rw [hhead']
    exact Mem.load_store_self hword
  have hmem : (h₁.handOut (4096 + regionHeader)).2.mem.load 4136 =
      ((h₁.setUsed (4096 + regionHeader)).setPrevUsed
        ((h₁.setUsed (4096 + regionHeader)).nextBlock (4096 + regionHeader))).load (4096 + 40) := rfl
  rw [hmem]
  generalize h₁.setUsed (4096 + regionHeader) = h₂ at hused
  have hfar : 4096 + 48 ≤ h₂.nextBlock (4096 + regionHeader) := by
    have hhead' : h₂.head (4096 + regionHeader) = (sizeLimit - 46 + ask) / 2 * 2 + 1 := hused
    simp only [Heap.nextBlock, Heap.sizeOf, hhead']
    simp only [regionHeader, align, sizeLimit]
    omega
  have hkeep : (h₂.setPrevUsed (h₂.nextBlock (4096 + regionHeader))).load (4096 + 40) =
      h₂.load (4096 + 40) := Mem.load_store_ne (by omega)
  rw [hkeep, hused]
  simp only [sizeLimit]
  omega

/-- Memory as a program finds it, all zero. -/
def blank : Mem := fun _ => 0

theorem blank_load (a : Nat) : blank.load a = 0 := by
  unfold Mem.load
  rfl

theorem wraps_of_not_sizable {bytes : Nat} (hlt : bytes < sizeLimit) (hb : ¬Sizable bytes) :
    sizeLimit - 80 < bytes ∧ bytes ≤ sizeLimit - 32 := by
  by_contra hno
  exact hb ⟨hlt, hno⟩

/-- A request whose sum wraps has its block's header written past the range. -/
theorem Request.not_answered {req : Request} (ht : req.Typed) (hf : ¬req.Fits) :
    ¬Answered (fresh blank) req.asked ((req.act 0).run onePage (fresh blank)) := by
  intro hans
  -- Whatever the request, the word past the range is the one `malloc` leaves.
  have hword : ∃ ask, ask ≤ 32 ∧
      ((req.act 0).run onePage (fresh blank)).2.lent = [(4096, ask)] ∧
      sizeLimit - 46 ≤ ((req.act 0).run onePage (fresh blank)).2.mem.load 4136 := by
    cases req with
    | malloc bytes =>
      obtain ⟨hlo, hhi⟩ := wraps_of_not_sizable ht hf
      obtain ⟨ask, hle, -, hlent, hload⟩ := malloc_wraps hlo hhi blank
      exact ⟨ask, hle, hlent, hload⟩
    | realloc bytes =>
      obtain ⟨hlo, hhi⟩ := wraps_of_not_sizable ht hf
      obtain ⟨ask, hle, -, hlent, hload⟩ := malloc_wraps hlo hhi blank
      exact ⟨ask, hle, hlent, hload⟩
    | calloc count each =>
      simp only [Request.Fits, not_or, Nat.not_le] at hf
      obtain ⟨hlo, hhi⟩ := wraps_of_not_sizable hf.1 hf.2
      obtain ⟨ask, hle, hp, hlent, hload⟩ := malloc_wraps hlo hhi blank
      have hdiv : ¬(each ≠ 0 ∧ count * each / each ≠ count) := by
        rintro ⟨h0, hne⟩
        exact hne (Nat.mul_div_cancel count (Nat.pos_of_ne_zero h0))
      simp only [Request.act, Act.run, Heap.calloc, Nat.mod_eq_of_lt hf.1, if_neg hdiv]
      generalize (fresh blank).malloc onePage (count * each) = out at hp hlent hload ⊢
      obtain ⟨p, h⟩ := out
      simp only at hp hlent hload
      subst hp
      refine ⟨ask, hle, hlent, ?_⟩
      have hkeep : (h.mem.fill (4096 + 48) (count * each) 0).load 4136 = h.mem.load 4136 := by
        apply Mem.load_congr
        intro i hi
        unfold Mem.fill
        rw [if_neg (by omega)]
      simp only [ne_eq, Nat.reduceAdd, OfNat.ofNat_ne_zero, not_false_eq_true, ↓reduceIte] at hkeep ⊢
      rw [hkeep]
      exact hload
  obtain ⟨ask, hle, hlent, hload⟩ := hword
  have hsame : ((req.act 0).run onePage (fresh blank)).2.mem.load 4136 = blank.load 4136 := by
    apply Mem.load_congr
    intro i hi
    apply hans.writes
    intro r hr
    rw [hlent] at hr
    rcases hr with hr | hr
    · cases hr
    · rw [List.mem_singleton.1 hr]
      simp only
      omega
  rw [hsame, blank_load] at hload
  simp [sizeLimit] at hload

/-- Requests of one size are answered rightly from every state the program can have reached by such
requests, whatever the source, where no sum of the allocator's wraps for the size. -/
theorem sizes_hold_iff (req : Request) (ht : req.Typed) :
    (∀ (src : Source) (mem : Mem) (w : World) (p : Nat), src.Honest →
      Reached src (fun _ a => a.Fits) mem w → (p = 0 ∨ (w.held p).isSome) →
      Answered w.heap req.asked ((req.act p).run src w.heap)) ↔ req.Fits := by
  constructor
  · intro hall
    by_contra hf
    exact Request.not_answered ht hf
      (hall onePage blank (.start blank) 0 onePage_honest .start (.inl rfl))
  · intro hf src mem w p hsrc hr hp
    obtain ⟨rs, bins, hw⟩ := hr.backed hsrc fun _ _ h => h
    exact hw.answered hsrc hf hp

theorem sizes_hold_hundred :
    (∀ (src : Source) (mem : Mem) (w : World) (p : Nat), src.Honest →
      Reached src (fun _ a => a.Fits) mem w → (p = 0 ∨ (w.held p).isSome) →
      Answered w.heap 100 ((Request.act p (.realloc 100)).run src w.heap)) ↔
      (Request.realloc 100).Fits :=
  sizes_hold_iff (.realloc 100) (show 100 < sizeLimit by decide)

/-- The largest request that is not refused outright. -/
theorem largest_request_overruns :
    ¬Answered (fresh blank) (sizeLimit - 32) ((fresh blank).malloc onePage (sizeLimit - 32)) := by
  have ht : (Request.malloc (sizeLimit - 32)).Typed := show sizeLimit - 32 < sizeLimit by decide
  have hf : ¬(Request.malloc (sizeLimit - 32)).Fits := by
    intro hf
    apply hf.2
    decide
  exact Request.not_answered ht hf

end ReconOS.Malloc
