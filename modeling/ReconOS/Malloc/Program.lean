import ReconOS.Malloc.Realloc

/-! A program at work: its calls, the blocks it has, and what it writes into them. -/
namespace ReconOS.Malloc

open Mem (Only)

/-- The payload bytes of the block that starts just before `p`. -/
def Heap.room (h : Heap) (p : Nat) : Nat := h.sizeOf (p - header) - header

inductive Act
  | malloc (bytes : Nat)
  | calloc (count each : Nat)
  | realloc (p bytes : Nat)
  | free (p : Nat)
  | write (p i : Nat) (v : UInt8)

/-- What a call answers, zero where it answers nothing, and the allocator after it. -/
def Act.run (src : Source) (h : Heap) : Act → Nat × Heap
  | .malloc bytes => h.malloc src bytes
  | .calloc count each => h.calloc src count each
  | .realloc p bytes => h.realloc src p bytes
  | .free p => (0, h.free src p)
  | .write p i v => (0, { h with mem := Function.update h.mem (p + i) v })

/-- The allocator, and the pointers its program has, each with the bytes asked for. -/
structure World where
  heap : Heap
  held : Nat → Option Nat

namespace World

def start (mem : Mem) : World := ⟨fresh mem, fun _ => none⟩

/-- After a call that answers with `bytes` in place of what was at `p`. -/
def took (w : World) (p bytes : Nat) (out : Nat × Heap) : World :=
  if out.1 = 0 then ⟨out.2, w.held⟩
  else ⟨out.2, Function.update (Function.update w.held p none) out.1 (some bytes)⟩

def gave (w : World) (p : Nat) (h : Heap) : World := ⟨h, Function.update w.held p none⟩

def play (src : Source) (w : World) (a : Act) : World :=
  match a with
  | .malloc bytes => w.took 0 bytes (a.run src w.heap)
  | .calloc count each => w.took 0 (count * each) (a.run src w.heap)
  | .realloc p bytes =>
    if p ≠ 0 ∧ bytes = 0 then w.gave p (a.run src w.heap).2
    else w.took p bytes (a.run src w.heap)
  | .free p => w.gave p (a.run src w.heap).2
  | .write _ _ _ => ⟨(a.run src w.heap).2, w.held⟩

end World

/-- Arguments are `size_t`; pointers passed on and written through are the program's own. -/
def Act.Proper (w : World) : Act → Prop
  | .malloc bytes => bytes < sizeLimit
  | .calloc count each => count < sizeLimit ∧ each < sizeLimit
  | .realloc p bytes => (p = 0 ∨ (w.held p).isSome) ∧ bytes < sizeLimit
  | .free p => p = 0 ∨ (w.held p).isSome
  | .write p i _ => ∃ n, w.held p = some n ∧ i < n

/-- The block an act is about, if it is about one the program has. -/
def Act.on : Act → Nat
  | .malloc _ => 0
  | .calloc _ _ => 0
  | .realloc p _ => p
  | .free p => p
  | .write p _ _ => p

/-- The sizes no sum wraps for unseen, and the products refused. -/
def Act.Fits : Act → Prop
  | .malloc bytes => Sizable bytes
  | .calloc count each => sizeLimit ≤ count * each ∨ Sizable (count * each)
  | .realloc _ bytes => Sizable bytes
  | .free _ => True
  | .write _ _ _ => True

instance (w : World) : DecidablePred (Act.Proper w)
  | .malloc _ => inferInstanceAs (Decidable (_ < _))
  | .calloc _ _ => inferInstanceAs (Decidable (_ < _ ∧ _ < _))
  | .realloc _ _ => inferInstanceAs (Decidable ((_ ∨ _) ∧ _ < _))
  | .free _ => inferInstanceAs (Decidable (_ ∨ _))
  | .write p i _ => inferInstanceAs (Decidable (∃ n ∈ w.held p, i < n))

instance : DecidablePred Act.Fits
  | .malloc _ => inferInstanceAs (Decidable (Sizable _))
  | .calloc _ _ => inferInstanceAs (Decidable (_ ≤ _ ∨ Sizable _))
  | .realloc _ _ => inferInstanceAs (Decidable (Sizable _))
  | .free _ | .write _ _ _ => inferInstanceAs (Decidable True)

/-- The states a program can bring the allocator to by acts that `ok` admits. -/
inductive Reached (src : Source) (ok : World → Act → Prop) (mem : Mem) : World → Prop
  | start : Reached src ok mem (.start mem)
  | next {w : World} {a : Act} : Reached src ok mem w → a.Proper w → ok w a →
      Reached src ok mem (w.play src a)

/-- Of every act of a run, where it is played. -/
def Each (src : Source) (ok : World → Act → Prop) : World → List Act → Prop
  | _, [] => True
  | w, a :: as => ok w a ∧ Each src ok (w.play src a) as

instance decidableEach (src : Source) (ok : World → Act → Prop) [∀ w, DecidablePred (ok w)] :
    (w : World) → (as : List Act) → Decidable (Each src ok w as)
  | _, [] => inferInstanceAs (Decidable True)
  | w, a :: as =>
    have := decidableEach src ok (w.play src a) as
    inferInstanceAs (Decidable (ok w a ∧ Each src ok (w.play src a) as))

theorem Reached.run {src : Source} {ok : World → Act → Prop} {mem : Mem} {w : World}
    {as : List Act} (hr : Reached src ok mem w)
    (has : Each src (fun w a => a.Proper w ∧ ok w a) w as) :
    Reached src ok mem (as.foldl (World.play src) w) := by
  induction as generalizing w with
  | nil => exact hr
  | cons a as ih => exact ih (hr.next has.1.1 has.1.2) has.2

/-! ## Payloads -/

section Payload

variable {h : Heap} {rs : List Region} {bins : Nat → List Nat} {x y bytes : Nat} {c d : Blk}

theorem Settled.room_eq (hs : Settled h rs bins) (hx : (x, c) ∈ usedPlaces rs) :
    h.room (x + header) = c.size - header := by
  rw [Heap.room, Nat.add_sub_cancel, hs.sizeOf_eq (mem_usedPlaces.1 hx).1]

/-- A payload in use is in one range the source has out. -/
theorem Settled.payload_lent (hs : Settled h rs bins) (hx : (x, c) ∈ usedPlaces rs)
    (hroom : bytes + header ≤ c.size) :
    bytes ≤ h.room (x + header) ∧
      ∃ r ∈ h.lent, r.1 ≤ x + header ∧ x + header + h.room (x + header) ≤ r.1 + r.2 := by
  rw [hs.room_eq hx]
  obtain ⟨r, hr, hxr⟩ := mem_allPlaces.1 (mem_usedPlaces.1 hx).1
  have hin := (hs.shape.ok r hr).place hxr
  have hft := (hs.shape.ok r hr).fence_top
  refine ⟨by omega, _, hs.lent r hr, ?_⟩
  simp only [regionHeader, header, minBlock] at *
  omega

/-- Two payloads in use do not overlap. -/
theorem Settled.payloads_apart (hs : Settled h rs bins) (hx : (x, c) ∈ usedPlaces rs)
    (hy : (y, d) ∈ usedPlaces rs) (hne : x ≠ y) :
    x + header + h.room (x + header) ≤ y + header ∨
      y + header + h.room (y + header) ≤ x + header := by
  rw [hs.room_eq hx, hs.room_eq hy]
  have hc := (hs.shape.place (mem_usedPlaces.1 hx).1).2.2.1
  have hd := (hs.shape.place (mem_usedPlaces.1 hy).1).2.2.1
  simp only [header, minBlock] at *
  rcases hs.shape.blocks_apart (mem_usedPlaces.1 hx).1 (mem_usedPlaces.1 hy).1 with
    ⟨heq, -⟩ | hlt | hlt
  · exact absurd heq hne
  · omega
  · omega

end Payload

/-! ## What the program has -/

/-- What the program has are the blocks in use, each with room for what was asked. -/
structure Backed (w : World) (rs : List Region) (bins : Nat → List Nat) : Prop where
  settled : Settled w.heap rs bins
  counted : Counted w.heap rs
  block : ∀ p n, w.held p = some n →
    ∃ x c, (x, c) ∈ usedPlaces rs ∧ p = x + header ∧ n + header ≤ c.size
  held : ∀ x c, (x, c) ∈ usedPlaces rs → (w.held (x + header)).isSome

section Backed

variable {src : Source} {w : World} {rs rs' : List Region} {bins bins' : Nat → List Nat} {h : Heap}
  {p bytes : Nat}

theorem fresh_settled (mem : Mem) : Settled (fresh mem) [] fun _ => [] where
  shape := ⟨List.Pairwise.nil, by simp⟩
  chained := ⟨rfl, by simp, by simp⟩
  tagged := by simp [Tagged]
  listed := ⟨fun _ => rfl, fun _ => ⟨List.nodup_nil, by simp, by simp⟩, by simp⟩
  free_iff := by simp [allPlaces]
  parted := by simp
  inUse := by simp
  alone := by simp
  lent := by simp

theorem Backed.start (mem : Mem) : Backed (.start mem) [] fun _ => [] := by
  refine ⟨fresh_settled mem, ⟨rfl, rfl, rfl, rfl⟩, ?_, ?_⟩
  · intro p n hp
    cases hp
  · intro x c hx
    cases hx

/-- A block taken in place of what was at `p`. -/
theorem Backed.took (hw : Backed w rs bins) (hs : Settled h rs' bins') (hc : Counted h rs')
    {ps : List (Nat × Blk)} {y n : Nat}
    (hps : ∀ z d, (z, d) ∈ ps ↔ (z, d) ∈ usedPlaces rs ∧ z + header ≠ p)
    (hused : (usedPlaces rs').Perm ((y, ⟨n, true⟩) :: ps)) (hle : bytes + header ≤ n) :
    Backed (w.took p bytes (y + header, h)) rs' bins' := by
  have hy : y + header ≠ 0 := by simp [header]
  simp only [World.took, hy, ↓reduceIte]
  refine ⟨hs, hc, fun q k hq => ?_, fun z d hz => ?_⟩
  · simp only at hq
    by_cases heq : q = y + header
    · rw [heq, Function.update_self] at hq
      cases hq
      exact ⟨y, ⟨n, true⟩, hused.mem_iff.2 List.mem_cons_self, heq, hle⟩
    · rw [Function.update_of_ne heq] at hq
      have hqp : q ≠ p := by
        rintro rfl
        rw [Function.update_self] at hq
        cases hq
      rw [Function.update_of_ne hqp] at hq
      obtain ⟨x, c, hx, rfl, hroom⟩ := hw.block q k hq
      have hx' : (x, c) ∈ ps := (hps x c).2 ⟨hx, hqp⟩
      exact ⟨x, c, hused.mem_iff.2 (List.mem_cons_of_mem _ hx'), rfl, hroom⟩
  · simp only
    by_cases heq : z = y
    · rw [heq, Function.update_self]
      rfl
    · rw [Function.update_of_ne (by omega)]
      have hz' : (z, d) ∈ ps := by
        rcases List.mem_cons.1 (hused.mem_iff.1 hz) with h | h
        · simp only [Prod.mk.injEq] at h
          exact absurd h.1 heq
        · exact h
      obtain ⟨hold, hne⟩ := (hps z d).1 hz'
      rw [Function.update_of_ne hne]
      exact hw.held z d hold

theorem Backed.gave (hw : Backed w rs bins) (hs : Settled h rs' bins') (hc : Counted h rs')
    {x : Nat} {c : Blk} (hp : p = x + header)
    (hused : (usedPlaces rs).Perm ((x, c) :: usedPlaces rs')) :
    Backed (w.gave p h) rs' bins' := by
  subst hp
  refine ⟨hs, hc, fun q k hq => ?_, fun z d hz => ?_⟩
  · simp only [World.gave] at hq
    have hqp : q ≠ x + header := by
      rintro rfl
      rw [Function.update_self] at hq
      cases hq
    rw [Function.update_of_ne hqp] at hq
    obtain ⟨z, d, hz, rfl, hroom⟩ := hw.block q k hq
    rcases List.mem_cons.1 (hused.mem_iff.1 hz) with heq | hz'
    · simp only [Prod.mk.injEq] at heq
      exact absurd (congrArg (· + header) heq.1) hqp
    · exact ⟨z, d, hz', rfl, hroom⟩
  · have hne := hw.settled.shape.used_cons hused hz
    simp only [World.gave]
    rw [Function.update_of_ne (by omega)]
    exact hw.held z d (hused.mem_iff.2 (List.mem_cons_of_mem _ hz))

/-- Nothing taken. -/
theorem Backed.null (hw : Backed w rs bins) (hs : Settled h rs bins') (hc : Counted h rs) :
    Backed (w.took p bytes (0, h)) rs bins' := by
  simp only [World.took, ↓reduceIte]
  exact ⟨hs, hc, hw.block, hw.held⟩

theorem Backed.gave_null (hw : Backed w rs bins) : Backed (w.gave 0 w.heap) rs bins := by
  have h0 : w.held 0 = none := by
    cases hn : w.held 0 with
    | none => rfl
    | some n =>
      obtain ⟨x, c, -, hx, -⟩ := hw.block 0 n hn
      simp [header] at hx
  have hsame : Function.update w.held 0 none = w.held := by
    rw [← h0]
    exact Function.update_eq_self 0 w.held
  rw [World.gave, hsame]
  exact hw

theorem Backed.malloc (hw : Backed w rs bins) {out : Nat × Heap}
    (hl : MallocLeaves w.heap rs bytes out) : ∃ rs' bins', Backed (w.took 0 bytes out) rs' bins' := by
  obtain ⟨q, h⟩ := out
  obtain ⟨rs', bins', hs, hc, hall, -, -⟩ := hl
  rcases hall with ⟨rfl, rfl, -⟩ | ⟨b, n, rfl, hle, hgiven⟩
  · exact ⟨rs', bins', hw.null hs hc⟩
  · refine ⟨rs', bins', hw.took hs hc (fun z d => ?_) hgiven.used hle⟩
    simp [header]

theorem Backed.realloc (hw : Backed w rs bins) {x : Nat} {c : Blk} {out : Nat × Heap}
    (hl : ReallocLeaves w.heap rs x c bytes out) :
    ∃ rs' bins', Backed (w.took (x + header) bytes out) rs' bins' := by
  obtain ⟨q, h⟩ := out
  obtain ⟨rs', bins', hs, hc, -, hall⟩ := hl
  rcases hall with ⟨rfl, rfl, -⟩ | ⟨y, n, rfl, hle, hmoved⟩
  · exact ⟨rs', bins', hw.null hs hc⟩
  · obtain ⟨ps, hps, hps'⟩ := hmoved.used
    refine ⟨rs', bins', hw.took hs hc (fun z d => ?_) hps' hle⟩
    rw [hps.mem_iff, List.mem_cons, Prod.mk.injEq]
    constructor
    · intro hz
      have := hw.settled.shape.used_cons hps hz
      exact ⟨.inr hz, by omega⟩
    · rintro ⟨⟨rfl, -⟩ | hz, hne⟩
      · exact absurd rfl hne
      · exact hz

theorem Backed.write (hw : Backed w rs bins) {p i n : Nat} (hp : w.held p = some n) (hi : i < n)
    (v : UInt8) :
    ∃ x c, (x, c) ∈ usedPlaces rs ∧ p = x + header ∧ n + header ≤ c.size ∧
      Only (InPayload x c) w.heap.mem (Function.update w.heap.mem (p + i) v) := by
  obtain ⟨x, c, hx, rfl, hroom⟩ := hw.block p n hp
  refine ⟨x, c, hx, rfl, hroom, ?_⟩
  apply Only.payload (hw.settled.shape.place (mem_usedPlaces.1 hx).1).2.2.1
  intro j hj
  rw [Function.update_of_ne]
  omega

/-- Every proper act of a size that fits leaves the program with what it should have. -/
theorem Backed.step (hsrc : src.Honest) (hw : Backed w rs bins) {a : Act} (hp : a.Proper w)
    (hf : a.Fits) : ∃ rs' bins', Backed (w.play src a) rs' bins' := by
  cases a with
  | malloc bytes => exact hw.malloc (malloc_spec hsrc hw.settled hw.counted hf)
  | calloc count each => exact hw.malloc (calloc_spec hsrc hw.settled hw.counted hf)
  | realloc p bytes =>
    rcases hp.1 with rfl | hheld
    · have hm : Act.run src w.heap (.realloc 0 bytes) = w.heap.malloc src bytes := by
        simp [Act.run, Heap.realloc]
      simp only [World.play, ne_eq, not_true_eq_false, false_and, ↓reduceIte, hm]
      exact hw.malloc (malloc_spec hsrc hw.settled hw.counted hf)
    · obtain ⟨n, hn⟩ := Option.isSome_iff_exists.1 hheld
      obtain ⟨x, c, hx, rfl, -⟩ := hw.block p n hn
      have hx0 : x + header ≠ 0 := by simp [header]
      by_cases h0 : bytes = 0
      · have hm : Act.run src w.heap (.realloc (x + header) bytes) =
            (0, w.heap.free src (x + header)) := by
          simp only [Act.run, Heap.realloc, hx0, h0, ↓reduceIte]
        simp only [World.play, ne_eq, hx0, not_false_eq_true, h0, and_self, ↓reduceIte]
        rw [h0] at hm
        rw [hm]
        obtain ⟨rs', bins', hs, hc, hfreed, -⟩ := free_spec src hw.settled hw.counted hx
        exact ⟨rs', bins', hw.gave hs hc rfl hfreed.used⟩
      · simp only [World.play, h0, and_false, ↓reduceIte]
        exact hw.realloc (realloc_spec hsrc hw.settled hw.counted hf h0 hx)
  | free p =>
    rcases hp with rfl | hheld
    · exact ⟨rs, bins, hw.gave_null⟩
    · obtain ⟨n, hn⟩ := Option.isSome_iff_exists.1 hheld
      obtain ⟨x, c, hx, rfl, -⟩ := hw.block p n hn
      obtain ⟨rs', bins', hs, hc, hfreed, -⟩ := free_spec src hw.settled hw.counted hx
      exact ⟨rs', bins', hw.gave hs hc rfl hfreed.used⟩
  | write p i v =>
    obtain ⟨n, hn, hi⟩ := hp
    obtain ⟨x, c, hx, -, -, honly⟩ := hw.write hn hi v
    have hc := hw.counted
    exact ⟨rs, bins, hw.settled.payload hx honly,
      ⟨hc.liveBytes, hc.liveBlocks, hc.regionCount, hc.takenBytes⟩, hw.block, hw.held⟩

theorem Reached.backed {ok : World → Act → Prop} {mem : Mem} (hsrc : src.Honest)
    (hok : ∀ w a, ok w a → a.Fits) (hr : Reached src ok mem w) : ∃ rs bins, Backed w rs bins := by
  induction hr with
  | start => exact ⟨[], fun _ => [], .start mem⟩
  | next _ hp hfit ih =>
    obtain ⟨rs, bins, hw⟩ := ih
    exact hw.step hsrc hp (hok _ _ hfit)

end Backed

end ReconOS.Malloc
