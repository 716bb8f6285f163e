import ReconOS.Malloc.Program
import ReconOS.Malloc.Sizes

/-! The allocator's own audit against the tiling its memory holds. -/
namespace ReconOS.Malloc

open Heap (Tally)

/-- What a walk of some blocks counts: their payload bytes in use, and the blocks in use. -/
def liveOf (ps : List (Nat × Blk)) : Nat :=
  ((ps.filter fun p => p.2.used).map fun p => p.2.size - header).sum

def usedOf (ps : List (Nat × Blk)) : Nat := (ps.filter fun p => p.2.used).length

theorem liveOf_append (ps qs : List (Nat × Blk)) : liveOf (ps ++ qs) = liveOf ps + liveOf qs := by
  simp [liveOf]

theorem usedOf_append (ps qs : List (Nat × Blk)) : usedOf (ps ++ qs) = usedOf ps + usedOf qs := by
  simp [usedOf]

@[simp] theorem Tally.note_false (t : Tally) {c : Prop} [Decidable c] (h : ¬c) : t.note c = t :=
  if_neg h

section Audit

variable {h : Heap} {rs : List Region} {bins : Nat → List Nat}

/-- The walk of a stretch of blocks up to the sentinel finds nothing wrong, where the block before
is as its flag has it and not free beside a free one. -/
theorem auditBlocks_eq {bytes fuel a far : Nat} {prev : Option Nat} {bs : List Blk} {t : Tally}
    (htags : ∀ t ∈ tags a prev bs, t.In h.mem)
    (hsizes : ∀ b ∈ bs, b.size % align = 0 ∧ minBlock ≤ b.size) (hpart : Parted bs)
    (hfirst : prev.isSome → Sealed bs) (hend : far + span bs ≤ bytes) (hf : bs.length < fuel) :
    h.auditBlocks bytes fuel a far prev.isNone t =
      (far + span bs, { t with
        live := t.live + liveOf (places a bs), blocks := t.blocks + usedOf (places a bs) }) := by
  induction bs generalizing fuel a far prev t with
  | nil =>
    obtain ⟨fuel, rfl⟩ : ∃ f, fuel = f + 1 := ⟨fuel - 1, by simp at hf; omega⟩
    have hfence := htags ⟨a, prev, 0, true⟩ (by simp [tags])
    have hzero : h.sizeOf a = 0 := hfence.size rfl
    simp [Heap.auditBlocks, hzero, places, liveOf, usedOf]
  | cons b bs ih =>
    obtain ⟨fuel, rfl⟩ : ∃ f, fuel = f + 1 := ⟨fuel - 1, by simp at hf; omega⟩
    have hb := hsizes b List.mem_cons_self
    have htag := htags ⟨a, prev, b.size, b.used⟩ (by simp [tags])
    have hsize : h.sizeOf a = b.size := htag.size hb.1
    have hused : h.used a = b.used := htag.used_eq hb.1
    have hprev : h.prevUsed a = prev.isNone := htag.prevUsed_eq hb.1
    have hmin := hb.2
    simp only [minBlock] at hmin
    rw [span_cons] at hend
    have hrest : ∀ t ∈ tags (a + b.size) b.left bs, t.In h.mem :=
      fun t ht => htags t (by simp [tags, ht])
    have hnone : b.left.isNone = b.used := by
      cases hu : b.used <;> simp [Blk.left, hu]
    have hsealed : b.left.isSome → Sealed bs := by
      intro hs c hc
      cases bs with
      | nil => cases hc
      | cons d bs =>
        cases hc
        rcases hpart.1 with hu | hu
        · simp [Blk.left, hu] at hs
        · exact hu
    have hgo : ∀ t' : Tally,
        h.auditBlocks bytes fuel (a + b.size) (far + b.size) b.left.isNone t' = _ := fun _ =>
      ih hrest (fun c hc => hsizes c (List.mem_cons_of_mem b hc)) hpart.tail hsealed (by omega)
        (by simpa using hf)
    rw [hnone] at hgo
    have hsz0 : b.size ≠ 0 := by omega
    have hspan : ¬bytes < far + b.size := by omega
    have hmod : ¬b.size % align ≠ 0 := by simp [hb.1]
    have hsmall : ¬b.size < minBlock := by omega
    have hflag : ¬prev.isNone ≠ prev.isNone := by simp
    unfold Heap.auditBlocks
    simp only [hsize, hsz0, ↓reduceIte, hused, hprev, Tally.note_false _ hmod,
      Tally.note_false _ hsmall, Tally.note_false _ hflag, hspan]
    cases hu : b.used with
    | true =>
      rw [hu] at hgo
      simp only [↓reduceIte, hgo]
      simp [places, liveOf, usedOf, hu, Nat.add_assoc, Nat.add_comm]
    | false =>
      rw [hu] at hgo
      -- The footer stands in the tag after, and the block before is in use.
      have hfoot : ¬h.load (a + b.size) ≠ b.size := by
        have hnext := hrest (firstTag (a + b.size) b.left bs) (by
          rw [tags_first]
          exact List.mem_cons_self)
        have hl : b.left = some b.size := by simp [Blk.left, hu]
        have := hnext.foot b.size (by cases bs <;> exact hl)
        rw [firstTag_at] at this
        simpa [Heap.load] using this
      have hbefore : ¬prev.isNone = false := by
        intro hsome
        have := hfirst (by simpa using hsome) b rfl
        rw [hu] at this
        cases this
      simp only [Bool.false_eq_true, ↓reduceIte, Tally.note_false _ hfoot,
        Tally.note_false _ hbefore, hgo]
      simp [places, liveOf, usedOf, hu, Nat.add_assoc]

theorem span_ge {bs : List Blk} (h : ∀ b ∈ bs, minBlock ≤ b.size) : bs.length ≤ span bs := by
  induction bs with
  | nil => exact Nat.le_refl 0
  | cons b bs ih =>
    have hb := h b List.mem_cons_self
    have := ih fun c hc => h c (List.mem_cons_of_mem b hc)
    rw [span_cons, List.length_cons]
    simp only [minBlock] at hb
    omega

theorem auditRegion_eq (hs : Settled h rs bins) {r : Region} (hr : r ∈ rs) (t : Tally) :
    h.auditRegion r.addr t = { t with
      live := t.live + liveOf r.places, blocks := t.blocks + usedOf r.places } := by
  have hok := hs.shape.ok r hr
  have hfull := hok.full
  have hbytes : h.bytesOf r.addr = r.bytes := hs.chained.bytes r hr
  have hlen := span_ge fun b hb => (hok.sizes b hb).2
  have haligned : ¬(r.addr + regionHeader) % align ≠ 0 := by
    have := hok.aligned
    simp only [regionHeader, align] at *
    omega
  have hwalk : h.auditBlocks r.bytes (r.bytes + 1) (r.addr + regionHeader) regionHeader true t = _ :=
    auditBlocks_eq (hs.tagged r hr) hok.sizes (hs.parted r hr) (by simp) (by omega) (by omega)
  have hend : ¬regionHeader + span r.blocks + header ≠ r.bytes := by omega
  unfold Heap.auditRegion
  simp only [Tally.note_false _ haligned, hbytes, hwalk, Tally.note_false _ hend]
  rfl

theorem auditFrom_eq (hs : Settled h rs bins) {qs : List Region} (hsub : ∀ r ∈ qs, r ∈ rs)
    {fuel prev cur : Nat} (hp : Mem.Path h.mem 0 prev cur (qs.map Region.addr) 0)
    (hf : qs.length < fuel) (t : Tally) :
    h.auditFrom fuel cur t = { t with
      live := t.live + liveOf (allPlaces qs), blocks := t.blocks + usedOf (allPlaces qs) } := by
  induction qs generalizing fuel prev cur t with
  | nil =>
    obtain ⟨fuel, rfl⟩ : ∃ f, fuel = f + 1 := ⟨fuel - 1, by simp at hf; omega⟩
    rw [show cur = 0 from hp]
    simp [Heap.auditFrom, allPlaces, liveOf, usedOf]
  | cons q qs ih =>
    obtain ⟨fuel, rfl⟩ : ∃ f, fuel = f + 1 := ⟨fuel - 1, by simp at hf; omega⟩
    obtain ⟨rfl, h0, -, hp⟩ := hp
    have hnext := ih (fun r hr => hsub r (List.mem_cons_of_mem q hr)) hp (by simpa using hf)
    rw [Heap.auditFrom, if_neg h0, auditRegion_eq hs (hsub q List.mem_cons_self)]
    rw [Nat.add_zero] at hnext
    change h.auditFrom fuel (h.mem.load q.addr) _ = _
    rw [hnext]
    have hall : allPlaces (q :: qs) = q.places ++ allPlaces qs := rfl
    rw [hall, liveOf_append, usedOf_append]
    simp only [Nat.add_assoc]

/-- A settled allocator whose counters agree with its blocks has nothing to report. -/
theorem audit_zero (hs : Settled h rs bins) (hc : Counted h rs) : h.audit = 0 := by
  have hlen := hs.shape.nodes.length_lt fun y hy => Mem.Path.ne_zero hs.chained.links hy
  rw [List.length_map] at hlen
  have hwalk := auditFrom_eq hs (fun r hr => hr) hs.chained.links hlen ⟨0, 0, 0⟩
  have hlive : ¬0 + liveOf (allPlaces rs) ≠ h.liveBytes := by
    rw [hc.liveBytes, Nat.zero_add]
    exact fun hne => hne rfl
  have hblocks : ¬0 + usedOf (allPlaces rs) ≠ h.liveBlocks := by
    rw [hc.liveBlocks, Nat.zero_add]
    exact fun hne => hne rfl
  unfold Heap.audit
  change h.auditFrom longest h.regions ⟨0, 0, 0⟩ = _ at hwalk
  simp only [hwalk, Tally.note_false _ hlive, Tally.note_false _ hblocks]

end Audit

/-! The heap's integrity over a program's run: what the audit checks, what it leaves unchecked, and
what each call leaves of the program's own bytes. -/

open Mem (Only)

namespace Heap

/-- The regions, in the order of their list. -/
def regionList (h : Heap) : List Nat := h.mem.walk 0 longest h.regions

/-- The free list of one size. -/
def binList (h : Heap) (k : Nat) : List Nat := h.mem.walk header longest (h.bins k)

/-- Where the blocks of a region from `b` on start. -/
def blocksFrom (h : Heap) : (fuel b : Nat) → List Nat
  | 0, _ => []
  | fuel + 1, b => if h.sizeOf b = 0 then [] else b :: blocksFrom h fuel (b + h.sizeOf b)

/-- Where the blocks of all regions start. -/
def blocks (h : Heap) : List Nat :=
  h.regionList.flatMap fun r => h.blocksFrom (h.bytesOf r + 1) (r + regionHeader)

end Heap

section Walks

variable {h : Heap} {rs : List Region} {bins : Nat → List Nat} {off : Nat → Prop}

theorem Holds.regionList_eq (hs : Holds h rs bins off) : h.regionList = rs.map Region.addr := by
  apply Mem.Path.walk_eq hs.chained.links
  exact hs.shape.nodes.length_lt fun y hy => Mem.Path.ne_zero hs.chained.links hy

theorem Holds.binList_eq (hs : Holds h rs bins off) (k : Nat) : h.binList k = bins k := by
  apply Mem.Path.walk_eq (hs.listed.links k)
  exact (hs.listed.nodes k).length_lt fun y hy => hs.listed.ne_zero hy

theorem blocksFrom_eq {fuel a : Nat} {prev : Option Nat} {bs : List Blk}
    (htags : ∀ t ∈ tags a prev bs, t.In h.mem)
    (hsizes : ∀ b ∈ bs, b.size % align = 0 ∧ minBlock ≤ b.size) (hf : bs.length < fuel) :
    h.blocksFrom fuel a = (places a bs).map Prod.fst := by
  induction bs generalizing fuel a prev with
  | nil =>
    obtain ⟨fuel, rfl⟩ : ∃ f, fuel = f + 1 := ⟨fuel - 1, by simp at hf; omega⟩
    have hzero : h.sizeOf a = 0 := (htags ⟨a, prev, 0, true⟩ (by simp [tags])).size rfl
    simp [Heap.blocksFrom, hzero, places]
  | cons b bs ih =>
    obtain ⟨fuel, rfl⟩ : ∃ f, fuel = f + 1 := ⟨fuel - 1, by simp at hf; omega⟩
    have hb := hsizes b List.mem_cons_self
    have hsize : h.sizeOf a = b.size :=
      (htags ⟨a, prev, b.size, b.used⟩ (by simp [tags])).size hb.1
    have hrest : ∀ t ∈ tags (a + b.size) b.left bs, t.In h.mem :=
      fun t ht => htags t (by simp [tags, ht])
    have hne : b.size ≠ 0 := by
      have := hb.2
      simp only [minBlock] at this
      omega
    rw [Heap.blocksFrom, hsize, if_neg hne, places, List.map_cons,
      ih hrest (fun c hc => hsizes c (List.mem_cons_of_mem b hc)) (by simpa using hf)]

theorem Holds.mem_blocks (hs : Holds h rs bins off) {x : Nat} :
    x ∈ h.blocks ↔ ∃ c, (x, c) ∈ allPlaces rs := by
  have hregion : ∀ r ∈ rs, h.blocksFrom (h.bytesOf r.addr + 1) (r.addr + regionHeader) =
      r.places.map Prod.fst := by
    intro r hr
    have hok := hs.shape.ok r hr
    have hfull := hok.full
    have hlen := span_ge fun b hb => (hok.sizes b hb).2
    apply blocksFrom_eq (hs.tagged r hr) hok.sizes
    rw [hs.chained.bytes r hr]
    omega
  simp only [Heap.blocks, hs.regionList_eq, List.mem_flatMap, List.mem_map]
  constructor
  · rintro ⟨a, ⟨r, hr, rfl⟩, hx⟩
    rw [hregion r hr, List.mem_map] at hx
    obtain ⟨⟨y, c⟩, hy, rfl⟩ := hx
    exact ⟨c, mem_allPlaces.2 ⟨r, hr, hy⟩⟩
  · rintro ⟨c, hx⟩
    obtain ⟨r, hr, hx⟩ := mem_allPlaces.1 hx
    refine ⟨r.addr, ⟨r, hr, rfl⟩, ?_⟩
    rw [hregion r hr, List.mem_map]
    exact ⟨_, hx, rfl⟩

/-- A block is on the list of its size, and no other, exactly where it is free. -/
theorem Settled.binned (hs : Settled h rs bins) (k x : Nat) : x ∈ h.binList k ↔
    x ∈ h.blocks ∧ h.used x = false ∧ binOf (h.sizeOf x) = k := by
  rw [hs.toHolds.binList_eq, hs.listed_iff, hs.toHolds.mem_blocks]
  constructor
  · rintro ⟨c, hx, hc, hk⟩
    refine ⟨⟨c, hx⟩, ?_, ?_⟩
    · rw [hs.used_eq hx, hc]
    · rw [hs.sizeOf_eq hx, hk]
  · rintro ⟨⟨c, hx⟩, hu, hk⟩
    rw [hs.used_eq hx] at hu
    rw [hs.sizeOf_eq hx] at hk
    exact ⟨c, hx, hu, hk⟩

end Walks

/-! ## Between calls -/

/-- The audit finds nothing, every free block is on the one list of its size, and the program's
payloads are apart, aligned, and large enough, each in one range the source has out. -/
structure World.Sound (w : World) : Prop where
  audit : w.heap.audit = 0
  binned : ∀ k x, x ∈ w.heap.binList k ↔
    x ∈ w.heap.blocks ∧ w.heap.used x = false ∧ binOf (w.heap.sizeOf x) = k
  once : ∀ k, (w.heap.binList k).Nodup
  placed : ∀ p n, w.held p = some n → p % align = 0 ∧ n ≤ w.heap.room p ∧
    ∃ r ∈ w.heap.lent, r.1 ≤ p ∧ p + w.heap.room p ≤ r.1 + r.2
  apart : ∀ p q, (w.held p).isSome → (w.held q).isSome → p ≠ q →
    p + w.heap.room p ≤ q ∨ q + w.heap.room q ≤ p

/-- What one of the program's blocks keeps: that the program has it, its size, and its bytes. -/
structure Spared (w w' : World) (q : Nat) : Prop where
  held : w'.held q = w.held q
  room : w'.heap.room q = w.heap.room q
  bytes : ∀ i, i < w.heap.room q → w'.heap.mem (q + i) = w.heap.mem (q + i)

/-- What an act leaves of the program's bytes: all of every block but the one it is about; of that
one, what both sizes have where it answers with a block, and all of it where it answers with none and
was asked for some. Asked for none, it gives the block back. -/
structure World.Careful (src : Source) (w : World) (a : Act) : Prop where
  others : ∀ q, (w.held q).isSome → q ≠ a.on → Spared w (w.play src a) q
  carried : ∀ p bytes n, a = .realloc p bytes → w.held p = some n → (a.run src w.heap).1 ≠ 0 →
    ∀ i, i < min n bytes → (w.play src a).heap.mem ((a.run src w.heap).1 + i) = w.heap.mem (p + i)
  refused : ∀ p bytes n, a = .realloc p bytes → w.held p = some n → bytes ≠ 0 →
    (a.run src w.heap).1 = 0 → (w.play src a).held p = some n ∧ (w.play src a).heap.mem = w.heap.mem
  emptied : ∀ p n, a = .realloc p 0 → w.held p = some n →
    (a.run src w.heap).1 = 0 ∧ (w.play src a).heap.liveBlocks + 1 = w.heap.liveBlocks

section Sound

variable {src : Source} {w : World} {rs : List Region} {bins : Nat → List Nat} {h : Heap}

theorem Backed.sound (hw : Backed w rs bins) : w.Sound := by
  have hs := hw.settled
  refine ⟨audit_zero hs hw.counted, hs.binned, fun k => ?_, fun p n hp => ?_, fun p q hp hq hne => ?_⟩
  · rw [hs.toHolds.binList_eq]
    exact (hs.listed.nodes k).nodup
  · obtain ⟨x, c, hx, rfl, hroom⟩ := hw.block p n hp
    refine ⟨?_, hs.payload_lent hx hroom⟩
    have := (hs.shape.place (mem_usedPlaces.1 hx).1).1
    simp only [align, header] at *
    omega
  · obtain ⟨m, hm⟩ := Option.isSome_iff_exists.1 hp
    obtain ⟨n, hn⟩ := Option.isSome_iff_exists.1 hq
    obtain ⟨x, c, hx, rfl, -⟩ := hw.block p m hm
    obtain ⟨y, d, hy, rfl, -⟩ := hw.block q n hn
    apply hs.payloads_apart hx hy
    rintro rfl
    exact hne rfl

theorem World.took_heap (w : World) (p bytes : Nat) (out : Nat × Heap) :
    (w.took p bytes out).heap = out.2 := by
  unfold World.took
  split <;> rfl

theorem World.took_held {w : World} {p q bytes : Nat} {out : Nat × Heap} (hp : q ≠ p)
    (hout : q ≠ out.1) : (w.took p bytes out).held q = w.held q := by
  unfold World.took
  split
  · rfl
  · simp only
    rw [Function.update_of_ne hout, Function.update_of_ne hp]

theorem Backed.spared (hw : Backed w rs bins) {w' : World} {rs' : List Region}
    {bins' : Nat → List Nat} (hs' : Settled w'.heap rs' bins') {x : Nat} {c : Blk}
    (hx : (x, c) ∈ usedPlaces rs) (hx' : (x, c) ∈ usedPlaces rs')
    (hk : KeptAt w.heap.mem w'.heap.mem x c.size) (hh : w'.held (x + header) = w.held (x + header)) :
    Spared w w' (x + header) := by
  have hroom := hw.settled.room_eq hx
  refine ⟨hh, ?_, fun i hi => ?_⟩
  · rw [hroom, hs'.room_eq hx']
  · rw [hroom] at hi
    apply hk
    · exact Nat.le_add_right _ _
    · omega

theorem Backed.spared_malloc (hw : Backed w rs bins) {bytes : Nat} {out : Nat × Heap}
    (hl : MallocLeaves w.heap rs bytes out) {q : Nat} (hq : (w.held q).isSome) :
    Spared w (w.took 0 bytes out) q := by
  obtain ⟨n, hn⟩ := Option.isSome_iff_exists.1 hq
  obtain ⟨x, c, hx, rfl, -⟩ := hw.block q n hn
  have hx0 : x + header ≠ 0 := by simp [header]
  obtain ⟨p, h'⟩ := out
  obtain ⟨rs', bins', hs', -, hall, -, -⟩ := hl
  have hheap := w.took_heap 0 bytes (p, h')
  rcases hall with ⟨rfl, rfl, hmem⟩ | ⟨b, k, rfl, -, hgiven⟩
  · apply hw.spared (hheap ▸ hs') hx hx
    · intro i _ _
      rw [hheap]
      exact congrFun hmem i
    · exact World.took_held hx0 hx0
  · have hne := hs'.shape.used_cons hgiven.used hx
    apply hw.spared (hheap ▸ hs') hx (hgiven.used.mem_iff.2 (List.mem_cons_of_mem _ hx))
    · rw [hheap]
      exact hgiven.kept x c hx
    · exact World.took_held hx0 (by simp only; omega)

theorem Backed.spared_realloc (hw : Backed w rs bins) {y bytes : Nat} {d : Blk} {out : Nat × Heap}
    (hl : ReallocLeaves w.heap rs y d bytes out) {q : Nat} (hq : (w.held q).isSome)
    (hne : q ≠ y + header) : Spared w (w.took (y + header) bytes out) q := by
  obtain ⟨n, hn⟩ := Option.isSome_iff_exists.1 hq
  obtain ⟨x, c, hx, rfl, -⟩ := hw.block q n hn
  have hx0 : x + header ≠ 0 := by simp [header]
  have hxy : x ≠ y := by
    rintro rfl
    exact hne rfl
  obtain ⟨p, h'⟩ := out
  obtain ⟨rs', bins', hs', -, -, hall⟩ := hl
  have hheap := w.took_heap (y + header) bytes (p, h')
  rcases hall with ⟨rfl, rfl, hmem⟩ | ⟨z, k, rfl, -, hmoved⟩
  · apply hw.spared (hheap ▸ hs') hx hx
    · intro i _ _
      rw [hheap]
      exact congrFun hmem i
    · exact World.took_held hne hx0
  · obtain ⟨ps, hps, hps'⟩ := hmoved.used
    have hxps : (x, c) ∈ ps := by
      rcases List.mem_cons.1 (hps.mem_iff.1 hx) with heq | hmem
      · simp only [Prod.mk.injEq] at heq
        exact absurd heq.1 hxy
      · exact hmem
    have hxz := hs'.shape.used_cons hps' hxps
    apply hw.spared (hheap ▸ hs') hx (hps'.mem_iff.2 (List.mem_cons_of_mem _ hxps))
    · rw [hheap]
      exact hmoved.kept x c hx hxy
    · exact World.took_held hne (by simp only; omega)

theorem Backed.spared_free (hw : Backed w rs bins) {y : Nat} {d : Blk}
    (hl : FreeLeaves w.heap rs y d h) {q : Nat} (hq : (w.held q).isSome) (hne : q ≠ y + header) :
    Spared w (w.gave (y + header) h) q := by
  obtain ⟨n, hn⟩ := Option.isSome_iff_exists.1 hq
  obtain ⟨x, c, hx, rfl, -⟩ := hw.block q n hn
  obtain ⟨rs', bins', hs', -, hfreed, -⟩ := hl
  have hx' : (x, c) ∈ usedPlaces rs' := by
    rcases List.mem_cons.1 (hfreed.used.mem_iff.1 hx) with heq | hmem
    · simp only [Prod.mk.injEq] at heq
      rw [heq.1] at hne
      exact absurd rfl hne
    · exact hmem
  apply hw.spared hs' hx hx' (hfreed.kept x c hx')
  exact Function.update_of_ne hne _ _

/-- Every block but the one an act is about keeps all it has. -/
theorem Backed.spares (hsrc : src.Honest) (hw : Backed w rs bins) {a : Act} (hp : a.Proper w)
    (hf : a.Fits) {q : Nat} (hq : (w.held q).isSome) (hne : q ≠ a.on) :
    Spared w (w.play src a) q := by
  cases a with
  | malloc bytes => exact hw.spared_malloc (malloc_spec hsrc hw.settled hw.counted hf) hq
  | calloc count each => exact hw.spared_malloc (calloc_spec hsrc hw.settled hw.counted hf) hq
  | realloc p bytes =>
    rcases hp.1 with rfl | hheld
    · have hm : Act.run src w.heap (.realloc 0 bytes) = w.heap.malloc src bytes := by
        simp [Act.run, Heap.realloc]
      simp only [World.play, ne_eq, not_true_eq_false, false_and, ↓reduceIte, hm]
      exact hw.spared_malloc (malloc_spec hsrc hw.settled hw.counted hf) hq
    · obtain ⟨n, hn⟩ := Option.isSome_iff_exists.1 hheld
      obtain ⟨x, c, hx, rfl, -⟩ := hw.block p n hn
      have hx0 : x + header ≠ 0 := by simp [header]
      by_cases h0 : bytes = 0
      · have hm : Act.run src w.heap (.realloc (x + header) 0) =
            (0, w.heap.free src (x + header)) := by
          simp only [Act.run, Heap.realloc, hx0, ↓reduceIte]
        subst h0
        simp only [World.play, ne_eq, hx0, not_false_eq_true, and_self, ↓reduceIte, hm]
        exact hw.spared_free (free_spec src hw.settled hw.counted hx) hq hne
      · simp only [World.play, h0, and_false, ↓reduceIte]
        exact hw.spared_realloc (realloc_spec hsrc hw.settled hw.counted hf h0 hx) hq hne
  | free p =>
    rcases hp with rfl | hheld
    · refine ⟨Function.update_of_ne hne _ _, rfl, fun _ _ => rfl⟩
    · obtain ⟨n, hn⟩ := Option.isSome_iff_exists.1 hheld
      obtain ⟨x, c, hx, rfl, -⟩ := hw.block p n hn
      exact hw.spared_free (free_spec src hw.settled hw.counted hx) hq hne
  | write p i v =>
    obtain ⟨n, hn, hi⟩ := hp
    obtain ⟨x, c, hx, rfl, -, honly⟩ := hw.write hn hi v
    obtain ⟨k, hk⟩ := Option.isSome_iff_exists.1 hq
    obtain ⟨y, d, hy, rfl, -⟩ := hw.block q k hk
    have hyx : y ≠ x := by
      rintro rfl
      exact hne rfl
    have hs' : Settled (w.play src (.write (x + header) i v)).heap rs bins :=
      hw.settled.payload hx honly
    exact hw.spared hs' hy hy (hw.settled.shape.payload_kept hx honly hy hyx) rfl

/-- What `realloc` leaves of the block it is about. -/
theorem Backed.realloc_leaves (hsrc : src.Honest) (hw : Backed w rs bins) {p n bytes : Nat}
    (hp : w.held p = some n) (hf : Sizable bytes) (h0 : bytes ≠ 0) :
    ∃ x c, p = x + header ∧ n + header ≤ c.size ∧
      ReallocLeaves w.heap rs x c bytes (w.heap.realloc src p bytes) := by
  obtain ⟨x, c, hx, rfl, hroom⟩ := hw.block p n hp
  exact ⟨x, c, rfl, hroom, realloc_spec hsrc hw.settled hw.counted hf h0 hx⟩

theorem Backed.careful (hsrc : src.Honest) (hw : Backed w rs bins) {a : Act} (hp : a.Proper w)
    (hf : a.Fits) : w.Careful src a := by
  refine ⟨fun q hq hne => hw.spares hsrc hp hf hq hne, ?_, ?_, ?_⟩
  · rintro p bytes n rfl hn hans i hi
    have h0 : bytes ≠ 0 := by omega
    obtain ⟨x, c, rfl, hroom, rs', bins', -, -, -, hall⟩ := hw.realloc_leaves hsrc hn hf h0
    simp only [World.play, h0, and_false, ↓reduceIte, World.took_heap]
    rcases hall with ⟨hnull, -⟩ | ⟨y, k, hy, -, hmoved⟩
    · exact absurd hnull hans
    · simp only [Act.run]
      rw [hy]
      apply hmoved.carried
      omega
  · rintro p bytes n rfl hn h0 hnull
    obtain ⟨x, c, rfl, hroom, rs', bins', -, -, -, hall⟩ := hw.realloc_leaves hsrc hn hf h0
    simp only [World.play, h0, and_false, ↓reduceIte, World.took_heap]
    simp only [Act.run] at hnull ⊢
    rcases hall with ⟨-, -, hmem⟩ | ⟨y, k, hy, -⟩
    · refine ⟨?_, hmem⟩
      unfold World.took
      rw [if_pos hnull]
      exact hn
    · rw [hnull] at hy
      simp [header] at hy
  · rintro p n rfl hn
    obtain ⟨x, c, hx, rfl, -⟩ := hw.block p n hn
    have hx0 : x + header ≠ 0 := by simp [header]
    have hm : Act.run src w.heap (.realloc (x + header) 0) =
        (0, w.heap.free src (x + header)) := by
      simp only [Act.run, Heap.realloc, hx0, ↓reduceIte]
    obtain ⟨rs', bins', -, hc', hfreed, -⟩ := free_spec src hw.settled hw.counted hx
    simp only [World.play, ne_eq, hx0, not_false_eq_true, and_self, ↓reduceIte, hm, World.gave]
    refine ⟨trivial, ?_⟩
    rw [hc'.liveBlocks, hw.counted.liveBlocks, hfreed.used.length_eq, List.length_cons]

end Sound

/-- Whatever a program does with its blocks, over whatever source, the heap is sound after every call,
and every call is careful with the program's bytes. -/
theorem heap_integrity {src : Source} (hsrc : src.Honest) {mem : Mem} {w : World}
    (hr : Reached src (fun _ a => a.Fits) mem w) :
    w.Sound ∧ ∀ a, a.Proper w → a.Fits → w.Careful src a := by
  obtain ⟨rs, bins, hw⟩ := hr.backed hsrc fun _ _ h => h
  exact ⟨hw.sound, fun a hp hf => hw.careful hsrc hp hf⟩

/-- A source of two mebibytes. -/
def oneRange : Source := .once regionBytes (2 * regionBytes)

theorem oneRange_honest : oneRange.Honest := Source.once_honest (by decide) (by decide)

/-- The first payload of the range. -/
def firstPayload : Nat := regionBytes + regionHeader + header

/-- Three blocks side by side; the middle one goes back, the first grows into its place, and then
moves to where there is more. -/
def threeBlocks : List Act :=
  [.malloc 100, .calloc 3 40, .malloc 50, .write firstPayload 5 7, .free (firstPayload + 128),
    .realloc firstPayload 200, .write (firstPayload + 272) 9 8, .realloc firstPayload 400]

theorem heap_integrity_threeBlocks :
    let w := threeBlocks.foldl (World.play oneRange) (.start blank)
    (w.held (firstPayload + 272) = some 50 ∧ w.held (firstPayload + 352) = some 400 ∧
      w.heap.mem (firstPayload + 352 + 5) = 7 ∧ w.heap.mem (firstPayload + 272 + 9) = 8 ∧
      w.heap.liveBlocks = 2 ∧ w.heap.lent = [(regionBytes, regionBytes)]) ∧
    w.Sound ∧ ∀ a, a.Proper w → a.Fits → w.Careful oneRange a := by
  have reached : Reached oneRange (fun _ a => a.Fits) blank
      (threeBlocks.foldl (World.play oneRange) (.start blank)) := .run .start (by decide +kernel)
  exact ⟨by decide +kernel, heap_integrity oneRange_honest reached⟩

/-! ## Asked for nothing in place of a block -/

/-- A request large enough for a region of its own is answered with the region's block. -/
theorem malloc_own_region (mem : Mem) :
    ((fresh mem).malloc oneRange 300000).1 = regionBytes + 48 ∧
      ((fresh mem).malloc oneRange 300000).2.lent = [(regionBytes, 300064)] ∧
      ((fresh mem).malloc oneRange 300000).2.liveBlocks = 1 := by
  have hwant : wantFor 300000 = some 300016 := by decide
  have hask : Heap.askFor 300016 true = 300064 := by decide
  have htake : oneRange.take (fresh mem).called (fresh mem).lent 300064 = regionBytes :=
    show oneRange.take 0 [] 300064 = regionBytes by decide
  have hlarge : largeBlock ≤ 300016 := by decide
  generalize hlaid : ({ fresh mem with called := 1, lent := [(regionBytes, 300064)] } :
    Heap).layRegion regionBytes 300064 true = h₁
  have hregion : (fresh mem).takeRegion oneRange 300016 true = (regionBytes, h₁) := by
    have h0 : regionBytes ≠ 0 := by decide
    simp only [Heap.takeRegion, hask, htake, h0, ↓reduceIte]
    rw [← hlaid]
    rfl
  have hmalloc : (fresh mem).malloc oneRange 300000 = h₁.handOut (regionBytes + regionHeader) := by
    have h0 : regionBytes ≠ 0 := by decide
    simp only [Heap.malloc, hwant, hlarge, ↓reduceIte, Heap.mallocLarge, hregion, h0]
  rw [hmalloc, ← hlaid]
  exact ⟨rfl, rfl, rfl⟩

theorem malloc_one :
    ((World.start blank).play oneRange (.malloc 300000)).heap =
        ((fresh blank).malloc oneRange 300000).2 ∧
      ((World.start blank).play oneRange (.malloc 300000)).held (regionBytes + 48) = some 300000 ∧
      ∃ rs bins, Backed ((World.start blank).play oneRange (.malloc 300000)) rs bins := by
  refine ⟨World.took_heap _ _ _ _, ?_, ?_⟩
  · simp only [World.play, World.took, Act.run, World.start, (malloc_own_region blank).1]
    simp
  · have proper : (Act.malloc 300000).Proper (World.start blank) :=
      show 300000 < sizeLimit by decide
    refine (Backed.start blank).step oneRange_honest proper ?_
    show Sizable 300000
    unfold Sizable
    decide

/-- Asked for nothing in place of a block, the allocator answers with none and frees the block. -/
theorem realloc_none_frees :
    ((World.start blank).play oneRange (.malloc 300000)).held (regionBytes + 48) = some 300000 ∧
      ((Act.realloc (regionBytes + 48) 0).run oneRange
        ((World.start blank).play oneRange (.malloc 300000)).heap).1 = 0 ∧
      (((World.start blank).play oneRange (.malloc 300000)).play oneRange
        (.realloc (regionBytes + 48) 0)).heap.liveBlocks = 0 := by
  obtain ⟨hheap, hheld, rs, bins, hw⟩ := malloc_one
  obtain ⟨-, -, hlive⟩ := malloc_own_region blank
  have hsz : (Act.realloc (regionBytes + 48) 0).Fits := show Sizable 0 by unfold Sizable; decide
  have hprop : (Act.realloc (regionBytes + 48) 0).Proper
      ((World.start blank).play oneRange (.malloc 300000)) :=
    ⟨.inr (by rw [hheld]; rfl), by decide⟩
  obtain ⟨hnull, hcount⟩ := (hw.careful oneRange_honest hprop hsz).emptied _ _ rfl hheld
  refine ⟨hheld, hnull, ?_⟩
  rw [hheap, hlive] at hcount
  omega

end ReconOS.Malloc
