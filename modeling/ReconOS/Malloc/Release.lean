import ReconOS.Malloc.Holds

/-! What giving a block back does: it is coalesced with its free neighbours, and goes on a list or
takes its region with it. -/
namespace ReconOS.Malloc

open Mem (Only)

/-! ## Coalescing -/

section Coalesce

variable {h : Heap} {R₁ R₂ : List Region} {r : Region} {bins : Nat → List Nat}
  {pre post : List Blk} {c : Blk}

/-- The region with a block freed and everything free around it taken in. -/
def Region.merged (r : Region) (pre : List Blk) (s : Nat) (post : List Blk) : Region :=
  { r with blocks := pre ++ ⟨s, false⟩ :: post }

/-- Which free blocks are still listed when those around a freed block are off their lists. -/
theorem merged_free_iff (hs : Settled h (R₁ ++ r :: R₂) bins) {es ds : List Blk}
    {bins' : Nat → List Nat} (hb : r.blocks = (pre ++ es) ++ c :: (ds ++ post))
    (hc : c.used = true)
    (hmem : ∀ k z, z ∈ bins' k ↔ (z ∈ bins k ∧
      ∀ d, (z, d) ∉ places (r.start + span (pre ++ es) + c.size) ds) ∧
      ∀ d, (z, d) ∉ places (r.start + span pre) es) (k z : Nat) :
    z ∈ bins' k ↔ ∃ b,
      (z, b) ∈ allPlaces (R₁ ++ r.merged pre (span es + (c.size + span ds)) post :: R₂) ∧
      b.used = false ∧ binOf b.size = k ∧ ¬z = r.start + span pre := by
  have hr : r ∈ R₁ ++ r :: R₂ := by simp
  have hok := hs.shape.ok r hr
  have hfence := hok.fence_top
  simp only [Region.fence, hb, span_append, span_cons] at hfence
  have hszc := (hok.sizes c (by rw [hb]; simp)).2
  simp only [minBlock] at hszc
  have hpos := hok.pos
  have hsplit : ∀ d, (z, d) ∈ r.places ↔ (z, d) ∈ places r.start pre ∨
      (z, d) ∈ places (r.start + span pre) es ∨ (z, d) = (r.start + span (pre ++ es), c) ∨
      (z, d) ∈ places (r.start + span (pre ++ es) + c.size) ds ∨
      (z, d) ∈ places (r.start + span (pre ++ es) + c.size + span ds) post := by
    intro d
    simp only [Region.places, hb, places_append, places, List.mem_append, List.mem_cons, or_assoc]
  have hsplit' : ∀ d, (z, d) ∈ (r.merged pre (span es + (c.size + span ds)) post).places ↔
      (z, d) ∈ places r.start pre ∨
      (z, d) = (r.start + span pre, (⟨span es + (c.size + span ds), false⟩ : Blk)) ∨
      (z, d) ∈ places (r.start + span (pre ++ es) + c.size + span ds) post := by
    intro d
    have haddr : r.start + span pre + (span es + (c.size + span ds)) =
        r.start + span (pre ++ es) + c.size + span ds := by
      rw [span_append]
      omega
    simp only [Region.places, Region.merged, Region.start, places_append, places, List.mem_append,
      List.mem_cons] at haddr ⊢
    rw [haddr]
  rw [hmem, hs.listed_iff]
  constructor
  · rintro ⟨⟨⟨d, hd, hdu, hk⟩, hds⟩, hes⟩
    refine ⟨d, ?_, hdu, hk, ?_⟩
    · rw [mem_allPlaces_mid, hsplit] at hd
      rw [mem_allPlaces_mid, hsplit']
      rcases hd with (hd | hd | hd | hd | hd) | hd
      · exact .inl (.inl hd)
      · exact absurd hd (hes d)
      · cases hd; rw [hc] at hdu; cases hdu
      · exact absurd hd (hds d)
      · exact .inl (.inr (.inr hd))
      · exact .inr hd
    · rintro rfl
      rw [mem_allPlaces_mid, hsplit] at hd
      rcases hd with (hd | hd | hd | hd | hd) | hd
      · have hge := mem_places_ge hd
        have := hpos d (by rw [hb]; simp [mem_places_blk hd])
        omega
      · exact hes d hd
      · obtain rfl : d = c := congrArg Prod.snd hd
        rw [hc] at hdu
        cases hdu
      · exact hds d hd
      · have hge := mem_places_ge hd
        simp only [span_append] at hge
        omega
      · have := hs.shape.others_place hd
        have hsz := (hs.shape.place (mem_allPlaces_mid.2 (.inr hd))).2.2.1
        simp only [Region.start, regionHeader, header, minBlock] at *
        omega
  · rintro ⟨d, hd, hdu, hk, hne⟩
    rw [mem_allPlaces_mid, hsplit'] at hd
    have hold : (z, d) ∈ allPlaces (R₁ ++ r :: R₂) := by
      rw [mem_allPlaces_mid, hsplit]
      rcases hd with (hd | hd | hd) | hd
      · exact .inl (.inl hd)
      · cases hd; exact absurd rfl hne
      · exact .inl (.inr (.inr (.inr (.inr hd))))
      · exact .inr hd
    have hout : z < r.start + span pre ∨
        r.start + span (pre ++ es) + c.size + span ds ≤ z := by
      rcases hd with (hd | hd | hd) | hd
      · have hge := mem_places_ge hd
        have := hpos d (by rw [hb]; simp [mem_places_blk hd])
        omega
      · cases hd; exact absurd rfl hne
      · exact .inr (mem_places_ge hd).1
      · have := hs.shape.others_place hd
        have hsz := (hs.shape.place hold).2.2.1
        simp only [span_append, Region.start, regionHeader, header, minBlock] at *
        omega
    refine ⟨⟨⟨d, hold, hdu, hk⟩, fun e he => ?_⟩, fun e he => ?_⟩
    · have hge := mem_places_ge he
      have := hpos e (by rw [hb]; simp [mem_places_blk he])
      simp only [span_append] at hge hout
      omega
    · have hge := mem_places_ge he
      have := hpos e (by rw [hb]; simp [mem_places_blk he])
      simp only [span_append] at hge hout
      omega

theorem Region.Ok.start_mod (ok : r.Ok) : r.start % align = 0 := by
  have := ok.aligned
  simp only [Region.start, regionHeader, align] at *
  omega

/-- A block just marked free: its tag and the one after it are as they should be, and neither is
among the links of the lists, which are as they were. -/
structure MarkedFree (h : Heap) (bins : Nat → List Nat) (b : Nat) (prev : Option Nat) (size : Nat)
    (post : List Blk) : Prop where
  aligned : b % align = 0
  tag : (Tag.mk b prev size false).In (h.clearUsed b).mem
  next : (firstTag (b + size) none post).In (h.clearUsed b).mem
  listed : Listed (h.clearUsed b) bins
  only : Only (fun y => y = b) h.mem (h.clearUsed b).mem
  clear : ClearOf bins b
  clearNext : ClearOf bins (b + size)

theorem Settled.markFree (hs : Settled h (R₁ ++ r :: R₂) bins) (hb : r.blocks = pre ++ c :: post)
    (hc : c.used = true) :
    MarkedFree h bins (r.start + span pre) (leftOf none pre) c.size post := by
  obtain ⟨⟨tag, clear⟩, next, clear'⟩ := hs.tags_at hb
  obtain ⟨aligned, mod, big, -, -⟩ := hs.places_mod hb
  rw [hc] at tag
  rw [show c.left = none by simp [Blk.left, hc]] at next
  generalize r.start + span pre = b at *
  have only : Only (fun y => y = b) h.mem (h.clearUsed b).mem :=
    Only.store _ _ _ rfl (by omega) (by omega)
  refine ⟨aligned, tag.clearUsed mod, ?_, ?_, only, clear, clear'⟩
  · apply next.frame only
    rintro y rfl
    rw [firstTag_at]
    simp only [minBlock] at big
    omega
  · apply hs.listed.frame only rfl
    rintro k x hx y rfl
    have := clear.apart hs.listed aligned ⟨k, x, hx, rfl⟩
    simp only [header] at this
    omega

/-- Of the free blocks after a freed one, those that are taken in. -/
theorem Settled.takeAfter (hs : Settled h (R₁ ++ r :: R₂) bins) (hb : r.blocks = pre ++ c :: post)
    {b : Nat} (hbdef : r.start + span pre = b)
    (marked : MarkedFree h bins b (leftOf none pre) c.size post) :
    ∃ ds post' bins', post = ds ++ post' ∧ (∀ d ∈ ds, d.used = false) ∧ Sealed post' ∧
      Merged (h.clearUsed b) ((h.clearUsed b).mergeAfter b) bins bins' b (places (b + c.size) ds) ∧
      (Tag.mk b (leftOf none pre) (c.size + span ds) false).In ((h.clearUsed b).mergeAfter b).mem := by
  have hr : r ∈ R₁ ++ r :: R₂ := by simp
  have hok := hs.shape.ok r hr
  have hsz := hok.sizes
  have htop := hok.top
  have hfence := hok.fence_top
  have hhdr : header = 16 := rfl
  have hpart := hs.parted r hr
  simp only [Region.fence, hb, span_append, span_cons, sizeLimit] at hfence htop
  rw [hb] at hsz hpart
  have hhead : ∀ d, post.head? = some d → d.used = false → b + c.size ∈ bins (binOf d.size) := by
    intro d hd hdu
    obtain ⟨post', rfl⟩ : ∃ post', post = d :: post' := by
      cases post with
      | nil => cases hd
      | cons e post' => cases hd; exact ⟨post', rfl⟩
    apply (hs.listed_iff _ _).2
    refine ⟨d, ?_, hdu, rfl⟩
    rw [mem_allPlaces_mid]
    left
    simp only [Region.places, hb, places_append, places, List.mem_append, List.mem_cons, hbdef]
    tauto
  exact mergeAfter_spec marked.listed marked.tag marked.aligned (hsz c (by simp)).1
    (fun d hd => hsz d (by simp [hd])) (by omega) ⟨none, marked.next⟩ hhead
    (parted_append.1 hpart).2.1.tail marked.clear marked.clearNext

/-- No link of a list is in the tags of the blocks up to a block in use. -/
theorem Settled.clear_upto (hs : Settled h (R₁ ++ r :: R₂) bins) (hb : r.blocks = pre ++ c :: post)
    {pre' : List Blk} (upto : pre' <+: pre) : ClearOf bins (r.start + span pre') := by
  obtain ⟨es, rfl⟩ := upto
  have hr : r ∈ R₁ ++ r :: R₂ := by simp
  cases es with
  | nil => exact (hs.tags_at (by simpa using hb)).1.2
  | cons e es =>
    apply (hs.region hr (t := ⟨r.start + span pre', leftOf none pre', e.size, e.used⟩) ?_).2
    rw [Region.tags_cut hb]
    simp [segTags_append, segTags]

/-- Of the free blocks before a freed one, those that are taken in; `ds` have been. -/
theorem Settled.takeBefore {ds : List Blk} {h₂ : Heap} {bins₂ : Nat → List Nat}
    (hs : Settled h (R₁ ++ r :: R₂) bins) (hb : r.blocks = pre ++ c :: (ds ++ post))
    (only : Only (fun y => y = r.start + span pre ∨ LinkSlot bins y) h.mem h₂.mem)
    (listed : Listed h₂ bins₂)
    (mem_iff : ∀ k z, z ∈ bins₂ k ↔
      z ∈ bins k ∧ ∀ d, (z, d) ∉ places (r.start + span pre + c.size) ds)
    (tag : (Tag.mk (r.start + span pre) (leftOf none pre) (c.size + span ds) false).In h₂.mem) :
    ∃ pre' es bins', pre = pre' ++ es ∧ (∀ e ∈ es, e.used = false) ∧ SealedEnd pre' ∧
      (h₂.mergeBefore (r.start + span pre)).1 = r.start + span pre' ∧
      Merged h₂ (h₂.mergeBefore (r.start + span pre)).2 bins₂ bins' (r.start + span pre')
        (places (r.start + span pre') es) ∧
      (Tag.mk (r.start + span pre') (leftOf none pre') (span es + (c.size + span ds)) false).In
        (h₂.mergeBefore (r.start + span pre)).2.mem := by
  have hr : r ∈ R₁ ++ r :: R₂ := by simp
  have hok := hs.shape.ok r hr
  have hsz := hok.sizes
  have htop := hok.top
  have hfence := hok.fence_top
  have hhdr : header = 16 := rfl
  have hpart := hs.parted r hr
  have hstart := hok.start_mod
  simp only [Region.fence, hb, span_append, span_cons, sizeLimit] at hfence htop
  rw [hb] at hsz hpart
  have hsmod : (c.size + span ds) % align = 0 := by
    have := (hsz c (by simp)).1
    have : span ds % align = 0 := span_mod fun e he => (hsz e (by simp [he])).1
    simp only [align] at *
    omega
  have htag : ∀ pre' e, pre = pre' ++ [e] →
      (Tag.mk (r.start + span pre') (leftOf none pre') e.size e.used).In h₂.mem := by
    intro pre' e heq
    have mem : Tag.mk (r.start + span pre') (leftOf none pre') e.size e.used ∈ r.tags := by
      rw [Region.tags_cut hb, heq]
      simp [segTags_append, segTags]
    apply (hs.region hr mem).1.frame only
    have hesz := (hsz e (by simp [heq])).2
    rintro y (heqy | hy)
    · rw [heqy, heq, span_append, span_cons, span_nil]
      simp only [minBlock] at hesz ⊢
      omega
    · apply ClearOf.apart (hs.clear_upto hb ⟨[e], heq.symm⟩) hs.listed ?_ hy
      have : span pre' % align = 0 := span_mod fun f hf => (hsz f (by simp [heq, hf])).1
      simp only [align] at *
      omega
  have hfree : ∀ pre' e, pre = pre' ++ [e] → e.used = false →
      r.start + span pre' ∈ bins₂ (binOf e.size) := by
    intro pre' e heq heu
    refine (mem_iff _ _).2 ⟨(hs.listed_iff _ _).2 ⟨e, ?_, heu, rfl⟩, fun d hd => ?_⟩
    · rw [mem_allPlaces_mid]
      left
      simp [Region.places, hb, heq, places]
    · have hge := (mem_places_ge hd).1
      have hesz := (hsz e (by simp [heq])).2
      rw [heq] at hge
      simp only [span_append, span_cons, span_nil, minBlock] at hge hesz
      omega
  have hends : ∀ pre' e, pre = pre' ++ [e] → e.used = false → SealedEnd pre' := by
    rintro pre' e rfl heu
    have hp := (parted_append.1 (parted_append.1 hpart).1).2.2
    rcases hp with hp | hp
    · exact hp
    · have := hp e rfl
      rw [heu] at this
      cases this
  refine mergeBefore_spec listed tag hstart hsmod (fun d hd => (hsz d (by simp [hd])).1) (by omega)
    htag hfree hends ?_
  intro pre' hpre k z hz
  exact hs.clear_upto hb hpre k z ((mem_iff k z).1 hz).1

section TakenIn

variable {es ds : List Blk} {h₃ : Heap} {bins' : Nat → List Nat} {x s : Nat}

/-- A freed block with the free blocks around it taken in, `s` bytes at `x`: its tag spans them all,
they are off the lists, and its footer is still to be written. -/
structure TakenIn (h h' : Heap) (r : Region) (bins bins' : Nat → List Nat) (pre es : List Blk)
    (c : Blk) (ds post : List Blk) (x s : Nat) : Prop where
  place : r.start + span pre = x
  spans : span es + (c.size + span ds) = s
  free : ∀ e ∈ es ++ ds, e.used = false
  sealedEnd : SealedEnd pre
  sealedNext : Sealed post
  tag : (Tag.mk x (leftOf none pre) s false).In h'.mem
  listed : Listed h' bins'
  mem_iff : ∀ k z, z ∈ bins' k ↔ (z ∈ bins k ∧
    ∀ d, (z, d) ∉ places (r.start + span (pre ++ es) + c.size) ds) ∧
    ∀ d, (z, d) ∉ places (r.start + span pre) es
  lists : OnlyLists h h'
  only : Only (fun y => y = x + span es ∨ y = x ∨ LinkSlot bins y) h.mem h'.mem

theorem Settled.takeIn (hs : Settled h (R₁ ++ r :: R₂) bins) (hb : r.blocks = pre ++ c :: post)
    (hc : c.used = true) {b : Nat} (hbdef : r.start + span pre = b) :
    ∃ pre' es ds post' bins' x s, pre = pre' ++ es ∧ post = ds ++ post' ∧
      (((h.clearUsed b).mergeAfter b).mergeBefore b).1 = x ∧
      TakenIn h (((h.clearUsed b).mergeAfter b).mergeBefore b).2 r bins bins' pre' es c ds post'
        x s := by
  subst hbdef
  have marked := hs.markFree hb hc
  obtain ⟨ds, post', bins₂, rfl, hds, hsealed, after, tag⟩ := hs.takeAfter hb rfl marked
  have only := (marked.only.mono fun y hy => .inl hy).trans after.only
  have gone : ∀ k z, z ∈ bins₂ k → z ∈ bins k := fun k z hz => ((after.mem_iff k z).1 hz).1
  obtain ⟨pre', es, bins₃, rfl, hes, hend, hx, before, tag'⟩ :=
    hs.takeBefore hb only after.listed after.mem_iff tag
  refine ⟨pre', es, ds, post', bins₃, _, _, rfl, rfl, hx, rfl, rfl, ?_, hend, hsealed, tag',
    before.listed, ?_, ?_, ?_⟩
  · intro e he
    rcases List.mem_append.1 he with he | he
    · exact hes e he
    · exact hds e he
  · intro k z
    rw [before.mem_iff, after.mem_iff]
  · exact ((OnlyLists.store h _ _).trans after.rest).trans before.rest
  · apply (only.mono ?_).trans (before.only.mono ?_)
    · rintro y (hy | hy)
      · exact .inl (by rw [hy, span_append, Nat.add_assoc])
      · exact .inr (.inr hy)
    · rintro y (hy | ⟨k, z, hz, hy⟩)
      · exact .inr (.inl hy)
      · exact .inr (.inr ⟨k, z, gone k z hz, hy⟩)

/-- The footer of a block of `s` bytes, and the flag of the block after it. -/
def Heap.footed (h : Heap) (x s : Nat) : Heap := (h.store (x + s) s).clearPrevUsed (x + s)

theorem footed_only : Only (fun y => y = x + s) h₃.mem (h₃.footed x s).mem :=
  have footer : Only (fun y => y = x + s) h₃.mem (h₃.store (x + s) s).mem :=
    Only.store _ _ _ rfl (by omega) (by omega)
  footer.trans (Only.store _ _ _ rfl (by omega) (by omega))

theorem footed_lists : OnlyLists h₃ (h₃.footed x s) := (OnlyLists.store _ _ _).trans (.store _ _ _)

/-- What `coalesce` does last. -/
theorem footed_eq {prev : Option Nat} (tag : (Tag.mk x prev s false).In h₃.mem) (mod : s % align = 0)
    (big : 16 ≤ s) :
    (h₃.writeFooter x).clearPrevUsed ((h₃.writeFooter x).nextBlock x) = h₃.footed x s := by
  have size : h₃.sizeOf x = s := tag.size mod
  have word : (h₃.mem.store (x + s) s).load (x + 8) = h₃.mem.load (x + 8) :=
    Mem.load_store_ne (by omega)
  have size' : (h₃.store (x + s) s).sizeOf x = s := by
    rw [Heap.sizeOf, Heap.head, Heap.load, Heap.store, word]
    exact size
  simp only [Heap.footed, Heap.writeFooter, Heap.nextBlock, size, size']

variable (taken : TakenIn h h₃ r bins bins' pre es c ds post x s)
  (hs : Settled h (R₁ ++ r :: R₂) bins) (hb : r.blocks = pre ++ es ++ c :: (ds ++ post))
  (hc : c.used = true)

include taken

/-- What is written with the footer lies in the blocks taken in, or among the links. -/
theorem TakenIn.within :
    Only (fun y => (x ≤ y ∧ y ≤ x + s) ∨ LinkSlot bins y) h.mem (h₃.footed x s).mem := by
  have spans := taken.spans
  apply (taken.only.mono ?_).trans (footed_only.mono ?_)
  · rintro y (rfl | rfl | hy)
    · left; omega
    · left; omega
    · exact .inr hy
  · rintro y rfl
    left; omega

theorem TakenIn.parted (hpart : Parted (pre ++ es ++ c :: (ds ++ post))) :
    Parted (pre ++ ⟨s, false⟩ :: post) := by
  have hp := parted_append.1 hpart
  apply parted_append.2
  refine ⟨(parted_append.1 hp.1).1, ?_, .inl taken.sealedEnd⟩
  cases post with
  | nil => trivial
  | cons d post => exact ⟨.inr (taken.sealedNext d rfl), (parted_append.1 hp.2.1.tail).2.1⟩

include hs hb

/-- The blocks taken in are aligned and lie in the region. -/
theorem TakenIn.inside :
    x % align = 0 ∧ s % align = 0 ∧ span es + 32 ≤ s ∧ r.start ≤ x ∧ x + s ≤ r.fence ∧
      s < sizeLimit := by
  have ok := hs.shape.ok r (by simp)
  have hstart := ok.start_mod
  have hsz := ok.sizes
  have htop := ok.top
  have hfence := ok.fence_top
  rw [hb] at hsz
  have mod : ∀ l : List Blk, (∀ e ∈ l, e ∈ pre ++ es ++ c :: (ds ++ post)) → span l % align = 0 :=
    fun l hl => span_mod fun e he => (hsz e (hl e he)).1
  have hpre := mod pre fun e he => by simp [he]
  have hes := mod es fun e he => by simp [he]
  have hds := mod ds fun e he => by simp [he]
  have hc := hsz c (by simp)
  simp only [Region.fence, hb, span_append, span_cons] at hfence ⊢
  simp only [← taken.place, ← taken.spans, align, header, minBlock] at *
  omega

include hc

/-- The tag after the blocks taken in is still as it was. -/
theorem TakenIn.next :
    (firstTag (x + s) (leftOf none ds) post).In h₃.mem ∧ ClearOf bins (x + s) := by
  have hr : r ∈ R₁ ++ r :: R₂ := by simp
  obtain ⟨hx, hsmod, big, -, -, -⟩ := taken.inside hs hb
  have after : firstTag (x + s) (leftOf none ds) post ∈ r.tags := by
    have hsum : r.start + span (pre ++ es) + c.size + span ds = x + s := by
      rw [span_append, ← taken.place, ← taken.spans]
      omega
    rw [Region.tags_cut hb, tags_append, tags_first _ _ post, hsum,
      show c.left = none by simp [Blk.left, hc]]
    simp
  obtain ⟨tag, clear⟩ := hs.region hr after
  rw [firstTag_at] at clear
  have hxs : (x + s) % align = 0 := by
    simp only [align] at *
    omega
  refine ⟨tag.frame taken.only ?_, clear⟩
  rw [firstTag_at]
  rintro y (rfl | rfl | hy)
  · omega
  · omega
  · exact ClearOf.apart clear hs.listed hxs hy

/-- The tags of the blocks taken in and of the one after them, with the footer written. -/
theorem TakenIn.tagged :
    (Tag.mk x (leftOf none pre) s false).In (h₃.footed x s).mem ∧
      (firstTag (x + s) (leftOf (leftOf none pre) [(⟨s, false⟩ : Blk)]) post).In
        (h₃.footed x s).mem := by
  have hok := hs.shape.ok r (by simp)
  obtain ⟨-, -, big, -, -, small⟩ := taken.inside hs hb
  constructor
  · apply taken.tag.frame footed_only
    rintro y rfl
    right
    exact Nat.add_le_add_left (show 16 ≤ s by omega) x
  · have hasz : (firstTag (x + s) (leftOf none ds) post).size % align = 0 := by
      cases post with
      | nil => rfl
      | cons d post => exact (hok.sizes d (by simp [hb])).1
    have flagged := (taken.next hs hb hc).1.clearPrevUsed hasz small
    rw [firstTag_at] at flagged
    cases post with
    | nil => exact flagged
    | cons => exact flagged

/-- The region with the blocks around the freed one merged into one, which is on no list yet. -/
theorem TakenIn.holds :
    Holds (h₃.footed x s) (R₁ ++ r.merged pre s post :: R₂) bins' (fun y => y = x) := by
  obtain ⟨hx, hsmod, big, low, high, -⟩ := taken.inside hs hb
  obtain ⟨tag, flagged⟩ := taken.tagged hs hb hc
  have hmid : span (es ++ c :: ds) = s := by
    rw [← taken.spans, span_append, span_cons]
  have hblocks : r.blocks = pre ++ (es ++ c :: ds) ++ post := by
    rw [hb]
    simp
  have hspan : span [(⟨s, false⟩ : Blk)] = span (es ++ c :: ds) := by simp [hmid]
  have hmerged : r.merged pre s post = { r with blocks := pre ++ [(⟨s, false⟩ : Blk)] ++ post } := by
    simp [Region.merged]
  have hsizes : ∀ d ∈ [(⟨s, false⟩ : Blk)], d.size % align = 0 ∧ minBlock ≤ d.size := by
    intro d hd
    rw [List.mem_singleton.1 hd]
    exact ⟨hsmod, Nat.le_of_add_left_le big⟩
  refine ⟨?_, ?_, ?_, ?_, ?_⟩
  · rw [hmerged]
    exact hs.shape.retile hblocks hspan hsizes
  · apply (hs.chained_frame taken.within (taken.lists.trans footed_lists).regions ?_).same
    · simp [Region.merged]
    · rintro y (hy | hy)
      · left
        omega
      · exact .inr hy
  · rw [hmerged]
    apply Tagged.retile hs.shape hs.tagged hblocks hspan taken.within
    · rintro y (hy | hy)
      · left
        rwa [hmid, taken.place]
      · obtain ⟨z, d, hz, -, rfl⟩ := hs.linkSlot hy
        exact .inr ⟨(z, d), hz, rfl⟩
    · intro t ht
      rw [segTags, segTags, List.mem_singleton, taken.place] at ht
      rw [ht]
      exact tag
    · rw [hmid, taken.place]
      exact flagged
  · apply taken.listed.frame footed_only rfl
    rintro k z hz y rfl
    have hxs : (x + s) % align = 0 := by
      simp only [align] at *
      omega
    have := (taken.next hs hb hc).2.apart hs.listed hxs ⟨k, z, ((taken.mem_iff k z).1 hz).1.1, rfl⟩
    simp only [header] at this
    omega
  · rw [← taken.place, ← taken.spans]
    exact merged_free_iff hs hb hc taken.mem_iff

end TakenIn

/-- The heap with a freed block and the free blocks around it made one, `s` bytes at `x`, which is on
no list yet. -/
structure Coalesced (h h' : Heap) (R₁ R₂ : List Region) (r : Region) (bins bins' : Nat → List Nat)
    (pre es : List Blk) (c : Blk) (ds post : List Blk) (x s : Nat) : Prop where
  place : r.start + span pre = x
  spans : span es + (c.size + span ds) = s
  free : ∀ e ∈ es ++ ds, e.used = false
  holds : Holds h' (R₁ ++ r.merged pre s post :: R₂) bins' (fun y => y = x)
  parted : Parted (pre ++ ⟨s, false⟩ :: post)
  lists : OnlyLists h h'
  only : Only (fun y => (x ≤ y ∧ y ≤ x + s) ∨ LinkSlot bins y) h.mem h'.mem

theorem coalesce_spec (hs : Settled h (R₁ ++ r :: R₂) bins) (hb : r.blocks = pre ++ c :: post)
    (hc : c.used = true) {b : Nat} (hbdef : r.start + span pre = b) :
    ∃ pre' es ds post' bins' s, pre = pre' ++ es ∧ post = ds ++ post' ∧
      Coalesced h (h.coalesce b).2 R₁ R₂ r bins bins' pre' es c ds post' (h.coalesce b).1 s := by
  obtain ⟨pre', es, ds, post', bins', x, s, rfl, rfl, hx, taken⟩ := hs.takeIn hb hc hbdef
  have hr : r ∈ R₁ ++ r :: R₂ := by simp
  obtain ⟨-, hsmod, big, -⟩ := taken.inside hs hb
  have footed := footed_eq taken.tag hsmod (by omega)
  refine ⟨pre', es, ds, post', bins', s, rfl, rfl, ?_⟩
  subst hx
  unfold Heap.coalesce
  dsimp only
  rw [footed]
  exact ⟨taken.place, taken.spans, taken.free, taken.holds hs hb hc,
    taken.parted (hb ▸ hs.parted r hr), taken.lists.trans footed_lists, taken.within⟩

end Coalesce

/-! ## Regions dropped -/

section Drop

variable {h : Heap} {R₁ R₂ : List Region} {r : Region} {bins : Nat → List Nat} {off : Nat → Prop}

/-- What dropping a region changes besides memory. -/
structure Dropped (h h' : Heap) (bytes : Nat) : Prop where
  liveBytes : h'.liveBytes = h.liveBytes
  liveBlocks : h'.liveBlocks = h.liveBlocks
  takenBytes : h'.takenBytes = h.takenBytes - bytes
  regionCount : h'.regionCount = h.regionCount - 1
  takes : h'.takes = h.takes

theorem giveBack_same (src : Source) (r bytes : Nat) (h : Heap) :
    (h.giveBack src r bytes).mem = h.mem ∧ (h.giveBack src r bytes).bins = h.bins ∧
      (h.giveBack src r bytes).regions = h.regions ∧
      Dropped { h with takenBytes := h.takenBytes, regionCount := h.regionCount + 1 }
        (h.giveBack src r bytes) 0 ∧
      ∀ p ∈ h.lent, p ≠ (r, bytes) → p ∈ (h.giveBack src r bytes).lent := by
  unfold Heap.giveBack
  cases src.giveBack with
  | none => exact ⟨rfl, rfl, rfl, ⟨rfl, rfl, rfl, rfl, rfl⟩, fun p hp _ => hp⟩
  | some back =>
    simp only
    split
    · exact ⟨rfl, rfl, rfl, ⟨rfl, rfl, rfl, rfl, rfl⟩,
        fun p hp hne => (List.mem_erase_of_ne hne).2 hp⟩
    · exact ⟨rfl, rfl, rfl, ⟨rfl, rfl, rfl, rfl, rfl⟩, fun p hp _ => hp⟩

/-- A region none of whose blocks is listed leaves the list, and everything else as it was. -/
theorem Holds.drop (src : Source) (hs : Holds h (R₁ ++ r :: R₂) bins off)
    (hfree : ∀ x d, (x, d) ∈ r.places → d.used = false → off x) :
    Holds (h.dropRegion src r.addr) (R₁ ++ R₂) bins off ∧
      Only (fun y => ∃ s ∈ R₁ ++ R₂, y = s.addr) h.mem (h.dropRegion src r.addr).mem ∧
      Dropped h (h.dropRegion src r.addr) r.bytes ∧
      ∀ s ∈ R₁ ++ R₂, (s.addr, s.bytes) ∈ h.lent →
        (s.addr, s.bytes) ∈ (h.dropRegion src r.addr).lent := by
  have hr : r ∈ R₁ ++ r :: R₂ := by simp
  have hsub : ∀ s ∈ R₁ ++ R₂, s ∈ R₁ ++ r :: R₂ := by
    intro s hs
    simp only [List.mem_append, List.mem_cons] at hs ⊢
    tauto
  have hn := hs.shape.nodes
  have hlinks := hs.chained.links
  rw [List.map_append, List.map_cons] at hn hlinks
  obtain ⟨hout, honly⟩ := hlinks.unlink hn
  rw [← List.map_append] at hout honly
  have honly' : Only (fun y => ∃ s ∈ R₁ ++ R₂, y = s.addr) h.mem
      (h.mem.unlink 0 h.regions r.addr).1 := by
    apply honly.mono
    rintro y ⟨x, hx, rfl⟩
    obtain ⟨s, hs, rfl⟩ := List.mem_map.1 hx
    exact ⟨s, hs, rfl⟩
  -- The second half of every header, this region's included, is out of reach of the unlinking.
  have hsecond : ∀ s ∈ R₁ ++ r :: R₂, ∀ k, k ≤ 8 →
      (h.mem.unlink 0 h.regions r.addr).1.load (s.addr + 16 + k) = h.mem.load (s.addr + 16 + k) := by
    intro s hsm k hk
    apply honly'.load
    rintro y ⟨q, hq, rfl⟩
    by_cases heq : q = s
    · subst heq
      omega
    · have := hs.shape.region_apart (hsub q hq) hsm heq
      have := (hs.shape.ok q (hsub q hq)).full
      have := (hs.shape.ok s hsm).full
      simp only [regionHeader, header] at *
      omega
  have hbytes : (h.mem.unlink 0 h.regions r.addr).1.load (r.addr + 16) = r.bytes :=
    (hsecond r hr 0 (by omega)).trans (hs.chained.bytes r hr)
  have hdrop : h.dropRegion src r.addr = Heap.giveBack src r.addr r.bytes
      { h with
        mem := (h.mem.unlink 0 h.regions r.addr).1
        regions := (h.mem.unlink 0 h.regions r.addr).2
        takenBytes := h.takenBytes - r.bytes
        regionCount := h.regionCount - 1 } := by
    simp only [Heap.dropRegion, Heap.bytesOf, Heap.load, hbytes]
  obtain ⟨hmem, hbins, hregs, hbooks, hlent⟩ := giveBack_same src r.addr r.bytes
    { h with
      mem := (h.mem.unlink 0 h.regions r.addr).1
      regions := (h.mem.unlink 0 h.regions r.addr).2
      takenBytes := h.takenBytes - r.bytes
      regionCount := h.regionCount - 1 }
  rw [← hdrop] at hmem hbins hregs hbooks hlent
  have hdropped : Only (fun y => ∃ s ∈ R₁ ++ R₂, y = s.addr) h.mem (h.dropRegion src r.addr).mem := by
    rw [hmem]
    exact honly'
  have hshape : Shape (R₁ ++ R₂) := by
    refine ⟨hs.shape.apart.sublist ?_, fun s hsm => hs.shape.ok s (hsub s hsm)⟩
    exact (List.Sublist.refl R₁).append (List.sublist_cons_self r R₂)
  refine ⟨⟨hshape, ⟨?_, fun s hsm => ?_, fun s hsm => ?_⟩, fun s hsm t ht => ?_, ?_, fun k x => ?_⟩,
    hdropped, ⟨hbooks.1, hbooks.2, hbooks.3, hbooks.4, hbooks.5⟩, fun s hsm hl => ?_⟩
  · rw [hmem, hregs]
    exact hout
  · rw [Heap.bytesOf, Heap.load, hmem]
    exact (hsecond s (hsub s hsm) 0 (by omega)).trans (hs.chained.bytes s (hsub s hsm))
  · have hw := hs.chained.whole s (hsub s hsm)
    unfold Heap.wholeOf Heap.load at hw ⊢
    rw [hmem, ← hw]
    have := hsecond s (hsub s hsm) 8 (by omega)
    rw [Nat.add_assoc] at this
    rw [this]
  · rw [hmem]
    apply (hs.tagged s (hsub s hsm) t ht).frame honly'
    rintro y ⟨q, hq, rfl⟩
    have := hs.shape.header_tag (hsub q hq) (hsub s hsm) ht
    simp only [regionHeader, header] at this
    omega
  · apply hs.listed.frame hdropped hbins
    rintro k x hx y ⟨q, hq, rfl⟩
    obtain ⟨d, hd⟩ := hs.place_of_mem k x hx
    have := hs.shape.header_apart (hsub q hq) hd
    have := (hs.shape.place hd).2.2.1
    simp only [regionHeader, minBlock] at *
    omega
  · rw [hs.free_iff]
    constructor
    · rintro ⟨d, hd, hdu, hk, hno⟩
      rcases mem_allPlaces_mid.1 hd with hd | hd
      · exact absurd (hfree x d hd hdu) hno
      · exact ⟨d, hd, hdu, hk, hno⟩
    · rintro ⟨d, hd, hdu, hk, hno⟩
      exact ⟨d, mem_allPlaces_mid.2 (.inr hd), hdu, hk, hno⟩
  · apply hlent _ hl
    intro heq
    have := hs.shape.others_apart hsm
    have := (hs.shape.ok r hr).full
    have := (hs.shape.ok s (hsub s hsm)).full
    simp only [Prod.mk.injEq, regionHeader, header] at *
    omega

end Drop

/-! ## Blocks given back -/

/-- What giving back the block `c` at `b` does: the other blocks in use stay, with their bytes. -/
structure Freed (h h' : Heap) (rs rs' : List Region) (b : Nat) (c : Blk) : Prop where
  used : (usedPlaces rs).Perm ((b, c) :: usedPlaces rs')
  kept : ∀ x d, (x, d) ∈ usedPlaces rs' → KeptAt h.mem h'.mem x d.size

/-- The same regions, and the same account of them. -/
structure SameRegions (h h' : Heap) (rs rs' : List Region) : Prop where
  regions : rs'.map (fun r => (r.addr, r.bytes)) = rs.map fun r => (r.addr, r.bytes)
  regionCount : h'.regionCount = h.regionCount
  takenBytes : h'.takenBytes = h.takenBytes

section Release

variable {h : Heap} {R₁ R₂ : List Region} {r : Region} {bins : Nat → List Nat}
  {pre post : List Blk} {c : Blk}

theorem OnlyLists.books {h h' : Heap} (p : OnlyLists h h') :
    h'.liveBytes = h.liveBytes ∧ h'.liveBlocks = h.liveBlocks ∧ h'.takes = h.takes ∧
      h'.regionCount = h.regionCount ∧ h'.takenBytes = h.takenBytes ∧ h'.lent = h.lent := by
  rw [show h' = _ from p]
  exact ⟨rfl, rfl, rfl, rfl, rfl, rfl⟩

/-- What giving back the block `c` at `b` comes to, where `rest` are the other blocks of its region:
the region stays exactly where one of them is in use. -/
structure Released (h h' : Heap) (R₁ R₂ : List Region) (r : Region) (b : Nat) (c : Blk)
    (rest : List Blk) (rs' : List Region) (bins' : Nat → List Nat) : Prop where
  settled : Settled h' rs' bins'
  freed : Freed h h' (R₁ ++ r :: R₂) rs' b c
  liveBytes : h'.liveBytes = h.liveBytes
  liveBlocks : h'.liveBlocks = h.liveBlocks
  takes : h'.takes = h.takes
  only : Only (Inside (R₁ ++ r :: R₂)) h.mem h'.mem
  which : ((∃ d ∈ rest, d.used = true) ∧ SameRegions h h' (R₁ ++ r :: R₂) rs') ∨
    ((∀ d ∈ rest, d.used = false) ∧ rs' = R₁ ++ R₂ ∧ Dropped h h' r.bytes)

section Coalesced

variable {es ds : List Blk} {h₁ : Heap} {bins₁ : Nat → List Nat} {x s : Nat}

theorem mem_without {q : Region} (mem : q ∈ R₁ ++ R₂) : q ∈ R₁ ++ r :: R₂ := by
  simp only [List.mem_append, List.mem_cons] at mem ⊢
  tauto

/-- The blocks of a region that are in use besides the one given back. -/
def usedBeside (r : Region) (pre : List Blk) (s : Nat) (post : List Blk) : List (Nat × Blk) :=
  (places r.start pre).filter (fun p => p.2.used) ++
    (places (r.start + span pre + s) post).filter fun p => p.2.used

variable (made : Coalesced h h₁ R₁ R₂ r bins bins₁ pre es c ds post x s)
  (hs : Settled h (R₁ ++ r :: R₂) bins) (hb : r.blocks = pre ++ es ++ c :: (ds ++ post))
  (hc : c.used = true)

include made

theorem Coalesced.mem_places :
    (x, (⟨s, false⟩ : Blk)) ∈ allPlaces (R₁ ++ r.merged pre s post :: R₂) := by
  rw [← made.place]
  exact mem_allPlaces_cut (r := r.merged pre s post) rfl

include hb hc in
/-- The blocks in use: the one given back, those before and after it, those of other regions. -/
theorem Coalesced.used :
    (usedPlaces (R₁ ++ r :: R₂)).Perm
      ((r.start + span (pre ++ es), c) :: (usedBeside r pre s post ++ usedPlaces (R₁ ++ R₂))) := by
  apply usedPlaces_mid.trans
  have hes : (places (r.start + span pre) es).filter (fun p => p.2.used) = [] :=
    places_free fun e he => made.free e (List.mem_append_left _ he)
  have hds : (places (r.start + span (pre ++ es) + c.size) ds).filter (fun p => p.2.used) = [] :=
    places_free fun e he => made.free e (List.mem_append_right _ he)
  have haddr : r.start + span (pre ++ es) + c.size + span ds = r.start + span pre + s := by
    rw [span_append, ← made.spans]
    omega
  rw [usedBeside, Region.places, hb, places_append, places_append, places, places_append,
    List.filter_append, List.filter_append, filter_used_cons hc, List.filter_append,
    hes, hds, haddr, List.append_nil, List.nil_append, List.append_assoc, List.cons_append]
  rw [List.append_assoc]
  exact List.perm_middle

include hs hb

theorem Coalesced.inside :
    regionHeader + (span pre + (s + span post)) + header = r.bytes ∧
      Only (Inside (R₁ ++ r :: R₂)) h.mem h₁.mem := by
  have hr : r ∈ R₁ ++ r :: R₂ := by simp
  have hx := made.place
  have hspan := made.spans
  have hfull := (hs.shape.ok r hr).full
  rw [hb] at hfull
  simp only [span_append, span_cons] at hfull
  constructor
  · omega
  · apply made.only.mono
    rintro y (hy | hy)
    · apply hs.shape.inside hr
      have := (hs.shape.ok r hr).fence_top
      simp only [Region.start, regionHeader, header] at *
      omega
    · exact hs.inside_link hy

include hc

/-- They keep their bytes. -/
theorem Coalesced.kept {z : Nat} {d : Blk}
    (hz : (z, d) ∈ usedBeside r pre s post ++ usedPlaces (R₁ ++ R₂)) :
    KeptAt h.mem h₁.mem z d.size := by
  have hold : (z, d) ∈ usedPlaces (R₁ ++ r :: R₂) :=
    (made.used hb hc).mem_iff.2 (List.mem_cons_of_mem _ hz)
  apply hs.kept made.only hold
  have hx := made.place
  have hspan := made.spans
  have hfull := (hs.shape.ok r (by simp)).full
  rw [hb] at hfull
  simp only [span_append, span_cons] at hfull
  rw [usedBeside, List.mem_append, List.mem_append, List.mem_filter, List.mem_filter] at hz
  rcases hz with (⟨hz, -⟩ | ⟨hz, -⟩) | hz
  · have := mem_places_ge hz
    omega
  · have := mem_places_ge hz
    omega
  · have := hs.shape.others_place (mem_usedPlaces.1 hz).1
    simp only [Region.start, regionHeader, header] at *
    omega

/-- Nothing of the region is in use any more: it goes. -/
theorem Coalesced.drop (src : Source) (all : s + regionHeader + header = r.bytes) :
    Released h (h₁.dropRegion src r.addr) R₁ R₂ r (r.start + span (pre ++ es)) c
      ((pre ++ es) ++ (ds ++ post)) (R₁ ++ R₂) bins₁ := by
  have hok := hs.shape.ok r (by simp)
  obtain ⟨hspan, hinside⟩ := made.inside hs hb
  obtain ⟨hlb, hlk, htk, hrc, htb, hlent⟩ := made.lists.books
  have hpos : ∀ d ∈ pre ++ post, 0 < d.size := by
    intro d hd
    apply hok.pos
    rw [hb]
    simp only [List.mem_append, List.mem_cons] at hd ⊢
    tauto
  obtain rfl : pre = [] := by
    cases pre with
    | nil => rfl
    | cons d pre =>
      have := hpos d (by simp)
      simp only [span_cons] at hspan
      omega
  obtain rfl : post = [] := by
    cases post with
    | nil => rfl
    | cons d post =>
      have := hpos d (by simp)
      simp only [span_cons] at hspan
      omega
  obtain ⟨hdrop, honly', hbooks, hlent'⟩ := made.holds.drop src (by
    intro z d hz hd
    have hz' : (z, d) = (r.start, (⟨s, false⟩ : Blk)) := by
      simpa [Region.places, Region.merged, Region.start, places] using hz
    simpa [← made.place] using congrArg Prod.fst hz')
  refine ⟨⟨⟨hdrop.shape, hdrop.chained, hdrop.tagged, hdrop.listed, ?_⟩,
    fun q hq => hs.parted q (mem_without hq), fun q hq => hs.inUse q (mem_without hq),
    fun q hq => hs.alone q (mem_without hq), fun q hq => ?_⟩, ⟨?_, ?_⟩,
    hbooks.liveBytes.trans hlb, hbooks.liveBlocks.trans hlk, hbooks.takes.trans htk,
    hinside.trans (honly'.mono fun y hy => ?_), .inr ⟨?_, rfl,
      ⟨hbooks.liveBytes.trans hlb, hbooks.liveBlocks.trans hlk, ?_, ?_,
        hbooks.takes.trans htk⟩⟩⟩
  · intro k z
    rw [hdrop.free_iff]
    constructor
    · rintro ⟨d, hd, hdu, hk, -⟩
      exact ⟨d, hd, hdu, hk, id⟩
    · rintro ⟨d, hd, hdu, hk, -⟩
      refine ⟨d, hd, hdu, hk, ?_⟩
      have := hs.shape.others_place hd
      have hpl := (hdrop.shape.place hd).2.2.1
      have := made.place
      simp only [span_nil, Region.start, regionHeader, header, minBlock] at *
      omega
  · apply hlent' q hq
    rw [hlent]
    exact hs.lent q (mem_without hq)
  · simpa [usedBeside, places] using made.used hb hc
  · intro z d hz
    apply (made.kept hs hb hc (by simpa [usedBeside, places] using hz)).trans
    intro i hi hi'
    apply honly'
    rintro y ⟨q, hq, rfl⟩
    have := hdrop.shape.header_apart hq (mem_usedPlaces.1 hz).1
    simp only [regionHeader, header] at *
    omega
  · obtain ⟨q, hq, rfl⟩ := hy
    exact hs.shape.inside_header (mem_without hq)
  · intro d hd
    apply made.free d
    simpa using hd
  · rw [← htb]
    exact hbooks.takenBytes
  · rw [← hrc]
    exact hbooks.regionCount

/-- Something of the region is in use: the block goes on the list of its size. -/
theorem Coalesced.list (hw : r.whole = false) (some_ : s + regionHeader + header ≠ r.bytes) :
    ∃ bins', Released h (h₁.binInsert x) R₁ R₂ r (r.start + span (pre ++ es)) c
      ((pre ++ es) ++ (ds ++ post)) (R₁ ++ r.merged pre s post :: R₂) bins' := by
  obtain ⟨hspan, hinside⟩ := made.inside hs hb
  obtain ⟨hlb, hlk, htk, hrc, htb, hlent⟩ := made.lists.books
  have hxplace := made.mem_places
  obtain ⟨bins', hins, -, honly'⟩ := made.holds.insert hxplace rfl rfl
  have hsome : ∃ d ∈ pre ++ post, d.used = true := by
    have hp := parted_append.1 made.parted
    rcases List.eq_nil_or_concat' pre with rfl | ⟨q, d, rfl⟩
    · cases post with
      | nil =>
        simp only [span_nil] at hspan
        omega
      | cons d post =>
        refine ⟨d, by simp, ?_⟩
        rcases hp.2.1.1 with hd | hd
        · cases hd
        · exact hd
    · refine ⟨d, by simp, ?_⟩
      rcases hp.2.2 with hd | hd
      · exact hd d (by simp)
      · cases hd ⟨s, false⟩ rfl
  have hmem : ∀ q ∈ R₁ ++ r.merged pre s post :: R₂, q = r.merged pre s post ∨ q ∈ R₁ ++ R₂ := by
    intro q hq
    simp only [List.mem_append, List.mem_cons] at hq ⊢
    tauto
  have hlent₁ : (h₁.binInsert x).lent = h.lent := hlent
  refine ⟨bins', ⟨⟨hins.shape, hins.chained, hins.tagged,
    hins.listed, fun k z => ?_⟩, fun q hq => ?_, fun q hq => ?_, fun q hq => ?_, fun q hq => ?_⟩,
    ⟨?_, fun z d hz => ?_⟩, hlb, hlk, htk, hinside.trans (honly'.mono fun y hy => ?_),
    .inl ⟨?_, ?_, hrc, htb⟩⟩
  · rw [hins.free_iff]
    simp only [ne_eq, and_not_self_iff]
  · rcases hmem q hq with rfl | hq
    · exact made.parted
    · exact hs.parted q (mem_without hq)
  · rcases hmem q hq with rfl | hq
    · obtain ⟨d, hd, hdu⟩ := hsome
      refine ⟨d, ?_, hdu⟩
      simp only [Region.merged, List.mem_append, List.mem_cons] at hd ⊢
      tauto
    · exact hs.inUse q (mem_without hq)
  · rcases hmem q hq with rfl | hq
    · intro hwhole
      rw [show (r.merged pre s post).whole = r.whole from rfl, hw] at hwhole
      cases hwhole
    · exact hs.alone q (mem_without hq)
  · rw [hlent₁]
    rcases hmem q hq with rfl | hq
    · exact hs.lent r (by simp)
    · exact hs.lent q (mem_without hq)
  · apply (made.used hb hc).trans
    apply List.Perm.cons
    apply List.Perm.symm
    apply usedPlaces_mid.trans
    simp only [usedBeside, Region.places, Region.merged, Region.start, places_append, places,
      List.filter_append, List.filter_cons, Bool.false_eq_true, ↓reduceIte]
    exact List.Perm.refl _
  · apply (made.kept hs hb hc (z := z) (d := d) ?_).trans
    · apply made.holds.kept_links honly' ?_ hz
      rintro y (rfl | hy)
      · exact ⟨x, _, hxplace, rfl, rfl⟩
      · obtain ⟨w, e, hw', he, rfl⟩ := made.holds.linkSlot hy
        exact ⟨w, e, hw', he, rfl⟩
    · have := usedPlaces_mid.mem_iff.1 hz
      simpa [usedBeside, Region.places, Region.merged, Region.start, places] using this
  · have hhere : Inside (R₁ ++ r.merged pre s post :: R₂) y := by
      rcases hy with rfl | hy
      · apply made.holds.shape.inside_block hxplace
        have := (made.holds.shape.place hxplace).2.2.1
        simp only [header, minBlock] at *
        omega
      · exact made.holds.inside_link hy
    exact hhere.same (by simp [Region.merged])
  · obtain ⟨d, hd, hdu⟩ := hsome
    refine ⟨d, ?_, hdu⟩
    simp only [List.mem_append] at hd ⊢
    tauto
  · simp [Region.merged]

end Coalesced

theorem releaseBlock_spec (src : Source) (hs : Settled h (R₁ ++ r :: R₂) bins)
    (hb : r.blocks = pre ++ c :: post) (hc : c.used = true) (hw : r.whole = false) :
    ∃ rs' bins', Released h (h.releaseBlock src (r.start + span pre) r.addr) R₁ R₂ r
      (r.start + span pre) c (pre ++ post) rs' bins' := by
  obtain ⟨pre', es, ds, post', bins₁, s, rfl, rfl, made⟩ := coalesce_spec hs hb hc rfl
  unfold Heap.releaseBlock
  generalize h.coalesce (r.start + span (pre' ++ es)) = out at made ⊢
  obtain ⟨x, h₁⟩ := out
  have size : h₁.sizeOf x = s := made.holds.sizeOf_eq made.mem_places
  have bytes : h₁.bytesOf r.addr = r.bytes :=
    made.holds.chained.bytes (r.merged pre' s post') (by simp)
  dsimp only
  rw [size, bytes]
  split
  case isTrue all => exact ⟨_, _, made.drop hs hb hc src all⟩
  case isFalse some_ => exact ⟨_, made.list hs hb hc hw some_⟩

end Release

end ReconOS.Malloc
