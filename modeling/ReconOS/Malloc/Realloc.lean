import ReconOS.Malloc.Resize

/-! Requests cleared or carried over: what they leave, and where they write. -/
namespace ReconOS.Malloc

open Mem (Only)

section Payload

variable {h : Heap} {rs : List Region} {bins : Nat → List Nat} {off : Nat → Prop} {m' : Mem}
  {x : Nat} {c : Blk}

/-- The slots of a payload. -/
def InPayload (x : Nat) (c : Blk) (y : Nat) : Prop := x + header ≤ y ∧ y + 16 ≤ x + c.size

theorem Only.payload {m : Mem} (hsize : minBlock ≤ c.size)
    (ho : ∀ i, i < x + header ∨ x + c.size ≤ i → m' i = m i) : Only (InPayload x c) m m' := by
  intro i hi
  apply ho
  by_contra hin
  simp only [minBlock, header] at hsize hin
  have := hi (min i (x + c.size - 16)) (by
    simp only [InPayload, header]
    omega)
  omega

/-- What a program writes into a block it has is nothing to the allocator. -/
theorem Holds.payload (hs : Holds h rs bins off) (hx : (x, c) ∈ usedPlaces rs)
    (ho : Only (InPayload x c) h.mem m') : Holds { h with mem := m' } rs bins off := by
  obtain ⟨hx, hc⟩ := mem_usedPlaces.1 hx
  refine ⟨hs.shape, hs.chained.frame ho rfl ?_, fun r hr t ht => (hs.tagged r hr t ht).frame ho ?_,
    hs.listed.frame ho rfl ?_, hs.free_iff⟩
  · intro r hr y hy
    have := hs.shape.header_apart hr hx
    simp only [InPayload, header, regionHeader] at *
    omega
  · intro y hy
    have := hs.shape.tag_apart hr ht hx
    simp only [InPayload, header] at *
    omega
  · intro k z hz y hy
    obtain ⟨d, hd, hdu, -⟩ := (hs.free_iff k z).1 hz
    have hmin := (hs.shape.place hd).2.2.1
    simp only [InPayload, header, minBlock] at *
    rcases hs.shape.blocks_apart hx hd with ⟨-, rfl⟩ | hlt | hlt
    · rw [hc] at hdu
      cases hdu
    · omega
    · omega

theorem Settled.payload (hs : Settled h rs bins) (hx : (x, c) ∈ usedPlaces rs)
    (ho : Only (InPayload x c) h.mem m') : Settled { h with mem := m' } rs bins :=
  ⟨hs.toHolds.payload hx ho, hs.parted, hs.inUse, hs.alone, hs.lent⟩

theorem Shape.payload_kept (hs : Shape rs) (hx : (x, c) ∈ usedPlaces rs) {m : Mem}
    (ho : Only (InPayload x c) m m') {y : Nat} {d : Blk} (hy : (y, d) ∈ usedPlaces rs)
    (hne : y ≠ x) : KeptAt m m' y d.size := by
  intro i hi hi'
  apply ho
  intro z hz
  rcases hs.blocks_apart (mem_usedPlaces.1 hx).1 (mem_usedPlaces.1 hy).1 with ⟨heq, -⟩ | hlt | hlt
  · exact absurd heq.symm hne
  · simp only [InPayload, header] at *
    omega
  · simp only [InPayload, header] at *
    omega

theorem Shape.payload_inside (hs : Shape rs) (hx : (x, c) ∈ usedPlaces rs) {y : Nat}
    (hy : InPayload x c y) : Inside rs y := by
  apply hs.inside_block (mem_usedPlaces.1 hx).1
  simp only [InPayload, header] at hy
  omega

end Payload

section Calloc

variable {h : Heap} {rs : List Region} {bins : Nat → List Nat} {src : Source} {bytes : Nat}
  {out : Nat × Heap}

theorem MallocLeaves.filled (hl : MallocLeaves h rs bytes out) (hne : out.1 ≠ 0) (v : UInt8) :
    MallocLeaves h rs bytes (out.1, { out.2 with mem := out.2.mem.fill out.1 bytes v }) := by
  obtain ⟨rs', bins', hs, hc, hall, hgrown, honly⟩ := hl
  obtain ⟨p, h'⟩ := out
  simp only at hs hc hall hgrown honly hne ⊢
  rcases hall with ⟨h0, -⟩ | ⟨b, n, rfl, hle, hgiven⟩
  · exact absurd h0 hne
  have hb : (b, (⟨n, true⟩ : Blk)) ∈ usedPlaces rs' := hgiven.used.mem_iff.2 List.mem_cons_self
  have hmin := (hs.shape.place (mem_usedPlaces.1 hb).1).2.2.1
  have ho : Only (InPayload b ⟨n, true⟩) h'.mem (h'.mem.fill (b + header) bytes v) := by
    apply Only.payload hmin
    intro i hi
    unfold Mem.fill
    rw [if_neg]
    simp only at hi
    omega
  have hnew : ∀ x d, (x, d) ∈ usedPlaces rs → x ≠ b :=
    fun x d hx => hs.shape.used_cons hgiven.used hx
  refine ⟨rs', bins', hs.payload hb ho, ⟨hc.liveBytes, hc.liveBlocks, hc.regionCount, hc.takenBytes⟩,
    .inr ⟨b, n, rfl, hle, hgiven.used, fun x d hx => ?_⟩, ?_, ?_⟩
  · have hx' : (x, d) ∈ usedPlaces rs' := hgiven.used.mem_iff.2 (List.mem_cons_of_mem _ hx)
    exact (hgiven.kept x d hx).trans (hs.shape.payload_kept hb ho hx' (hnew x d hx))
  · cases hgrown with
    | same hmap hlent htakes => exact .same hmap hlent htakes
    | one a ask hmap hlent htakes => exact .one a ask hmap hlent htakes
  · exact honly.trans (ho.mono fun y hy => hs.shape.payload_inside hb hy)

theorem MallocLeaves.null (hs : Settled h rs bins) (hc : Counted h rs) :
    MallocLeaves h rs bytes (0, h) :=
  ⟨rs, bins, hs, hc, .inl ⟨rfl, rfl, rfl⟩, .same rfl rfl rfl, .refl _ _⟩

/-- A product the check lets by is the one asked for. -/
theorem total_eq {count each : Nat}
    (h : ¬(each ≠ 0 ∧ count * each % sizeLimit / each ≠ count)) :
    count * each % sizeLimit = count * each := by
  by_cases h0 : each = 0
  · simp [h0]
  · have hdiv : count * each % sizeLimit / each = count := by
      by_contra hne
      exact h ⟨h0, hne⟩
    apply Nat.le_antisymm (Nat.mod_le _ _)
    calc count * each = count * each % sizeLimit / each * each := by rw [hdiv]
      _ ≤ count * each % sizeLimit := Nat.div_mul_le_self _ _

theorem calloc_spec (hsrc : src.Honest) (hs : Settled h rs bins) (hc : Counted h rs)
    {count each : Nat} (hb : sizeLimit ≤ count * each ∨ Sizable (count * each)) :
    MallocLeaves h rs (count * each) (h.calloc src count each) := by
  unfold Heap.calloc
  simp only
  split
  · exact .null hs hc
  · rename_i hno
    have htotal := total_eq hno
    have hlt : count * each % sizeLimit < sizeLimit := Nat.mod_lt _ (by decide)
    have hsizable : Sizable (count * each) := by
      rcases hb with hb | hb
      · omega
      · exact hb
    rw [htotal]
    have hleaves := malloc_spec hsrc hs hc hsizable
    generalize h.malloc src (count * each) = out at hleaves ⊢
    obtain ⟨p, h'⟩ := out
    simp only
    split
    · rename_i hne
      exact hleaves.filled hne 0
    · exact hleaves

end Calloc

/-! ## Carried over -/

/-- The slot at `y` is in a range the source has out before a call or after it. -/
def Granted (h h' : Heap) (y : Nat) : Prop :=
  ∃ p, (p ∈ h.lent ∨ p ∈ h'.lent) ∧ p.1 ≤ y ∧ y + 16 ≤ p.1 + p.2

/-- The block `c` at `x` became one of `n` bytes at `y`, with what it held as far as `bytes` of it.
The other blocks in use stay. -/
structure Moved (h h' : Heap) (rs rs' : List Region) (x : Nat) (c : Blk) (y n bytes : Nat) : Prop where
  used : ∃ ps, (usedPlaces rs).Perm ((x, c) :: ps) ∧ (usedPlaces rs').Perm ((y, ⟨n, true⟩) :: ps)
  kept : ∀ z d, (z, d) ∈ usedPlaces rs → z ≠ x → KeptAt h.mem h'.mem z d.size
  carried : ∀ i, i < min (c.size - header) bytes → h'.mem (y + header + i) = h.mem (x + header + i)

/-- What asking for `bytes` in place of the block `c` at `x` leaves. -/
def ReallocLeaves (h : Heap) (rs : List Region) (x : Nat) (c : Blk) (bytes : Nat)
    (out : Nat × Heap) : Prop :=
  ∃ rs' bins', Settled out.2 rs' bins' ∧ Counted out.2 rs' ∧
    Only (Granted h out.2) h.mem out.2.mem ∧
    ((out.1 = 0 ∧ rs' = rs ∧ out.2.mem = h.mem) ∨
      ∃ y n, out.1 = y + header ∧ bytes + header ≤ n ∧ Moved h out.2 rs rs' x c y n bytes)

section Realloc

variable {h h' h₁ : Heap} {rs rs' rs₁ : List Region} {bins bins' : Nat → List Nat} {src : Source}
  {bytes x : Nat} {c : Blk}

theorem Settled.granted (hs : Settled h rs bins) {y : Nat} (hy : Inside rs y) : Granted h h' y := by
  obtain ⟨r, hr, hin⟩ := hy
  exact ⟨_, .inl (hs.lent r hr), hin⟩

theorem Settled.granted_after (hs : Settled h' rs' bins) {y : Nat} (hy : Inside rs' y) :
    Granted h h' y := by
  obtain ⟨r, hr, hin⟩ := hy
  exact ⟨_, .inr (hs.lent r hr), hin⟩

/-- A block made larger or smaller where it is. -/
theorem ResizeLeaves.realloc {want : Nat} (hs : Settled h rs bins)
    (hl : ResizeLeaves h rs x c want h') (hbytes : bytes + header ≤ want) :
    ReallocLeaves h rs x c bytes (x + header, h') := by
  obtain ⟨rs', bins', n, hs', hc', hle, hrz, -, -, honly⟩ := hl
  refine ⟨rs', bins', hs', hc', honly.mono fun y hy => hs.granted hy,
    .inr ⟨x, n, rfl, by omega, hrz.used, hrz.kept, fun i hi => ?_⟩⟩
  apply hrz.same
  · exact Nat.le_add_right _ _
  · simp only [header] at *
    omega

/-- A region granted in a call that then gives back a block of an older one stays. -/
theorem Grown.granted (hs : Settled h rs bins) (hs₁ : Shape rs₁) (hs' : Settled h' rs' bins')
    (hg : Grown h h₁ rs rs₁) (hl : Left rs₁ rs' x) (hx : (x, c) ∈ allPlaces rs) {y : Nat}
    (hy : Inside rs₁ y) : Granted h h' y := by
  cases hg with
  | same hmap => exact hs.granted (hy.same hmap.symm)
  | one a ask hmap =>
    -- The new region stands first, and the block is in one of the others.
    obtain ⟨s, ss, rfl⟩ : ∃ s ss, rs₁ = s :: ss := by
      cases rs₁ with
      | nil => cases hmap
      | cons s ss => exact ⟨s, ss, rfl⟩
    simp only [List.map_cons, List.cons.injEq] at hmap
    obtain ⟨q, hq, hin⟩ := hy
    rcases List.mem_cons.1 hq with rfl | hq
    case inr =>
      have hold : Inside ss y := ⟨q, hq, hin⟩
      exact hs.granted (hold.same hmap.2.symm)
    case inl =>
      cases hl with
      | same hmap' =>
        have hall : Inside (q :: ss) y := ⟨q, List.mem_cons_self, hin⟩
        exact hs'.granted_after (hall.same hmap')
      | one R₁ R₂ r heq heq' hinx =>
        -- Some older region has the block, so the new one does not.
        obtain ⟨t, ht, hxt⟩ := mem_allPlaces.1 hx
        have htx := (hs.shape.ok t ht).place hxt
        have htt := (hs.shape.ok t ht).fence_top
        have hmem : (t.addr, t.bytes) ∈ ss.map fun r => (r.addr, r.bytes) := by
          rw [hmap.2]
          exact List.mem_map_of_mem ht
        obtain ⟨u, hu, hut⟩ := List.mem_map.1 hmem
        simp only [Prod.mk.injEq] at hut
        have hap := (List.pairwise_cons.1 hs₁.apart).1 u hu
        have hne : q ≠ r := by
          rintro rfl
          simp only [regionHeader, header, minBlock] at *
          omega
        have hq' : q ∈ rs' := by
          have hq : q ∈ R₁ ++ r :: R₂ := by
            rw [← heq]
            exact List.mem_cons_self
          rw [heq']
          simp only [List.mem_append, List.mem_cons] at hq ⊢
          tauto
        exact hs'.granted_after ⟨q, hq', hin⟩

theorem moveTo_spec (hsrc : src.Honest) (hs : Settled h rs bins) (hc : Counted h rs)
    (hb : Sizable bytes) (hx : (x, c) ∈ usedPlaces rs) :
    ReallocLeaves h rs x c bytes (h.moveTo src (x + header) bytes) := by
  have hsize : h.sizeOf x = c.size := hs.sizeOf_eq (mem_usedPlaces.1 hx).1
  have hleaves := malloc_spec hsrc hs hc hb
  unfold Heap.moveTo
  simp only [Nat.add_sub_cancel, hsize]
  generalize h.malloc src bytes = out at hleaves ⊢
  obtain ⟨q, h₁⟩ := out
  obtain ⟨rs₁, bins₁, hs₁, hc₁, hall, hgrown, honly₁⟩ := hleaves
  simp only at hs₁ hc₁ hall hgrown honly₁ ⊢
  rcases hall with ⟨rfl, rfl, hmem⟩ | ⟨b, n, rfl, hle, hgiven⟩
  · simp only [↓reduceIte]
    refine ⟨rs₁, bins₁, hs₁, hc₁, ?_, .inl ⟨rfl, rfl, hmem⟩⟩
    simp only
    rw [hmem]
    exact .refl _ _
  have hq : b + header ≠ 0 := by simp [header]
  simp only [hq, ↓reduceIte]
  have hbu : (b, (⟨n, true⟩ : Blk)) ∈ usedPlaces rs₁ := hgiven.used.mem_iff.2 List.mem_cons_self
  have hxu : (x, c) ∈ usedPlaces rs₁ := hgiven.used.mem_iff.2 (List.mem_cons_of_mem _ hx)
  have hnew : ∀ z d, (z, d) ∈ usedPlaces rs → z ≠ b :=
    fun z d hz => hs₁.shape.used_cons hgiven.used hz
  -- The copy stays in the new block.
  generalize hm : h₁.mem.copy (b + header) (x + header) (min (c.size - header) bytes) = m
  have hcopy : Only (InPayload b ⟨n, true⟩) h₁.mem m := by
    apply Only.payload (hs₁.shape.place (mem_usedPlaces.1 hbu).1).2.2.1
    intro i hi
    rw [← hm]
    unfold Mem.copy
    rw [if_neg]
    simp only at hi
    omega
  have hs₂ := hs₁.payload hbu hcopy
  have hc₂ : Counted { h₁ with mem := m } rs₁ :=
    ⟨hc₁.liveBytes, hc₁.liveBlocks, hc₁.regionCount, hc₁.takenBytes⟩
  obtain ⟨rs', bins', hs', hc', hfreed, honly', -, hleft⟩ := free_spec src hs₂ hc₂ hxu
  generalize Heap.free src (x + header) { h₁ with mem := m } = h₂ at *
  obtain ⟨as, bs, heq⟩ := List.append_of_mem hx
  have hps : (usedPlaces rs).Perm ((x, c) :: (as ++ bs)) := by
    rw [heq]
    exact List.perm_middle
  have hused : (usedPlaces rs').Perm ((b, ⟨n, true⟩) :: (as ++ bs)) := by
    have hboth := hfreed.used.symm.trans (hgiven.used.trans (hps.cons _))
    exact (hboth.trans (List.Perm.swap _ _ _)).cons_inv
  refine ⟨rs', bins', hs', hc', ?_, .inr ⟨b, n, rfl, hle, ⟨_, hps, hused⟩, fun z d hz hne => ?_,
    fun i hi => ?_⟩⟩
  · have hin : Only (Inside rs₁) h.mem h₂.mem := by
      apply honly₁.trans
      apply Only.trans (hcopy.mono fun y hy => hs₁.shape.payload_inside hbu hy)
      exact honly'
    exact hin.mono fun y hy =>
      hgrown.granted hs hs₁.shape hs' hleft (mem_usedPlaces.1 hx).1 hy
  · have hz₁ : (z, d) ∈ usedPlaces rs₁ := hgiven.used.mem_iff.2 (List.mem_cons_of_mem _ hz)
    have hz' : (z, d) ∈ usedPlaces rs' := by
      rcases List.mem_cons.1 (hfreed.used.mem_iff.1 hz₁) with heqz | hz'
      · simp only [Prod.mk.injEq] at heqz
        exact absurd heqz.1 hne
      · exact hz'
    apply (hgiven.kept z d hz).trans
    apply (hs₁.shape.payload_kept hbu hcopy hz₁ (hnew z d hz)).trans
    exact hfreed.kept z d hz'
  · have hbk := hfreed.kept b ⟨n, true⟩ (hused.mem_iff.2 List.mem_cons_self)
    have hxk := hgiven.kept x c hx
    simp only [header] at hi hle
    calc h₂.mem (b + header + i) = m (b + header + i) :=
          hbk _ (Nat.le_add_right _ _) (by simp only [header]; omega)
      _ = h₁.mem (x + header + i) := by
          rw [← hm]
          unfold Mem.copy
          rw [if_pos (by simp only [header]; omega), Nat.add_sub_cancel_left]
      _ = h.mem (x + header + i) :=
          hxk _ (Nat.le_add_right _ _) (by simp only [header]; omega)

/-- The block after one, where what stands there is free. -/
theorem Settled.next_free {R₁ R₂ : List Region} {r : Region} {pre post : List Blk}
    (hs : Settled h (R₁ ++ r :: R₂) bins) (hb : r.blocks = pre ++ c :: post)
    (h0 : h.sizeOf (r.start + span pre + c.size) ≠ 0)
    (hu : h.used (r.start + span pre + c.size) = false) :
    ∃ d post', post = d :: post' ∧ d.used = false ∧
      h.sizeOf (r.start + span pre + c.size) = d.size := by
  obtain ⟨-, hnext, -⟩ := hs.toHolds.tags_at hb
  cases post with
  | nil => exact absurd (hnext.size rfl) h0
  | cons d post =>
    have hmod := ((hs.shape.ok r (by simp)).sizes d (by rw [hb]; simp)).1
    have hused : h.used (r.start + span pre + c.size) = d.used := hnext.used_eq hmod
    exact ⟨d, post, rfl, hused ▸ hu, hnext.size hmod⟩

theorem resize_spec (hsrc : src.Honest) (hs : Settled h rs bins) (hc : Counted h rs)
    (hb : Sizable bytes) (hx : (x, c) ∈ usedPlaces rs) {want : Nat}
    (hwant : wantFor bytes = some want) :
    ReallocLeaves h rs x c bytes (h.resize src (x + header) bytes want (h.regionOf x)) := by
  obtain ⟨hwmod, hwmin, hbytes, -⟩ := wantFor_spec hb hwant
  have hmove := moveTo_spec hsrc hs hc hb hx
  obtain ⟨hxp, hcu⟩ := mem_usedPlaces.1 hx
  have hsize := hs.sizeOf_eq hxp
  obtain ⟨R₁, r, R₂, pre, post, rfl, hblocks, rfl⟩ := mem_allPlaces_split hxp
  have hr : r ∈ R₁ ++ r :: R₂ := by simp
  have hregion : h.regionOf (r.start + span pre) = r.addr :=
    regionOf_eq hs.toHolds (mem_places_cut hblocks)
  have hwhole : h.wholeOf r.addr = r.whole := hs.chained.whole r hr
  unfold Heap.resize
  simp only [Nat.add_sub_cancel, hregion, hsize, hwhole, Heap.nextBlock]
  by_cases hfit : want ≤ c.size ∧ r.whole = false
  · rw [if_pos hfit]
    exact (shrink_spec src hs hc hblocks hcu hfit.2 hwmod hwmin hfit.1).realloc hs hbytes
  rw [if_neg hfit]
  by_cases hkeep : want ≤ c.size ∧ r.whole = true ∧ largeBlock ≤ want
  · rw [if_pos hkeep]
    have hrz : Resized h h _ _ _ c c.size := .refl hx
    refine ⟨_, bins, hs, hc, .refl _ _, .inr ⟨_, c.size, rfl, by omega, hrz.used, hrz.kept, ?_⟩⟩
    exact fun _ _ => rfl
  rw [if_neg hkeep]
  split
  · rename_i hgrow
    obtain ⟨-, h0, hu, hle⟩ := hgrow
    obtain ⟨d, post, rfl, hd, hdsize⟩ := hs.next_free hblocks h0 hu
    rw [hdsize] at hle
    exact (grow_spec src hs hc hblocks hcu hd hwmod hwmin hle).realloc hs hbytes
  · exact hmove

/-- A size asked for in place of a block in use; nothing asked for is the block given back. -/
theorem realloc_spec (hsrc : src.Honest) (hs : Settled h rs bins) (hc : Counted h rs)
    (hb : Sizable bytes) (h0 : bytes ≠ 0) (hx : (x, c) ∈ usedPlaces rs) :
    ReallocLeaves h rs x c bytes (h.realloc src (x + header) bytes) := by
  have hregion : h.regionOf x ≠ 0 := by
    obtain ⟨R₁, r, R₂, pre, post, rfl, hblocks, rfl⟩ := mem_allPlaces_split (mem_usedPlaces.1 hx).1
    rw [regionOf_eq hs.toHolds (mem_places_cut hblocks)]
    exact (hs.shape.ok r (by simp)).ne_zero
  have hp : x + header ≠ 0 := by simp [header]
  unfold Heap.realloc
  simp only [hp, h0, ↓reduceIte, Nat.add_sub_cancel, hregion]
  cases hwant : wantFor bytes with
  | none => exact ⟨rs, bins, hs, hc, .refl _ _, .inl ⟨rfl, rfl, rfl⟩⟩
  | some want => exact resize_spec hsrc hs hc hb hx hwant

end Realloc

end ReconOS.Malloc
