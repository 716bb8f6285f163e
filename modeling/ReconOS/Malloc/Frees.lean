import ReconOS.Malloc.Calls

/-! What giving a block back does to a settled state. -/
namespace ReconOS.Malloc

open Mem (Only)

/-- A region with the block at `x` in it has another one in use. -/
def Shared (rs : List Region) (x : Nat) : Prop :=
  ∃ r ∈ rs, (r.addr ≤ x ∧ x < r.addr + r.bytes) ∧
    ∃ y d, (y, d) ∈ usedPlaces rs ∧ y ≠ x ∧ r.addr ≤ y ∧ y < r.addr + r.bytes

/-- Which regions giving back the block at `x` left: all of them, or all but the one it had to
itself. -/
inductive Left (rs rs' : List Region) (x : Nat) : Prop
  | same : rs'.map (fun r => (r.addr, r.bytes)) = rs.map (fun r => (r.addr, r.bytes)) →
      Shared rs x → Left rs rs' x
  | one (R₁ R₂ : List Region) (r : Region) : rs = R₁ ++ r :: R₂ → rs' = R₁ ++ R₂ →
      r.addr ≤ x ∧ x < r.addr + r.bytes → ¬Shared rs x → Left rs rs' x

/-- What giving back the block `c` at `x` leaves. -/
def FreeLeaves (h : Heap) (rs : List Region) (x : Nat) (c : Blk) (h' : Heap) : Prop :=
  ∃ rs' bins', Settled h' rs' bins' ∧ Counted h' rs' ∧ Freed h h' rs rs' x c ∧
    Only (Inside rs) h.mem h'.mem ∧ h'.takes = h.takes ∧ Left rs rs' x

section Free

variable {h h' : Heap} {rs rs' R₁ R₂ : List Region} {r : Region} {bins : Nat → List Nat} {x : Nat}
  {c : Blk} {pre post : List Blk}

theorem Settled.books (hs : Settled h rs bins) (hm : h'.mem = h.mem) (hb : h'.bins = h.bins)
    (hr : h'.regions = h.regions) (hl : h'.lent = h.lent) : Settled h' rs bins := by
  refine ⟨hs.toHolds.books hm hb hr, hs.parted, hs.inUse, hs.alone, ?_⟩
  rw [hl]
  exact hs.lent

theorem Counted.freed (hc : Counted h rs) (hf : Freed h h' rs rs' x c)
    (hb : h'.liveBytes = h.liveBytes - (c.size - header)) (hk : h'.liveBlocks = h.liveBlocks - 1)
    (hr : h'.regionCount = rs'.length) (ht : h'.takenBytes = (rs'.map Region.bytes).sum) :
    Counted h' rs' := by
  refine ⟨?_, ?_, hr, ht⟩
  · rw [hb, hc.liveBytes, (hf.used.map _).sum_eq, List.map_cons, List.sum_cons,
      Nat.add_sub_cancel_left]
  · rw [hk, hc.liveBlocks, hf.used.length_eq, List.length_cons]
    omega

/-- A place is inside the region that has it, and inside no other. -/
theorem Shape.place_region (hs : Shape (R₁ ++ r :: R₂)) (hx : (x, c) ∈ r.places) :
    (r.addr ≤ x ∧ x < r.addr + r.bytes) ∧
      ∀ s ∈ R₁ ++ R₂, ¬(s.addr ≤ x ∧ x < s.addr + s.bytes) := by
  have hok := hs.ok r (by simp)
  have hin := hok.place hx
  have hft := hok.fence_top
  simp only [regionHeader, header, minBlock] at hin hft
  refine ⟨by omega, fun s hsm => ?_⟩
  have := hs.others_apart hsm
  omega

/-- A block of the region besides the one at `x` is in use where the region is shared. -/
theorem shared_mid (hs : Shape (R₁ ++ r :: R₂)) (hb : r.blocks = pre ++ c :: post) :
    Shared (R₁ ++ r :: R₂) (r.start + span pre) ↔ ∃ d ∈ pre ++ post, d.used = true := by
  have hr : r ∈ R₁ ++ r :: R₂ := by simp
  have hpos := (hs.ok r hr).pos
  have hplace : (r.start + span pre, c) ∈ r.places := mem_places_cut hb
  have hsplit : ∀ y d, (y, d) ∈ r.places ↔ (y, d) ∈ places r.start pre ∨
      (y, d) = (r.start + span pre, c) ∨ (y, d) ∈ places (r.start + span pre + c.size) post := by
    intro y d
    simp only [Region.places, hb, places_append, places, List.mem_append, List.mem_cons]
  constructor
  · rintro ⟨s, hsm, hsx, y, d, hy, hne, hsy⟩
    obtain ⟨hy, hd⟩ := mem_usedPlaces.1 hy
    have hsr : s = r := by
      by_contra hne'
      have hs' : s ∈ R₁ ++ R₂ := by
        simp only [List.mem_append, List.mem_cons] at hsm ⊢
        tauto
      exact (hs.place_region hplace).2 s hs' hsx
    subst hsr
    rcases mem_allPlaces_mid.1 hy with hy | hy
    · rcases (hsplit y d).1 hy with hy | hy | hy
      · exact ⟨d, List.mem_append_left _ (mem_places_blk hy), hd⟩
      · simp only [Prod.mk.injEq] at hy
        exact absurd hy.1 hne
      · exact ⟨d, List.mem_append_right _ (mem_places_blk hy), hd⟩
    · have := hs.others_place hy
      have hmin := (hs.place (mem_allPlaces_mid.2 (.inr hy))).2.2.1
      simp only [minBlock] at hmin
      omega
  · rintro ⟨d, hd, hdu⟩
    have hthere : ∃ y, y ≠ r.start + span pre ∧ (y, d) ∈ r.places := by
      rcases List.mem_append.1 hd with hd | hd
      · obtain ⟨as, bs, rfl⟩ := List.append_of_mem hd
        refine ⟨r.start + span as, ?_, ?_⟩
        · have := hpos d (by rw [hb]; simp)
          simp only [span_append, span_cons]
          omega
        · rw [Region.places, hb, List.append_assoc, List.cons_append]
          exact mem_places_mid
      · obtain ⟨as, bs, rfl⟩ := List.append_of_mem hd
        refine ⟨r.start + span (pre ++ c :: as), ?_, ?_⟩
        · have := hpos c (by rw [hb]; simp)
          simp only [span_append, span_cons]
          omega
        · rw [Region.places, hb, ← List.cons_append, ← List.append_assoc]
          exact mem_places_mid
    obtain ⟨y, hne, hy⟩ := hthere
    refine ⟨r, hr, (hs.place_region hplace).1, y, d, ?_, hne, (hs.place_region hy).1⟩
    exact mem_usedPlaces.2 ⟨mem_allPlaces_mid.2 (.inl hy), hdu⟩

/-- A region with nothing free in it leaves the list with the block that had it. -/
theorem drop_spec (src : Source) (hs : Settled h (R₁ ++ r :: R₂) bins) (hb : r.blocks = [c])
    (hc : c.used = true) :
    Settled (h.dropRegion src r.addr) (R₁ ++ R₂) bins ∧
      Freed h (h.dropRegion src r.addr) (R₁ ++ r :: R₂) (R₁ ++ R₂) r.start c ∧
      Only (Inside (R₁ ++ r :: R₂)) h.mem (h.dropRegion src r.addr).mem ∧
      Dropped h (h.dropRegion src r.addr) r.bytes := by
  have hsub : ∀ s ∈ R₁ ++ R₂, s ∈ R₁ ++ r :: R₂ := by
    intro s hs
    simp only [List.mem_append, List.mem_cons] at hs ⊢
    tauto
  obtain ⟨hheld, honly, hbooks, hlent⟩ := hs.toHolds.drop src (by
    intro y d hy hd
    simp only [Region.places, hb, places, List.mem_singleton, Prod.mk.injEq] at hy
    rw [hy.2, hc] at hd
    cases hd)
  refine ⟨⟨hheld, fun q hq => hs.parted q (hsub q hq), fun q hq => hs.inUse q (hsub q hq),
    fun q hq => hs.alone q (hsub q hq), fun q hq => hlent q hq (hs.lent q (hsub q hq))⟩,
    ⟨?_, fun z d hz => ?_⟩, honly.mono fun y hy => ?_, hbooks⟩
  · apply usedPlaces_mid.trans
    rw [Region.places, hb, places, filter_used_cons hc]
    exact List.Perm.refl _
  · intro i hi hi'
    apply honly
    rintro y ⟨q, hq, rfl⟩
    have := hheld.shape.header_apart hq (mem_usedPlaces.1 hz).1
    simp only [regionHeader, header] at *
    omega
  · obtain ⟨q, hq, rfl⟩ := hy
    exact hs.shape.inside_header (hsub q hq)

theorem free_spec (src : Source) (hs : Settled h rs bins) (hc : Counted h rs)
    (hx : (x, c) ∈ usedPlaces rs) : FreeLeaves h rs x c (h.free src (x + header)) := by
  obtain ⟨hx, hcu⟩ := mem_usedPlaces.1 hx
  have hsize := hs.sizeOf_eq hx
  obtain ⟨R₁, r, R₂, pre, post, rfl, hb, rfl⟩ := mem_allPlaces_split hx
  have hr : r ∈ R₁ ++ r :: R₂ := by simp
  have hplace : (r.start + span pre, c) ∈ r.places := mem_places_cut hb
  have hregion := regionOf_eq hs.toHolds hplace
  have hin := (hs.shape.place_region hplace).1
  have hsh := shared_mid hs.shape hb
  generalize hh₁ : ({ h with
      liveBytes := h.liveBytes - (c.size - header), liveBlocks := h.liveBlocks - 1 } : Heap) = h₁
  have hmem : h₁.mem = h.mem := by rw [← hh₁]
  have htk : h₁.takes = h.takes := by rw [← hh₁]
  have hlb : h₁.liveBytes = h.liveBytes - (c.size - header) := by rw [← hh₁]
  have hlk : h₁.liveBlocks = h.liveBlocks - 1 := by rw [← hh₁]
  have hs₁ : Settled h₁ (R₁ ++ r :: R₂) bins := by
    rw [← hh₁]
    exact hs.books rfl rfl rfl rfl
  have hfree : h.free src (r.start + span pre + header) =
      if r.whole = true then h₁.dropRegion src r.addr
      else h₁.releaseBlock src (r.start + span pre) r.addr := by
    have hp : r.start + span pre + header ≠ 0 := by simp [header]
    have hwhole : h₁.wholeOf r.addr = r.whole := hs₁.chained.whole r hr
    simp only [Heap.free, hp, ↓reduceIte, Nat.add_sub_cancel, hregion, (hs.shape.ok r hr).ne_zero,
      hsize, hh₁, hwhole]
  have hcount : (R₁ ++ R₂).length = h.regionCount - 1 := by
    rw [hc.regionCount]
    simp
  have htaken : ((R₁ ++ R₂).map Region.bytes).sum = h.takenBytes - r.bytes := by
    rw [hc.takenBytes]
    simp only [List.map_append, List.map_cons, List.sum_append, List.sum_cons]
    omega
  rw [hfree]
  cases hw : r.whole with
  | true =>
    obtain ⟨e, he⟩ := hs.alone r hr hw
    obtain ⟨rfl, rfl, rfl⟩ : pre = [] ∧ post = [] ∧ c = e := by
      rw [hb] at he
      cases pre with
      | nil => simpa [and_comm] using he
      | cons d pre => simp at he
    obtain ⟨hs', hf, honly, hbooks⟩ := drop_spec src hs₁ he hcu
    have hf' : Freed h (h₁.dropRegion src r.addr) (R₁ ++ r :: R₂) (R₁ ++ R₂) r.start c := by
      refine ⟨hf.used, ?_⟩
      rw [← hmem]
      exact hf.kept
    simp only [↓reduceIte]
    refine ⟨R₁ ++ R₂, bins, hs', ?_, hf', ?_, hbooks.takes.trans htk, .one R₁ R₂ r rfl rfl hin ?_⟩
    · refine hc.freed hf' (hbooks.liveBytes.trans hlb) (hbooks.liveBlocks.trans hlk) ?_ ?_
      · rw [hbooks.regionCount, hcount, ← hh₁]
      · rw [hbooks.takenBytes, htaken, ← hh₁]
    · rw [← hmem]
      exact honly
    · rw [hsh]
      simp
  | false =>
    obtain ⟨rs', bins', hs', hf, hlb', hlk', htk', honly, hwhich⟩ :=
      releaseBlock_spec src hs₁ hb hcu hw
    have hf' : Freed h (h₁.releaseBlock src (r.start + span pre) r.addr) (R₁ ++ r :: R₂) rs'
        (r.start + span pre) c := by
      refine ⟨hf.used, ?_⟩
      rw [← hmem]
      exact hf.kept
    rw [hmem] at honly
    simp only [Bool.false_eq_true, ↓reduceIte]
    refine ⟨rs', bins', hs', ?_, hf', honly, htk'.trans htk, ?_⟩
    · apply hc.freed hf' (hlb'.trans hlb) (hlk'.trans hlk)
      · rcases hwhich with ⟨-, hsame⟩ | ⟨-, rfl, hdrop⟩
        · have := congrArg List.length hsame.regions
          simp only [List.length_map] at this
          rw [hsame.regionCount, this, ← hc.regionCount, ← hh₁]
        · rw [hdrop.regionCount, hcount, ← hh₁]
      · rcases hwhich with ⟨-, hsame⟩ | ⟨-, rfl, hdrop⟩
        · have := congrArg (List.map Prod.snd) hsame.regions
          simp only [List.map_map, Function.comp_def] at this
          rw [hsame.takenBytes, this, ← hc.takenBytes, ← hh₁]
        · rw [hdrop.takenBytes, htaken, ← hh₁]
    · rcases hwhich with ⟨hsome, hsame⟩ | ⟨hnone, hrs, -⟩
      · exact .same hsame.regions (hsh.2 hsome)
      · refine .one R₁ R₂ r rfl hrs hin ?_
        rw [hsh]
        rintro ⟨d, hd, hdu⟩
        rw [hnone d hd] at hdu
        cases hdu

end Free

end ReconOS.Malloc
