import ReconOS.Malloc.Frees

/-! Making a block in use smaller or larger where it is. -/
namespace ReconOS.Malloc

open Mem (Only)

/-- The block at `x` has `n` bytes now. The other blocks in use stay, and every block keeps the bytes
that both of its sizes have. -/
structure Resized (h h' : Heap) (rs rs' : List Region) (x : Nat) (c : Blk) (n : Nat) : Prop where
  used : ∃ ps, (usedPlaces rs).Perm ((x, c) :: ps) ∧ (usedPlaces rs').Perm ((x, ⟨n, true⟩) :: ps)
  kept : ∀ y d, (y, d) ∈ usedPlaces rs → y ≠ x → KeptAt h.mem h'.mem y d.size
  same : KeptAt h.mem h'.mem x (min c.size n)

section Resize

variable {h h' h'' : Heap} {rs rs' rs'' R₁ R₂ : List Region} {r : Region} {bins : Nat → List Nat}
  {x n k : Nat} {c d : Blk} {pre post : List Blk}

theorem Resized.refl (hx : (x, c) ∈ usedPlaces rs) : Resized h h rs rs x c c.size := by
  obtain ⟨ps, qs, heq⟩ := List.append_of_mem hx
  have hperm : (usedPlaces rs).Perm ((x, c) :: (ps ++ qs)) := by
    rw [heq]
    exact List.perm_middle
  have hc : (⟨c.size, true⟩ : Blk) = c := by
    rw [← (mem_usedPlaces.1 hx).2]
  refine ⟨⟨ps ++ qs, hperm, ?_⟩, fun _ _ _ _ _ _ _ => rfl, fun _ _ _ => rfl⟩
  rw [hc]
  exact hperm

theorem Resized.trans (p : Resized h h' rs rs' x c n) (q : Resized h' h'' rs' rs'' x ⟨n, true⟩ k)
    (hle : c.size ≤ n) : Resized h h'' rs rs'' x c k := by
  obtain ⟨ps, hps, hps'⟩ := p.used
  obtain ⟨qs, hqs, hqs'⟩ := q.used
  have hperm : qs.Perm ps := (hqs.symm.trans hps').cons_inv
  refine ⟨⟨ps, hps, hqs'.trans (hperm.cons _)⟩, fun y d hy hne => ?_, ?_⟩
  · apply (p.kept y d hy hne).trans
    apply q.kept y d ?_ hne
    apply hps'.mem_iff.2
    rcases List.mem_cons.1 (hps.mem_iff.1 hy) with heq | hmem
    · simp only [Prod.mk.injEq] at heq
      exact absurd heq.1 hne
    · exact List.mem_cons_of_mem _ hmem
  · have hq := q.same
    simp only at hq
    exact (p.same.mono (by omega)).trans (hq.mono (by omega))

variable (R₁ R₂) in
/-- The blocks in use where a stretch of one region that starts with the block at `x` was retiled. -/
theorem usedPlaces_retiled {mid : List Blk} (hb : r.blocks = pre ++ (c :: mid) ++ post)
    (hc : c.used = true) (hmid : ∀ d ∈ mid, d.used = false) {ds : List Blk}
    (hspan : n + span ds = c.size + span mid) :
    ∃ ps, (usedPlaces (R₁ ++ r :: R₂)).Perm ((r.start + span pre, c) :: ps) ∧
      (usedPlaces (R₁ ++ { r with blocks := pre ++ (⟨n, true⟩ :: ds) ++ post } :: R₂)).Perm
        ((r.start + span pre, ⟨n, true⟩) ::
          ((places (r.start + span pre + n) ds).filter (fun p => p.2.used) ++ ps)) := by
  have hfree : (places (r.start + span pre + c.size) mid).filter (fun p => p.2.used) = [] :=
    places_free hmid
  have haddr : r.start + span pre + n + span ds = r.start + span pre + c.size + span mid := by omega
  refine ⟨(places r.start pre).filter (fun p => p.2.used) ++
    (places (r.start + span pre + c.size + span mid) post).filter (fun p => p.2.used) ++
      usedPlaces (R₁ ++ R₂), ?_, ?_⟩
  · apply usedPlaces_mid.trans
    simp only [Region.places, hb, places_append, places, List.filter_append, span_append, span_cons,
      ← Nat.add_assoc]
    rw [filter_used_cons hc, hfree]
    simp only [List.nil_append, List.append_assoc, List.cons_append]
    exact List.perm_middle
  · apply usedPlaces_mid.trans
    simp only [Region.places, Region.start, places_append, places, List.filter_append, span_append,
      span_cons, ← Nat.add_assoc] at haddr ⊢
    rw [filter_used_cons rfl, haddr]
    simp only [List.append_assoc, List.cons_append]
    apply List.perm_middle.trans
    apply List.Perm.cons
    simp only [← List.append_assoc]
    apply List.Perm.append_right
    apply List.Perm.append_right
    exact List.perm_append_comm

/-- Writes inside the block at `x`, and to links, leave the other blocks in use alone. -/
theorem Holds.kept_but {off : Nat → Prop} (hs : Holds h rs bins off) (hx : (x, c) ∈ allPlaces rs)
    {m' : Mem} {a : Nat} (ha : a ≤ x + c.size)
    (ho : Only (fun y => (x ≤ y ∧ y ≤ a) ∨ LinkSlot bins y) h.mem m') {y : Nat}
    (hy : (y, d) ∈ usedPlaces rs) (hne : y ≠ x) : KeptAt h.mem m' y d.size := by
  have hyp := (mem_usedPlaces.1 hy).1
  have := hs.shape.blocks_apart hyp hx
  apply hs.kept (a := x) (n := a - x) (ho.mono ?_) hy
  · omega
  · rintro z (hz | hz)
    · left
      omega
    · exact .inr hz

/-- The end of a block in use made a block of its own, in use still. -/
theorem cut_spec (hs : Settled h (R₁ ++ r :: R₂) bins) (hb : r.blocks = pre ++ c :: post)
    (hc : c.used = true) (hw : r.whole = false) {want rest : Nat} (hwmod : want % align = 0)
    (hwmin : minBlock ≤ want) (hrest : minBlock ≤ rest) (hsum : c.size = want + rest) :
    Settled ((h.setSize (r.start + span pre) want).store (r.start + span pre + want + 8) (rest + 3))
      (R₁ ++ { r with blocks := pre ++ [⟨want, true⟩, ⟨rest, true⟩] ++ post } :: R₂) bins ∧
      Only (fun y => y = r.start + span pre ∨ y = r.start + span pre + want) h.mem
        ((h.setSize (r.start + span pre) want).store (r.start + span pre + want + 8)
          (rest + 3)).mem := by
  obtain ⟨⟨htag, -⟩, hnext, -⟩ := hs.toHolds.tags_at hb
  obtain ⟨hmod, hcmod, hcmin, htop, -⟩ := hs.toHolds.places_mod hb
  simp only [minBlock] at hcmin hwmin hrest
  simp only [header, sizeLimit] at htop
  have hrmod : rest % align = 0 := by
    simp only [align] at *
    omega
  have hleft : c.left = none := by simp [Blk.left, hc]
  have hr : r ∈ R₁ ++ r :: R₂ := by simp
  have hblocks : r.blocks = pre ++ [c] ++ post := by
    rw [hb]
    simp
  have hspan : span [(⟨want, true⟩ : Blk), ⟨rest, true⟩] = span [c] := by simp [hsum]
  have hnone : ∀ x d, (x, d) ∈ places (r.start + span pre) [c] → d.used = false → False := by
    intro x d hx hd
    simp only [places, List.mem_singleton, Prod.mk.injEq] at hx
    rw [hx.2, hc] at hd
    cases hd
  generalize hbdef : r.start + span pre = b at *
  rw [hc] at htag
  rw [hleft] at hnext
  have ho1 : Only (fun y => y = b) h.mem (h.setSize b want).mem :=
    Only.store _ _ _ rfl (by omega) (by omega)
  have ht1 : (Tag.mk b (leftOf none pre) want true).In (h.setSize b want).mem :=
    htag.setSize hcmod hwmod (by omega)
  have hn1 : (firstTag (b + c.size) none post).In (h.setSize b want).mem := by
    apply hnext.frame ho1
    rintro y rfl
    rw [firstTag_at]
    omega
  have ho2 : Only (fun y => y = b + want) (h.setSize b want).mem
      ((h.setSize b want).store (b + want + 8) (rest + 3)).mem :=
    Only.store _ _ _ rfl (by omega) (by omega)
  have ht2 : (Tag.mk b (leftOf none pre) want true).In
      ((h.setSize b want).store (b + want + 8) (rest + 3)).mem := by
    apply ht1.frame ho2
    rintro y rfl
    right
    simp only
    omega
  have hr2 : (Tag.mk (b + want) none rest true).In
      ((h.setSize b want).store (b + want + 8) (rest + 3)).mem := by
    refine ⟨?_, fun s hs => by cases hs⟩
    apply (Mem.load_store_self (by omega)).trans
    simp
  have hn2 : (firstTag (b + c.size) none post).In
      ((h.setSize b want).store (b + want + 8) (rest + 3)).mem := by
    apply hn1.frame ho2
    rintro y rfl
    rw [firstTag_at]
    omega
  have ho : Only (fun y => y = b ∨ y = b + want) h.mem
      ((h.setSize b want).store (b + want + 8) (rest + 3)).mem :=
    (ho1.mono fun y hy => .inl hy).trans (ho2.mono fun y hy => .inr hy)
  refine ⟨?_, ho⟩
  subst hbdef
  have hheld : Holds ((h.setSize (r.start + span pre) want).store
      (r.start + span pre + want + 8) (rest + 3))
      (R₁ ++ { r with blocks := pre ++ [⟨want, true⟩, ⟨rest, true⟩] ++ post } :: R₂) bins
      (fun _ => False) := by
    refine hs.toHolds.retile hblocks hspan ?sizes hnone ?off' (fun _ _ => Iff.rfl) ho ?touched rfl
      rfl ?tags ?next
    case tags =>
      intro t ht
      simp only [segTags, List.mem_cons, List.not_mem_nil, or_false, Blk.left, ↓reduceIte] at ht
      rcases ht with rfl | rfl
      · exact ht2
      · exact hr2
    case next => simpa [leftOf, Blk.left] using hn2
    case sizes =>
      intro d hd
      simp only [List.mem_cons, List.not_mem_nil, or_false] at hd
      rcases hd with rfl | rfl
      · exact ⟨hwmod, hwmin⟩
      · exact ⟨hrmod, hrest⟩
    case off' =>
      intro x d hx hd
      simp only [places, List.mem_cons, List.not_mem_nil, or_false, Prod.mk.injEq] at hx
      rcases hx with ⟨-, rfl⟩ | ⟨-, rfl⟩
      · cases hd
      · cases hd
    case touched =>
      rintro y (rfl | rfl)
      · simp
      · simp only [span_cons, span_nil]
        omega
  have hpart := parted_append.1 (hb ▸ hs.parted r hr)
  refine Settled.of_carved hheld ?_ hw (hs.lent r hr) fun s hsm => ?_
  · rw [List.append_assoc]
    apply parted_append.2
    refine ⟨hpart.1, ⟨.inl rfl, ?_⟩, .inr fun b hb => ?_⟩
    · cases post with
      | nil => trivial
      | cons d post => exact ⟨.inl rfl, hpart.2.1.2⟩
    · cases hb
      rfl
  · apply hs.others (fun p hp => hp)
    simp only [List.mem_append, List.mem_cons] at hsm ⊢
    tauto

/-- What changing the size of the block at `x` where it is leaves. -/
def ResizeLeaves (h : Heap) (rs : List Region) (x : Nat) (c : Blk) (want : Nat) (h' : Heap) : Prop :=
  ∃ rs' bins' n, Settled h' rs' bins' ∧ Counted h' rs' ∧ want ≤ n ∧ Resized h h' rs rs' x c n ∧
    rs'.map (fun r => (r.addr, r.bytes)) = rs.map (fun r => (r.addr, r.bytes)) ∧
    h'.takes = h.takes ∧ Only (Inside rs) h.mem h'.mem

theorem Counted.resized (hc : Counted h rs) (hrz : Resized h h' rs rs' x c n)
    (hb : h'.liveBytes + (c.size - header) = h.liveBytes + (n - header))
    (hk : h'.liveBlocks = h.liveBlocks) (hr : h'.regionCount = h.regionCount)
    (ht : h'.takenBytes = h.takenBytes)
    (hmap : rs'.map (fun r => (r.addr, r.bytes)) = rs.map fun r => (r.addr, r.bytes)) :
    Counted h' rs' := by
  obtain ⟨ps, hps, hps'⟩ := hrz.used
  have hbytes : rs'.map Region.bytes = rs.map Region.bytes := by
    have := congrArg (List.map Prod.snd) hmap
    simpa [List.map_map, Function.comp_def] using this
  have hlen : rs'.length = rs.length := by
    have := congrArg List.length hmap
    simpa using this
  have hlive := hc.liveBytes
  rw [(hps.map _).sum_eq, List.map_cons, List.sum_cons] at hlive
  refine ⟨?_, ?_, by rw [hr, hlen, hc.regionCount], by rw [ht, hbytes, hc.takenBytes]⟩
  · rw [(hps'.map _).sum_eq, List.map_cons, List.sum_cons]
    simp only at hlive ⊢
    omega
  · rw [hk, hc.liveBlocks, hps.length_eq, hps'.length_eq]
    rfl

/-- What is past the size wanted is given back, where it can be a block. -/
theorem shrink_spec (src : Source) (hs : Settled h (R₁ ++ r :: R₂) bins)
    (hcnt : Counted h (R₁ ++ r :: R₂)) (hb : r.blocks = pre ++ c :: post) (hc : c.used = true)
    (hw : r.whole = false) {want : Nat} (hwmod : want % align = 0) (hwmin : minBlock ≤ want)
    (hfit : want ≤ c.size) :
    ResizeLeaves h (R₁ ++ r :: R₂) (r.start + span pre) c want
      (h.shrink src (r.start + span pre) want r.addr) := by
  have hplace : (r.start + span pre, c) ∈ allPlaces (R₁ ++ r :: R₂) :=
    mem_allPlaces_cut hb
  have husedx := mem_usedPlaces.2 ⟨hplace, hc⟩
  have hsize := hs.sizeOf_eq hplace
  by_cases hrest : minBlock ≤ c.size - want
  case neg =>
    have hno : h.shrink src (r.start + span pre) want r.addr = h := by
      simp only [Heap.shrink, hsize, hrest, ↓reduceIte]
    rw [hno]
    exact ⟨_, bins, c.size, hs, hcnt, hfit, .refl husedx, rfl, rfl, .refl _ _⟩
  case pos =>
    obtain ⟨hs₁, honly₁⟩ := cut_spec hs hb hc hw hwmod hwmin hrest (by omega)
    generalize hrest' : c.size - want = rest at *
    have hsum : c.size = want + rest := by omega
    -- The front as the tail's header is written.
    have hsize₁ : (h.setSize (r.start + span pre) want).sizeOf (r.start + span pre) = want := by
      have hcmod := (hs.shape.place hplace).2.1
      have htop := (hs.shape.place hplace).2.2.2.2
      simp only [sizeLimit, header] at htop
      have htag := (hs.toHolds.tags_at hb).1.1
      exact (htag.setSize hcmod hwmod (by omega)).size hwmod
    generalize hh₁ : (h.setSize (r.start + span pre) want).store
      (r.start + span pre + want + 8) (rest + 3) = h₁ at hs₁ honly₁
    have hcut : h.shrink src (r.start + span pre) want r.addr =
        ({ h₁ with liveBytes := h.liveBytes - rest } : Heap).releaseBlock src
          (r.start + span pre + want) r.addr := by
      have hlb : h₁.liveBytes = h.liveBytes := by
        rw [← hh₁]
        rfl
      simp only [Heap.shrink, hsize, hrest', hrest, ↓reduceIte, Heap.nextBlock, hsize₁, hh₁, hlb]
    have hs₂ : Settled ({ h₁ with liveBytes := h.liveBytes - rest } : Heap)
        (R₁ ++ { r with blocks := pre ++ [⟨want, true⟩, ⟨rest, true⟩] ++ post } :: R₂) bins :=
      hs₁.books rfl rfl rfl rfl
    have hblocks : ({ r with blocks := pre ++ [⟨want, true⟩, ⟨rest, true⟩] ++ post } :
        Region).blocks = (pre ++ [⟨want, true⟩]) ++ ⟨rest, true⟩ :: post := by
      simp
    have haddr : ({ r with blocks := pre ++ [⟨want, true⟩, ⟨rest, true⟩] ++ post } :
        Region).start + span (pre ++ [⟨want, true⟩]) = r.start + span pre + want := by
      simp only [Region.start, span_append, span_cons, span_nil]
      omega
    obtain ⟨rs', bins', hs', hf, hlb, hlk, htk, honly, hwhich⟩ :=
      releaseBlock_spec src hs₂ hblocks rfl hw
    rw [haddr] at hs' hf hlb hlk htk honly hwhich
    simp only at hs' hf hlb hlk htk honly hwhich
    rw [hcut]
    generalize ({ h₁ with liveBytes := h.liveBytes - rest } : Heap).releaseBlock src
      (r.start + span pre + want) r.addr = h₂ at *
    -- The front is in use still, so the region stays.
    have hsame : SameRegions ({ h₁ with liveBytes := h.liveBytes - rest } : Heap) h₂
        (R₁ ++ { r with blocks := pre ++ [⟨want, true⟩, ⟨rest, true⟩] ++ post } :: R₂) rs' := by
      rcases hwhich with ⟨-, hsame⟩ | ⟨hnone, -⟩
      · exact hsame
      · have := hnone ⟨want, true⟩ (by simp)
        cases this
    have hmap : rs'.map (fun r => (r.addr, r.bytes)) =
        (R₁ ++ r :: R₂).map fun r => (r.addr, r.bytes) := by
      rw [hsame.regions]
      simp
    have hb' : r.blocks = pre ++ [c] ++ post := by
      rw [hb]
      simp
    have hspan : want + span [(⟨rest, true⟩ : Blk)] = c.size + span [] := by
      simp
      omega
    obtain ⟨ps, hps, hps'⟩ := usedPlaces_retiled R₁ R₂ hb' hc (by simp) hspan
    have hmem₁ : ({ h₁ with liveBytes := h.liveBytes - rest } : Heap).mem = h₁.mem := rfl
    have hkept₁ : ∀ y d, (y, d) ∈ usedPlaces (R₁ ++ r :: R₂) → y ≠ r.start + span pre →
        KeptAt h.mem h₁.mem y d.size := by
      intro y d hy hne
      apply hs.toHolds.kept_but hplace (a := r.start + span pre + c.size) (Nat.le_refl _) ?_ hy hne
      apply honly₁.mono
      rintro z (rfl | rfl)
      · left
        omega
      · left
        omega
    have hleft : (usedPlaces rs').Perm ((r.start + span pre, ⟨want, true⟩) :: ps) := by
      have hboth := hf.used.symm.trans hps'
      simp only [places, List.filter_cons, ↓reduceIte, List.filter_nil, List.singleton_append]
        at hboth
      exact (hboth.trans (List.Perm.swap _ _ _)).cons_inv
    have hrz : Resized h h₂ (R₁ ++ r :: R₂) rs' (r.start + span pre) c want := by
      refine ⟨⟨ps, hps, hleft⟩, fun y d hy hne => ?_, ?_⟩
      · apply (hkept₁ y d hy hne).trans
        apply hf.kept
        apply hleft.mem_iff.2
        rcases List.mem_cons.1 (hps.mem_iff.1 hy) with heq | hmem
        · simp only [Prod.mk.injEq] at heq
          exact absurd heq.1 hne
        · exact List.mem_cons_of_mem _ hmem
      · have hfront := hf.kept _ _ (hleft.mem_iff.2 List.mem_cons_self)
        have hcutk : KeptAt h.mem h₁.mem (r.start + span pre) want := by
          intro i hi hi'
          apply honly₁
          simp only [header] at hi
          rintro z (rfl | rfl)
          · omega
          · omega
        exact (hcutk.trans hfront).mono (by omega)
    have hlive : c.size - header ≤ h.liveBytes := by
      rw [hcnt.liveBytes, (hps.map _).sum_eq, List.map_cons, List.sum_cons]
      exact Nat.le_add_right _ _
    refine ⟨rs', bins', want, hs', ?_, Nat.le_refl _, hrz, hmap, ?_, ?_⟩
    · apply hcnt.resized hrz ?_ ?_ ?_ ?_ hmap
      · rw [hlb]
        simp only [header, minBlock] at *
        omega
      · rw [hlk, ← hh₁]
        rfl
      · rw [hsame.regionCount, ← hh₁]
        rfl
      · rw [hsame.takenBytes, ← hh₁]
        rfl
    · rw [htk, ← hh₁]
      rfl
    · have hin : Only (Inside (R₁ ++ r :: R₂)) h.mem h₁.mem := by
        apply honly₁.mono
        rintro y (rfl | rfl)
        · exact hs.shape.inside_block hplace (by omega)
        · exact hs.shape.inside_block hplace (by omega)
      apply hin.trans
      exact honly.mono fun y hy => hy.same (by simp)

/-- A block in use and the free one after it made one. -/
theorem join_spec (hs : Settled h (R₁ ++ r :: R₂) bins) (hb : r.blocks = pre ++ c :: d :: post)
    (hc : c.used = true) (hd : d.used = false) :
    ∃ bins', Settled (h.growInto (r.start + span pre))
        (R₁ ++ { r with blocks := pre ++ [⟨c.size + d.size, true⟩] ++ post } :: R₂) bins' ∧
      Only (fun y => (y = r.start + span pre ∨ y = r.start + span pre + (c.size + d.size)) ∨
          LinkSlot bins y) h.mem
        (h.growInto (r.start + span pre)).mem ∧
      h.growInto (r.start + span pre) = { h with
        mem := (h.growInto (r.start + span pre)).mem
        bins := (h.growInto (r.start + span pre)).bins
        liveBytes := h.liveBytes + (c.size + d.size - header - (c.size - header)) } := by
  have hr : r ∈ R₁ ++ r :: R₂ := by simp
  have hb' : r.blocks = (pre ++ [c]) ++ d :: post := by
    rw [hb]
    simp
  have hafter : r.start + span (pre ++ [c]) = r.start + span pre + c.size := by
    simp only [span_append, span_cons, span_nil]
    omega
  have hplace : (r.start + span pre, c) ∈ allPlaces (R₁ ++ r :: R₂) :=
    mem_allPlaces_cut hb
  have hplace' : (r.start + span pre + c.size, d) ∈ allPlaces (R₁ ++ r :: R₂) := by
    rw [← hafter]
    exact mem_allPlaces_cut hb'
  obtain ⟨bins₁, hrem, hlinks, horem⟩ := hs.toHolds.remove hplace' hd id
  obtain ⟨⟨htag, -⟩, -, -⟩ := hrem.tags_at hb
  obtain ⟨-, hnext, -⟩ := hrem.tags_at hb'
  obtain ⟨hmod, hcmod, hcmin, -, -⟩ := hrem.places_mod hb
  obtain ⟨-, hdmod, hdmin, htop, -⟩ := hrem.places_mod hb'
  have hsize : h.sizeOf (r.start + span pre) = c.size := hs.sizeOf_eq hplace
  have hsize₁ := hrem.sizeOf_eq hplace
  have hsize₁' := hrem.sizeOf_eq hplace'
  rw [hafter] at hnext htop
  simp only [minBlock, header, sizeLimit] at hcmin hdmin htop
  have hsz : ∀ b ∈ post, b.size % align = 0 := by
    intro b hbm
    exact ((hs.shape.ok r hr).sizes b (by rw [hb]; simp [hbm])).1
  have hsum : (c.size + d.size) % align = 0 := by
    simp only [align] at *
    omega
  have hpart := parted_append.1 (hb ▸ hs.parted r hr)
  have hw : r.whole = false := hs.whole_iff hb' hd
  generalize hbdef : r.start + span pre = b at *
  rw [hc] at htag
  rw [Nat.add_assoc] at hnext
  have ho1 : Only (fun y => y = b) (h.binRemove (b + c.size)).mem
      ((h.binRemove (b + c.size)).setSize b (c.size + d.size)).mem :=
    Only.store _ _ _ rfl (by omega) (by omega)
  have ht1 : (Tag.mk b (leftOf none pre) (c.size + d.size) true).In
      ((h.binRemove (b + c.size)).setSize b (c.size + d.size)).mem :=
    htag.setSize hcmod hsum (by omega)
  have hs1 := ht1.size hsum
  have hn1 : (firstTag (b + (c.size + d.size)) d.left post).In
      ((h.binRemove (b + c.size)).setSize b (c.size + d.size)).mem := by
    apply hnext.frame ho1
    rintro y rfl
    rw [firstTag_at]
    omega
  simp only at hs1
  generalize hh₁ : (h.binRemove (b + c.size)).setSize b (c.size + d.size) = h₁ at ho1 ht1 hs1 hn1
  have ho2 : Only (fun y => y = b + (c.size + d.size)) h₁.mem
      (h₁.setPrevUsed (b + (c.size + d.size))).mem :=
    Only.store _ _ _ rfl (by omega) (by omega)
  have hn2 := hn1.setPrevUsed (firstTag_size hsz)
  rw [firstTag_at, firstTag_prev] at hn2
  have ht2 : (Tag.mk b (leftOf none pre) (c.size + d.size) true).In
      (h₁.setPrevUsed (b + (c.size + d.size))).mem := by
    apply ht1.frame ho2
    rintro y rfl
    right
    simp only
    omega
  have hs2 := ht2.size hsum
  simp only at hs2
  have hgrow : h.growInto b = { h₁.setPrevUsed (b + (c.size + d.size)) with
      liveBytes := h.liveBytes + (c.size + d.size - header - (c.size - header)) } := by
    have hlb : h₁.liveBytes = h.liveBytes := by
      rw [← hh₁]
      rfl
    simp only [Heap.growInto, Heap.nextBlock, hsize, hsize₁, hsize₁', hh₁, hs1, hs2]
    rw [← hlb]
    rfl
  have honly : Only (fun y => y = b ∨ y = b + (c.size + d.size)) (h.binRemove (b + c.size)).mem
      (h₁.setPrevUsed (b + (c.size + d.size))).mem :=
    (ho1.mono fun y hy => .inl hy).trans (ho2.mono fun y hy => .inr hy)
  have hbins : (h₁.setPrevUsed (b + (c.size + d.size))).bins = (h.binRemove (b + c.size)).bins := by
    rw [← hh₁]
    rfl
  have hregs : (h₁.setPrevUsed (b + (c.size + d.size))).regions =
      (h.binRemove (b + c.size)).regions := by
    rw [← hh₁]
    rfl
  rw [hgrow]
  subst hbdef
  have hblocks : r.blocks = pre ++ [c, d] ++ post := by
    rw [hb]
    simp
  have hspan : span [(⟨c.size + d.size, true⟩ : Blk)] = span [c, d] := by simp
  have hheld : Holds (h₁.setPrevUsed (r.start + span pre + (c.size + d.size)))
      (R₁ ++ { r with blocks := pre ++ [⟨c.size + d.size, true⟩] ++ post } :: R₂) bins₁
      (fun _ => False) := by
    refine hrem.retile hblocks hspan ?sizes ?off ?off' ?same honly ?touched hregs hbins ?tags ?next
    case tags =>
      intro t ht
      rw [segTags, segTags, List.mem_singleton] at ht
      rw [ht]
      exact ht2
    case next => simpa [leftOf, Blk.left] using hn2
    case sizes =>
      intro e he
      rw [List.mem_singleton.1 he]
      simp only [minBlock]
      exact ⟨hsum, by omega⟩
    case off =>
      intro x e hx he
      simp only [places, List.mem_cons, List.not_mem_nil, or_false, Prod.mk.injEq] at hx
      rcases hx with ⟨-, rfl⟩ | ⟨rfl, -⟩
      · rw [hc] at he
        cases he
      · exact .inr rfl
    case off' =>
      intro x e hx he
      simp only [places, List.mem_singleton, Prod.mk.injEq] at hx
      rw [hx.2] at he
      cases he
    case same =>
      intro x hx
      simp only [span_cons, span_nil] at hx
      constructor
      · exact False.elim
      · rintro (hf | rfl)
        · exact hf
        · omega
    case touched =>
      rintro y (rfl | rfl)
      · simp
      · simp
  refine ⟨bins₁, ?_, ?_, ?_⟩
  · refine Settled.of_carved (hheld.books rfl rfl rfl) ?_ hw ?_ fun s hsm => ?_
    · rw [List.append_assoc]
      apply parted_append.2
      refine ⟨hpart.1, ?_, .inr fun b hb => ?_⟩
      · cases post with
        | nil => trivial
        | cons e post => exact ⟨.inl rfl, hpart.2.1.2.2⟩
      · cases hb
        rfl
    · rw [← hh₁]
      exact hs.lent r hr
    · rw [← hh₁]
      apply hs.others (fun p hp => hp)
      simp only [List.mem_append, List.mem_cons] at hsm ⊢
      tauto
  · apply Only.trans (horem.mono fun y hy => .inr hy)
    exact honly.mono fun y hy => .inl hy
  · rw [← hh₁]
    rfl

/-- The free block after one in use is taken in, and what is past the size wanted given back. -/
theorem grow_spec (src : Source) (hs : Settled h (R₁ ++ r :: R₂) bins)
    (hcnt : Counted h (R₁ ++ r :: R₂)) (hb : r.blocks = pre ++ c :: d :: post)
    (hc : c.used = true) (hd : d.used = false) {want : Nat} (hwmod : want % align = 0)
    (hwmin : minBlock ≤ want) (hfit : want ≤ c.size + d.size) :
    ResizeLeaves h (R₁ ++ r :: R₂) (r.start + span pre) c want
      ((h.growInto (r.start + span pre)).shrink src (r.start + span pre) want r.addr) := by
  have hb' : r.blocks = (pre ++ [c]) ++ d :: post := by
    rw [hb]
    simp
  have hw : r.whole = false := hs.whole_iff hb' hd
  have hplace : (r.start + span pre, c) ∈ allPlaces (R₁ ++ r :: R₂) :=
    mem_allPlaces_cut hb
  have hplace' : (r.start + span pre + c.size, d) ∈ allPlaces (R₁ ++ r :: R₂) := by
    rw [show r.start + span pre + c.size = r.start + span (pre ++ [c]) by simp [Nat.add_assoc]]
    exact mem_allPlaces_cut hb'
  have hcmin := (hs.shape.place hplace).2.2.1
  simp only [minBlock] at hcmin
  obtain ⟨bins₁, hs₁, honly, hbooks⟩ := join_spec hs hb hc hd
  generalize h.growInto (r.start + span pre) = h₁ at *
  have hblocks : r.blocks = pre ++ (c :: [d]) ++ post := by
    rw [hb]
    simp
  have hspan : c.size + d.size + span [] = c.size + span [d] := by simp
  obtain ⟨ps, hps, hps'⟩ := usedPlaces_retiled R₁ R₂ hblocks hc (by simpa using hd) hspan
  have hrz : Resized h h₁ (R₁ ++ r :: R₂)
      (R₁ ++ { r with blocks := pre ++ [⟨c.size + d.size, true⟩] ++ post } :: R₂)
      (r.start + span pre) c (c.size + d.size) := by
    refine ⟨⟨ps, hps, by simpa [places] using hps'⟩, fun y e hy hne => ?_, fun i hi hi' => ?_⟩
    · -- The writes are inside the two blocks and the tag after them.
      have hyp := (mem_usedPlaces.1 hy).1
      have hapart : y + e.size ≤ r.start + span pre ∨ r.start + span pre + c.size ≤ y := by
        rcases hs.shape.blocks_apart hyp hplace with ⟨heq, -⟩ | hlt
        · exact absurd heq hne
        · exact hlt
      have hemin := (hs.shape.place hyp).2.2.1
      simp only [minBlock] at hemin
      apply hs.toHolds.kept (a := r.start + span pre) (n := c.size + d.size) (honly.mono ?_) hy
      · rcases hs.shape.blocks_apart hyp hplace' with ⟨-, rfl⟩ | hlt | hlt
        · rw [(mem_usedPlaces.1 hy).2] at hd
          cases hd
        · omega
        · omega
      · rintro z (hz | hz)
        · left
          omega
        · exact .inr hz
    · apply honly
      rintro z (hz | hz)
      · simp only [header] at hi
        omega
      · obtain ⟨w, e, hw', he, rfl⟩ := hs.toHolds.linkSlot hz
        have hmin := (hs.shape.place hw').2.2.1
        simp only [header, minBlock] at hi hmin ⊢
        have hi' : i < r.start + span pre + c.size := by omega
        rcases hs.shape.blocks_apart hplace hw' with ⟨-, rfl⟩ | hlt | hlt
        · rw [hc] at he
          cases he
        · omega
        · omega
  have hcnt₁ : Counted h₁
      (R₁ ++ { r with blocks := pre ++ [⟨c.size + d.size, true⟩] ++ post } :: R₂) := by
    apply hcnt.resized hrz
    · rw [hbooks]
      simp only [header]
      omega
    · rw [hbooks]
    · rw [hbooks]
    · rw [hbooks]
    · simp
  have hblocks₁ : ({ r with blocks := pre ++ [⟨c.size + d.size, true⟩] ++ post } : Region).blocks =
      pre ++ ⟨c.size + d.size, true⟩ :: post := by
    simp
  obtain ⟨rs', bins', n, hs', hcnt', hle, hrz', hmap, htk, hin⟩ :=
    shrink_spec src hs₁ hcnt₁ hblocks₁ rfl hw hwmod hwmin hfit
  refine ⟨rs', bins', n, hs', hcnt', hle, hrz.trans hrz' (Nat.le_add_right _ _), ?_, ?_, ?_⟩
  · rw [hmap]
    simp
  · rw [show h₁.takes = h.takes by rw [hbooks]] at htk
    exact htk
  · have hin₁ : Only (Inside (R₁ ++ r :: R₂)) h.mem h₁.mem := by
      apply honly.mono
      rintro y ((rfl | rfl) | hy)
      · exact hs.shape.inside_block hplace (by omega)
      · exact hs.shape.inside_block hplace' (by omega)
      · exact hs.toHolds.inside_link hy
    exact hin₁.trans (hin.mono fun y hy => hy.same (by simp))

end Resize

end ReconOS.Malloc
