import ReconOS.Malloc.Grant
import ReconOS.Malloc.Release

/-! What each call of the allocator does to a settled state. -/
namespace ReconOS.Malloc

open Mem (Only)

/-- The counters agree with the blocks. -/
structure Counted (h : Heap) (rs : List Region) : Prop where
  liveBytes : h.liveBytes = ((usedPlaces rs).map fun p => p.2.size - header).sum
  liveBlocks : h.liveBlocks = (usedPlaces rs).length
  regionCount : h.regionCount = rs.length
  takenBytes : h.takenBytes = (rs.map Region.bytes).sum

/-- A source grants aligned ranges that end in memory and overlap nothing it has out. -/
structure Source.Honest (src : Source) : Prop where
  aligned : ∀ i lent ask, src.take i lent ask % align = 0
  top : ∀ i lent ask, src.take i lent ask ≠ 0 → src.take i lent ask + ask ≤ sizeLimit
  apart : ∀ i lent ask, src.take i lent ask ≠ 0 → ∀ p ∈ lent,
    src.take i lent ask + ask ≤ p.1 ∨ p.1 + p.2 ≤ src.take i lent ask

/-- A size for which no sum of the allocator's wraps unseen. -/
def Sizable (bytes : Nat) : Prop :=
  bytes < sizeLimit ∧ ¬(sizeLimit - 80 < bytes ∧ bytes ≤ sizeLimit - 32)

instance (bytes : Nat) : Decidable (Sizable bytes) := inferInstanceAs (Decidable (_ ∧ _))

theorem wantFor_spec {bytes want : Nat} (hb : Sizable bytes) (h : wantFor bytes = some want) :
    want % align = 0 ∧ minBlock ≤ want ∧ bytes + header ≤ want ∧ want + 64 ≤ sizeLimit := by
  obtain ⟨hlt, hnot⟩ := hb
  unfold wantFor at h
  simp only at h
  split at h
  · cases h
  · rename_i hge
    cases h
    unfold alignUp at *
    simp only [align, header, sizeLimit, minBlock] at *
    omega

theorem askFor_spec {want : Nat} (hmod : want % align = 0)
    (htop : want + 64 ≤ sizeLimit) (whole : Bool) (hsmall : whole = false → want < largeBlock) :
    regionHeader + want + header ≤ Heap.askFor want whole ∧
      Heap.askFor want whole % align = 0 := by
  have hneed : (regionHeader + want + header) % sizeLimit = want + 48 := by
    simp only [regionHeader, header, sizeLimit] at *
    omega
  have hup : alignUp (want + 48) = want + 48 := by
    simp only [alignUp, align, sizeLimit] at *
    omega
  unfold Heap.askFor
  simp only [hneed, hup]
  cases whole with
  | true =>
    simp only [↓reduceIte, Nat.lt_irrefl]
    simp only [regionHeader, header, align] at *
    omega
  | false =>
    have hlt := hsmall rfl
    have hnot : ¬regionBytes < want + 48 := by
      simp only [largeBlock, regionBytes] at *
      omega
    simp only [Bool.false_eq_true, ↓reduceIte, hnot]
    constructor
    · simp only [largeBlock, regionBytes, regionHeader, header] at *
      omega
    · rfl

/-! ## Finding a block's region -/

section RegionOf

variable {h : Heap} {R₁ R₂ : List Region} {r : Region} {bins : Nat → List Nat} {off : Nat → Prop}
  {x : Nat} {c : Blk}

theorem regionFrom_eq {rs : List Region} {fuel prev cur : Nat}
    (hp : Mem.Path h.mem 0 prev cur (rs.map Region.addr) 0)
    (hbytes : ∀ s ∈ rs, h.bytesOf s.addr = s.bytes) (hr : r ∈ rs)
    (hin : r.addr ≤ x ∧ x < r.addr + r.bytes)
    (hout : ∀ s ∈ rs, s ≠ r → ¬(s.addr ≤ x ∧ x < s.addr + s.bytes)) (hf : rs.length < fuel) :
    h.regionFrom x fuel cur = r.addr := by
  induction rs generalizing fuel prev cur with
  | nil => cases hr
  | cons s rs ih =>
    obtain ⟨fuel, rfl⟩ : ∃ f, fuel = f + 1 := ⟨fuel - 1, by simp at hf; omega⟩
    obtain ⟨rfl, h0, -, hp⟩ := hp
    rw [Heap.regionFrom, if_neg h0, hbytes s List.mem_cons_self]
    by_cases heq : s = r
    · subst heq
      rw [if_pos hin]
    · rw [if_neg (hout s List.mem_cons_self heq)]
      have hr' : r ∈ rs := by
        rcases List.mem_cons.1 hr with rfl | hr
        · exact absurd rfl heq
        · exact hr
      exact ih hp (fun q hq => hbytes q (List.mem_cons_of_mem s hq)) hr'
        (fun q hq => hout q (List.mem_cons_of_mem s hq)) (by simpa using hf)

theorem regionOf_eq (hs : Holds h (R₁ ++ r :: R₂) bins off) (hx : (x, c) ∈ r.places) :
    h.regionOf x = r.addr := by
  have hr : r ∈ R₁ ++ r :: R₂ := by simp
  have hok := hs.shape.ok r hr
  have hin := hok.place hx
  have hft := hok.fence_top
  simp only [regionHeader, header, minBlock] at hin hft
  apply regionFrom_eq hs.chained.links hs.chained.bytes hr (by omega)
  · intro s hsm hne
    have := hs.shape.region_apart hsm hr hne
    omega
  · have hlen := hs.shape.nodes.length_lt fun y hy => Mem.Path.ne_zero hs.chained.links hy
    rw [List.length_map] at hlen
    exact hlen

/-- A block has a region, and stands somewhere in it. -/
theorem mem_allPlaces_split {rs : List Region} (hx : (x, c) ∈ allPlaces rs) :
    ∃ R₁ r R₂ pre post, rs = R₁ ++ r :: R₂ ∧ r.blocks = pre ++ c :: post ∧
      x = r.start + span pre := by
  obtain ⟨r, hr, hxr⟩ := mem_allPlaces.1 hx
  obtain ⟨pre, post, hb, heq⟩ := mem_places_split hxr
  obtain ⟨R₁, R₂, rfl⟩ := List.append_of_mem hr
  exact ⟨R₁, r, R₂, pre, post, rfl, hb, heq⟩

theorem Settled.whole_iff (hs : Settled h (R₁ ++ r :: R₂) bins) {pre post : List Blk}
    (hb : r.blocks = pre ++ c :: post) (hc : c.used = false) : r.whole = false := by
  have hr : r ∈ R₁ ++ r :: R₂ := by simp
  cases hw : r.whole with
  | false => rfl
  | true =>
    obtain ⟨d, hd⟩ := hs.alone r hr hw
    obtain ⟨e, he, heu⟩ := hs.inUse r hr
    have hcm : c ∈ r.blocks := by
      rw [hb]
      simp
    rw [hd, List.mem_singleton] at he hcm
    rw [hcm, ← he, heu] at hc
    cases hc

end RegionOf

/-! ## Handing out -/

/-- Which regions a call left: those there were, or one more. -/
inductive Grown (h h' : Heap) (rs rs' : List Region) : Prop
  | same : rs'.map (fun r => (r.addr, r.bytes)) = rs.map (fun r => (r.addr, r.bytes)) →
      h'.lent = h.lent → h'.takes = h.takes → Grown h h' rs rs'
  | one (a ask : Nat) : rs'.map (fun r => (r.addr, r.bytes)) =
        (a, ask) :: rs.map (fun r => (r.addr, r.bytes)) →
      h'.lent = (a, ask) :: h.lent → h'.takes = h.takes + 1 → Grown h h' rs rs'

/-- A request refused changes no block; one granted adds a block to those in use. -/
def Allocated (h h' : Heap) (rs rs' : List Region) (p bytes : Nat) : Prop :=
  (p = 0 ∧ rs' = rs ∧ h'.mem = h.mem) ∨
    ∃ b n, p = b + header ∧ bytes + header ≤ n ∧ Given h h' rs rs' b n

section Malloc

variable {h : Heap} {rs R₁ R₂ : List Region} {r : Region} {bins : Nat → List Nat} {src : Source}

theorem Counted.handed {h' : Heap} {rs' : List Region} {b n : Nat} (hc : Counted h rs)
    (hg : Given h h' rs rs' b n) (ho : HandedOut h h' (n - header))
    (hmap : rs'.map (fun r => (r.addr, r.bytes)) = rs.map fun r => (r.addr, r.bytes)) :
    Counted h' rs' := by
  have hbytes : rs'.map Region.bytes = rs.map Region.bytes := by
    have := congrArg (List.map Prod.snd) hmap
    simpa [List.map_map, Function.comp_def] using this
  have hlen : rs'.length = rs.length := by
    have := congrArg List.length hmap
    simpa using this
  rw [show h' = _ from ho]
  refine ⟨?_, ?_, ?_, ?_⟩
  · rw [(hg.used.map _).sum_eq, List.map_cons, List.sum_cons, ← hc.liveBytes, Nat.add_comm]
  · rw [hg.used.length_eq, List.length_cons, ← hc.liveBlocks]
  · rw [hlen, ← hc.regionCount]
  · rw [hbytes, ← hc.takenBytes]

theorem Settled.of_carved {h' : Heap} {bins' : Nat → List Nat} {n : Nat} {pre ds post : List Blk}
    (hheld : Holds h' (R₁ ++ { r with blocks := pre ++ (⟨n, true⟩ :: ds) ++ post } :: R₂) bins'
      (fun _ => False))
    (hpart : Parted (pre ++ (⟨n, true⟩ :: ds) ++ post)) (hw : r.whole = false)
    (hr : (r.addr, r.bytes) ∈ h'.lent)
    (hothers : ∀ s ∈ R₁ ++ R₂, Parted s.blocks ∧ (∃ b ∈ s.blocks, b.used = true) ∧
      (s.whole = true → ∃ b, s.blocks = [b]) ∧ (s.addr, s.bytes) ∈ h'.lent) :
    Settled h' (R₁ ++ { r with blocks := pre ++ (⟨n, true⟩ :: ds) ++ post } :: R₂) bins' := by
  have hmem : ∀ s ∈ R₁ ++ { r with blocks := pre ++ (⟨n, true⟩ :: ds) ++ post } :: R₂,
      s = { r with blocks := pre ++ (⟨n, true⟩ :: ds) ++ post } ∨ s ∈ R₁ ++ R₂ := by
    intro s hs
    simp only [List.mem_append, List.mem_cons] at hs ⊢
    tauto
  refine ⟨hheld, fun s hs => ?_, fun s hs => ?_, fun s hs => ?_, fun s hs => ?_⟩
  · rcases hmem s hs with rfl | hs
    · exact hpart
    · exact (hothers s hs).1
  · rcases hmem s hs with rfl | hs
    · exact ⟨⟨n, true⟩, by simp, rfl⟩
    · exact (hothers s hs).2.1
  · rcases hmem s hs with rfl | hs
    · intro hwhole
      rw [show ({ r with blocks := pre ++ (⟨n, true⟩ :: ds) ++ post } : Region).whole = r.whole
        from rfl, hw] at hwhole
      cases hwhole
    · exact (hothers s hs).2.2.1
  · rcases hmem s hs with rfl | hs
    · exact hr
    · exact (hothers s hs).2.2.2

/-- A block found on the lists is carved. -/
theorem carve_settled (hs : Settled h rs bins) (hcnt : Counted h rs) {b want : Nat} {c : Blk}
    (hb : (b, c) ∈ allPlaces rs) (hc : c.used = false) (hwmod : want % align = 0)
    (hw : minBlock ≤ want) (hfit : want ≤ c.size) :
    ∃ rs' bins' n, Settled (h.carve b want).2 rs' bins' ∧ Counted (h.carve b want).2 rs' ∧
      (h.carve b want).1 = b + header ∧ want ≤ n ∧ Given h (h.carve b want).2 rs rs' b n ∧
      Grown h (h.carve b want).2 rs rs' ∧ Only (Inside rs') h.mem (h.carve b want).2.mem := by
  obtain ⟨R₁, r, R₂, pre, post, rfl, hblocks, rfl⟩ := mem_allPlaces_split hb
  have hr : r ∈ R₁ ++ r :: R₂ := by simp
  obtain ⟨n, ds, bins', hp, hheld, hgiven, hle, hpart, hbooks, hinside⟩ :=
    carve_spec hs.toHolds hblocks hc (hs.parted r hr) hwmod hw hfit
  have hlent : (h.carve (r.start + span pre) want).2.lent = h.lent := by
    rw [show (h.carve (r.start + span pre) want).2 = _ from hbooks]
  have htakes : (h.carve (r.start + span pre) want).2.takes = h.takes := by
    rw [show (h.carve (r.start + span pre) want).2 = _ from hbooks]
  have hmap : (R₁ ++ { r with blocks := pre ++ (⟨n, true⟩ :: ds) ++ post } :: R₂).map
      (fun r => (r.addr, r.bytes)) = (R₁ ++ r :: R₂).map fun r => (r.addr, r.bytes) := by
    simp
  refine ⟨_, bins', n, Settled.of_carved hheld hpart (hs.whole_iff hblocks hc) ?_ fun s hsm => ?_,
    hcnt.handed hgiven hbooks hmap, hp, hle, hgiven, .same hmap hlent htakes,
    hinside.mono fun y hy => hy.same hmap⟩
  · rw [hlent]
    exact hs.lent r hr
  · have hsm' : s ∈ R₁ ++ r :: R₂ := by
      simp only [List.mem_append, List.mem_cons] at hsm ⊢
      tauto
    rw [hlent]
    exact ⟨hs.parted s hsm', hs.inUse s hsm', hs.alone s hsm', hs.lent s hsm'⟩

/-- The account of a region newly granted. -/
def Accounted (h h' : Heap) (a ask : Nat) : Prop :=
  h' = { h with
    mem := h'.mem, regions := a, takes := h.takes + 1, takenBytes := h.takenBytes + ask,
    regionCount := h.regionCount + 1, called := h.called + 1, lent := (a, ask) :: h.lent }

theorem takeRegion_spec (hsrc : src.Honest) (hs : Settled h rs bins) {want : Nat}
    (hmod : want % align = 0) (hw : minBlock ≤ want) (htop : want + 64 ≤ sizeLimit) (whole : Bool)
    (hsmall : whole = false → want < largeBlock) :
    (h.takeRegion src want whole =
        (0, { h with called := h.called + 1, refusals := h.refusals + 1 })) ∨
      ∃ a ask h₁, a ≠ 0 ∧ regionHeader + want + header ≤ ask ∧
        h.takeRegion src want whole =
          (a, if whole = true then h₁ else h₁.binInsert (a + regionHeader)) ∧
        Holds h₁ (newRegion a ask whole :: rs) bins (fun x => x = a + regionHeader) ∧
        (∀ x d, (x, d) ∈ usedPlaces rs → KeptAt h.mem h₁.mem x d.size) ∧
        Only (Inside (newRegion a ask whole :: rs)) h.mem h₁.mem ∧ Accounted h h₁ a ask := by
  obtain ⟨hask, haskmod⟩ := askFor_spec hmod htop whole hsmall
  unfold Heap.takeRegion
  simp only
  generalize hadef : src.take h.called h.lent (Heap.askFor want whole) = a
  generalize Heap.askFor want whole = ask at *
  split
  · exact .inl rfl
  · rename_i h0
    right
    have h0' : src.take h.called h.lent ask ≠ 0 := by rwa [hadef]
    have htop' := hsrc.top _ _ _ h0'
    have hamod := hsrc.aligned h.called h.lent ask
    have hlent := hsrc.apart _ _ _ h0'
    rw [hadef] at htop' hamod hlent
    have hapart : ∀ s ∈ rs, a + ask ≤ s.addr ∨ s.addr + s.bytes ≤ a := by
      intro s hsm
      exact hlent _ (hs.lent s hsm)
    have hheld : Holds { h with called := h.called + 1, lent := (a, ask) :: h.lent } rs bins
        (fun _ => False) := hs.toHolds.books rfl rfl rfl
    have hbig : regionHeader + minBlock + header ≤ ask := by
      simp only [regionHeader, header, minBlock] at *
      omega
    obtain ⟨h₁, hlay, hh1, honly, hrest⟩ :=
      layRegion_spec hheld hapart h0 hamod hbig haskmod htop' whole
    refine ⟨a, ask, h₁, h0, hask, ?_, hh1, ?_, honly.mono ?_, hrest⟩
    · rw [← hlay]
    · intro x d hx i hi hi'
      apply honly
      have hx' := (mem_usedPlaces.1 hx).1
      obtain ⟨s, hsm, hxs⟩ := mem_allPlaces.1 hx'
      have hin := (hs.shape.ok s hsm).place hxs
      have hft := (hs.shape.ok s hsm).fence_top
      have hap := hapart s hsm
      rintro y (hy | ⟨q, hq, rfl⟩)
      · simp only [header, regionHeader] at *
        omega
      · have := hs.shape.header_apart hq hx'
        simp only [header, regionHeader] at *
        omega
    · rintro y (hy | ⟨q, hq, rfl⟩)
      · exact ⟨_, List.mem_cons_self, hy⟩
      · exact (hs.shape.inside_header hq).mono fun _ => List.mem_cons_of_mem _

theorem Settled.others (hs : Settled h rs bins) {h' : Heap} (hl : ∀ p ∈ h.lent, p ∈ h'.lent)
    {s : Region} (hsm : s ∈ rs) : Parted s.blocks ∧ (∃ b ∈ s.blocks, b.used = true) ∧
      (s.whole = true → ∃ b, s.blocks = [b]) ∧ (s.addr, s.bytes) ∈ h'.lent :=
  ⟨hs.parted s hsm, hs.inUse s hsm, hs.alone s hsm, hl _ (hs.lent s hsm)⟩

theorem Counted.granted (whole : Bool) {h' : Heap} {rs' : List Region} {a ask b n : Nat}
    {h₁ : Heap} (hc : Counted h rs) (ha : Accounted h h₁ a ask)
    (hg : Given h h' rs rs' b n) (ho : HandedOut h₁ h' (n - header))
    (hmap : rs'.map (fun r => (r.addr, r.bytes)) =
      (newRegion a ask whole :: rs).map fun r => (r.addr, r.bytes)) : Counted h' rs' := by
  have hbytes : rs'.map Region.bytes = ask :: rs.map Region.bytes := by
    have := congrArg (List.map Prod.snd) hmap
    simpa [List.map_map, Function.comp_def, newRegion] using this
  have hlen : rs'.length = rs.length + 1 := by
    have := congrArg List.length hmap
    simpa using this
  have hfields : h'.liveBytes = h.liveBytes + (n - header) ∧ h'.liveBlocks = h.liveBlocks + 1 ∧
      h'.regionCount = h.regionCount + 1 ∧ h'.takenBytes = h.takenBytes + ask := by
    rw [show h' = _ from ho, show h₁ = _ from ha]
    exact ⟨rfl, rfl, rfl, rfl⟩
  obtain ⟨hlb, hlk, hrc, htb⟩ := hfields
  refine ⟨?_, ?_, ?_, ?_⟩
  · rw [hlb, (hg.used.map _).sum_eq, List.map_cons, List.sum_cons, ← hc.liveBytes, Nat.add_comm]
  · rw [hlk, hg.used.length_eq, List.length_cons, ← hc.liveBlocks]
  · rw [hrc, hlen, ← hc.regionCount]
  · rw [htb, hbytes, List.sum_cons, ← hc.takenBytes, Nat.add_comm]

/-- What a call that may hand out a block leaves. -/
def MallocLeaves (h : Heap) (rs : List Region) (bytes : Nat) (out : Nat × Heap) : Prop :=
  ∃ rs' bins', Settled out.2 rs' bins' ∧ Counted out.2 rs' ∧
    Allocated h out.2 rs rs' out.1 bytes ∧ Grown h out.2 rs rs' ∧
    Only (Inside rs') h.mem out.2.mem

theorem MallocLeaves.refused {bytes : Nat} (hs : Settled h rs bins) (hc : Counted h rs) :
    MallocLeaves h rs bytes
      (0, { h with called := h.called + 1, refusals := h.refusals + 1 }) := by
  refine ⟨rs, bins, ⟨hs.toHolds.books rfl rfl rfl, hs.parted, hs.inUse, hs.alone, hs.lent⟩,
    ⟨hc.liveBytes, hc.liveBlocks, hc.regionCount, hc.takenBytes⟩, .inl ⟨rfl, rfl, rfl⟩,
    .same rfl rfl rfl, .refl _ _⟩

theorem mallocLarge_spec (hsrc : src.Honest) (hs : Settled h rs bins) (hc : Counted h rs)
    {bytes want : Nat} (hmod : want % align = 0) (hw : minBlock ≤ want)
    (htop : want + 64 ≤ sizeLimit) (hbytes : bytes + header ≤ want) :
    MallocLeaves h rs bytes (h.mallocLarge src want) := by
  unfold Heap.mallocLarge
  rcases takeRegion_spec hsrc hs hmod hw htop true (by simp) with
    href | ⟨a, ask, h₁, h0, hask, htake, hheld, hkept, hinside, hacc⟩
  · simp only [href, ↓reduceIte]
    exact .refused hs hc
  · simp only [htake, h0, ↓reduceIte]
    have hblocks : (newRegion a ask true).blocks =
        [] ++ ⟨ask - regionHeader - header, false⟩ :: [] := rfl
    have hstart : (newRegion a ask true).start + span [] = a + regionHeader := rfl
    rw [← List.nil_append (newRegion a ask true :: rs)] at hheld
    obtain ⟨hp, hheld', honly, hbooks⟩ := handOut_spec hheld hblocks rfl rfl
    rw [hstart] at hp hheld' honly hbooks
    generalize hn : ask - regionHeader - header = n at *
    have hnle : bytes + header ≤ n := by
      simp only [regionHeader, header] at *
      omega
    have hgiven : Given h (h₁.handOut (a + regionHeader)).2 rs
        ({ newRegion a ask true with blocks := [] ++ [(⟨n, true⟩ : Blk)] ++ [] } :: rs)
        (a + regionHeader) n := by
      constructor
      · simp only [usedPlaces, allPlaces, List.flatMap_cons, Region.places, Region.start, newRegion,
          List.nil_append, List.append_nil, places, List.filter_append]
        rw [filter_used_cons rfl]
        simp
      · intro x d hx
        apply (hkept x d hx).trans
        have hold : (x, d) ∈ usedPlaces ([] ++ newRegion a ask true :: rs) := by
          obtain ⟨hx, hd⟩ := mem_usedPlaces.1 hx
          apply mem_usedPlaces.2
          refine ⟨?_, hd⟩
          rw [mem_allPlaces_mid]
          exact .inr hx
        apply Holds.given_kept hheld hblocks rfl ?_ hold
        apply honly.mono
        rintro y (rfl | rfl)
        · left
          rw [hstart]
          omega
        · left
          rw [hstart]
          simp only
          omega
    have hlent : (h₁.handOut (a + regionHeader)).2.lent = (a, ask) :: h.lent := by
      rw [show (h₁.handOut (a + regionHeader)).2 = _ from hbooks, show h₁ = _ from hacc]
    have htakes : (h₁.handOut (a + regionHeader)).2.takes = h.takes + 1 := by
      rw [show (h₁.handOut (a + regionHeader)).2 = _ from hbooks, show h₁ = _ from hacc]
    have hkeeps : ∀ p ∈ h.lent, p ∈ (h₁.handOut (a + regionHeader)).2.lent := by
      intro p hp
      rw [hlent]
      exact List.mem_cons_of_mem _ hp
    have hothers : ∀ s ∈ rs, _ := fun s hsm => hs.others hkeeps hsm
    refine ⟨_, bins, ⟨hheld'.off_congr fun x => by tauto, ?_, ?_, ?_, ?_⟩, ?_,
      .inr ⟨_, n, hp, hnle, hgiven⟩, .one a ask (by simp [newRegion]) hlent htakes, ?_⟩
    · intro s hsm
      rcases List.mem_cons.1 hsm with rfl | hsm
      · trivial
      · exact (hothers s hsm).1
    · intro s hsm
      rcases List.mem_cons.1 hsm with rfl | hsm
      · exact ⟨⟨n, true⟩, by simp, rfl⟩
      · exact (hothers s hsm).2.1
    · intro s hsm
      rcases List.mem_cons.1 hsm with rfl | hsm
      · exact fun _ => ⟨⟨n, true⟩, rfl⟩
      · exact (hothers s hsm).2.2.1
    · intro s hsm
      rcases List.mem_cons.1 hsm with rfl | hsm
      · rw [hlent]
        exact List.mem_cons_self
      · exact (hothers s hsm).2.2.2
    · exact hc.granted true hacc hgiven hbooks (by simp)
    · have hplace : (a + regionHeader, (⟨n, false⟩ : Blk)) ∈
          allPlaces ([] ++ newRegion a ask true :: rs) := by
        rw [← hstart]
        exact mem_allPlaces_cut hblocks
      have hout : Only (Inside ([] ++ newRegion a ask true :: rs)) h₁.mem
          (h₁.handOut (a + regionHeader)).2.mem := by
        apply honly.mono
        rintro y (rfl | rfl)
        · exact hheld.shape.inside_block hplace (by simp)
        · exact hheld.shape.inside_block hplace (by simp)
      exact (hinside.trans hout).mono fun y hy => hy.same (by simp)

/-- A block of a region just granted, carved: no older block was large enough. -/
theorem carve_granted (hs : Settled h rs bins) (hc : Counted h rs) {a ask b want : Nat}
    {h₁ h₂ : Heap} {bins' : Nat → List Nat} {c : Blk}
    (hheld : Holds h₂ (newRegion a ask false :: rs) bins' (fun _ => False))
    (hkept : ∀ x d, (x, d) ∈ usedPlaces rs → KeptAt h.mem h₂.mem x d.size)
    (hinside : Only (Inside (newRegion a ask false :: rs)) h.mem h₂.mem)
    (hacc : Accounted h h₁ a ask) (hsame : OnlyLists h₁ h₂)
    (hb : (b, c) ∈ (newRegion a ask false).places) (hwmod : want % align = 0)
    (hw : minBlock ≤ want) (hfit : want ≤ c.size) {bytes : Nat} (hbytes : bytes + header ≤ want) :
    MallocLeaves h rs bytes (h₂.carve b want) := by
  simp only [Region.places, newRegion, places, List.mem_singleton, Prod.mk.injEq] at hb
  obtain ⟨rfl, rfl⟩ := hb
  have hblocks : (newRegion a ask false).blocks =
      [] ++ ⟨ask - regionHeader - header, false⟩ :: [] := rfl
  have hstart : (newRegion a ask false).start + span [] = (Region.start ⟨a, ask, false,
    [⟨ask - regionHeader - header, false⟩]⟩) := rfl
  rw [← List.nil_append (newRegion a ask false :: rs)] at hheld
  obtain ⟨n, ds, bins₃, hp, hheld', hgiven, hle, hpart, hbooks, honly⟩ :=
    carve_spec hheld hblocks rfl trivial hwmod hw hfit
  rw [hstart] at hp hheld' hgiven hbooks honly
  generalize hout : h₂.carve (Region.start ⟨a, ask, false,
    [⟨ask - regionHeader - header, false⟩]⟩) want = out at *
  obtain ⟨p, h₃⟩ := out
  have hbooks₁ : HandedOut h₁ h₃ (n - header) := by
    rw [HandedOut, show h₃ = _ from hbooks, show h₂ = _ from hsame]
  have hlent : h₃.lent = (a, ask) :: h.lent := by
    rw [show h₃ = _ from hbooks₁, show h₁ = _ from hacc]
  have htakes : h₃.takes = h.takes + 1 := by
    rw [show h₃ = _ from hbooks₁, show h₁ = _ from hacc]
  have hold : ∀ x d, (x, d) ∈ usedPlaces rs →
      (x, d) ∈ usedPlaces ([] ++ newRegion a ask false :: rs) := by
    intro x d hx
    obtain ⟨hx, hd⟩ := mem_usedPlaces.1 hx
    rw [mem_usedPlaces, mem_allPlaces_mid]
    exact ⟨.inr hx, hd⟩
  have hgiven' : Given h h₃ rs ([] ++ { newRegion a ask false with
      blocks := [] ++ (⟨n, true⟩ :: ds) ++ [] } :: rs) (Region.start ⟨a, ask, false,
        [⟨ask - regionHeader - header, false⟩]⟩) n := by
    refine ⟨hgiven.used.trans (List.Perm.cons _ ?_), fun x d hx => ?_⟩
    · apply usedPlaces_mid.trans
      simp [Region.places, newRegion, places]
    · exact (hkept x d hx).trans (hgiven.kept x d (hold x d hx))
  refine ⟨_, bins₃, Settled.of_carved hheld' hpart rfl ?_ fun s hsm => ?_,
    hc.granted false hacc hgiven' hbooks₁ (by simp [newRegion]), .inr ⟨_, n, hp, ?_, hgiven'⟩,
    .one a ask (by simp [newRegion]) hlent htakes, ?_⟩
  · rw [hlent]
    exact List.mem_cons_self
  · apply hs.others ?_ (by simpa using hsm)
    intro q hq
    rw [hlent]
    exact List.mem_cons_of_mem _ hq
  · omega
  · exact (hinside.trans honly).mono fun y hy => hy.same (by simp)

theorem mallocSmall_spec (hsrc : src.Honest) (hs : Settled h rs bins) (hc : Counted h rs)
    {bytes want : Nat} (hmod : want % align = 0) (hw : minBlock ≤ want) (hsmall : want < largeBlock)
    (hbytes : bytes + header ≤ want) : MallocLeaves h rs bytes (h.mallocSmall src want) := by
  have htop : want + 64 ≤ sizeLimit := by
    simp only [largeBlock, regionBytes, sizeLimit] at *
    omega
  unfold Heap.mallocSmall
  simp only
  rcases findFit_spec hs.toHolds want with ⟨hz, hnone⟩ | ⟨hne, c, hplace, hcu, hfit⟩
  case inr =>
    rw [if_pos hne]
    obtain ⟨rs', bins', n, hs', hc', hp, hle, hgiven, hgrown, hinside⟩ :=
      carve_settled hs hc hplace hcu hmod hw hfit
    exact ⟨rs', bins', hs', hc', .inr ⟨_, n, hp, by omega, hgiven⟩, hgrown, hinside⟩
  case inl =>
    rw [if_neg (by simpa using hz)]
    rcases takeRegion_spec hsrc hs hmod hw htop false (fun _ => hsmall) with
      href | ⟨a, ask, h₁, h0, hask, htake, hheld, hkept, hinside, hacc⟩
    · simp only [href, ↓reduceIte]
      exact .refused hs hc
    simp only [htake, h0, Bool.false_eq_true, ↓reduceIte]
    have hnew : (a + regionHeader, (⟨ask - regionHeader - header, false⟩ : Blk)) ∈
        allPlaces (newRegion a ask false :: rs) := by
      simp [allPlaces, newRegion, Region.places, Region.start, places]
    obtain ⟨bins', hins, -, hins'⟩ := hheld.insert hnew rfl rfl
    have hlisted : Holds (h₁.binInsert (a + regionHeader)) (newRegion a ask false :: rs) bins'
        (fun _ => False) := hins.off_congr (by simp)
    have hinside' : Only (Inside (newRegion a ask false :: rs)) h₁.mem
        (h₁.binInsert (a + regionHeader)).mem := by
      apply hins'.mono
      rintro y (rfl | hy)
      · have hsz := (hheld.shape.place hnew).2.2.1
        apply hheld.shape.inside_block hnew
        simp only [header, minBlock] at *
        omega
      · exact hheld.inside_link hy
    have hkept' : ∀ x d, (x, d) ∈ usedPlaces rs →
        KeptAt h.mem (h₁.binInsert (a + regionHeader)).mem x d.size := by
      intro x d hx
      apply (hkept x d hx).trans
      apply hheld.kept_links hins'
      · rintro y (rfl | hy)
        · exact ⟨_, _, hnew, rfl, rfl⟩
        · obtain ⟨w, e, hw', he, rfl⟩ := hheld.linkSlot hy
          exact ⟨w, e, hw', he, rfl⟩
      · obtain ⟨hx, hd⟩ := mem_usedPlaces.1 hx
        rw [mem_usedPlaces]
        refine ⟨?_, hd⟩
        obtain ⟨s, hsm, hxs⟩ := mem_allPlaces.1 hx
        exact mem_allPlaces.2 ⟨s, List.mem_cons_of_mem _ hsm, hxs⟩
    -- The block of the new region is large enough, and it alone.
    rcases findFit_spec hlisted want with ⟨hz', hnone'⟩ | ⟨hne, c, hplace, hcu, hfit⟩
    · have := hnone' _ _ hnew rfl
      simp only [regionHeader, header] at this hask
      omega
    · rw [if_neg hne]
      obtain ⟨s, hsm, hxs⟩ := mem_allPlaces.1 hplace
      rcases List.mem_cons.1 hsm with rfl | hsm
      · exact carve_granted hs hc hlisted hkept' (hinside.trans hinside') hacc (.binInsert _ _) hxs
          hmod hw hfit hbytes
      · have := hnone _ _ (mem_allPlaces.2 ⟨s, hsm, hxs⟩) hcu
        omega

/-- Every request a size can be made of is answered with a block or with nothing. -/
theorem malloc_spec (hsrc : src.Honest) (hs : Settled h rs bins) (hc : Counted h rs) {bytes : Nat}
    (hb : Sizable bytes) : MallocLeaves h rs bytes (h.malloc src bytes) := by
  unfold Heap.malloc
  cases hwant : wantFor bytes with
  | none => exact ⟨rs, bins, hs, hc, .inl ⟨rfl, rfl, rfl⟩, .same rfl rfl rfl, .refl _ _⟩
  | some want =>
    obtain ⟨hmod, hw, hbytes, htop⟩ := wantFor_spec hb hwant
    dsimp only
    by_cases hlarge : largeBlock ≤ want
    · rw [if_pos hlarge]
      exact mallocLarge_spec hsrc hs hc hmod hw htop hbytes
    · rw [if_neg hlarge]
      exact mallocSmall_spec hsrc hs hc hmod hw (Nat.lt_of_not_le hlarge) hbytes

end Malloc

end ReconOS.Malloc
