import ReconOS.Malloc.Merge

/-! The state the allocator's memory is in, between calls and during them: a tiling of the regions,
and which free blocks are on the lists. -/
namespace ReconOS.Malloc

open Mem (Only)

/-- Memory holds a tiling of the regions, and the free lists hold the free blocks, each on the list
of its size, but for those that are off them. -/
structure Holds (h : Heap) (rs : List Region) (bins : Nat → List Nat) (off : Nat → Prop) : Prop where
  shape : Shape rs
  chained : Chained h rs
  tagged : Tagged h rs
  listed : Listed h bins
  free_iff : ∀ k x, x ∈ bins k ↔
    ∃ b, (x, b) ∈ allPlaces rs ∧ b.used = false ∧ binOf b.size = k ∧ ¬off x

/-- Between calls: every free block is listed, no two of them are neighbours, and every region has
some block in use. -/
structure Settled (h : Heap) (rs : List Region) (bins : Nat → List Nat) : Prop extends
    Holds h rs bins (fun _ => False) where
  parted : ∀ r ∈ rs, Parted r.blocks
  inUse : ∀ r ∈ rs, ∃ b ∈ r.blocks, b.used = true
  alone : ∀ r ∈ rs, r.whole = true → ∃ b, r.blocks = [b]
  lent : ∀ r ∈ rs, (r.addr, r.bytes) ∈ h.lent

/-- The blocks in use, with their addresses. -/
def usedPlaces (rs : List Region) : List (Nat × Blk) := (allPlaces rs).filter fun p => p.2.used

theorem mem_usedPlaces {rs : List Region} {x : Nat} {c : Blk} :
    (x, c) ∈ usedPlaces rs ↔ (x, c) ∈ allPlaces rs ∧ c.used = true := by
  simp [usedPlaces]

theorem places_free {a : Nat} {bs : List Blk} (h : ∀ b ∈ bs, b.used = false) :
    (places a bs).filter (fun p => p.2.used) = [] := by
  rw [List.filter_eq_nil_iff]
  rintro ⟨x, c⟩ hx
  simpa using h c (mem_places_blk hx)

theorem filter_used_cons {x : Nat} {c : Blk} (hc : c.used = true) (ps : List (Nat × Blk)) :
    ((x, c) :: ps).filter (fun p => p.2.used) = (x, c) :: ps.filter fun p => p.2.used :=
  List.filter_cons_of_pos hc

theorem usedPlaces_mid {R₁ R₂ : List Region} {r : Region} :
    (usedPlaces (R₁ ++ r :: R₂)).Perm
      (r.places.filter (fun p => p.2.used) ++ usedPlaces (R₁ ++ R₂)) := by
  simp only [usedPlaces, allPlaces, List.flatMap_append, List.flatMap_cons, List.filter_append]
  rw [← List.append_assoc, ← List.append_assoc]
  exact List.Perm.append_right _ List.perm_append_comm

theorem places_sorted {a : Nat} {bs : List Blk} (hpos : ∀ b ∈ bs, 0 < b.size) :
    (places a bs).Pairwise fun p q => p.1 < q.1 := by
  induction bs generalizing a with
  | nil => exact List.Pairwise.nil
  | cons b bs ih =>
    have hb := hpos b List.mem_cons_self
    apply List.pairwise_cons.2
    constructor
    · rintro ⟨x, c⟩ hx
      have := (mem_places_ge hx).1
      simp only
      omega
    · exact ih fun e he => hpos e (List.mem_cons_of_mem b he)

/-- No two blocks start at one place. -/
theorem Shape.starts_once {rs : List Region} (hs : Shape rs) :
    (allPlaces rs).Pairwise fun p q => p.1 ≠ q.1 := by
  apply List.pairwise_flatMap.2
  constructor
  · intro r hr
    exact (places_sorted (hs.ok r hr).pos).imp fun hlt => Nat.ne_of_lt hlt
  · apply hs.apart.imp_of_mem
    rintro r s hr hs' hap ⟨x, c⟩ hx ⟨y, d⟩ hy
    have hx := (hs.ok r hr).place hx
    have hy := (hs.ok s hs').place hy
    have hfr := (hs.ok r hr).fence_top
    have hfs := (hs.ok s hs').fence_top
    simp only [regionHeader, header, minBlock] at *
    omega

/-- A block in use is at one place among the blocks in use. -/
theorem Shape.used_cons {rs : List Region} (hs : Shape rs) {x y : Nat} {c d : Blk}
    {ps : List (Nat × Blk)} (hp : (usedPlaces rs).Perm ((x, c) :: ps)) (hy : (y, d) ∈ ps) :
    y ≠ x := by
  have honce := hs.starts_once.sublist (List.filter_sublist (p := fun q => q.2.used))
  have := (hp.pairwise_iff fun h => Ne.symm h).1 honce
  exact Ne.symm ((List.pairwise_cons.1 this).1 _ hy)

/-- A payload keeps its bytes. -/
def KeptAt (m m' : Mem) (x n : Nat) : Prop := ∀ i, x + header ≤ i → i < x + n → m' i = m i

theorem KeptAt.trans {m m' m'' : Mem} {x n : Nat} (h : KeptAt m m' x n) (k : KeptAt m' m'' x n) :
    KeptAt m m'' x n := fun i hi hi' => (k i hi hi').trans (h i hi hi')

theorem KeptAt.mono {m m' : Mem} {x n k : Nat} (h : KeptAt m m' x n) (hk : k ≤ n) :
    KeptAt m m' x k := fun i hi hi' => h i hi (by omega)

/-! ## Links and tags are apart -/

section Apart

variable {h : Heap} {rs : List Region} {bins : Nat → List Nat} {off : Nat → Prop}

theorem Settled.listed_iff (hs : Settled h rs bins) (k x : Nat) : x ∈ bins k ↔
    ∃ b, (x, b) ∈ allPlaces rs ∧ b.used = false ∧ binOf b.size = k := by
  rw [hs.free_iff]
  simp

/-- Only memory, the region list and the lists' starts matter. -/
theorem Holds.books {h' : Heap} (hs : Holds h rs bins off) (hm : h'.mem = h.mem)
    (hb : h'.bins = h.bins) (hr : h'.regions = h.regions) : Holds h' rs bins off := by
  refine ⟨hs.shape, ⟨?_, fun r hr' => ?_, fun r hr' => ?_⟩, fun r hr' t ht => ?_, ⟨fun k => ?_,
    hs.listed.nodes, hs.listed.once⟩, hs.free_iff⟩
  · rw [hm, hr]
    exact hs.chained.links
  · rw [Heap.bytesOf, Heap.load, hm]
    exact hs.chained.bytes r hr'
  · rw [Heap.wholeOf, Heap.load, hm]
    exact hs.chained.whole r hr'
  · rw [hm]
    exact hs.tagged r hr' t ht
  · rw [hm, hb]
    exact hs.listed.links k

theorem Holds.off_congr {off' : Nat → Prop} (hs : Holds h rs bins off)
    (heq : ∀ x, off' x ↔ off x) : Holds h rs bins off' := by
  have : off' = off := funext fun x => propext (heq x)
  rw [this]
  exact hs

/-- A tag is never where a free block keeps its links. -/
theorem Shape.clearOf (hs : Shape rs)
    (hb : ∀ k, ∀ x ∈ bins k, ∃ b, (x, b) ∈ allPlaces rs) {r : Region} {t : Tag} (hr : r ∈ rs)
    (ht : t ∈ r.tags) : ClearOf bins t.place := by
  intro k z hz heq
  obtain ⟨b, hp⟩ := hb k z hz
  have hsz := (hs.place hp).2.2.1
  have := hs.tag_apart hr ht hp
  simp only [header, minBlock] at *
  omega

theorem Holds.place_of_mem (hs : Holds h rs bins off) (k x : Nat) (hx : x ∈ bins k) :
    ∃ b, (x, b) ∈ allPlaces rs := by
  obtain ⟨b, hp, -⟩ := (hs.free_iff k x).1 hx
  exact ⟨b, hp⟩

theorem Holds.linkSlot (hs : Holds h rs bins off) {y : Nat} (hy : LinkSlot bins y) :
    ∃ x c, (x, c) ∈ allPlaces rs ∧ c.used = false ∧ y = x + header := by
  obtain ⟨k, x, hx, rfl⟩ := hy
  obtain ⟨c, hp, hc, -⟩ := (hs.free_iff k x).1 hx
  exact ⟨x, c, hp, hc, rfl⟩

/-- A block in use keeps its payload through writes to links and to a stretch it is not in. -/
theorem Holds.kept (hs : Holds h rs bins off) {m' : Mem} {a n z : Nat} {d : Blk}
    (ho : Only (fun y => (a ≤ y ∧ y ≤ a + n) ∨ LinkSlot bins y) h.mem m')
    (hz : (z, d) ∈ usedPlaces rs) (hoff : z + d.size ≤ a ∨ a + n ≤ z) : KeptAt h.mem m' z d.size := by
  obtain ⟨hz, hd⟩ := mem_usedPlaces.1 hz
  intro i hi hi'
  apply ho
  intro y hy
  simp only [header] at *
  rcases hy with hy | hy
  · omega
  · obtain ⟨x, c, hx, hc, rfl⟩ := hs.linkSlot hy
    have hsz := (hs.shape.place hx).2.2.1
    rcases hs.shape.blocks_apart hz hx with ⟨-, rfl⟩ | hlt | hlt
    · rw [hd] at hc; cases hc
    · simp only [header]; omega
    · simp only [header, minBlock] at *; omega

theorem parted_append {bs cs : List Blk} : Parted (bs ++ cs) ↔
    Parted bs ∧ Parted cs ∧ (SealedEnd bs ∨ Sealed cs) := by
  induction bs with
  | nil => simp [Parted, SealedEnd]
  | cons b bs ih =>
    cases bs with
    | nil =>
      cases cs with
      | nil => simp [Parted, Sealed]
      | cons c cs =>
        simp only [List.singleton_append, Parted, SealedEnd, Sealed, List.getLast?_singleton,
          List.head?_cons, Option.some.injEq, forall_eq', true_and]
        tauto
    | cons b' bs =>
      have hend : SealedEnd (b :: b' :: bs) ↔ SealedEnd (b' :: bs) := by
        simp [SealedEnd]
      simp only [List.cons_append, Parted] at ih ⊢
      rw [ih, hend]
      tauto

theorem Parted.tail {b : Blk} {bs : List Blk} (h : Parted (b :: bs)) : Parted bs := by
  cases bs with
  | nil => trivial
  | cons c bs => exact h.2

theorem Holds.region (hs : Holds h rs bins off) {r : Region} (hr : r ∈ rs) {t : Tag}
    (ht : t ∈ r.tags) : t.In h.mem ∧ ClearOf bins t.place :=
  ⟨hs.tagged r hr t ht, hs.shape.clearOf hs.place_of_mem hr ht⟩

end Apart

/-! ## Inside the regions -/

/-- The slot at `y` lies in one region. -/
def Inside (rs : List Region) (y : Nat) : Prop :=
  ∃ r ∈ rs, r.addr ≤ y ∧ y + 16 ≤ r.addr + r.bytes

section Inside

variable {rs rs' : List Region} {y : Nat}

theorem Inside.mono (h : Inside rs y) (hsub : ∀ r ∈ rs, r ∈ rs') : Inside rs' y := by
  obtain ⟨r, hr, hin⟩ := h
  exact ⟨r, hsub r hr, hin⟩

/-- Only where the regions are counts. -/
theorem Inside.same (h : Inside rs y)
    (hmap : rs'.map (fun r => (r.addr, r.bytes)) = rs.map fun r => (r.addr, r.bytes)) :
    Inside rs' y := by
  obtain ⟨r, hr, hin⟩ := h
  have hmem : (r.addr, r.bytes) ∈ rs'.map fun r => (r.addr, r.bytes) := by
    rw [hmap]
    exact List.mem_map_of_mem hr
  obtain ⟨s, hs, heq⟩ := List.mem_map.1 hmem
  simp only [Prod.mk.injEq] at heq
  refine ⟨s, hs, ?_⟩
  omega

theorem Shape.inside (hs : Shape rs) {r : Region} (hr : r ∈ rs)
    (hy : r.addr ≤ y ∧ y ≤ r.fence) : Inside rs y := by
  have := (hs.ok r hr).fence_top
  simp only [header] at this
  exact ⟨r, hr, by omega⟩

/-- A block, and the tag after it. -/
theorem Shape.inside_block (hs : Shape rs) {x : Nat} {c : Blk} (hx : (x, c) ∈ allPlaces rs)
    (hy : x ≤ y ∧ y ≤ x + c.size) : Inside rs y := by
  obtain ⟨r, hr, hx⟩ := mem_allPlaces.1 hx
  have hin := (hs.ok r hr).place hx
  simp only [regionHeader] at hin
  exact hs.inside hr (by omega)

theorem Shape.inside_header (hs : Shape rs) {r : Region} (hr : r ∈ rs) : Inside rs r.addr := by
  apply hs.inside hr
  simp only [Region.fence, Region.start]
  omega

theorem Holds.inside_link {h : Heap} {bins : Nat → List Nat} {off : Nat → Prop}
    (hs : Holds h rs bins off) (hy : LinkSlot bins y) : Inside rs y := by
  obtain ⟨x, c, hx, -, rfl⟩ := hs.linkSlot hy
  have hsz := (hs.shape.place hx).2.2.1
  apply hs.shape.inside_block hx
  simp only [header, minBlock] at *
  omega

end Inside

/-- Writes inside a region past its header, and to links, leave the region list alone. -/
theorem Holds.chained_frame {h h' : Heap} {R₁ R₂ : List Region} {r : Region}
    {bins : Nat → List Nat} {off : Nat → Prop} (hs : Holds h (R₁ ++ r :: R₂) bins off) {P : Nat → Prop}
    (ho : Only P h.mem h'.mem) (hreg : h'.regions = h.regions)
    (hP : ∀ y, P y → (r.start ≤ y ∧ y ≤ r.fence) ∨ LinkSlot bins y) :
    Chained h' (R₁ ++ r :: R₂) := by
  apply hs.chained.frame ho hreg
  intro q hq y hy
  have hr : r ∈ R₁ ++ r :: R₂ := by simp
  have hfence := (hs.shape.ok r hr).fence_top
  rcases hP y hy with hin | hlink
  · by_cases heq : q = r
    · subst heq
      simp only [Region.start, regionHeader] at hin
      omega
    · have := hs.shape.region_apart hq hr heq
      have hfull := (hs.shape.ok q hq).full
      simp only [Region.start, regionHeader, header] at *
      omega
  · obtain ⟨x, c, hx, -, rfl⟩ := hs.linkSlot hlink
    have hsz := (hs.shape.place hx).2.2.1
    have := hs.shape.header_apart hq hx
    simp only [regionHeader, header, minBlock] at *
    omega

/-! ## A stretch retiled -/

section Retile

variable {h h' : Heap} {R₁ R₂ : List Region} {r : Region} {bins : Nat → List Nat}
  {off off' : Nat → Prop} {pre mid mid' post : List Blk} {P : Nat → Prop}

/-- A stretch none of whose free blocks is listed, before or after, may be retiled. -/
theorem Holds.retile (hs : Holds h (R₁ ++ r :: R₂) bins off)
    (hb : r.blocks = pre ++ mid ++ post) (hspan : span mid' = span mid)
    (hsz : ∀ b ∈ mid', b.size % align = 0 ∧ minBlock ≤ b.size)
    (hoff : ∀ x d, (x, d) ∈ places (r.start + span pre) mid → d.used = false → off x)
    (hoff' : ∀ x d, (x, d) ∈ places (r.start + span pre) mid' → d.used = false → off' x)
    (hsame : ∀ x, x < r.start + span pre ∨ r.start + span pre + span mid ≤ x → (off' x ↔ off x))
    (ho : Only P h.mem h'.mem)
    (hP : ∀ y, P y → r.start + span pre ≤ y ∧ y ≤ r.start + span pre + span mid)
    (hregs : h'.regions = h.regions) (hbins : h'.bins = h.bins)
    (hmid : ∀ t ∈ segTags (r.start + span pre) (leftOf none pre) mid', t.In h'.mem)
    (hnext : (firstTag (r.start + span pre + span mid) (leftOf (leftOf none pre) mid') post).In
      h'.mem) :
    Holds h' (R₁ ++ { r with blocks := pre ++ mid' ++ post } :: R₂) bins off' := by
  have hr : r ∈ R₁ ++ r :: R₂ := by simp
  have hok := hs.shape.ok r hr
  have hfence := hok.fence_top
  simp only [Region.fence, hb, span_append] at hfence
  have hpos := hok.pos
  -- A place off the stretch.
  have hout : ∀ x d, (x, d) ∈ places r.start pre ∨
      (x, d) ∈ places (r.start + span pre + span mid) post ∨ (x, d) ∈ allPlaces (R₁ ++ R₂) →
      x < r.start + span pre ∨ r.start + span pre + span mid ≤ x := by
    intro x d hx
    rcases hx with hx | hx | hx
    · have := mem_places_ge hx
      have := hpos d (by rw [hb]; simp [mem_places_blk hx])
      omega
    · exact .inr (mem_places_ge hx).1
    · have := hs.shape.others_place hx
      have hszd := (hs.shape.place (mem_allPlaces_mid.2 (.inr hx))).2.2.1
      simp only [Region.start, regionHeader, header, minBlock] at *
      omega
  have hsplit : ∀ x d, (x, d) ∈ allPlaces (R₁ ++ r :: R₂) ↔
      (x, d) ∈ places (r.start + span pre) mid ∨ (x, d) ∈ places r.start pre ∨
      (x, d) ∈ places (r.start + span pre + span mid) post ∨ (x, d) ∈ allPlaces (R₁ ++ R₂) := by
    intro x d
    rw [mem_allPlaces_mid]
    simp only [Region.places, hb, places_append, List.mem_append, span_append, ← Nat.add_assoc]
    tauto
  have hsplit' : ∀ x d,
      (x, d) ∈ allPlaces (R₁ ++ { r with blocks := pre ++ mid' ++ post } :: R₂) ↔
      (x, d) ∈ places (r.start + span pre) mid' ∨ (x, d) ∈ places r.start pre ∨
      (x, d) ∈ places (r.start + span pre + span mid) post ∨ (x, d) ∈ allPlaces (R₁ ++ R₂) := by
    intro x d
    rw [mem_allPlaces_mid]
    simp only [Region.places, Region.start, places_append, List.mem_append, span_append,
      ← Nat.add_assoc, hspan]
    tauto
  refine ⟨hs.shape.retile hb hspan hsz, ?_, ?_, ?_, fun k x => ?_⟩
  · apply (hs.chained_frame ho hregs ?_).same
    · simp
    · intro y hy
      left
      have := hP y hy
      simp only [Region.fence, hb, span_append] at *
      omega
  · apply Tagged.retile hs.shape hs.tagged hb hspan ho (fun y hy => .inl (hP y hy)) hmid hnext
  · apply hs.listed.frame ho hbins
    intro k x hx y hy
    obtain ⟨d, hd, hdu, -, hno⟩ := (hs.free_iff k x).1 hx
    have hin := hP y hy
    rcases (hsplit x d).1 hd with hd' | hd'
    · exact absurd (hoff x d hd' hdu) hno
    · have hszd := (hs.shape.place hd).2.2.1
      have hpl := hs.shape.place hd
      -- The whole block is off the stretch.
      have hclear : x + d.size ≤ r.start + span pre ∨ r.start + span pre + span mid ≤ x := by
        rcases hd' with hd' | hd' | hd'
        · exact .inl (mem_places_ge hd').2
        · exact .inr (mem_places_ge hd').1
        · have := hs.shape.others_place hd'
          simp only [Region.start, regionHeader, header, minBlock] at *
          omega
      simp only [minBlock] at hszd
      omega
  · rw [hs.free_iff]
    constructor
    · rintro ⟨d, hd, hdu, hk, hno⟩
      rcases (hsplit x d).1 hd with hd' | hd'
      · exact absurd (hoff x d hd' hdu) hno
      · exact ⟨d, (hsplit' x d).2 (.inr hd'), hdu, hk, fun h => hno ((hsame x (hout x d hd')).1 h)⟩
    · rintro ⟨d, hd, hdu, hk, hno⟩
      rcases (hsplit' x d).1 hd with hd' | hd'
      · exact absurd (hoff' x d hd' hdu) hno
      · exact ⟨d, (hsplit x d).2 (.inr hd'), hdu, hk, fun h => hno ((hsame x (hout x d hd')).2 h)⟩

end Retile

/-! ## On and off the lists -/

section Lists

variable {h : Heap} {rs : List Region} {bins : Nat → List Nat} {off : Nat → Prop} {x : Nat} {c : Blk}

/-- Tags and headers stand through writes to the links of blocks. -/
theorem Holds.off_links (hs : Holds h rs bins off) {h' : Heap} {P : Nat → Prop}
    (ho : Only P h.mem h'.mem) (hreg : h'.regions = h.regions)
    (hP : ∀ y, P y → ∃ z d, (z, d) ∈ allPlaces rs ∧ y = z + header) :
    Chained h' rs ∧ Tagged h' rs := by
  constructor
  · apply hs.chained.frame ho hreg
    intro r hr y hy
    obtain ⟨z, d, hz, rfl⟩ := hP y hy
    have hsz := (hs.shape.place hz).2.2.1
    have := hs.shape.header_apart hr hz
    simp only [regionHeader, header, minBlock] at *
    omega
  · intro r hr t ht
    apply (hs.tagged r hr t ht).frame ho
    intro y hy
    obtain ⟨z, d, hz, rfl⟩ := hP y hy
    have hsz := (hs.shape.place hz).2.2.1
    have := hs.shape.tag_apart hr ht hz
    simp only [header, minBlock] at *
    omega

/-- A block's tag, and what it says. -/
theorem Holds.sizeOf_eq (hs : Holds h rs bins off) (hx : (x, c) ∈ allPlaces rs) :
    h.sizeOf x = c.size := by
  obtain ⟨r, hr, hx⟩ := mem_allPlaces.1 hx
  obtain ⟨pre, post, hb, hxe⟩ := mem_places_split hx
  have ht : Tag.mk x (leftOf none pre) c.size c.used ∈ r.tags := by
    simp only [Region.tags, hb, tags_append, tags, hxe]
    simp
  exact (hs.tagged r hr _ ht).size ((hs.shape.ok r hr).sizes c (mem_places_blk hx)).1

theorem Holds.used_eq (hs : Holds h rs bins off) (hx : (x, c) ∈ allPlaces rs) :
    h.used x = c.used := by
  obtain ⟨r, hr, hx⟩ := mem_allPlaces.1 hx
  obtain ⟨pre, post, hb, hxe⟩ := mem_places_split hx
  have ht : Tag.mk x (leftOf none pre) c.size c.used ∈ r.tags := by
    simp only [Region.tags, hb, tags_append, tags, hxe]
    simp
  exact (hs.tagged r hr _ ht).used_eq ((hs.shape.ok r hr).sizes c (mem_places_blk hx)).1

/-- A payload in use stands through writes to the links of free blocks. -/
theorem Holds.kept_links (hs : Holds h rs bins off) {m' : Mem} {P : Nat → Prop}
    (ho : Only P h.mem m')
    (hP : ∀ y, P y → ∃ z d, (z, d) ∈ allPlaces rs ∧ d.used = false ∧ y = z + header)
    (hx : (x, c) ∈ usedPlaces rs) : KeptAt h.mem m' x c.size := by
  obtain ⟨hx, hc⟩ := mem_usedPlaces.1 hx
  intro i hi hi'
  apply ho
  intro y hy
  obtain ⟨z, d, hz, hd, rfl⟩ := hP y hy
  have hsz := (hs.shape.place hz).2.2.1
  rcases hs.shape.blocks_apart hx hz with ⟨-, rfl⟩ | hlt | hlt
  · rw [hd] at hc; cases hc
  · simp only [header] at *; omega
  · simp only [header, minBlock] at *; omega

theorem Holds.remove (hs : Holds h rs bins off) (hx : (x, c) ∈ allPlaces rs) (hc : c.used = false)
    (hon : ¬off x) :
    ∃ bins', Holds (h.binRemove x) rs bins' (fun y => off y ∨ y = x) ∧
      (∀ y, LinkSlot bins' y → LinkSlot bins y) ∧
      Only (LinkSlot bins) h.mem (h.binRemove x).mem := by
  have hsz := hs.sizeOf_eq hx
  have hmem : x ∈ bins (binOf c.size) := (hs.free_iff _ _).2 ⟨c, hx, hc, rfl, hon⟩
  have hrem := (hs.listed.remove (congrArg binOf hsz) hmem).1
  have honly := hs.listed.remove_only (congrArg binOf hsz) hmem
  have hthere := hs.off_links honly rfl fun y hy => by
    obtain ⟨z, d, hz, -, rfl⟩ := hs.linkSlot hy
    exact ⟨z, d, hz, rfl⟩
  refine ⟨_, ⟨hs.shape, hthere.1, hthere.2, hrem, fun k z => ?_⟩, ?_, honly⟩
  · rw [mem_update_erase hs.listed hmem, hs.free_iff]
    constructor
    · rintro ⟨⟨b, hb, hbu, hk, hno⟩, hne⟩
      exact ⟨b, hb, hbu, hk, by tauto⟩
    · rintro ⟨b, hb, hbu, hk, hno⟩
      exact ⟨⟨b, hb, hbu, hk, by tauto⟩, by tauto⟩
  · rintro y ⟨k, z, hz, rfl⟩
    exact ⟨k, z, ((mem_update_erase hs.listed hmem).1 hz).1, rfl⟩

theorem Holds.insert (hs : Holds h rs bins off) (hx : (x, c) ∈ allPlaces rs) (hc : c.used = false)
    (hoff : off x) :
    ∃ bins', Holds (h.binInsert x) rs bins' (fun y => off y ∧ y ≠ x) ∧
      (∀ y, LinkSlot bins' y → y = x + header ∨ LinkSlot bins y) ∧
      Only (fun y => y = x + header ∨ LinkSlot bins y) h.mem (h.binInsert x).mem := by
  have hsz := hs.sizeOf_eq hx
  have hplace := hs.shape.place hx
  have hno : ∀ j, x ∉ bins j := by
    intro j hj
    obtain ⟨-, -, -, -, hn⟩ := (hs.free_iff j x).1 hj
    exact hn hoff
  simp only [align, header, sizeLimit] at hplace
  obtain ⟨hins, hlinks⟩ := hs.listed.insert (congrArg binOf hsz) hno (by omega) hplace.1 (by omega)
  have honly : Only (fun y => y = x + header ∨ LinkSlot bins y) h.mem (h.binInsert x).mem := by
    apply hlinks.mono
    rintro y ⟨z, hz, rfl⟩
    rcases List.mem_cons.1 hz with rfl | hz
    · exact .inl rfl
    · exact .inr ⟨_, z, hz, rfl⟩
  have hthere := hs.off_links honly rfl (by
    rintro y (rfl | hy)
    · exact ⟨x, c, hx, rfl⟩
    · obtain ⟨z, d, hz, -, rfl⟩ := hs.linkSlot hy
      exact ⟨z, d, hz, rfl⟩)
  have hmem : ∀ k z, z ∈ Function.update bins (binOf c.size) (x :: bins (binOf c.size)) k ↔
      (z = x ∧ k = binOf c.size) ∨ z ∈ bins k := by
    intro k z
    by_cases hk : k = binOf c.size
    · subst hk
      simp
    · simp [hk]
  refine ⟨_, ⟨hs.shape, hthere.1, hthere.2, hins, fun k z => ?_⟩, ?_, honly⟩
  · rw [hmem, hs.free_iff]
    constructor
    · rintro (⟨rfl, rfl⟩ | ⟨b, hb, hbu, hk, hn⟩)
      · exact ⟨c, hx, hc, rfl, by tauto⟩
      · exact ⟨b, hb, hbu, hk, by tauto⟩
    · rintro ⟨b, hb, hbu, hk, hn⟩
      by_cases heq : z = x
      · subst heq
        rw [← hk, hs.shape.place_unique hb hx]
        exact .inl ⟨rfl, rfl⟩
      · exact .inr ⟨b, hb, hbu, hk, by tauto⟩
  · rintro y ⟨k, z, hz, rfl⟩
    rcases (hmem k z).1 hz with ⟨rfl, -⟩ | hz
    · exact .inl rfl
    · exact .inr ⟨k, z, hz, rfl⟩

end Lists

/-! ## Around a block -/

section Cut

variable {h : Heap} {R₁ R₂ : List Region} {r : Region} {bins : Nat → List Nat} {off : Nat → Prop}
  {pre post : List Blk} {c : Blk}

theorem firstTag_at (a : Nat) (prev : Option Nat) (bs : List Blk) :
    (firstTag a prev bs).place = a := by
  cases bs <;> rfl

theorem firstTag_size {a : Nat} {prev : Option Nat} {bs : List Blk}
    (h : ∀ b ∈ bs, b.size % align = 0) : (firstTag a prev bs).size % align = 0 := by
  cases bs with
  | nil => rfl
  | cons b bs => exact h b List.mem_cons_self

theorem firstTag_prev (a : Nat) (prev prev' : Option Nat) (bs : List Blk) :
    Tag.mk a prev' (firstTag a prev bs).size (firstTag a prev bs).used = firstTag a prev' bs := by
  cases bs <;> rfl

theorem Region.tags_cut (hb : r.blocks = pre ++ c :: post) :
    r.tags = segTags r.start none pre ++
      Tag.mk (r.start + span pre) (leftOf none pre) c.size c.used ::
        Malloc.tags (r.start + span pre + c.size) c.left post := by
  simp only [Region.tags, hb, tags_append, Malloc.tags]

/-- A block's tag and the one after it. -/
theorem Holds.tags_at (hs : Holds h (R₁ ++ r :: R₂) bins off) (hb : r.blocks = pre ++ c :: post) :
    ((Tag.mk (r.start + span pre) (leftOf none pre) c.size c.used).In h.mem ∧
      ClearOf bins (r.start + span pre)) ∧
    (firstTag (r.start + span pre + c.size) c.left post).In h.mem ∧
      ClearOf bins (r.start + span pre + c.size) := by
  have hr : r ∈ R₁ ++ r :: R₂ := by simp
  have hfirst := hs.region hr (t := firstTag (r.start + span pre + c.size) c.left post) (by
    rw [Region.tags_cut hb, tags_first _ _ post]
    simp)
  rw [firstTag_at] at hfirst
  refine ⟨hs.region hr (t := ⟨r.start + span pre, leftOf none pre, c.size, c.used⟩) ?_, hfirst⟩
  rw [Region.tags_cut hb]
  simp

theorem Holds.places_mod (hs : Holds h (R₁ ++ r :: R₂) bins off)
    (hb : r.blocks = pre ++ c :: post) :
    (r.start + span pre) % align = 0 ∧ c.size % align = 0 ∧ minBlock ≤ c.size ∧
      r.start + span pre + c.size + header ≤ sizeLimit ∧ 0 < r.start + span pre := by
  have hp := hs.shape.place (x := r.start + span pre) (c := c) (mem_allPlaces_cut hb)
  exact ⟨hp.1, hp.2.1, hp.2.2.1, hp.2.2.2.2, hp.2.2.2.1⟩

end Cut

end ReconOS.Malloc
