import ReconOS.Malloc.Layout

/-! What holds of the allocator's memory between calls: the region list, the tag of every block, the
free lists; and what a change elsewhere leaves of each. -/
namespace ReconOS.Malloc

open Mem (Only)

/-- A tag as memory has it. What it records of the block before counts only where that one is
free. -/
structure Tag.In (t : Tag) (m : Mem) : Prop where
  head : m.load (t.place + 8) = t.size + t.used.toNat + 2 * t.prev.isNone.toNat
  foot : ∀ s, t.prev = some s → m.load t.place = s

/-- The free lists as memory has them. -/
structure Listed (h : Heap) (bins : Nat → List Nat) : Prop where
  links : ∀ k, h.mem.Links header (h.bins k) (bins k)
  nodes : ∀ k, Mem.Nodes (bins k)
  once : ∀ j k x, x ∈ bins j → x ∈ bins k → j = k

/-- The region list as memory has it. -/
structure Chained (h : Heap) (rs : List Region) : Prop where
  links : h.mem.Links 0 h.regions (rs.map Region.addr)
  bytes : ∀ r ∈ rs, h.bytesOf r.addr = r.bytes
  whole : ∀ r ∈ rs, h.wholeOf r.addr = r.whole

def Tagged (h : Heap) (rs : List Region) : Prop := ∀ r ∈ rs, ∀ t ∈ r.tags, t.In h.mem

section Tags

variable {h : Heap} {t : Tag}

theorem Tag.In.size (ht : t.In h.mem) (hs : t.size % align = 0) : h.sizeOf t.place = t.size := by
  have hh := ht.head
  have hu := t.used.toNat_le
  have hp := t.prev.isNone.toNat_le
  unfold Heap.sizeOf Heap.head Heap.load
  simp only [align] at hs ⊢
  omega

theorem Tag.In.used_eq (ht : t.In h.mem) (hs : t.size % align = 0) : h.used t.place = t.used := by
  have hh := ht.head
  unfold Heap.used Heap.head Heap.load
  simp only [align] at hs
  have hmod : h.mem.load (t.place + 8) % 2 = t.used.toNat := by
    have := t.used.toNat_le
    omega
  rw [hmod]
  cases t.used <;> rfl

theorem Tag.In.prevUsed_eq (ht : t.In h.mem) (hs : t.size % align = 0) :
    h.prevUsed t.place = t.prev.isNone := by
  have hh := ht.head
  unfold Heap.prevUsed Heap.head Heap.load
  simp only [align] at hs
  have hmod : h.mem.load (t.place + 8) / 2 % 2 = t.prev.isNone.toNat := by
    have := t.used.toNat_le
    have := t.prev.isNone.toNat_le
    omega
  rw [hmod]
  cases t.prev.isNone <;> rfl

theorem Tag.In.frame {m m' : Mem} {P : Nat → Prop} (ht : t.In m) (ho : Only P m m')
    (hP : ∀ y, P y → y + 16 ≤ t.place ∨ t.place + 16 ≤ y) : t.In m' := by
  have hhead : m'.load (t.place + 8) = m.load (t.place + 8) := by
    apply ho.load
    intro y hy
    have := hP y hy
    omega
  have hfoot : m'.load t.place = m.load t.place := by
    apply ho.load
    intro y hy
    have := hP y hy
    omega
  constructor
  · rw [hhead]; exact ht.head
  · rw [hfoot]; exact ht.foot

end Tags

/-! ## Free lists -/

section Listed

variable {h h' : Heap} {bins : Nat → List Nat} {x k : Nat}

theorem Listed.frame {P : Nat → Prop} (hl : Listed h bins) (ho : Only P h.mem h'.mem)
    (hb : h'.bins = h.bins)
    (hP : ∀ k, ∀ x ∈ bins k, ∀ y, P y → y + 16 ≤ x + 16 ∨ x + 32 ≤ y) : Listed h' bins := by
  refine ⟨fun k => ?_, hl.nodes, hl.once⟩
  rw [hb]
  apply ho.path (hl.links k)
  intro x hx y hy
  have := hP k x hx y hy
  simp only [header]
  omega

/-- Nodes of different lists, or different nodes of one, are a slot apart. -/
theorem Listed.apart (hl : Listed h bins) {j : Nat} {y : Nat} (hx : x ∈ bins j) (hy : y ∈ bins k)
    (hne : x ≠ y) : x + 16 ≤ y ∨ y + 16 ≤ x := by
  have := (hl.nodes j).aligned x hx
  have := (hl.nodes k).aligned y hy
  omega

theorem Listed.ne_zero (hl : Listed h bins) (hx : x ∈ bins k) : x ≠ 0 :=
  Mem.Path.ne_zero (hl.links k) hx

/-- Taking a block off its list. -/
theorem Listed.remove (hl : Listed h bins) (hk : binOf (h.sizeOf x) = k) (hx : x ∈ bins k) :
    Listed (h.binRemove x) (Function.update bins k ((bins k).erase x)) ∧
      Only (fun y => ∃ z ∈ bins k, y = z + header) h.mem (h.binRemove x).mem := by
  obtain ⟨as, bs, heq⟩ := List.append_of_mem hx
  have hn := hl.nodes k
  have hlinks := hl.links k
  rw [heq] at hn hlinks
  have hxas : x ∉ as := by
    intro hmem
    exact (List.nodup_append.1 hn.nodup).2.2 x hmem x List.mem_cons_self rfl
  have herase : (bins k).erase x = as ++ bs := by
    rw [heq, List.erase_append_right _ hxas, List.erase_cons_head]
  have hsub : (as ++ bs).Sublist (bins k) := by
    rw [heq]
    exact (List.Sublist.refl as).append (List.sublist_cons_self x bs)
  obtain ⟨hout, honly⟩ := hlinks.unlink hn
  have honly' : Only (fun y => ∃ z ∈ bins k, y = z + header) h.mem (h.binRemove x).mem := by
    unfold Heap.binRemove
    rw [hk]
    apply honly.mono
    rintro y ⟨z, hz, rfl⟩
    exact ⟨z, hsub.subset hz, rfl⟩
  refine ⟨⟨fun j => ?_, fun j => ?_, fun i j z hi hj => ?_⟩, honly'⟩
  · by_cases hj : j = k
    · subst hj
      rw [Function.update_self, herase]
      unfold Heap.binRemove
      rw [hk]
      simp only [Function.update_self]
      exact hout
    · rw [Function.update_of_ne hj]
      have hpath : (h.binRemove x).mem.Links header (h.bins j) (bins j) := by
        apply honly'.path (hl.links j)
        rintro z hz y ⟨w, hw, rfl⟩
        have hne : z ≠ w := by
          rintro rfl
          exact hj (hl.once j k z hz hw)
        have := hl.apart hz hw hne
        omega
      unfold Heap.binRemove at hpath ⊢
      rw [hk] at hpath ⊢
      simpa only [Function.update_of_ne hj] using hpath
  · by_cases hj : j = k
    · subst hj
      rw [Function.update_self, herase]
      exact (hl.nodes j).sublist hsub
    · rw [Function.update_of_ne hj]
      exact hl.nodes j
  · have hmem : ∀ j, z ∈ Function.update bins k ((bins k).erase x) j → z ∈ bins j := by
      intro j hz
      by_cases hj : j = k
      · subst hj
        rw [Function.update_self] at hz
        exact List.mem_of_mem_erase hz
      · rwa [Function.update_of_ne hj] at hz
    exact hl.once i j z (hmem i hi) (hmem j hj)

/-- Putting a block on its list. -/
theorem Listed.insert (hl : Listed h bins) (hk : binOf (h.sizeOf x) = k)
    (hx : ∀ j, x ∉ bins j) (h0 : x ≠ 0) (hmod : x % 16 = 0) (hlt : x < 2 ^ 64) :
    Listed (h.binInsert x) (Function.update bins k (x :: bins k)) ∧
      Only (fun y => ∃ z ∈ x :: bins k, y = z + header) h.mem (h.binInsert x).mem := by
  have hn : Mem.Nodes (x :: bins k) := by
    refine ⟨List.nodup_cons.2 ⟨hx k, (hl.nodes k).nodup⟩, fun z hz => ?_, fun z hz => ?_⟩
    · rcases List.mem_cons.1 hz with rfl | hz
      · exact hmod
      · exact (hl.nodes k).aligned z hz
    · rcases List.mem_cons.1 hz with rfl | hz
      · exact hlt
      · exact (hl.nodes k).lt z hz
  have hout := (hl.links k).pushFront hn h0
  have honly : Only (fun y => ∃ z ∈ x :: bins k, y = z + header) h.mem (h.binInsert x).mem := by
    unfold Heap.binInsert
    rw [hk]
    exact Mem.pushFront_only (hl.links k)
  refine ⟨⟨fun j => ?_, fun j => ?_, fun i j z hi hj => ?_⟩, honly⟩
  · by_cases hj : j = k
    · subst hj
      rw [Function.update_self]
      unfold Heap.binInsert
      rw [hk]
      simp only [Function.update_self]
      exact hout
    · rw [Function.update_of_ne hj]
      have hpath : (h.binInsert x).mem.Links header (h.bins j) (bins j) := by
        apply honly.path (hl.links j)
        rintro z hz y ⟨w, hw, rfl⟩
        have hza := (hl.nodes j).aligned z hz
        rcases List.mem_cons.1 hw with rfl | hw
        · have hne : z ≠ w := by
            rintro rfl
            exact hx j hz
          omega
        · have hne : z ≠ w := by
            rintro rfl
            exact hj (hl.once j k z hz hw)
          have := hl.apart hz hw hne
          omega
      unfold Heap.binInsert at hpath ⊢
      rw [hk] at hpath ⊢
      simpa only [Function.update_of_ne hj] using hpath
  · by_cases hj : j = k
    · subst hj
      rw [Function.update_self]
      exact hn
    · rw [Function.update_of_ne hj]
      exact hl.nodes j
  · have hmem : ∀ j, z ∈ Function.update bins k (x :: bins k) j → (z = x ∧ j = k) ∨ z ∈ bins j := by
      intro j hz
      by_cases hj : j = k
      · subst hj
        rw [Function.update_self] at hz
        rcases List.mem_cons.1 hz with rfl | hz
        · exact .inl ⟨rfl, rfl⟩
        · exact .inr hz
      · rw [Function.update_of_ne hj] at hz
        exact .inr hz
    rcases hmem i hi with ⟨rfl, rfl⟩ | hi'
    · rcases hmem j hj with ⟨-, rfl⟩ | hj'
      · rfl
      · exact absurd hj' (hx j)
    · rcases hmem j hj with ⟨rfl, -⟩ | hj'
      · exact absurd hi' (hx i)
      · exact hl.once i j z hi' hj'

end Listed

/-! ## The region list -/

section Chained

variable {h h' : Heap} {rs : List Region}

theorem Chained.frame {P : Nat → Prop} (hc : Chained h rs) (ho : Only P h.mem h'.mem)
    (hr : h'.regions = h.regions)
    (hP : ∀ r ∈ rs, ∀ y, P y → y + 16 ≤ r.addr ∨ r.addr + 32 ≤ y) : Chained h' rs := by
  refine ⟨?_, fun r hmem => ?_, fun r hmem => ?_⟩
  · rw [hr]
    apply ho.path hc.links
    intro x hx y hy
    obtain ⟨r, hmem, rfl⟩ := List.mem_map.1 hx
    have := hP r hmem y hy
    omega
  · rw [← hc.bytes r hmem]
    apply ho.load
    intro y hy
    have := hP r hmem y hy
    omega
  · rw [← hc.whole r hmem]
    unfold Heap.wholeOf Heap.load
    rw [ho.load]
    intro y hy
    have := hP r hmem y hy
    omega

/-- Only the headers say what a region list is. -/
theorem Chained.same {rs' : List Region} (hc : Chained h rs)
    (hmap : rs'.map (fun r => (r.addr, r.bytes, r.whole)) =
      rs.map fun r => (r.addr, r.bytes, r.whole)) : Chained h rs' := by
  have haddr : rs'.map Region.addr = rs.map Region.addr := by
    have := congrArg (List.map Prod.fst) hmap
    simpa [List.map_map, Function.comp_def] using this
  have hmem : ∀ r ∈ rs', ∃ s ∈ rs, s.addr = r.addr ∧ s.bytes = r.bytes ∧ s.whole = r.whole := by
    intro r hr
    have : (r.addr, r.bytes, r.whole) ∈ rs.map fun r => (r.addr, r.bytes, r.whole) := by
      rw [← hmap]
      exact List.mem_map.2 ⟨r, hr, rfl⟩
    obtain ⟨s, hs, heq⟩ := List.mem_map.1 this
    simp only [Prod.mk.injEq] at heq
    exact ⟨s, hs, heq⟩
  refine ⟨haddr ▸ hc.links, fun r hr => ?_, fun r hr => ?_⟩
  · obtain ⟨s, hs, ha, hb, -⟩ := hmem r hr
    rw [← ha, hc.bytes s hs, hb]
  · obtain ⟨s, hs, ha, -, hw⟩ := hmem r hr
    rw [← ha, hc.whole s hs, hw]

end Chained

/-! ## One region retiled -/

section Retile

variable {h h' : Heap} {R₁ R₂ : List Region} {r : Region} {pre mid mid' post : List Blk}
  {P : Nat → Prop}

theorem Region.Ok.retile (ho : r.Ok) (hb : r.blocks = pre ++ mid ++ post)
    (hspan : span mid' = span mid) (hsz : ∀ b ∈ mid', b.size % align = 0 ∧ minBlock ≤ b.size) :
    { r with blocks := pre ++ mid' ++ post }.Ok := by
  refine ⟨ho.ne_zero, ho.aligned, ho.top, ?_, fun b hbm => ?_⟩
  · have := ho.full
    rw [hb] at this
    simpa [hspan] using this
  · simp only [List.mem_append] at hbm
    have hin : b ∈ pre ∨ b ∈ post → b ∈ r.blocks := by
      rw [hb]
      simp only [List.mem_append]
      tauto
    rcases hbm with (hbm | hbm) | hbm
    · exact ho.sizes b (hin (.inl hbm))
    · exact hsz b hbm
    · exact ho.sizes b (hin (.inr hbm))

theorem Shape.retile (hs : Shape (R₁ ++ r :: R₂)) (hb : r.blocks = pre ++ mid ++ post)
    (hspan : span mid' = span mid) (hsz : ∀ b ∈ mid', b.size % align = 0 ∧ minBlock ≤ b.size) :
    Shape (R₁ ++ { r with blocks := pre ++ mid' ++ post } :: R₂) := by
  constructor
  · have h := hs.apart
    simp only [List.pairwise_append, List.pairwise_cons, List.mem_cons, forall_eq_or_imp] at h ⊢
    exact h
  · intro s hmem
    simp only [List.mem_append, List.mem_cons] at hmem
    rcases hmem with hmem | rfl | hmem
    · exact hs.ok s (by simp [hmem])
    · exact (hs.ok r (by simp)).retile hb hspan hsz
    · exact hs.ok s (by simp [hmem])

/-- Where one stretch of one region was retiled, and only there and in links of free blocks was
anything written, the tags and the region list are those of the new tiling. -/
theorem Tagged.retile (hs : Shape (R₁ ++ r :: R₂)) (ht : Tagged h (R₁ ++ r :: R₂))
    (hb : r.blocks = pre ++ mid ++ post) (hspan : span mid' = span mid)
    (ho : Only P h.mem h'.mem)
    (hP : ∀ y, P y → (r.start + span pre ≤ y ∧ y ≤ r.start + span pre + span mid) ∨
      ∃ p ∈ allPlaces (R₁ ++ r :: R₂), y = p.1 + header)
    (hmid : ∀ t ∈ segTags (r.start + span pre) (leftOf none pre) mid', t.In h'.mem)
    (hnext : (firstTag (r.start + span pre + span mid) (leftOf (leftOf none pre) mid') post).In
      h'.mem) :
    Tagged h' (R₁ ++ { r with blocks := pre ++ mid' ++ post } :: R₂) := by
  have hr : r ∈ R₁ ++ r :: R₂ := by simp
  have hok := hs.ok r hr
  have hfence := hok.fence_top
  simp only [Region.fence, hb, span_append] at hfence
  -- A tag off the stretch and off the tag after it keeps its words.
  have hkeep : ∀ s ∈ R₁ ++ r :: R₂, ∀ t ∈ s.tags,
      t.place + header ≤ r.start + span pre ∨ r.start + span pre + span mid + header ≤ t.place →
      t.In h'.mem := by
    intro s hsm t htm hoff
    apply (ht s hsm t htm).frame ho
    intro y hy
    rcases hP y hy with hin | ⟨⟨x, c⟩, hp, rfl⟩
    · simp only [header] at hoff
      omega
    · have hsz := (hs.place hp).2.2.1
      have := hs.tag_apart hsm htm hp
      simp only [header, minBlock] at *
      omega
  have hother : ∀ s ∈ R₁ ++ R₂, ∀ t ∈ s.tags, t.In h'.mem := by
    intro s hsm t htm
    have hsm' : s ∈ R₁ ++ r :: R₂ := by
      simp only [List.mem_append, List.mem_cons] at hsm ⊢
      tauto
    apply hkeep s hsm' t htm
    have hin := hs.tag_inside hsm' htm
    have hap := hs.others_apart hsm
    simp only [header, Region.start, regionHeader] at *
    omega
  intro s hsm t htm
  simp only [List.mem_append, List.mem_cons] at hsm
  rcases hsm with hsm | rfl | hsm
  · exact hother s (List.mem_append_left _ hsm) t htm
  · -- The retiled region: the tags before, the new ones, the one after, the tags past that.
    have hold : ∀ t, t ∈ segTags r.start none pre ∨
        t ∈ restTags (r.start + span pre + span mid) post → t ∈ r.tags := by
      intro t hmem
      simp only [Region.tags, hb, List.append_assoc, tags_append, tags_first _ _ post,
        List.mem_append, List.mem_cons]
      tauto
    have hsplit : t ∈ segTags r.start none pre ∨
        t ∈ segTags (r.start + span pre) (leftOf none pre) mid' ∨
        t = firstTag (r.start + span pre + span mid) (leftOf (leftOf none pre) mid') post ∨
        t ∈ restTags (r.start + span pre + span mid) post := by
      simp only [Region.tags, Region.start, List.append_assoc, tags_append, tags_first _ _ post,
        List.mem_append, List.mem_cons, hspan] at htm
      exact htm
    rcases hsplit with hmem | hmem | rfl | hmem
    · apply hkeep r hr t (hold t (.inl hmem))
      obtain ⟨c, hc, -⟩ := mem_segTags hmem
      have hge := mem_places_ge hc
      have hsz := (hok.sizes c (by rw [hb]; simp [mem_places_blk hc])).2
      simp only [header, minBlock] at *
      omega
    · exact hmid t hmem
    · exact hnext
    · apply hkeep r hr t (hold t (.inr hmem))
      obtain ⟨b, hhead, hge, -⟩ := mem_restTags hmem
      have hbm : b ∈ post := List.mem_of_mem_head? hhead
      have hsz := (hok.sizes b (by rw [hb]; simp [hbm])).2
      simp only [header, minBlock] at *
      omega
  · exact hother s (List.mem_append_right _ hsm) t htm

end Retile

end ReconOS.Malloc
