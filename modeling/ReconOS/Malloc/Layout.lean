import ReconOS.Malloc.Heap
import Mathlib.Data.List.Pairwise
import Mathlib.Algebra.BigOperators.Group.List.Basic

/-! How regions are laid out: the blocks that tile one, the tag each block carries, and the distances
between everything the allocator writes. -/
namespace ReconOS.Malloc

/-- A block as its region's list has it. -/
structure Blk where
  size : Nat
  used : Bool
deriving DecidableEq

/-- What the tag after a block records of it: nothing for a block in use. -/
def Blk.left (b : Blk) : Option Nat := if b.used = true then none else some b.size

/-- A tag: where it is, what it records of the block before, and of its own. -/
structure Tag where
  place : Nat
  prev : Option Nat
  size : Nat
  used : Bool

def span (bs : List Blk) : Nat := (bs.map Blk.size).sum

def leftOf : (prev : Option Nat) → List Blk → Option Nat
  | prev, [] => prev
  | _, b :: bs => leftOf b.left bs

/-- The blocks with their addresses, the first of them at `a`. -/
def places : Nat → List Blk → List (Nat × Blk)
  | _, [] => []
  | a, b :: bs => (a, b) :: places (a + b.size) bs

/-- The tags of a list of blocks, the sentinel after them left out. -/
def segTags : Nat → Option Nat → List Blk → List Tag
  | _, _, [] => []
  | a, prev, b :: bs => ⟨a, prev, b.size, b.used⟩ :: segTags (a + b.size) b.left bs

/-- The tags of a list of blocks and the sentinel after them. -/
def tags : Nat → Option Nat → List Blk → List Tag
  | a, prev, [] => [⟨a, prev, 0, true⟩]
  | a, prev, b :: bs => ⟨a, prev, b.size, b.used⟩ :: tags (a + b.size) b.left bs

/-- No two free blocks side by side. -/
def Parted : List Blk → Prop
  | [] => True
  | [_] => True
  | b :: c :: bs => (b.used = true ∨ c.used = true) ∧ Parted (c :: bs)

section Lists

variable {a : Nat} {prev : Option Nat} {b : Blk} {bs cs : List Blk}

@[simp] theorem span_nil : span [] = 0 := rfl

@[simp] theorem span_cons : span (b :: bs) = b.size + span bs := by
  simp [span]

@[simp] theorem span_append : span (bs ++ cs) = span bs + span cs := by
  simp [span]

@[simp] theorem places_append : places a (bs ++ cs) = places a bs ++ places (a + span bs) cs := by
  induction bs generalizing a with
  | nil => simp [places]
  | cons b bs ih => simp [places, ih, Nat.add_assoc]

@[simp] theorem leftOf_append : leftOf prev (bs ++ cs) = leftOf (leftOf prev bs) cs := by
  induction bs generalizing prev with
  | nil => rfl
  | cons b bs ih => exact ih

theorem tags_append : tags a prev (bs ++ cs) =
    segTags a prev bs ++ tags (a + span bs) (leftOf prev bs) cs := by
  induction bs generalizing a prev with
  | nil => simp [segTags, leftOf]
  | cons b bs ih => simp [tags, segTags, leftOf, ih, Nat.add_assoc]

theorem segTags_append : segTags a prev (bs ++ cs) =
    segTags a prev bs ++ segTags (a + span bs) (leftOf prev bs) cs := by
  induction bs generalizing a prev with
  | nil => simp [segTags, leftOf]
  | cons b bs ih => simp [segTags, leftOf, ih, Nat.add_assoc]

/-- The first tag of a list, the sentinel where the list is empty. -/
def firstTag (a : Nat) (prev : Option Nat) : List Blk → Tag
  | [] => ⟨a, prev, 0, true⟩
  | b :: _ => ⟨a, prev, b.size, b.used⟩

def restTags (a : Nat) : List Blk → List Tag
  | [] => []
  | b :: bs => tags (a + b.size) b.left bs

theorem tags_first (a : Nat) (prev : Option Nat) (bs : List Blk) :
    tags a prev bs = firstTag a prev bs :: restTags a bs := by
  cases bs <;> rfl

theorem mem_places_ge {x : Nat} {c : Blk} (h : (x, c) ∈ places a bs) :
    a ≤ x ∧ x + c.size ≤ a + span bs := by
  induction bs generalizing a with
  | nil => cases h
  | cons b bs ih =>
    rw [places, List.mem_cons] at h
    rw [span_cons]
    rcases h with heq | h
    · cases heq; omega
    · have := ih h; omega

theorem mem_places_blk {x : Nat} {c : Blk} (h : (x, c) ∈ places a bs) : c ∈ bs := by
  induction bs generalizing a with
  | nil => cases h
  | cons b bs ih =>
    rw [places, List.mem_cons] at h
    rcases h with heq | h
    · cases heq; exact List.mem_cons_self
    · exact List.mem_cons_of_mem b (ih h)

/-- A place splits the list it is in. -/
theorem mem_places_split {x : Nat} {c : Blk} (h : (x, c) ∈ places a bs) :
    ∃ pre post, bs = pre ++ c :: post ∧ x = a + span pre := by
  induction bs generalizing a with
  | nil => cases h
  | cons b bs ih =>
    rw [places, List.mem_cons] at h
    rcases h with heq | h
    · cases heq; exact ⟨[], bs, rfl, by simp⟩
    · obtain ⟨pre, post, rfl, rfl⟩ := ih h
      exact ⟨b :: pre, post, rfl, by simp [Nat.add_assoc]⟩

theorem mem_places_mid {pre post : List Blk} {c : Blk} :
    (a + span pre, c) ∈ places a (pre ++ c :: post) := by
  simp [places]

/-- Two places of one list start apart, or are the same. -/
theorem places_apart (hpos : ∀ b ∈ bs, 0 < b.size) {x y : Nat} {c d : Blk}
    (hx : (x, c) ∈ places a bs) (hy : (y, d) ∈ places a bs) :
    (x = y ∧ c = d) ∨ x + c.size ≤ y ∨ y + d.size ≤ x := by
  induction bs generalizing a with
  | nil => cases hx
  | cons b bs ih =>
    have hrest : ∀ b ∈ bs, 0 < b.size := fun e he => hpos e (List.mem_cons_of_mem b he)
    rw [places, List.mem_cons] at hx hy
    rcases hx with hx | hx
    · cases hx
      rcases hy with hy | hy
      · cases hy; exact .inl ⟨rfl, rfl⟩
      · have := mem_places_ge hy; exact .inr (.inl this.1)
    · rcases hy with hy | hy
      · cases hy
        have := mem_places_ge hx; exact .inr (.inr this.1)
      · exact ih hrest hx hy

theorem mem_segTags {t : Tag} (h : t ∈ segTags a prev bs) :
    ∃ c, (t.place, c) ∈ places a bs ∧ t.size = c.size ∧ t.used = c.used := by
  induction bs generalizing a prev with
  | nil => cases h
  | cons b bs ih =>
    rw [segTags, List.mem_cons] at h
    rcases h with rfl | h
    · exact ⟨b, List.mem_cons_self, rfl, rfl⟩
    · obtain ⟨c, hc, hs⟩ := ih h
      exact ⟨c, List.mem_cons_of_mem _ hc, hs⟩

/-- A tag is a block's, or the sentinel's. -/
theorem mem_tags {t : Tag} (h : t ∈ tags a prev bs) :
    (∃ c, (t.place, c) ∈ places a bs ∧ t.size = c.size ∧ t.used = c.used) ∨ t.place = a + span bs := by
  have hall : tags a prev bs = segTags a prev bs ++ [⟨a + span bs, leftOf prev bs, 0, true⟩] := by
    have := @tags_append a prev bs []
    rwa [List.append_nil] at this
  rw [hall, List.mem_append, List.mem_singleton] at h
  rcases h with h | rfl
  · exact .inl (mem_segTags h)
  · exact .inr rfl

theorem mem_restTags {t : Tag} (h : t ∈ restTags a bs) :
    ∃ b, bs.head? = some b ∧ a + b.size ≤ t.place ∧ t.place ≤ a + span bs := by
  cases bs with
  | nil => cases h
  | cons b bs =>
    refine ⟨b, rfl, ?_⟩
    rw [span_cons]
    rcases mem_tags h with ⟨c, hc, -⟩ | heq
    · have := mem_places_ge hc; omega
    · omega

end Lists

/-! ## Regions -/

structure Region where
  addr : Nat
  bytes : Nat
  whole : Bool
  blocks : List Blk

namespace Region

def start (r : Region) : Nat := r.addr + regionHeader

/-- Where the sentinel is. -/
def fence (r : Region) : Nat := r.start + span r.blocks

def places (r : Region) : List (Nat × Blk) := Malloc.places r.start r.blocks

def tags (r : Region) : List Tag := Malloc.tags r.start none r.blocks

/-- The blocks tile the region between its header and its sentinel. -/
structure Ok (r : Region) : Prop where
  ne_zero : r.addr ≠ 0
  aligned : r.addr % align = 0
  top : r.addr + r.bytes ≤ sizeLimit
  full : regionHeader + span r.blocks + header = r.bytes
  sizes : ∀ b ∈ r.blocks, b.size % align = 0 ∧ minBlock ≤ b.size

end Region

def allPlaces (rs : List Region) : List (Nat × Blk) := rs.flatMap Region.places

/-- Regions that do not overlap, each well laid out. -/
structure Shape (rs : List Region) : Prop where
  apart : rs.Pairwise fun r s => r.addr + r.bytes ≤ s.addr ∨ s.addr + s.bytes ≤ r.addr
  ok : ∀ r ∈ rs, r.Ok

section Shape

variable {rs : List Region} {r s : Region} {x y : Nat} {c d : Blk}

theorem Region.Ok.pos (h : r.Ok) : ∀ b ∈ r.blocks, 0 < b.size := by
  intro b hb
  have := (h.sizes b hb).2
  simp only [minBlock] at this
  omega

theorem Region.Ok.fence_top (h : r.Ok) : r.fence + header = r.addr + r.bytes := by
  have := h.full
  simp only [Region.fence, Region.start]
  omega

theorem Region.Ok.place (h : r.Ok) (hx : (x, c) ∈ r.places) :
    r.addr + regionHeader ≤ x ∧ x + c.size ≤ r.fence ∧ c.size % align = 0 ∧ minBlock ≤ c.size := by
  have hge := mem_places_ge hx
  have hsz := h.sizes c (mem_places_blk hx)
  simp only [Region.fence, Region.start] at hge ⊢
  exact ⟨hge.1, hge.2, hsz⟩

theorem span_mod {bs : List Blk} (h : ∀ b ∈ bs, b.size % align = 0) : span bs % align = 0 := by
  induction bs with
  | nil => rfl
  | cons b bs ih =>
    have hb := h b List.mem_cons_self
    have := ih fun c hc => h c (List.mem_cons_of_mem b hc)
    rw [span_cons]
    simp only [align] at *
    omega

theorem Region.Ok.place_mod (h : r.Ok) (hx : (x, c) ∈ r.places) : x % align = 0 := by
  obtain ⟨pre, post, hb, rfl⟩ := mem_places_split hx
  have hpre : span pre % align = 0 := by
    apply span_mod
    intro b hbm
    exact (h.sizes b (by rw [hb]; exact List.mem_append_left _ hbm)).1
  have := h.aligned
  simp only [Region.start, regionHeader, align] at *
  omega

theorem Region.Ok.fence_mod (h : r.Ok) : r.fence % align = 0 := by
  have hs : span r.blocks % align = 0 := span_mod fun b hb => (h.sizes b hb).1
  have := h.aligned
  simp only [Region.fence, Region.start, regionHeader, align] at *
  omega

theorem mem_allPlaces : (x, c) ∈ allPlaces rs ↔ ∃ r ∈ rs, (x, c) ∈ r.places := by
  simp [allPlaces]

theorem Shape.region_apart (h : Shape rs) (hr : r ∈ rs) (hs : s ∈ rs) (hne : r ≠ s) :
    r.addr + r.bytes ≤ s.addr ∨ s.addr + s.bytes ≤ r.addr := by
  have hsymm : Std.Symm fun r s : Region =>
      r.addr + r.bytes ≤ s.addr ∨ s.addr + s.bytes ≤ r.addr := ⟨fun _ _ => Or.symm⟩
  exact h.apart.forall hr hs hne

/-- Two blocks are the same or do not overlap. -/
theorem Shape.blocks_apart (h : Shape rs) (hx : (x, c) ∈ allPlaces rs) (hy : (y, d) ∈ allPlaces rs) :
    (x = y ∧ c = d) ∨ x + c.size ≤ y ∨ y + d.size ≤ x := by
  obtain ⟨r, hr, hx⟩ := mem_allPlaces.1 hx
  obtain ⟨s, hs, hy⟩ := mem_allPlaces.1 hy
  by_cases heq : r = s
  · subst heq
    exact places_apart (h.ok r hr).pos hx hy
  · have hx' := (h.ok r hr).place hx
    have hy' := (h.ok s hs).place hy
    have hfr := (h.ok r hr).fence_top
    have hfs := (h.ok s hs).fence_top
    have := h.region_apart hr hs heq
    simp only [regionHeader, header] at *
    omega

theorem Shape.place_unique (h : Shape rs) (hx : (x, c) ∈ allPlaces rs) (hy : (x, d) ∈ allPlaces rs) :
    c = d := by
  obtain ⟨r, hr, hc⟩ := mem_allPlaces.1 hx
  obtain ⟨s, hs, hd⟩ := mem_allPlaces.1 hy
  have hc' := ((h.ok r hr).place hc).2.2.2
  have hd' := ((h.ok s hs).place hd).2.2.2
  simp only [minBlock] at hc' hd'
  rcases h.blocks_apart hx hy with ⟨-, heq⟩ | hlt | hlt
  · exact heq
  · omega
  · omega

/-- A tag is in front of a block, at its start, or past its end. -/
theorem Shape.tag_apart (h : Shape rs) {t : Tag} (hr : r ∈ rs) (ht : t ∈ r.tags)
    (hy : (y, d) ∈ allPlaces rs) : t.place = y ∨ t.place + header ≤ y ∨ y + d.size ≤ t.place := by
  rcases mem_tags ht with ⟨c, hc, -⟩ | hat
  · have hok := (h.ok r hr).place hc
    rcases h.blocks_apart (mem_allPlaces.2 ⟨r, hr, hc⟩) hy with ⟨heq, -⟩ | hlt | hlt
    · exact .inl heq
    · simp only [minBlock, header] at *
      omega
    · exact .inr (.inr hlt)
  · obtain ⟨s, hs, hy⟩ := mem_allPlaces.1 hy
    have hy' := (h.ok s hs).place hy
    have hfr := (h.ok r hr).fence_top
    have hfs := (h.ok s hs).fence_top
    change t.place = r.fence at hat
    by_cases heq : r = s
    · subst heq
      omega
    · have := h.region_apart hr hs heq
      have hfull := (h.ok r hr).full
      simp only [regionHeader, header] at *
      omega

theorem Shape.tag_inside (h : Shape rs) {t : Tag} (hr : r ∈ rs) (ht : t ∈ r.tags) :
    r.addr + regionHeader ≤ t.place ∧ t.place + header ≤ r.addr + r.bytes ∧ t.place % align = 0 := by
  have hfr := (h.ok r hr).fence_top
  have hfull := (h.ok r hr).full
  rcases mem_tags ht with ⟨c, hc, -⟩ | hat
  · have hc' := (h.ok r hr).place hc
    refine ⟨hc'.1, ?_, (h.ok r hr).place_mod hc⟩
    simp only [minBlock, header] at *
    omega
  · change t.place = r.fence at hat
    rw [hat]
    refine ⟨?_, by omega, (h.ok r hr).fence_mod⟩
    simp only [Region.fence, Region.start]
    omega

/-- A region's header is clear of every block. -/
theorem Shape.header_apart (h : Shape rs) (hr : r ∈ rs) (hy : (y, d) ∈ allPlaces rs) :
    r.addr + regionHeader ≤ y ∨ y + d.size ≤ r.addr := by
  obtain ⟨s, hs, hy⟩ := mem_allPlaces.1 hy
  have hy' := (h.ok s hs).place hy
  have hfs := (h.ok s hs).fence_top
  by_cases heq : r = s
  · subst heq
    exact .inl hy'.1
  · have := h.region_apart hr hs heq
    have hfull := (h.ok r hr).full
    simp only [regionHeader, header] at *
    omega

/-- A region's header is clear of every tag. -/
theorem Shape.header_tag (h : Shape rs) {t : Tag} (hr : r ∈ rs) (hs : s ∈ rs) (ht : t ∈ s.tags) :
    r.addr + regionHeader ≤ t.place ∨ t.place + header ≤ r.addr := by
  have ht' := h.tag_inside hs ht
  by_cases heq : r = s
  · subst heq
    exact .inl ht'.1
  · have := h.region_apart hr hs heq
    have hfull := (h.ok r hr).full
    simp only [regionHeader, header] at *
    omega

theorem mem_allPlaces_mid {R₁ R₂ : List Region} : (x, c) ∈ allPlaces (R₁ ++ r :: R₂) ↔
    (x, c) ∈ r.places ∨ (x, c) ∈ allPlaces (R₁ ++ R₂) := by
  simp only [allPlaces, List.flatMap_append, List.flatMap_cons, List.mem_append]
  tauto

theorem mem_places_cut {pre post : List Blk} (hb : r.blocks = pre ++ c :: post) :
    (r.start + span pre, c) ∈ r.places := by
  rw [Region.places, hb]
  exact mem_places_mid

theorem mem_allPlaces_cut {R₁ R₂ : List Region} {pre post : List Blk}
    (hb : r.blocks = pre ++ c :: post) : (r.start + span pre, c) ∈ allPlaces (R₁ ++ r :: R₂) :=
  mem_allPlaces_mid.2 (.inl (mem_places_cut hb))

/-- A region is apart from each of the others. -/
theorem Shape.others_apart {R₁ R₂ : List Region} (h : Shape (R₁ ++ r :: R₂)) (hs : s ∈ R₁ ++ R₂) :
    r.addr + r.bytes ≤ s.addr ∨ s.addr + s.bytes ≤ r.addr := by
  have hpw := h.apart
  simp only [List.pairwise_append, List.pairwise_cons, List.mem_cons, forall_eq_or_imp] at hpw
  rcases List.mem_append.1 hs with hs | hs
  · exact (hpw.2.2 s hs).1.symm
  · exact hpw.2.1.1 s hs

/-- A block of another region is outside this one. -/
theorem Shape.others_place {R₁ R₂ : List Region} (h : Shape (R₁ ++ r :: R₂))
    (hx : (x, c) ∈ allPlaces (R₁ ++ R₂)) : x + c.size ≤ r.addr ∨ r.addr + r.bytes ≤ x := by
  obtain ⟨s, hs, hx⟩ := mem_allPlaces.1 hx
  have hok : s.Ok := h.ok s (by
    simp only [List.mem_append, List.mem_cons] at hs ⊢
    tauto)
  have hp := hok.place hx
  have hf := hok.fence_top
  have := h.others_apart hs
  simp only [regionHeader, header] at *
  omega

/-- What a place is known to satisfy. -/
theorem Shape.place (h : Shape rs) (hx : (x, c) ∈ allPlaces rs) :
    x % align = 0 ∧ c.size % align = 0 ∧ minBlock ≤ c.size ∧ 0 < x ∧
      x + c.size + header ≤ sizeLimit := by
  obtain ⟨r, hr, hx⟩ := mem_allPlaces.1 hx
  have hx' := (h.ok r hr).place hx
  have htop := (h.ok r hr).top
  have hfr := (h.ok r hr).fence_top
  refine ⟨(h.ok r hr).place_mod hx, hx'.2.2.1, hx'.2.2.2, ?_, by omega⟩
  simp only [regionHeader] at hx'
  omega

theorem Shape.nodes (hs : Shape rs) : Mem.Nodes (rs.map Region.addr) := by
  refine ⟨?_, fun x hx => ?_, fun x hx => ?_⟩
  · rw [List.Nodup, List.pairwise_map]
    apply hs.apart.imp_of_mem
    intro r s hr hs' hap heq
    have hr' := (hs.ok r hr).full
    have hs' := (hs.ok s hs').full
    simp only [regionHeader, header] at *
    omega
  · obtain ⟨r, hr, rfl⟩ := List.mem_map.1 hx
    exact (hs.ok r hr).aligned
  · obtain ⟨r, hr, rfl⟩ := List.mem_map.1 hx
    have := (hs.ok r hr).top
    have := (hs.ok r hr).full
    simp only [regionHeader, header, sizeLimit] at *
    omega

end Shape

end ReconOS.Malloc
