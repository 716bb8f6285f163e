import ReconOS.Malloc.Carve

/-! Looking for a free block, and what a region newly taken from the source looks like. -/
namespace ReconOS.Malloc

open Mem (Only)

/-! ## Bins -/

theorem le_binLoop (n v i : Nat) : i ≤ binLoop n v i ∧ binLoop n v i ≤ i + n := by
  induction n generalizing v i with
  | zero => exact ⟨Nat.le_refl i, Nat.le_refl i⟩
  | succ n ih =>
    unfold binLoop
    split
    · have := ih (v / 2) (i + 1)
      omega
    · omega

theorem binLoop_mono {v w : Nat} (h : v ≤ w) (n i : Nat) : binLoop n v i ≤ binLoop n w i := by
  induction n generalizing v w i with
  | zero => exact Nat.le_refl i
  | succ n ih =>
    unfold binLoop
    by_cases hv : 1 < v
    · rw [if_pos hv, if_pos (by omega)]
      exact ih (Nat.div_le_div_right h) (i + 1)
    · rw [if_neg hv]
      split
      · have := (le_binLoop n (w / 2) (i + 1)).1
        omega
      · exact Nat.le_refl i

theorem binOf_mono {v w : Nat} (h : v ≤ w) : binOf v ≤ binOf w :=
  binLoop_mono (Nat.div_le_div_right h) _ _

theorem binOf_lt (v : Nat) : binOf v < nbins := by
  have := (le_binLoop (nbins - 1) (v / minBlock) 0).2
  unfold binOf
  simp only [nbins] at *
  omega

/-! ## The search -/

section Find

variable {h : Heap} {rs : List Region} {bins : Nat → List Nat}

theorem fitFrom_eq (want : Nat) {fuel prev cur : Nat} {as : List Nat}
    (hp : Mem.Path h.mem header prev cur as 0) (hf : as.length < fuel) :
    h.fitFrom want fuel cur = (as.find? fun b => decide (want ≤ h.sizeOf b)).getD 0 := by
  induction as generalizing fuel prev cur with
  | nil =>
    obtain ⟨fuel, rfl⟩ : ∃ f, fuel = f + 1 := ⟨fuel - 1, by simp at hf; omega⟩
    rw [show cur = 0 from hp]
    simp [Heap.fitFrom]
  | cons a as ih =>
    obtain ⟨fuel, rfl⟩ : ∃ f, fuel = f + 1 := ⟨fuel - 1, by simp at hf; omega⟩
    obtain ⟨rfl, h0, -, hp⟩ := hp
    rw [Heap.fitFrom, if_neg h0, List.find?_cons]
    by_cases hfit : want ≤ h.sizeOf cur
    · rw [if_pos hfit, decide_eq_true hfit]
      rfl
    · rw [if_neg hfit, decide_eq_false hfit]
      exact ih hp (by simpa using hf)

theorem firstFrom_spec (n k : Nat) :
    (h.firstFrom n k = 0 ∧ ∀ j, k ≤ j → j < k + n → h.bins j = 0) ∨
      ∃ j, k ≤ j ∧ h.firstFrom n k = h.bins j ∧ h.bins j ≠ 0 := by
  induction n generalizing k with
  | zero => exact .inl ⟨rfl, fun j _ _ => by omega⟩
  | succ n ih =>
    unfold Heap.firstFrom
    by_cases h0 : h.bins k = 0
    · rw [if_neg (by simpa using h0)]
      rcases ih (k + 1) with ⟨hz, hall⟩ | ⟨j, hj, heq, hne⟩
      · refine .inl ⟨hz, fun j hj hlt => ?_⟩
        by_cases hjk : j = k
        · rw [hjk, h0]
        · exact hall j (by omega) (by omega)
      · exact .inr ⟨j, by omega, heq, hne⟩
    · rw [if_pos h0]
      exact .inr ⟨k, Nat.le_refl k, rfl, h0⟩

/-- The search finds a block that fits if there is one. -/
theorem findFit_spec (hs : Holds h rs bins (fun _ => False)) (want : Nat) :
    (h.findFit want = 0 ∧ ∀ x c, (x, c) ∈ allPlaces rs → c.used = false → c.size < want) ∨
      h.findFit want ≠ 0 ∧ ∃ c, (h.findFit want, c) ∈ allPlaces rs ∧ c.used = false ∧
        want ≤ c.size := by
  have hlen : (bins (binOf want)).length < longest :=
    (hs.listed.nodes _).length_lt fun x hx => hs.listed.ne_zero hx
  have hfit := fitFrom_eq want (hs.listed.links (binOf want)) hlen
  have hempty : ∀ j, h.bins j = 0 → bins j = [] := by
    intro j hj
    have hl := hs.listed.links j
    rw [hj] at hl
    cases hb : bins j with
    | nil => rfl
    | cons a as =>
      rw [hb] at hl
      exact absurd hl.1.symm hl.2.1
  unfold Heap.findFit
  simp only [hfit]
  cases hfind : (bins (binOf want)).find? fun b => decide (want ≤ h.sizeOf b) with
  | some b =>
    have hb := List.mem_of_find?_eq_some hfind
    have hfits : want ≤ h.sizeOf b := by simpa using List.find?_some hfind
    obtain ⟨c, hc, hcu, -, -⟩ := (hs.free_iff _ _).1 hb
    have hb0 : b ≠ 0 := hs.listed.ne_zero hb
    right
    rw [Option.getD_some, if_pos hb0]
    exact ⟨hb0, c, hc, hcu, by rwa [← hs.sizeOf_eq hc]⟩
  | none =>
    have hnone : ∀ b ∈ bins (binOf want), h.sizeOf b < want := by
      intro b hb
      have := List.find?_eq_none.1 hfind b hb
      simpa using this
    rw [Option.getD_none, if_neg (by simp)]
    rcases firstFrom_spec (h := h) (nbins - (binOf want + 1)) (binOf want + 1) with
      ⟨hz, hall⟩ | ⟨j, hj, heq, hne⟩
    · left
      refine ⟨hz, fun x c hx hc => ?_⟩
      by_contra hge
      have hmem : x ∈ bins (binOf c.size) := (hs.free_iff _ _).2 ⟨c, hx, hc, rfl, id⟩
      have hle := binOf_mono (Nat.not_lt.1 hge)
      have hlt := binOf_lt c.size
      by_cases hbin : binOf c.size = binOf want
      · rw [hbin] at hmem
        have := hnone x hmem
        rw [hs.sizeOf_eq hx] at this
        omega
      · rw [hempty _ (hall _ (by omega) (by omega))] at hmem
        cases hmem
    · right
      have hmem := (hs.listed.links j).first_mem hne
      obtain ⟨c, hc, hcu, hk, -⟩ := (hs.free_iff _ _).1 hmem
      rw [heq]
      refine ⟨hne, c, hc, hcu, ?_⟩
      by_contra hlt
      have := binOf_mono (Nat.le_of_not_le hlt)
      omega

end Find

/-! ## A new region -/

/-- A region as it is first laid out: one free block from its header to its sentinel. -/
def newRegion (a ask : Nat) (whole : Bool) : Region :=
  ⟨a, ask, whole, [⟨ask - regionHeader - header, false⟩]⟩

section Lay

variable {h : Heap} {a ask : Nat}

theorem layBlock_spec (hask : regionHeader + minBlock + header ≤ ask) (hmod : ask % align = 0)
    (htop : a + ask ≤ sizeLimit) :
    (Tag.mk (a + regionHeader) none (ask - regionHeader - header) false).In (h.layBlock a ask).mem ∧
      (Tag.mk (a + ask - header) (some (ask - regionHeader - header)) 0 true).In
        (h.layBlock a ask).mem ∧
      Only (fun y => y = a + regionHeader ∨ y = a + ask - header) h.mem (h.layBlock a ask).mem ∧
      h.layBlock a ask = { h with mem := (h.layBlock a ask).mem } := by
  simp only [regionHeader, minBlock, header, align, sizeLimit] at *
  have hwrap : (ask + 2 ^ 64 - 32 - 16) % 2 ^ 64 = ask - 48 := by omega
  have hsub : ask - 32 - 16 = ask - 48 := by omega
  have hfence : a + 32 + (ask - 48) = a + ask - 16 := by omega
  have hhead : ((h.mem.store (a + 32) 0).store (a + 32 + 8) (ask - 48 + 2)).load (a + 32 + 8) =
      ask - 48 + 2 := Mem.load_store_self (by omega)
  have hsz : ∀ m : Mem, m.load (a + 32 + 8) = ask - 48 + 2 →
      m.load (a + 32 + 8) / 16 * 16 = ask - 48 := by
    intro m hm
    rw [hm]
    omega
  have hkeep : ∀ m : Mem, ∀ v, (m.store (a + ask - 16) v).load (a + 32 + 8) = m.load (a + 32 + 8) :=
    fun m v => Mem.load_store_ne (by omega)
  have hkeep' : ∀ m : Mem, ∀ v, (m.store (a + ask - 16 + 8) v).load (a + 32 + 8) =
      m.load (a + 32 + 8) := fun m v => Mem.load_store_ne (by omega)
  have hlay : (h.layBlock a ask).mem =
      ((((h.mem.store (a + 32) 0).store (a + 32 + 8) (ask - 48 + 2)).store (a + ask - 16) 0).store
        (a + ask - 16 + 8) 1).store (a + ask - 16) (ask - 48) := by
    simp only [Heap.layBlock, Heap.writeFooter, Heap.nextBlock, Heap.sizeOf, Heap.head, Heap.load,
      Heap.store, regionHeader, header, sizeLimit, align, hwrap, hsz _ hhead, hfence, hkeep', hkeep]
  rw [hlay, hsub]
  refine ⟨⟨?_, fun s hs => by cases hs⟩, ⟨?_, fun s hs => ?_⟩, ?_, ?_⟩
  · refine (hkeep _ _).trans ((hkeep' _ _).trans ((hkeep _ _).trans (hhead.trans ?_)))
    simp
  · have hf8 : ∀ m : Mem, ∀ v, (m.store (a + ask - 16) v).load (a + ask - 16 + 8) =
        m.load (a + ask - 16 + 8) := fun m v => Mem.load_store_ne (by omega)
    refine (hf8 _ _).trans ((Mem.load_store_self (by omega)).trans ?_)
    simp
  · cases hs
    exact Mem.load_store_self (by omega)
  · have hb : ∀ m : Mem, ∀ v, Only (fun y => y = a + 32 ∨ y = a + ask - 16) m (m.store (a + 32) v) :=
      fun m v => Only.store m _ _ (.inl rfl) (by omega) (by omega)
    have hb' : ∀ m : Mem, ∀ v,
        Only (fun y => y = a + 32 ∨ y = a + ask - 16) m (m.store (a + 32 + 8) v) :=
      fun m v => Only.store m _ _ (.inl rfl) (by omega) (by omega)
    have hf : ∀ m : Mem, ∀ v,
        Only (fun y => y = a + 32 ∨ y = a + ask - 16) m (m.store (a + ask - 16) v) :=
      fun m v => Only.store m _ _ (.inr rfl) (by omega) (by omega)
    have hf' : ∀ m : Mem, ∀ v,
        Only (fun y => y = a + 32 ∨ y = a + ask - 16) m (m.store (a + ask - 16 + 8) v) :=
      fun m v => Only.store m _ _ (.inr rfl) (by omega) (by omega)
    exact (hb _ _).trans ((hb' _ _).trans ((hf _ _).trans ((hf' _ _).trans (hf _ _))))
  · rw [← hlay]
    rfl

/-- A region counted, its header written and linked in, before its block is laid out. -/
def Heap.linkRegion (h : Heap) (a ask : Nat) (whole : Bool) : Heap :=
  { h with
    takes := h.takes + 1, takenBytes := h.takenBytes + ask, regionCount := h.regionCount + 1
    regions := a
    mem := ((h.mem.store (a + 16) ask).store (a + 24) whole.toNat).pushFront 0 h.regions a }

/-- A region laid out beside `rs`, its block on no list yet. -/
structure Laid (h h' : Heap) (rs : List Region) (a ask : Nat) (whole : Bool) : Prop where
  links : h'.mem.Links 0 a (a :: rs.map Region.addr)
  bytes : h'.mem.load (a + 16) = ask
  whole : h'.mem.load (a + 24) = whole.toNat
  tag : (Tag.mk (a + regionHeader) none (ask - regionHeader - header) false).In h'.mem
  fence : (Tag.mk (a + ask - header) (some (ask - regionHeader - header)) 0 true).In h'.mem
  only : Only (fun y => (a ≤ y ∧ y + header ≤ a + ask) ∨ ∃ s ∈ rs, y = s.addr) h.mem h'.mem
  rest : h' = { h with
    mem := h'.mem, regions := a, takes := h.takes + 1, takenBytes := h.takenBytes + ask,
    regionCount := h.regionCount + 1 }

variable {h' : Heap} {rs : List Region} {bins : Nat → List Nat} {whole : Bool}
  (hs : Holds h rs bins (fun _ => False))
  (hapart : ∀ s ∈ rs, a + ask ≤ s.addr ∨ s.addr + s.bytes ≤ a)
  (h0 : a ≠ 0) (hamod : a % align = 0) (hask : regionHeader + minBlock + header ≤ ask)
  (hmod : ask % align = 0) (htop : a + ask ≤ sizeLimit)

include hs hapart

theorem far_from : ∀ s ∈ rs, a + ask ≤ s.addr ∨ s.addr + 48 ≤ a := by
  intro s hsm
  have := hapart s hsm
  have := (hs.shape.ok s hsm).full
  simp only [regionHeader, header] at *
  omega

include h0 hamod hask htop

theorem newRegion_nodes : Mem.Nodes (a :: rs.map Region.addr) := by
  have hn := hs.shape.nodes
  simp only [regionHeader, minBlock, header, sizeLimit] at hask htop
  refine ⟨List.nodup_cons.2 ⟨?_, hn.nodup⟩, fun x hx => ?_, fun x hx => ?_⟩
  · intro hmem
    obtain ⟨s, hsm, heq⟩ := List.mem_map.1 hmem
    have := far_from hs hapart s hsm
    omega
  · rcases List.mem_cons.1 hx with rfl | hx
    · exact hamod
    · exact hn.aligned x hx
  · rcases List.mem_cons.1 hx with rfl | hx
    · omega
    · exact hn.lt x hx

variable (whole) in
/-- The region's header. -/
theorem linkRegion_spec :
    (h.linkRegion a ask whole).mem.Links 0 a (a :: rs.map Region.addr) ∧
      (h.linkRegion a ask whole).mem.load (a + 16) = ask ∧
      (h.linkRegion a ask whole).mem.load (a + 24) = whole.toNat ∧
      Only (fun y => y = a + 16 ∨ y = a ∨ ∃ s ∈ rs, y = s.addr) h.mem
        (h.linkRegion a ask whole).mem := by
  have hnodes := newRegion_nodes hs hapart h0 hamod hask htop
  have hfar := far_from hs hapart
  simp only [regionHeader, minBlock, header, sizeLimit] at hask htop
  unfold Heap.linkRegion
  dsimp only
  have ho1 : Only (fun y => y = a + 16) h.mem (h.mem.store (a + 16) ask) :=
    Only.store _ _ _ rfl (by omega) (by omega)
  have ho2 := ho1.trans (Only.store (h.mem.store (a + 16) ask) (a + 24) whole.toNat rfl (by omega)
    (by omega))
  have hbytes2 : ((h.mem.store (a + 16) ask).store (a + 24) whole.toNat).load (a + 16) = ask :=
    (Mem.load_store_ne (by omega)).trans (Mem.load_store_self (by omega))
  have hwhole2 : ((h.mem.store (a + 16) ask).store (a + 24) whole.toNat).load (a + 24) =
      whole.toNat := Mem.load_store_self (by have := whole.toNat_le; omega)
  generalize (h.mem.store (a + 16) ask).store (a + 24) whole.toNat = m₂ at *
  have hl2 : m₂.Links 0 h.regions (rs.map Region.addr) := by
    apply ho2.path hs.chained.links
    rintro x hx y rfl
    obtain ⟨s, hsm, rfl⟩ := List.mem_map.1 hx
    have := hfar s hsm
    omega
  have ho3 : Only (fun y => y = a ∨ ∃ s ∈ rs, y = s.addr) m₂ (m₂.pushFront 0 h.regions a) := by
    apply (Mem.pushFront_only hl2).mono
    rintro y ⟨x, hx, rfl⟩
    rcases List.mem_cons.1 hx with rfl | hx
    · exact .inl rfl
    · obtain ⟨s, hsm, rfl⟩ := List.mem_map.1 hx
      exact .inr ⟨s, hsm, rfl⟩
  have hoff3 : ∀ k, k ≤ 8 →
      (m₂.pushFront 0 h.regions a).load (a + 16 + k) = m₂.load (a + 16 + k) := by
    intro k hk
    apply ho3.load
    rintro y (rfl | ⟨s, hsm, rfl⟩)
    · omega
    · have := hfar s hsm
      omega
  exact ⟨hl2.pushFront hnodes h0, (hoff3 0 (by omega)).trans hbytes2,
    (hoff3 8 (by omega)).trans hwhole2, (ho2.mono fun y => .inl).trans (ho3.mono fun y => .inr)⟩

include hmod

variable (whole) in
/-- Its block and its sentinel. -/
theorem linkRegion_laid : Laid h ((h.linkRegion a ask whole).layBlock a ask) rs a ask whole := by
  have hfar := far_from hs hapart
  obtain ⟨links, bytes, whole_, linked⟩ :=
    linkRegion_spec whole hs hapart h0 hamod hask htop
  obtain ⟨tag, fence, laid, rest⟩ := layBlock_spec (h := h.linkRegion a ask whole) hask hmod htop
  simp only [regionHeader, minBlock, header, align] at hask hamod
  simp only [regionHeader, header] at laid
  have same : ∀ k, k ≤ 8 → ((h.linkRegion a ask whole).layBlock a ask).mem.load (a + 16 + k) =
      (h.linkRegion a ask whole).mem.load (a + 16 + k) := by
    intro k hk
    apply laid.load
    rintro y (rfl | rfl)
    · omega
    · omega
  refine ⟨?_, (same 0 (by omega)).trans bytes, (same 8 (by omega)).trans whole_, tag, fence, ?_,
    rest⟩
  · apply laid.path links
    intro x hx y hy
    rcases List.mem_cons.1 hx with rfl | hx
    · omega
    · obtain ⟨s, hsm, rfl⟩ := List.mem_map.1 hx
      have := hfar s hsm
      omega
  · apply (linked.mono ?_).trans (laid.mono ?_)
    · rintro y (rfl | rfl | hy)
      · simp only [header]
        omega
      · simp only [header]
        omega
      · exact .inr hy
    · rintro y (rfl | rfl)
      · simp only [header]
        omega
      · simp only [header]
        omega

theorem newRegion_shape : Shape (newRegion a ask whole :: rs) := by
  simp only [regionHeader, minBlock, header, align] at hask hamod hmod
  refine ⟨List.pairwise_cons.2 ⟨hapart, hs.shape.apart⟩, fun s hsm => ?_⟩
  rcases List.mem_cons.1 hsm with rfl | hsm
  · refine ⟨h0, hamod, htop, ?_, fun b hb => ?_⟩
    · simp only [newRegion, regionHeader, header, span_cons, span_nil]
      omega
    · rw [List.mem_singleton.1 hb]
      simp only [regionHeader, header, minBlock, align]
      omega
  · exact hs.shape.ok s hsm

omit h0 hamod hask hmod htop

theorem Laid.chained (laid : Laid h h' rs a ask whole) :
    Chained h' (newRegion a ask whole :: rs) := by
  have hfar := far_from hs hapart
  have hsecond : ∀ s ∈ rs, ∀ k, k ≤ 8 →
      h'.mem.load (s.addr + 16 + k) = h.mem.load (s.addr + 16 + k) := by
    intro s hsm k hk
    apply laid.only.load
    have := hfar s hsm
    rintro y (hy | ⟨q, hq, rfl⟩)
    · simp only [header] at hy
      omega
    · by_cases heq : q = s
      · subst heq
        omega
      · have := hs.shape.region_apart hq hsm heq
        have := (hs.shape.ok q hq).full
        have := (hs.shape.ok s hsm).full
        simp only [regionHeader, header] at *
        omega
  refine ⟨?_, fun s hsm => ?_, fun s hsm => ?_⟩
  · rw [show h'.regions = a by rw [laid.rest]]
    exact laid.links
  · rcases List.mem_cons.1 hsm with rfl | hsm
    · exact laid.bytes
    · exact (hsecond s hsm 0 (by omega)).trans (hs.chained.bytes s hsm)
  · rcases List.mem_cons.1 hsm with rfl | hsm
    · unfold Heap.wholeOf Heap.load
      change (h'.mem.load (a + 24) != 0) = whole
      rw [laid.whole]
      cases whole <;> rfl
    · have hw := hs.chained.whole s hsm
      unfold Heap.wholeOf Heap.load at hw ⊢
      rw [← hw]
      have := hsecond s hsm 8 (by omega)
      rw [Nat.add_assoc] at this
      rw [this]

theorem Laid.listed (laid : Laid h h' rs a ask whole) : Listed h' bins := by
  apply hs.listed.frame laid.only (by rw [laid.rest])
  intro k x hx y hy
  obtain ⟨d, hd⟩ := hs.place_of_mem k x hx
  have hdsz := (hs.shape.place hd).2.2.1
  obtain ⟨s, hsm, hd'⟩ := mem_allPlaces.1 hd
  have hin := (hs.shape.ok s hsm).place hd'
  have hft := (hs.shape.ok s hsm).fence_top
  have hap := hapart s hsm
  rcases hy with hy | ⟨q, hq, rfl⟩
  · simp only [regionHeader, header, minBlock] at *
    omega
  · have := hs.shape.header_apart hq hd
    simp only [regionHeader, header, minBlock] at *
    omega

include hask

theorem Laid.tagged (laid : Laid h h' rs a ask whole) :
    Tagged h' (newRegion a ask whole :: rs) := by
  simp only [regionHeader, minBlock, header] at hask
  intro s hsm t ht
  rcases List.mem_cons.1 hsm with rfl | hsm
  · have hend : a + 32 + (ask - 32 - 16) = a + ask - 16 := by omega
    simp only [Region.tags, Region.start, newRegion, tags, Blk.left, Bool.false_eq_true,
      ↓reduceIte, regionHeader, header, hend, List.mem_cons, List.not_mem_nil, or_false] at ht
    rcases ht with rfl | rfl
    · exact laid.tag
    · exact laid.fence
  · apply (hs.tagged s hsm t ht).frame laid.only
    have hin := hs.shape.tag_inside hsm ht
    have hap := hapart s hsm
    rintro y (hy | ⟨q, hq, rfl⟩)
    · simp only [regionHeader, header] at *
      omega
    · have := hs.shape.header_tag hq hsm ht
      simp only [regionHeader, header] at *
      omega

/-- The new block is the one free block on no list. -/
theorem newRegion_free_iff (k x : Nat) : x ∈ bins k ↔
    ∃ b, (x, b) ∈ allPlaces (newRegion a ask whole :: rs) ∧ b.used = false ∧ binOf b.size = k ∧
      ¬x = a + regionHeader := by
  rw [hs.free_iff]
  have hcons : ∀ d, (x, d) ∈ allPlaces (newRegion a ask whole :: rs) ↔
      (x, d) = (a + regionHeader, (⟨ask - regionHeader - header, false⟩ : Blk)) ∨
        (x, d) ∈ allPlaces rs := by
    intro d
    simp [allPlaces, newRegion, Region.places, Region.start, places]
  constructor
  · rintro ⟨d, hd, hdu, hk, -⟩
    refine ⟨d, (hcons d).2 (.inr hd), hdu, hk, ?_⟩
    rintro rfl
    have hdsz := (hs.shape.place hd).2.2.1
    obtain ⟨s, hsm, hd'⟩ := mem_allPlaces.1 hd
    have hin := (hs.shape.ok s hsm).place hd'
    have hft := (hs.shape.ok s hsm).fence_top
    have hap := hapart s hsm
    simp only [regionHeader, header, minBlock] at *
    omega
  · rintro ⟨d, hd, hdu, hk, hne⟩
    rcases (hcons d).1 hd with hd | hd
    · exact absurd (congrArg Prod.fst hd) hne
    · exact ⟨d, hd, hdu, hk, id⟩

include h0 hamod hmod htop

/-- A region the source grants joins the others; its block is on no list yet. -/
theorem layRegion_spec (whole : Bool) :
    ∃ h₁, h.layRegion a ask whole =
        (if whole = true then h₁ else h₁.binInsert (a + regionHeader)) ∧
      Holds h₁ (newRegion a ask whole :: rs) bins (fun x => x = a + regionHeader) ∧
      Only (fun y => (a ≤ y ∧ y + header ≤ a + ask) ∨ ∃ s ∈ rs, y = s.addr) h.mem h₁.mem ∧
      h₁ = { h with
        mem := h₁.mem, regions := a, takes := h.takes + 1, takenBytes := h.takenBytes + ask,
        regionCount := h.regionCount + 1 } := by
  have laid := linkRegion_laid whole hs hapart h0 hamod hask hmod htop
  exact ⟨_, rfl, ⟨newRegion_shape hs hapart h0 hamod hask hmod htop, laid.chained hs hapart,
    laid.tagged hs hapart hask, laid.listed hs hapart, newRegion_free_iff hs hapart hask⟩,
    laid.only, laid.rest⟩

end Lay

end ReconOS.Malloc
