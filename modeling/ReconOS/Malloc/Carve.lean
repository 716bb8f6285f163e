import ReconOS.Malloc.Holds

/-! What handing a block out of a free one does: the free block comes off its list, what is left of
it goes back on one, and the rest is marked in use. -/
namespace ReconOS.Malloc

open Mem (Only)

section Carve

variable {h : Heap} {R₁ R₂ : List Region} {r : Region} {bins : Nat → List Nat} {off : Nat → Prop}
  {pre post : List Blk} {c : Blk}

/-- The other fields of an allocator after a block was handed out. -/
def HandedOut (h h' : Heap) (n : Nat) : Prop :=
  h' = { h with
    mem := h'.mem, bins := h'.bins, liveBytes := h.liveBytes + n, liveBlocks := h.liveBlocks + 1 }

/-- Marking a free block in use. -/
theorem setPrevUsed_spec (hs : Holds h (R₁ ++ r :: R₂) bins off) (hb : r.blocks = pre ++ c :: post)
    (hc : c.used = true) :
    Holds (h.setPrevUsed (r.start + span pre + c.size)) (R₁ ++ r :: R₂) bins off ∧
      Only (fun y => y = r.start + span pre + c.size) h.mem
        (h.setPrevUsed (r.start + span pre + c.size)).mem := by
  obtain ⟨⟨htag, hclear⟩, hnext, hclear'⟩ := hs.tags_at hb
  obtain ⟨hmod, hcmod, hcmin, htop, -⟩ := hs.places_mod hb
  have hsz : ∀ b ∈ post, b.size % align = 0 := by
    intro b hbm
    exact ((hs.shape.ok r (by simp)).sizes b (by rw [hb]; simp [hbm])).1
  have ho : Only (fun y => y = r.start + span pre + c.size) h.mem
      (h.setPrevUsed (r.start + span pre + c.size)).mem :=
    Only.store _ _ _ rfl (by omega) (by omega)
  have hset := hnext.setPrevUsed (firstTag_size hsz)
  rw [firstTag_at, firstTag_prev] at hset
  have hsame : R₁ ++ { r with blocks := pre ++ [c] ++ post } :: R₂ = R₁ ++ r :: R₂ := by
    have : pre ++ [c] ++ post = r.blocks := by
      rw [hb]
      simp
    rw [this]
  refine ⟨?_, ho⟩
  rw [← hsame]
  simp only [minBlock] at hcmin
  have hblocks : r.blocks = pre ++ [c] ++ post := by
    rw [hb]
    simp
  have hused : ∀ x d, (x, d) ∈ places (r.start + span pre) [c] → d.used = false → off x := by
    intro x d hx hd
    simp only [places, List.mem_singleton, Prod.mk.injEq] at hx
    rw [hx.2, hc] at hd
    cases hd
  refine hs.retile hblocks rfl ?sizes hused hused (fun _ _ => Iff.rfl) ho ?touched rfl rfl ?tags
    ?next
  case tags =>
    intro t ht
    rw [segTags, segTags, List.mem_singleton] at ht
    rw [ht]
    apply htag.frame ho
    rintro y rfl
    right
    simp only
    omega
  case next => simpa [leftOf, Blk.left, hc] using hset
  case sizes =>
    intro b hbm
    rw [List.mem_singleton.1 hbm]
    exact ⟨hcmod, hcmin⟩
  case touched =>
    rintro y rfl
    simp

/-- A free block off the lists marked in use, whole. -/
theorem handOut_spec (hs : Holds h (R₁ ++ r :: R₂) bins off) (hb : r.blocks = pre ++ c :: post)
    (hc : c.used = false) (hoff : off (r.start + span pre)) :
    (h.handOut (r.start + span pre)).1 = r.start + span pre + header ∧
      Holds (h.handOut (r.start + span pre)).2
        (R₁ ++ { r with blocks := pre ++ [⟨c.size, true⟩] ++ post } :: R₂) bins
        (fun x => off x ∧ x ≠ r.start + span pre) ∧
      Only (fun y => y = r.start + span pre ∨ y = r.start + span pre + c.size) h.mem
        (h.handOut (r.start + span pre)).2.mem ∧
      HandedOut h (h.handOut (r.start + span pre)).2 (c.size - header) := by
  obtain ⟨⟨htag, hclear⟩, hnext, hclear'⟩ := hs.tags_at hb
  obtain ⟨hmod, hcmod, hcmin, htop, -⟩ := hs.places_mod hb
  simp only [minBlock] at hcmin
  have hsz : ∀ b ∈ post, b.size % align = 0 := by
    intro b hbm
    exact ((hs.shape.ok r (by simp)).sizes b (by rw [hb]; simp [hbm])).1
  generalize hbdef : r.start + span pre = b at *
  rw [hc] at htag
  have ho1 : Only (fun y => y = b) h.mem (h.setUsed b).mem :=
    Only.store _ _ _ rfl (by omega) (by omega)
  have ht1 : (Tag.mk b (leftOf none pre) c.size true).In (h.setUsed b).mem := htag.setUsed hcmod
  have hs1 : (h.setUsed b).sizeOf b = c.size := ht1.size hcmod
  have hn1 : (firstTag (b + c.size) c.left post).In (h.setUsed b).mem := by
    apply hnext.frame ho1
    rintro y rfl
    rw [firstTag_at]
    omega
  have ho2 : Only (fun y => y = b + c.size) (h.setUsed b).mem
      ((h.setUsed b).setPrevUsed (b + c.size)).mem :=
    Only.store _ _ _ rfl (by omega) (by omega)
  have hn2 := hn1.setPrevUsed (firstTag_size hsz)
  rw [firstTag_at, firstTag_prev] at hn2
  have ht2 : (Tag.mk b (leftOf none pre) c.size true).In
      ((h.setUsed b).setPrevUsed (b + c.size)).mem := by
    apply ht1.frame ho2
    rintro y rfl
    right
    simp only
    omega
  have hs2 : ((h.setUsed b).setPrevUsed (b + c.size)).sizeOf b = c.size := ht2.size hcmod
  have hout : h.handOut b = (b + header,
      { (h.setUsed b).setPrevUsed (b + c.size) with
        liveBytes := h.liveBytes + (c.size - header), liveBlocks := h.liveBlocks + 1 }) := by
    simp only [Heap.handOut, Heap.nextBlock, hs1, hs2]
    rfl
  have ho : Only (fun y => y = b ∨ y = b + c.size) h.mem
      ((h.setUsed b).setPrevUsed (b + c.size)).mem :=
    (ho1.mono fun y hy => .inl hy).trans (ho2.mono fun y hy => .inr hy)
  rw [hout]
  refine ⟨rfl, ?_, ho, rfl⟩
  subst hbdef
  have hblocks : r.blocks = pre ++ [c] ++ post := by
    rw [hb]
    simp
  have hspan : span [(⟨c.size, true⟩ : Blk)] = span [c] := by simp
  have hheld : Holds ((h.setUsed (r.start + span pre)).setPrevUsed (r.start + span pre + c.size))
      (R₁ ++ { r with blocks := pre ++ [⟨c.size, true⟩] ++ post } :: R₂) bins
      (fun x => off x ∧ x ≠ r.start + span pre) := by
    refine hs.retile hblocks hspan ?sizes ?off ?off' ?same ho ?touched rfl rfl ?tags ?next
    case tags =>
      intro t ht
      rw [segTags, segTags, List.mem_singleton] at ht
      rw [ht]
      exact ht2
    case next => simpa [leftOf, Blk.left] using hn2
    case sizes =>
      intro d hd
      rw [List.mem_singleton.1 hd]
      exact ⟨hcmod, hcmin⟩
    case off =>
      intro x d hx hd
      simp only [places, List.mem_singleton, Prod.mk.injEq] at hx
      rw [hx.1]
      exact hoff
    case off' =>
      intro x d hx hd
      simp only [places, List.mem_singleton, Prod.mk.injEq] at hx
      rw [hx.2] at hd
      cases hd
    case same =>
      intro x hx
      simp only [span_cons, span_nil] at hx
      constructor
      · exact And.left
      · intro hox
        exact ⟨hox, by omega⟩
    case touched =>
      rintro y (rfl | rfl)
      · simp
      · simp
  exact hheld.books rfl rfl rfl

/-- Marking the front of a block and putting its rest on a list can be done in either order. -/
theorem binInsert_setUsed (hl : Listed h bins) {b t : Nat} (hb : b % align = 0)
    (hoff : ClearOf bins b) (hbt : b + 32 ≤ t) :
    (h.binInsert t).setUsed b = (h.setUsed b).binInsert t := by
  have hsize : (h.setUsed b).sizeOf t = h.sizeOf t := by
    unfold Heap.sizeOf Heap.head Heap.load Heap.setUsed Heap.store
    rw [Mem.load_store_ne (by omega)]
  have hfirst : ∀ k, h.bins k ≠ 0 → b + 8 + 8 ≤ h.bins k + header ∨ h.bins k + header + 16 ≤ b + 8 := by
    intro k h0
    have := hoff.apart hl hb ⟨k, _, (hl.links k).first_mem h0, rfl⟩
    omega
  have hcomm : ∀ k v, (h.mem.store (b + 8) v).pushFront header (h.bins k) t =
      (h.mem.pushFront header (h.bins k) t).store (b + 8) v :=
    fun k v => Mem.pushFront_store (by simp only [header]; omega) (hfirst k)
  have hhead : ∀ k, (h.mem.pushFront header (h.bins k) t).load (b + 8) = h.mem.load (b + 8) := by
    intro k
    apply (Mem.pushFront_only (hl.links k)).load
    rintro y ⟨x, hx, rfl⟩
    rcases List.mem_cons.1 hx with rfl | hx
    · simp only [header]
      omega
    · have := hoff.apart hl hb ⟨k, x, hx, rfl⟩
      omega
  simp only [Heap.binInsert, hsize]
  simp only [Heap.setUsed, Heap.head, Heap.load, Heap.store, hhead, hcomm]

/-- A free block cut in two, with the size of the front and the head and footer of the rest. -/
def Heap.divide (h : Heap) (b want rest : Nat) : Heap :=
  ((h.setSize b want).store (b + want + 8) (rest + 2)).store (b + (want + rest)) rest

section Divide

variable {b want rest : Nat} {prev : Option Nat} (hwmod : want % align = 0) (hw : minBlock ≤ want)
  (hrmod : rest % align = 0) (hr : minBlock ≤ rest) (htop : b + (want + rest) < sizeLimit)
  (htag : (Tag.mk b prev (want + rest) false).In h.mem)

include hwmod hw hrmod hr htop htag

theorem divide_split : h.split b want = (h.divide b want rest).binInsert (b + want) := by
  simp only [minBlock, sizeLimit] at hw hr htop
  have hmod : (want + rest) % align = 0 := by
    simp only [align] at *
    omega
  have hs1 : (h.setSize b want).sizeOf b = want := (htag.setSize hmod hwmod (by omega)).size hwmod
  have hs2 : ((h.setSize b want).store (b + want + 8) (rest + 2)).sizeOf (b + want) = rest := by
    unfold Heap.sizeOf Heap.head Heap.load
    rw [show (Heap.store _ _ _).mem.load (b + want + 8) = rest + 2 from
      Mem.load_store_self (by omega)]
    simp only [align] at *
    omega
  have hrest : h.sizeOf b - want = rest := by
    have size : h.sizeOf b = want + rest := htag.size hmod
    omega
  have hnot : ¬rest < minBlock := by
    simp only [minBlock]
    omega
  simp only [Heap.split, hrest, hnot, ↓reduceIte, Heap.nextBlock, hs1, Heap.writeFooter, hs2,
    Heap.divide, Nat.add_assoc b want rest]

/-- Marking the front first makes this a tiling again. -/
theorem divide_tags {post : List Blk}
    (hnext : (firstTag (b + (want + rest)) (some (want + rest)) post).In h.mem) :
    (Tag.mk b prev want true).In ((h.divide b want rest).setUsed b).mem ∧
      (Tag.mk (b + want) none rest false).In ((h.divide b want rest).setUsed b).mem ∧
      (firstTag (b + (want + rest)) (some rest) post).In ((h.divide b want rest).setUsed b).mem ∧
      Only (fun y => b ≤ y ∧ y ≤ b + (want + rest)) h.mem
        ((h.divide b want rest).setUsed b).mem := by
  simp only [minBlock, sizeLimit] at hw hr htop
  have hmod : (want + rest) % align = 0 := by
    simp only [align] at *
    omega
  have ho1 : Only (fun y => y = b) h.mem (h.setSize b want).mem :=
    Only.store _ _ _ rfl (by omega) (by omega)
  have ht1 : (Tag.mk b prev want false).In (h.setSize b want).mem :=
    htag.setSize hmod hwmod (by omega)
  unfold Heap.divide
  generalize h.setSize b want = h₁ at *
  have ho2 : Only (fun y => y = b + want) h₁.mem (h₁.store (b + want + 8) (rest + 2)).mem :=
    Only.store _ _ _ rfl (by omega) (by omega)
  have hhead2 : (h₁.store (b + want + 8) (rest + 2)).mem.load (b + want + 8) = rest + 2 :=
    Mem.load_store_self (by omega)
  generalize h₁.store (b + want + 8) (rest + 2) = h₂ at *
  have ho3 : Only (fun y => y = b + (want + rest)) h₂.mem (h₂.store (b + (want + rest)) rest).mem :=
    Only.store _ _ _ rfl (by omega) (by omega)
  have hfoot3 : (h₂.store (b + (want + rest)) rest).mem.load (b + (want + rest)) = rest :=
    Mem.load_store_self (by omega)
  have hhead3 : (h₂.store (b + (want + rest)) rest).mem.load (b + (want + rest) + 8) =
      h₂.mem.load (b + (want + rest) + 8) := Mem.load_store_ne (by omega)
  generalize h₂.store (b + (want + rest)) rest = h₃ at *
  have ho4 : Only (fun y => y = b) h₃.mem (h₃.setUsed b).mem :=
    Only.store _ _ _ rfl (by omega) (by omega)
  refine ⟨?_, ?_, ?_, ?_⟩
  · have ht3 : (Tag.mk b prev want false).In h₃.mem := by
      apply Tag.In.frame (Tag.In.frame ht1 ho2 ?_) ho3
      · rintro y rfl
        right
        simp only
        omega
      · rintro y rfl
        right
        simp only
        omega
    exact ht3.setUsed hwmod
  · have h2 : (Tag.mk (b + want) none rest false).In h₂.mem := by
      refine ⟨?_, fun s hs => by cases hs⟩
      rw [hhead2]
      simp
    apply Tag.In.frame (Tag.In.frame h2 ho3 ?_) ho4
    · rintro y rfl
      left
      simp only
      omega
    · rintro y rfl
      right
      simp only
      omega
  · have hn2 : (firstTag (b + (want + rest)) (some (want + rest)) post).In h₂.mem := by
      apply Tag.In.frame (Tag.In.frame hnext ho1 ?_) ho2
      · rintro y rfl
        rw [firstTag_at]
        omega
      · rintro y rfl
        rw [firstTag_at]
        omega
    have hn3 : (firstTag (b + (want + rest)) (some rest) post).In h₃.mem := by
      rw [← firstTag_prev _ (some (want + rest))]
      refine ⟨?_, fun s hs => ?_⟩
      · have hh := hn2.head
        rw [firstTag_at] at hh
        rw [hhead3, hh, ← firstTag_prev _ (some (want + rest))]
        rfl
      · cases hs
        exact hfoot3
    apply hn3.frame ho4
    rintro y rfl
    rw [firstTag_at]
    omega
  · apply Only.trans (ho1.mono fun y hy => by omega)
    apply Only.trans (ho2.mono fun y hy => by omega)
    exact Only.trans (ho3.mono fun y hy => by omega) (ho4.mono fun y hy => by omega)

end Divide

/-- A region with a free block cut in two, the front in use. -/
def Region.divided (r : Region) (pre : List Blk) (want rest : Nat) (post : List Blk) : Region :=
  { r with blocks := pre ++ [⟨want, true⟩, ⟨rest, false⟩] ++ post }

/-- The two blocks, the rest on no list yet. -/
theorem Holds.divide {want rest : Nat} (hs : Holds h (R₁ ++ r :: R₂) bins off)
    (hb : r.blocks = pre ++ ⟨want + rest, false⟩ :: post) (hoff : off (r.start + span pre))
    (honce : ∀ x, off x → x = r.start + span pre) (hwmod : want % align = 0) (hw : minBlock ≤ want)
    (hrmod : rest % align = 0) (hr : minBlock ≤ rest) :
    Holds ((h.divide (r.start + span pre) want rest).setUsed (r.start + span pre))
      (R₁ ++ r.divided pre want rest post :: R₂) bins (fun x => x = r.start + span pre + want) ∧
    Only (fun y => r.start + span pre ≤ y ∧ y ≤ r.start + span pre + (want + rest))
      h.mem ((h.divide (r.start + span pre) want rest).setUsed (r.start + span pre)).mem := by
  obtain ⟨⟨htag, -⟩, hnext, -⟩ := hs.tags_at hb
  obtain ⟨-, -, -, htop, -⟩ := hs.places_mod hb
  simp only [header] at htop
  obtain ⟨front, back, next, only⟩ :=
    divide_tags hwmod hw hrmod hr (by omega) htag (by simpa [Blk.left] using hnext)
  have hblocks : r.blocks = pre ++ [⟨want + rest, false⟩] ++ post := by
    rw [hb]
    simp
  have hspan : span [⟨want, true⟩, ⟨rest, false⟩] = span [⟨want + rest, false⟩] := by simp
  refine ⟨?_, only⟩
  refine hs.retile hblocks hspan ?sizes ?off ?off' ?same only ?touched rfl rfl ?tags ?next
  case tags =>
    intro t ht
    simp only [segTags, List.mem_cons, List.not_mem_nil, or_false, Blk.left, ↓reduceIte] at ht
    rcases ht with rfl | rfl
    · exact front
    · exact back
  case next => simpa [leftOf, Blk.left] using next
  case sizes =>
    intro d hd
    simp only [List.mem_cons, List.not_mem_nil, or_false] at hd
    rcases hd with rfl | rfl
    · exact ⟨hwmod, hw⟩
    · exact ⟨hrmod, hr⟩
  case off =>
    intro x d hx hd
    simp only [places, List.mem_singleton, Prod.mk.injEq] at hx
    rw [hx.1]
    exact hoff
  case off' =>
    intro x d hx hd
    simp only [places, List.mem_cons, List.not_mem_nil, or_false, Prod.mk.injEq] at hx
    rcases hx with ⟨-, rfl⟩ | ⟨rfl, -⟩
    · cases hd
    · rfl
  case same =>
    intro x hx
    simp only [span_cons, span_nil] at hx
    simp only [minBlock] at hr
    constructor
    · intro heq
      omega
    · intro hox
      have := honce x hox
      omega
  case touched => simp

/-- A free block off the lists marked in use, its end split off and listed. -/
theorem split_spec (hs : Holds h (R₁ ++ r :: R₂) bins off) (hb : r.blocks = pre ++ c :: post)
    (hc : c.used = false) (hoff : off (r.start + span pre)) (want rest : Nat)
    (hwmod : want % align = 0) (hw : minBlock ≤ want) (hr : minBlock ≤ rest)
    (hsum : c.size = want + rest) (honce : ∀ x, off x → x = r.start + span pre) :
    ∃ bins', (((h.split (r.start + span pre) want).handOut (r.start + span pre))).1 =
        r.start + span pre + header ∧
      Holds ((h.split (r.start + span pre) want).handOut (r.start + span pre)).2
        (R₁ ++ r.divided pre want rest post :: R₂) bins' (fun _ => False) ∧
      Only (fun y => (r.start + span pre ≤ y ∧ y ≤ r.start + span pre + c.size) ∨ LinkSlot bins y)
        h.mem ((h.split (r.start + span pre) want).handOut (r.start + span pre)).2.mem ∧
      HandedOut h ((h.split (r.start + span pre) want).handOut (r.start + span pre)).2
        (want - header) := by
  obtain ⟨size, used⟩ := c
  obtain rfl : used = false := hc
  obtain rfl : size = want + rest := hsum
  obtain ⟨⟨htag, hclear⟩, -⟩ := hs.tags_at hb
  obtain ⟨hmod, hcmod, -, htop, -⟩ := hs.places_mod hb
  dsimp only at hcmod htop
  have hrmod : rest % align = 0 := by
    simp only [align] at *
    omega
  simp only [header] at htop
  have hsplit := divide_split hwmod hw hrmod hr (by omega) htag
  obtain ⟨hheld, honly⟩ := hs.divide hb hoff honce hwmod hw hrmod hr
  -- The rest goes on its list.
  have hplace : (r.start + span pre + want, (⟨rest, false⟩ : Blk)) ∈
      allPlaces (R₁ ++ r.divided pre want rest post :: R₂) := by
    rw [mem_allPlaces_mid]
    left
    simp [Region.divided, Region.places, Region.start, places]
  have hblocks : (r.divided pre want rest post).blocks =
      pre ++ ⟨want, true⟩ :: (⟨rest, false⟩ :: post) := by
    simp [Region.divided]
  have hfront : (_, _) ∈ allPlaces (R₁ ++ r.divided pre want rest post :: R₂) :=
    mem_allPlaces_cut hblocks
  obtain ⟨bins', hins, -, hoins⟩ := hheld.insert hplace rfl rfl
  have hl3 : Listed (h.divide (r.start + span pre) want rest) bins := by
    have marked : Only (fun y => y = r.start + span pre) (h.divide (r.start + span pre) want rest).mem
        ((h.divide (r.start + span pre) want rest).setUsed (r.start + span pre)).mem :=
      Only.store _ _ _ rfl (by omega) (by omega)
    apply hheld.listed.frame marked.symm rfl
    rintro k x hx y rfl
    have := hclear.apart hs.listed hmod ⟨k, x, hx, rfl⟩
    simp only [header] at this
    omega
  simp only [minBlock] at hw
  have hcomm := binInsert_setUsed (t := r.start + span pre + want) hl3 hmod hclear (by omega)
  rw [← hcomm] at hins hoins
  -- The rest was told already that the block before it is in use.
  obtain ⟨hset, hoset⟩ := setPrevUsed_spec hins hblocks rfl
  have hsa := hins.sizeOf_eq hfront
  have hsb := hset.sizeOf_eq hfront
  have hout : (h.split (r.start + span pre) want).handOut (r.start + span pre) =
      (r.start + span pre + header,
        { ((((h.divide (r.start + span pre) want rest).binInsert (r.start + span pre + want)).setUsed
            (r.start + span pre)).setPrevUsed (r.start + span pre + want)) with
          liveBytes := h.liveBytes + (want - header), liveBlocks := h.liveBlocks + 1 }) := by
    change Heap.sizeOf ((Heap.setUsed _ _).setPrevUsed (r.start + span pre + want)) _ = _ at hsb
    change Heap.sizeOf _ (r.start + span pre) = _ at hsa hsb
    simp only [Heap.handOut, hsplit, Heap.nextBlock, hsa, hsb]
    rfl
  rw [hout]
  refine ⟨bins', rfl, ?_, ?_, rfl⟩
  · refine Holds.books (hset.off_congr fun x => ?_) rfl rfl rfl
    simp
  · apply Only.trans (honly.mono fun y hy => .inl hy)
    apply Only.trans (hoins.mono ?_)
    · apply hoset.mono
      rintro y rfl
      left
      change _ ≤ r.start + span pre + want ∧
        r.start + span pre + want ≤ r.start + span pre + (want + rest)
      omega
    · rintro y (rfl | hy)
      · left
        change _ ∧ _ ≤ r.start + span pre + (want + rest)
        simp only [header, minBlock] at *
        omega
      · exact .inr hy

/-- What handing out the block of `n` bytes at `b` does: the blocks in use stay, with their bytes. -/
structure Given (h h' : Heap) (rs rs' : List Region) (b n : Nat) : Prop where
  used : (usedPlaces rs').Perm ((b, ⟨n, true⟩) :: usedPlaces rs)
  kept : ∀ x d, (x, d) ∈ usedPlaces rs → KeptAt h.mem h'.mem x d.size

theorem usedPlaces_given {n : Nat} {ds : List Blk} (hb : r.blocks = pre ++ c :: post)
    (hc : c.used = false) (hds : ∀ d ∈ ds, d.used = false) (hspan : n + span ds = c.size) :
    (usedPlaces (R₁ ++ { r with blocks := pre ++ (⟨n, true⟩ :: ds) ++ post } :: R₂)).Perm
      ((r.start + span pre, ⟨n, true⟩) :: usedPlaces (R₁ ++ r :: R₂)) := by
  apply usedPlaces_mid.trans
  apply List.Perm.trans ?_ (List.Perm.cons _ usedPlaces_mid.symm)
  have hfree : (places (r.start + span pre + n) ds).filter (fun p => p.2.used) = [] :=
    places_free hds
  have haddr : r.start + span pre + n + span ds = r.start + span pre + c.size := by omega
  have hcf : ∀ x, ∀ ps : List (Nat × Blk), ((x, c) :: ps).filter (fun p => p.2.used) =
      ps.filter fun p => p.2.used := by
    intro x ps
    simp [hc]
  simp only [Region.places, Region.start, hb, places_append, places, List.filter_append, hcf,
    span_append, span_cons, ← Nat.add_assoc] at hfree haddr ⊢
  rw [filter_used_cons rfl, hfree, haddr]
  simp only [List.nil_append, List.append_assoc, List.cons_append]
  exact List.perm_middle

theorem Holds.given_kept (hs : Holds h (R₁ ++ r :: R₂) bins off) (hb : r.blocks = pre ++ c :: post)
    (hc : c.used = false) {m' : Mem}
    (ho : Only (fun y => (r.start + span pre ≤ y ∧ y ≤ r.start + span pre + c.size) ∨
      LinkSlot bins y) h.mem m') {x : Nat} {d : Blk} (hx : (x, d) ∈ usedPlaces (R₁ ++ r :: R₂)) :
    KeptAt h.mem m' x d.size := by
  apply hs.kept ho hx
  obtain ⟨hx, hd⟩ := mem_usedPlaces.1 hx
  have hplace : (r.start + span pre, c) ∈ allPlaces (R₁ ++ r :: R₂) :=
    mem_allPlaces_cut hb
  rcases hs.shape.blocks_apart hx hplace with ⟨-, rfl⟩ | h | h
  · rw [hd] at hc; cases hc
  · exact .inl h
  · exact .inr h

/-- A listed free block carved: the front handed out, the rest listed where it can stand alone. -/
theorem carve_spec (hs : Holds h (R₁ ++ r :: R₂) bins (fun _ => False))
    (hb : r.blocks = pre ++ c :: post) (hc : c.used = false) (hpart : Parted r.blocks) {want : Nat}
    (hwmod : want % align = 0) (hw : minBlock ≤ want) (hfit : want ≤ c.size) :
    ∃ n ds bins', (h.carve (r.start + span pre) want).1 = r.start + span pre + header ∧
      Holds (h.carve (r.start + span pre) want).2
        (R₁ ++ { r with blocks := pre ++ (⟨n, true⟩ :: ds) ++ post } :: R₂) bins' (fun _ => False) ∧
      Given h (h.carve (r.start + span pre) want).2 (R₁ ++ r :: R₂)
        (R₁ ++ { r with blocks := pre ++ (⟨n, true⟩ :: ds) ++ post } :: R₂)
        (r.start + span pre) n ∧
      want ≤ n ∧ Parted (pre ++ (⟨n, true⟩ :: ds) ++ post) ∧
      HandedOut h (h.carve (r.start + span pre) want).2 (n - header) ∧
      Only (Inside (R₁ ++ r :: R₂)) h.mem (h.carve (r.start + span pre) want).2.mem := by
  have hplace : (r.start + span pre, c) ∈ allPlaces (R₁ ++ r :: R₂) :=
    mem_allPlaces_cut hb
  have hcmod := (hs.shape.place hplace).2.1
  obtain ⟨bins₁, hrem, hlinks, horem⟩ := hs.remove hplace hc id
  have hoff : False ∨ r.start + span pre = r.start + span pre := .inr rfl
  rw [hb] at hpart
  have hpart' := parted_append.1 hpart
  have hsize : (h.binRemove (r.start + span pre)).sizeOf (r.start + span pre) = c.size :=
    hrem.sizeOf_eq hplace
  have hinside : ∀ y, (r.start + span pre ≤ y ∧ y ≤ r.start + span pre + c.size) ∨
      LinkSlot bins y → Inside (R₁ ++ r :: R₂) y := by
    rintro y (hy | hy)
    · exact hs.shape.inside_block hplace hy
    · exact hs.inside_link hy
  by_cases hrest : c.size - want < minBlock
  · -- What would be left is too small to be a block.
    obtain ⟨hp, hheld, honly, hbooks⟩ := handOut_spec hrem hb hc hoff
    have hcarve : h.carve (r.start + span pre) want =
        (h.binRemove (r.start + span pre)).handOut (r.start + span pre) := by
      simp only [Heap.carve, Heap.split, hsize, hrest, ↓reduceIte]
    have htouched : Only (fun y => (r.start + span pre ≤ y ∧ y ≤ r.start + span pre + c.size) ∨
        LinkSlot bins y) h.mem
        ((h.binRemove (r.start + span pre)).handOut (r.start + span pre)).2.mem := by
      apply Only.trans (horem.mono fun y hy => .inr hy)
      apply honly.mono
      rintro y (rfl | rfl)
      · left; omega
      · left; omega
    rw [hcarve]
    refine ⟨c.size, [], bins₁, hp, hheld.off_congr fun x => by tauto, ⟨?_, fun x d hx => ?_⟩, hfit,
      ?_, hbooks, htouched.mono hinside⟩
    · exact usedPlaces_given hb hc (by simp) (by simp)
    · exact hs.given_kept hb hc htouched hx
    · rw [List.append_assoc]
      apply parted_append.2
      refine ⟨hpart'.1, ?_, .inr fun b hb => ?_⟩
      · cases post with
        | nil => trivial
        | cons d post => exact ⟨.inl rfl, hpart'.2.1.2⟩
      · cases hb
        rfl
  · obtain ⟨bins₂, hp, hheld, honly, hbooks⟩ := split_spec hrem hb hc hoff want
      (c.size - want) hwmod hw (by omega) (by omega) (by tauto)
    have htouched : Only (fun y => (r.start + span pre ≤ y ∧ y ≤ r.start + span pre + c.size) ∨
        LinkSlot bins y) h.mem (h.carve (r.start + span pre) want).2.mem := by
      apply Only.trans (horem.mono fun y hy => .inr hy)
      apply honly.mono
      rintro y (hy | hy)
      · exact .inl hy
      · exact .inr (hlinks y hy)
    refine ⟨want, [⟨c.size - want, false⟩], bins₂, hp, hheld, ⟨?_, fun x d hx => ?_⟩, Nat.le_refl _,
      ?_, hbooks, htouched.mono hinside⟩
    · exact usedPlaces_given hb hc (by simp) (by simp; omega)
    · exact hs.given_kept hb hc htouched hx
    · rw [List.append_assoc]
      apply parted_append.2
      refine ⟨hpart'.1, ?_, .inr fun b hb => ?_⟩
      · refine ⟨.inl rfl, ?_⟩
        cases post with
        | nil => trivial
        | cons d post =>
          refine ⟨.inr ?_, hpart'.2.1.2⟩
          rcases hpart'.2.1.1 with h | h
          · rw [hc] at h; cases h
          · exact h
      · cases hb
        rfl

end Carve

end ReconOS.Malloc
