import ReconOS.Malloc.Integrity

/-! Over a source that takes nothing back: which ranges the allocator still has on its list, and how
many it has asked for. -/
namespace ReconOS.Malloc

/-- A source that never takes a range back. -/
def Source.Stuck (src : Source) : Prop := ∀ back, src.giveBack = some back → ∀ i, back i = false

/-- Every range the source has out is on the region list. -/
def World.Keeps (w : World) : Prop := ∀ r ∈ w.heap.lent, r.1 ∈ w.heap.regionList

/-- `malloc` and `free`, and the program's own writes. -/
def Act.Plain : Act → Prop
  | .malloc _ => True
  | .calloc _ _ => False
  | .realloc _ _ => False
  | .free _ => True
  | .write _ _ _ => True

/-- A block is freed only while the program has another one of the same region. -/
def Act.Spares (w : World) : Act → Prop
  | .free p => p = 0 ∨ ∃ q, q ≠ p ∧ (w.held q).isSome ∧
      w.heap.regionOf (q - header) = w.heap.regionOf (p - header)
  | _ => True

/-- In every state of a run. -/
def Throughout (src : Source) (P : World → Prop) : World → List Act → Prop
  | w, [] => P w
  | w, a :: as => P w ∧ Throughout src P (w.play src a) as

section Lent

variable {src : Source} {h : Heap}

theorem giveBack_lent (hst : src.Stuck) (r bytes : Nat) (h : Heap) :
    (h.giveBack src r bytes).lent = h.lent := by
  unfold Heap.giveBack
  cases hb : src.giveBack with
  | none => rfl
  | some back =>
    simp only [hst back hb, Bool.false_eq_true, ↓reduceIte]

theorem mergeAfter_lent (h : Heap) (b : Nat) : (h.mergeAfter b).lent = h.lent := by
  unfold Heap.mergeAfter
  simp only
  split <;> rfl

theorem mergeBefore_lent (h : Heap) (b : Nat) : (h.mergeBefore b).2.lent = h.lent := by
  unfold Heap.mergeBefore
  split <;> rfl

theorem coalesce_lent (h : Heap) (b : Nat) : (h.coalesce b).2.lent = h.lent :=
  (mergeBefore_lent _ _).trans (mergeAfter_lent _ _)

theorem dropRegion_lent (hst : src.Stuck) (r : Nat) (h : Heap) :
    (h.dropRegion src r).lent = h.lent := giveBack_lent hst _ _ _

theorem releaseBlock_lent (hst : src.Stuck) (b r : Nat) (h : Heap) :
    (h.releaseBlock src b r).lent = h.lent := by
  unfold Heap.releaseBlock
  simp only
  split
  · exact (dropRegion_lent hst _ _).trans (coalesce_lent h b)
  · exact coalesce_lent h b

/-- Nothing freed leaves the source's account. -/
theorem free_lent (hst : src.Stuck) (p : Nat) (h : Heap) : (h.free src p).lent = h.lent := by
  unfold Heap.free
  simp only
  split
  · rfl
  split
  · rfl
  split
  · exact dropRegion_lent hst _ _
  · exact releaseBlock_lent hst _ _ _

end Lent

section Regions

variable {h : Heap} {rs : List Region} {bins : Nat → List Nat} {x : Nat} {c : Blk}

theorem Shape.region_unique (hs : Shape rs) {r s : Region} (hr : r ∈ rs) (hsm : s ∈ rs)
    (hxr : r.addr ≤ x ∧ x < r.addr + r.bytes) (hxs : s.addr ≤ x ∧ x < s.addr + s.bytes) : r = s := by
  by_contra hne
  have := hs.region_apart hr hsm hne
  omega

theorem Holds.regionOf_place {off : Nat → Prop} (hs : Holds h rs bins off)
    (hx : (x, c) ∈ allPlaces rs) :
    ∃ r ∈ rs, h.regionOf x = r.addr ∧ r.addr ≤ x ∧ x < r.addr + r.bytes := by
  obtain ⟨R₁, r, R₂, pre, post, rfl, hblocks, rfl⟩ := mem_allPlaces_split hx
  have hplace : (r.start + span pre, c) ∈ r.places := mem_places_cut hblocks
  exact ⟨r, by simp, regionOf_eq hs hplace, (hs.shape.place_region hplace).1⟩

/-- Every region has a block in use, of sixteen bytes at least. -/
theorem Settled.regions_le (hs : Settled h rs bins) (hc : Counted h rs) :
    16 * rs.length ≤ h.liveBytes := by
  have hmin : ∀ p ∈ usedPlaces rs, 16 ≤ p.2.size - header := by
    rintro ⟨y, d⟩ hy
    have := (hs.shape.place (mem_usedPlaces.1 hy).1).2.2.1
    simp only [minBlock, header] at *
    omega
  have hcount : rs.length ≤ (usedPlaces rs).length := by
    have hused := hs.inUse
    clear hmin hs hc
    induction rs with
    | nil => exact Nat.zero_le _
    | cons r rs ih =>
      have hrest := ih fun s hsm => hused s (List.mem_cons_of_mem r hsm)
      obtain ⟨b, hb, hbu⟩ := hused r List.mem_cons_self
      obtain ⟨as, bs, heq⟩ := List.append_of_mem hb
      have hone : 0 < (r.places.filter fun p => p.2.used).length := by
        apply List.length_pos_of_mem (a := (r.start + span as, b))
        rw [List.mem_filter, Region.places, heq]
        exact ⟨mem_places_mid, hbu⟩
      have hall : usedPlaces (r :: rs) =
          (r.places.filter fun p => p.2.used) ++ usedPlaces rs := by
        simp [usedPlaces, allPlaces]
      rw [hall, List.length_append, List.length_cons]
      omega
  have hsum : ∀ ps : List (Nat × Blk), (∀ p ∈ ps, 16 ≤ p.2.size - header) →
      16 * ps.length ≤ (ps.map fun p => p.2.size - header).sum := by
    intro ps hps
    induction ps with
    | nil => exact Nat.le_refl 0
    | cons p ps ih =>
      have := hps p List.mem_cons_self
      have := ih fun q hq => hps q (List.mem_cons_of_mem p hq)
      rw [List.length_cons, List.map_cons, List.sum_cons]
      omega
  rw [hc.liveBytes]
  have := hsum _ hmin
  omega

end Regions

/-! ## Runs -/

/-- The regions are the ranges the source has out, and as many as were ever granted. -/
structure Tight (h : Heap) (rs : List Region) : Prop where
  lent : h.lent.Perm (rs.map fun r => (r.addr, r.bytes))
  takes : h.takes = rs.length

section Runs

variable {src : Source} {w : World} {rs rs' : List Region} {bins : Nat → List Nat} {h' : Heap}

theorem Tight.grown (ht : Tight w.heap rs) (hg : Grown w.heap h' rs rs') : Tight h' rs' := by
  cases hg with
  | same hmap hlent htakes =>
    have hlen := congrArg List.length hmap
    simp only [List.length_map] at hlen
    refine ⟨?_, by rw [htakes, ht.takes, hlen]⟩
    rw [hlent, hmap]
    exact ht.lent
  | one a ask hmap hlent htakes =>
    have hlen := congrArg List.length hmap
    simp only [List.length_map, List.length_cons] at hlen
    refine ⟨?_, by rw [htakes, ht.takes, hlen]⟩
    rw [hlent, hmap]
    exact ht.lent.cons _

theorem Tight.keeps (ht : Tight w.heap rs) (hw : Backed w rs bins) :
    w.Keeps ∧ 16 * w.heap.takes ≤ w.heap.liveBytes := by
  constructor
  · intro r hr
    obtain ⟨s, hs, rfl⟩ := List.mem_map.1 (ht.lent.mem_iff.1 hr)
    rw [hw.settled.toHolds.regionList_eq]
    exact List.mem_map_of_mem hs
  · rw [ht.takes]
    exact hw.settled.regions_le hw.counted

/-- A block is spared where another of its region is in use. -/
theorem Backed.spares_iff (hw : Backed w rs bins) {x : Nat} {c : Blk} (hx : (x, c) ∈ usedPlaces rs) :
    (Act.free (x + header)).Spares w ↔ Shared rs x := by
  have hx0 : x + header ≠ 0 := by simp [header]
  have hs := hw.settled.shape
  obtain ⟨r, hr, hxr, hinx⟩ := hw.settled.toHolds.regionOf_place (mem_usedPlaces.1 hx).1
  simp only [Act.Spares, hx0, false_or, Nat.add_sub_cancel, hxr]
  constructor
  · rintro ⟨q, hne, hq, heq⟩
    obtain ⟨n, hn⟩ := Option.isSome_iff_exists.1 hq
    obtain ⟨y, d, hy, rfl, -⟩ := hw.block q n hn
    obtain ⟨s, hsm, hys, hiny⟩ := hw.settled.toHolds.regionOf_place (mem_usedPlaces.1 hy).1
    rw [Nat.add_sub_cancel, hys] at heq
    have hsame : s = r := by
      by_contra hns
      have := hs.region_apart hsm hr hns
      have := (hs.ok s hsm).full
      have := (hs.ok r hr).full
      simp only [regionHeader, header] at *
      omega
    refine ⟨r, hr, hinx, y, d, hy, ?_, hsame ▸ hiny⟩
    rintro rfl
    exact hne rfl
  · rintro ⟨s, hsm, hins, y, d, hy, hne, hiny⟩
    obtain ⟨t, ht, hyt, hint⟩ := hw.settled.toHolds.regionOf_place (mem_usedPlaces.1 hy).1
    have hst := hs.region_unique hsm ht hiny hint
    have hsr := hs.region_unique hsm hr hins hinx
    refine ⟨y + header, by omega, hw.held y d hy, ?_⟩
    rw [Nat.add_sub_cancel, hyt, ← hst, hsr]

/-- One act of a run: the allocator stays as tight as it was, or it is the freeing of a region's last
block, and the range is lost. -/
theorem Tight.step (hsrc : src.Honest) (hst : src.Stuck) (ht : Tight w.heap rs)
    (hw : Backed w rs bins) {a : Act} (hplain : a.Plain) (hp : a.Proper w) (hf : a.Fits) :
    (a.Spares w ∧ ∃ rs' bins', Tight (w.play src a).heap rs' ∧ Backed (w.play src a) rs' bins') ∨
      (¬a.Spares w ∧ ¬(w.play src a).Keeps) := by
  cases a with
  | calloc => exact hplain.elim
  | realloc => exact hplain.elim
  | malloc bytes =>
    left
    have hl := malloc_spec hsrc hw.settled hw.counted hf
    obtain ⟨rs', bins', hs', hc', hall, hgrown, -⟩ := hl
    have htight : Tight (w.play src (.malloc bytes)).heap rs' := by
      simp only [World.play, World.took_heap]
      exact ht.grown hgrown
    refine ⟨trivial, rs', bins', htight, ?_⟩
    simp only [World.play, Act.run]
    generalize w.heap.malloc src bytes = out at hs' hc' hall ⊢
    obtain ⟨q, h⟩ := out
    rcases hall with ⟨rfl, rfl, -⟩ | ⟨b, n, rfl, hle, hgiven⟩
    · exact hw.null hs' hc'
    · refine hw.took hs' hc' (fun z d => ?_) hgiven.used hle
      simp [header]
  | write p i v =>
    left
    obtain ⟨n, hn, hi⟩ := hp
    obtain ⟨x, c, hx, -, -, honly⟩ := hw.write hn hi v
    have hc := hw.counted
    exact ⟨trivial, rs, bins, ⟨ht.lent, ht.takes⟩, hw.settled.payload hx honly,
      ⟨hc.liveBytes, hc.liveBlocks, hc.regionCount, hc.takenBytes⟩, hw.block, hw.held⟩
  | free p =>
    rcases hp with rfl | hheld
    · exact .inl ⟨.inl rfl, rs, bins, ht, hw.gave_null⟩
    · obtain ⟨n, hn⟩ := Option.isSome_iff_exists.1 hheld
      obtain ⟨x, c, hx, rfl, -⟩ := hw.block p n hn
      obtain ⟨rs', bins', hs', hc', hfreed, -, htakes, hleft⟩ :=
        free_spec src hw.settled hw.counted hx
      have hlent := free_lent hst (x + header) w.heap
      rw [hw.spares_iff hx]
      cases hleft with
      | same hmap hshared =>
        left
        have hlen := congrArg List.length hmap
        simp only [List.length_map] at hlen
        refine ⟨hshared, rs', bins', ⟨?_, ?_⟩, hw.gave hs' hc' rfl hfreed.used⟩
        · simp only [World.play, World.gave, Act.run, hlent, hmap]
          exact ht.lent
        · simp only [World.play, World.gave, Act.run, htakes, hlen]
          exact ht.takes
      | one R₁ R₂ r hrs hrs' hin hnot =>
        right
        refine ⟨hnot, fun hkeeps => ?_⟩
        have hmem : (r.addr, r.bytes) ∈ (w.play src (.free (x + header))).heap.lent := by
          simp only [World.play, World.gave, Act.run, hlent]
          apply hw.settled.lent
          rw [hrs]
          simp
        have hlist : (w.play src (.free (x + header))).heap.regionList = rs'.map Region.addr :=
          hs'.toHolds.regionList_eq
        have hthere := hkeeps _ hmem
        rw [hlist, hrs'] at hthere
        have hnodup := hw.settled.shape.nodes.nodup
        rw [hrs, List.map_append, List.map_cons] at hnodup
        rw [List.map_append] at hthere
        exact (List.nodup_middle.1 hnodup |> List.nodup_cons.1).1 hthere

/-- From a state in which nothing is lost, a run loses nothing exactly where each act spares its
region. -/
theorem Tight.run (hsrc : src.Honest) (hst : src.Stuck) (ht : Tight w.heap rs)
    (hw : Backed w rs bins) {as : List Act}
    (has : Each src (fun w a => a.Plain ∧ a.Proper w ∧ a.Fits) w as) :
    Throughout src (fun w => w.Keeps ∧ 16 * w.heap.takes ≤ w.heap.liveBytes) w as ↔
      Each src (fun w a => a.Spares w) w as := by
  induction as generalizing w rs bins with
  | nil =>
    simp only [Throughout, Each, iff_true]
    exact ht.keeps hw
  | cons a as ih =>
    obtain ⟨⟨hplain, hp, hf⟩, has⟩ := has
    have hnow := ht.keeps hw
    rcases ht.step hsrc hst hw hplain hp hf with ⟨hspare, rs', bins', ht', hw'⟩ | ⟨hnot, hlost⟩
    · simp only [Throughout, Each, hspare, true_and, hnow, and_self]
      exact ih ht' hw' has
    · simp only [Throughout, Each, hnot, false_and, iff_false, not_and]
      intro _ hthen
      have hfirst : (w.play src a).Keeps := by
        cases as with
        | nil => exact hthen.1
        | cons b as => exact hthen.1.1
      exact hlost hfirst

end Runs

/-- Over a source that takes nothing back, every range ever granted stays on the region list, and no
more ranges are asked for than the bytes in use pay for, in every state of a run exactly where no
block is freed that was the last of its region. -/
theorem ranges_kept_iff {src : Source} (hsrc : src.Honest) (hst : src.Stuck) (mem : Mem)
    {as : List Act} (has : Each src (fun w a => a.Plain ∧ a.Proper w ∧ a.Fits) (.start mem) as) :
    Throughout src (fun w => w.Keeps ∧ 16 * w.heap.takes ≤ w.heap.liveBytes) (.start mem) as ↔
      Each src (fun w a => a.Spares w) (.start mem) as :=
  Tight.run hsrc hst ⟨List.Perm.refl _, rfl⟩ (.start mem) has

theorem oneRange_stuck : oneRange.Stuck := by
  intro back hb
  cases hb

/-- Two blocks of one region, one freed; and the one block of a region, freed. -/
theorem ranges_kept_freed :
    Throughout oneRange (fun w => w.Keeps ∧ 16 * w.heap.takes ≤ w.heap.liveBytes) (.start blank)
        [.malloc 100, .malloc 50, .free firstPayload] ∧
      ¬ Throughout oneRange (fun w => w.Keeps ∧ 16 * w.heap.takes ≤ w.heap.liveBytes)
        (.start blank) [.malloc 300000, .free firstPayload] := by
  constructor
  · refine (ranges_kept_iff oneRange_honest oneRange_stuck blank ?_).2 ?_
    · exact ⟨⟨trivial, by decide +kernel⟩, ⟨trivial, by decide +kernel⟩,
        ⟨trivial, by decide +kernel⟩, trivial⟩
    · exact ⟨trivial, trivial, .inr ⟨firstPayload + 128, by decide +kernel⟩, trivial⟩
  · intro kept
    have plain : Each oneRange (fun w a => a.Plain ∧ a.Proper w ∧ a.Fits) (.start blank)
        [.malloc 300000, .free firstPayload] :=
      ⟨⟨trivial, by decide +kernel⟩, ⟨trivial, by decide +kernel⟩, trivial⟩
    obtain ⟨-, spares, -⟩ := (ranges_kept_iff oneRange_honest oneRange_stuck blank plain).1 kept
    rcases spares with none_ | ⟨q, other, held, -⟩
    · exact absurd none_ (by decide)
    · have alone : (((World.start blank).play oneRange (.malloc 300000)).held q) = none := by
        obtain ⟨hans, -⟩ := malloc_own_region blank
        have there : regionBytes + 48 ≠ 0 := by decide
        simp only [World.play, World.took, Act.run, World.start, hans, if_neg there]
        have elsewhere : q ≠ regionBytes + 48 := other
        rw [Function.update_of_ne elsewhere, Function.update_apply, ite_self]
      rw [alone] at held
      cases held

/-- The one block of a region freed: the source has the range out still, and no list has it. -/
theorem freed_range_lost :
    (((World.start blank).play oneRange (.malloc 300000)).play oneRange
        (.free (regionBytes + 48))).heap.lent = [(regionBytes, 300064)] ∧
      (((World.start blank).play oneRange (.malloc 300000)).play oneRange
        (.free (regionBytes + 48))).heap.regionList = [] := by
  obtain ⟨hheap, hheld, rs, bins, hw⟩ := malloc_one
  obtain ⟨-, hlent, hlive⟩ := malloc_own_region blank
  obtain ⟨x, c, hx, hxp, -⟩ := hw.block _ _ hheld
  obtain ⟨rs', bins', hs', hc', hfreed, -⟩ := free_spec oneRange hw.settled hw.counted hx
  rw [← hxp] at hs' hc' hfreed
  have hcount := hw.counted.liveBlocks
  rw [hheap, hlive, hfreed.used.length_eq, List.length_cons] at hcount
  have hnone : usedPlaces rs' = [] := List.eq_nil_of_length_eq_zero (by omega)
  have hbytes := hs'.regions_le hc'
  rw [hc'.liveBytes, hnone] at hbytes
  have hempty : rs' = [] := List.eq_nil_of_length_eq_zero (by simpa using hbytes)
  simp only [World.play, World.gave, Act.run] at hs' hheap ⊢
  constructor
  · rw [free_lent oneRange_stuck, hheap]
    exact hlent
  · rw [hs'.toHolds.regionList_eq, hempty]
    rfl

end ReconOS.Malloc
