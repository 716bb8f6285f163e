import ReconOS.Malloc.Invariant

/-! What each write to a tag does to it, and what coalescing a freed block with its neighbours
does. -/
namespace ReconOS.Malloc

open Mem (Only)

/-- Only memory and the free lists' starts differ. -/
def OnlyLists (h h' : Heap) : Prop := h' = { h with mem := h'.mem, bins := h'.bins }

theorem OnlyLists.refl (h : Heap) : OnlyLists h h := rfl

theorem OnlyLists.trans {h h' h'' : Heap} (p : OnlyLists h h') (q : OnlyLists h' h'') :
    OnlyLists h h'' := by
  unfold OnlyLists at *
  rw [q, p]

theorem OnlyLists.regions {h h' : Heap} (p : OnlyLists h h') : h'.regions = h.regions := by
  rw [show h' = _ from p]

theorem OnlyLists.store (h : Heap) (a v : Nat) : OnlyLists h (h.store a v) := rfl

theorem OnlyLists.binRemove (h : Heap) (b : Nat) : OnlyLists h (h.binRemove b) := rfl

theorem OnlyLists.binInsert (h : Heap) (b : Nat) : OnlyLists h (h.binInsert b) := rfl

/-! ## Tags written -/

section Tags

variable {h : Heap} {t : Tag}

theorem Tag.In.word (ht : t.In h.mem) {u : Tag} {v : Nat} (hat : u.place = t.place)
    (hprev : u.prev = t.prev) (hv : v = u.size + u.used.toNat + 2 * t.prev.isNone.toNat)
    (hlt : v < 2 ^ 64) : u.In (h.store (t.place + 8) v).mem := by
  constructor
  · rw [hat, hprev, ← hv]
    exact Mem.load_store_self hlt
  · intro s hs
    rw [hat]
    apply (Mem.load_store_ne (by omega)).trans
    exact ht.foot s (hprev ▸ hs)

theorem Tag.In.setSize (ht : t.In h.mem) (hs : t.size % align = 0) {n : Nat} (hn : n % align = 0)
    (hlt : n < 2 ^ 64) : ({ t with size := n } : Tag).In (h.setSize t.place n).mem := by
  have hh := ht.head
  have := t.used.toNat_le
  have := t.prev.isNone.toNat_le
  unfold Heap.setSize Heap.head Heap.load
  simp only [align] at *
  apply ht.word (u := { t with size := n }) rfl rfl
  · simp only
    omega
  · omega

theorem Tag.In.setUsed (ht : t.In h.mem) (hs : t.size % align = 0) :
    ({ t with used := true } : Tag).In (h.setUsed t.place).mem := by
  have hh := ht.head
  have := t.used.toNat_le
  have := t.prev.isNone.toNat_le
  have := Mem.load_lt h.mem (t.place + 8)
  unfold Heap.setUsed Heap.head Heap.load
  simp only [align] at *
  apply ht.word (u := { t with used := true }) rfl rfl
  · simp only [Bool.toNat_true]
    omega
  · omega

theorem Tag.In.clearUsed (ht : t.In h.mem) (hs : t.size % align = 0) :
    ({ t with used := false } : Tag).In (h.clearUsed t.place).mem := by
  have hh := ht.head
  have := t.used.toNat_le
  have := t.prev.isNone.toNat_le
  have := Mem.load_lt h.mem (t.place + 8)
  unfold Heap.clearUsed Heap.head Heap.load
  simp only [align] at *
  apply ht.word (u := { t with used := false }) rfl rfl
  · simp only [Bool.toNat_false]
    omega
  · omega

/-- A tag told that the block before it is in use. -/
theorem Tag.In.setPrevUsed (ht : t.In h.mem) (hs : t.size % align = 0) :
    ({ t with prev := none } : Tag).In (h.setPrevUsed t.place).mem := by
  have hh := ht.head
  have := t.used.toNat_le
  have := t.prev.isNone.toNat_le
  have := Mem.load_lt h.mem (t.place + 8)
  unfold Heap.setPrevUsed Heap.head Heap.load
  simp only [align] at *
  constructor
  · simp only [Option.isNone_none, Bool.toNat_true]
    refine (Mem.load_store_self (by omega)).trans ?_
    omega
  · intro s hs
    cases hs

/-- A tag told that the block before it is free, after its footer was written. -/
theorem Tag.In.clearPrevUsed (ht : t.In h.mem) (hs : t.size % align = 0) {n : Nat}
    (hn : n < 2 ^ 64) :
    ({ t with prev := some n } : Tag).In ((h.store t.place n).clearPrevUsed t.place).mem := by
  have hh := ht.head
  have := t.used.toNat_le
  have := t.prev.isNone.toNat_le
  have hw : (h.mem.store t.place n).load (t.place + 8) = h.mem.load (t.place + 8) :=
    Mem.load_store_ne (by omega)
  have := Mem.load_lt h.mem (t.place + 8)
  unfold Heap.clearPrevUsed Heap.head Heap.load Heap.store
  simp only [align, hw] at *
  constructor
  · simp only [Option.isNone_some, Bool.toNat_false]
    refine (Mem.load_store_self (by omega)).trans ?_
    omega
  · intro s hs
    cases hs
    have hne : ∀ v, ((h.mem.store t.place n).store (t.place + 8) v).load t.place =
        (h.mem.store t.place n).load t.place := fun v => Mem.load_store_ne (by omega)
    exact (hne _).trans (Mem.load_store_self hn)

end Tags

/-! ## Coalescing -/

/-- No free block at the start of a list. -/
def Sealed (bs : List Blk) : Prop := ∀ b, bs.head? = some b → b.used = true

/-- No free block at the end of a list. -/
def SealedEnd (bs : List Blk) : Prop := ∀ b, bs.getLast? = some b → b.used = true

/-- No link of a listed block is where `y` is. -/
def ClearOf (bins : Nat → List Nat) (y : Nat) : Prop := ∀ k, ∀ z ∈ bins k, z + header ≠ y

/-- A link of some listed block. -/
def LinkSlot (bins : Nat → List Nat) (y : Nat) : Prop := ∃ k, ∃ z ∈ bins k, y = z + header

theorem ClearOf.apart {h : Heap} {bins : Nat → List Nat} {b : Nat} (hc : ClearOf bins b)
    (hl : Listed h bins) (hb : b % align = 0) {y : Nat} (hy : LinkSlot bins y) :
    y + 16 ≤ b ∨ b + 16 ≤ y := by
  obtain ⟨k, z, hz, rfl⟩ := hy
  have := hc k z hz
  have := (hl.nodes k).aligned z hz
  simp only [header, align] at *
  omega

/-- What a step of coalescing leaves: the blocks taken in are off their lists, and only the tag at
`b` and links of listed blocks were written. -/
structure Merged (h h' : Heap) (bins bins' : Nat → List Nat) (b : Nat) (gone : List (Nat × Blk)) :
    Prop where
  listed : Listed h' bins'
  mem_iff : ∀ k z, z ∈ bins' k ↔ z ∈ bins k ∧ ∀ d, (z, d) ∉ gone
  only : Only (fun y => y = b ∨ LinkSlot bins y) h.mem h'.mem
  rest : OnlyLists h h'

section Merge

variable {h : Heap} {bins : Nat → List Nat} {a b s : Nat} {prev : Option Nat} {pre post : List Blk}

theorem Merged.none (hl : Listed h bins) : Merged h h bins bins b [] :=
  ⟨hl, fun k z => by simp, Only.refl _ _, .refl h⟩

theorem mem_update_erase (hl : Listed h bins) {k j x z : Nat} (hx : x ∈ bins k) :
    z ∈ Function.update bins k ((bins k).erase x) j ↔ z ∈ bins j ∧ z ≠ x := by
  by_cases hj : j = k
  · subst hj
    rw [Function.update_self, (hl.nodes j).nodup.mem_erase_iff]
    tauto
  · rw [Function.update_of_ne hj]
    constructor
    · intro hz
      refine ⟨hz, ?_⟩
      rintro rfl
      exact hj (hl.once j k z hz hx)
    · exact And.left

theorem Listed.remove_only (hl : Listed h bins) {x k : Nat} (hk : binOf (h.sizeOf x) = k)
    (hx : x ∈ bins k) : Only (LinkSlot bins) h.mem (h.binRemove x).mem := by
  apply (hl.remove hk hx).2.mono
  rintro y ⟨z, hz, rfl⟩
  exact ⟨k, z, hz, rfl⟩

/-- A block listed as free taken in by the block whose tag is at `b`. -/
theorem Merged.one (hl : Listed h bins) {x : Nat} {d : Blk} {n : Nat} {u : Bool}
    (hsz : h.sizeOf x = d.size) (hx : x ∈ bins (binOf d.size)) (hb : b % align = 0)
    (hoff : ClearOf bins b) (ht : (Tag.mk b prev s u).In h.mem) (hs : s % align = 0)
    (hn : n % align = 0) (hlt : n < 2 ^ 64) :
    (∃ bins', Merged h ((h.binRemove x).setSize b n) bins bins' b [(x, d)]) ∧
      (Tag.mk b prev n u).In ((h.binRemove x).setSize b n).mem := by
  have hrem := (hl.remove (congrArg binOf hsz) hx).1
  have honly := hl.remove_only (congrArg binOf hsz) hx
  have hstore : Only (fun y => y = b) (h.binRemove x).mem ((h.binRemove x).setSize b n).mem :=
    Only.store _ _ _ rfl (by omega) (by omega)
  constructor
  · refine ⟨_, hrem.frame hstore rfl ?_, fun k z => ?_, ?_, ?_⟩
    · rintro k z hz y rfl
      have hz' := ((mem_update_erase hl hx).1 hz).1
      have := hoff.apart hl hb ⟨k, z, hz', rfl⟩
      simp only [header] at this
      omega
    · rw [mem_update_erase hl hx]
      simp
    · exact (honly.mono fun y hy => .inr hy).trans (hstore.mono fun y hy => .inl hy)
    · exact (OnlyLists.binRemove h x).trans (.store _ _ _)
  · have hin : (Tag.mk b prev s u).In (h.binRemove x).mem := by
      apply ht.frame honly
      intro y hy
      exact hoff.apart hl hb hy
    exact hin.setSize hs hn hlt

/-- Taking a block off its list leaves tags readable. -/
theorem Listed.remove_size (hl : Listed h bins) {x k y : Nat} (hk : binOf (h.sizeOf x) = k)
    (hx : x ∈ bins k) (hy : y % align = 0) (hoff : ClearOf bins y) :
    (h.binRemove x).sizeOf y = h.sizeOf y := by
  unfold Heap.sizeOf Heap.head Heap.load
  rw [(hl.remove_only hk hx).load]
  intro w hw
  have := hoff.apart hl hy hw
  omega

/-- Coalescing forward takes in the free block after, if there is one. -/
theorem mergeAfter_spec (hl : Listed h bins) (ht : (Tag.mk b prev s false).In h.mem)
    (hb : b % align = 0) (hs : s % align = 0)
    (hsizes : ∀ d ∈ post, d.size % align = 0 ∧ minBlock ≤ d.size) (hlt : s + span post < 2 ^ 64)
    (hnext : ∃ p, (firstTag (b + s) p post).In h.mem)
    (hfree : ∀ d, post.head? = some d → d.used = false → b + s ∈ bins (binOf d.size))
    (hpart : Parted post) (hoff : ClearOf bins b) (hoff' : ClearOf bins (b + s)) :
    ∃ ds post' bins', post = ds ++ post' ∧ (∀ d ∈ ds, d.used = false) ∧ Sealed post' ∧
      Merged h (h.mergeAfter b) bins bins' b (places (b + s) ds) ∧
      (Tag.mk b prev (s + span ds) false).In (h.mergeAfter b).mem := by
  obtain ⟨p, hnext⟩ := hnext
  have hsize : h.sizeOf b = s := ht.size hs
  have hbs : (b + s) % align = 0 := by
    simp only [align] at *
    omega
  cases post with
  | nil =>
    have hz : h.sizeOf (b + s) = 0 := hnext.size rfl
    have hno : h.mergeAfter b = h := by
      simp only [Heap.mergeAfter, Heap.nextBlock, hsize, hz, ne_eq, not_true_eq_false, false_and,
        ↓reduceIte]
    rw [hno]
    exact ⟨[], [], bins, rfl, by simp, by simp [Sealed], .none hl, by simpa using ht⟩
  | cons d post =>
    have hd := hsizes d List.mem_cons_self
    have hz : h.sizeOf (b + s) = d.size := hnext.size hd.1
    have hu : h.used (b + s) = d.used := hnext.used_eq hd.1
    have hd0 : d.size ≠ 0 := by
      have := hd.2
      simp only [minBlock] at this
      omega
    cases hdu : d.used with
    | true =>
      have hno : h.mergeAfter b = h := by
        simp only [Heap.mergeAfter, Heap.nextBlock, hsize, hu, hdu, Bool.true_eq_false, and_false,
          ↓reduceIte]
      rw [hno]
      refine ⟨[], d :: post, bins, rfl, by simp, ?_, .none hl, by simpa using ht⟩
      intro c hc
      cases hc
      exact hdu
    | false =>
      have hx := hfree d rfl hdu
      have hbin : binOf (h.sizeOf (b + s)) = binOf d.size := congrArg binOf hz
      have hyes : h.mergeAfter b = (h.binRemove (b + s)).setSize b (s + d.size) := by
        simp only [Heap.mergeAfter, Heap.nextBlock, hsize, hz, hu, hdu, ne_eq, hd0,
          not_false_eq_true, and_self, ↓reduceIte, hl.remove_size hbin hx hb hoff,
          hl.remove_size hbin hx hbs hoff']
      have hsum : (s + d.size) % align = 0 := by
        have := hd.1
        simp only [align] at *
        omega
      rw [span_cons] at hlt
      obtain ⟨⟨bins', hm⟩, htag⟩ := Merged.one hl hz hx hb hoff ht hs hsum (by omega)
      rw [hyes]
      refine ⟨[d], post, bins', rfl, by simpa using hdu, ?_, hm, by simpa using htag⟩
      intro c hc
      cases post with
      | nil => cases hc
      | cons e post =>
        cases hc
        rcases hpart.1 with h | h
        · rw [hdu] at h; cases h
        · exact h

/-- Coalescing backward takes in the free block before, if there is one. -/
theorem mergeBefore_spec (hl : Listed h bins)
    (ht : (Tag.mk (a + span pre) (leftOf none pre) s false).In h.mem) (ha : a % align = 0)
    (hs : s % align = 0) (hsizes : ∀ d ∈ pre, d.size % align = 0) (hlt : span pre + s < 2 ^ 64)
    (hlast : ∀ pre' e, pre = pre' ++ [e] →
      (Tag.mk (a + span pre') (leftOf none pre') e.size e.used).In h.mem)
    (hfree : ∀ pre' e, pre = pre' ++ [e] → e.used = false → a + span pre' ∈ bins (binOf e.size))
    (hpart : ∀ pre' e, pre = pre' ++ [e] → e.used = false → SealedEnd pre')
    (hoff : ∀ pre', pre' <+: pre → ClearOf bins (a + span pre')) :
    ∃ pre' es bins', pre = pre' ++ es ∧ (∀ e ∈ es, e.used = false) ∧ SealedEnd pre' ∧
      (h.mergeBefore (a + span pre)).1 = a + span pre' ∧
      Merged h (h.mergeBefore (a + span pre)).2 bins bins' (a + span pre')
        (places (a + span pre') es) ∧
      (Tag.mk (a + span pre') (leftOf none pre') (span es + s) false).In
        (h.mergeBefore (a + span pre)).2.mem := by
  have hpu := ht.prevUsed_eq hs
  -- Nothing to take in where the tag records nothing.
  have hstay : leftOf none pre = none → SealedEnd pre →
      ∃ pre' es bins', pre = pre' ++ es ∧ (∀ e ∈ es, e.used = false) ∧ SealedEnd pre' ∧
      (h.mergeBefore (a + span pre)).1 = a + span pre' ∧
      Merged h (h.mergeBefore (a + span pre)).2 bins bins' (a + span pre')
        (places (a + span pre') es) ∧
      (Tag.mk (a + span pre') (leftOf none pre') (span es + s) false).In
        (h.mergeBefore (a + span pre)).2.mem := by
    intro hnone hend
    have hno : h.mergeBefore (a + span pre) = (a + span pre, h) := by
      simp only [Heap.mergeBefore, hpu, hnone, Option.isNone_none, Bool.true_eq_false, ↓reduceIte]
    rw [hno]
    exact ⟨pre, [], bins, by simp, by simp, hend, rfl, .none hl, by simpa using ht⟩
  rcases List.eq_nil_or_concat' pre with rfl | ⟨pre', e, rfl⟩
  · exact hstay rfl (by simp [SealedEnd])
  · cases heu : e.used with
    | true =>
      refine hstay (by simp [leftOf, Blk.left, heu]) ?_
      intro c hc
      simp only [List.getLast?_append, List.getLast?_singleton, Option.some_or,
        Option.some.injEq] at hc
      exact hc ▸ heu
    | false =>
      have hleft : leftOf none (pre' ++ [e]) = some e.size := by
        simp [leftOf, Blk.left, heu]
      have hfoot : h.load (a + span (pre' ++ [e])) = e.size := ht.foot _ hleft
      have hbefore := hlast pre' e rfl
      rw [heu] at hbefore
      have hemod : e.size % align = 0 := hsizes e (by simp)
      have hpmod : span pre' % align = 0 := by
        apply span_mod
        intro d hd
        exact hsizes d (List.mem_append_left _ hd)
      have hxmod : (a + span pre') % align = 0 := by
        simp only [align] at *
        omega
      have hbmod : (a + span (pre' ++ [e])) % align = 0 := by
        simp only [span_append, span_cons, span_nil, align] at *
        omega
      have hprev : h.prevBlock (a + span (pre' ++ [e])) = a + span pre' := by
        unfold Heap.prevBlock
        rw [hfoot, span_append, span_cons, span_nil]
        omega
      have hz : h.sizeOf (a + span pre') = e.size := hbefore.size hemod
      have hbin : binOf (h.sizeOf (a + span pre')) = binOf e.size := congrArg binOf hz
      have hx := hfree pre' e rfl heu
      have hoffx : ClearOf bins (a + span pre') := hoff pre' (List.prefix_append _ _)
      have hoffb : ClearOf bins (a + span (pre' ++ [e])) := hoff _ (List.prefix_refl _)
      have hyes : h.mergeBefore (a + span (pre' ++ [e])) =
          (a + span pre', (h.binRemove (a + span pre')).setSize (a + span pre') (e.size + s)) := by
        simp only [Heap.mergeBefore, hpu, hleft, Option.isNone_some, ↓reduceIte, hprev,
          hl.remove_size hbin hx hxmod hoffx, hl.remove_size hbin hx hbmod hoffb, hz, ht.size hs]
      have hsum : (e.size + s) % align = 0 := by
        simp only [align] at *
        omega
      simp only [span_append, span_cons, span_nil] at hlt
      obtain ⟨⟨bins', hm⟩, htag⟩ :=
        Merged.one hl hz hx hxmod hoffx hbefore hemod hsum (by omega)
      rw [hyes]
      exact ⟨pre', [e], bins', rfl, by simpa using heu, hpart pre' e rfl heu, rfl, hm,
        by simpa using htag⟩

end Merge

end ReconOS.Malloc
