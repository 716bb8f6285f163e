import ReconOS.Elf.Inspect

/-! What a program finds in its address space: the map that the file's headers describe. -/
namespace ReconOS.Elf

/-! ## The reference map -/

/-- The segments of an image: its `PT_LOAD` headers. -/
def Image.segments (image : Image) : List Phdr := image.phdrs.filter fun h => h.type = ptLoad

namespace Phdr

/-- The addresses of the segment's memory, and those of them that the file has bytes for. -/
def InMemory (h : Phdr) (a : Nat) : Prop := h.vaddr ≤ a ∧ a < h.vaddr + h.memsz
def InFile (h : Phdr) (a : Nat) : Prop := h.InMemory a ∧ a < h.vaddr + h.filesz

/-- Some byte of the segment's memory is on the page. -/
def Covers (h : Phdr) (page : Nat) : Prop := ∃ a, h.InMemory a ∧ a / pageSize = page

/-- The file's byte for an address. -/
def fileByte (image : Image) (h : Phdr) (a : Nat) : Option UInt8 :=
  image.bytes[h.offset + (a - h.vaddr)]?

end Phdr

/-- The byte a program reads at an address. -/
def World.byteAt (w : World) (a : Nat) : Option UInt8 :=
  (w.space (a / pageSize)).map fun e => w.memory e.frame (a % pageSize)

/-- `after` is `before` with the image's segments in the address space. -/
structure Loaded (image : Image) (before after : World) (entry : Nat) : Prop where
  mapped : ∀ h ∈ image.segments, ∀ page, h.Covers page →
    ∃ frame, after.space page = some ⟨frame, vmFlagsOf h.flags⟩
  nothingElse : ∀ page, (¬∃ h ∈ image.segments, h.Covers page) →
    after.space page = before.space page
  fromFile : ∀ h ∈ image.segments, ∀ a, h.InFile a →
    ∃ b, h.fileByte image a = some b ∧ after.byteAt a = some b
  zero : ∀ h ∈ image.segments, ∀ a, h.Covers (a / pageSize) →
    (¬∃ t ∈ image.segments, t.InFile a) → after.byteAt a = some 0
  user : ∀ h ∈ image.segments, ∀ page, h.Covers page →
    pageSize ≤ page * pageSize ∧ (page + 1) * pageSize ≤ userLimit
  oneSegment : image.segments.Pairwise fun h t => ∀ page, ¬(h.Covers page ∧ t.Covers page)
  notBoth : ∀ h ∈ image.segments, ∀ page, h.Covers page →
    ∀ e, after.space page = some e → ¬(e.flags.write = true ∧ e.flags.exec = true)
  entryPoint : image.header.map Header.entry = some entry ∧
    ∃ e, after.space (entry / pageSize) = some e ∧ e.flags.exec = true

/-! ## One page -/

/-- The byte of a page that a segment puts there. -/
def pageByte (image : Image) (h : Phdr) (a : Nat) : UInt8 :=
  if h.vaddr ≤ a ∧ a < h.vaddr + h.filesz then image.bytes.getD (h.offset + (a - h.vaddr)) 0 else 0

variable (m : Machine) (image : Image)

/-- The page is mapped for the segment, on a frame the load took, and holds the segment's bytes. -/
def Filled (w : World) (h : Phdr) (page : Nat) : Prop :=
  ∃ n frame, n < w.calls ∧ m.page n = some frame ∧
    w.space page = some ⟨frame, vmFlagsOf h.flags⟩ ∧
      ∀ i < pageSize, w.memory frame i = pageByte image h (page * pageSize + i)

/-- What placing pages inside `changed` leaves alone. -/
structure Kept (changed : Nat → Prop) (w w' : World) : Prop where
  space : ∀ page, ¬changed page → w'.space page = w.space page
  filled : ∀ page h, ¬changed page → Filled m image w h page → Filled m image w' h page

variable {m image}

theorem Kept.trans {p q r : Nat → Prop} {w₀ w₁ w₂ : World} (first : Kept m image p w₀ w₁)
    (next : Kept m image q w₁ w₂) (inP : ∀ page, p page → r page) (inQ : ∀ page, q page → r page) :
    Kept m image r w₀ w₂ where
  space page out :=
    (next.space page fun h => out (inQ page h)).trans (first.space page fun h => out (inP page h))
  filled page h out filled :=
    next.filled page h (fun h => out (inQ page h)) (first.filled page h (fun h => out (inP page h)) filled)

theorem copy_spec {w : World} {frame start source n : Nat} (fits : start + n ≤ pageSize)
    (inside : source + n ≤ image.length) :
    ∃ w', w.copy image frame start source n = some w' ∧ w'.space = w.space ∧ w'.calls = w.calls ∧
      ∀ f i, w'.memory f i =
        if f = frame ∧ start ≤ i ∧ i < start + n then image.bytes.getD (source + (i - start)) 0
        else w.memory f i := by
  rw [World.copy, if_pos fits, image.slice_eq inside]
  refine ⟨_, rfl, rfl, rfl, ?_⟩
  intro f i
  dsimp only
  split
  · rename_i here
    rw [List.getD_eq_getElem?_getD, List.getElem?_take, if_pos (by omega), List.getElem?_drop,
      ← List.getD_eq_getElem?_getD]
  · rfl

/-- The part of a page that the file has bytes for: the meeting of two ranges. -/
theorem fill_eq (image : Image) (s : Segment) (va frame : Nat) (w : World) :
    ∃ start stop, start = max s.vaExact va ∧
      stop = min ((s.vaExact + s.fileBytes) % u64Size) ((va + pageSize) % u64Size) ∧
      fill image s va frame w =
        if stop > start then
          w.copy image frame (start - va) (s.fileOffset + (start - s.vaExact)) (stop - start)
        else some w := by
  refine ⟨if s.vaExact > va then s.vaExact else va,
    if (s.vaExact + s.fileBytes) % u64Size < (va + pageSize) % u64Size then
      (s.vaExact + s.fileBytes) % u64Size
    else (va + pageSize) % u64Size, ?_, ?_, rfl⟩
  · split <;> omega
  · split <;> omega

variable {h : Phdr} {w : World}

/-- A page of a segment is filled with the segment's bytes, and nothing is read outside. -/
theorem fill_spec (sound : h.Sound image.length) {page frame : Nat} (low : h.firstPage ≤ page) :
    ∃ w', fill image (segmentOf h) (page * pageSize) frame (w.clear frame) = some w' ∧
      w'.space = w.space ∧ w'.calls = w.calls ∧
      (∀ f, f ≠ frame → w'.memory f = w.memory f) ∧
      ∀ i < pageSize, w'.memory frame i = pageByte image h (page * pageSize + i) := by
  have below := sound.below
  have file := sound.file
  have inside := sound.inside
  simp only [Phdr.firstPage, pageSize, userLimit] at low below
  have cleared (i : Nat) (inPage : i < pageSize) : (w.clear frame).memory frame i = 0 :=
    if_pos ⟨rfl, inPage⟩
  have others (f : Nat) (other : f ≠ frame) : (w.clear frame).memory f = w.memory f := by
    funext i
    simp [World.clear, other]
  obtain ⟨start, stop, start_eq, stop_eq, filled⟩ :=
    fill_eq image (segmentOf h) (page * pageSize) frame (w.clear frame)
  rw [filled]
  simp only [segmentOf, pageSize, u64Size] at start_eq stop_eq cleared ⊢
  split
  · obtain ⟨w', copied, space, calls, memory⟩ := copy_spec (w := w.clear frame)
      (show start - page * 4096 + (stop - start) ≤ pageSize by simp only [pageSize]; omega)
      (show h.offset + (start - h.vaddr) + (stop - start) ≤ image.length by omega)
    refine ⟨w', copied, space, calls, ?_, ?_⟩
    · intro f other
      rw [← others f other]
      funext i
      rw [memory, if_neg (by simp [other])]
    · intro i inPage
      rw [memory, pageByte]
      split
      · rw [if_pos (by omega)]
        exact congrArg (image.bytes.getD · 0) (by omega)
      · rw [if_neg (by omega), cleared i inPage]
  · refine ⟨w.clear frame, rfl, rfl, rfl, others, ?_⟩
    intro i inPage
    rw [cleared i inPage, pageByte, if_neg (by omega)]

/-- One page placed: it is filled, and every other page is as it was. -/
theorem placePage_spec (sound : h.Sound image.length) {page : Nat} (low : h.firstPage ≤ page) :
    ∃ r w', placePage m image (segmentOf h) (page * pageSize) w = some (r, w') ∧
      (r = .ok → Filled m image w' h page ∧ Kept m image (· = page) w w') := by
  unfold placePage
  cases asked : m.page w.calls with
  | none => exact ⟨_, _, rfl, by simp⟩
  | some frame =>
    obtain ⟨w', filled, space, calls, others, bytes⟩ :=
      @fill_spec image h (w.take frame) sound page frame low
    have one_more : w'.calls = w.calls + 1 := calls
    have here : page * pageSize / pageSize = page := Nat.mul_div_cancel _ (by decide)
    dsimp only
    rw [filled]
    dsimp only
    split
    · refine ⟨_, _, rfl, fun _ => ⟨?_, ?_, ?_⟩⟩
      · exact ⟨w.calls, frame, by simp [World.map, one_more], asked, if_pos here.symm, bytes⟩
      · intro q other
        simp only [World.map, here, if_neg other, space]
        rfl
      · rintro q t other ⟨n, f, before, given, mapped, holds⟩
        have different : f ≠ frame := by
          rintro rfl
          exact absurd (m.fresh n w.calls f given asked) (by omega)
        refine ⟨n, f, by simp only [World.map]; omega, given, ?_, ?_⟩
        · simp only [World.map, here, if_neg other, space]
          exact mapped
        · intro i inPage
          show w'.memory f i = _
          rw [others f different]
          exact holds i inPage
    · exact ⟨_, _, rfl, by simp⟩

/-! ## A segment, and all of them -/

/-- The pages from `page` to the segment's end are filled, and every other page is as it was. -/
theorem placeFrom_spec (sound : h.Sound image.length) (left page : Nat) (low : h.firstPage ≤ page)
    (end_ : page + left = h.endPage) (w : World) :
    ∃ r w', placeFrom m image (segmentOf h) (left + 1) (page * pageSize) w = some (r, w') ∧
      (r = .ok → (∀ q, page ≤ q → q < h.endPage → Filled m image w' h q) ∧
        Kept m image (fun q => page ≤ q ∧ q < h.endPage) w w') := by
  induction left generalizing page w with
  | zero =>
    have stop : ¬page * pageSize < (segmentOf h).vaLast := by
      rw [sound.vaLast, ← end_]
      simp
    rw [placeFrom, if_neg stop]
    exact ⟨_, _, rfl, fun _ => ⟨fun q _ _ => by omega, ⟨fun _ _ => rfl, fun _ _ _ h => h⟩⟩⟩
  | succ left ih =>
    have going : page * pageSize < (segmentOf h).vaLast := by
      rw [sound.vaLast]
      exact Nat.mul_lt_mul_of_pos_right (by omega) (by decide)
    have high : page < h.endPage := by omega
    have noWrap : (page * pageSize + pageSize) % u64Size = (page + 1) * pageSize := by
      have below := sound.below
      simp only [Phdr.endPage, pageSize, userLimit, u64Size] at high below ⊢
      omega
    obtain ⟨r, w₁, placed, first⟩ := placePage_spec (m := m) (w := w) sound low
    rw [placeFrom, if_pos going, placed]
    cases r with
    | ok =>
      obtain ⟨filled, kept⟩ := first rfl
      obtain ⟨r, w₂, ran, rest⟩ := ih (page + 1) (by omega) (by omega) w₁
      dsimp only
      rw [noWrap, ran]
      refine ⟨r, w₂, rfl, fun ok => ?_⟩
      obtain ⟨all, kept'⟩ := rest ok
      refine ⟨?_, kept.trans kept' (by intro q h; subst h; exact ⟨Nat.le_refl _, high⟩)
        (fun q h => ⟨by omega, h.2⟩)⟩
      intro q from_ before
      by_cases first : q = page
      · subst first
        exact kept'.filled q h (by omega) filled
      · exact all q (by omega) before
    | _ => exact ⟨_, _, rfl, by simp⟩

theorem place_spec (hs : List Phdr) (all : Admitted image.length hs) (w : World) :
    ∃ r w', place m image (hs.map segmentOf) w = some (r, w') ∧
      (r = .ok → (∀ h ∈ hs, ∀ q, h.firstPage ≤ q → q < h.endPage → Filled m image w' h q) ∧
        Kept m image (fun q => ∃ h ∈ hs, h.firstPage ≤ q ∧ q < h.endPage) w w') := by
  induction hs generalizing w with
  | nil => exact ⟨_, _, rfl, fun _ => ⟨by simp, ⟨fun _ _ => rfl, fun _ _ _ h => h⟩⟩⟩
  | cons h rest ih =>
    have sound := all.each h (List.mem_cons_self ..)
    obtain ⟨apart, all_apart⟩ := List.pairwise_cons.1 all.apart
    have fits : h.firstPage ≤ h.endPage := by
      simp only [Phdr.firstPage, Phdr.endPage, pageSize]
      omega
    have count : ((segmentOf h).vaLast - (segmentOf h).vaFirst) / pageSize = h.endPage - h.firstPage := by
      rw [sound.vaLast, sound.vaFirst, ← Nat.sub_mul, Nat.mul_div_cancel _ (by decide)]
    obtain ⟨r, w₁, placed, first⟩ := placeFrom_spec (m := m) sound (h.endPage - h.firstPage)
      h.firstPage (Nat.le_refl _) (by omega) w
    rw [List.map_cons, place, count, sound.vaFirst, placed]
    cases r with
    | ok =>
      obtain ⟨filled, kept⟩ := first rfl
      obtain ⟨r, w₂, ran, more⟩ := ih ⟨fun t mem => all.each t (List.mem_cons_of_mem h mem), all_apart⟩ w₁
      dsimp only
      rw [ran]
      refine ⟨r, w₂, rfl, fun ok => ?_⟩
      obtain ⟨others, kept'⟩ := more ok
      refine ⟨?_, kept.trans kept' (fun q inside => ⟨h, List.mem_cons_self .., inside⟩) ?_⟩
      rotate_left
      · intro q inside
        obtain ⟨t, mem, inside⟩ := inside
        exact ⟨t, List.mem_cons_of_mem h mem, inside⟩
      intro t mem q low high
      cases List.mem_cons.1 mem with
      | inl same =>
        subst same
        refine kept'.filled q t ?_ (filled q low high)
        intro inside
        obtain ⟨u, mem, low', high'⟩ := inside
        cases apart u mem with
        | inl before => omega
        | inr after => omega
      | inr mem => exact others t mem q low high
    | _ => exact ⟨_, _, rfl, by simp⟩

/-! ## The whole load -/

theorem Phdr.Sound.covers_iff (sound : h.Sound image.length) {page : Nat} :
    h.Covers page ↔ h.firstPage ≤ page ∧ page < h.endPage := by
  have some_memory := sound.some
  simp only [Phdr.Covers, Phdr.InMemory, Phdr.firstPage, Phdr.endPage, pageSize]
  constructor
  · intro covers
    obtain ⟨a, inMemory, here⟩ := covers
    omega
  · intro inside
    exact ⟨max h.vaddr (page * 4096), by omega, by omega⟩

theorem Image.mem_segments : h ∈ image.segments ↔ h ∈ image.phdrs ∧ h.type = ptLoad := by
  simp [Image.segments]

/-- A segment that covers a page is one that was taken. -/
theorem Phdr.Covers.loads {page : Nat} (covers : h.Covers page) (mem : h ∈ image.segments) :
    h ∈ image.phdrs.filter Phdr.loads := by
  obtain ⟨a, inMemory, _⟩ := covers
  obtain ⟨header, load⟩ := Image.mem_segments.1 mem
  have some_memory : h.memsz ≠ 0 := by
    intro none_
    simp only [Phdr.InMemory] at inMemory
    omega
  exact List.mem_filter.2 ⟨header, by simp [Phdr.loads, load, some_memory]⟩

theorem Image.loads_segments (mem : h ∈ image.phdrs.filter Phdr.loads) : h ∈ image.segments := by
  obtain ⟨header, loads⟩ := List.mem_filter.1 mem
  simp only [Phdr.loads, decide_eq_true_eq] at loads
  exact Image.mem_segments.2 ⟨header, loads.1⟩

theorem Filled.byteAt {a : Nat} (filled : Filled m image w h (a / pageSize)) :
    w.byteAt a = some (pageByte image h a) := by
  obtain ⟨_, frame, _, _, mapped, bytes⟩ := filled
  have whole : a / pageSize * pageSize + a % pageSize = a := Nat.div_add_mod' a pageSize
  rw [World.byteAt, mapped, Option.map_some, bytes _ (Nat.mod_lt _ (by decide)), whole]

theorem Admitted.oneSegment (all : Admitted image.length (image.phdrs.filter Phdr.loads)) :
    image.segments.Pairwise fun h t => ∀ page, ¬(h.Covers page ∧ t.Covers page) := by
  have apart := List.pairwise_filter.1 all.apart
  refine List.pairwise_filter.2 (apart.imp_of_mem ?_)
  intro h t memH memT apart loadH loadT page both
  have takenH := both.1.loads (Image.mem_segments.2 ⟨memH, by simpa using loadH⟩)
  have takenT := both.2.loads (Image.mem_segments.2 ⟨memT, by simpa using loadT⟩)
  have insideH := (all.each h takenH).covers_iff.1 both.1
  have insideT := (all.each t takenT).covers_iff.1 both.2
  cases apart (List.mem_filter.1 takenH).2 (List.mem_filter.1 takenT).2 with
  | inl before => omega
  | inr after => omega

theorem Admitted.entryPage {hs : List Phdr} (all : Admitted image.length hs) {entry : Nat}
    (code : entryInCode entry (hs.map segmentOf) = true) :
    ∃ h ∈ hs, h.flags &&& pfX ≠ 0 ∧ h.firstPage ≤ entry / pageSize ∧ entry / pageSize < h.endPage := by
  simp only [entryInCode, List.any_eq_true, decide_eq_true_eq] at code
  obtain ⟨s, taken, exec, from_, before⟩ := code
  obtain ⟨h, mem, rfl⟩ := List.mem_map.1 taken
  rw [(all.each h mem).vaLast] at before
  exact ⟨h, mem, exec, Nat.div_le_div_right from_,
    (Nat.div_lt_iff_lt_mul (by decide)).2 before⟩

/-- Every page of every admitted segment being filled, the program finds the reference map. -/
theorem Admitted.loaded (all : Admitted image.length (image.phdrs.filter Phdr.loads))
    {before after : World} {entry : Nat}
    (filled : ∀ h ∈ image.phdrs.filter Phdr.loads, ∀ q, h.firstPage ≤ q → q < h.endPage →
      Filled m image after h q)
    (kept : Kept m image (fun q => ∃ h ∈ image.phdrs.filter Phdr.loads,
      h.firstPage ≤ q ∧ q < h.endPage) before after)
    (header : image.header.map Header.entry = some entry)
    (code : entryInCode entry ((image.phdrs.filter Phdr.loads).map segmentOf) = true) :
    Loaded image before after entry := by
  have covered (h : Phdr) (mem : h ∈ image.segments) (page : Nat) (covers : h.Covers page) :
      h.Sound image.length ∧ Filled m image after h page := by
    have taken := covers.loads mem
    have sound := all.each h taken
    have inside := sound.covers_iff.1 covers
    exact ⟨sound, filled h taken page inside.1 inside.2⟩
  refine ⟨?_, ?_, ?_, ?_, ?_, all.oneSegment, ?_, header, ?_⟩
  · intro h mem page covers
    obtain ⟨_, _, frame, _, _, mapped, _⟩ := covered h mem page covers
    exact ⟨frame, mapped⟩
  · intro page uncovered
    refine kept.space page ?_
    intro inside
    obtain ⟨h, taken, inside⟩ := inside
    exact uncovered ⟨h, Image.loads_segments taken, (all.each h taken).covers_iff.2 inside⟩
  · intro h mem a inFile
    obtain ⟨sound, filled⟩ := covered h mem (a / pageSize) ⟨a, inFile.1, rfl⟩
    have start := inFile.1.1
    have stop := inFile.2
    have inside : h.offset + (a - h.vaddr) < image.bytes.length := by
      have := sound.inside
      simp only [Image.length] at this
      omega
    refine ⟨_, List.getElem?_eq_getElem inside, ?_⟩
    rw [filled.byteAt, pageByte, if_pos ⟨start, stop⟩, List.getD_eq_getElem _ _ inside]
  · intro h mem a covers noFile
    obtain ⟨sound, filled⟩ := covered h mem (a / pageSize) covers
    rw [filled.byteAt, pageByte, if_neg]
    intro inFile
    have file := sound.file
    exact noFile ⟨h, mem, ⟨inFile.1, by omega⟩, inFile.2⟩
  · intro h mem page covers
    obtain ⟨sound, _⟩ := covered h mem page covers
    have inside := sound.covers_iff.1 covers
    have above := sound.above
    have below := sound.below
    simp only [Phdr.firstPage, Phdr.endPage, pageSize, userLimit] at inside above below ⊢
    omega
  · intro h mem page covers e mapped both
    obtain ⟨sound, _, frame, _, _, mapped', _⟩ := covered h mem page covers
    rw [mapped'] at mapped
    cases mapped
    cases sound.writeOrExec with
    | inl noWrite => simp [vmFlagsOf, noWrite] at both
    | inr noExec => simp [vmFlagsOf, noExec] at both
  · obtain ⟨h, taken, exec, low, high⟩ := all.entryPage code
    obtain ⟨_, frame, _, _, mapped, _⟩ := filled h taken _ low high
    exact ⟨_, mapped, by simpa [vmFlagsOf] using exec⟩

/-- For every image, the load reads nothing outside it; and where it accepts the image, the address
space is the reference map. -/
theorem elfLoad_reference (m : Machine) (space : Bool) (image : Image) (w : World) :
    ∃ r w' entry, elfLoad m space (some image) w = some (r, w', entry) ∧
      (r = .ok → ∃ e, entry = some e ∧ Loaded image w w' e) := by
  cases space with
  | false => exact ⟨_, _, _, rfl, by simp⟩
  | true =>
    obtain ⟨r, inspected, named, rest⟩ := inspect_admitted m.arch image
    simp only [elfLoad, inspected]
    cases r with
    | error r =>
      refine ⟨_, _, _, rfl, fun ok => ?_⟩
      rw [ok] at named
      exact absurd rfl named
    | ok found =>
      obtain ⟨segs, entry⟩ := found
      obtain ⟨rfl, all, header, code⟩ := rest segs entry rfl
      obtain ⟨r, w', placed, done⟩ := place_spec (m := m) _ all w
      dsimp only
      rw [placed]
      cases r with
      | ok =>
        obtain ⟨filled, kept⟩ := done rfl
        exact ⟨_, _, _, rfl, fun _ => ⟨entry, rfl, all.loaded filled kept header code⟩⟩
      | _ => exact ⟨_, _, _, rfl, by simp⟩

/-- A file of one segment: four bytes of code, mapped with its headers, and two pages of memory. -/
def tiny : Image :=
  { bytes := [0x7F, 0x45, 0x4C, 0x46, 2, 1, 1] ++ List.replicate 9 0 ++ [2, 0, 62, 0, 1, 0, 0, 0] ++
      [0x78, 0x00, 0x40, 0, 0, 0, 0, 0] ++ [64, 0, 0, 0, 0, 0, 0, 0] ++ List.replicate 14 0 ++
      [56, 0, 1, 0] ++ List.replicate 6 0 ++ [1, 0, 0, 0, 5, 0, 0, 0] ++ List.replicate 8 0 ++
      [0, 0, 0x40, 0, 0, 0, 0, 0] ++ List.replicate 8 0 ++ [124, 0, 0, 0, 0, 0, 0, 0] ++
      [0x88, 0x13, 0, 0, 0, 0, 0, 0] ++ [0, 0x10, 0, 0, 0, 0, 0, 0] ++ [0xF4, 0xEB, 0xFD, 0x90]
    fits := by decide +kernel }

/-- A machine with pages to spare, numbered from 7 on. -/
def roomy : Machine :=
  { arch := 62
    page := fun n => some (n + 7)
    fresh := by
      intro i j f one other
      have same : i + 7 = j + 7 := Option.some.inj (one.trans other.symm)
      omega
    maps := fun _ => true }

example : (elfLoad roomy true (some tiny) ⟨fun _ _ => 0xAA, fun _ => none, 0, []⟩).map
    (fun r => (r.1, r.2.2, r.2.1.byteAt 0x400078, r.2.1.byteAt 0x40007C, r.2.1.byteAt 0x402000)) =
      some (.ok, some 0x400078, some 0xF4, some 0, none) := by
  decide +kernel

end ReconOS.Elf
