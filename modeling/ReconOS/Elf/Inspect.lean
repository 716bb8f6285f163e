import ReconOS.Elf.Load

/-! What the first pass lets through. -/
namespace ReconOS.Elf

/-! ## Arithmetic -/

theorem insideFile_iff {offset length fileLen : Nat} :
    insideFile offset length fileLen = true ↔ offset + length ≤ fileLen := by
  unfold insideFile
  split
  · simp; omega
  · simp; omega

theorem insideUser_iff {va length : Nat} :
    insideUser va length = true ↔ pageSize ≤ va ∧ va < userLimit ∧ va + length ≤ userLimit := by
  unfold insideUser
  split
  · simp; omega
  · simp; omega

theorem and_pageMask {v : Nat} (small : v < u64Size) : v &&& pageMask = v / pageSize * pageSize := by
  have mask : pageMask = (2 ^ 52 - 1) <<< 12 := by decide
  have down : v / pageSize * pageSize = (v >>> 12) <<< 12 := by
    rw [Nat.shiftLeft_eq, Nat.shiftRight_eq_div_pow]
    rfl
  rw [mask, down]
  refine Nat.eq_of_testBit_eq fun i => ?_
  simp only [Nat.testBit_and, Nat.testBit_shiftLeft, Nat.testBit_two_pow_sub_one,
    Nat.testBit_shiftRight]
  by_cases low : 12 ≤ i
  · by_cases high : i < 64
    · have : i - 12 < 52 := by omega
      simp [low, this]
    · have : v.testBit i = false := by
        have grows : 2 ^ 64 ≤ 2 ^ i := Nat.pow_le_pow_right (by decide) (by omega)
        exact Nat.testBit_lt_two_pow (Nat.lt_of_lt_of_le small grows)
      simp [low, this]
  · simp [low]

theorem pageDown_eq {v : Nat} (small : v < u64Size) : pageDown v = v / pageSize * pageSize :=
  and_pageMask small

theorem pageUp_eq {v : Nat} (small : v ≤ userLimit) :
    pageUp v = (v + pageSize - 1) / pageSize * pageSize := by
  have fits : v + pageSize - 1 < u64Size := by
    simp only [userLimit, pageSize, u64Size] at small ⊢
    omega
  rw [pageUp, Nat.mod_eq_of_lt fits, and_pageMask fits]

/-! ## The headers that pass -/

/-- What one loadable header that is let through has been checked for. -/
structure Phdr.Sound (len : Nat) (h : Phdr) : Prop where
  load : h.type = ptLoad
  some : 0 < h.memsz
  file : h.filesz ≤ h.memsz
  inside : h.offset + h.filesz ≤ len
  above : pageSize ≤ h.vaddr
  below : h.vaddr + h.memsz ≤ userLimit
  aligned : h.vaddr % pageSize = h.offset % pageSize
  writeOrExec : h.flags &&& pfW = 0 ∨ h.flags &&& pfX = 0

/-- The pages of a segment: from the first, up to the end. -/
def Phdr.firstPage (h : Phdr) : Nat := h.vaddr / pageSize
def Phdr.endPage (h : Phdr) : Nat := (h.vaddr + h.memsz + pageSize - 1) / pageSize

variable {len : Nat} {h : Phdr}

theorem Phdr.Sound.vaFirst (sound : h.Sound len) : (segmentOf h).vaFirst = h.firstPage * pageSize :=
  pageDown_eq (by have := sound.below; simp only [userLimit, u64Size] at this ⊢; omega)

theorem Phdr.Sound.vaLast (sound : h.Sound len) : (segmentOf h).vaLast = h.endPage * pageSize := by
  have below := sound.below
  have fits : h.vaddr + h.memsz < u64Size := by simp only [userLimit, u64Size] at below ⊢; omega
  show pageUp ((h.vaddr + h.memsz) % u64Size) = _
  rw [Nat.mod_eq_of_lt fits, pageUp_eq below]
  rfl

/-- The headers taken so far: each sound, and no two of them on one page. -/
structure Admitted (len : Nat) (hs : List Phdr) : Prop where
  each : ∀ h ∈ hs, h.Sound len
  apart : hs.Pairwise fun a b => a.endPage ≤ b.firstPage ∨ b.endPage ≤ a.firstPage

def Phdr.loads (h : Phdr) : Bool := h.type = ptLoad ∧ h.memsz ≠ 0

theorem ite_error_eq_ok {ε α : Type} {c : Prop} [Decidable c] {e : ε} {x : Except ε α} {v : α} :
    (if c then .error e else x) = .ok v ↔ ¬c ∧ x = .ok v := by
  split <;> simp [*]

theorem ite_error_ne {ε α : Type} {c : Prop} [Decidable c] {e o : ε} {x : Except ε α}
    (here : e ≠ o) (rest : x ≠ .error o) : (if c then .error e else x) ≠ .error o := by
  split
  · simpa using here
  · exact rest

theorem takeSegment_sound {segs out : List Segment} (ok : takeSegment len segs h = .ok out)
    (takes : h.loads = true) :
    h.Sound len ∧ out = segs ++ [segmentOf h] ∧
      ∀ t ∈ segs, ¬((segmentOf h).vaFirst < t.vaLast ∧ t.vaFirst < (segmentOf h).vaLast) := by
  simp only [Phdr.loads, ne_eq, decide_eq_true_eq] at takes
  have taken : ¬(h.type ≠ ptLoad ∨ h.memsz = 0) := by simp [takes]
  simp only [takeSegment, if_neg taken, ite_error_eq_ok] at ok
  obtain ⟨_, _, file, _, inFile, inUser, aligned, wx, apart, ok⟩ := ok
  cases ok
  obtain ⟨above, _, below⟩ := insideUser_iff.1 (not_not.1 inUser)
  have low (v : Nat) : v &&& (pageSize - 1) = v % pageSize :=
    Nat.and_two_pow_sub_one_eq_mod v 12
  rw [low, low] at aligned
  have sound : h.Sound len :=
    { load := takes.1
      some := by omega
      file := by omega
      inside := insideFile_iff.1 (not_not.1 inFile)
      above := above
      below := below
      aligned := not_not.1 aligned
      writeOrExec := by
        by_cases w : h.flags &&& pfW = 0
        · exact .inl w
        · exact .inr (not_not.1 fun x => wx ⟨w, x⟩) }
  refine ⟨sound, rfl, ?_⟩
  simpa using apart

theorem takeSegment_named (segs : List Segment) (h : Phdr) : takeSegment len segs h ≠ .error .ok := by
  refine ite_error_ne (by decide) ?_
  split
  · simp
  · repeat refine ite_error_ne (by decide) ?_
    simp

theorem checkHeader_named (arch : Nat) (eh : Header) : checkHeader arch len eh ≠ some .ok := by
  simp [checkHeader, ite_eq_iff]

theorem takeSegment_skips {segs out : List Segment} (ok : takeSegment len segs h = .ok out)
    (skips : h.loads = false) : out = segs := by
  simp only [Phdr.loads, decide_eq_false_iff_not, not_and_or, not_not] at skips
  simp only [takeSegment, if_pos skips, ite_error_eq_ok, Except.ok.injEq] at ok
  exact ok.2.symm

theorem takeSegment_admitted {hs : List Phdr} {out : List Segment} (all : Admitted len hs)
    (ok : takeSegment len (hs.map segmentOf) h = .ok out) :
    out = (hs ++ [h].filter Phdr.loads).map segmentOf ∧ Admitted len (hs ++ [h].filter Phdr.loads) := by
  cases takes : h.loads with
  | false =>
    have none_taken : [h].filter Phdr.loads = [] := by simp [takes]
    rw [none_taken, List.append_nil]
    exact ⟨takeSegment_skips ok takes, all⟩
  | true =>
    have taken : [h].filter Phdr.loads = [h] := by simp [takes]
    obtain ⟨sound, rfl, apart⟩ := takeSegment_sound ok takes
    rw [taken]
    refine ⟨by simp, ?_, ?_⟩
    · intro t mem
      cases List.mem_append.1 mem with
      | inl old => exact all.each t old
      | inr new => exact List.mem_singleton.1 new ▸ sound
    · rw [List.pairwise_append]
      refine ⟨all.apart, List.pairwise_singleton _ _, ?_⟩
      intro t old u new
      rw [List.mem_singleton.1 new]
      have apart := apart _ (List.mem_map_of_mem old)
      rw [sound.vaFirst, sound.vaLast, (all.each t old).vaFirst, (all.each t old).vaLast] at apart
      simp only [pageSize] at apart
      omega

/-! ## The scan -/

/-- The `left` program headers of the image from the `i`th on. -/
def Image.phdrsFrom (image : Image) (phoff left i : Nat) : List Phdr :=
  (List.range' i left).filterMap fun i => image.phdr (phoff + i * phdrSize)

/-- The table being inside the image, the scan reads nothing outside it, and takes its loadable
headers in order. -/
theorem scan_admitted (image : Image) (phoff left i : Nat) (hs : List Phdr)
    (all : Admitted image.length hs) (inside : phoff + (i + left) * phdrSize ≤ image.length) :
    ∃ r, scan image phoff left i (hs.map segmentOf) = some r ∧ r ≠ .error .ok ∧
      ∀ segs, r = .ok segs →
        segs = (hs ++ (image.phdrsFrom phoff left i).filter Phdr.loads).map segmentOf ∧
          Admitted image.length (hs ++ (image.phdrsFrom phoff left i).filter Phdr.loads) := by
  induction left generalizing i hs with
  | zero =>
    refine ⟨_, rfl, by simp, ?_⟩
    intro segs done
    cases done
    simpa [Image.phdrsFrom] using all
  | succ left ih =>
    have here : phoff + i * phdrSize + phdrSize ≤ image.length := by
      simp only [phdrSize] at inside ⊢
      omega
    obtain ⟨ph, found⟩ := image.phdr_inside here
    have more : image.phdrsFrom phoff (left + 1) i = ph :: image.phdrsFrom phoff left (i + 1) := by
      simp [Image.phdrsFrom, List.range'_succ, found]
    rw [scan, found, more]
    dsimp only
    cases met : takeSegment image.length (hs.map segmentOf) ph with
    | error r => exact ⟨_, rfl, met ▸ takeSegment_named _ _, by simp⟩
    | ok segs =>
      obtain ⟨rfl, all'⟩ := takeSegment_admitted all met
      dsimp only
      obtain ⟨r, ran, named, rest⟩ := ih (i + 1) _ all' (by
        rw [show i + 1 + left = i + (left + 1) by omega]
        exact inside)
      refine ⟨r, ran, named, ?_⟩
      have split_cons : hs ++ [ph].filter Phdr.loads ++
          (image.phdrsFrom phoff left (i + 1)).filter Phdr.loads =
          hs ++ (ph :: image.phdrsFrom phoff left (i + 1)).filter Phdr.loads := by
        rw [List.append_assoc, ← List.filter_append, List.singleton_append]
      rw [split_cons] at rest
      exact rest

/-- The program headers of an image. -/
def Image.phdrs (image : Image) : List Phdr :=
  match image.header with
  | none => []
  | some eh => image.phdrsFrom eh.phoff eh.phnum 0

/-- The first pass reads nothing outside the image. What it lets through has sound headers, and an
entry point in one that may be executed. -/
theorem inspect_admitted (arch : Nat) (image : Image) :
    ∃ r, inspect arch image = some r ∧ r ≠ .error .ok ∧
      ∀ segs entry, r = .ok (segs, entry) →
        segs = (image.phdrs.filter Phdr.loads).map segmentOf ∧
          Admitted image.length (image.phdrs.filter Phdr.loads) ∧
          image.header.map Header.entry = some entry ∧ entryInCode entry segs = true := by
  unfold inspect
  split
  · exact ⟨_, rfl, by simp, by simp⟩
  rename_i long
  obtain ⟨eh, found, _⟩ := image.header_inside (by omega)
  rw [found]
  dsimp only
  cases checked : checkHeader arch image.length eh with
  | some r =>
    have named : r ≠ .ok := fun ok => checkHeader_named arch eh (ok ▸ checked)
    exact ⟨_, rfl, by simpa using named, by simp⟩
  | none =>
    have table : eh.phoff + eh.phnum * phdrSize ≤ image.length := by
      simp only [checkHeader, ite_eq_iff, reduceCtorEq, and_false,
        false_or, not_not] at checked
      exact insideFile_iff.1 (by grind)
    have none_yet : Admitted image.length [] := ⟨by simp, List.Pairwise.nil⟩
    obtain ⟨r, ran, named, rest⟩ := scan_admitted image eh.phoff eh.phnum 0 [] none_yet
      (by rw [Nat.zero_add]; exact table)
    rw [List.map_nil] at ran
    rw [ran]
    have phdrs : image.phdrs = image.phdrsFrom eh.phoff eh.phnum 0 := by rw [Image.phdrs, found]
    cases r with
    | error r => exact ⟨_, rfl, by simpa using named, by simp⟩
    | ok segs =>
      obtain ⟨taken, all⟩ := rest segs rfl
      rw [List.nil_append, ← phdrs] at taken all
      dsimp only
      split
      · exact ⟨_, rfl, by simp, by simp⟩
      split
      · rename_i code
        refine ⟨_, rfl, by simp, ?_⟩
        intro segs' entry same
        cases same
        exact ⟨taken, all, rfl, code⟩
      · exact ⟨_, rfl, by simp, by simp⟩

end ReconOS.Elf
