import Mathlib.Data.Nat.Bitwise

/-! A program image as the loader is handed it, and the reads it makes of it. -/
namespace ReconOS.Elf

/-- One more than the largest 64-bit number. -/
def u64Size : Nat := 0x10000000000000000

/-- The bytes of a file, no longer than a 64-bit length can say. -/
structure Image where
  bytes : List UInt8
  fits : bytes.length < u64Size

def Image.length (image : Image) : Nat := image.bytes.length

/-- The `n` bytes at `offset`; none of them, if one is outside the image. -/
def Image.slice (image : Image) (offset n : Nat) : Option (List UInt8) :=
  if offset + n ≤ image.length then some ((image.bytes.drop offset).take n) else none

/-- The number that bytes spell, least significant first. -/
def littleEndian : List UInt8 → Nat
  | [] => 0
  | b :: rest => b.toNat + 256 * littleEndian rest

def Image.number (image : Image) (offset n : Nat) : Option Nat :=
  (image.slice offset n).map littleEndian

theorem Image.slice_eq (image : Image) {offset n : Nat} (inside : offset + n ≤ image.length) :
    image.slice offset n = some ((image.bytes.drop offset).take n) := if_pos inside

theorem littleEndian_lt (bytes : List UInt8) : littleEndian bytes < 256 ^ bytes.length := by
  induction bytes with
  | nil => simp [littleEndian]
  | cons b rest ih =>
    have := b.toNat_lt
    simp only [littleEndian, List.length_cons, Nat.pow_succ]
    omega

/-- A number of `n` bytes read inside the image. -/
theorem Image.number_inside (image : Image) {offset n : Nat} (inside : offset + n ≤ image.length) :
    ∃ v, image.number offset n = some v ∧ v < 256 ^ n := by
  refine ⟨_, by rw [Image.number, image.slice_eq inside]; rfl, ?_⟩
  refine Nat.lt_of_lt_of_le (littleEndian_lt _) ?_
  have short : ((image.bytes.drop offset).take n).length ≤ n := List.length_take_le ..
  exact Nat.pow_le_pow_right (by decide) short

/-! ## The two records -/

def headerSize : Nat := 64
def phdrSize : Nat := 56

/-- The fields of `struct elf64_header` that the loader reads. -/
structure Header where
  magic : Nat
  class_ : Nat
  data : Nat
  type : Nat
  machine : Nat
  entry : Nat
  phoff : Nat
  phentsize : Nat
  phnum : Nat
  deriving DecidableEq, Repr

/-- The fields of `struct elf64_phdr` that the loader reads. -/
structure Phdr where
  type : Nat
  flags : Nat
  offset : Nat
  vaddr : Nat
  filesz : Nat
  memsz : Nat
  deriving DecidableEq, Repr

def Image.header (image : Image) : Option Header := do
  let magic ← image.number 0 4
  let class_ ← image.number 4 1
  let data ← image.number 5 1
  let type ← image.number 16 2
  let machine ← image.number 18 2
  let entry ← image.number 24 8
  let phoff ← image.number 32 8
  let phentsize ← image.number 54 2
  let phnum ← image.number 56 2
  return { magic, class_, data, type, machine, entry, phoff, phentsize, phnum }

def Image.phdr (image : Image) (at_ : Nat) : Option Phdr := do
  let type ← image.number at_ 4
  let flags ← image.number (at_ + 4) 4
  let offset ← image.number (at_ + 8) 8
  let vaddr ← image.number (at_ + 16) 8
  let filesz ← image.number (at_ + 32) 8
  let memsz ← image.number (at_ + 40) 8
  return { type, flags, offset, vaddr, filesz, memsz }

theorem Image.header_inside (image : Image) (long : headerSize ≤ image.length) :
    ∃ h, image.header = some h ∧ h.phoff < u64Size := by
  have read (offset n : Nat) (inside : offset + n ≤ headerSize) :=
    image.number_inside (Nat.le_trans inside long)
  obtain ⟨magic, hmagic, _⟩ := read 0 4 (by decide)
  obtain ⟨class_, hclass, _⟩ := read 4 1 (by decide)
  obtain ⟨data, hdata, _⟩ := read 5 1 (by decide)
  obtain ⟨type, htype, _⟩ := read 16 2 (by decide)
  obtain ⟨machine, hmachine, _⟩ := read 18 2 (by decide)
  obtain ⟨entry, hentry, _⟩ := read 24 8 (by decide)
  obtain ⟨phoff, hphoff, bound⟩ := read 32 8 (by decide)
  obtain ⟨phentsize, hphentsize, _⟩ := read 54 2 (by decide)
  obtain ⟨phnum, hphnum, _⟩ := read 56 2 (by decide)
  refine ⟨⟨magic, class_, data, type, machine, entry, phoff, phentsize, phnum⟩, ?_, bound⟩
  simp [Image.header, hmagic, hclass, hdata, htype, hmachine, hentry, hphoff, hphentsize, hphnum]

theorem Image.phdr_inside (image : Image) {at_ : Nat} (inside : at_ + phdrSize ≤ image.length) :
    ∃ h, image.phdr at_ = some h := by
  have read (skip n : Nat) (short : skip + n ≤ phdrSize) :
      ∃ v, image.number (at_ + skip) n = some v ∧ v < 256 ^ n :=
    image.number_inside (by omega)
  obtain ⟨type, htype, _⟩ := read 0 4 (by decide)
  obtain ⟨flags, hflags, _⟩ := read 4 4 (by decide)
  obtain ⟨offset, hoffset, _⟩ := read 8 8 (by decide)
  obtain ⟨vaddr, hvaddr, _⟩ := read 16 8 (by decide)
  obtain ⟨filesz, hfilesz, _⟩ := read 32 8 (by decide)
  obtain ⟨memsz, hmemsz, _⟩ := read 40 8 (by decide)
  rw [Nat.add_zero] at htype
  refine ⟨⟨type, flags, offset, vaddr, filesz, memsz⟩, ?_⟩
  simp [Image.phdr, htype, hflags, hoffset, hvaddr, hfilesz, hmemsz]

/-! `elf_load`: everything is checked, then the pages are filled and mapped. An answer of `none` is
a run that read outside the image or wrote outside a page. -/

def elfMagic : Nat := 0x464C457F
def elfClass64 : Nat := 2
def elfData2Lsb : Nat := 1
def etExec : Nat := 2
def ptLoad : Nat := 1
def ptInterp : Nat := 3
def pfX : Nat := 1
def pfW : Nat := 2
def pfR : Nat := 4
def elfSegmentsMax : Nat := 8
def elfImageMax : Nat := 16 * 1024 * 1024
def pageSize : Nat := 4096
def userLimit : Nat := 0x0000800000000000

inductive ElfResult where
  | ok | tooSmall | notAnElf | wrongClass | wrongMachine | notExecutable | badPhdrs | noSegments
  | tooManySegments | wantsInterpreter | segmentOutside | segmentTooBig | segmentNotUser
  | segmentUnaligned | segmentOverlap | writableAndExec | entryNotInCode | noMemory
  deriving DecidableEq, Repr

/-! ## The arithmetic that has to not wrap -/

def insideFile (offset length fileLen : Nat) : Bool :=
  if offset > fileLen then false else length ≤ fileLen - offset

def insideUser (va length : Nat) : Bool :=
  if va < pageSize ∨ va ≥ userLimit then false else length ≤ userLimit - va

/-- `~(u64)(PAGE_SIZE - 1)`. -/
def pageMask : Nat := u64Size - pageSize

def pageDown (v : Nat) : Nat := v &&& pageMask
def pageUp (v : Nat) : Nat := (v + pageSize - 1) % u64Size &&& pageMask

structure VmFlags where
  user : Bool
  read : Bool
  write : Bool
  exec : Bool
  deriving DecidableEq, Repr

def vmFlagsOf (flags : Nat) : VmFlags :=
  { user := true
    read := flags &&& pfR != 0
    write := flags &&& pfW != 0
    exec := flags &&& pfX != 0 }

/-! ## Is this a program at all -/

structure Segment where
  fileOffset : Nat
  fileBytes : Nat
  vaFirst : Nat
  vaLast : Nat
  vaExact : Nat
  flags : Nat
  deriving DecidableEq, Repr

def segmentOf (ph : Phdr) : Segment :=
  { fileOffset := ph.offset
    fileBytes := ph.filesz
    vaExact := ph.vaddr
    vaFirst := pageDown ph.vaddr
    vaLast := pageUp ((ph.vaddr + ph.memsz) % u64Size)
    flags := ph.flags }

/-- One program header, met with the segments taken so far. -/
def takeSegment (len : Nat) (segs : List Segment) (ph : Phdr) : Except ElfResult (List Segment) :=
  if ph.type = ptInterp then .error .wantsInterpreter
  else if ph.type ≠ ptLoad ∨ ph.memsz = 0 then .ok segs
  else if segs.length = elfSegmentsMax then .error .tooManySegments
  else if ph.filesz > ph.memsz then .error .segmentOutside
  else if ph.memsz > elfImageMax then .error .segmentTooBig
  else if ¬insideFile ph.offset ph.filesz len then .error .segmentOutside
  else if ¬insideUser ph.vaddr ph.memsz then .error .segmentNotUser
  else if ph.vaddr &&& (pageSize - 1) ≠ ph.offset &&& (pageSize - 1) then .error .segmentUnaligned
  else if ph.flags &&& pfW ≠ 0 ∧ ph.flags &&& pfX ≠ 0 then .error .writableAndExec
  else
    let s := segmentOf ph
    if segs.any fun t => decide (s.vaFirst < t.vaLast ∧ t.vaFirst < s.vaLast) then
      .error .segmentOverlap
    else .ok (segs ++ [s])

/-- The `left` program headers from the `i`th on. -/
def scan (image : Image) (phoff : Nat) :
    Nat → Nat → List Segment → Option (Except ElfResult (List Segment))
  | 0, _, segs => some (.ok segs)
  | left + 1, i, segs =>
    match image.phdr (phoff + i * phdrSize) with
    | none => none
    | some ph =>
      match takeSegment image.length segs ph with
      | .error r => some (.error r)
      | .ok segs => scan image phoff left (i + 1) segs

/-- Whether `entry` is somewhere the processor may execute. -/
def entryInCode (entry : Nat) (segs : List Segment) : Bool :=
  segs.any fun s => decide (s.flags &&& pfX ≠ 0 ∧ entry ≥ s.vaExact ∧ entry < s.vaLast)

def checkHeader (arch len : Nat) (eh : Header) : Option ElfResult :=
  if eh.magic ≠ elfMagic then some .notAnElf
  else if eh.class_ ≠ elfClass64 ∨ eh.data ≠ elfData2Lsb then some .wrongClass
  else if eh.machine ≠ arch then some .wrongMachine
  else if eh.type ≠ etExec then some .notExecutable
  else if eh.phentsize ≠ phdrSize ∨ eh.phnum = 0 then some .badPhdrs
  else if ¬insideFile eh.phoff (eh.phnum * phdrSize) len then some .badPhdrs
  else none

def inspect (arch : Nat) (image : Image) : Option (Except ElfResult (List Segment × Nat)) :=
  if image.length < headerSize then some (.error .tooSmall)
  else
    match image.header with
    | none => none
    | some eh =>
      match checkHeader arch image.length eh with
      | some r => some (.error r)
      | none =>
        match scan image eh.phoff eh.phnum 0 [] with
        | none => none
        | some (.error r) => some (.error r)
        | some (.ok segs) =>
          if segs.isEmpty then some (.error .noSegments)
          else if entryInCode eh.entry segs then some (.ok (segs, eh.entry))
          else some (.error .entryNotInCode)

/-! ## Put it there -/

/-- What the rest of the kernel answers during one load: the machine number, the page that the
`n`th `pmm_alloc_page` gives, never one it gave before, and whether the `n`th `addrspace_map` finds
memory for its tables. -/
structure Machine where
  arch : Nat
  page : Nat → Option Nat
  fresh : ∀ i j f, page i = some f → page j = some f → i = j
  maps : Nat → Bool

/-- A page table's entry. -/
structure Entry where
  frame : Nat
  flags : VmFlags
  deriving DecidableEq, Repr

/-- Physical memory, frame by frame; the address space, page number by page number; how many pages
have been asked for; and those the load has not given back. -/
structure World where
  memory : Nat → Nat → UInt8
  space : Nat → Option Entry
  calls : Nat
  held : List Nat

namespace World

def take (w : World) (frame : Nat) : World :=
  { w with calls := w.calls + 1, held := frame :: w.held }

def freePage (w : World) (frame : Nat) : World := { w with held := w.held.erase frame }

/-- `kmemset(at, 0, PAGE_SIZE)`. -/
def clear (w : World) (frame : Nat) : World :=
  { w with memory := fun f i => if f = frame ∧ i < pageSize then 0 else w.memory f i }

/-- `kmemcpy(at + start, image + source, n)`. -/
def copy (w : World) (image : Image) (frame start source n : Nat) : Option World :=
  if start + n ≤ pageSize then
    (image.slice source n).map fun bytes =>
      { w with
        memory := fun f i =>
          if f = frame ∧ start ≤ i ∧ i < start + n then bytes.getD (i - start) 0 else w.memory f i }
  else none

def map (w : World) (va frame : Nat) (flags : VmFlags) : World :=
  { w with space := fun p => if p = va / pageSize then some ⟨frame, flags⟩ else w.space p }

end World

variable (m : Machine) (image : Image)

/-- The part of the page at `va` that the file has bytes for. -/
def fill (s : Segment) (va frame : Nat) (w : World) : Option World :=
  let wantTo := (s.vaExact + s.fileBytes) % u64Size
  let start := if s.vaExact > va then s.vaExact else va
  let stop := if wantTo < (va + pageSize) % u64Size then wantTo else (va + pageSize) % u64Size
  if stop > start then
    w.copy image frame (start - va) (s.fileOffset + (start - s.vaExact)) (stop - start)
  else some w

def placePage (s : Segment) (va : Nat) (w : World) : Option (ElfResult × World) :=
  match m.page w.calls with
  | none => some (.noMemory, { w with calls := w.calls + 1 })
  | some frame =>
    match fill image s va frame ((w.take frame).clear frame) with
    | none => none
    | some filled =>
      if m.maps w.calls then some (.ok, filled.map va frame (vmFlagsOf s.flags))
      else some (.noMemory, filled.freePage frame)

/-- The pages of one segment from `va` on. -/
def placeFrom (s : Segment) : Nat → Nat → World → Option (ElfResult × World)
  | 0, _, _ => none
  | fuel + 1, va, w =>
    if va < s.vaLast then
      match placePage m image s va w with
      | some (.ok, w) => placeFrom s fuel ((va + pageSize) % u64Size) w
      | other => other
    else some (.ok, w)

def place : List Segment → World → Option (ElfResult × World)
  | [], w => some (.ok, w)
  | s :: rest, w =>
    match placeFrom m image s ((s.vaLast - s.vaFirst) / pageSize + 1) s.vaFirst w with
    | some (.ok, w) => place rest w
    | other => other

/-- The result, what the load leaves, and the entry point if there is one. `space` says whether
there is an address space to load into. -/
def elfLoad (space : Bool) (image : Option Image) (w : World) :
    Option (ElfResult × World × Option Nat) :=
  match space, image with
  | true, some image =>
    match inspect m.arch image with
    | none => none
    | some (.error r) => some (r, w, none)
    | some (.ok (segs, entry)) =>
      match place m image segs w with
      | none => none
      | some (.ok, w) => some (.ok, w, some entry)
      | some (r, w) => some (r, w, none)
  | _, _ => some (.tooSmall, w, none)

end ReconOS.Elf
