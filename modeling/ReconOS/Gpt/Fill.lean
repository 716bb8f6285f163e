import ReconOS.Gpt.Encode
import Mathlib.Data.List.Forall2

/-! Filling partitions into the unused slots of a table. -/
namespace ReconOS.Gpt

open Bytes

variable {d : Disk} {old mid new : Bytes} {count size i j e : Nat} {g : Guids} {guid : List UInt8}
  {part : Part} {parts : List Part} {slots : List Nat}

/-! ## One entry -/

/-- A partition that an entry can hold. -/
structure Part.Fits (p : Part) : Prop where
  type : p.type.length = 16
  named : p.type.all (· == 0) = false
  blocks : 0 < p.extent.count
  small : p.extent.first + p.extent.count < u64Size

/-- A slot holds a partition. -/
structure Holds (entries : Bytes) (size slot : Nat) (p : Part) : Prop where
  type : entries.slice (slot * size) 16 = p.type
  entry : entryAt entries size slot =
    ⟨true, p.extent.first, p.extent.first + p.extent.count - 1⟩

theorem wide_length (name : List UInt8) : (wide name).length ≤ 70 := by
  unfold wide
  rw [List.length_flatMap]
  have each : ∀ l : List UInt8, (l.map fun _ => 2).sum = 2 * l.length := by
    intro l
    induction l with
    | nil => rfl
    | cons b rest ih =>
      rw [List.map_cons, List.sum_cons, ih, List.length_cons]
      omega
  show ((name.take 35).map fun _ => 2).sum ≤ 70
  rw [each, List.length_take]
  omega

theorem clear_out {p : Bytes} {o n : Nat} (apart : i < o ∨ o + n ≤ i) : p.clear o n i = p i := by
  unfold Bytes.clear
  rw [if_neg (by omega)]

/-- Past its first 128 bytes an entry is left as it was, and so is everything else. -/
theorem fillEntry_out (fits : part.Fits) (length : guid.length = 16)
    (apart : i < e ∨ e + 128 ≤ i) : fillEntry old e guid part i = old i := by
  have type := fits.type
  have name := wide_length part.name
  simp only [fillEntry, put64]
  rw [copy_out (by omega), copy_out (by simp only [ofNumber_length]; omega),
    copy_out (by simp only [ofNumber_length]; omega), copy_out (by omega), copy_out (by omega),
    clear_out apart]

theorem fillEntry_holds (fits : part.Fits) (at_ : e = i * size) :
    Holds (fillEntry old e guid part) size i part := by
  have type := fits.type
  have small := fits.small
  have blocks := fits.blocks
  have slice_out : ∀ (p : Bytes) (o : Nat) (l : List UInt8), e + 16 ≤ o →
      (p.copy o l).slice e 16 = p.slice e 16 := by
    intro p o l after
    exact slice_between fun i _ to_ => copy_out (.inl (by omega))
  have types : (fillEntry old e guid part).slice e 16 = part.type := by
    simp only [fillEntry, put64]
    rw [slice_out _ _ _ (by omega), slice_out _ _ _ (by omega), slice_out _ _ _ (by omega),
      slice_out _ _ _ (by omega), ← type]
    exact slice_copy ..
  have first : (fillEntry old e guid part).le64 (e + 32) = part.extent.first := by
    simp only [fillEntry]
    rw [le64_copy (by omega), le64_put64_of_apart (by omega), le64_put64]
    exact Nat.mod_eq_of_lt (by omega)
  have last : (fillEntry old e guid part).le64 (e + 40) =
      part.extent.first + part.extent.count - 1 := by
    simp only [fillEntry]
    rw [le64_copy (by omega), le64_put64, Nat.mod_mod]
    rw [show part.extent.first + part.extent.count + u64Size - 1 =
      part.extent.first + part.extent.count - 1 + u64Size by omega, Nat.add_mod_right]
    exact Nat.mod_eq_of_lt (by omega)
  subst at_
  refine ⟨types, ?_⟩
  unfold entryAt
  dsimp only
  rw [first, last, Bytes.allZero, types, fits.named]
  rfl

/-! ## All of them -/

/-- `new` is `old` with partitions in some of its unused slots. -/
structure FilledIn (old new : Bytes) (count size : Nat) (parts : List Part) (slots : List Nat) :
    Prop where
  each : List.Forall₂ (fun p slot => slot < count ∧ (entryAt old size slot).used = false ∧
    Holds new size slot p) parts slots
  once : slots.Nodup
  kept : ∀ i < count * size,
    (∀ slot ∈ slots, i < slot * size ∨ slot * size + 128 ≤ i) → new i = old i

theorem entryAt_congr (same : ∀ k, i * size ≤ k → k < i * size + 128 → new k = old k) :
    entryAt new size i = entryAt old size i ∧ new.slice (i * size) 16 = old.slice (i * size) 16 := by
  have types : new.slice (i * size) 16 = old.slice (i * size) 16 :=
    slice_between fun k from_ to_ => same k from_ (by omega)
  refine ⟨?_, types⟩
  unfold entryAt Bytes.allZero
  dsimp only
  rw [types, le64_between fun k from_ to_ => same k (by omega) (by omega),
    le64_between (o := i * size + 40) fun k from_ to_ => same k (by omega) (by omega)]

/-- Two slots do not meet. -/
theorem slots_apart (least : 128 ≤ size) (differ : i ≠ j) :
    i * size + 128 ≤ j * size ∨ j * size + 128 ≤ i * size := by
  cases Nat.lt_or_gt_of_ne differ with
  | inl less =>
    have := Nat.mul_le_mul_right size (Nat.succ_le_of_lt less)
    rw [Nat.succ_mul] at this
    omega
  | inr more =>
    have := Nat.mul_le_mul_right size (Nat.succ_le_of_lt more)
    rw [Nat.succ_mul] at this
    omega

theorem slot_within (least : 128 ≤ size) (less : i < count) : i * size + 128 ≤ count * size := by
  have := Nat.mul_le_mul_right size (Nat.succ_le_of_lt less)
  rw [Nat.succ_mul] at this
  omega

theorem FilledIn.congr {old' new' : Bytes} (least : 128 ≤ size)
    (filled : FilledIn old new count size parts slots)
    (sameOld : ∀ i < count * size, old' i = old i) (sameNew : ∀ i < count * size, new' i = new i) :
    FilledIn old' new' count size parts slots where
  each := by
    refine List.forall₂_iff_get.2 ⟨filled.each.length_eq, fun k h h' => ?_⟩
    obtain ⟨less, unused, holds⟩ := filled.each.get h h'
    have within := slot_within least less
    have here : ∀ i, slots.get ⟨k, h'⟩ * size ≤ i → i < slots.get ⟨k, h'⟩ * size + 128 →
        new' i = new i := fun i _ to_ => sameNew i (by omega)
    have before : ∀ i, slots.get ⟨k, h'⟩ * size ≤ i → i < slots.get ⟨k, h'⟩ * size + 128 →
        old' i = old i := fun i _ to_ => sameOld i (by omega)
    obtain ⟨entry, types⟩ := entryAt_congr here
    obtain ⟨was, -⟩ := entryAt_congr before
    exact ⟨less, by rw [was]; exact unused, types.trans holds.type, entry.trans holds.entry⟩
  once := filled.once
  kept i less apart := by
    rw [sameOld i less, sameNew i less]
    exact filled.kept i less apart

theorem makeGuid_length (g : Guids) (d : Disk) : (makeGuid g d).1.length = 16 := by
  simp [makeGuid]

theorem freeSlot_spec (found : freeSlot old count size = some i) :
    i < count ∧ (entryAt old size i).used = false := by
  have mem := List.mem_of_find?_eq_some found
  have zero := List.find?_some found
  refine ⟨List.mem_range.1 mem, ?_⟩
  unfold entryAt
  dsimp only
  rw [zero]
  rfl

theorem fillParts_spec (least : 128 ≤ size) (fits : ∀ p ∈ parts, p.Fits)
    (filled : fillParts d count size old g parts = .ok new) :
    ∃ slots, FilledIn old new count size parts slots := by
  induction parts generalizing old g with
  | nil =>
    cases filled
    exact ⟨[], .nil, .nil, fun _ _ _ => rfl⟩
  | cons part rest ih =>
    unfold fillParts at filled
    split at filled
    · cases filled
    · rename_i slot found
      dsimp only at filled
      obtain ⟨within, unused⟩ := freeSlot_spec found
      have fit := fits part (List.mem_cons_self ..)
      have length := makeGuid_length g d
      obtain ⟨slots, ih⟩ := ih (fun p mem => fits p (List.mem_cons_of_mem part mem)) filled
      let mid := fillEntry old (slot * size) (makeGuid g d).1 part
      have here : Holds mid size slot part := fillEntry_holds fit rfl
      have other : ∀ j, j ≠ slot → entryAt mid size j = entryAt old size j := by
        intro j differ
        refine (entryAt_congr fun k from_ to_ => ?_).1
        have := slots_apart least differ
        exact fillEntry_out fit length (by omega)
      have fresh : slot ∉ slots := by
        intro mem
        obtain ⟨k, less, at_k⟩ := List.mem_iff_getElem.1 mem
        have each := ih.each
        have length := each.length_eq
        have both := each.get (i := k) (by omega) less
        have used : (entryAt mid size slots[k]).used = false := both.2.1
        rw [at_k, here.entry] at used
        cases used
      refine ⟨slot :: slots, .cons ⟨within, unused, ?_⟩ ?_, List.nodup_cons.2 ⟨fresh, ih.once⟩, ?_⟩
      · have same : ∀ k, slot * size ≤ k → k < slot * size + 128 → new k = mid k := by
          intro k from_ to_
          have inside := slot_within least within
          refine ih.kept k (by omega) fun j mem => ?_
          have differ : j ≠ slot := by
            rintro rfl
            exact fresh mem
          have := slots_apart least differ
          omega
        obtain ⟨entry, types⟩ := entryAt_congr same
        exact ⟨types.trans here.type, entry.trans here.entry⟩
      · have mem_slots := ih.each
        refine List.forall₂_iff_get.2 ⟨mem_slots.length_eq, fun k h h' => ?_⟩
        have both := mem_slots.get h h'
        refine ⟨both.1, ?_, both.2.2⟩
        have differ : slots.get ⟨k, h'⟩ ≠ slot := by
          intro same
          exact fresh (same ▸ List.get_mem slots ⟨k, h'⟩)
        rw [← other _ differ]
        exact both.2.1
      · intro k inside apart
        rw [ih.kept k inside fun j mem => apart j (List.mem_cons_of_mem slot mem)]
        exact fillEntry_out fit length (apart slot (List.mem_cons_self ..))

end ReconOS.Gpt
