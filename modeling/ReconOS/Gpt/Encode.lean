import ReconOS.Gpt.Blank
import ReconOS.Gpt.Write

/-! What is written reads back: numbers, headers and arrays. -/
namespace ReconOS.Gpt

namespace Bytes

variable {p q : Bytes} {o o' i n v : Nat} {l : List UInt8}

/-! ## Bytes -/

theorem copy_in (from_ : o ≤ i) (within : i - o < l.length) : p.copy o l i = l[i - o] := by
  unfold copy
  rw [if_pos from_, List.getElem?_eq_getElem within]
  rfl

theorem copy_out (apart : i < o ∨ o + l.length ≤ i) : p.copy o l i = p i := by
  unfold copy
  split
  · rw [List.getElem?_eq_none (by omega)]
    rfl
  · rfl

@[simp] theorem ofNumber_length (n v : Nat) : (ofNumber n v).length = n := by
  induction n generalizing v with
  | zero => rfl
  | succ n ih => rw [ofNumber, List.length_cons, ih]

@[simp] theorem slice_length (p : Bytes) (o n : Nat) : (p.slice o n).length = n := by
  simp [slice]

theorem slice_getElem (p : Bytes) (o n i : Nat) (less : i < (p.slice o n).length) :
    (p.slice o n)[i] = p (o + i) := by
  simp [slice]

theorem slice_between (same : ∀ i, o ≤ i → i < o + n → p i = q i) : p.slice o n = q.slice o n := by
  apply List.map_congr_left
  intro i mem
  exact same _ (Nat.le_add_right o i) (Nat.add_lt_add_left (List.mem_range.1 mem) o)

theorem slice_add (p : Bytes) (o m n : Nat) : p.slice o (m + n) = p.slice o m ++ p.slice (o + m) n := by
  unfold slice
  rw [List.range_add, List.map_append, List.map_map]
  congr 1
  apply List.map_congr_left
  intro i _
  exact congrArg p (Nat.add_assoc o m i).symm

theorem slice_copy (p : Bytes) (o : Nat) (l : List UInt8) : (p.copy o l).slice o l.length = l := by
  apply List.ext_getElem (slice_length ..)
  intro i h h'
  rw [slice_getElem, copy_in (Nat.le_add_right o i) (by omega)]
  simp only [Nat.add_sub_cancel_left]

/-! ## Numbers -/

theorem le32_between (same : ∀ i, o ≤ i → i < o + 4 → p i = q i) : p.le32 o = q.le32 o := by
  simp only [le32, le16]
  rw [same o (by omega) (by omega), same (o + 1) (by omega) (by omega),
    same (o + 2) (by omega) (by omega), same (o + 2 + 1) (by omega) (by omega)]

theorem le64_between (same : ∀ i, o ≤ i → i < o + 8 → p i = q i) : p.le64 o = q.le64 o := by
  unfold le64
  rw [le32_between fun i from_ to_ => same i from_ (by omega),
    le32_between (o := o + 4) fun i from_ to_ => same i (by omega) (by omega)]

theorem le32_copy (apart : o' + 4 ≤ o ∨ o + l.length ≤ o') : (p.copy o l).le32 o' = p.le32 o' :=
  le32_between fun _ _ _ => copy_out (by omega)

theorem le64_copy (apart : o' + 8 ≤ o ∨ o + l.length ≤ o') : (p.copy o l).le64 o' = p.le64 o' :=
  le64_between fun _ _ _ => copy_out (by omega)

theorem le32_put32_of_apart (apart : o' + 4 ≤ o ∨ o + 4 ≤ o') : (p.put32 o v).le32 o' = p.le32 o' :=
  le32_copy (by simpa using apart)

theorem le32_put64_of_apart (apart : o' + 4 ≤ o ∨ o + 8 ≤ o') : (p.put64 o v).le32 o' = p.le32 o' :=
  le32_copy (by simpa using apart)

theorem le64_put32_of_apart (apart : o' + 8 ≤ o ∨ o + 4 ≤ o') : (p.put32 o v).le64 o' = p.le64 o' :=
  le64_copy (by simpa using apart)

theorem le64_put64_of_apart (apart : o' + 8 ≤ o ∨ o + 8 ≤ o') : (p.put64 o v).le64 o' = p.le64 o' :=
  le64_copy (by simpa using apart)

/-- The bytes of a number, put at an offset. -/
theorem copy_ofNumber (p : Bytes) (o n v k : Nat) (less : k < n) :
    ((p.copy o (ofNumber n v)) (o + k)).toNat = v / 0x100 ^ k % 0x100 := by
  have each : ∀ (n v k : Nat) (_ : k < (ofNumber n v).length),
      ((ofNumber n v)[k]).toNat = v / 0x100 ^ k % 0x100 := by
    intro n
    induction n with
    | zero => intro v k less; cases less
    | succ n ih =>
      intro v k less
      cases k with
      | zero => simp [ofNumber]
      | succ k =>
        simp only [ofNumber, List.getElem_cons_succ]
        rw [ih, Nat.div_div_eq_div_mul, Nat.pow_succ, Nat.mul_comm (0x100 ^ k)]
  rw [copy_in (Nat.le_add_right o k) (by rw [ofNumber_length]; omega)]
  simp only [Nat.add_sub_cancel_left]
  exact each n v k _

theorem le32_put32 (p : Bytes) (o v : Nat) : (p.put32 o v).le32 o = v % u32Size := by
  have byte := copy_ofNumber p o 4 v
  have b0 := byte 0 (by decide)
  have b1 := byte 1 (by decide)
  have b2 := byte 2 (by decide)
  have b3 := byte 3 (by decide)
  simp only [Nat.reducePow, Nat.add_zero] at b0 b1 b2 b3
  show (p.put32 o v o).toNat + 0x100 * (p.put32 o v (o + 1)).toNat +
    0x10000 * ((p.put32 o v (o + 2)).toNat + 0x100 * (p.put32 o v (o + 3)).toNat) = _
  unfold put32
  rw [b0, b1, b2, b3, u32Size]
  omega

theorem le64_put64 (p : Bytes) (o v : Nat) : (p.put64 o v).le64 o = v % u64Size := by
  have byte := copy_ofNumber p o 8 v
  have low : (p.put64 o v).le32 o = v % u32Size := by
    have b0 := byte 0 (by decide)
    have b1 := byte 1 (by decide)
    have b2 := byte 2 (by decide)
    have b3 := byte 3 (by decide)
    simp only [Nat.reducePow, Nat.add_zero] at b0 b1 b2 b3
    show (p.put64 o v o).toNat + 0x100 * (p.put64 o v (o + 1)).toNat +
      0x10000 * ((p.put64 o v (o + 2)).toNat + 0x100 * (p.put64 o v (o + 3)).toNat) = _
    unfold put64
    rw [b0, b1, b2, b3, u32Size]
    omega
  have high : (p.put64 o v).le32 (o + 4) = v / u32Size % u32Size := by
    have b4 := byte 4 (by decide)
    have b5 := byte 5 (by decide)
    have b6 := byte 6 (by decide)
    have b7 := byte 7 (by decide)
    simp only [Nat.reducePow] at b4 b5 b6 b7
    show (p.put64 o v (o + 4)).toNat + 0x100 * (p.put64 o v (o + 5)).toNat +
      0x10000 * ((p.put64 o v (o + 6)).toNat + 0x100 * (p.put64 o v (o + 7)).toNat) = _
    unfold put64
    rw [b4, b5, b6, b7, u32Size]
    omega
  unfold le64
  rw [low, high, u32Size, u64Size]
  omega

end Bytes

/-! ## The checksum -/

theorem crcBit_lt {x : Nat} (small : x < 0x100000000) : crcBit x < 0x100000000 := by
  unfold crcBit
  split
  · exact Nat.xor_lt_two_pow (n := 32) (by omega) (by decide)
  · omega

theorem crc32Update_lt {running : Nat} (l : List UInt8) (small : running < 0x100000000) :
    crc32Update running l < 0x100000000 := by
  induction l generalizing running with
  | nil => exact small
  | cons b rest ih =>
    have byte := b.toNat_lt
    have mixed : running ^^^ b.toNat < 0x100000000 :=
      Nat.xor_lt_two_pow (n := 32) small (by omega)
    unfold crc32Update
    rw [List.foldl_cons]
    exact ih (crcBit_lt (crcBit_lt (crcBit_lt (crcBit_lt (crcBit_lt (crcBit_lt (crcBit_lt
      (crcBit_lt mixed))))))))

theorem crc32_lt (l : List UInt8) : crc32 l < u32Size :=
  Nat.xor_lt_two_pow (n := 32) (crc32Update_lt l (by decide)) (by decide)

theorem crc32Update_append (running : Nat) (a b : List UInt8) :
    crc32Update running (a ++ b) = crc32Update (crc32Update running a) b := List.foldl_append ..

/-! ## The header -/

theorem headerCrc_put (sector : Bytes) (crc : Nat) :
    headerCrc (sector.put32 16 crc) 92 = crc32 ((sector.put32 16 0).slice 0 92) := by
  have zero : (sector.put32 16 0).slice 16 4 = [0, 0, 0, 0] := Bytes.slice_copy sector 16 _
  rw [show (92 : Nat) = 16 + (4 + 72) from rfl, Bytes.slice_add, Bytes.slice_add, crc32, headerCrc,
    crc32Update_append, crc32Update_append, zero]
  have before : ∀ v, (sector.put32 16 v).slice 0 16 = sector.slice 0 16 := by
    intro v
    exact Bytes.slice_between fun i _ to_ => Bytes.copy_out (.inl (by omega))
  have after : ∀ v, (sector.put32 16 v).slice 20 72 = sector.slice 20 72 := by
    intro v
    exact Bytes.slice_between fun i from_ _ => Bytes.copy_out (.inr (by simpa using from_))
  rw [before, before, after]
  exact congrArg _ (congrArg _ (after 0).symm)

/-- What a header's fields have to be for the scan to believe it. -/
structure Table.Fits (t : Table) : Prop where
  guid : t.diskGuid.length = 16
  entries : 0 < t.entryCount
  count : t.entryCount ≤ 128
  least : 128 ≤ t.entrySize
  most : t.entrySize ≤ gptMaxEntrySize

variable {t : Table} {blockSize myLba altLba entryLba crc : Nat}

open Bytes in
/-- The scan believes a header that the installer built, and finds in it what was put there. -/
theorem buildHeader_ok (fits : t.Fits) (size : 92 ≤ blockSize) (my : myLba < u64Size)
    (entry : entryLba < u64Size) (sum : crc < u32Size) :
    headerOk (buildHeader t myLba altLba entryLba crc) blockSize myLba =
      some ⟨entryLba, t.entryCount, t.entrySize, crc⟩ := by
  have guid := fits.guid
  have u64 : u64Size = 18446744073709551616 := rfl
  have count : t.entryCount % u32Size = t.entryCount := by
    have := fits.count
    exact Nat.mod_eq_of_lt (by simp only [u32Size]; omega)
  have stride : t.entrySize % u32Size = t.entrySize := by
    have := fits.most
    exact Nat.mod_eq_of_lt (by simp only [u32Size, gptMaxEntrySize] at *; omega)
  let fields := headerFields t myLba altLba entryLba crc
  let hdr := buildHeader t myLba altLba entryLba crc
  have out : ∀ o, o + 4 ≤ 16 ∨ 20 ≤ o → hdr.le32 o = fields.le32 o :=
    fun o apart => le32_put32_of_apart apart
  have out64 : ∀ o, o + 8 ≤ 16 ∨ 20 ≤ o → hdr.le64 o = fields.le64 o :=
    fun o apart => le64_put32_of_apart apart
  have sig0 : hdr.le32 0 = gptSignature0 := by
    rw [out 0 (by decide)]
    simp (disch := omega) only [fields, headerFields, le32_put32_of_apart, le32_put64_of_apart,
      le32_copy]
    decide
  have sig1 : hdr.le32 4 = gptSignature1 := by
    rw [out 4 (by decide)]
    simp (disch := omega) only [fields, headerFields, le32_put32_of_apart, le32_put64_of_apart,
      le32_copy]
    decide
  have length : hdr.le32 12 = 92 := by
    rw [out 12 (by decide)]
    simp (disch := omega) only [fields, headerFields, le32_put32_of_apart, le32_put64_of_apart,
      le32_copy]
    exact le32_put32 ..
  have own : hdr.le64 24 = myLba := by
    rw [out64 24 (by decide)]
    simp (disch := omega) only [fields, headerFields, le64_put32_of_apart, le64_put64_of_apart,
      le64_copy]
    exact (le64_put64 ..).trans (Nat.mod_eq_of_lt my)
  have fields_eq : Header.of hdr = ⟨entryLba, t.entryCount, t.entrySize, crc⟩ := by
    have lba : hdr.le64 72 = entryLba := by
      rw [out64 72 (by decide)]
      simp (disch := omega) only [fields, headerFields, le64_put32_of_apart]
      exact (le64_put64 ..).trans (Nat.mod_eq_of_lt entry)
    have number : hdr.le32 80 = t.entryCount := by
      rw [out 80 (by decide)]
      simp (disch := omega) only [fields, headerFields, le32_put32_of_apart]
      exact (le32_put32 ..).trans count
    have step : hdr.le32 84 = t.entrySize := by
      rw [out 84 (by decide)]
      simp (disch := omega) only [fields, headerFields, le32_put32_of_apart]
      exact (le32_put32 ..).trans stride
    have check : hdr.le32 88 = crc := by
      rw [out 88 (by decide)]
      exact (le32_put32 ..).trans (Nat.mod_eq_of_lt sum)
    rw [Header.of, lba, number, step, check]
  have crc_eq : headerCrc hdr 92 = hdr.le32 16 := by
    have stored : hdr.le32 16 = crc32 ((fields.put32 16 0).slice 0 92) :=
      (le32_put32 ..).trans (Nat.mod_eq_of_lt (crc32_lt _))
    rw [stored]
    exact headerCrc_put _ _
  show headerOk hdr blockSize myLba = _
  unfold headerOk
  rw [if_neg (by rw [sig0, sig1]; simp), length, if_neg (by omega), if_neg (by rw [own]; simp),
    if_neg (by rw [crc_eq]; simp), fields_eq]
  dsimp only
  have least := fits.least
  have most := fits.most
  have some_ := fits.entries
  have number := fits.count
  rw [if_neg (by omega), if_neg (by simp only [gptMaxEntries]; omega)]

end ReconOS.Gpt
