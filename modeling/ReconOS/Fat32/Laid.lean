import ReconOS.Fat32.Format
import ReconOS.Gpt.Encode

/-! What stands on the disk after a volume was laid down, and the geometry that is read from it. -/
namespace ReconOS.Fat32
open Gpt Lib Prog

variable {m : Machine} {w w' : World} {l : Layout} {label : Option Bytes}

/-! ## The fields of the boot sector -/

section Fields

variable {p q : Bytes} {o o' v : Nat} {bytes : List UInt8}

theorem le16_congr (same : ∀ i, o ≤ i → i < o + 2 → p i = q i) : p.le16 o = q.le16 o := by
  unfold Bytes.le16
  rw [same o (by omega) (by omega), same (o + 1) (by omega) (by omega)]

theorem le16_copy (apart : o' + 2 ≤ o ∨ o + bytes.length ≤ o') :
    (p.copy o bytes).le16 o' = p.le16 o' :=
  le16_congr fun _ _ _ => Bytes.copy_out (by omega)

theorem le16_put16_of_apart (apart : o' + 2 ≤ o ∨ o + 2 ≤ o') :
    (put16 p o v).le16 o' = p.le16 o' := le16_copy (by simpa using apart)

theorem le16_put32_of_apart (apart : o' + 2 ≤ o ∨ o + 4 ≤ o') :
    (p.put32 o v).le16 o' = p.le16 o' := le16_copy (by simpa using apart)

theorem le32_put16_of_apart (apart : o' + 4 ≤ o ∨ o + 2 ≤ o') :
    (put16 p o v).le32 o' = p.le32 o' := Bytes.le32_copy (by simpa using apart)

theorem put16_out (apart : o' + 1 ≤ o ∨ o + 2 ≤ o') : put16 p o v o' = p o' :=
  Bytes.copy_out (by simp only [Bytes.ofNumber_length]; omega)

theorem put32_out (apart : o' + 1 ≤ o ∨ o + 4 ≤ o') : p.put32 o v o' = p o' :=
  Bytes.copy_out (by simp only [Bytes.ofNumber_length]; omega)

theorem copy_apart (apart : o' + 1 ≤ o ∨ o + bytes.length ≤ o') : p.copy o bytes o' = p o' :=
  Bytes.copy_out (by omega)

theorem copy_byte (b : UInt8) : p.copy o [b] o = b := by
  rw [Bytes.copy_in (Nat.le_refl o) (by simp)]
  simp

theorem le16_put16 (p : Bytes) (o v : Nat) : (put16 p o v).le16 o = v % 0x10000 := by
  have byte := Bytes.copy_ofNumber p o 2 v
  have b0 := byte 0 (by decide)
  have b1 := byte 1 (by decide)
  unfold Bytes.le16 put16
  rw [Nat.add_zero] at b0
  rw [b0, b1]
  omega

theorem le16_bytes (a b : UInt8) : (p.copy o [a, b]).le16 o = a.toNat + 0x100 * b.toNat := by
  unfold Bytes.le16
  rw [Bytes.copy_in (Nat.le_refl o) (by simp), Bytes.copy_in (Nat.le_add_right o 1) (by simp)]
  simp

@[simp] theorem labelBytes_length (label : Option Bytes) : (labelBytes label).length = 11 := by
  simp [labelBytes]

end Fields

/-- What is read of the boot sector is what was meant by it. -/
theorem boot_of_bootSector (total bps : Nat) (l : Layout) (label : Option Bytes) :
    Boot.of (bootSector total bps l label) =
      { signature := 0xAA55
        bytesPerSector := bps % 0x10000
        sectorsPerCluster := l.spc % 0x100
        fatCount := 2
        fatStart := 32
        rootEntries := 0
        fatSz := l.fatSectors % u32Size
        totSec := min total 0xFFFFFFFF
        rootCluster := 2 } := by
  unfold Boot.of bootSector
  simp (disch := simp) only [le16_copy, le16_put16_of_apart, le16_put32_of_apart, le16_put16,
    le32_put16_of_apart, Bytes.le32_put32_of_apart, Bytes.le32_copy, Bytes.le32_put32, put16_out,
    put32_out, copy_apart, copy_byte, le16_bytes]
  have sectors : (if 0xFFFFFFFF < total then 0xFFFFFFFF else total) % u32Size =
      min total 0xFFFFFFFF := by
    unfold u32Size
    split <;> omega
  have cluster : (UInt8.ofNat l.spc).toNat = l.spc % 0x100 := UInt8.toNat_ofNat
  have no (a : Nat) : (if 0 % 0x10000 ≠ 0 then 0 % 0x10000 else a) = a := if_neg (by decide)
  rw [sectors, cluster, no, no]
  rfl

/-! ## One write -/

theorem blockWrite_ok {lba count : Nat} {buf : Bytes} {u : Unit}
    (is : blockWrite m lba count buf w = (.ok u, w')) :
    m.InRange lba count ∧ w'.block = (fun l => if lba ≤ l ∧ l < lba + count then
      fun i => buf ((l - lba) * m.blockSize + i) else w.block l) ∧ w'.asked = w.asked := by
  unfold blockWrite at is
  dsimp only at is
  split at is
  case isFalse => cases is
  case isTrue can =>
    cases is
    exact ⟨can.1, rfl, rfl⟩

/-- Blocks that are none of those written are as they were. -/
theorem blockWrite_same {lba count k : Nat} {buf : Bytes} {u : Unit}
    (is : blockWrite m lba count buf w = (.ok u, w')) (apart : k < lba ∨ lba + count ≤ k) :
    w'.block k = w.block k := by
  rw [(blockWrite_ok is).2.1]
  exact if_neg (by omega)

theorem blockWrite_one {lba : Nat} {buf : Bytes} {u : Unit}
    (is : blockWrite m lba 1 buf w = (.ok u, w')) : w'.block lba = buf := by
  rw [(blockWrite_ok is).2.1]
  dsimp only
  rw [if_pos ⟨Nat.le_refl _, Nat.lt_succ_self _⟩, Nat.sub_self]
  funext i
  rw [Nat.zero_mul, Nat.zero_add]

/-- A fill leaves its buffer in every block, where that is one block or nothing but zeroes. -/
theorem writeFill_ok {data : Bytes} {chunk lba stop fuel s : Nat} {u : Unit}
    (plain : chunk = 1 ∨ data = Bytes.zeros)
    (is : writeFill m data chunk lba stop fuel s w = (.ok u, w')) :
    (∀ k, lba + s ≤ k → k < lba + stop → w'.block k = data) ∧
      ∀ k, k < lba + s ∨ lba + stop ≤ k → w'.block k = w.block k := by
  induction fuel generalizing s w with
  | zero => cases is
  | succ fuel ih =>
    unfold writeFill at is
    split at is
    case isTrue over' =>
      cases is
      refine ⟨fun k from_ before => ?_, fun _ _ => rfl⟩
      omega
    case isFalse more =>
      obtain ⟨_, w₁, first, rest⟩ := bind_eq_ok.mp is
      obtain ⟨filled, same⟩ := ih rest
      refine ⟨fun k from_ before => ?_, fun k apart => ?_⟩
      · by_cases later : lba + (s + min (stop - s) chunk) ≤ k
        · exact filled k later before
        · rw [same k (.inl (by omega)), (blockWrite_ok first).2.1]
          dsimp only
          rw [if_pos ⟨from_, by omega⟩]
          funext i
          cases plain with
          | inl one =>
            have here : k - (lba + s) = 0 := by omega
            rw [here, Nat.zero_mul, Nat.zero_add]
          | inr zeros => rw [zeros]; rfl
      · rw [same k (by omega), blockWrite_same first (by omega)]

/-! ## The volume -/

/-- What a sector of the table holds after its first. -/
def fillOf (zeros : Bool) : Bytes := if zeros = true then Bytes.zeros else tableHead

theorem fill_plain (m : Machine) (zeros : Bool) :
    zeroSectors m zeros = 1 ∨ fillOf zeros = Bytes.zeros := by
  cases zeros with
  | true => exact .inr rfl
  | false => exact .inl rfl

theorem zeros_plain (chunk : Nat) : chunk = 1 ∨ Bytes.zeros = Bytes.zeros := .inr rfl

theorem writeTable_ok {fuel fatSectors i : Nat} {zeros : Bool} {u : Unit} (some : 0 < fatSectors)
    (is : writeTable m fuel zeros fatSectors i w = (.ok u, w')) :
    w'.block (reservedSectors + i * fatSectors) = tableHead ∧
      (∀ s, 0 < s → s < fatSectors →
        w'.block (reservedSectors + i * fatSectors + s) = fillOf zeros) ∧
      ∀ k, k < reservedSectors + i * fatSectors ∨ reservedSectors + (i + 1) * fatSectors ≤ k →
        w'.block k = w.block k := by
  obtain ⟨_, w₁, head, fill⟩ := bind_eq_ok.mp is
  obtain ⟨filled, same⟩ := writeFill_ok (fill_plain m zeros) fill
  rw [Nat.succ_mul]
  refine ⟨?_, fun s from_ before => filled _ (by omega) (by omega), fun k apart => ?_⟩
  · rw [same _ (by omega), blockWrite_one head]
  · rw [same k (by omega), blockWrite_same head (by omega)]

/-- What the disk holds of a volume. -/
structure Laid (m : Machine) (zeros : Bool) (l : Layout) (label : Option Bytes)
    (block : Nat → Bytes) : Prop where
  boot : block 0 = bootSector m.blockCount m.blockSize l label
  head : ∀ i < 2, block (reservedSectors + i * l.fatSectors) = tableHead
  fill : ∀ i < 2, ∀ s, 0 < s → s < l.fatSectors →
    block (reservedSectors + i * l.fatSectors + s) = fillOf zeros
  root : ∀ s < l.spc, block (reservedSectors + l.fatSectors * 2 + s) = Bytes.zeros

theorem writeVolume_ok {fuel : Nat} {zeros : Bool} {u : Unit} (some : 0 < l.fatSectors)
    (is : writeVolume m fuel zeros l label w = (.ok u, w')) : Laid m zeros l label w'.block := by
  obtain ⟨_, w₁, boot, is⟩ := bind_eq_ok.mp is
  obtain ⟨_, w₂, backup, is⟩ := bind_eq_ok.mp is
  obtain ⟨_, w₃, info, is⟩ := bind_eq_ok.mp is
  obtain ⟨_, w₄, backupInfo, is⟩ := bind_eq_ok.mp is
  obtain ⟨_, w₅, table, is⟩ := bind_eq_ok.mp is
  obtain ⟨_, w₆, copy, is⟩ := bind_eq_ok.mp is
  obtain ⟨_, w₇, root, flush⟩ := bind_eq_ok.mp is
  obtain ⟨head, fill, sameTable⟩ := writeTable_ok some table
  obtain ⟨head', fill', sameCopy⟩ := writeTable_ok some copy
  obtain ⟨zeroed, sameRoot⟩ := writeFill_ok (zeros_plain _) root
  have flushed : w'.block = w₇.block := by
    unfold blockFlush at flush
    dsimp only at flush
    split at flush
    · cases flush
      rfl
    · cases flush
  rw [Nat.one_mul] at head' fill' sameCopy
  rw [Nat.zero_mul, Nat.add_zero] at head fill sameTable
  rw [Nat.add_zero] at zeroed sameRoot
  rw [Nat.zero_add, Nat.one_mul] at sameTable
  rw [flushed]
  constructor
  case boot =>
    unfold reservedSectors at *
    rw [sameRoot 0 (by omega), sameCopy 0 (by omega), sameTable 0 (by omega),
      blockWrite_same backupInfo (.inl (by decide)), blockWrite_same info (.inl (by decide)),
      blockWrite_same backup (.inl (by decide)), blockWrite_one boot]
  case head =>
    intro i two
    cases i with
    | zero =>
      rw [Nat.zero_mul, Nat.add_zero, sameRoot _ (by omega), sameCopy _ (by omega), head]
    | succ i =>
      obtain rfl : i = 0 := by omega
      rw [Nat.zero_add, Nat.one_mul, sameRoot _ (by omega), head']
  case fill =>
    intro i two s from_ before
    cases i with
    | zero =>
      rw [Nat.zero_mul, Nat.add_zero, sameRoot _ (by omega), sameCopy _ (by omega),
        fill s from_ before]
    | succ i =>
      obtain rfl : i = 0 := by omega
      rw [Nat.zero_add, Nat.one_mul, sameRoot _ (by omega), fill' s from_ before]
  case root =>
    intro s before
    exact zeroed _ (by omega) (by omega)

/-- A format that ends well: its device, its sizes, and what it leaves. -/
theorem format_ok {fuel : Nat} {u : Unit} (is : format m fuel label w = (.ok u, w')) :
    512 ≤ m.blockSize ∧ OneBit m.blockSize ∧
      ∃ l, Sizes m.blockCount m.blockSize l ∧
        Laid m (m.heap (w.asked + 1)) l label w'.block := by
  unfold format at is
  split at is
  case isTrue => cases is
  case isFalse device =>
    rw [not_or, not_not, Nat.not_lt] at device
    refine ⟨device.1, device.2, ?_⟩
    cases found : layout m.blockCount m.blockSize 7 (clustersFor m.blockCount) with
    | none =>
      rw [found] at is
      cases is
    | some l =>
      rw [found] at is
      dsimp only at is
      split at is
      case isTrue => cases is
      case isFalse few =>
        have sizes := sizes_of_layout device.1 m.sizeFits m.countFits found (Nat.le_of_not_lt few)
        have table := (sizes.table device.1).1
        obtain ⟨room, w₁, first, is⟩ := bind_eq_ok.mp is
        cases first
        split at is
        case isFalse => cases is
        case isTrue =>
          obtain ⟨zeros, w₂, second, is⟩ := bind_eq_ok.mp is
          cases second
          exact ⟨l, sizes, writeVolume_ok table is⟩

end ReconOS.Fat32
