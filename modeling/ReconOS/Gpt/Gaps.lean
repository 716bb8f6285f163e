import ReconOS.Gpt.Plan
import Mathlib.Data.List.Pairwise

/-! The gaps of a survey, and what a plan takes of them. -/
namespace ReconOS.Gpt

variable {a b e g x : Extent} {l used gaps : List Extent} {cursor last : Nat}

/-! ## Extents -/

namespace Extent

def stop (e : Extent) : Nat := e.first + e.count

/-- `a` ends before `b` begins. -/
def Before (a b : Extent) : Prop := a.stop ≤ b.first

/-- `a` is part of `b`. -/
def Within (a b : Extent) : Prop := b.first ≤ a.first ∧ a.stop ≤ b.stop

/-- No block is in both. -/
def Clear (a b : Extent) : Prop := a.Before b ∨ b.Before a

theorem Within.refl (a : Extent) : a.Within a := ⟨Nat.le_refl _, Nat.le_refl _⟩

theorem Within.trans (h : a.Within b) (k : b.Within e) : a.Within e :=
  ⟨Nat.le_trans k.1 h.1, Nat.le_trans h.2 k.2⟩

theorem Clear.symm (h : a.Clear b) : b.Clear a := Or.symm h

theorem Clear.within (h : a.Clear b) (part : x.Within a) : x.Clear b := by
  cases h with
  | inl before => exact .inl (Nat.le_trans part.2 before)
  | inr after => exact .inr (Nat.le_trans after part.1)

end Extent

open Extent

/-! ## Entries in order -/

theorem mem_insertUsed {key : Extent} : x ∈ insertUsed key l ↔ x = key ∨ x ∈ l := by
  induction l with
  | nil => simp [insertUsed]
  | cons e rest ih =>
    unfold insertUsed
    split
    · rw [List.mem_cons, ih, List.mem_cons]
      exact or_left_comm
    · exact List.mem_cons

theorem mem_sortUsed : x ∈ sortUsed used ↔ x ∈ used := by
  have folded : ∀ sorted : List Extent,
      x ∈ used.foldl (fun sorted key => insertUsed key sorted) sorted ↔ x ∈ sorted ∨ x ∈ used := by
    induction used with
    | nil => simp
    | cons e rest ih =>
      intro sorted
      rw [List.foldl_cons, ih, mem_insertUsed, List.mem_cons, or_assoc, or_left_comm]
  rw [sortUsed, List.mem_reverse, folded]
  simp

/-- No entry is cut short by the next. -/
theorem overlaps_cons (chained : overlaps (a :: l) = false) : overlaps l = false ∧
    ∀ b ∈ l.head?, a.Before b := by
  cases l with
  | nil => exact ⟨rfl, fun _ mem => nomatch mem⟩
  | cons b rest =>
    simp only [overlaps, Bool.or_eq_false_iff, decide_eq_false_iff_not, Nat.not_lt] at chained
    refine ⟨chained.2, ?_⟩
    intro b' mem
    cases Option.mem_some_iff.1 mem
    exact chained.1

/-- Entries in order, from a block on, and none past another. -/
structure InOrder (cursor last : Nat) (l : List Extent) : Prop where
  chained : overlaps l = false
  lower : ∀ e ∈ l.head?, cursor ≤ e.first
  inside : ∀ e ∈ l, e.stop ≤ last + 1

theorem InOrder.tail (order : InOrder cursor last (e :: l)) : InOrder e.stop last l where
  chained := (overlaps_cons order.chained).1
  lower := (overlaps_cons order.chained).2
  inside x mem := order.inside x (List.mem_cons_of_mem e mem)

theorem InOrder.reached (order : InOrder cursor last l) : ∀ e ∈ l, cursor ≤ e.first := by
  induction l generalizing cursor with
  | nil =>
    intro e mem
    cases mem
  | cons a rest ih =>
    intro e mem
    cases List.mem_cons.1 mem with
    | inl same => exact same ▸ order.lower a rfl
    | inr other =>
      have first := order.lower a rfl
      have after := ih order.tail e other
      simp only [stop] at after
      omega

/-- A gap begins where the entries before it have ended, and ends where the next begins. -/
theorem gapsFrom_spec (order : InOrder cursor last l) : ∀ g ∈ gapsFrom last cursor l,
    cursor ≤ g.first ∧ g.stop ≤ last + 1 ∧ ∀ e ∈ l, g.Clear e := by
  induction l generalizing cursor with
  | nil =>
    intro g mem
    unfold gapsFrom at mem
    split at mem
    · cases List.mem_singleton.1 mem
      refine ⟨Nat.le_refl _, ?_, fun e mem => nomatch mem⟩
      simp only [stop]
      omega
    · cases mem
  | cons e rest ih =>
    intro g mem
    have from_ := order.lower e rfl
    have inside := order.inside e (List.mem_cons_self ..)
    have later : ∀ g ∈ gapsFrom last e.stop rest,
        cursor ≤ g.first ∧ g.stop ≤ last + 1 ∧ ∀ x ∈ e :: rest, g.Clear x := by
      intro g mem
      obtain ⟨begins, ends, clear⟩ := ih order.tail g mem
      refine ⟨?_, ends, ?_⟩
      · simp only [stop] at begins
        omega
      · intro x mem
        cases List.mem_cons.1 mem with
        | inl same => exact .inr (same ▸ begins)
        | inr other => exact clear x other
    unfold gapsFrom at mem
    split at mem
    · cases List.mem_cons.1 mem with
      | inl first =>
        subst first
        have ends : Extent.stop ⟨cursor, e.first - cursor⟩ = e.first := by
          simp only [stop]
          omega
        refine ⟨Nat.le_refl _, ?_, ?_⟩
        · rw [ends]
          simp only [stop] at inside
          omega
        · intro x mem_x
          left
          rw [Before, ends]
          cases List.mem_cons.1 mem_x with
          | inl same => exact Nat.le_of_eq (same ▸ rfl)
          | inr other =>
            have after := order.tail.reached x other
            simp only [stop] at after
            omega
      | inr other => exact later g other
    · exact later g mem

theorem gapsFrom_pairwise (order : InOrder cursor last l) :
    (gapsFrom last cursor l).Pairwise Before := by
  induction l generalizing cursor with
  | nil =>
    unfold gapsFrom
    split
    · exact List.pairwise_singleton _ _
    · exact .nil
  | cons e rest ih =>
    have from_ := order.lower e rfl
    unfold gapsFrom
    split
    · refine List.pairwise_cons.2 ⟨?_, ih order.tail⟩
      intro g mem
      have begins := (gapsFrom_spec order.tail g mem).1
      simp only [Before, stop] at begins ⊢
      omega
    · exact ih order.tail

/-! ## What is taken of a gap -/

/-- Rounding a block up to the next megabyte stays in 64 bits. -/
def Low (gaps : List Extent) : Prop := ∀ g ∈ gaps, g.stop + installAlignBlocks < u64Size

theorem alignedFit_spec {need : Nat} (low : g.stop + installAlignBlocks < u64Size)
    (fit : alignedFit g need = some x) :
    x.count = need ∧ x.Within g ∧ x.first % installAlignBlocks = 0 := by
  obtain ⟨first, rounded, least, next, aligned⟩ : ∃ first,
      (if g.first % installAlignBlocks ≠ 0 then
        (g.first + (installAlignBlocks - g.first % installAlignBlocks)) % u64Size
      else g.first) = first ∧ g.first ≤ first ∧ first < g.first + installAlignBlocks ∧
        first % installAlignBlocks = 0 := by
    simp only [stop] at low
    by_cases pad : g.first % installAlignBlocks = 0
    · refine ⟨g.first, if_neg (not_not.2 pad), Nat.le_refl _, ?_, pad⟩
      exact Nat.lt_add_of_pos_right (by decide)
    · refine ⟨_, if_pos pad, ?_⟩
      simp only [installAlignBlocks] at low pad ⊢
      rw [Nat.mod_eq_of_lt (by omega)]
      omega
  unfold alignedFit at fit
  dsimp only at fit
  rw [rounded] at fit
  split at fit
  · cases fit
  · cases fit
    refine ⟨rfl, ⟨least, ?_⟩, aligned⟩
    simp only [stop]
    omega

theorem takeEsp_spec {esp : Extent} {left : List Extent} (low : Low gaps)
    (apart : gaps.Pairwise Before) (taken : takeEsp gaps = some (esp, left)) :
    esp.count = installEspCreate ∧ esp.first % installAlignBlocks = 0 ∧
      (∃ g ∈ gaps, esp.Within g) ∧
      ∀ x ∈ left, x.Clear esp ∧ ∃ g ∈ gaps, x.Within g := by
  induction gaps generalizing left with
  | nil => cases taken
  | cons g rest ih =>
    obtain ⟨before, apart⟩ := List.pairwise_cons.1 apart
    unfold takeEsp at taken
    split at taken
    · rename_i esp' fit
      cases taken
      obtain ⟨count, within, aligned⟩ := alignedFit_spec (low g (List.mem_cons_self ..)) fit
      refine ⟨count, aligned, ⟨g, List.mem_cons_self .., within⟩, ?_⟩
      intro x mem
      cases List.mem_cons.1 mem with
      | inl first =>
        subst first
        refine ⟨.inr (Nat.le_refl _), g, List.mem_cons_self .., ?_⟩
        simp only [Extent.Within, stop] at within ⊢
        omega
      | inr other =>
        refine ⟨.inr ?_, x, List.mem_cons_of_mem g other, Within.refl x⟩
        exact Nat.le_trans within.2 (before x other)
    · obtain ⟨⟨esp', left'⟩, rest_, eq⟩ := Option.map_eq_some_iff.1 taken
      cases eq
      obtain ⟨count, aligned, ⟨h, mem_h, within⟩, clear⟩ :=
        ih (fun x mem => low x (List.mem_cons_of_mem g mem)) apart rest_
      refine ⟨count, aligned, ⟨h, List.mem_cons_of_mem g mem_h, within⟩, ?_⟩
      intro x mem
      cases List.mem_cons.1 mem with
      | inl first =>
        subst first
        exact ⟨.inl (Nat.le_trans (before h mem_h) within.1), x, List.mem_cons_self .., Within.refl x⟩
      | inr other =>
        obtain ⟨apart, k, mem_k, part⟩ := clear x other
        exact ⟨apart, k, List.mem_cons_of_mem g mem_k, part⟩

/-- An extent that starts and ends at a megabyte, with room for both volumes. -/
structure RoomFor (x : Extent) : Prop where
  aligned : x.first % installAlignBlocks = 0
  whole : x.count % installAlignBlocks = 0
  enough : installSystemMin + installProgramsMin ≤ x.count

theorem roomIn_spec (low : g.stop + installAlignBlocks < u64Size) (room : roomIn g = some x) :
    RoomFor x ∧ x.Within g := by
  obtain ⟨got, fit, rfl⟩ := Option.map_eq_some_iff.1 room
  obtain ⟨count, within, aligned⟩ := alignedFit_spec low fit
  have least : installSystemMin = 4194304 := rfl
  have rest : installProgramsMin = 2097152 := rfl
  have align : installAlignBlocks = 2048 := rfl
  simp only [Extent.Within, stop] at within
  refine ⟨⟨aligned, ?_, ?_⟩, within.1, ?_⟩
  · show (_ - _ % installAlignBlocks) % installAlignBlocks = 0
    rw [align]
    omega
  · show _ ≤ _ - _ % installAlignBlocks
    rw [align]
    omega
  · show got.first + (_ - _ % installAlignBlocks) ≤ g.first + g.count
    omega

theorem bestGap_spec (low : Low gaps) (some_ : (bestGap gaps).count ≠ 0) :
    RoomFor (bestGap gaps) ∧ ∃ g ∈ gaps, (bestGap gaps).Within g := by
  have folded : ∀ (l : List Extent) (best : Extent), (∀ g ∈ l, g ∈ gaps) →
      (best.count ≠ 0 → RoomFor best ∧ ∃ g ∈ gaps, best.Within g) →
      (l.foldl better best).count ≠ 0 →
        RoomFor (l.foldl better best) ∧ ∃ g ∈ gaps, (l.foldl better best).Within g := by
    intro l
    induction l with
    | nil =>
      intro best _ good
      exact good
    | cons g rest ih =>
      intro best among good
      refine ih _ (fun x mem => among x (List.mem_cons_of_mem g mem)) ?_
      have mem := among g (List.mem_cons_self ..)
      unfold better
      cases room : roomIn g with
      | none => exact good
      | some got =>
        dsimp only
        split
        · intro _
          obtain ⟨fits, within⟩ := roomIn_spec (low g mem) room
          exact ⟨fits, g, mem, within⟩
        · exact good
  exact folded gaps .empty (fun _ mem => mem) (fun none_ => absurd rfl none_) some_

theorem systemShare_spec {count : Nat} (whole : count % installAlignBlocks = 0)
    (enough : installSystemMin + installProgramsMin ≤ count) :
    systemShare count % installAlignBlocks = 0 ∧ installSystemMin ≤ systemShare count ∧
      systemShare count + installProgramsMin ≤ count := by
  have least : installSystemMin = 4194304 := rfl
  have rest : installProgramsMin = 2097152 := rfl
  have cap : installSystemCap = 134217728 := rfl
  have align : installAlignBlocks = 2048 := rfl
  unfold systemShare
  generalize count / installSystemShare = quarter
  obtain ⟨low, eq, low_spec⟩ : ∃ low, (if quarter < installSystemMin then installSystemMin
      else quarter) = low ∧ installSystemMin ≤ low := by
    by_cases less : quarter < installSystemMin
    · exact ⟨_, if_pos less, Nat.le_refl _⟩
    · exact ⟨_, if_neg less, Nat.le_of_not_lt less⟩
  obtain ⟨capped, eq', capped_spec⟩ : ∃ capped, (if installSystemCap < low then installSystemCap
      else low) = capped ∧ installSystemMin ≤ capped := by
    by_cases more : installSystemCap < low
    · exact ⟨_, if_pos more, by omega⟩
    · exact ⟨_, if_neg more, low_spec⟩
  dsimp only
  rw [eq, eq']
  by_cases most : count - installProgramsMin < capped
  · rw [if_pos most]
    rw [align] at whole ⊢
    omega
  · rw [if_neg most]
    rw [align] at whole ⊢
    omega

/-! ## The layout -/

/-- The BIOS boot partition and the volumes lie in a gap, one after the other. -/
structure LaidOut (p : Plan) (best : Extent) : Prop where
  biosBoot : p.biosBoot.count = 0 ∨ p.biosBoot.count = installBiosBoot ∧
    p.biosBoot.first % installAlignBlocks = 0 ∧ p.biosBoot.Within best ∧
    p.biosBoot.Before p.system ∧ p.biosBoot.Before p.programs
  system : p.system.first % installAlignBlocks = 0 ∧ p.system.Within best ∧
    installSystemMin ≤ p.system.count
  programs : p.programs.first % installAlignBlocks = 0 ∧ p.programs.Within best ∧
    installProgramsMin ≤ p.programs.count
  apart : p.system.Before p.programs

/-- The volumes that `split_rest` makes, in what it is given to split. -/
structure Split (out : Plan) (whole : Extent) : Prop where
  system : out.system.first % installAlignBlocks = 0 ∧ out.system.Within whole ∧
    installSystemMin ≤ out.system.count
  programs : out.programs.first % installAlignBlocks = 0 ∧ out.programs.Within whole ∧
    installProgramsMin ≤ out.programs.count
  apart : out.system.Before out.programs

theorem splitAt_spec {sys : Nat} (p : Plan) (room : RoomFor x) (whole : sys % installAlignBlocks = 0)
    (least : installSystemMin ≤ sys) (rest : sys + installProgramsMin ≤ x.count) :
    Split (splitAt x.first x.count sys p) x := by
  have aligned := room.aligned
  have total := room.whole
  have minimum : installProgramsMin = 2097152 := rfl
  have align : installAlignBlocks = 2048 := rfl
  rw [align] at whole aligned total
  have start : (x.first + sys) % installAlignBlocks = 0 := by
    rw [align]
    omega
  have kept : installProgramsMin ≤ x.count - sys - (x.count - sys) % installAlignBlocks := by
    rw [align]
    omega
  refine ⟨⟨room.aligned, ⟨Nat.le_refl _, ?_⟩, least⟩, ⟨start, ⟨Nat.le_add_right _ _, ?_⟩, kept⟩,
    Nat.le_refl _⟩
  · show x.first + sys ≤ x.first + x.count
    omega
  · show x.first + sys + (x.count - sys - (x.count - sys) % installAlignBlocks) ≤ x.first + x.count
    omega

theorem splitRest_spec (p : Plan) (room : RoomFor x) : Split (splitRest x.first x.count p) x := by
  obtain ⟨whole, least, rest⟩ := systemShare_spec room.whole room.enough
  exact splitAt_spec p room whole least rest

theorem layOut_spec {out : Plan} {best : Extent} (none_ : out.biosBoot.count = 0)
    (room : RoomFor best) : LaidOut (out.layOut best) best ∧
      (out.layOut best).esp = out.esp ∧ (out.layOut best).reuseEsp = out.reuseEsp := by
  have bios : installBiosBoot = 2048 := rfl
  have align : installAlignBlocks = 2048 := rfl
  have aligned := room.aligned
  have total := room.whole
  unfold Plan.layOut
  by_cases enough : installBiosBoot + installSystemMin + installProgramsMin ≤ best.count
  · rw [if_pos enough]
    let boot : Extent := ⟨best.first, installBiosBoot⟩
    let rest : Extent := ⟨best.first + installBiosBoot, best.count - installBiosBoot⟩
    have fits : RoomFor rest := by
      refine ⟨?_, ?_, ?_⟩
      · show (best.first + installBiosBoot) % installAlignBlocks = 0
        rw [align] at aligned ⊢
        omega
      · show (best.count - installBiosBoot) % installAlignBlocks = 0
        rw [align] at total ⊢
        omega
      · show _ ≤ best.count - installBiosBoot
        omega
    have boot_within : boot.Within best :=
      ⟨Nat.le_refl _, Nat.add_le_add_left (show installBiosBoot ≤ best.count by omega) best.first⟩
    have within : rest.Within best := by
      refine ⟨Nat.le_add_right _ _, ?_⟩
      show best.first + installBiosBoot + (best.count - installBiosBoot) ≤ best.first + best.count
      omega
    have split_ := splitRest_spec { out with biosBoot := boot } fits
    obtain ⟨system, systemWithin, systemLeast⟩ := split_.system
    obtain ⟨programs, programsWithin, programsLeast⟩ := split_.programs
    exact ⟨⟨.inr ⟨rfl, aligned, boot_within, systemWithin.1, programsWithin.1⟩,
      ⟨system, systemWithin.trans within, systemLeast⟩,
      ⟨programs, programsWithin.trans within, programsLeast⟩, split_.apart⟩, rfl, rfl⟩
  · rw [if_neg enough]
    have split_ := splitRest_spec out room
    exact ⟨⟨.inl none_, split_.system, split_.programs, split_.apart⟩, rfl, rfl⟩

end ReconOS.Gpt
