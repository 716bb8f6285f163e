import ReconOS.Gpt.Blank
import ReconOS.Gpt.Gaps

/-! A plan takes only what the table it is made from leaves free. -/
namespace ReconOS.Gpt

open Extent

variable {mem : Memory} {heap : Heap} {junk : Bytes} {dev : Device} {d : Disk} {h : Header}
  {entries : Bytes} {x y : Extent} {gaps : List Extent}

/-! ## The survey -/

def Entry.extent (e : Entry) : Extent := ⟨e.first, e.last - e.first + 1⟩

/-- An entry lies in a usable range. -/
def Entry.In (e : Entry) (firstUsable lastUsable : Nat) : Prop :=
  e.first ≤ e.last ∧ firstUsable ≤ e.first ∧ e.last ≤ lastUsable

theorem collect_spec {size lo hi : Nat} {c c' : Collected} {l : List Nat}
    (done : collect entries size lo hi c l = some c') :
    (∀ x ∈ c.used, x ∈ c'.used) ∧
    (∀ x ∈ c'.used, x ∈ c.used ∨ ∃ e : Entry, e.In lo hi ∧ x = e.extent) ∧
    ∀ i ∈ l, (entryAt entries size i).used →
      (entryAt entries size i).In lo hi ∧ (entryAt entries size i).extent ∈ c'.used := by
  induction l generalizing c with
  | nil =>
    cases done
    exact ⟨fun _ mem => mem, fun _ mem => .inl mem, fun _ mem => nomatch mem⟩
  | cons i rest ih =>
    unfold collect at done
    dsimp only at done
    by_cases used : (entryAt entries size i).used
    · rw [if_neg (not_not.2 used)] at done
      split at done
      · cases done
      · have within : (entryAt entries size i).In lo hi := ⟨by omega, by omega, by omega⟩
        obtain ⟨kept, from_, each⟩ := ih done
        have here : (entryAt entries size i).extent ∈ c'.used :=
          kept _ (List.mem_append_right _ (List.mem_singleton.2 rfl))
        refine ⟨fun x mem => kept x (List.mem_append_left _ mem), ?_, ?_⟩
        · intro x mem
          cases from_ x mem with
          | inl before =>
            cases List.mem_append.1 before with
            | inl old => exact .inl old
            | inr new => exact .inr ⟨_, within, List.mem_singleton.1 new⟩
          | inr later => exact .inr later
        · intro j mem used_j
          cases List.mem_cons.1 mem with
          | inl same => exact same ▸ ⟨within, here⟩
          | inr later => exact each j later used_j
    · rw [if_pos used] at done
      obtain ⟨kept, from_, each⟩ := ih done
      refine ⟨kept, from_, ?_⟩
      intro j mem used_j
      cases List.mem_cons.1 mem with
      | inl same => exact absurd (same ▸ used_j) used
      | inr later => exact each j later used_j

/-- The table that the survey goes by, and the gaps it leaves. -/
structure Surveyed (d : Disk) (t : TableHeader) (gaps : List Extent) : Prop where
  inside : t.lastUsable < d.blockCount
  gaps : ∃ used, gaps = gapsFrom t.lastUsable t.firstUsable used ∧
    InOrder t.firstUsable t.lastUsable used ∧
    ∀ i < t.count, (entryAt (d.bytes t.entryLba) t.size i).used →
      (entryAt (d.bytes t.entryLba) t.size i).In t.firstUsable t.lastUsable ∧
      (entryAt (d.bytes t.entryLba) t.size i).extent ∈ used

theorem surveyGpt_spec {s : Survey} (ok : surveyGpt heap d = .ok s) :
    Surveyed d (.of (d.sector heap.beyond 1)) s.gaps := by
  unfold surveyGpt at ok
  split at ok
  · cases ok
  · split at ok
    · cases ok
    · dsimp only at ok
      split at ok
      · cases ok
      · split at ok
        · cases ok
        · rename_i bounds
          split at ok
          · cases ok
          · split at ok
            · cases ok
            · split at ok
              · cases ok
              · rename_i c collected
                split at ok
                · cases ok
                · rename_i chained
                  cases ok
                  obtain ⟨-, from_, each⟩ := collect_spec collected
                  have listed : ∀ x ∈ sortUsed c.used, ∃ e : Entry,
                      e.In (TableHeader.of (d.sector heap.beyond 1)).firstUsable
                        (TableHeader.of (d.sector heap.beyond 1)).lastUsable ∧ x = e.extent := by
                    intro x mem
                    cases from_ x (mem_sortUsed.1 mem) with
                    | inl none_ => cases none_
                    | inr some_ => exact some_
                  refine ⟨by omega, sortUsed c.used, rfl,
                    ⟨Bool.eq_false_iff.2 chained, ?_, ?_⟩, ?_⟩
                  · intro x mem
                    obtain ⟨e, within, rfl⟩ := listed x (List.mem_of_mem_head? mem)
                    exact within.2.1
                  · intro x mem
                    obtain ⟨e, within, rfl⟩ := listed x mem
                    obtain ⟨some_, -, ends⟩ := within
                    simp only [stop, Entry.extent]
                    omega
                  · intro i less used
                    obtain ⟨within, mem⟩ := each i (List.mem_range.2 less) used
                    exact ⟨within, mem_sortUsed.2 mem⟩

theorem surveyGpt_error {v : Verdict} (refused : surveyGpt heap d = .error v) : v ≠ .ok := by
  unfold surveyGpt at refused
  dsimp only at refused
  rintro rfl
  split at refused
  · cases refused
  · split at refused
    · cases refused
    · split at refused
      · cases refused
      · split at refused
        · cases refused
        · split at refused
          · cases refused
          · split at refused
            · cases refused
            · split at refused
              · cases refused
              · split at refused <;> cases refused

/-! ## Free space -/

/-- An extent lies in the usable range of a table, and clear of its used entries. -/
structure FreeIn (d : Disk) (t : TableHeader) (x : Extent) : Prop where
  lower : t.firstUsable ≤ x.first
  upper : x.stop ≤ t.lastUsable + 1
  clear : ∀ i < t.count, (entryAt (d.bytes t.entryLba) t.size i).used →
    x.stop ≤ (entryAt (d.bytes t.entryLba) t.size i).first ∨
      (entryAt (d.bytes t.entryLba) t.size i).last < x.first

variable {t : TableHeader}

theorem FreeIn.within (free : FreeIn d t x) (part : y.Within x) : FreeIn d t y where
  lower := Nat.le_trans free.lower part.1
  upper := Nat.le_trans part.2 free.upper
  clear i less used := by
    cases free.clear i less used with
    | inl before => exact .inl (Nat.le_trans part.2 before)
    | inr after => exact .inr (Nat.lt_of_lt_of_le after part.1)

theorem Surveyed.free (surveyed : Surveyed d t gaps) :
    gaps.Pairwise Before ∧ ∀ g ∈ gaps, FreeIn d t g := by
  obtain ⟨used, rfl, order, each⟩ := surveyed.gaps
  refine ⟨gapsFrom_pairwise order, ?_⟩
  intro g mem
  obtain ⟨from_, to_, clear⟩ := gapsFrom_spec order g mem
  refine ⟨from_, to_, ?_⟩
  intro i less used_
  obtain ⟨within, mem_i⟩ := each i less used_
  have some_ := within.1
  cases clear _ mem_i with
  | inl before => exact .inl before
  | inr after =>
    right
    simp only [Before, stop, Entry.extent] at after
    omega

/-- What a plan is to make starts at a megabyte, on free space, and no two of them meet. -/
structure Lands (d : Disk) (t : TableHeader) (p : Plan) : Prop where
  apart : p.extents.Pairwise Clear
  aligned : ∀ x ∈ p.extents, x.first % installAlignBlocks = 0
  free : ∀ x ∈ p.extents, FreeIn d t x
  biosBoot : p.biosBoot.count = 0 ∨ p.biosBoot.count = installBiosBoot
  esp : p.reuseEsp = false → p.esp.count = installEspCreate
  system : installSystemMin ≤ p.system.count
  programs : installProgramsMin ≤ p.programs.count

/-- The layout in the chosen gap, with the EFI System Partition elsewhere, or none to make. -/
theorem planBeside_lands {out : Plan} (low : Low gaps) (free : ∀ g ∈ gaps, FreeIn d t g)
    (none_ : out.biosBoot.count = 0)
    (esp : out.reuseEsp = false → out.esp.count = installEspCreate ∧
      out.esp.first % installAlignBlocks = 0 ∧ FreeIn d t out.esp ∧ ∀ g ∈ gaps, g.Clear out.esp)
    (ok : (planBeside d out gaps).verdict = .ok) : Lands d t (planBeside d out gaps) := by
  unfold planBeside at ok ⊢
  dsimp only at ok ⊢
  split at ok
  · cases ok
  · rename_i some_
    rw [if_neg some_]
    split at ok
    · rename_i checked
      rw [if_pos checked]
      obtain ⟨room, g, mem, within⟩ := bestGap_spec low some_
      obtain ⟨laid, esp_eq, reuse_eq⟩ := layOut_spec none_ room
      have best_free : FreeIn d t (bestGap gaps) := (free g mem).within within
      generalize out.layOut (bestGap gaps) = p at laid esp_eq reuse_eq
      obtain ⟨sysAligned, sysWithin, sysLeast⟩ := laid.system
      obtain ⟨progAligned, progWithin, progLeast⟩ := laid.programs
      have volumes : ∀ x ∈ (if p.biosBoot.count ≠ 0 then [p.biosBoot] else []) ++
          [p.system, p.programs], x.first % installAlignBlocks = 0 ∧ x.Within (bestGap gaps) := by
        intro x mem
        cases List.mem_append.1 mem with
        | inl boot =>
          split at boot
          · rename_i some_
            cases List.mem_singleton.1 boot
            cases laid.biosBoot with
            | inl none_ => exact absurd none_ some_
            | inr boot => exact ⟨boot.2.1, boot.2.2.1⟩
          · cases boot
        | inr volume =>
          cases List.mem_cons.1 volume with
          | inl system => exact system ▸ ⟨sysAligned, sysWithin⟩
          | inr programs => exact List.mem_singleton.1 programs ▸ ⟨progAligned, progWithin⟩
      have among : ∀ x ∈ p.extents, (p.reuseEsp = false ∧ x = p.esp) ∨
          x.first % installAlignBlocks = 0 ∧ x.Within (bestGap gaps) := by
        intro x mem
        unfold Plan.extents at mem
        cases List.mem_append.1 mem with
        | inl front =>
          cases List.mem_append.1 front with
          | inl boot => exact .inr (volumes x (List.mem_append_left _ boot))
          | inr esp =>
            split at esp
            · cases esp
            · rename_i new
              exact .inl ⟨Bool.eq_false_iff.2 new, List.mem_singleton.1 esp⟩
        | inr volume => exact .inr (volumes x (List.mem_append_right _ volume))
      have esp_clear : p.reuseEsp = false → ∀ x : Extent, x.Within (bestGap gaps) → x.Clear p.esp := by
        intro new x part
        rw [esp_eq]
        rw [reuse_eq] at new
        exact ((esp new).2.2.2 g mem).within (part.trans within)
      refine ⟨?_, ?_, ?_, ?_, ?_, sysLeast, progLeast⟩
      · unfold Plan.extents
        have last : ([p.system, p.programs] : List Extent).Pairwise Clear :=
          List.pairwise_pair.2 (.inl laid.apart)
        have middle : ((if p.reuseEsp then [] else [p.esp]) ++
            [p.system, p.programs]).Pairwise Clear := by
          split
          · exact last
          · rename_i new
            have new := Bool.eq_false_iff.2 new
            refine List.pairwise_cons.2 ⟨?_, last⟩
            intro x mem
            cases List.mem_cons.1 mem with
            | inl system => exact (esp_clear new x (system ▸ sysWithin)).symm
            | inr programs =>
              exact (esp_clear new x (List.mem_singleton.1 programs ▸ progWithin)).symm
        rw [List.append_assoc]
        split
        · rename_i some_
          cases laid.biosBoot with
          | inl none_ => exact absurd none_ some_
          | inr boot =>
            rw [List.singleton_append]
            refine List.pairwise_cons.2 ⟨?_, middle⟩
            intro x mem
            cases List.mem_append.1 mem with
            | inl esp =>
              split at esp
              · cases esp
              · rename_i new
                rw [List.mem_singleton.1 esp]
                exact esp_clear (Bool.eq_false_iff.2 new) _ boot.2.2.1
            | inr volume =>
              cases List.mem_cons.1 volume with
              | inl system => exact system ▸ .inl boot.2.2.2.1
              | inr programs => exact List.mem_singleton.1 programs ▸ .inl boot.2.2.2.2
        · exact middle
      · intro x mem
        cases among x mem with
        | inl isEsp =>
          rw [isEsp.2, esp_eq]
          exact (esp (reuse_eq ▸ isEsp.1)).2.1
        | inr volume => exact volume.1
      · intro x mem
        cases among x mem with
        | inl isEsp =>
          rw [isEsp.2, esp_eq]
          exact (esp (reuse_eq ▸ isEsp.1)).2.2.1
        | inr volume => exact best_free.within volume.2
      · cases laid.biosBoot with
        | inl none_ => exact .inl none_
        | inr boot => exact .inr boot.1
      · intro new
        rw [esp_eq]
        exact (esp (reuse_eq ▸ new)).1
    · cases ok

theorem installPlan_lands {espHasRoom : Esp → Option Nat} (whole : dev.parent = false)
    (gpt : dev.scheme = .gpt) (small : dev.disk.blockCount + installAlignBlocks < u64Size)
    (ok : (installPlan heap espHasRoom dev).verdict = .ok) :
    Lands dev.disk (.of (dev.disk.sector heap.beyond 1)) (installPlan heap espHasRoom dev) ∧
      (TableHeader.of (dev.disk.sector heap.beyond 1)).lastUsable < dev.disk.blockCount := by
  unfold installPlan at ok ⊢
  simp only [whole, gpt, Bool.false_eq_true, if_false] at ok ⊢
  cases surveyed : surveyGpt heap dev.disk with
  | error v =>
    rw [surveyed] at ok
    exact absurd ok (surveyGpt_error surveyed)
  | ok s =>
    rw [surveyed] at ok
    have spec := surveyGpt_spec surveyed
    obtain ⟨apart, free⟩ := spec.free
    have inside := spec.inside
    refine ⟨?_, inside⟩
    have low : Low s.gaps := by
      intro g mem
      have ends := (free g mem).upper
      omega
    dsimp only at ok ⊢
    cases found : s.esp with
    | some own =>
      rw [found] at ok
      dsimp only at ok ⊢
      cases room : espHasRoom own with
      | none =>
        rw [room] at ok
        cases ok
      | some blocks =>
        rw [room] at ok
        exact planBeside_lands low free rfl (fun new => nomatch new) ok
    | none =>
      rw [found] at ok
      dsimp only at ok ⊢
      cases taken : takeEsp s.gaps with
      | none =>
        rw [taken] at ok
        cases ok
      | some both =>
        obtain ⟨made, left⟩ := both
        rw [taken] at ok
        obtain ⟨count, aligned, ⟨g, mem, within⟩, clear⟩ := takeEsp_spec low apart taken
        refine planBeside_lands ?_ ?_ rfl ?_ ok
        · intro x mem
          obtain ⟨-, y, mem_y, part⟩ := clear x mem
          exact Nat.lt_of_le_of_lt (Nat.add_le_add_right part.2 _) (low y mem_y)
        · intro x mem
          obtain ⟨-, y, mem_y, part⟩ := clear x mem
          exact (free y mem_y).within part
        · intro _
          exact ⟨count, aligned, (free g mem).within within, fun x mem => (clear x mem).1⟩

/-! ## The table that the scan accepted -/

theorem headerOk_eq {hdr : Bytes} {n at' : Nat} (ok : headerOk hdr n at' = some h) :
    h = .of hdr ∧ 92 ≤ n := by
  unfold headerOk at ok
  split at ok
  · cases ok
  · split at ok
    · cases ok
    · split at ok
      · cases ok
      · split at ok
        · cases ok
        · dsimp only at ok
          split at ok
          · cases ok
          · split at ok
            · cases ok
            · exact ⟨(Option.some.inj ok).symm, by omega⟩

theorem tableHeader_sector (d : Disk) (beyond : Bytes) (size : 92 ≤ d.blockSize) :
    TableHeader.of (d.sector beyond 1) = TableHeader.of (d.block 1) := by
  have bytes : ∀ i < d.blockSize, d.sector beyond 1 i = d.block 1 i := fun i less => if_pos less
  unfold TableHeader.of
  rw [le64_congr (o := 40) bytes (by omega), le64_congr (o := 48) bytes (by omega),
    le64_congr (o := 72) bytes (by omega), le32_congr (o := 80) bytes (by omega),
    le32_congr (o := 84) bytes (by omega)]

theorem blockCount_small (size : 92 ≤ d.blockSize) : d.blockCount + installAlignBlocks < u64Size := by
  have fit := d.bytesFit
  have more : d.blockCount * 92 ≤ d.blockCount * d.blockSize := Nat.mul_le_mul_left _ size
  simp only [u64Size, installAlignBlocks] at fit ⊢
  omega

/-- The scan of a disk accepted the table that has its header in block `at'`. -/
structure Accepted (mem : Memory) (dev : Device) (at' : Nat) : Prop where
  gpt : (partitionScan mem dev).scheme = .gpt
  header : ∃ junk h, mem.page = some junk ∧ readHeader junk dev.disk = some (at', h)

theorem readHeader_ok {at' : Nat} (read : readHeader junk d = some (at', h)) :
    headerOk (d.block at') d.blockSize at' = some h ∧ (at' = 1 ∨ at' = d.last) := by
  by_cases primary : PrimaryOk d
  · obtain ⟨p, ok⟩ := Option.isSome_iff_exists.1 primary.2
    rw [readHeader_primary primary.1 ok] at read
    cases read
    exact ⟨ok, .inl rfl⟩
  · rw [readHeader_backup primary] at read
    split at read
    · obtain ⟨p, ok, eq⟩ := Option.map_eq_some_iff.1 read
      cases eq
      exact ⟨ok, .inr rfl⟩
    · cases read

theorem scan_disk (present : dev.disk.present = true) (whole : dev.parent = false)
    (gpt : (partitionScan mem dev).scheme = .gpt) :
    (partitionScan mem dev).disk = dev.disk ∧ (partitionScan mem dev).parent = false := by
  obtain ⟨junk, after, -, read, eq⟩ := (scan_gpt mem present whole).1 gpt
  rw [eq]
  unfold readGpt at read
  split at read
  · cases read
  · split at read
    · cases read
    · cases read
      refine ⟨(registerEntries_spec _ _ _ _).1, ?_⟩
      exact (registerEntries_spec _ _ _ _).2.trans whole

/-- What block 1 says is usable is usable by the table in block `at'`, and every used entry of that
one is an entry of the array that block 1 leads to. -/
def Agrees (d : Disk) (at' : Nat) : Prop :=
  let own := TableHeader.of (d.block 1)
  let t := TableHeader.of (d.block at')
  t.firstUsable ≤ own.firstUsable ∧ own.lastUsable ≤ t.lastUsable ∧
    ∀ i < t.count, (entryAt (d.bytes t.entryLba) t.size i).used → ∃ j < own.count,
      entryAt (d.bytes own.entryLba) own.size j = entryAt (d.bytes t.entryLba) t.size i

theorem agrees_self (d : Disk) : Agrees d 1 :=
  ⟨Nat.le_refl _, Nat.le_refl _, fun i less _ => ⟨i, less, rfl⟩⟩

theorem FreeIn.agrees {at' : Nat} (agrees : Agrees d at') (free : FreeIn d (.of (d.block 1)) x) :
    FreeIn d (.of (d.block at')) x where
  lower := Nat.le_trans agrees.1 free.lower
  upper := Nat.le_trans free.upper (Nat.add_le_add_right agrees.2.1 1)
  clear i less used := by
    obtain ⟨j, less_j, same⟩ := agrees.2.2 i less used
    rw [← same] at used ⊢
    exact free.clear j less_j used

/-- Of a disk whose table the scan accepted in block 1, or whose block 1 agrees with it, a plan takes
only what that table leaves free. -/
theorem plan_on_free_space {mem : Memory} {dev : Device} {at' : Nat} {heap : Heap}
    {esp : Esp → Option Nat} (present : dev.disk.present = true) (whole : dev.parent = false)
    (accepted : Accepted mem dev at') (same : at' = 1 ∨ Agrees dev.disk at')
    (ok : (installPlan heap esp (partitionScan mem dev)).verdict = .ok) :
    let p := installPlan heap esp (partitionScan mem dev)
    let t := TableHeader.of (dev.disk.block at')
    p.extents.Pairwise Clear ∧
    (∀ x ∈ p.extents,
      (x.first % installAlignBlocks = 0 ∧ (512 ∣ dev.disk.blockSize →
        0x100000 ∣ x.first * dev.disk.blockSize)) ∧
      (t.firstUsable ≤ x.first ∧ x.stop ≤ t.lastUsable + 1) ∧
      ∀ i < t.count, (entryAt (dev.disk.bytes t.entryLba) t.size i).used →
        x.stop ≤ (entryAt (dev.disk.bytes t.entryLba) t.size i).first ∨
          (entryAt (dev.disk.bytes t.entryLba) t.size i).last < x.first) ∧
    (p.biosBoot.count = 0 ∨ p.biosBoot.count = installBiosBoot) ∧
    (p.reuseEsp = false → p.esp.count = installEspCreate) ∧
    installSystemMin ≤ p.system.count ∧ installProgramsMin ≤ p.programs.count := by
  obtain ⟨junk, h, -, read⟩ := accepted.header
  obtain ⟨header, -⟩ := readHeader_ok read
  obtain ⟨-, size⟩ := headerOk_eq header
  obtain ⟨disk, parent⟩ := scan_disk present whole accepted.gpt
  have agrees : Agrees dev.disk at' := by
    cases same with
    | inl first => exact first ▸ agrees_self dev.disk
    | inr agrees => exact agrees
  have small := blockCount_small size
  have own := tableHeader_sector dev.disk heap.beyond size
  have lands := (installPlan_lands parent accepted.gpt (by rw [disk]; exact small) ok).1
  rw [disk, own] at lands
  intro p t
  refine ⟨lands.apart, ?_, lands.biosBoot, lands.esp, lands.system, lands.programs⟩
  intro x mem
  have free := (lands.free x mem).agrees agrees
  have aligned := lands.aligned x mem
  refine ⟨⟨aligned, ?_⟩, ⟨free.lower, free.upper⟩, free.clear⟩
  intro sectors
  exact Nat.mul_dvd_mul (Nat.dvd_of_mod_eq_zero aligned) sectors

theorem sampleDevice_accepted : Accepted sampleMemory (sampleDevice true) 1 where
  gpt := by decide +kernel
  header := ⟨fun _ => 0, .of fun i => (sampleHeader[i]?).getD 0, rfl, by decide +kernel⟩

def sampleHeap : Heap := ⟨true, true, fun _ => 0⟩

theorem plan_on_free_space_sample : ∃ p,
    p = installPlan sampleHeap (fun _ => none) (partitionScan sampleMemory (sampleDevice true)) ∧
      p.extents.Pairwise Clear ∧ p.extents.length = 4 := by
  refine ⟨_, rfl, ?_, by decide +kernel⟩
  exact (plan_on_free_space rfl rfl sampleDevice_accepted (.inl rfl) (by decide +kernel)).1

/-! ## A table gone by that was not accepted -/

def sampleBackup : List UInt8 :=
  [0x45, 0x46, 0x49, 0x20, 0x50, 0x41, 0x52, 0x54, 0, 0, 1, 0, 0x5c, 0, 0, 0, 0xf5, 0x49, 0x5c, 0xbc,
    0, 0, 0, 0, 0xff, 0xff, 0xff, 0, 0, 0, 0, 0, 1, 0, 0, 0, 0, 0, 0, 0, 0x22, 0, 0, 0, 0, 0, 0, 0,
    0xde, 0xff, 0xff, 0, 0, 0, 0, 0, 0, 0, 0, 0, 0, 0, 0, 0, 0, 0, 0, 0, 0, 0, 0, 0, 2, 0, 0, 0, 0, 0,
    0, 0, 1, 0, 0, 0, 0x80, 0, 0, 0, 0x4d, 5, 0x93, 0x56]

/-- The primary header damaged, to lead to a block of zeros; the backup as it should be. -/
def damagedDisk : Disk :=
  { sampleDisk true with
    block := fun n =>
      if n = 1 then fun i => ((sampleHeader.set 72 3)[i]?).getD 0
      else if n = 0xFFFFFF then fun i => (sampleBackup[i]?).getD 0
      else (sampleDisk true).block n }

def damagedDevice : Device := ⟨damagedDisk, false, .none, [], 60⟩

theorem damagedDevice_accepted : Accepted sampleMemory damagedDevice 0xFFFFFF where
  gpt := by decide +kernel
  header := ⟨fun _ => 0, .of fun i => (sampleBackup[i]?).getD 0, rfl, by decide +kernel⟩

/-- The scan goes by the backup, the plan by the damaged primary: the EFI System Partition is to be
made over the blocks of a partition. -/
theorem plan_on_used_space : ¬∀ mem dev at' heap esp, dev.disk.present = true → dev.parent = false →
    Accepted mem dev at' → (installPlan heap esp (partitionScan mem dev)).verdict = .ok →
    ∀ x ∈ (installPlan heap esp (partitionScan mem dev)).extents,
      FreeIn dev.disk (.of (dev.disk.block at')) x := by
  intro always
  let plan := installPlan sampleHeap (fun _ => none) (partitionScan sampleMemory damagedDevice)
  have made : (⟨2048, installEspCreate⟩ : Extent) ∈ plan.extents := by decide +kernel
  have free := always sampleMemory damagedDevice 0xFFFFFF sampleHeap (fun _ => none) rfl rfl
    damagedDevice_accepted (by decide +kernel) _ made
  have meets := free.clear 0 (by decide +kernel) (by decide +kernel)
  revert meets
  decide +kernel

end ReconOS.Gpt
