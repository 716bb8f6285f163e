import ReconOS.Reconfs.Check
import ReconOS.Reconfs.Tree
import ReconOS.Reconfs.Alloc

/-! The checker is sound: a check that finds nothing wrong has walked a finite tree, reaching no
block twice, and the owner table records exactly what it reached. -/
namespace ReconOS.Reconfs

/-! ## Steps that found nothing wrong -/

/-- Whatever `m` does on the medium `c`, it takes no disagreement back, and if it adds none, what it
recorded is some `A` that `G` allows, each block of it new and inside the volume. -/
def Finds (fs : Fs) (c : Nat → Block) (m : W Unit) (G : Multiset (Nat × Nat) → Prop) : Prop :=
  ∀ s t, fs.now s.st = c → m s = (.ok (), t) → fs.now t.st = c ∧
    s.walk.disagreements ≤ t.walk.disagreements ∧
    (t.walk.disagreements = s.walk.disagreements → ∃ A, G A ∧ (∀ p ∈ A, p.1 < fs.totalBlocks) ∧
      ∀ M, Ledger 0 s.walk.owner M → Ledger 0 t.walk.owner (M + A))

section Rules

variable {fs : Fs} {c : Nat → Block} {m n : W Unit} {G H K : Multiset (Nat × Nat) → Prop}

theorem Finds.mono (h : Finds fs c m G) (hg : ∀ A, G A → H A) : Finds fs c m H := by
  intro s t hs hm
  obtain ⟨hnow, hle, hgood⟩ := h s t hs hm
  refine ⟨hnow, hle, fun heq => ?_⟩
  obtain ⟨A, hA, hrest⟩ := hgood heq
  exact ⟨A, hg A hA, hrest⟩

theorem Finds.nothing : Finds fs c (pure ()) (fun A => A = 0) := by
  intro s t hs hm
  cases hm
  refine ⟨hs, Nat.le_refl _, fun _ => ⟨0, rfl, by simp, fun M hM => ?_⟩⟩
  rwa [add_zero]

/-- A step whose value decides the next. -/
theorem Finds.value {α : Type} {f : α → W Unit} {v : W α} {P : α → Prop}
    (hv : ∀ s t a, fs.now s.st = c → v s = (.ok a, t) →
      fs.now t.st = c ∧ t.walk = s.walk ∧ P a)
    (hf : ∀ a, P a → Finds fs c (f a) G) : Finds fs c (v >>= f) G := by
  intro s t hs hm
  rw [Prog.bind_eq_ok] at hm
  obtain ⟨a, u, hu, hm⟩ := hm
  obtain ⟨hnow, hwalk, hP⟩ := hv s u a hs hu
  have := hf a hP u t hnow hm
  rwa [hwalk] at this

theorem Finds.seq (h : Finds fs c m G) (h' : Finds fs c n H)
    (hk : ∀ A B, G A → H B → K (A + B)) : Finds fs c (m >>= fun _ => n) K := by
  intro s t hs hm
  rw [Prog.bind_eq_ok] at hm
  obtain ⟨_, u, hu, hm⟩ := hm
  obtain ⟨hnow, hle, hgood⟩ := h s u hs hu
  obtain ⟨hnow', hle', hgood'⟩ := h' u t hnow hm
  refine ⟨hnow', hle.trans hle', fun heq => ?_⟩
  obtain ⟨A, hA, hAin, hAl⟩ := hgood (by omega)
  obtain ⟨B, hB, hBin, hBl⟩ := hgood' (by omega)
  refine ⟨A + B, hk A B hA hB, fun p hp => ?_, fun M hM => ?_⟩
  · rcases Multiset.mem_add.1 hp with hp | hp
    · exact hAin p hp
    · exact hBin p hp
  · rw [← add_assoc]
    exact hBl _ (hAl M hM)

theorem Finds.when {P : Prop} [Decidable P] (h : P → Finds fs c m G)
    (hn : ¬P → G 0) : Finds fs c (Prog.when P m) G := by
  by_cases hp : P
  · rw [Prog.when_of hp]; exact h hp
  · rw [Prog.when_not hp]; exact Finds.nothing.mono fun A hA => hA ▸ hn hp

theorem onVolume_ok {α : Type} {v : M α} {s t : CheckSt} {a : α}
    (h : onVolume v s = (.ok a, t)) : v s.st = (.ok a, t.st) ∧ t.walk = s.walk := by
  simp only [onVolume] at h
  rcases hv : v s.st with ⟨r, u⟩
  rw [hv] at h
  cases h
  exact ⟨rfl, rfl⟩

theorem Finds.buffer (h : Finds fs c m G) :
    Finds fs c (onVolume (Reconfs.buffer fs.dev) >>= fun _ => m) G :=
  .value (P := fun _ => True) (fun s t a hs hv => by
    obtain ⟨hb, hw⟩ := onVolume_ok hv
    exact ⟨by rw [(buffer_ok hb).now, hs], hw, trivial⟩) fun _ _ => h

theorem Finds.readSlots {blk : Nat} {f : (Nat → Nat) → W Unit}
    (h : Finds fs c (f (c blk).slots) G) :
    Finds fs c (onVolume (Reconfs.readSlots fs blk) >>= f) G :=
  .value (P := fun a => a = (c blk).slots) (fun s t a hs hv => by
    obtain ⟨hr, hw⟩ := onVolume_ok hv
    obtain ⟨hsame, rfl, -⟩ := readSlots_ok hr
    rw [hs]
    exact ⟨by rw [hsame.now, hs], hw, rfl⟩) fun a ha => ha ▸ h

theorem Finds.readArea {blk : Nat} {f : Area → W Unit} (h : Finds fs c (f (c blk).area) G) :
    Finds fs c (onVolume (Reconfs.readArea fs blk) >>= f) G :=
  .value (P := fun a => a = (c blk).area) (fun s t a hs hv => by
    obtain ⟨hr, hw⟩ := onVolume_ok hv
    obtain ⟨hsame, rfl, -⟩ := readArea_ok hr
    rw [hs]
    exact ⟨by rw [hsame.now, hs], hw, rfl⟩) fun a ha => ha ▸ h

/-- A step on the record alone. -/
theorem Finds.record {f : Walk → Walk}
    (h : ∀ w, w.disagreements ≤ (f w).disagreements ∧
      ((f w).disagreements = w.disagreements → ∃ A, G A ∧ (∀ p ∈ A, p.1 < fs.totalBlocks) ∧
        ∀ M, Ledger 0 w.owner M → Ledger 0 (f w).owner (M + A))) :
    Finds fs c (onWalk f) G := by
  intro s t hs hm
  cases hm
  exact ⟨hs, h s.walk⟩

theorem Finds.disagree {why : String} {blk : Nat} :
    Finds fs c (onWalk fun w => w.disagree why blk) (fun _ => False) :=
  .record fun _ => ⟨Nat.le_succ _, fun h => absurd h (Nat.succ_ne_self _)⟩

theorem Finds.gaveUp {why : String} {blk : Nat} {st : Status} :
    Finds fs c (giveUp why blk st) G := by
  intro s t hs hm
  simp only [giveUp, Prog.bind_eq_ok, Prog.fail_eq_ok, and_false, exists_false] at hm

end Rules

/-! ## Claims -/

theorem Walk.claim_found (fs : Fs) (blk : Nat) {owner : Nat} (what : String) (ho : owner ≠ 0)
    (w : Walk) :
    w.disagreements ≤ (w.claim fs blk owner what).disagreements ∧
      ((w.claim fs blk owner what).disagreements = w.disagreements →
        blk < fs.totalBlocks ∧
        ∀ M, Ledger 0 w.owner M →
          Ledger 0 (w.claim fs blk owner what).owner (M + {(blk, owner)})) := by
  simp only [Walk.claim]
  split
  · exact ⟨Nat.le_succ _, fun h => absurd h (Nat.succ_ne_self _)⟩
  · rename_i hin
    split
    · exact ⟨Nat.le_succ _, fun h => absurd h (Nat.succ_ne_self _)⟩
    · rename_i hfree
      refine ⟨Nat.le_refl _, fun _ => ⟨by omega, fun M hM => ?_⟩⟩
      rw [add_comm, Multiset.singleton_add]
      exact hM.claim (not_not.1 hfree) ho

section Claim

variable {fs : Fs} {c : Nat → Block}

theorem Finds.claim {blk owner : Nat} {what : String} (ho : owner ≠ 0) :
    Finds fs c (onWalk fun w => w.claim fs blk owner what) (fun A => A = {(blk, owner)}) :=
  .record fun w => by
    obtain ⟨hle, hgood⟩ := Walk.claim_found fs blk what ho w
    refine ⟨hle, fun heq => ?_⟩
    obtain ⟨hin, hl⟩ := hgood heq
    exact ⟨_, rfl, fun p hp => by rw [Multiset.mem_singleton.1 hp]; exact hin, hl⟩

theorem Finds.claimAll {blks : List Nat} {owner : Nat} {what : String} (ho : owner ≠ 0) :
    Finds fs c (onWalk fun w => w.claimAll fs blks owner what)
      (fun A => A = (((blks.filter (· ≠ 0)).map fun b => (b, owner)) : List (Nat × Nat))) :=
  .record fun w => by
    induction blks generalizing w with
    | nil => exact ⟨Nat.le_refl _, fun _ => ⟨0, rfl, by simp, fun M hM => by rwa [add_zero]⟩⟩
    | cons b blks ih =>
      by_cases hb : b = 0
      · have hskip : w.claimAll fs (b :: blks) owner what = w.claimAll fs blks owner what := by
          simp [Walk.claimAll, hb]
        rw [hskip, List.filter_cons_of_neg (by simpa using hb)]
        exact ih w
      have hstep : w.claimAll fs (b :: blks) owner what =
          (w.claim fs b owner what).claimAll fs blks owner what := by
        simp [Walk.claimAll, hb]
      rw [hstep, List.filter_cons_of_pos (by simpa using hb)]
      obtain ⟨hle, hgood⟩ := Walk.claim_found fs b what ho w
      obtain ⟨hle', hgood'⟩ := ih (w.claim fs b owner what)
      refine ⟨hle.trans hle', fun heq => ?_⟩
      obtain ⟨hin, hl⟩ := hgood (by omega)
      obtain ⟨A, rfl, hA, hAl⟩ := hgood' (by omega)
      refine ⟨_, rfl, fun p hp => ?_, fun M hM => ?_⟩
      · rcases List.mem_cons.1 (Multiset.mem_coe.1 hp) with rfl | hp
        · exact hin
        · exact hA p (Multiset.mem_coe.2 hp)
      · have := hAl _ (hl M hM)
        rw [add_assoc, Multiset.singleton_add] at this
        exact this

end Claim

/-! ## The table -/

section Table

variable {fs : Fs} {c : Nat → Block}

theorem claimNode_finds (node : Nat) :
    Finds fs c (claimNode fs node) (fun A => A = {(node, ownerArchive)}) := by
  intro s t hs hm
  simp only [claimNode, Prog.get_bind] at hm
  split at hm
  · exact Finds.gaveUp s t hs hm
  · rename_i hin
    split at hm
    · exact Finds.gaveUp s t hs hm
    · rename_i hfree
      cases hm
      refine ⟨hs, Nat.le_refl _, fun _ => ⟨_, rfl, fun p hp => ?_, fun M hM => ?_⟩⟩
      · rw [Multiset.mem_singleton.1 hp]
        exact Nat.not_le.1 hin
      · rw [add_comm, Multiset.singleton_add]
        exact hM.claim (not_not.1 hfree) (by decide)

theorem tableClaims_append (l m : List (Nat × Nat)) :
    tableClaims (l ++ m) = tableClaims l + tableClaims m := by
  rw [tableClaims, tableClaims, tableClaims, List.map_append, Multiset.coe_add]

theorem claimKids_finds {claim : Nat → W Unit} {below : Nat → List (Nat × Nat)}
    (h : ∀ k, Finds fs c (claim k) (fun A => A = tableClaims (below k))) (slots : Nat → Nat)
    (is : List Nat) :
    Finds fs c (claimKids claim slots is)
      (fun A => A = tableClaims (((is.map slots).filter (· ≠ 0)).flatMap below)) := by
  induction is with
  | nil => exact Finds.nothing
  | cons i is ih =>
    rw [claimKids]
    split
    · rename_i hz
      rw [List.map_cons, List.filter_cons_of_neg (by simpa using hz)]
      exact ih
    · rename_i hz
      rw [List.map_cons, List.filter_cons_of_pos (by simpa using hz), List.flatMap_cons]
      refine (h _).seq ih ?_
      rintro A B rfl rfl
      exact (tableClaims_append ..).symm

theorem claimTable_finds (depth node : Nat) :
    Finds fs c (claimTable fs depth node)
      (fun A => A = tableClaims (tableNodes c fs.perIndex depth node)) := by
  induction depth generalizing node with
  | zero => exact claimNode_finds node
  | succ depth ih =>
    rw [claimTable]
    refine (claimNode_finds node).seq
      (Finds.buffer (Finds.readSlots (claimKids_finds ih (c node).slots _))) ?_
    rintro A B rfl rfl
    rfl

end Table

/-! ## The tree -/

section Walks

variable {fs : Fs} {c : Nat → Block}

theorem walkIndirect_finds {ino : Inode} (hd : ino.dossier ≠ 0) :
    Finds fs c (walkIndirect fs ino) (fun A =>
      A = (((ino.indirect :: kidsOf fs.perIndex (c ino.indirect).slots).map fun b =>
        (b, ino.dossier)) : List (Nat × Nat))) := by
  refine Finds.buffer ((Finds.claim hd).seq (Finds.readSlots (Finds.claimAll hd)) ?_)
  rintro A B rfl rfl
  rfl

theorem walkFile_finds {ino : Inode} (hd : ino.dossier ≠ 0) (hin : ino.inlineLen = 0)
    (ht : ino.type = typeFile) :
    Finds fs c (walkFile fs ino)
      (fun A => A = (((heldBy fs c ino).map fun b => (b, ino.dossier)) : List (Nat × Nat))) := by
  have hnd : ¬ino.type = typeDir := by rw [ht]; decide
  have hlast : Finds fs c (Prog.when (ino.doubleIndirect ≠ 0 ∨ ino.tripleIndirect ≠ 0)
      (onWalk fun w => w.disagree "a file uses indirection this version cannot write" 0))
      (fun A => A = 0) :=
    .when (fun _ => Finds.disagree.mono fun _ h => h.elim) fun _ => rfl
  rw [walkFile]
  by_cases hi : ino.indirect = 0
  · rw [Prog.when_not (not_not.2 hi)]
    refine (Finds.claimAll hd).seq (Finds.nothing.seq hlast (K := fun A => A = 0) ?_) ?_
    · rintro A B rfl rfl; rfl
    · rintro A B rfl rfl
      rw [add_zero, heldBy, if_neg (by simp [hin]), if_pos (.inr hi)]
      rfl
  · rw [Prog.when_of hi]
    refine (Finds.claimAll hd).seq ((walkIndirect_finds hd).seq hlast (K := fun A => A =
      (((ino.indirect :: kidsOf fs.perIndex (c ino.indirect).slots).map fun b =>
        (b, ino.dossier)) : List (Nat × Nat))) ?_) ?_
    · rintro A B rfl rfl; rw [add_zero]
    · rintro A B rfl rfl
      rw [heldBy, if_neg (by simp [hin]), if_neg (by simp [hnd, hi]), List.map_append,
        ← Multiset.coe_add]
      rfl

/-- The entries the walk takes from a directory. -/
def metOf (fs : Fs) (c : Nat → Block) (past : Beyond) : Reading := fun blk dir =>
  if dir.inlineLen ≠ 0 then
    entriesIn dir.inlineLen 0 (met (inlineMax fs.blockSize) (past blk) 0 dir.data.entries)
  else blockEntries fs.blockSize c dir.used

variable {past : Beyond}

/-- What a walk of the object `e` names found: the object, which names `parent`. -/
def Found (fs : Fs) (c : Nat → Block) (past : Beyond) (e : Dirent) (parent owner : Nat)
    (A : Multiset (Nat × Nat)) : Prop :=
  ∃ o : Obj, o.entry = e ∧ o.AtBy fs c (metOf fs c past) ∧ o.ParentsAgree ∧ o.ino.parent = parent ∧
    A = o.claims owner

/-- What a walk of a run of entries found: an object for each entry in use. -/
def FoundAll (fs : Fs) (c : Nat → Block) (past : Beyond) (dossier : Nat)
    (es : Option (List Dirent)) (A : Multiset (Nat × Nat)) : Prop :=
  ∃ l kids, es = some l ∧ kids.map Obj.entry = live l ∧
    (∀ k ∈ kids, k.AtBy fs c (metOf fs c past) ∧ k.ParentsAgree ∧ k.ino.parent = dossier) ∧
    A = Obj.claimsIn dossier kids

theorem FoundAll.none (dossier : Nat) : FoundAll fs c past dossier (some []) 0 :=
  ⟨[], [], rfl, rfl, by simp, rfl⟩

theorem FoundAll.append {dossier : Nat} {l m : Option (List Dirent)} {A B : Multiset (Nat × Nat)}
    (h : FoundAll fs c past dossier l A) (h' : FoundAll fs c past dossier m B) :
    FoundAll fs c past dossier (l.bind fun es => m.bind fun rest => some (es ++ rest)) (A + B) := by
  obtain ⟨l, kids, rfl, hk, hall, rfl⟩ := h
  obtain ⟨m, kids', rfl, hk', hall', rfl⟩ := h'
  refine ⟨l ++ m, kids ++ kids', rfl, ?_, fun k hk => ?_, by rw [Obj.claimsIn_append]⟩
  · rw [List.map_append, hk, hk', live, live, live, List.filter_append]
  · rcases List.mem_append.1 hk with hk | hk
    · exact hall k hk
    · exact hall' k hk

theorem walkDirBlock_finds {walk : Nat → W Unit} {dossier : Nat}
    (hw : ∀ e : Dirent, Finds fs c (walk e.inode) (Found fs c past e dossier dossier))
    (dirBlk len off : Nat) (es : List Dirent) :
    Finds fs c (walkDirBlock walk dirBlk len off es)
      (FoundAll fs c past dossier (entriesIn len off es)) := by
  induction es generalizing off with
  | nil => exact Finds.nothing.mono fun A hA => hA ▸ FoundAll.none dossier
  | cons de rest ih =>
    rw [walkDirBlock, entriesIn]
    split
    · exact Finds.nothing.mono fun A hA => hA ▸ FoundAll.none dossier
    split
    · exact Finds.nothing.mono fun A hA => hA ▸ FoundAll.none dossier
    split
    · exact Finds.gaveUp
    have hone : Finds fs c (Prog.when (de.inode ≠ 0) (walk de.inode))
        (FoundAll fs c past dossier (some [de])) := by
      refine .when (fun hne => ?_) fun hz => ?_
      · refine (hw de).mono fun A ⟨o, he, hat, hpar, hp, hA⟩ => ⟨[de], [o], rfl, ?_, ?_, ?_⟩
        · simp [live, hne, he]
        · simp only [List.mem_singleton, forall_eq]
          exact ⟨hat, hpar, hp⟩
        · rw [hA]; simp
      · exact ⟨[de], [], rfl, by simp [live, not_not.1 hz], by simp, rfl⟩
    refine hone.seq (ih (off + de.recLen)) fun A B hA hB => ?_
    have hjoin := hA.append hB
    generalize entriesIn len (off + de.recLen) rest = l at hjoin ⊢
    rcases l with _ | l <;> exact hjoin

theorem walkDirBlocks_finds {walk : Nat → W Unit} {dossier : Nat} (hd : dossier ≠ 0)
    (hw : ∀ e : Dirent, Finds fs c (walk e.inode) (Found fs c past e dossier dossier))
    (dirBlk : Nat) (blks : List Nat) :
    Finds fs c (walkDirBlocks fs dirBlk dossier walk blks) (fun A => ∃ B,
      FoundAll fs c past dossier (blockEntries fs.blockSize c (blks.filter (· ≠ 0))) B ∧
      A = (((blks.filter (· ≠ 0)).map fun b => (b, dossier)) : List (Nat × Nat)) + B) := by
  induction blks with
  | nil => exact Finds.nothing.mono fun A hA => ⟨0, FoundAll.none dossier, hA⟩
  | cons b blks ih =>
    rw [walkDirBlocks]
    split
    · rename_i hz
      rw [List.filter_cons_of_neg (by simpa using hz)]
      exact ih
    · rename_i hz
      rw [List.filter_cons_of_pos (by simpa using hz)]
      refine (Finds.claim hd).seq (Finds.readArea
        ((walkDirBlock_finds hw dirBlk fs.blockSize 0 (c b).area.entries).seq ih
          fun A B hA hB => ⟨A, B, hA, hB, rfl⟩ : Finds fs c _ fun A => ∃ B C,
            FoundAll fs c past dossier (entriesIn fs.blockSize 0 (c b).area.entries) B ∧
            (∃ D, FoundAll fs c past dossier
              (blockEntries fs.blockSize c (blks.filter (· ≠ 0))) D ∧
              C = (((blks.filter (· ≠ 0)).map fun b => (b, dossier)) : List (Nat × Nat)) + D) ∧
            A = B + C)) ?_
      rintro A _ rfl ⟨B, _, hB, ⟨D, hD, rfl⟩, rfl⟩
      refine ⟨B + D, hB.append hD, ?_⟩
      rw [List.map_cons, ← Multiset.cons_coe, ← Multiset.singleton_add]
      abel

theorem walkRead_ok {blk : Nat} {s t : CheckSt} {ino : Inode} (hs : fs.now s.st = c)
    (h : walkRead fs blk s = (.ok ino, t)) :
    fs.now t.st = c ∧ t.walk = s.walk ∧ (c blk).inode = some ino := by
  simp only [walkRead, Prog.bind_eq_ok] at h
  obtain ⟨r, u, hr, h⟩ := h
  obtain ⟨hr, hw⟩ := onVolume_ok hr
  rcases r with e | i
  · simp only [Prog.bind_eq_ok, Prog.fail_eq_ok, and_false, exists_false] at h
  · cases h
    obtain ⟨hsame, hi, -⟩ := readInode_ok (Prog.attempt_eq_ok hr)
    exact ⟨by rw [hsame.now, hs], hw, hs ▸ hi⟩

/-- What is inside an inode: the blocks of its contents, and an object for each entry in use. -/
def FoundInside (fs : Fs) (c : Nat → Block) (past : Beyond) (blk : Nat) (ino : Inode)
    (A : Multiset (Nat × Nat)) : Prop :=
  ∃ kids, (ino.type = typeFile ∧ kids = [] ∨ ino.type = typeDir ∧ ∃ es,
      metOf fs c past blk ino = some es ∧ kids.map Obj.entry = live es) ∧
    (∀ k ∈ kids, k.AtBy fs c (metOf fs c past) ∧ k.ParentsAgree ∧ k.ino.parent = ino.dossier) ∧
    A = (((heldBy fs c ino).map fun b => (b, ino.dossier)) : List (Nat × Nat)) +
      Obj.claimsIn ino.dossier kids

theorem walkInside_finds {walk : Nat → W Unit} {ino : Inode} (hd : ino.dossier ≠ 0)
    (hw : ∀ e : Dirent, Finds fs c (walk e.inode) (Found fs c past e ino.dossier ino.dossier))
    (blk : Nat) :
    Finds fs c (walkInside fs past blk ino walk) (FoundInside fs c past blk ino) := by
  rw [walkInside]
  by_cases hdir : ino.type = typeDir
  · rw [if_pos hdir]
    by_cases hin : ino.inlineLen = 0
    · rw [if_neg (not_not.2 hin)]
      refine Finds.buffer ((walkDirBlocks_finds hd hw blk ino.directs).mono ?_)
      rintro A ⟨B, ⟨es, kids, hes, hk, hall, rfl⟩, rfl⟩
      refine ⟨kids, .inr ⟨hdir, es, ?_, hk⟩, hall, ?_⟩
      · rw [metOf, if_neg (not_not.2 hin)]; exact hes
      · rw [heldBy, if_neg (not_not.2 hin), if_pos (.inl hdir)]; rfl
    · rw [if_pos hin]
      refine (walkDirBlock_finds hw blk ino.inlineLen 0 _).mono ?_
      rintro A ⟨es, kids, hes, hk, hall, rfl⟩
      refine ⟨kids, .inr ⟨hdir, es, ?_, hk⟩, hall, ?_⟩
      · rw [metOf, if_pos hin]; exact hes
      · rw [heldBy, if_pos hin, List.map_nil, Multiset.coe_nil, zero_add]
  rw [if_neg hdir]
  by_cases hfile : ino.type = typeFile
  · rw [if_pos hfile]
    refine .when (fun hin => (walkFile_finds hd hin hfile).mono ?_) fun hin => ?_
    · rintro A rfl
      exact ⟨[], .inl ⟨hfile, rfl⟩, by simp, by rw [Obj.claimsIn_nil, add_zero]⟩
    · refine ⟨[], .inl ⟨hfile, rfl⟩, by simp, ?_⟩
      rw [heldBy, if_pos hin]
      rfl
  · rw [if_neg hfile]
    exact Finds.gaveUp

/-- A walk that finds nothing wrong has met a finite tree. -/
theorem walkInode_finds (left : Nat) (e : Dirent) (parent owner : Nat) (ho : owner ≠ 0) :
    Finds fs c (walkInode fs past left e.inode parent owner) (Found fs c past e parent owner) := by
  induction left generalizing e parent owner with
  | zero => exact Finds.gaveUp
  | succ left ih =>
    rw [walkInode]
    have hinside : Finds fs c (do
        onVolume (buffer fs.dev)
        let ino ← walkRead fs e.inode
        if ino.magic ≠ inodeMagic then
          giveUp "a directory entry points at something that is not an inode" e.inode .corrupt
        else if ino.dossier = 0 then
          giveUp "an inode has no dossier number" e.inode .corrupt
        else do
          Prog.when (ino.parent ≠ parent) (onWalk fun w =>
            w.disagree "an inode's parent is not the directory that names it" e.inode)
          onWalk fun w => { w with inodes := w.inodes + 1 }
          walkInside fs past e.inode ino fun child =>
            walkInode fs past left child ino.dossier ino.dossier)
        (fun B => ∃ ino, (c e.inode).inode = some ino ∧ ino.magic = inodeMagic ∧
          ino.dossier ≠ 0 ∧ ino.parent = parent ∧
          FoundInside fs c past e.inode ino B) := by
      refine Finds.buffer (Finds.value (P := fun ino => (c e.inode).inode = some ino)
        (fun s t ino hs h => walkRead_ok hs h) fun ino hino => ?_)
      split
      · exact Finds.gaveUp
      rename_i hmagic
      split
      · exact Finds.gaveUp
      rename_i hdossier
      have hparent : Finds fs c (Prog.when (ino.parent ≠ parent) (onWalk fun w =>
          w.disagree "an inode's parent is not the directory that names it" e.inode))
          (fun A => A = 0 ∧ ino.parent = parent) :=
        .when (fun _ => Finds.disagree.mono fun _ h => h.elim) fun h => ⟨rfl, not_not.1 h⟩
      have hcount : Finds fs c (onWalk fun w => { w with inodes := w.inodes + 1 })
          (fun A => A = 0) :=
        .record fun w => ⟨Nat.le_refl _, fun _ => ⟨0, rfl, by simp, fun M hM => by
          rwa [add_zero]⟩⟩
      refine hparent.seq (hcount.seq (walkInside_finds hdossier
        (fun e => ih e ino.dossier ino.dossier hdossier) e.inode)
        (K := FoundInside fs c past e.inode ino) ?_) ?_
      · rintro A B rfl hB
        rwa [zero_add]
      · rintro A B ⟨rfl, hp⟩ hB
        rw [zero_add]
        exact ⟨ino, hino, not_not.1 hmagic, hdossier, hp, hB⟩
    refine (Finds.claim ho).seq hinside ?_
    rintro A B rfl ⟨ino, hino, hmagic, hdossier, hp, kids, hkind, hall, rfl⟩
    refine ⟨.mk e ino (heldBy fs c ino) kids, rfl, Obj.all_iff.2 ⟨⟨hino, hmagic, hdossier, rfl,
      hkind⟩, fun k hk => (hall k hk).1⟩, Obj.all_iff.2 ⟨fun k hk => (hall k hk).2.2,
      fun k hk => (hall k hk).2.1⟩, hp, ?_⟩
    rw [Obj.claims_eq, Multiset.singleton_add]
    rfl

end Walks

/-! ## Past the end of a block -/

section Beyond

variable {fs : Fs} {c : Nat → Block} {past : Beyond}

theorem entriesIn_met_prefix {room len : Nat} {more es l l' : List Dirent} {off : Nat}
    (own : entriesIn (min len room) off es = some l)
    (met_ : entriesIn len off (met room more off es) = some l') : l <+: l' := by
  induction es generalizing off l l' with
  | nil =>
    cases own
    exact List.nil_prefix
  | cons de rest ih =>
    rw [entriesIn] at own
    split at own
    · cases own
      exact List.nil_prefix
    · rename_i header
      rw [met, if_neg (by omega), entriesIn, if_neg (by omega)] at met_
      split at own
      · cases own
        exact List.nil_prefix
      · rename_i used
        rw [if_neg used] at met_
        split at own
        · cases own
        · rename_i fits
          rw [if_neg (by omega)] at met_
          obtain ⟨m, ownRest, rfl⟩ := Option.map_eq_some_iff.1 own
          obtain ⟨m', metRest, rfl⟩ := Option.map_eq_some_iff.1 met_
          exact List.cons_prefix_cons.2 ⟨rfl, ih ownRest metRest⟩

theorem entriesIn_past {len off : Nat} (past : len < off + direntMin) (es : List Dirent) :
    entriesIn len off es = some [] := by
  cases es with
  | nil => rfl
  | cons de rest => rw [entriesIn, if_pos past]

theorem entriesIn_met {room len : Nat} (inside : len ≤ room) (more es : List Dirent) (off : Nat) :
    entriesIn len off (met room more off es) = entriesIn len off es := by
  induction es generalizing off with
  | nil =>
    rw [met]
    split
    · exact entriesIn_past (by omega) more
    · rfl
  | cons de rest ih =>
    rw [met]
    split
    · rw [entriesIn_past (by omega), entriesIn_past (by omega)]
    · rw [entriesIn, entriesIn, ih]

theorem metOf_grows {blk : Nat} {dir : Inode} {l l' : List Dirent}
    (own : entriesOf fs c dir = some l) (met_ : metOf fs c past blk dir = some l') : l <+: l' := by
  rw [entriesOf] at own
  rw [metOf] at met_
  split at own
  · rename_i inline
    rw [if_pos inline] at met_
    exact entriesIn_met_prefix own met_
  · rename_i outside
    rw [if_neg outside, own] at met_
    cases met_
    exact List.prefix_refl l

/-- The entries in use that the walk takes from a directory are those of the directory's own block. -/
def Contained (fs : Fs) (c : Nat → Block) (past : Beyond) (blk : Nat) (dir : Inode) : Prop :=
  (metOf fs c past blk dir).map live = (entriesOf fs c dir).map live

theorem contained_of_le {blk : Nat} {dir : Inode} (inside : dir.inlineLen ≤ inlineMax fs.blockSize) :
    Contained fs c past blk dir := by
  rw [Contained, metOf, entriesOf, entriesIn_met inside, Nat.min_eq_left inside]

/-- The inodes the walk meets on its way down from the root, by their blocks. -/
inductive Met (fs : Fs) (c : Nat → Block) (past : Beyond) : Nat → Prop
  | root : Met fs c past fs.rootInode
  | entry {blk : Nat} {dir : Inode} {es : List Dirent} {de : Dirent} (above : Met fs c past blk)
      (reads : (c blk).inode = some dir) (isDir : dir.type = typeDir)
      (takes : metOf fs c past blk dir = some es) (named : de ∈ live es) : Met fs c past de.inode

/-- No directory met makes the walk take an entry in use from past its block. -/
def StaysInside (fs : Fs) (c : Nat → Block) (past : Beyond) : Prop :=
  ∀ blk dir, Met fs c past blk → (c blk).inode = some dir → dir.type = typeDir →
    Contained fs c past blk dir

namespace Obj

/-- The same of one object. -/
def Keeps (fs : Fs) (c : Nat → Block) (past : Beyond) (o : Obj) : Prop :=
  o.ino.type = typeDir → Contained fs c past o.blk o.ino

theorem AtBy.met {o : Obj} (there : o.AtBy fs c (metOf fs c past)) (from_ : Met fs c past o.blk) :
    o.All fun o => Met fs c past o.blk := by
  induction o using ind with
  | h e i held kids ih =>
    refine all_iff.2 ⟨from_, fun k hk => ih k hk (there.kid hk) ?_⟩
    have reads := there.self
    cases reads.kind with
    | inl file => rw [file.2] at hk; cases hk
    | inr dir =>
      obtain ⟨isDir, es, takes, named⟩ := dir
      refine .entry from_ reads.inode isDir takes ?_
      rw [← named]
      exact List.mem_map_of_mem hk

theorem AtBy.kept {o : Obj} (there : o.AtBy fs c (metOf fs c past)) (root : o.blk = fs.rootInode)
    (keeps : o.All (Keeps fs c past)) : StaysInside fs c past := by
  intro blk dir from_ reads isDir
  obtain ⟨k, same, there, keeps⟩ : ∃ k : Obj, k.blk = blk ∧ k.AtBy fs c (metOf fs c past) ∧
      k.All (Keeps fs c past) := by
    clear reads isDir
    induction from_ with
    | root => exact ⟨o, root, there, keeps⟩
    | entry above reads isDir takes named ih =>
      obtain ⟨k, rfl, there, keeps⟩ := ih
      have own := there.self
      obtain rfl := Option.some.inj (reads.symm.trans own.inode)
      cases own.kind with
      | inl file => exact absurd (isDir.symm.trans file.1) (by decide)
      | inr dir =>
        obtain ⟨-, es, takes', kids⟩ := dir
        obtain rfl := Option.some.inj (takes.symm.trans takes')
        rw [← kids] at named
        obtain ⟨j, mem, rfl⟩ := List.mem_map.1 named
        exact ⟨j, rfl, there.kid mem, keeps.kid mem⟩
  subst same
  obtain rfl := Option.some.inj (reads.symm.trans there.self.inode)
  exact keeps.self isDir

/-- A tree whose directories all stay inside their blocks is the tree of the medium. -/
theorem AtBy.at {o : Obj} (there : o.AtBy fs c (metOf fs c past)) (keeps : o.All (Keeps fs c past)) :
    o.At fs c := by
  refine (all_and.2 ⟨there, keeps⟩).mono ?_
  rintro o ⟨reads, keeps⟩
  refine ⟨reads.inode, reads.magic, reads.dossier, reads.held, reads.kind.imp_right ?_⟩
  rintro ⟨isDir, es, takes, named⟩
  have same := keeps isDir
  rw [Contained, takes] at same
  obtain ⟨l, own, live_⟩ := Option.map_eq_some_iff.1 same.symm
  exact ⟨isDir, l, own, named.trans live_.symm⟩

theorem card_claims_pos (owner : Nat) (o : Obj) : 0 < (o.claims owner).card :=
  Multiset.card_pos_iff_exists_mem.2 ⟨_, mem_claims_self owner o⟩

/-- Objects met beyond some others claim more blocks than those. -/
theorem card_claimsIn_le {d : Nat} {P : Obj → Prop} {kids kids' : List Obj}
    (front : kids.map entry <+: kids'.map entry)
    (each : ∀ k ∈ kids, ∀ k' ∈ kids', k'.entry = k.entry →
      (k.claims d).card ≤ (k'.claims d).card ∧ ((k'.claims d).card ≤ (k.claims d).card → P k')) :
    (claimsIn d kids).card ≤ (claimsIn d kids').card ∧
      ((claimsIn d kids').card ≤ (claimsIn d kids).card →
        kids'.map entry = kids.map entry ∧ ∀ k' ∈ kids', P k') := by
  induction kids generalizing kids' with
  | nil =>
    refine ⟨by simp, fun less => ?_⟩
    cases kids' with
    | nil => exact ⟨rfl, by simp⟩
    | cons k' rest =>
      have some_ := card_claims_pos d k'
      simp only [claimsIn_cons, claimsIn_nil, Multiset.card_add, Multiset.card_zero] at less
      omega
  | cons k kids ih =>
    cases kids' with
    | nil => exact absurd front (by simp)
    | cons k' rest =>
      obtain ⟨same, front⟩ := List.cons_prefix_cons.1 front
      obtain ⟨le, eq⟩ := each k List.mem_cons_self k' List.mem_cons_self same.symm
      obtain ⟨le', eq'⟩ := ih front fun j hj j' hj' =>
        each j (List.mem_cons_of_mem _ hj) j' (List.mem_cons_of_mem _ hj')
      simp only [claimsIn_cons, Multiset.card_add]
      refine ⟨by omega, fun less => ?_⟩
      obtain ⟨rest_, all⟩ := eq' (by omega)
      refine ⟨by rw [List.map_cons, List.map_cons, same, rest_], fun j hj => ?_⟩
      cases List.mem_cons.1 hj with
      | inl first => exact first ▸ eq (by omega)
      | inr later => exact all j later

/-- The walk claims every block of the medium's tree, and more only where it leaves a block. -/
theorem At.card_claims_le {o o' : Obj} (own : o.At fs c) (met_ : o'.AtBy fs c (metOf fs c past))
    (same : o'.entry = o.entry) (owner : Nat) :
    (o.claims owner).card ≤ (o'.claims owner).card ∧
      ((o'.claims owner).card ≤ (o.claims owner).card → o'.All (Keeps fs c past)) := by
  induction o using ind generalizing o' owner with
  | h e i held kids ih =>
    obtain ⟨e', i', held', kids'⟩ := o'
    obtain rfl : e' = e := same
    have reads := own.self
    have reads' := met_.self
    obtain rfl : i' = i := Option.some.inj (reads'.inode.symm.trans reads.inode)
    obtain rfl : held' = held := reads'.held.trans reads.held.symm
    obtain ⟨front, stays⟩ : kids.map entry <+: kids'.map entry ∧
        (kids'.map entry = kids.map entry → Keeps fs c past (.mk e' i' held' kids')) := by
      cases reads.kind with
      | inl file =>
        refine ⟨by simp [show kids = [] from file.2], fun _ isDir => ?_⟩
        exact absurd (isDir.symm.trans file.1) (by decide)
      | inr dir =>
        obtain ⟨isDir, es, own_, kids_⟩ := dir
        cases reads'.kind with
        | inl file => exact absurd (isDir.symm.trans file.1) (by decide)
        | inr dir =>
          obtain ⟨-, es', met_', kids_'⟩ := dir
          simp only [kids_mk] at kids_ kids_'
          rw [kids_, kids_']
          refine ⟨(metOf_grows own_ met_').filter _, fun same _ => ?_⟩
          have own_ : entriesOf fs c i' = some es := own_
          have met_' : metOf fs c past e'.inode i' = some es' := met_'
          show (metOf fs c past e'.inode i').map live = (entriesOf fs c i').map live
          rw [met_', own_, Option.map_some, Option.map_some, same]
    obtain ⟨le, eq⟩ := card_claimsIn_le (d := i'.dossier) front fun k hk k' hk' same =>
      ih k hk (own.kid hk) (met_.kid hk') same i'.dossier
    simp only [claims, Multiset.card_cons, Multiset.card_add]
    refine ⟨by omega, fun less => ?_⟩
    obtain ⟨all_same, all⟩ := eq (by omega)
    exact all_iff.2 ⟨stays all_same, all⟩

end Obj

end Beyond

/-! ## The sweep -/

section Sweep

variable {fs : Fs} {c : Nat → Block}

theorem Walk.compare_owner (w : Walk) (b actual : Nat) : (w.compare b actual).owner = w.owner := by
  simp only [Walk.compare]
  by_cases hv : actual = ownerVoid
  · simp only [hv, ne_eq, not_true_eq_false, ↓reduceIte]
    split <;> rfl
  · simp only [ne_eq, hv, not_false_eq_true, ↓reduceIte]
    split
    · rfl
    · split <;> rfl

theorem Walk.compare_found (w : Walk) (b actual : Nat) :
    w.disagreements ≤ (w.compare b actual).disagreements ∧
      ((w.compare b actual).disagreements = w.disagreements → actual = w.owner b) := by
  simp only [Walk.compare]
  by_cases hv : actual = ownerVoid
  · simp only [hv, ne_eq, not_true_eq_false, ↓reduceIte]
    split
    · rename_i heq; exact ⟨Nat.le_refl _, fun _ => heq⟩
    · exact ⟨Nat.le_succ _, fun h => absurd h (Nat.succ_ne_self _)⟩
  · simp only [ne_eq, hv, not_false_eq_true, ↓reduceIte]
    split
    · rename_i heq; exact ⟨Nat.le_refl _, fun _ => heq⟩
    · split
      · exact ⟨Nat.le_succ _, fun h => absurd h (Nat.succ_ne_self _)⟩
      · exact ⟨Nat.le_succ _, fun h => absurd h (Nat.succ_ne_self _)⟩

/-- A walk of the table that does not trap was told a span that fits 64 bits. -/
theorem span_of_walk {fs : Fs} (hz : fs.Sized) {depth node index leaf : Nat} {s t : St}
    (h : walkTable fs depth (spanOf fs.perIndex depth) node index s = (.ok leaf, t)) :
    fs.perIndex ^ depth < 2 ^ 64 := by
  cases depth with
  | zero => simp
  | succ depth =>
    simp only [walkTable, Prog.bind_eq_ok, Prog.ensure_eq_ok] at h
    obtain ⟨slots, u, -, -, _, ⟨hne, -⟩, -⟩ := h
    have hpow : ∃ k, fs.perIndex = 2 ^ k := by
      have hok := hz.sizeOk
      simp only [blockSizeOk, Bool.and_eq_true, decide_eq_true_eq, isPow2, List.any_eq_true,
        List.mem_range, beq_iff_eq] at hok
      obtain ⟨⟨hlo, -⟩, k, -, hk⟩ := hok
      have h3 : 3 ≤ k := by
        by_contra hlt
        have : 2 ^ k ≤ 2 ^ 2 := Nat.pow_le_pow_right (by decide) (by omega)
        rw [hk, blockMin] at hlo
        omega
      refine ⟨k - 3, ?_⟩
      rw [hz.perIndex_eq, perIndexFor, hk, show (8 : Nat) = 2 ^ 3 from rfl,
        Nat.pow_div h3 (by decide)]
    obtain ⟨k, hk⟩ := hpow
    rw [hk] at hne
    rw [hk, ← Nat.pow_mul]
    -- A power of two past 64 bits leaves nothing of itself in them.
    by_contra hge
    have hexp : 64 ≤ k * (depth + 1) := by
      by_contra hlt
      exact hge (Nat.pow_lt_pow_right (by decide) (by omega))
    have hzero : spanOf (2 ^ k) (depth + 1) = 0 := by
      rw [spanOf, ← Nat.pow_mul]
      exact Nat.mod_eq_zero_of_dvd (Nat.pow_dvd_pow 2 hexp)
    rw [hzero, Nat.zero_div] at hne
    exact hne rfl

/-- What a sweep that finds nothing has checked: the table's leaves are there for every block it
passed, and hold what the walk recorded. -/
theorem sweepAndCompare_finds (hz : fs.Sized) {left b : Nat} {leaf : Nat → Nat}
    (hb : b + left = fs.totalBlocks)
    (hleaf : b % fs.perLeaf = 0 ∨ ∃ l, fs.perIndex ^ fs.tableDepth < 2 ^ 64 ∧
      leafAt c fs.perIndex fs.tableDepth fs.tableRoot (b / fs.perLeaf) = some l ∧
      leaf = (c l).slots) {s t : CheckSt} (hs : fs.now s.st = c)
    (h : sweepAndCompare fs left b leaf s = (.ok (), t)) :
    s.walk.disagreements ≤ t.walk.disagreements ∧ t.walk.owner = s.walk.owner ∧
      (t.walk.disagreements = s.walk.disagreements → ∀ x, b ≤ x → x < fs.totalBlocks →
        fs.perIndex ^ fs.tableDepth < 2 ^ 64 ∧
        ∃ l, leafAt c fs.perIndex fs.tableDepth fs.tableRoot (x / fs.perLeaf) = some l ∧
          s.walk.owner x = (c l).slots (x % fs.perLeaf)) := by
  induction left generalizing b leaf s with
  | zero => cases h; exact ⟨Nat.le_refl _, rfl, fun _ x hx hx' => by omega⟩
  | succ left ih =>
    simp only [sweepAndCompare, Prog.bind_eq_ok] at h
    obtain ⟨leaf', u, hl, _, v, hv, h⟩ := h
    have hread : fs.now u.st = c ∧ u.walk = s.walk ∧ ∃ l, fs.perIndex ^ fs.tableDepth < 2 ^ 64 ∧
        leafAt c fs.perIndex fs.tableDepth fs.tableRoot (b / fs.perLeaf) = some l ∧
        leaf' = (c l).slots := by
      rw [sweepLeaf] at hl
      by_cases hmod : b % fs.perLeaf = 0
      · rw [if_pos hmod] at hl
        obtain ⟨hr, hw⟩ := onVolume_ok hl
        simp only [readLeaf, tableLeaf, Prog.bind_eq_ok, need_eq_ok] at hr
        obtain ⟨-, _, ⟨-, rfl⟩, l, x, hwalk, hslots⟩ := hr
        have hspan := span_of_walk hz hwalk
        rw [spanOf, Nat.mod_eq_of_lt hspan] at hwalk
        obtain ⟨hsame, hat⟩ := walkTable_ok hz.perIndex_pos hwalk
        obtain ⟨hsame', rfl, -⟩ := readSlots_ok hslots
        rw [hsame.now, hs]
        refine ⟨by rw [hsame'.now, hsame.now, hs], hw, l, hspan, ?_, rfl⟩
        rw [hs, Nat.mul_div_cancel _ hz.perLeaf_pos] at hat
        exact hat
      · rw [if_neg hmod] at hl
        cases hl
        exact ⟨hs, rfl, hleaf.resolve_left hmod⟩
    obtain ⟨hnow, hwalk, l, hspan, hat, rfl⟩ := hread
    obtain ⟨hcle, hcgood⟩ := Walk.compare_found u.walk b ((c l).slots (b % fs.perLeaf))
    have hvw : v.walk = u.walk.compare b ((c l).slots (b % fs.perLeaf)) := by cases hv; rfl
    have hvst : v.st = u.st := by cases hv; rfl
    have hnext : (b + 1) % fs.perLeaf = 0 ∨ ∃ l', fs.perIndex ^ fs.tableDepth < 2 ^ 64 ∧
        leafAt c fs.perIndex fs.tableDepth fs.tableRoot ((b + 1) / fs.perLeaf) = some l' ∧
        (c l).slots = (c l').slots := by
      by_cases hmod : (b + 1) % fs.perLeaf = 0
      · exact .inl hmod
      · refine .inr ⟨l, hspan, ?_, rfl⟩
        rwa [Nat.succ_div_of_mod_ne_zero hmod]
    obtain ⟨hle, hown, hgood⟩ := ih (by omega) hnext (hvst ▸ hnow) h
    rw [hvw] at hle hown hgood
    rw [Walk.compare_owner] at hown hgood
    rw [hwalk] at hle hown hgood hcle hcgood
    refine ⟨hcle.trans hle, hown, fun heq x hx hx' => ?_⟩
    by_cases hxb : x = b
    · subst hxb
      exact ⟨hspan, l, hat, (hcgood (by omega)).symm⟩
    · exact hgood (by omega) x (by omega) hx'

end Sweep

/-! ## The whole check -/

/-- Both superblocks and the run between them, as the owner table lists them. -/
def reservedClaims (n : Nat) : Multiset (Nat × Nat) :=
  ((List.range n).map fun b => (b, ownerArchive) : List (Nat × Nat))

/-- The root directory, as if an entry named it. -/
def Fs.rootEntry (fs : Fs) : Dirent := ⟨fs.rootInode, 0, typeDir, []⟩

/-- Everything the superblock reaches, each block once for each way of reaching it. -/
def volumeClaims (fs : Fs) (c : Nat → Block) (root : Obj) : Multiset (Nat × Nat) :=
  reservedClaims (firstDataBlock fs.blockSize) +
    tableClaims (tableNodes c fs.perIndex fs.tableDepth fs.tableRoot) + root.claims ownerArchive

/-- The volume is accounted for: below the root is a finite tree, its objects name their
directories, and the owner table records exactly what the superblock reaches, no block of it reached
twice. Directories are taken as `read` takes them. -/
structure AccountedBy (fs : Fs) (c : Nat → Block) (read : Reading) (own : Nat → Nat) (root : Obj) :
    Prop where
  table : TableOf fs c own
  entry : root.entry = fs.rootEntry
  tree : root.AtBy fs c read
  parent : root.ino.parent = 0
  parents : root.ParentsAgree
  ledger : Ledger ownerVoid own (volumeClaims fs c root)

/-- The volume is accounted for, as the medium holds it. -/
abbrev Accounted (fs : Fs) (c : Nat → Block) (own : Nat → Nat) (root : Obj) : Prop :=
  AccountedBy fs c (fun _ => entriesOf fs c) own root

theorem Walk.reserve_owner (n : Nat) :
    (Walk.start.reserve n).disagreements = 0 ∧
      Ledger 0 (Walk.start.reserve n).owner (reservedClaims n) := by
  induction n with
  | zero =>
    refine ⟨rfl, ⟨by simp [reservedClaims], fun k v => ?_⟩⟩
    simp only [reservedClaims, List.range_zero, List.map_nil, Multiset.coe_nil,
      Multiset.notMem_zero, false_iff]
    rintro ⟨rfl, hv⟩
    exact hv rfl
  | succ n ih =>
    have hstep : Walk.start.reserve (n + 1) = (Walk.start.reserve n).mark n ownerArchive := by
      rw [Walk.reserve, List.range_succ, List.foldl_append]
      rfl
    have hfree : (Walk.start.reserve n).owner n = 0 := by
      rw [ih.2.free_iff]
      simp [reservedClaims]
    refine ⟨by rw [hstep]; exact ih.1, ?_⟩
    have hclaims : reservedClaims (n + 1) = (n, ownerArchive) ::ₘ reservedClaims n := by
      rw [reservedClaims, List.range_succ, List.map_append, ← Multiset.coe_add, add_comm]
      rfl
    rw [hclaims, hstep]
    exact ih.2.claim hfree (by decide)

theorem checkRun_accounted {fs : Fs} (hz : fs.Sized) {past : Beyond} {s t : CheckSt}
    (hstart : s.walk = .start) (h : checkRun fs past s = (.ok (), t))
    (hw : t.walk.disagreements = 0) :
    ∃ own root, AccountedBy fs (fs.now s.st) (metOf fs (fs.now s.st) past) own root := by
  have hfront := hz.front
  have hmin : min (firstDataBlock fs.blockSize) fs.totalBlocks = firstDataBlock fs.blockSize :=
    Nat.min_eq_left (Nat.le_of_lt hfront)
  simp only [checkRun, hmin, Prog.bind_eq_ok] at h
  obtain ⟨_, u1, hreserve, _, u2, htable, _, u3, htree, _, u4, hbuf, hsweep⟩ := h
  obtain ⟨hdis, hled⟩ := Walk.reserve_owner (firstDataBlock fs.blockSize)
  have hu1 : u1.st = s.st ∧ u1.walk = Walk.start.reserve (firstDataBlock fs.blockSize) := by
    rw [← hstart]
    exact ⟨(congrArg (fun r => r.2.st) hreserve).symm, (congrArg (fun r => r.2.walk) hreserve).symm⟩
  rw [← hu1.2] at hdis hled
  obtain ⟨hnow2, hle2, hgood2⟩ := claimTable_finds fs.tableDepth fs.tableRoot u1 u2
    (by rw [hu1.1]) htable
  obtain ⟨hnow3, hle3, hgood3⟩ := walkInode_finds (checkMaxDepth + 1) fs.rootEntry 0 ownerArchive
    (by decide) u2 u3 hnow2 htree
  obtain ⟨hbuf, hwalk4⟩ := onVolume_ok hbuf
  have hnow4 : fs.now u4.st = fs.now s.st := by rw [(buffer_ok hbuf).now, hnow3]
  obtain ⟨hle, -, hgood⟩ := sweepAndCompare_finds hz (Nat.zero_add _) (.inl (Nat.zero_mod _))
    hnow4 hsweep
  rw [hwalk4] at hle hgood
  obtain ⟨A, rfl, hAin, hAl⟩ := hgood2 (by omega)
  obtain ⟨B, ⟨root, hentry, hat, hparents, hparent, rfl⟩, hBin, hBl⟩ := hgood3 (by omega)
  have hled := hBl _ (hAl _ hled)
  have hall := hgood (by omega)
  refine ⟨u3.walk.owner, root, ⟨(hall 0 (Nat.le_refl 0) (by omega)).1, fun b hb => ?_,
    fun p hp => ?_, fun b hb => ?_⟩, hentry, hat, hparent, hparents, hled⟩
  · obtain ⟨-, l, hl, hown⟩ := hall b (Nat.zero_le b) hb
    exact ⟨l, hl, hown⟩
  · exact hAin (p.2, ownerArchive) (Multiset.mem_coe.2 (List.mem_map_of_mem
      (f := fun p : Nat × Nat => (p.2, ownerArchive)) hp))
  · refine hled.free_iff.2 fun hmem => ?_
    obtain ⟨p, hp, rfl⟩ := Multiset.mem_map.1 hmem
    rcases Multiset.mem_add.1 hp with hp | hp
    · rcases Multiset.mem_add.1 hp with hp | hp
      · obtain ⟨x, hx, rfl⟩ := List.mem_map.1 (Multiset.mem_coe.1 hp)
        have := List.mem_range.1 hx
        simp only at hb
        omega
      · exact Nat.lt_irrefl _ (Nat.lt_of_lt_of_le (hAin p hp) hb)
    · exact Nat.lt_irrefl _ (Nat.lt_of_lt_of_le (hBin p hp) hb)

/-- A check that finds nothing wrong vouches for the volume as the walk takes it. -/
theorem check_accounted {fs : Fs} (hr : fs.Ready) {past : Beyond} {s : St} {w : Walk}
    (h : check fs past s = (.ok (), w)) (hw : w.disagreements = 0) :
    ∃ own root, AccountedBy fs (fs.now s) (metOf fs (fs.now s) past) own root := by
  rcases hrun : checkMounted fs past ⟨s, .start⟩ with ⟨r, t⟩
  simp only [check, hrun] at h
  obtain ⟨rfl, rfl⟩ := Prod.mk.inj h
  simp only [checkMounted, Prog.bind_eq_ok] at hrun
  obtain ⟨_, u1, h1, _, u2, h2, _, u3, h3, hrun⟩ := hrun
  obtain ⟨h1, hw1⟩ := onVolume_ok h1
  obtain ⟨h2, hw2⟩ := onVolume_ok h2
  obtain ⟨h3, hw3⟩ := onVolume_ok h3
  rw [need_eq_ok] at h1 h2
  have hnow : fs.now u3.st = fs.now s := by rw [(buffer_ok h3).now, ← h2.2, ← h1.2]
  obtain ⟨own, root, ha⟩ := checkRun_accounted hr.sized (by rw [hw3, hw2, hw1]) hrun hw
  exact ⟨own, root, hnow ▸ ha⟩

section Whole

variable {fs : Fs} {c : Nat → Block} {past : Beyond} {own own' : Nat → Nat} {root root' : Obj}

/-- What the walk takes is what the medium holds exactly where it stays inside the blocks. -/
theorem AccountedBy.onMedium (met_ : AccountedBy fs c (metOf fs c past) own root)
    (inside : StaysInside fs c past) : Accounted fs c own root := by
  have all := met_.tree.met (by rw [Obj.blk, met_.entry]; exact .root)
  have keeps : root.All (Obj.Keeps fs c past) := by
    refine (Obj.all_and.2 ⟨met_.tree, all⟩).mono ?_
    rintro o ⟨reads, there⟩ isDir
    exact inside o.blk o.ino there reads.inode isDir
  exact ⟨met_.table, met_.entry, met_.tree.at keeps, met_.parent, met_.parents, met_.ledger⟩

theorem AccountedBy.inside (met_ : AccountedBy fs c (metOf fs c past) own root)
    (there : Accounted fs c own' root') : StaysInside fs c past := by
  have same : own' = own := there.table.unique met_.table
  have claims := (same ▸ there.ledger).unique met_.ledger
  have trees : root'.claims ownerArchive = root.claims ownerArchive := add_left_cancel claims
  have entry := met_.entry.trans there.entry.symm
  obtain ⟨-, keeps⟩ := Obj.At.card_claims_le there.tree met_.tree entry ownerArchive
  exact met_.tree.kept (by rw [Obj.blk, met_.entry]; rfl) (keeps (by rw [trees]))

end Whole

/-- A check that finds nothing wrong on a mounted volume vouches for all of it but two things: the
types its directory entries record, which it never reads, and where the entries inside an inode end,
which it takes from the inode without a look at the block. -/
theorem check_sound_iff {dev : BlockDevice} {fs : Fs} {past : Beyond} {s₀ s : St} {w : Walk}
    (hm : mount dev s₀ = (.ok fs, s)) (h : check fs past s = (.ok (), w))
    (hw : w.disagreements = 0) :
    (∃ own root, Accounted fs (fs.now s) own root ∧ root.TypesAgree) ↔
      StaysInside fs (fs.now s) past ∧
      ∀ root : Obj, root.entry = fs.rootEntry → root.At fs (fs.now s) → root.TypesAgree := by
  obtain ⟨own, root, met_⟩ := check_accounted (mount_ready hm).2 h hw
  constructor
  · rintro ⟨own', root', ha, hagree⟩
    refine ⟨met_.inside ha, fun root'' hentry hat => ?_⟩
    rwa [ha.tree.unique hat (hentry.trans ha.entry.symm)]
  · rintro ⟨inside, hagree⟩
    have ha := met_.onMedium inside
    exact ⟨own, root, ha, hagree root ha.entry ha.tree⟩

/-! ## An entry of the wrong type -/

def tinyDevice : BlockDevice := plainDevice 32 (by decide)

def tinySuper : Super :=
  { magic := reconfsMagic, version := reconfsVersion, blockSize := 4096, epoch := 1
    totalBlocks := 32, rootInode := 17, tableRoot := 18, tableDepth := 0, nextDossier := 4
    blocksUsed := 20, label := [], fold := foldAscii, seekIsFree := true
    discardSupported := false, transferHint := 0 }

/-- A root directory with one entry, which calls what it names a `type`. -/
def tinyRoot (type : Nat) : Inode :=
  { rootDirectory 0 with
    size := 24, inlineLen := 24, data := ⟨fun _ => 0, [newEntry 19 type [97]]⟩ }

/-- The empty directory it names. -/
def tinyInside : Inode := createdInode 3 2 typeDir 0o755 0

/-- A volume with a root directory, and `n` empty ones from block 19 on that are the root's. -/
def tinyVolume (root : Inode) (n : Nat) : Nat → Block := fun b =>
  if b = 0 ∨ b = 16 then .ofSuper 4096 tinySuper
  else if b = 17 then .ofInode root
  else if b = 18 then .ofSlots fun i => if i ≤ 18 then ownerArchive else if i < 19 + n then 2 else 0
  else if 18 < b ∧ b < 19 + n then .ofInode tinyInside
  else .zero

def volumeState (root : Inode) (n : Nat) : St := ⟨.fresh (tinyVolume root n), 0, .empty⟩

def tinyState (type : Nat) : St := volumeState (tinyRoot type) 1

def tinyFs : Fs := (unread tinyDevice 4096 1).under tinySuper superA

/-- The tree on it. -/
def tinyTree (root : Inode) (type : Nat) : Obj :=
  .mk tinyFs.rootEntry root [] [.mk (newEntry 19 type [97]) tinyInside [] []]

/-- The state a mount of the volume leaves. -/
def mounted (s : St) : St := (mount tinyDevice s).2

section Tiny

variable (root : Inode) (n : Nat)

theorem tiny_mount :
    mount tinyDevice (volumeState root n) = (.ok tinyFs, mounted (volumeState root n)) ∧
      tinyFs.now (mounted (volumeState root n)) = tinyFs.view (tinyVolume root n) := by
  have hok : superOk tinySuper 32 = true := by decide
  have hcand : ∀ addr, addr = 0 ∨ addr = 16 →
      candidateOf (unread tinyDevice 4096 1) (tinyVolume root n) addr = some tinySuper := by
    rintro addr (rfl | rfl)
    · exact candidateOf_ofSuper (by decide) (by decide) rfl hok rfl
    · exact candidateOf_ofSuper (by decide) (by decide) rfl hok rfl
  obtain ⟨t, ht, hs⟩ : ∃ t, mount tinyDevice (volumeState root n) = (.ok tinyFs, t) ∧
      Same (volumeState root n) t := by
    refine mount_run granting_obliging (mountOf_eq 1 false rfl rfl rfl ?_)
    change believe (candidateOf _ (tinyVolume root n) superA)
      (candidateOf _ (tinyVolume root n) 16) = _
    rw [hcand superA (.inl rfl), hcand 16 (.inr rfl), believe, if_pos (Nat.le_refl _)]
  have heq : mounted (volumeState root n) = t := by rw [mounted, ht]
  rw [heq]
  exact ⟨ht, hs.now tinyFs⟩

variable {root n} in
theorem tinyTree_at {type : Nat} {es : List Dirent}
    (isRoot : root.magic = inodeMagic ∧ root.dossier = dossierRoot ∧ root.type = typeDir)
    (inline : root.inlineLen ≠ 0) (more : 0 < n)
    (own : entriesOf tinyFs (tinyFs.view (tinyVolume root n)) root = some es)
    (one_ : live es = [newEntry 19 type [97]]) :
    (tinyTree root type).At tinyFs (tinyFs.view (tinyVolume root n)) := by
  obtain ⟨magic, dossier, isDir⟩ := isRoot
  have inside : (tinyFs.view (tinyVolume root n) 19).inode = some tinyInside := by
    show (tinyVolume root n (19 * 1)).inode = some tinyInside
    rw [tinyVolume, if_neg (by decide), if_neg (by decide), if_neg (by decide),
      if_pos (by omega), inode_ofInode]
  refine Obj.all_iff.2 ⟨⟨rfl, magic, ?_, ?_, .inr ⟨isDir, es, own, one_.symm⟩⟩, fun k hk => ?_⟩
  · show root.dossier ≠ 0
    rw [dossier]
    decide
  · show [] = heldBy _ _ root
    rw [heldBy, if_pos inline]
  · obtain rfl := List.mem_singleton.1 hk
    have some_ : (3 : Nat) ≠ 0 := by decide
    exact Obj.all_iff.2 ⟨⟨inside, rfl, some_, rfl, .inr ⟨rfl, [], rfl, rfl⟩⟩, fun k hk => by cases hk⟩

end Tiny

theorem tinyRoot_at (type : Nat) :
    (tinyTree (tinyRoot type) type).At tinyFs (tinyFs.view (tinyVolume (tinyRoot type) 1)) := by
  have inline : (24 : Nat) ≠ 0 := by decide
  exact tinyTree_at ⟨rfl, rfl, rfl⟩ inline Nat.one_pos rfl rfl

theorem tinyTree_typesAgree {root : Inode} {type : Nat} :
    (tinyTree root type).TypesAgree ↔ type = typeDir := by
  constructor
  · intro h
    exact h.self _ List.mem_cons_self
  · rintro rfl
    refine Obj.all_iff.2 ⟨fun k hk => ?_, fun k hk => ?_⟩
    · obtain rfl := List.mem_singleton.1 hk; rfl
    · obtain rfl := List.mem_singleton.1 hk
      exact Obj.all_iff.2 ⟨fun _ hj => (List.not_mem_nil hj).elim,
        fun _ hj => (List.not_mem_nil hj).elim⟩

theorem tiny_stays (type : Nat) (past : Beyond) :
    StaysInside tinyFs (tinyFs.view (tinyVolume (tinyRoot type) 1)) past := by
  intro blk dir _ reads _
  refine contained_of_le ?_
  have reads : (tinyVolume (tinyRoot type) 1 (blk * 1)).inode = some dir := reads
  unfold tinyVolume at reads
  split at reads
  · cases reads
  split at reads
  · cases reads
    show 24 ≤ inlineMax tinyFs.blockSize
    decide
  split at reads
  · cases reads
  split at reads
  · cases reads
    decide
  · cases reads

/-- The check passes a directory whose entry calls it a file. -/
theorem check_misses_type :
    ∃ w, mount tinyDevice (tinyState typeFile) = (.ok tinyFs, mounted (tinyState typeFile)) ∧
      check tinyFs (fun _ => []) (mounted (tinyState typeFile)) = (.ok (), w) ∧
      w.disagreements = 0 ∧
      ¬∃ own root, Accounted tinyFs (tinyFs.now (mounted (tinyState typeFile))) own root ∧
        root.TypesAgree := by
  have hok : (check tinyFs (fun _ => []) (mounted (tinyState typeFile))).1 = .ok () := by
    decide +kernel
  have hnone : (check tinyFs (fun _ => []) (mounted (tinyState typeFile))).2.disagreements = 0 := by
    decide +kernel
  rcases hc : check tinyFs (fun _ => []) (mounted (tinyState typeFile)) with ⟨r, w⟩
  rw [hc] at hok hnone
  obtain rfl : r = .ok () := hok
  refine ⟨w, (tiny_mount _ _).1, rfl, hnone, ?_⟩
  rintro ⟨own, root, ha, hagree⟩
  have htree := ha.tree
  rw [tinyState, (tiny_mount _ _).2] at htree
  rw [(tinyRoot_at typeFile).unique htree (ha.entry.trans rfl), tinyTree_typesAgree] at hagree
  exact absurd hagree (by decide)

theorem check_sound_tiny : ∃ own root,
    Accounted tinyFs (tinyFs.now (mounted (tinyState typeDir))) own root ∧ root.TypesAgree := by
  have hok : (check tinyFs (fun _ => []) (mounted (tinyState typeDir))).1 = .ok () := by
    decide +kernel
  have hnone : (check tinyFs (fun _ => []) (mounted (tinyState typeDir))).2.disagreements = 0 := by
    decide +kernel
  rcases hc : check tinyFs (fun _ => []) (mounted (tinyState typeDir)) with ⟨r, w⟩
  rw [hc] at hok hnone
  obtain rfl : r = .ok () := hok
  refine (check_sound_iff (tiny_mount _ _).1 hc hnone).2 ?_
  rw [(tiny_mount _ _).2]
  refine ⟨tiny_stays typeDir _, fun root he hat => ?_⟩
  rw [(tinyRoot_at typeDir).unique hat he]
  exact tinyTree_typesAgree.2 rfl

/-! ## Entries past the end of a block -/

/-- A root directory whose entries fill its block, and whose length for them is 24 bytes more. -/
def overlongRoot : Inode :=
  { rootDirectory 0 with
    size := 3888, inlineLen := 3888
    data := ⟨fun _ => 0, [newEntry 19 typeDir [97], ⟨0, 3840, 0, []⟩]⟩ }

/-- The check passes a block that nothing on the medium reaches and the owner table has: after the
buffer the root was read into, the memory happens to hold an entry that names it. -/
theorem check_reads_past :
    ∃ w, check tinyFs (fun _ => [newEntry 20 typeDir [98]]) (mounted (volumeState overlongRoot 2)) =
        (.ok (), w) ∧ w.disagreements = 0 ∧
      ¬∃ own root, Accounted tinyFs (tinyFs.now (mounted (volumeState overlongRoot 2))) own root := by
  generalize after : (fun _ => [newEntry 20 typeDir [98]] : Beyond) = past
  have hok : (check tinyFs past (mounted (volumeState overlongRoot 2))).1 = .ok () := by
    subst after
    decide +kernel
  have hnone : (check tinyFs past (mounted (volumeState overlongRoot 2))).2.disagreements = 0 := by
    subst after
    decide +kernel
  rcases hc : check tinyFs past (mounted (volumeState overlongRoot 2)) with ⟨r, w⟩
  rw [hc] at hok hnone
  obtain rfl : r = .ok () := hok
  refine ⟨w, rfl, hnone, ?_⟩
  rintro ⟨own, root, there⟩
  rw [(tiny_mount _ _).2] at there
  have inline : (3888 : Nat) ≠ 0 := by decide
  have tree : (tinyTree overlongRoot typeDir).At tinyFs (tinyFs.view (tinyVolume overlongRoot 2)) :=
    tinyTree_at ⟨rfl, rfl, rfl⟩ inline (by decide) rfl rfl
  have claimed : (20, own 20) ∈ volumeClaims tinyFs (tinyFs.view (tinyVolume overlongRoot 2)) root := by
    refine there.ledger.mem_of_ne ?_
    obtain ⟨l, at_l, same⟩ := there.table.leaf 20 (by decide)
    cases at_l
    rw [same]
    decide
  rw [tree.unique there.tree there.entry] at claimed
  have keys : 20 ∈ (volumeClaims tinyFs (tinyFs.view (tinyVolume overlongRoot 2))
      (tinyTree overlongRoot typeDir)).map Prod.fst := Multiset.mem_map_of_mem Prod.fst claimed
  revert keys
  decide

end ReconOS.Reconfs
