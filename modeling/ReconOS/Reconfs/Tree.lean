import ReconOS.Reconfs.Table
import Mathlib.Algebra.Order.Group.Multiset
import Mathlib.Tactic.Abel

/-! The directory tree the medium holds: an object with the blocks of its contents and, below a
directory, the objects its entries name. -/
namespace ReconOS.Reconfs

/-! ## Entries and contents -/

/-- The entries of a stretch of `len` bytes, from byte `off` up to its padding; `none` if one does
not fit. -/
def entriesIn (len : Nat) : Nat → List Dirent → Option (List Dirent)
  | _, [] => some []
  | off, de :: rest =>
    if len < off + direntMin then some []
    else if de.recLen = 0 then some []
    else if de.recLen < direntMin ∨ len < off + de.recLen ∨ de.recLen < de.name.length + direntMin
      then none
    else (entriesIn len (off + de.recLen) rest).map (de :: ·)

/-- The direct blocks in use. -/
def Inode.used (i : Inode) : List Nat := i.directs.filter (· ≠ 0)

/-- The entries of a run of blocks. -/
def blockEntries (blockSize : Nat) (c : Nat → Block) : List Nat → Option (List Dirent)
  | [] => some []
  | blk :: blks => do
    let es ← entriesIn blockSize 0 (c blk).area.entries
    let rest ← blockEntries blockSize c blks
    pure (es ++ rest)

/-- A directory's entries. Those inside its inode end with the inode's block, whatever `inlineLen`. -/
def entriesOf (fs : Fs) (c : Nat → Block) (dir : Inode) : Option (List Dirent) :=
  if dir.inlineLen ≠ 0 then
    entriesIn (min dir.inlineLen (inlineMax fs.blockSize)) 0 dir.data.entries
  else blockEntries fs.blockSize c dir.used

/-- What is taken for a directory's entries, given the block of its inode. -/
abbrev Reading := Nat → Inode → Option (List Dirent)

/-- The entries in use. -/
def live (es : List Dirent) : List Dirent := es.filter fun de => de.inode ≠ 0

/-- The blocks of an object's contents. -/
def heldBy (fs : Fs) (c : Nat → Block) (ino : Inode) : List Nat :=
  if ino.inlineLen ≠ 0 then []
  else if ino.type = typeDir ∨ ino.indirect = 0 then ino.used
  else ino.used ++ ino.indirect :: kidsOf fs.perIndex (c ino.indirect).slots

/-! ## Objects -/

/-- An object as met through the entry that names it: its inode, the blocks of its contents, and
what is in it. -/
inductive Obj where
  | mk (entry : Dirent) (ino : Inode) (held : List Nat) (kids : List Obj)

namespace Obj

def entry : Obj → Dirent
  | mk e _ _ _ => e

def ino : Obj → Inode
  | mk _ i _ _ => i

def held : Obj → List Nat
  | mk _ _ h _ => h

def kids : Obj → List Obj
  | mk _ _ _ k => k

/-- The block of its inode. -/
def blk (o : Obj) : Nat := o.entry.inode

@[simp] theorem entry_mk (e : Dirent) (i : Inode) (h : List Nat) (k : List Obj) :
    (mk e i h k).entry = e := rfl

@[simp] theorem ino_mk (e : Dirent) (i : Inode) (h : List Nat) (k : List Obj) :
    (mk e i h k).ino = i := rfl

@[simp] theorem held_mk (e : Dirent) (i : Inode) (h : List Nat) (k : List Obj) :
    (mk e i h k).held = h := rfl

@[simp] theorem kids_mk (e : Dirent) (i : Inode) (h : List Nat) (k : List Obj) :
    (mk e i h k).kids = k := rfl

@[simp] theorem blk_mk (e : Dirent) (i : Inode) (h : List Nat) (k : List Obj) :
    (mk e i h k).blk = e.inode := rfl

/-- Induction over an object and the objects in it. -/
theorem ind {P : Obj → Prop}
    (h : ∀ e i held kids, (∀ k ∈ kids, P k) → P (mk e i held kids)) (o : Obj) : P o :=
  @Obj.rec P (fun os => ∀ k ∈ os, P k)
    (fun e i held kids ih => h e i held kids ih)
    (fun k hk => by cases hk)
    (fun o os ho hos k hk => by
      rcases List.mem_cons.1 hk with rfl | hk
      · exact ho
      · exact hos k hk)
    o

mutual
/-- `p` holds of the object and of everything in it. -/
def All (p : Obj → Prop) : Obj → Prop
  | mk e i held kids => p (mk e i held kids) ∧ AllIn p kids

def AllIn (p : Obj → Prop) : List Obj → Prop
  | [] => True
  | o :: os => All p o ∧ AllIn p os
end

theorem allIn_iff {p : Obj → Prop} {os : List Obj} : AllIn p os ↔ ∀ o ∈ os, All p o := by
  induction os with
  | nil => simp [AllIn]
  | cons o os ih => simp [AllIn, ih]

theorem all_iff {p : Obj → Prop} {o : Obj} : All p o ↔ p o ∧ ∀ k ∈ o.kids, All p k := by
  cases o with
  | mk e i held kids => rw [All, allIn_iff, kids_mk]

theorem All.self {p : Obj → Prop} {o : Obj} (h : All p o) : p o := (all_iff.1 h).1

theorem All.kid {p : Obj → Prop} {o k : Obj} (h : All p o) (hk : k ∈ o.kids) : All p k :=
  (all_iff.1 h).2 k hk

theorem All.mono {p q : Obj → Prop} (hpq : ∀ o, p o → q o) {o : Obj} (h : All p o) : All q o := by
  induction o using ind with
  | h e i held kids ih =>
    refine all_iff.2 ⟨hpq _ h.self, fun k hk => ih k hk (h.kid hk)⟩

theorem all_and {p q : Obj → Prop} {o : Obj} :
    All (fun o => p o ∧ q o) o ↔ All p o ∧ All q o := by
  constructor
  · intro h
    exact ⟨h.mono fun _ h => h.1, h.mono fun _ h => h.2⟩
  · intro h
    induction o using ind with
    | h e i held kids ih =>
      exact all_iff.2 ⟨⟨h.1.self, h.2.self⟩, fun k hk => ih k hk ⟨h.1.kid hk, h.2.kid hk⟩⟩

mutual
/-- Every block the object occupies, with its owner: its own block is `owner`'s. -/
def claims (owner : Nat) : Obj → Multiset (Nat × Nat)
  | mk e i held kids =>
    (e.inode, owner) ::ₘ (((held.map fun b => (b, i.dossier)) : List (Nat × Nat)) +
      claimsIn i.dossier kids)

def claimsIn (owner : Nat) : List Obj → Multiset (Nat × Nat)
  | [] => 0
  | o :: os => claims owner o + claimsIn owner os
end

/-- The contents of an object, as the owner table lists them. -/
def heldClaims (o : Obj) : Multiset (Nat × Nat) :=
  ((o.held.map fun b => (b, o.ino.dossier)) : List (Nat × Nat))

theorem claims_eq (owner : Nat) (o : Obj) :
    o.claims owner = (o.blk, owner) ::ₘ (o.heldClaims + claimsIn o.ino.dossier o.kids) := by
  cases o with
  | mk e i held kids => rfl

@[simp] theorem claimsIn_nil (owner : Nat) : claimsIn owner [] = 0 := rfl

@[simp] theorem claimsIn_cons (owner : Nat) (o : Obj) (os : List Obj) :
    claimsIn owner (o :: os) = o.claims owner + claimsIn owner os := rfl

@[simp] theorem claimsIn_append (owner : Nat) (os ps : List Obj) :
    claimsIn owner (os ++ ps) = claimsIn owner os + claimsIn owner ps := by
  induction os with
  | nil => simp
  | cons o os ih => rw [List.cons_append, claimsIn_cons, claimsIn_cons, ih, add_assoc]

theorem mem_claims_self (owner : Nat) (o : Obj) : (o.blk, owner) ∈ o.claims owner := by
  rw [claims_eq]; exact Multiset.mem_cons_self ..

/-! ## On the medium -/

/-- What the medium says of one object: its inode reads and is one, and its contents and what is in
it are what the inode names. -/
structure Reads (fs : Fs) (c : Nat → Block) (read : Reading) (o : Obj) : Prop where
  inode : (c o.blk).inode = some o.ino
  magic : o.ino.magic = inodeMagic
  dossier : o.ino.dossier ≠ 0
  held : o.held = heldBy fs c o.ino
  kind : o.ino.type = typeFile ∧ o.kids = [] ∨
    o.ino.type = typeDir ∧ ∃ es, read o.blk o.ino = some es ∧ o.kids.map entry = live es

/-- The object is what the medium holds, directories taken as `read` takes them. -/
abbrev AtBy (fs : Fs) (c : Nat → Block) (read : Reading) (o : Obj) : Prop := o.All (Reads fs c read)

/-- The object is what the medium holds. -/
abbrev At (fs : Fs) (c : Nat → Block) (o : Obj) : Prop := o.AtBy fs c fun _ => entriesOf fs c

/-- Every object names the directory it is in. -/
def ParentsAgree : Obj → Prop := All fun o => ∀ k ∈ o.kids, k.ino.parent = o.ino.dossier

/-- Every entry records the type of the object it names. -/
def TypesAgree : Obj → Prop := All fun o => ∀ k ∈ o.kids, k.entry.type = k.ino.type

/-- The medium holds one object under an entry. -/
theorem AtBy.unique {fs : Fs} {c : Nat → Block} {read : Reading} {o o' : Obj}
    (h : o.AtBy fs c read) (h' : o'.AtBy fs c read) (he : o'.entry = o.entry) : o' = o := by
  induction o using ind generalizing o' with
  | h e i held kids ih =>
    obtain ⟨e', i', held', kids'⟩ := o'
    obtain rfl : e' = e := he
    have hr := h.self
    have hr' := h'.self
    obtain rfl : i' = i := Option.some.inj (hr'.inode.symm.trans hr.inode)
    obtain rfl : held' = held := hr'.held.trans hr.held.symm
    congr 1
    have hmap : kids'.map entry = kids.map entry := by
      rcases hr.kind with ⟨hf, hk⟩ | ⟨hd, es, hes, hk⟩
      · rcases hr'.kind with ⟨-, hk'⟩ | ⟨hd', -⟩
        · simp only [kids_mk] at hk hk'
          rw [hk, hk']
        · rw [ino_mk] at hf hd'
          exact absurd (hf.symm.trans hd') (by decide)
      · rcases hr'.kind with ⟨hf', -⟩ | ⟨-, es', hes', hk'⟩
        · rw [ino_mk] at hf' hd
          exact absurd (hf'.symm.trans hd) (by decide)
        · obtain rfl : es' = es := Option.some.inj (hes'.symm.trans hes)
          exact hk'.trans hk.symm
    refine List.ext_getElem (by simpa using congrArg List.length hmap) fun n hn hn' => ?_
    refine ih _ (List.getElem_mem hn') (h.kid (List.getElem_mem hn'))
      (h'.kid (List.getElem_mem hn)) ?_
    have := congrArg (fun l => l[n]?) hmap
    simpa [hn, hn'] using this

end Obj

end ReconOS.Reconfs
