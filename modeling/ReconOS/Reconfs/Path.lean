import ReconOS.Reconfs.Dir

/-! Paths: the chain of directories down to a name. -/
namespace ReconOS.Reconfs

/-- The directories a path leads through, `struct reconfs_path`: the one that holds the leaf, and
those above it, nearest first. -/
structure Path where
  deepest : Nat
  above : List Nat

def Path.count (p : Path) : Nat := p.above.length + 1

def skipSlashes (p : Name) : Name := p.dropWhile (· == slash)

/-- One component a round, each at least a byte long, so the path's length bounds the rounds. -/
def walkLoop (fs : Fs) : Nat → Path → Name → M (Path × Name)
  | 0, _, _ => err .name
  | fuel + 1, chain, p =>
    if p = [] then
      err .name
    else do
      let name := p.takeWhile (· != slash)
      let rest := skipSlashes (p.dropWhile (· != slash))
      need (name.length ≤ nameMax) .name
      need (name ≠ []) .name
      need (nameEq dot name = false ∧ nameEq dotDot name = false) .name
      if rest = [] then
        pure (chain, name)
      else do
        let next ← lookup fs chain.deepest name
        need (chain.count ≠ pathMax) .tooDeep
        buffer fs.dev
        let ino ← readInode fs next
        need (ino.type = typeDir) .notDir
        walkLoop fs fuel ⟨next, chain.deepest :: chain.above⟩ rest

/-- `reconfs_walk_path_from`: the chain from `root`, and the last component. -/
def walkPathFrom (fs : Fs) (root : Nat) (path : Name) : M (Path × Name) :=
  walkLoop fs (path.length + 1) ⟨root, []⟩ (skipSlashes path)

def walkPath (fs : Fs) (path : Name) : M (Path × Name) := walkPathFrom fs fs.rootInode path

end ReconOS.Reconfs
