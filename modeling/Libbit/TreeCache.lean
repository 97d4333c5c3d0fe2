import Libbit.TreeFormat

/-! Reading the tree cache from tree objects and refreshing an old one (`index/tree_cache.rs`). The trees are
those that a repository stores under their ids, so a cache can be older than the tree that it is refreshed for.
A debug assertion that fails is a panic. -/
namespace Libbit
namespace TreeCache

open Lib
open IndexFile (Error)

/-! ### Tree objects -/

structure Tree where
  oid : IndexFile.Oid
  entries : List TreeFormat.TreeEntry
  deriving DecidableEq, Repr

/-- The tree objects of the repository. -/
structure BitRepo where
  trees : IndexFile.Oid → Option (List TreeFormat.TreeEntry)

def BitRepo.readObjTree (repo : BitRepo) (oid : IndexFile.Oid) : Except Error Tree :=
  match repo.trees oid with
  | some entries => .ok ⟨oid,entries⟩
  | none => .error (.bail "object not found")

/-! ### The cache -/

/-- A map of nodes. A key is meant to be the path of its node, but is kept apart from it. -/
inductive TreeCaches
  | nil
  | cons (key path : Bytes) (treeOid : IndexFile.Oid) (entryCount : ℤ) (children rest : TreeCaches)
  deriving DecidableEq, Repr

structure BitTreeCache where
  path : Bytes
  treeOid : IndexFile.Oid
  /-- The files below this directory; -1 marks the node invalid. -/
  entryCount : ℤ
  children : TreeCaches
  deriving DecidableEq, Repr

namespace TreeCaches

def get : TreeCaches → Bytes → Option BitTreeCache
  | nil, _ => none
  | cons key path oid count children rest, k => if key = k then some ⟨path,oid,count,children⟩ else rest.get k

def insert (k : Bytes) (c : BitTreeCache) : TreeCaches → TreeCaches
  | nil => cons k c.path c.treeOid c.entryCount c.children nil
  | cons key path oid count children rest =>
    if key = k then cons k c.path c.treeOid c.entryCount c.children rest
    else cons key path oid count children (insert k c rest)

/-- The counts of the nodes together. -/
def sumCounts : TreeCaches → ℤ
  | nil => 0
  | cons _ _ _ count _ rest => count+rest.sumCounts

/-- The keys on the way to each node, at any depth. -/
def locations : TreeCaches → List (List Bytes)
  | nil => []
  | cons key _ _ _ children rest => [key]::children.locations.map (key::·)++rest.locations

/-- The nodes as a file has them, where the path is the key. -/
def ofFile : IndexFile.TreeCaches → TreeCaches
  | .nil => nil
  | .cons path oid count children rest => cons path path oid count (ofFile children) (ofFile rest)

end TreeCaches

namespace BitTreeCache

/-- `Default`, which is what `mem::take` leaves. -/
def default : BitTreeCache := ⟨[],.UNKNOWN,-1,.nil⟩

def ofFile (c : IndexFile.BitTreeCache) : BitTreeCache := ⟨c.path,c.treeOid,c.entryCount,.ofFile c.children⟩

def isValid (c : BitTreeCache) : Bool := 0 ≤ c.entryCount

/-- `find_child_internal`, by the keys on the way. -/
def findChild : BitTreeCache → List Bytes → Option BitTreeCache
  | c, [] => some c
  | c, k::ks => (c.children.get k).bind fun child => child.findChild ks

/-- A node without its children. -/
def label (c : BitTreeCache) : Bytes × IndexFile.Oid × ℤ := (c.path,c.treeOid,c.entryCount)

/-- The derived equality, where the order of a map's nodes does not count. -/
def eq (c d : BitTreeCache) : Bool :=
  ([]::c.children.locations++d.children.locations).all fun ks => (c.findChild ks).map label = (d.findChild ks).map label

/-! ### The fresh read -/

/-- One round of the loop of `read_tree_internal`, given how a subtree is read. -/
def readEntry (repo : BitRepo) (readSubtree : Tree → Bytes → Except Error BitTreeCache) (c : BitTreeCache)
    (e : TreeFormat.TreeEntry) : Except Error BitTreeCache :=
  match e.mode with
  | .REG | .LINK | .EXEC => .ok {c with entryCount := c.entryCount+1}
  | .TREE => do
    let subtree ← repo.readObjTree e.oid
    let child ← readSubtree subtree e.path
    pure {c with entryCount := c.entryCount+child.entryCount, children := c.children.insert e.path child}
  | .GITLINK => .error (.panic "not yet implemented")

def readTreeInternal (repo : BitRepo) : ℕ → Tree → Bytes → Except Error BitTreeCache
  | 0, _, _ => .error .outOfFuel
  | fuel+1, tree, path => tree.entries.foldlM (readEntry repo (readTreeInternal repo fuel)) ⟨path,tree.oid,0,.nil⟩

def readTree (repo : BitRepo) (fuel : ℕ) (tree : Tree) : Except Error BitTreeCache :=
  readTreeInternal repo fuel tree []

/-! ### The refresh -/

/-- If the subtree changed or the child is invalid, update the child; otherwise it is good as it is. -/
def refreshChild (repo : BitRepo) (updateSubtree : BitTreeCache → Tree → Except Error BitTreeCache)
    (child : BitTreeCache) (e : TreeFormat.TreeEntry) : Except Error BitTreeCache :=
  if !child.isValid ∨ child.treeOid ≠ e.oid then do
    let subtree ← repo.readObjTree e.oid
    updateSubtree child subtree
  else pure child

/-- One round of the loop of `update_internal`, with the children put aside so far. The path of a child stays. -/
def updateEntry (repo : BitRepo) (readSubtree : Tree → Bytes → Except Error BitTreeCache)
    (updateSubtree : BitTreeCache → Tree → Except Error BitTreeCache) :
    BitTreeCache × TreeCaches → TreeFormat.TreeEntry → Except Error (BitTreeCache × TreeCaches)
  | (c,newChildren), e =>
    match e.mode with
    | .REG | .EXEC | .LINK => .ok ({c with entryCount := c.entryCount+1},newChildren)
    | .TREE =>
      match c.children.get e.path with
      | some child => do
        let child ← refreshChild repo updateSubtree child e
        let subtree ← repo.readObjTree e.oid
        let fresh ← readSubtree subtree e.path
        ensure (.panic "child was not updated in-place correctly, it should match a fresh read") (child.eq fresh)
        pure ({c with children := c.children.insert e.path default},newChildren.insert e.path child)
      | none => do
        let subtree ← repo.readObjTree e.oid
        let child ← readSubtree subtree e.path
        pure (c,newChildren.insert e.path child)
    | .GITLINK => .error (.panic "not yet implemented")

def updateInternal (repo : BitRepo) : ℕ → BitTreeCache → Tree → Except Error BitTreeCache
  | 0, _, _ => .error .outOfFuel
  | fuel+1, c, tree => do
    let (c,newChildren) ← tree.entries.foldlM
      (updateEntry repo (readTreeInternal repo fuel) (updateInternal repo fuel))
      ({c with treeOid := tree.oid, entryCount := 0},.nil)
    pure {c with entryCount := c.entryCount+newChildren.sumCounts, children := newChildren}

def update (repo : BitRepo) (fuel : ℕ) (c : BitTreeCache) (tree : Tree) : Except Error BitTreeCache := do
  ensure (.panic "assertion failed: self.path == BitPath::EMPTY") (c.path = [])
  updateInternal repo fuel c tree

end BitTreeCache
end TreeCache
end Libbit
