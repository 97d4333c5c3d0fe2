import Libbit.Obj

/-! The index in memory (`index/index_inner.rs`, `index/tree_cache.rs`): entries ordered by
path and stage, and the tree cache that remembers the trees of directories nobody touched. -/
namespace Libbit

/-- The children of a cache node, each with its tree, its number of files and its children. -/
inductive TreeCacheChildren
  | nil
  | cons (name : Name) (treeOid : Oid) (entryCount : ℤ) (children rest : TreeCacheChildren)
  deriving DecidableEq, Repr

structure BitTreeCache where
  treeOid : Oid
  /-- The files below this directory; -1 marks the node invalid. -/
  entryCount : ℤ
  children : TreeCacheChildren
  deriving DecidableEq, Repr

namespace TreeCacheChildren

def get? : TreeCacheChildren → Name → Option BitTreeCache
  | nil, _ => none
  | cons m oid count children rest, n => if m = n then some ⟨oid,count,children⟩ else get? rest n

/-- Invalidate the nodes on the way to a path, as far as there are any. -/
def invalidatePath : TreeCacheChildren → BitPath → TreeCacheChildren
  | nil, _ => nil
  | children, [] => children
  | cons m oid count children rest, n::p =>
    if m = n then cons m .UNKNOWN (-1) (invalidatePath children p) rest
    else cons m oid count children (invalidatePath rest (n::p))

end TreeCacheChildren

namespace BitTreeCache

def isValid (c : BitTreeCache) : Bool := 0 ≤ c.entryCount

def findChild : BitTreeCache → BitPath → Option BitTreeCache
  | c, [] => some c
  | c, n::p => (c.children.get? n).bind fun child => findChild child p

def findValidChild (c : BitTreeCache) (p : BitPath) : Option BitTreeCache :=
  (c.findChild p).filter fun child => 0 < child.entryCount

def invalidatePath (c : BitTreeCache) (p : BitPath) : BitTreeCache :=
  ⟨.UNKNOWN,-1,c.children.invalidatePath p⟩

/-- The number of files of a tree and the cache nodes of its directories. -/
def readEntries : Tree → ℤ × TreeCacheChildren
  | .nil => (0,.nil)
  | .leaf _ _ rest => let r := readEntries rest; (r.1+1,r.2)
  | .node n sub rest =>
    let c := readEntries sub; let r := readEntries rest
    (c.1+r.1,.cons n (.tree sub) c.1 c.2 r.2)

def readTree (t : Tree) : BitTreeCache := let r := readEntries t; ⟨.tree t,r.1,r.2⟩

/-- `update_internal`: a child that is valid for the subtree is taken over as it is. -/
def updateEntries (old : TreeCacheChildren) : Tree → ℤ × TreeCacheChildren
  | .nil => (0,.nil)
  | .leaf _ _ rest => let r := updateEntries old rest; (r.1+1,r.2)
  | .node n sub rest =>
    let child : BitTreeCache :=
      match old.get? n with
      | some c =>
        if !c.isValid ∨ c.treeOid ≠ .tree sub then
          let s := updateEntries c.children sub; ⟨.tree sub,s.1,s.2⟩
        else c
      | none => readTree sub
    let r := updateEntries old rest
    (child.entryCount+r.1,.cons n child.treeOid child.entryCount child.children r.2)

def update (c : BitTreeCache) (t : Tree) : BitTreeCache :=
  let r := updateEntries c.children t; ⟨.tree t,r.1,r.2⟩

end BitTreeCache

/-- The order of the map: the bytes of the path, then the stage. -/
def keyLt (k k' : BitPath × MergeStage) : Prop :=
  toLex (k.1.asBytes,k.2.toFin) < toLex (k'.1.asBytes,k'.2.toFin)

instance (k k' : BitPath × MergeStage) : Decidable (keyLt k k') := inferInstanceAs (Decidable (_ < _))

structure BitIndexInner where
  entries : List BitIndexEntry
  treeCache : Option BitTreeCache
  deriving DecidableEq, Repr

namespace BitIndexInner

/-- The entries are in the order of their keys, no key twice. -/
def Sorted (idx : BitIndexInner) : Prop := idx.entries.Pairwise fun e e' => keyLt e.key e'.key

instance (idx : BitIndexInner) : Decidable idx.Sorted := inferInstanceAs (Decidable (List.Pairwise _ _))

def findEntry (idx : BitIndexInner) (key : BitPath × MergeStage) : Option BitIndexEntry :=
  idx.entries.find? fun e => e.key = key

def invalidateTreeCachePath (idx : BitIndexInner) (p : BitPath) : BitIndexInner :=
  {idx with treeCache := idx.treeCache.map fun c => c.invalidatePath p}

/-- Insert an entry at its place, in the stead of an entry with the same key. -/
def insertSorted (e : BitIndexEntry) : List BitIndexEntry → List BitIndexEntry
  | [] => [e]
  | x::xs =>
    if keyLt x.key e.key then x::insertSorted e xs
    else if x.key = e.key then e::xs
    else e::x::xs

def insertEntry (idx : BitIndexInner) (e : BitIndexEntry) : BitIndexInner :=
  invalidateTreeCachePath {idx with entries := insertSorted e idx.entries} e.path

def removeEntry (idx : BitIndexInner) (key : BitPath × MergeStage) : BitIndexInner :=
  if (idx.findEntry key).isSome then
    invalidateTreeCachePath {idx with entries := idx.entries.filter fun e => e.key ≠ key} key.1
  else idx

def removeConflicted (idx : BitIndexInner) (p : BitPath) : BitIndexInner :=
  ((idx.removeEntry (p,.BASE)).removeEntry (p,.OURS)).removeEntry (p,.THEIRS)

/-- The entries from a key on; the end is left out. -/
def rangeFrom (idx : BitIndexInner) (start : Bytes) : List BitIndexEntry :=
  idx.entries.filter fun e => start ≤ e.path.asBytes

def removeFileDirCollisions (idx : BitIndexInner) (p : BitPath) : BitIndexInner :=
  p.cumulativeComponents.foldl (fun idx component => idx.removeEntry (component,.NONE)) idx

/-- Remove a directory with all entries below it: the range starts at the path with a
trailing slash, so an entry at the path itself stays. -/
def removeDirectory (idx : BitIndexInner) (p : BitPath) : BitIndexInner :=
  let start := if p = [] then [] else p.asBytes++[SLASH]
  let subentries := ((idx.rangeFrom start).takeWhile fun e => e.path.startsWith p).filter fun e => e.stage = .NONE
  subentries.foldl (fun idx e => idx.removeEntry e.key) idx

/-- The range ends at the path followed by the letter a; its first entry is skipped. -/
def removeDirFileCollisions (idx : BitIndexInner) (p : BitPath) : BitIndexInner :=
  let range := (idx.rangeFrom p.asBytes).filter fun e => e.path.asBytes < p.asBytes++[97]
  if (range.drop 1).any fun e => e.path.startsWith p then idx.removeDirectory p else idx

def removeCollisions (idx : BitIndexInner) (p : BitPath) : BitIndexInner :=
  (idx.removeFileDirCollisions p).removeDirFileCollisions p

def hasConflicts (idx : BitIndexInner) : Bool := idx.entries.any fun e => e.stage.isUnmerged

end BitIndexInner
end Libbit
