import Libbit.Index
import Libbit.Worktree

/-! The tree iterators (`iter.rs`, `iter/`). An iterator is the list of the entries that `next`
still has to yield; `over` takes a directory together with the entries that start with it. -/
namespace Libbit

namespace Iter

/-- `over`: the entries left once the first one is stepped over. -/
def stepOver : List BitIndexEntry → List BitIndexEntry
  | [] => []
  | e::rest => if e.isTree then rest.dropWhile (fun x => x.path.startsWith e.path) else rest

/-- What a consumer of the first entry collects: the directory and all that starts with it. -/
def subtree : List BitIndexEntry → List BitIndexEntry
  | [] => []
  | e::rest => e::rest.takeWhile (fun x => x.path.startsWith e.path)

end Iter

def TreeEntry.ofItem (x : BitPath × ((BlobMode × Bytes) ⊕ Tree)) : TreeEntry :=
  match x.2 with
  | .inl (mode,contents) => ⟨.blob mode,x.1,.blob contents⟩
  | .inr sub => ⟨.TREE,x.1,.tree sub⟩

/-- The entries of a tree below its root, directories before what is in them. -/
def Tree.listing (t : Tree) : List BitIndexEntry :=
  (t.entries []).map fun x => .ofTreeEntry (.ofItem x)

/-- The tree that `tree_iter` walks: the unknown id stands for the empty tree. -/
def Oid.treeish : Oid → Tree
  | .tree t => t
  | _ => .nil

/-- `TreeIter`: the root and then everything below it. -/
def treeIter (oid : Oid) : List BitIndexEntry :=
  .ofTreeEntry ⟨.TREE,[],.tree oid.treeish⟩::oid.treeish.listing

/-- `TreeEntryIter` skips the trees. -/
def treeEntryIter (oid : Oid) : List BitIndexEntry := (treeIter oid).filter fun e => !e.isTree

namespace BitIndexInner

def createPseudotree (idx : BitIndexInner) (p : BitPath) : BitIndexEntry :=
  let oid := ((idx.treeCache.bind fun c => c.findValidChild p).map BitTreeCache.treeOid).getD .UNKNOWN
  .ofTreeEntry ⟨.TREE,p,oid⟩

/-- The directories above an entry that were not yielded yet come first. -/
def indexTreeIterFrom (idx : BitIndexInner) : List BitPath → List BitIndexEntry → List BitIndexEntry
  | _, [] => []
  | pseudotrees, e::rest =>
    let fresh := e.path.parent.cumulativeComponents.filter fun p => p ∉ pseudotrees
    fresh.map idx.createPseudotree++e::indexTreeIterFrom idx (pseudotrees++fresh) rest

/-- `IndexTreeIter` makes up the directories that the index does not hold. -/
def indexTreeIter (idx : BitIndexInner) : List BitIndexEntry :=
  idx.createPseudotree []::idx.indexTreeIterFrom [[]] idx.entries

end BitIndexInner

/-- `IndexTreeIter` while it is used: the directories that were yielded and the entries left. -/
structure IndexTreeIter where
  pseudotrees : List BitPath
  entries : List BitIndexEntry
  deriving DecidableEq, Repr

namespace IndexTreeIter

def new (idx : BitIndexInner) : IndexTreeIter := ⟨[],idx.entries⟩

/-- The root comes first, and before an entry the directories above it that were not yielded yet. -/
def next (idx : BitIndexInner) (iter : IndexTreeIter) : Option (BitIndexEntry × IndexTreeIter) :=
  if [] ∉ iter.pseudotrees then some (idx.createPseudotree [],{iter with pseudotrees := iter.pseudotrees++[[]]})
  else match iter.entries with
    | [] => none
    | e::rest =>
      match e.path.parent.cumulativeComponents.find? fun p => p ∉ iter.pseudotrees with
      | some p => some (idx.createPseudotree p,{iter with pseudotrees := iter.pseudotrees++[p]})
      | none => some (e,{iter with entries := rest})

/-- `step_over_tree` of a directory that the cache vouches for: as many entries as it counts. -/
def stepOverTree (child : BitTreeCache) (iter : IndexTreeIter) : IndexTreeIter :=
  {iter with entries := iter.entries.drop child.entryCount.toNat}

end IndexTreeIter

/-- The entry that `from_absolute_path` makes of a file: its hash is not computed. -/
def FileNode.toEntry (f : FileNode) (p : BitPath) : BitIndexEntry := ⟨p,.blob f.mode,.UNKNOWN,.NONE,f.stat⟩

namespace Worktree

def GITIGNORE : Name := [46,103,105,116,105,103,110,111,114,101]

def entryOfItem (x : BitPath × (FileNode ⊕ Worktree)) : BitIndexEntry :=
  match x.2 with
  | .inl f => f.toEntry x.1
  | .inr _ => .ofTreeEntry ⟨.TREE,x.1,.UNKNOWN⟩

/-- What the directory walk yields: siblings in git's order, directories before what is in them. -/
def listing (w : Worktree) : List BitIndexEntry := ((w.sort entryLt).entries []).map entryOfItem

/-- The contents of `.gitignore`, if it can be read. -/
def gitignoreContents (w : Worktree) : Option Bytes :=
  match w.metadata [GITIGNORE] with
  | .ok (some f) => some f.contents
  | _ => none

end Worktree

section Ignore
-- The matcher that the `ignore` crate makes of the contents of the root's `.gitignore`.
variable (gitignore : Option Bytes → BitPath → Bool → Bool)

/-- A path is ignored by the rules of the root unless the index tracks it. -/
def isIgnored (idx : BitIndexInner) (w : Worktree) (e : BitIndexEntry) : Bool :=
  !(idx.entries.any fun x => x.path = e.path) && gitignore w.gitignoreContents e.path e.isTree

/-- `WorktreeTreeIter`: the root, then the entries that are not ignored. -/
def worktreeTreeIter (idx : BitIndexInner) (w : Worktree) : List BitIndexEntry :=
  (.ofTreeEntry ⟨.TREE,[],.UNKNOWN⟩::w.listing).filter fun e => !isIgnored gitignore idx w e

/-- `WorktreeIter` yields no directories. -/
def worktreeIter (idx : BitIndexInner) (w : Worktree) : List BitIndexEntry :=
  (worktreeTreeIter gitignore idx w).filter fun e => !e.isTree

end Ignore

namespace Walk

/-- The head of one more iterator: it goes with the entries so far, or takes over when its path
comes before theirs. -/
def takeHead (entries : List (Option BitIndexEntry)) (iter : List BitIndexEntry) : List (Option BitIndexEntry) :=
  match iter.head? with
  | none => entries++[none]
  | some entry =>
    match entries.reduceOption.head? with
    | none => entries++[some entry]
    | some first =>
      match entry.diffCmp first with
      | .lt => entries.map (fun _ => none)++[some entry]
      | .eq => entries++[some entry]
      | .gt => entries++[none]

/-- `walk_common!`: the entries at the least path among the heads, one slot an iterator. -/
def nextEntries (iters : List (List BitIndexEntry)) : List (Option BitIndexEntry) := iters.foldl takeHead []

/-- All used entries are the same tree, and there is more than one of them. -/
def shouldStepOver (entries : List (Option BitIndexEntry)) : Bool :=
  match entries.reduceOption with
  | [] => false
  | e::es => e.isTree && es.all (fun x => x.isTree && x.oid = e.oid) && 0 < es.length

/-- Advance the iterators that were used. -/
def advance (entries : List (Option BitIndexEntry)) (iters : List (List BitIndexEntry)) : List (List BitIndexEntry) :=
  List.zipWith (fun entry iter =>
    if entry.isSome then (if shouldStepOver entries then Iter.stepOver iter else iter.tail) else iter) entries iters

/-- `WalkTreeIterators` drained; every turn uses up at least one entry. -/
def walkTreeIterators : ℕ → List (List BitIndexEntry) → List (List (Option BitIndexEntry))
  | 0, _ => []
  | fuel+1, iters =>
    let entries := nextEntries iters
    if entries.reduceOption = [] then [] else entries::walkTreeIterators fuel (advance entries iters)

end Walk

/-- The items of a walk over three iterators. -/
def walk3 (base ours theirs : List BitIndexEntry) : List (List (Option BitIndexEntry)) :=
  Walk.walkTreeIterators (base.length+ours.length+theirs.length) [base,ours,theirs]

end Libbit
