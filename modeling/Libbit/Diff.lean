import Libbit.Iter

/-! Differences between iterators (`diff.rs`, `diff/tree_diff.rs`). -/
namespace Libbit

/-- A directory stands with the entries that its consumer would collect; it is always stepped
over before the next entry of the difference is asked for. -/
inductive TreeDiffEntry
  | DeletedBlob (old : BitIndexEntry)
  | CreatedBlob (new : BitIndexEntry)
  | ModifiedBlob (old new : BitIndexEntry)
  | MaybeModifiedTree (new : BitIndexEntry)
  | UnmodifiedBlob (new : BitIndexEntry)
  | UnmodifiedTree (new : BitIndexEntry) (subtree : List BitIndexEntry)
  | DeletedTree (old : BitIndexEntry) (subtree : List BitIndexEntry)
  | CreatedTree (new : BitIndexEntry) (subtree : List BitIndexEntry)
  | BlobToTree (old new : BitIndexEntry) (subtree : List BitIndexEntry)
  | TreeToBlob (old : BitIndexEntry) (subtree : List BitIndexEntry) (new : BitIndexEntry)
  deriving DecidableEq, Repr

namespace TreeDiffEntry

def indexEntry : TreeDiffEntry → BitIndexEntry
  | DeletedBlob old => old
  | CreatedBlob new => new
  | ModifiedBlob _ new => new
  | MaybeModifiedTree new => new
  | UnmodifiedBlob new => new
  | UnmodifiedTree new _ => new
  | DeletedTree old _ => old
  | CreatedTree new _ => new
  | BlobToTree _ new _ => new
  | TreeToBlob _ _ new => new

def path (d : TreeDiffEntry) : BitPath := d.indexEntry.path

end TreeDiffEntry

namespace TreeDiffIter

/-- What one turn of the loop of `next` finds: the end, an entry to yield, or a match to pass over;
and the two iterators after it. -/
inductive Turn
  | done
  | yield (d : TreeDiffEntry) (old new : List BitIndexEntry)
  | pass (old new : List BitIndexEntry)

def onCreated (old : List BitIndexEntry) (n : BitIndexEntry) (ns : List BitIndexEntry) : Turn :=
  if n.isTree then .yield (.CreatedTree n (Iter.subtree (n::ns)).tail) old (Iter.stepOver (n::ns))
  else .yield (.CreatedBlob n) old ns

def onDeleted (o : BitIndexEntry) (os new : List BitIndexEntry) : Turn :=
  if o.isTree then .yield (.DeletedTree o (Iter.subtree (o::os)).tail) (Iter.stepOver (o::os)) new
  else .yield (.DeletedBlob o) os new

/-- Two entries with one path; for two blobs `hasChanged` tells whether they differ. -/
def onMatch {m : Type → Type} [Monad m] (hasChanged : BitIndexEntry → BitIndexEntry → m Bool) (includeUnmodified : Bool)
    (o : BitIndexEntry) (os : List BitIndexEntry) (n : BitIndexEntry) (ns : List BitIndexEntry) : m Turn :=
  match o.mode, n.mode with
  | .TREE, .TREE =>
    if o.oid.isKnown ∧ o = n then
      if includeUnmodified then
        pure (.yield (.UnmodifiedTree n (Iter.subtree (n::ns)).tail) (Iter.stepOver (o::os)) (Iter.stepOver (n::ns)))
      else pure (.pass (Iter.stepOver (o::os)) (Iter.stepOver (n::ns)))
    else pure (.yield (.MaybeModifiedTree n) os ns)
  | .TREE, .blob _ => pure (.yield (.TreeToBlob o (Iter.subtree (o::os)).tail n) (Iter.stepOver (o::os)) ns)
  | .blob _, .TREE => pure (.yield (.BlobToTree o n (Iter.subtree (n::ns)).tail) os (Iter.stepOver (n::ns)))
  | .blob _, .blob _ => do
    if ← hasChanged o n then pure (.yield (.ModifiedBlob o n) os ns)
    else if includeUnmodified then pure (.yield (.UnmodifiedBlob n) os ns)
    else pure (.pass os ns)

def turn {m : Type → Type} [Monad m] (hasChanged : BitIndexEntry → BitIndexEntry → m Bool) (includeUnmodified : Bool) :
    List BitIndexEntry → List BitIndexEntry → m Turn
  | [], [] => pure .done
  | [], n::ns => pure (onCreated [] n ns)
  | o::os, [] => pure (onDeleted o os [])
  | o::os, n::ns =>
    match o.diffCmp n with
    | .lt => pure (onDeleted o os (n::ns))
    | .gt => pure (onCreated (o::os) n ns)
    | .eq => onMatch hasChanged includeUnmodified o os n ns

/-- The whole difference of two iterators neither of which is a worktree iterator. -/
def drain (includeUnmodified : Bool) : ℕ → List BitIndexEntry → List BitIndexEntry → List TreeDiffEntry
  | 0, _, _ => []
  | fuel+1, old, new =>
    match turn (m := Id) (fun o n => decide (o.oid ≠ n.oid)) includeUnmodified old new with
    | .done => []
    | .yield d old' new' => d::drain includeUnmodified fuel old' new'
    | .pass old' new' => drain includeUnmodified fuel old' new'

end TreeDiffIter

/-- Every turn uses up an entry, so that many turns are enough. -/
def treeDiffIter (includeUnmodified : Bool) (old new : List BitIndexEntry) : List TreeDiffEntry :=
  TreeDiffIter.drain includeUnmodified (old.length+new.length) old new

structure WorkspaceStatus where
  new : List BitIndexEntry
  modified : List (BitIndexEntry × BitIndexEntry)
  deleted : List BitIndexEntry
  deriving DecidableEq, Repr

namespace WorkspaceStatus

def empty : WorkspaceStatus := ⟨[],[],[]⟩

def isEmpty (s : WorkspaceStatus) : Bool := s.new.isEmpty && s.deleted.isEmpty && s.modified.isEmpty

/-- The deleted paths stand at both ends; the new ones do not occur. -/
def iterPaths (s : WorkspaceStatus) : List BitPath :=
  s.deleted.map BitIndexEntry.path++s.modified.map (fun x => x.2.path)++s.deleted.map BitIndexEntry.path

end WorkspaceStatus

def files (es : List BitIndexEntry) : List BitIndexEntry := es.filter fun e => !e.isTree

/-- `TreeStatusDiffer`: directories are expanded into their files. -/
def TreeStatusDiffer.on (s : WorkspaceStatus) : TreeDiffEntry → WorkspaceStatus
  | .DeletedBlob old => {s with deleted := s.deleted++[old]}
  | .CreatedBlob new => {s with new := s.new++[new]}
  | .ModifiedBlob old new => {s with modified := s.modified++[(old,new)]}
  | .DeletedTree _ sub => {s with deleted := s.deleted++files sub}
  | .CreatedTree _ sub => {s with new := s.new++files sub}
  | .BlobToTree old _ sub => {s with deleted := s.deleted++[old], new := s.new++files sub}
  | .TreeToBlob _ sub new => {s with deleted := s.deleted++files sub, new := s.new++[new]}
  | .MaybeModifiedTree _ => s
  | .UnmodifiedBlob _ => s
  | .UnmodifiedTree _ _ => s

/-- The difference of two iterators, neither of the worktree. -/
def diffIterators (old new : List BitIndexEntry) : WorkspaceStatus :=
  (treeDiffIter false old new).foldl TreeStatusDiffer.on .empty

/-- `BitIndex::diff_tree` over all paths. -/
def BitIndexInner.diffTree (idx : BitIndexInner) (oid : Oid) : WorkspaceStatus :=
  diffIterators (treeIter oid) idx.indexTreeIter

end Libbit
