import Libbit.StepOver
import Libbit.DiffExact

/-! The difference of two iterators call by call (`diff.rs`, `diff/tree_diff.rs`). A directory is handed out as a
consumer, which borrows its iterator until it is used up or dropped, and there are three ways to use it. -/
namespace Libbit
namespace Iterators

open Lib

variable {σ τ : Type}

/-! ### What a consumer does to the iterator that it borrows -/

/-- All that is left, as `collect` and `for_each` go through it. -/
def collect {α : Type} (next : EStateM IterError σ (Option α)) : ℕ → EStateM IterError σ (List α)
  | 0 => throw .outOfFuel
  | fuel+1 => do
    match ← next with
    | some entry => do
      let entries ← collect next fuel
      pure (entry::entries)
    | none => pure []

namespace TreeEntriesConsumer
variable (iter : BitTreeIterator σ)

/-- A consumer that is not used steps over its directory. -/
def drop : EStateM IterError σ Unit := do
  let _ ← iter.stepOver >>= expect "is it better to panic here or just ignore the error?"

def collectWhile (predicate : BitIndexEntry → Bool) (tree : BitPath) : ℕ → EStateM IterError σ (List BitIndexEntry)
  | 0 => throw .outOfFuel
  | fuel+1 => do
    if ← CollectSubtree.inSubtree iter.peek tree then do
      let entry ← iter.next >>= unwrap
      let entries ← collectWhile predicate tree fuel
      pure (if predicate entry then entry::entries else entries)
    else pure []

/-- `collect_over_tree_filtered`; the container is what the caller appends the entries to. -/
def collectOverTreeFiltered (predicate : BitIndexEntry → Bool) (fuel : ℕ) :
    EStateM IterError σ (BitIndexEntry × List BitIndexEntry) := do
  let treeEntry ← iter.next >>= expect "currently expected to not be called when at end"
  assertThat "tree_entry.mode() == FileMode::TREE" treeEntry.isTree
  let entries ← collectWhile iter predicate treeEntry.path fuel
  pure (treeEntry,entries)

def collectOverFiles (fuel : ℕ) : EStateM IterError σ (List BitIndexEntry) := do
  let collected ← collectOverTreeFiltered iter (fun entry => !entry.isTree) fuel
  pure collected.2

/-- `iter_files`, gone through to the end and dropped, when the subtree is left. -/
def iterFiles (fuel : ℕ) : EStateM IterError σ (List BitIndexEntry) := do
  let tree ← collectOverTreeIter iter.peek
  let subtree := CollectSubtree.iterator tree.path iter
  let entries ← collect (Filter.seek (fun entry => !entry.isTree) subtree.next fuel) fuel
  count subtree.next fuel
  pure entries

end TreeEntriesConsumer

/-! ### The difference -/

/-- An entry of the difference. Where there is a directory the entry is the consumer of it: of the new iterator's in
`UnmodifiedTree`, `CreatedTree` and `BlobToTree`, and of the old one's in `DeletedTree` and `TreeToBlob`. -/
inductive TreeDiffEntry
  | DeletedBlob (old : BitIndexEntry)
  | CreatedBlob (new : BitIndexEntry)
  | ModifiedBlob (old new : BitIndexEntry)
  | MaybeModifiedTree (new : BitIndexEntry)
  | UnmodifiedBlob (new : BitIndexEntry)
  | UnmodifiedTree
  | DeletedTree
  | CreatedTree
  | BlobToTree (old : BitIndexEntry)
  | TreeToBlob (new : BitIndexEntry)
  deriving DecidableEq, Repr

def onOld {α : Type} (m : EStateM IterError σ α) (iters : σ × τ) : EStateM.Result IterError (σ × τ) α :=
  match m iters.1 with
  | .ok a s => .ok a (s,iters.2)
  | .error e s => .error e (s,iters.2)

def onNew {α : Type} (m : EStateM IterError τ α) (iters : σ × τ) : EStateM.Result IterError (σ × τ) α :=
  match m iters.2 with
  | .ok a t => .ok a (iters.1,t)
  | .error e t => .error e (iters.1,t)

namespace TreeDiffIter
-- neither of them is a worktree iterator
variable (oldIter : BitTreeIterator σ) (newIter : BitTreeIterator τ)

def onCreated (new : BitIndexEntry) : EStateM IterError (σ × τ) (Option TreeDiffEntry) :=
  if new.isTree then do
    onNew (asConsumer newIter.peek)
    pure (some .CreatedTree)
  else do
    let _ ← onNew newIter.next
    pure (some (.CreatedBlob new))

def onDeleted (old : BitIndexEntry) : EStateM IterError (σ × τ) (Option TreeDiffEntry) :=
  if old.isTree then do
    onOld (asConsumer oldIter.peek)
    pure (some .DeletedTree)
  else do
    let _ ← onOld oldIter.next
    pure (some (.DeletedBlob old))

/-- Two entries with one path. Nothing is yielded for entries that match. -/
def onMatch (old new : BitIndexEntry) : EStateM IterError (σ × τ) (Option TreeDiffEntry) :=
  match old.mode, new.mode with
  | .TREE, .TREE =>
    if old.oid.isKnown ∧ old = new then do
      let _ ← onOld oldIter.stepOver
      let _ ← onNew newIter.stepOver
      pure none
    else do
      let _ ← onOld oldIter.next
      let _ ← onNew newIter.next
      pure (some (.MaybeModifiedTree new))
  | .TREE, .blob _ => do
    let _ ← onNew newIter.next
    onOld (asConsumer oldIter.peek)
    pure (some (.TreeToBlob new))
  | .blob _, .TREE => do
    let _ ← onOld oldIter.next
    onNew (asConsumer newIter.peek)
    pure (some (.BlobToTree old))
  | .blob _, .blob _ => do
    assertThat "old.oid.is_known()" old.oid.isKnown
    assertThat "new.oid.is_known()" new.oid.isKnown
    let _ ← onOld oldIter.next
    let _ ← onNew newIter.next
    pure (if old.oid ≠ new.oid then some (.ModifiedBlob old new) else none)

/-- `TreeDiffIter::next`, without the unmodified entries. -/
def next : ℕ → EStateM IterError (σ × τ) (Option TreeDiffEntry)
  | 0 => throw .outOfFuel
  | fuel+1 => do
    let old ← onOld oldIter.peek
    let new ← onNew newIter.peek
    match old, new with
    | none, none => pure none
    | none, some new => onCreated newIter new
    | some old, none => onDeleted oldIter old
    | some old, some new =>
      match old.diffCmp new with
      | .lt => onDeleted oldIter old
      | .gt => onCreated newIter new
      | .eq => do
        assertThat "old.oid().is_known() || new.oid().is_known() || old.path == BitPath::EMPTY && new.path == BitPath::EMPTY"
          (old.oid.isKnown ∨ new.oid.isKnown ∨ old.path = [] ∧ new.path = [])
        match ← onMatch oldIter newIter old new with
        | some entry => pure (some entry)
        | none => next fuel

/-- An entry goes out of use, and with it the consumer that it may be. -/
def drop : TreeDiffEntry → EStateM IterError (σ × τ) Unit
  | .UnmodifiedTree => onNew (TreeEntriesConsumer.drop newIter)
  | .CreatedTree => onNew (TreeEntriesConsumer.drop newIter)
  | .BlobToTree _ => onNew (TreeEntriesConsumer.drop newIter)
  | .DeletedTree => onOld (TreeEntriesConsumer.drop oldIter)
  | .TreeToBlob _ => onOld (TreeEntriesConsumer.drop oldIter)
  | _ => pure ()

end TreeDiffIter

/-! ### The three consumers of the difference -/

inductive DiffEntry
  | Deleted (old : BitIndexEntry)
  | Modified (old new : BitIndexEntry)
  | Created (new : BitIndexEntry)
  deriving DecidableEq, Repr

namespace DiffEntry

def created? : DiffEntry → Option BitIndexEntry
  | Created new => some new
  | _ => none

def modified? : DiffEntry → Option (BitIndexEntry × BitIndexEntry)
  | Modified old new => some (old,new)
  | _ => none

def deleted? : DiffEntry → Option BitIndexEntry
  | Deleted old => some old
  | _ => none

end DiffEntry

section
variable (oldIter : BitTreeIterator σ) (newIter : BitTreeIterator τ) (fuel : ℕ)

/-- `EntryDiffIter` with the iterators of its difference. -/
structure EntryDiffIter (σ τ : Type) where
  iters : σ × τ
  queue : List DiffEntry

namespace EntryDiffIter

def onIters {α : Type} (m : EStateM IterError (σ × τ) α) (iter : EntryDiffIter σ τ) :
    EStateM.Result IterError (EntryDiffIter σ τ) α :=
  match m iter.iters with
  | .ok a iters => .ok a {iter with iters := iters}
  | .error e iters => .error e {iter with iters := iters}

/-- The entry that the loop breaks with, or else the queue that it goes on with. The queue is empty before. -/
def onEntry : TreeDiffEntry → EStateM IterError (σ × τ) (DiffEntry ⊕ List DiffEntry)
  | .DeletedBlob deleted => pure (.inl (.Deleted deleted))
  | .CreatedBlob created => pure (.inl (.Created created))
  | .ModifiedBlob old new => pure (.inl (.Modified old new))
  | .DeletedTree => do
    let entries ← onOld (TreeEntriesConsumer.iterFiles oldIter fuel)
    pure (.inr (entries.map .Deleted))
  | .CreatedTree => do
    let entries ← onNew (TreeEntriesConsumer.iterFiles newIter fuel)
    pure (.inr (entries.map .Created))
  | .BlobToTree blob => do
    let entries ← onNew (TreeEntriesConsumer.iterFiles newIter fuel)
    pure (.inr (.Deleted blob::entries.map .Created))
  | .TreeToBlob blob => do
    let entries ← onOld (TreeEntriesConsumer.iterFiles oldIter fuel)
    pure (.inr (entries.map .Deleted++[.Created blob]))
  | .UnmodifiedTree => do
    onNew (TreeEntriesConsumer.drop newIter)
    pure (.inr [])
  | .MaybeModifiedTree _ => pure (.inr [])
  | .UnmodifiedBlob _ => pure (.inr [])

/-- Rounds of the loop, of which there are at most as many as `turns`. -/
def loop : ℕ → EStateM IterError (EntryDiffIter σ τ) (Option DiffEntry)
  | 0 => throw .outOfFuel
  | turns+1 => do
    let iter ← get
    match iter.queue with
    | diffEntry::queue => do
      set {iter with queue := queue}
      pure (some diffEntry)
    | [] =>
      match ← onIters (TreeDiffIter.next oldIter newIter fuel) with
      | none => pure none
      | some entry =>
        match ← onIters (onEntry oldIter newIter fuel entry) with
        | .inl diffEntry => pure (some diffEntry)
        | .inr queue => do
          modify fun iter => {iter with queue := queue}
          loop turns

def next : EStateM IterError (EntryDiffIter σ τ) (Option DiffEntry) := loop oldIter newIter fuel fuel

end EntryDiffIter

namespace TreeStatusDiffer

def onEntry (status : WorkspaceStatus) : TreeDiffEntry → EStateM IterError (σ × τ) WorkspaceStatus
  | .DeletedBlob old => pure {status with deleted := status.deleted++[old]}
  | .CreatedBlob new => pure {status with new := status.new++[new]}
  | .ModifiedBlob old new => pure {status with modified := status.modified++[(old,new)]}
  | .DeletedTree => do
    let entries ← onOld (TreeEntriesConsumer.collectOverFiles oldIter fuel)
    pure {status with deleted := status.deleted++entries}
  | .CreatedTree => do
    let entries ← onNew (TreeEntriesConsumer.collectOverFiles newIter fuel)
    pure {status with new := status.new++entries}
  | .BlobToTree old => do
    let entries ← onNew (TreeEntriesConsumer.iterFiles newIter fuel)
    pure {status with deleted := status.deleted++[old], new := status.new++entries}
  | .TreeToBlob new => do
    let entries ← onOld (TreeEntriesConsumer.iterFiles oldIter fuel)
    pure {status with deleted := status.deleted++entries, new := status.new++[new]}
  | .MaybeModifiedTree _ => pure status
  | .UnmodifiedBlob _ => throw (.panic "included unmodified files when calculating a diff?")
  | .UnmodifiedTree => throw (.panic "included unmodified files when calculating a diff?")

def runDiff : ℕ → WorkspaceStatus → EStateM IterError (σ × τ) WorkspaceStatus
  | 0, _ => throw .outOfFuel
  | turns+1, status => do
    match ← TreeDiffIter.next oldIter newIter fuel with
    | none => pure status
    | some entry => do
      let status ← onEntry oldIter newIter fuel status entry
      runDiff turns status

/-- `is_sorted_by` with `diff_partial_cmp`. -/
def isSorted (entries : List BitIndexEntry) : Prop := entries.IsChain fun x y => x.diffCmp y ≠ .gt

instance (entries : List BitIndexEntry) : Decidable (isSorted entries) := by
  unfold isSorted
  infer_instance

def buildDiff : EStateM IterError (σ × τ) WorkspaceStatus := do
  let status ← runDiff oldIter newIter fuel fuel .empty
  assertThat "self.status.new.is_sorted_by(BitEntry::diff_partial_cmp)" (isSorted status.new)
  assertThat "self.status.deleted.is_sorted_by(BitEntry::diff_partial_cmp)" (isSorted status.deleted)
  pure status

end TreeStatusDiffer

def treesAreDiffLoop : ℕ → EStateM IterError (σ × τ) Bool
  | 0 => throw .outOfFuel
  | turns+1 => do
    match ← TreeDiffIter.next oldIter newIter fuel with
    | none => pure false
    | some entry => do
      TreeDiffIter.drop oldIter newIter entry
      match entry with
      | .MaybeModifiedTree _ => treesAreDiffLoop turns
      | .UnmodifiedBlob _ => treesAreDiffLoop turns
      | .UnmodifiedTree => treesAreDiffLoop turns
      | _ => pure true

def treesAreDiff : EStateM IterError (σ × τ) Bool := treesAreDiffLoop oldIter newIter fuel fuel

end
end Iterators
end Libbit
