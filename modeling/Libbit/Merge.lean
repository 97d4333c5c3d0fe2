import Libbit.Checkout

/-! The three-way merge (`merge.rs`): the trees of the base and of both heads are walked in lock
step, and every item of the walk is merged into the live index and worktree. -/
namespace Libbit

/-- The entry of a variant is the one after the change, except for deletions. -/
inductive MergeDiffEntry
  | DeletedBlob (entry : BitIndexEntry)
  | CreatedBlob (entry : BitIndexEntry)
  | ModifiedBlob (entry : BitIndexEntry)
  | ModifiedTree (entry : BitIndexEntry)
  | UnmodifiedBlob (entry : BitIndexEntry)
  | UnmodifiedTree (entry : BitIndexEntry)
  | DeletedTree (entry : BitIndexEntry)
  | CreatedTree (entry : BitIndexEntry)
  | BlobToTree (entry : BitIndexEntry)
  | TreeToBlob (entry : BitIndexEntry)
  deriving DecidableEq, Repr

def baseOnly (base : BitIndexEntry) : MergeDiffEntry := if base.isTree then .DeletedTree base else .DeletedBlob base

def otherOnly (other : BitIndexEntry) : MergeDiffEntry :=
  if other.isTree then .CreatedTree other else .CreatedBlob other

def diffBaseToOther : Option BitIndexEntry → Option BitIndexEntry → Option MergeDiffEntry
  | none, none => none
  | none, some other => some (otherOnly other)
  | some base, none => some (baseOnly base)
  | some base, some other =>
    match base.diffCmp other with
    | .lt => some (baseOnly base)
    | .gt => some (otherOnly other)
    | .eq =>
      match base.mode, other.mode with
      | .TREE, .TREE => some (if base.oid = other.oid then .UnmodifiedTree other else .ModifiedTree other)
      | .TREE, .blob _ => some (.TreeToBlob other)
      | .blob _, .TREE => some (.BlobToTree other)
      | .blob _, .blob _ => some (if base.oid = other.oid then .UnmodifiedBlob other else .ModifiedBlob other)

structure MergeOpts where
  noCommit : Bool
  noFf : Bool
  deriving DecidableEq, Repr

/-- `MergeCtxt`; the paths in the way of the merge are handed from step to step. -/
structure MergeCtxt where
  theirHeadDesc : Bytes
  theirHead : ℕ
  ourHead : ℕ
  opts : MergeOpts
  /-- The state of the index before the merge. -/
  initialIndexSnapshot : BitIndexInner

inductive ConflictType
  | BothModified | BothAdded | ModifyDelete | DeleteModify | AddedByUs | AddedByThem
  deriving DecidableEq, Repr

def ConflictType.new : List MergeStage → Option ConflictType
  | [.BASE,.OURS,.THEIRS] => some .BothModified
  | [.OURS,.THEIRS] => some .BothAdded
  | [.BASE,.OURS] => some .ModifyDelete
  | [.BASE,.THEIRS] => some .DeleteModify
  | [.OURS] => some .AddedByUs
  | [.THEIRS] => some .AddedByThem
  | _ => none

/-- The unmerged paths in the order of the index, each with its stages. -/
def BitIndexInner.conflicts (idx : BitIndexInner) : Option (List (BitPath × ConflictType)) :=
  let unmerged := idx.entries.filter fun e => e.stage.isUnmerged
  ((unmerged.map BitIndexEntry.path).dedup).mapM fun p =>
    (ConflictType.new ((unmerged.filter fun e => e.path = p).map BitIndexEntry.stage)).map fun t => (p,t)

inductive MergeResults
  | Null
  | Conflicts (conflicts : List (BitPath × ConflictType))
  | FastForward (fromOid toOid : ℕ)
  | Merge
  deriving DecidableEq, Repr

variable (env : Env)

namespace UniquePath

def HEAD : Bytes := [72,69,65,68]
def TILDE : Byte := 126

/-- `RenameIndex`: nothing at first, then _0, _1 and so on. -/
def renameIndex : ℕ → Bytes
  | 0 => []
  | i+1 => 95::(Nat.toDigits 10 i).map fun c => Fin.ofNat 256 c.toNat

/-- The first of the names that nothing stands at; there are more names than files. -/
def makeFrom (base : Bytes) : ℕ → ℕ → Bit BitPath
  | 0, _ => throw .Panic
  | fuel+1, i => do
    let moved := BitPath.ofBytes (base++renameIndex i)
    if ← pathExists moved then makeFrom base fuel (i+1) else pure moved

def make (base : Bytes) : Bit BitPath := do makeFrom base ((← get).worktree.size+2) 0

end UniquePath

def writeTheirConflicted (ctx : MergeCtxt) (theirs : BitIndexEntry) : Bit Unit := do
  let moved ← UniquePath.make (theirs.path.asBytes++UniquePath.TILDE::ctx.theirHeadDesc)
  writeToDiskAt env theirs moved

def mvOurConflicted (p : BitPath) : Bit Unit := do
  let moved ← UniquePath.make (p.asBytes++UniquePath.TILDE::UniquePath.HEAD)
  mv p moved

/-- A path that the base does not have is merged against nothing. -/
def readBase : Option BitIndexEntry → Bit Bytes
  | some b => b.readToBytes
  | none => pure []

def addConflictedBase : Option BitIndexEntry → Bit Unit
  | some b => addConflictedEntry b .BASE
  | none => pure ()

/-- The file on disk is written over from its start; on a conflict the sides go to the index. -/
def writeMerged (base : Option BitIndexEntry) (ours theirs : BitIndexEntry) (mtime : ℕ) : Except Bytes Bytes → Bit Unit
  | .ok merged => do
    io (·.openAndWrite ours.path merged mtime)
    addEntryFromPath ours.path
  | .error conflicted => do
    io (·.openAndWrite ours.path conflicted mtime)
    addConflictedBase base
    addConflictedEntry ours .OURS
    addConflictedEntry theirs .THEIRS

/-- The content merge of one path; different modes are not handled yet. -/
def threeWayMerge (ctx : MergeCtxt) (base : Option BitIndexEntry) (ours theirs : BitIndexEntry) : Bit Unit := do
  let baseBytes ← readBase base
  if ours.mode ≠ theirs.mode then throw .Panic
  else do
    let ourBytes ← ours.readToBytes
    let theirBytes ← theirs.readToBytes
    let stamp ← nextStamp env
    writeMerged base ours theirs stamp.1 (env.merge ctx.theirHeadDesc baseBytes ourBytes theirBytes)

/-- `base.unwrap()` on a path that the base does not have. -/
def unwrapBase : Option BitIndexEntry → Bit BitIndexEntry
  | some b => pure b
  | none => throw .Panic

/-- The table over what ours and theirs did to an entry of the base. -/
def mergeEntry (ctx : MergeCtxt) (base : Option BitIndexEntry) (baseToOurs baseToTheirs : MergeDiffEntry) : Bit Unit :=
  match baseToOurs, baseToTheirs with
  | .DeletedBlob entry, .DeletedBlob _ => modifyIndex (·.removeEntry entry.key)
  | .DeletedBlob _, .ModifiedBlob theirs => do
    addConflictedEntry (← unwrapBase base) .BASE
    addConflictedEntry theirs .THEIRS
    writeToDisk env theirs
  | .ModifiedBlob ours, .DeletedBlob _ => do
    addConflictedEntry (← unwrapBase base) .BASE
    addConflictedEntry ours .OURS
  | .DeletedBlob ours, .UnmodifiedBlob _ => modifyIndex (·.removeEntry ours.key)
  | .CreatedBlob ours, .CreatedBlob theirs => threeWayMerge env ctx base ours theirs
  | .ModifiedBlob ours, .ModifiedBlob theirs => threeWayMerge env ctx base ours theirs
  | .ModifiedBlob entry, .UnmodifiedBlob _ => addEntry entry
  | .ModifiedBlob ours, .BlobToTree tree => do
    addConflictedEntry (← unwrapBase base) .BASE
    addConflictedEntry ours .OURS
    mvOurConflicted ours.path
    mkdir tree.path
  | .BlobToTree _, .ModifiedBlob theirs => do
    addConflictedEntry (← unwrapBase base) .BASE
    addConflictedEntry theirs .THEIRS
    writeTheirConflicted env ctx theirs
  | .ModifiedTree _, .TreeToBlob theirs => do
    addConflictedEntry theirs .THEIRS
    writeTheirConflicted env ctx theirs
  | .TreeToBlob ours, .ModifiedTree _ => do
    addConflictedEntry ours .OURS
    mvOurConflicted ours.path
  | .UnmodifiedTree tree, .DeletedTree _ => do
    modifyIndex (·.removeDirectory tree.path)
    rmdirAll tree.path
  | .UnmodifiedBlob _, .ModifiedBlob theirs => updateBlob env theirs
  | .UnmodifiedBlob _, .BlobToTree tree => do
    rm tree.path
    mkdir tree.path
  | .CreatedBlob ours, .CreatedTree _ => do
    addConflictedEntry ours .OURS
    mvOurConflicted ours.path
  | .CreatedTree _, .CreatedBlob theirs => do
    addConflictedEntry theirs .THEIRS
    writeTheirConflicted env ctx theirs
  | .DeletedTree entry, .DeletedTree _ => modifyIndex (·.removeDirectory entry.path)
  | .UnmodifiedTree ours, .TreeToBlob theirs => do
    rmdirAll ours.path
    writeToDisk env theirs
    addEntry theirs
  | .UnmodifiedBlob _, .DeletedBlob theirs => do
    -- the directory may have gone as a whole before, so the error is passed over
    try rm theirs.path catch _ => pure ()
    modifyIndex (·.removeEntry theirs.key)
  | .DeletedTree _, .TreeToBlob theirs => do
    writeToDisk env theirs
    addEntry theirs
  | .TreeToBlob ours, .TreeToBlob theirs => threeWayMerge env ctx none ours theirs
  | .ModifiedTree _, .ModifiedTree _ => pure ()
  | .CreatedTree _, .CreatedTree _ => pure ()
  | .BlobToTree _, .UnmodifiedBlob _ => pure ()
  | .BlobToTree _, .BlobToTree _ => pure ()
  | .ModifiedTree _, .UnmodifiedTree _ => pure ()
  | .UnmodifiedTree _, .ModifiedTree _ => pure ()
  | .DeletedTree _, .ModifiedTree _ => pure ()
  | .UnmodifiedTree _, .UnmodifiedTree _ => pure ()
  | .BlobToTree _, .DeletedBlob _ => pure ()
  | .UnmodifiedBlob _, .UnmodifiedBlob _ => pure ()
  | .DeletedBlob _, .BlobToTree _ => pure ()
  | .ModifiedTree _, .DeletedTree _ => pure ()
  | .TreeToBlob _, .UnmodifiedTree _ => pure ()
  | .TreeToBlob _, .DeletedTree _ => pure ()
  | .DeletedTree _, .UnmodifiedTree _ => pure ()
  | _, _ => throw .Panic

def baseToOursOnly : MergeDiffEntry → Bit Unit
  | .CreatedBlob entry => addEntry entry
  | .CreatedTree _ => pure ()
  | _ => throw .Panic

/-- An untracked file in the place of a new one of theirs is reported, not overwritten. -/
def baseToTheirsOnly (uncommitted : List BitPath) : MergeDiffEntry → Bit (List BitPath)
  | .CreatedBlob entry => do
    if ← pathExists entry.path then pure (uncommitted++[entry.path])
    else do
      writeAndAddBlob env entry
      pure uncommitted
  | .CreatedTree tree => do
    mkdir tree.path
    pure uncommitted
  | _ => throw .Panic

def mergeEntries (ctx : MergeCtxt) (uncommitted : List BitPath) (base ours theirs : Option BitIndexEntry) :
    Bit (List BitPath) :=
  match diffBaseToOther base ours, diffBaseToOther base theirs with
  | none, none => pure uncommitted
  | none, some baseToTheirs => baseToTheirsOnly env uncommitted baseToTheirs
  | some baseToOurs, none => do
    baseToOursOnly baseToOurs
    pure uncommitted
  | some baseToOurs, some baseToTheirs => do
    mergeEntry env ctx base baseToOurs baseToTheirs
    pure uncommitted

/-- One item of the walk over base, ours and theirs. -/
def mergeItem (ctx : MergeCtxt) (uncommitted : List BitPath) (item : List (Option BitIndexEntry)) : Bit (List BitPath) :=
  match item with
  | [base,ours,theirs] => mergeEntries env ctx uncommitted base ours theirs
  | _ => throw .Panic

def mergeTrees (ctx : MergeCtxt) (uncommitted : List BitPath) (base ours theirs : Oid) : Bit (List BitPath) :=
  (walk3 (treeIter base) (treeIter ours) (treeIter theirs)).foldlM (mergeItem env ctx) uncommitted

def mergeCommits (ctx : MergeCtxt) (uncommitted : List BitPath) (base : Option ℕ) (ours theirs : ℕ) :
    Bit (List BitPath) := do
  let r ← get
  let baseTree := base.elim .UNKNOWN fun c => .tree (r.treeOf c)
  mergeTrees env ctx uncommitted baseTree (.tree (r.treeOf ours)) (.tree (r.treeOf theirs))

/-- `merge_base_recursive` with `make_virtual_base`: two merge bases are merged, in place, into a
commit of their own. The levels of the commits fall from call to call. -/
def mergeBaseRecursive (ctx : MergeCtxt) : ℕ → List BitPath → ℕ → ℕ → Bit (List BitPath × Option ℕ)
  | 0, _, _, _ => throw .Panic
  | fuel+1, uncommitted, ours, theirs => do
    match MergeBase.findMergeBases (← get).graph ours theirs with
    | none => throw .Panic
    | some [] => pure (uncommitted,none)
    | some [c] => pure (uncommitted,some c)
    | some [a,b] => do
      let (uncommitted,base) ← mergeBaseRecursive ctx fuel uncommitted a b
      let uncommitted ← mergeCommits env ctx uncommitted base a b
      let tree ← writeTree
      let commit ← writeCommit env tree [a,b]
      pure (uncommitted,some commit)
    | some _ => throw .Panic

def preMergeChecks (uncommitted : List BitPath) : Bit (List BitPath) := do
  let unstaged ← diffWorktree env
  let staged ← diffHeadIndex
  pure (uncommitted++unstaged.iterPaths++staged.iterPaths)

/-- Restore the index and check it out, safely, to restore the worktree as well. -/
def abortMerge (ctx : MergeCtxt) (uncommitted : List BitPath) : Bit MergeResults := do
  modifyIndex fun _ => ctx.initialIndexSnapshot
  checkoutIndex env .Safe
  throw (.MergeConflict uncommitted)

def commitMerge (ctx : MergeCtxt) : Bit Unit := do
  let tree ← writeTree
  let commit ← writeCommit env tree [ctx.ourHead,ctx.theirHead]
  updateCurrentRef commit

def finishMerge (ctx : MergeCtxt) : Bit MergeResults := do
  let idx := (← get).index
  if idx.hasConflicts then
    match idx.conflicts with
    | some cs => pure (.Conflicts cs)
    | none => throw .Panic
  else if ctx.opts.noCommit then pure .Merge
  else do
    commitMerge env ctx
    pure .Merge

def fastForward (ctx : MergeCtxt) : Bit MergeResults := do
  checkoutTreeWithOpts env ((← get).treeOf ctx.theirHead) .Safe
  updateCurrentRef ctx.theirHead
  pure (.FastForward ctx.ourHead ctx.theirHead)

def mergeWithBase (ctx : MergeCtxt) (uncommitted : List BitPath) (base : Option ℕ) : Bit MergeResults := do
  let uncommitted ← preMergeChecks env uncommitted
  if base = some ctx.theirHead then pure .Null
  else if !ctx.opts.noFf ∧ base = some ctx.ourHead then fastForward env ctx
  else do
    let uncommitted ← mergeCommits env ctx uncommitted base ctx.ourHead ctx.theirHead
    if uncommitted ≠ [] then abortMerge env ctx uncommitted else finishMerge env ctx

def mergeRun (ctx : MergeCtxt) : Bit MergeResults := do
  let (uncommitted,base) ← mergeBaseRecursive env ctx (ctx.ourHead+ctx.theirHead+1) [] ctx.ourHead ctx.theirHead
  mergeWithBase env ctx uncommitted base

/-- `MergeCtxt::new`: both heads are resolved and the index is copied. -/
def MergeCtxt.new (theirHeadRef : BitRef) (desc : Bytes) (opts : MergeOpts) : Bit MergeCtxt := do
  let r ← get
  match r.resolveRef r.head, r.resolveRef theirHeadRef with
  | some ours, some theirs => pure ⟨desc,theirs,ours,opts,r.index⟩
  | _, _ => throw .NonExistentRef

/-- `BitRepo::merge`; the label of their head is its short name. -/
def Repo.merge (theirHeadRef : BitRef) (desc : Bytes) (opts : MergeOpts) : Bit MergeResults := do
  mergeRun env (← MergeCtxt.new theirHeadRef desc opts)

/-- `BitRepo::merge_with_base`. -/
def Repo.mergeWithBase (theirHeadRef : BitRef) (desc : Bytes) (base : Option ℕ) (opts : MergeOpts) : Bit MergeResults := do
  Libbit.mergeWithBase env (← MergeCtxt.new theirHeadRef desc opts) [] base

end Libbit
