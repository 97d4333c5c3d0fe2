import Libbit.Diff
import Libbit.MergeBase

/-! The repository as one state (`repo.rs`, `index.rs`): commits and refs, the index, the
worktree, and the operations that tie the index to the worktree. -/
namespace Libbit

/-- What the code takes from outside the repository. -/
structure Env where
  /-- The matcher that the `ignore` crate makes of the contents of the root's `.gitignore`. -/
  gitignore : Option Bytes → BitPath → Bool → Bool
  /-- No pattern matches the root of the worktree. -/
  gitignore_root : ∀ c, gitignore c [] true = false
  /-- The content merge of `diffy` with their label, the base, ours and theirs: the merged
  bytes, or the bytes with conflict markers. -/
  merge : Bytes → Bytes → Bytes → Bytes → Except Bytes Bytes
  /-- The modification time and the inode that the system gives to the n-th new file. -/
  stamp : ℕ → ℕ × ℕ
  /-- The time of a new commit, if the user is configured. -/
  now : Option BitTime

/-- Nothing is ignored, and a content merge takes the side that changed. -/
def Env.plain : Env where
  gitignore _ _ _ := false
  gitignore_root _ := rfl
  merge _ base ours theirs :=
    if base = ours ∨ ours = theirs then .ok theirs else if base = theirs then .ok ours else .error (ours++theirs)
  stamp n := (100+n,100+n)
  now := some (10,0)

inductive BitError
  /-- `MergeConflict`: changes that are not committed prevent a merge. -/
  | MergeConflict (uncommitted : List BitPath)
  | CheckoutConflict (worktree : List TreeEntry)
  | Io (e : IoError)
  /-- `write_tree` on an index that is not fully merged. -/
  | Unmerged
  /-- A commit older than its parent. -/
  | Clock
  | NoSignature
  | NonExistentRef
  /-- `todo!`, `unreachable!`, `unwrap` or `assert!`. -/
  | Panic
  deriving DecidableEq, Repr

structure Commit where
  tree : Tree
  parents : List ℕ
  time : BitTime

inductive BitRef
  | Direct (oid : ℕ)
  | Symbolic (sym : Name)
  deriving DecidableEq, Repr

structure Repo where
  /-- The commits of the object store; the id of a commit is its position. -/
  commits : List Commit
  head : BitRef
  refs : List (Name × ℕ)
  index : BitIndexInner
  /-- The modification time of the index file when it was read. -/
  indexMtime : Option ℕ
  worktree : Worktree
  /-- The number of files made so far. -/
  clock : ℕ

/-- A fallible operation on the repository. What it did before an error stays done. -/
abbrev Bit := EStateM BitError Repo

namespace Repo

/-- A commit is named by a hash over its parents, so it comes after them. -/
def parents (r : Repo) (c : ℕ) : List ℕ := ((r.commits[c]?).elim [] Commit.parents).filter (· < c)

def graph (r : Repo) : CommitGraph ℕ where
  parents := r.parents
  time c := (r.commits[c]?).elim (0,0) Commit.time
  level := id
  level_parents h := by simpa using (List.mem_filter.mp h).2

def resolveRef (r : Repo) : BitRef → Option ℕ
  | .Direct oid => some oid
  | .Symbolic sym => (r.refs.find? fun x => x.1 = sym).map Prod.snd

def treeOf (r : Repo) (c : ℕ) : Tree := (r.commits[c]?).elim .nil Commit.tree

/-- The tree of the commit that HEAD resolves to; a branch without a commit has no tree. -/
def headTree (r : Repo) : Oid := (r.resolveRef r.head).elim .UNKNOWN fun c => .tree (r.treeOf c)

end Repo

section Io

/-- A call that changes the worktree or fails. -/
def io (f : Worktree → IoResult Worktree) : Bit Unit := do
  match f (← get).worktree with
  | .ok w => modify fun r => {r with worktree := w}
  | .error e => throw (.Io e)

/-- A call that looks at the worktree. -/
def ioGet {α : Type} (f : Worktree → IoResult α) : Bit α := do
  match f (← get).worktree with
  | .ok a => pure a
  | .error e => throw (.Io e)

def modifyIndex (f : BitIndexInner → BitIndexInner) : Bit Unit := modify fun r => {r with index := f r.index}

variable (env : Env)

def nextStamp : Bit (ℕ × ℕ) := do
  let r ← get
  set {r with clock := r.clock+1}
  pure (env.stamp r.clock)

def rm (p : BitPath) : Bit Unit := io (·.removeFile p)
def mkdir (p : BitPath) : Bit Unit := io (·.createDir p)
def rmdirAll (p : BitPath) : Bit Unit := io (·.removeDirAll p)
def mv (p q : BitPath) : Bit Unit := io (·.rename p q)
def pathExists (p : BitPath) : Bit Bool := ioGet (·.tryExists p)

/-- `touch` and the write after it: a new regular file, below directories made as needed. -/
def touchAndWrite (p : BitPath) (bytes : Bytes) : Bit Unit := do
  io (·.createDirAll p.parent)
  let (mtime,inode) ← nextStamp env
  io (·.createNew p ⟨.REG,bytes,mtime,inode⟩)

/-- A link is read as its target, without following it. -/
def readBlobFromWorktree (p : BitPath) : Bit Bytes := do
  match ← ioGet (·.symlinkMetadata p) with
  | some f => pure f.contents
  | none => throw (.Io .IsADirectory)

/-- `from_relative_path`; a directory gets the mode of a tree. -/
def fromRelativePath (p : BitPath) : Bit BitIndexEntry := do
  match ← ioGet (·.symlinkMetadata p) with
  | some f => pure (f.toEntry p)
  | none => pure ⟨p,.TREE,.UNKNOWN,.NONE,.unknown⟩

end Io

namespace BitIndexEntry

/-- Objects of known ids are in the store; anything else is read from the worktree. -/
def readToBytes (e : BitIndexEntry) : Bit Bytes :=
  match e.oid with
  | .blob contents => pure contents
  | .UNKNOWN => readBlobFromWorktree e.path
  | .tree _ => throw .Panic

/-- `BitEntry::write`: put the entry into the object store unless its id is known. -/
def write (e : BitIndexEntry) : Bit Oid :=
  if e.oid.isKnown then pure e.oid else do pure (.blob (← e.readToBytes))

/-- Fill in the stat data, and with it the mode, from the disk. -/
def fill (e : BitIndexEntry) : Bit BitIndexEntry :=
  if e.isFilled then pure e else do
    let entry ← fromRelativePath e.path
    pure {entry with oid := e.oid}

end BitIndexEntry

section Index
variable (env : Env)

def addEntryCommon (e : BitIndexEntry) : Bit Unit := do
  modifyIndex (·.removeCollisions e.path)
  let oid ← e.write
  modifyIndex (·.insertEntry {e with oid := oid})

def addEntry (e : BitIndexEntry) : Bit Unit := do
  let e ← e.fill
  modifyIndex (·.removeConflicted e.path)
  addEntryCommon e

def addEntryFromPath (p : BitPath) : Bit Unit := do addEntry (← fromRelativePath p)

def addConflictedEntry (e : BitIndexEntry) (stage : MergeStage) : Bit Unit :=
  if e.oid.isKnown then do
    modifyIndex (·.removeEntry (e.path,.NONE))
    addEntryCommon {e with stage := stage}
  else throw .Panic

def writeToDiskAt (e : BitIndexEntry) (p : BitPath) : Bit Unit := do
  let bytes ← e.readToBytes
  touchAndWrite env p bytes

def writeToDisk (e : BitIndexEntry) : Bit Unit := writeToDiskAt env e e.path

def writeAndAddBlob (e : BitIndexEntry) : Bit Unit := do
  writeToDisk env e
  addEntry e

def updateBlob (e : BitIndexEntry) : Bit Unit := do
  rm e.path
  writeAndAddBlob env e

/-- `build_tree_internal`: the tree of the entries below a path, and what is left of the iterator. A
directory that the cache vouches for is taken as it is and stepped over; an entry without an
object has no tree. -/
def buildTreeInternal (idx : BitIndexInner) (cache : Option BitTreeCache) :
    ℕ → BitPath → IndexTreeIter → Option (Tree × IndexTreeIter)
  | 0, _, _ => none
  | fuel+1, base, iter =>
    match iter.next idx with
    | none => some (.nil,iter)
    | some (e,next) =>
      if !e.path.startsWith base then some (.nil,iter)
      else match e.mode with
        | .blob mode =>
          match e.oid with
          | .blob contents => do
            let (t,iter) ← buildTreeInternal idx cache fuel base next
            some (.leaf e.path.fileName (mode,contents) t,iter)
          | _ => none
        | .TREE => do
          let child := cache.bind fun c => c.findValidChild e.path
          let (sub,iter) ←
            match child.filter fun c => c.isValid && c.treeOid = e.oid with
            | some c =>
              match e.oid with
              | .tree sub => some (sub,next.stepOverTree c)
              | _ => none
            | none => buildTreeInternal idx cache fuel e.path next
          let (t,iter) ← buildTreeInternal idx cache fuel base iter
          some (.node e.path.fileName sub t,iter)

/-- `build_tree` of the index iterator: the root is skipped. An entry takes at most a turn for itself
and one for every directory above it. The entries of a tree object are ordered when it is written. -/
def buildTree (idx : BitIndexInner) (cache : Option BitTreeCache) : Option Tree := do
  let (_,iter) ← (IndexTreeIter.new idx).next idx
  let (t,_) ← buildTreeInternal idx cache ((idx.entries.map fun e => e.path.length).sum+1) [] iter
  some (t.sort entryLt)

def updateCacheTree (t : Tree) : Bit Unit :=
  modifyIndex fun idx => {idx with treeCache := some ((idx.treeCache.map (·.update t)).getD (.readTree t))}

/-- `BitIndex::write_tree`. -/
def writeTree : Bit Tree := do
  let idx := (← get).index
  if idx.hasConflicts then throw .Unmerged
  else match buildTree idx idx.treeCache with
    | none => throw .Panic
    | some t => do
      updateCacheTree t
      pure t

/-- `BitIndex::apply_diff`: what the difference calls old is removed, what it calls new is added. -/
def applyDiff (s : WorkspaceStatus) : Bit Unit := do
  s.deleted.forM fun old => modifyIndex (·.removeEntry old.key)
  s.modified.forM fun x => addEntry x.2
  s.new.forM addEntry

/-- `BitIndex::read_tree`. -/
def readTree (t : Tree) : Bit Unit := do
  applyDiff ((← get).index.diffTree (.tree t))
  updateCacheTree t

/-- `mk_commit` and the write: no commit may be older than a parent. -/
def writeCommit (t : Tree) (parents : List ℕ) : Bit ℕ := do
  let r ← get
  match env.now with
  | none => throw .NoSignature
  | some now =>
    if parents.all fun p => r.graph.time p ≤ now then
      set {r with commits := r.commits++[Commit.mk t parents now]}
      pure r.commits.length
    else throw .Clock

/-- The branch that HEAD names is moved, or HEAD itself when it is detached. -/
def updateCurrentRef (target : ℕ) : Bit Unit := modify fun r =>
  match r.head with
  | .Direct _ => {r with head := .Direct target}
  | .Symbolic sym => {r with refs := (sym,target)::r.refs.filter fun x => x.1 ≠ sym}

end Index

section Changes

inductive Changed
  | Yes | No | Maybe
  deriving DecidableEq, Repr

/-- An entry at least as new as the index file may have been written after it. -/
def isRacyEntry (indexMtime : Option ℕ) (e : BitIndexEntry) : Bool := indexMtime.all fun mtime => mtime ≤ e.stat.mtime

def hasChangesInner (indexMtime : Option ℕ) (idxe wte : BitIndexEntry) : Changed :=
  if idxe.oid = wte.oid then .No
  else if wte.oid.isKnown then .Yes
  else if idxe.stat.mtime = wte.stat.mtime ∧ !isRacyEntry indexMtime idxe then .No
  else if idxe.stat.filesize ≠ wte.stat.filesize then .Yes
  else if idxe.stat.inode ≠ wte.stat.inode then .Yes
  else if idxe.mode ≠ wte.mode then .Yes
  else .Maybe

def hashWorktreeEntry (wte : BitIndexEntry) : Bit Oid :=
  if wte.oid.isKnown then pure wte.oid else do pure (.blob (← readBlobFromWorktree wte.path))

/-- Hashing is the last resort; when the hashes agree the index entry is refreshed. -/
def hasChanges (idxe wte : BitIndexEntry) : Bit Bool := do
  match hasChangesInner (← get).indexMtime idxe wte with
  | .Yes => pure true
  | .No => pure false
  | .Maybe => do
    let oid ← hashWorktreeEntry wte
    if idxe.oid ≠ oid then pure true
    else do
      addEntry {wte with oid := oid}
      pure false

def isWorktreeEntryModified (wte : BitIndexEntry) : Bit Bool := do
  match (← get).index.findEntry wte.key with
  | some idxe => hasChanges idxe wte
  | none => pure true

/-- `IndexWorktreeDiffIter` drained into a status. -/
def diffIndexWorktree : ℕ → List BitIndexEntry → List BitIndexEntry → WorkspaceStatus → Bit WorkspaceStatus
  | 0, _, _, s => pure s
  | _+1, [], [], s => pure s
  | fuel+1, [], n::ns, s => diffIndexWorktree fuel [] ns {s with new := s.new++[n]}
  | fuel+1, o::os, [], s => diffIndexWorktree fuel os [] {s with deleted := s.deleted++[o]}
  | fuel+1, o::os, n::ns, s =>
    match o.diffCmp n with
    | .lt => diffIndexWorktree fuel os (n::ns) {s with deleted := s.deleted++[o]}
    | .gt => diffIndexWorktree fuel (o::os) ns {s with new := s.new++[n]}
    | .eq => do
      if ← hasChanges o n then diffIndexWorktree fuel os ns {s with modified := s.modified++[(o,n)]}
      else diffIndexWorktree fuel os ns s

variable (env : Env)

/-- `BitIndex::diff_worktree` over all paths. -/
def diffWorktree : Bit WorkspaceStatus := do
  let r ← get
  let worktree := worktreeIter env.gitignore r.index r.worktree
  diffIndexWorktree (r.index.entries.length+worktree.length) r.index.entries worktree .empty

/-- `diff_head_index` over all paths. -/
def diffHeadIndex : Bit WorkspaceStatus := do
  let r ← get
  pure (r.index.diffTree r.headTree)

end Changes
end Libbit
