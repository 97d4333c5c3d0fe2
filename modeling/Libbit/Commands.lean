import Libbit.Merge
import Libbit.AddAll
import Libbit.CheckoutConflict

/-! The commands on a repository (`commit.rs`, `reset.rs`, `cherrypick.rs`, `status.rs`, the upper halves of `checkout.rs`,
`index.rs` and `repo.rs`, and the subcommands of the binary). Refs go by their full names here; the files that hold them and
their logs have modules of their own. -/
namespace Libbit

/-- `BitStatus`; the flag is set as long as there is no commit. -/
structure BitStatus where
  head : BitRef
  isInitial : Bool
  staged : WorkspaceStatus
  unstaged : WorkspaceStatus
  conflicted : List (BitPath × ConflictType)
  deriving DecidableEq, Repr

def BitStatus.isEmpty (s : BitStatus) : Bool := s.staged.isEmpty && s.unstaged.isEmpty

inductive CommandError
  | Bit (e : BitError)
  /-- The status is the error when there is nothing to commit. -/
  | NothingToCommit (status : BitStatus)
  /-- No editor, or an empty message in it. -/
  | NoMessage
  | ObjectNotFound (oid : ℕ)
  /-- A reset in the middle of a merge. -/
  | Merging
  | BranchExists (sym : Name)
  | EmptyRepository
  /-- A cherry-pick of a commit with several parents. -/
  | MergeCommit
  | NoFilesAdded
  deriving DecidableEq, Repr

abbrev Command := EStateM CommandError Repo

def lift {α : Type} (m : Bit α) : Command α := EStateM.adaptExcept .Bit m

namespace Repo

/-- `HEAD` stands for what it points at. -/
def deref (r : Repo) (reference : BitRef) : BitRef := if reference = .Symbolic UniquePath.HEAD then r.head else reference

/-- A ref names a commit of the object store. -/
def isCommit (r : Repo) (oid : ℕ) : Bool := oid < r.commits.length

def parentsOf (r : Repo) (oid : ℕ) : List ℕ := (r.commits[oid]?).elim [] Commit.parents

end Repo

section Refs

def ensureObjIsCommit (oid : ℕ) : Command Unit := do
  if (← get).isCommit oid then pure () else throw (.ObjectNotFound oid)

/-- A ref that does not exist yet is no error. -/
def tryFullyResolveRef (reference : BitRef) : Command (Option ℕ) := do
  let r ← get
  match r.resolveRef (r.deref reference) with
  | some oid => do
    ensureObjIsCommit oid
    pure (some oid)
  | none => pure none

def fullyResolveRef (reference : BitRef) : Command ℕ := do
  match ← tryFullyResolveRef reference with
  | some oid => pure oid
  | none => throw (.Bit .NonExistentRef)

/-- `refdb.create_branch`: in an empty repository it is HEAD that changes. -/
def createBranch (sym : Name) (start : BitRef) : Command Unit := do
  if (← get).refs.any fun x => x.1 = sym then throw (.BranchExists sym)
  else match ← tryFullyResolveRef start with
    | some oid => modify fun r => {r with refs := (sym,oid)::r.refs}
    | none => modify fun r => {r with head := .Symbolic sym}

def updateHead (reference : BitRef) : Command Unit := modify fun r => {r with head := reference}

end Refs

section Commands
variable (env : Env)

def conflicts : Command (List (BitPath × ConflictType)) := do
  match (← get).index.conflicts with
  | some cs => pure cs
  | none => throw (.Bit .Panic)

/-- `BitIndex::status` over all paths. -/
def status : Command BitStatus := do
  let head := (← get).head
  let staged ← lift diffHeadIndex
  let unstaged ← lift (diffWorktree env)
  let conflicted ← conflicts
  let oid ← tryFullyResolveRef head
  pure ⟨head,oid.isNone,staged,unstaged,conflicted⟩

structure CommitOpts where
  message : Option Bytes
  allowEmpty : Bool
  deriving DecidableEq, Repr

/-- `commit_tree`: a message that is not given comes from the editor. Parents that are no commits are refused. -/
def commitTree (tree : Tree) (parents : List ℕ) (message edited : Option Bytes) : Command ℕ := do
  match message.or edited with
  | none => throw .NoMessage
  | some _ => do
    parents.forM ensureObjIsCommit
    lift (writeCommit env tree parents)

structure CommitSummary where
  /-- The ref that was moved. -/
  sym : Name
  commit : ℕ
  /-- The difference between HEAD^ and HEAD. -/
  status : WorkspaceStatus
  deriving DecidableEq, Repr

/-- The ref that a commit moves. -/
def BitRef.current : BitRef → Name
  | .Direct _ => UniquePath.HEAD
  | .Symbolic sym => sym

def commitIsEmpty (tree : Tree) (headTree : Oid) : Bool :=
  .tree tree = headTree ∨ (¬headTree.isKnown ∧ tree = .nil)

/-- `BitRepo::commit`. -/
def commit (opts : CommitOpts) (edited : Option Bytes) : Command CommitSummary := do
  let head := (← get).head
  let parent ← tryFullyResolveRef head
  let tree ← lift writeTree
  let headTree := (← get).headTree
  if !opts.allowEmpty ∧ commitIsEmpty tree headTree then throw (.NothingToCommit (← status env))
  else do
    let oid ← commitTree env tree parent.toList opts.message edited
    lift (updateCurrentRef oid)
    pure ⟨head.current,oid,diffIterators (treeIter headTree) (treeIter (.tree tree))⟩

inductive ResetKind
  | Soft | Mixed | Hard
  deriving DecidableEq, Repr

/-- What the index and the files are made to match. -/
def resetFiles (tree : Tree) : ResetKind → Command Unit
  | .Hard => lift (checkoutTreeWithOpts env tree .Force)
  | .Mixed => lift (readTree tree)
  | .Soft => pure ()

/-- `reset_internal`; `merging` tells whether there is a file `MERGE_HEAD`, which the program itself never makes. -/
def reset (merging : Bool) (target : BitRef) (kind : ResetKind) : Command Unit := do
  if merging then throw .Merging
  else do
    let oid ← fullyResolveRef target
    resetFiles env ((← get).treeOf oid) kind
    lift (updateCurrentRef oid)

/-- `BitRepo::checkout`: a branch of a remote is checked out detached. -/
def checkoutRef (reference : BitRef) (strategy : CheckoutStrategy) : Command BitRef := do
  if reference = .Symbolic UniquePath.HEAD then throw (.Bit .Panic)
  else do
    let oid ← fullyResolveRef reference
    lift (checkoutTreeWithOpts env ((← get).treeOf oid) strategy)
    let newHead := if reference.isRemote then .Direct oid else reference
    updateHead newHead
    pure newHead

/-- `BitRepo::merge`; both heads are resolved first. -/
def mergeRef (theirs : BitRef) (desc : Bytes) (opts : MergeOpts) : Command MergeResults := do
  let _ ← fullyResolveRef (← get).head
  let _ ← fullyResolveRef theirs
  lift (Repo.merge env ((← get).deref theirs) desc opts)

/-- `cherrypick`: a merge on top of the parent of the commit. -/
def cherrypick (reference : BitRef) (desc : Bytes) : Command Unit := do
  let oid ← fullyResolveRef reference
  let parents := (← get).parentsOf oid
  if 2 ≤ parents.length then throw .MergeCommit
  else do
    let _ ← fullyResolveRef (← get).head
    let _ ← lift (Repo.mergeWithBase env ((← get).deref reference) desc parents.head? ⟨false,false⟩)

/-- `cherrypick_many`; what comes after the loop is still to be done. -/
def cherrypickMany (refs : List (BitRef × Bytes)) : Command Unit := do
  refs.forM fun x => cherrypick env x.1 x.2
  throw (.Bit .Panic)

/-- `BitIndex::add`: the files of the worktree that the pathspec matches. -/
def add (pathspec : BitPath) : Command Unit := do
  let r ← get
  let matched := (worktreeIter env.gitignore r.index r.worktree).filter fun e => e.path.startsWith pathspec
  if matched = [] ∧ pathspec ≠ [] then throw .NoFilesAdded
  else lift (matched.forM addEntry)

/-! ### The binary -/

/-- The subcommands that may write to the repository. -/
inductive BitSubCmd
  | Add (pathspecs : List BitPath)
  | AddAll
  | Branch (sym : Name) (revision : BitRef)
  | Checkout (revision : BitRef) (strategy : CheckoutStrategy)
  | CherryPick (revisions : List (BitRef × Bytes))
  | CommitTree (tree : Tree) (parents : List ℕ) (message edited : Option Bytes)
  | Commit (opts : CommitOpts) (edited : Option Bytes)
  | Merge (revision : BitRef) (desc : Bytes) (opts : MergeOpts)
  | Reset (merging : Bool) (target : BitRef) (kind : ResetKind)
  | Status
  /-- `switch -c` -/
  | SwitchCreate (sym : Name) (revision : BitRef)
  | WriteTree

def branch (sym : Name) (revision : BitRef) : Command Unit := do
  match ← tryFullyResolveRef revision with
  | some _ => createBranch sym revision
  | none => throw .EmptyRepository

/-- A branch that does not exist even now is an unborn one, which HEAD names already. -/
def switchCreate (sym : Name) (revision : BitRef) : Command Unit := do
  createBranch sym revision
  match ← tryFullyResolveRef (.Symbolic sym) with
  | some _ => do let _ ← checkoutRef env (.Symbolic sym) .Safe
  | none => pure ()

def BitSubCmd.exec : BitSubCmd → Command Unit
  | .Add pathspecs => pathspecs.forM (add env)
  | .AddAll => lift (addAll env)
  | .Branch sym revision => branch sym revision
  | .Checkout revision strategy => do let _ ← checkoutRef env revision strategy
  | .CherryPick revisions => cherrypickMany env revisions
  | .CommitTree tree parents message edited => do let _ ← commitTree env tree parents message edited
  | .Commit opts edited => do let _ ← commit env opts edited
  | .Merge revision desc opts => do let _ ← mergeRef env revision desc opts
  | .Reset merging target kind => reset env merging target kind
  | .Status => do let _ ← status env
  | .SwitchCreate sym revision => switchCreate env sym revision
  | .WriteTree => do let _ ← lift writeTree

/-- `enter`: what a command that fails did to the index is rolled back. -/
def enter {α : Type} (m : Command α) : Command α := fun r =>
  match m r with
  | .ok a r' => .ok a r'
  | .error e r' => .error e {r' with index := r.index}

end Commands
end Libbit
