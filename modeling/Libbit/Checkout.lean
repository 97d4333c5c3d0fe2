import Libbit.Repo

/-! Checkout (`checkout.rs`): a migration is planned from HEAD, the target and the worktree, and
then carried out in four passes. -/
namespace Libbit

inductive CheckoutStrategy
  | None | Safe | Force
  deriving DecidableEq, Repr

namespace CheckoutStrategy

def isForced (s : CheckoutStrategy) : Bool := s = Force
def isSafe (s : CheckoutStrategy) : Bool := s ≠ None

end CheckoutStrategy

structure Migration where
  rmrfs : List TreeEntry
  rms : List TreeEntry
  mkdirs : List TreeEntry
  creates : List TreeEntry
  deriving DecidableEq, Repr

def Migration.empty : Migration := ⟨[],[],[],[]⟩

/-- `CheckoutCtxt`: the migration so far and the entries in conflict. -/
structure CheckoutCtxt where
  migration : Migration
  conflicts : List TreeEntry
  deriving DecidableEq, Repr

namespace CheckoutCtxt
variable (c : CheckoutCtxt)

def conflict (e : BitIndexEntry) : CheckoutCtxt := {c with conflicts := c.conflicts++[e.toTreeEntry]}

def create (e : BitIndexEntry) : CheckoutCtxt :=
  {c with migration := {c.migration with creates := c.migration.creates++[e.toTreeEntry]}}

def mkdir (e : BitIndexEntry) : CheckoutCtxt :=
  {c with migration := {c.migration with mkdirs := c.migration.mkdirs++[e.toTreeEntry]}}

def delete (e : BitIndexEntry) : CheckoutCtxt :=
  {c with migration := {c.migration with rms := c.migration.rms++[e.toTreeEntry]}}

/-- `delete_worktree_tree`, and `delete_tree` once the tree is stepped over. -/
def deleteTree (e : BitIndexEntry) : CheckoutCtxt :=
  {c with migration := {c.migration with rmrfs := c.migration.rmrfs++[e.toTreeEntry]}}

def update (e : BitIndexEntry) : CheckoutCtxt := (if e.isTree then c.deleteTree e else c.delete e).create e

/-- Make the root of a subtree and all that is in it; the root of the worktree is there. -/
def createTree (tree : List BitIndexEntry) : CheckoutCtxt :=
  tree.foldl (fun c e => if e.isTree then (if e.path = [] then c else c.mkdir e) else c.create e) c

def treeToBlob (tree blob : BitIndexEntry) : CheckoutCtxt := (c.deleteTree tree).create blob

def blobToTree (blob : BitIndexEntry) (tree : List BitIndexEntry) : CheckoutCtxt := (c.delete blob).createTree tree

end CheckoutCtxt

/-- What a planning step returns: the context and the worktree entries that are left. -/
abbrev Plan := Bit (CheckoutCtxt × List BitIndexEntry)

section Generate
variable (strategy : CheckoutStrategy)

/-- A worktree entry that no entry of the difference goes with. -/
def worktreeOnly (c : CheckoutCtxt) (worktree : List BitIndexEntry) (we : BitIndexEntry) :
    CheckoutCtxt × List BitIndexEntry :=
  if we.isTree then (if strategy.isForced then c.deleteTree we else c,Iter.stepOver worktree)
  else (if strategy.isForced then c.delete we else c,worktree.tail)

/-- `trees_are_diff` of a subtree with the worktree: the first difference ends it. -/
def treesAreDiff : ℕ → List BitIndexEntry → List BitIndexEntry → Bit Bool
  | 0, _, _ => pure false
  | fuel+1, old, new => do
    match ← TreeDiffIter.turn (fun _ n => isWorktreeEntryModified n) false old new with
    | .done => pure false
    | .pass old' new' => treesAreDiff fuel old' new'
    | .yield (.MaybeModifiedTree _) old' new' => treesAreDiff fuel old' new'
    | .yield _ _ _ => pure true

/-- `reset_worktree`: the difference of a subtree with all that is left of the worktree. -/
def resetWorktree : ℕ → CheckoutCtxt → List BitIndexEntry → List BitIndexEntry → Bit CheckoutCtxt
  | 0, c, _, _ => pure c
  | fuel+1, c, tree, worktree => do
    match ← TreeDiffIter.turn (fun _ n => isWorktreeEntryModified n) true tree worktree with
    | .done => pure c
    | .pass old new => resetWorktree fuel c old new
    | .yield d old new =>
      match d with
      | .DeletedBlob blob => resetWorktree fuel (c.create blob) old new
      | .CreatedBlob blob => resetWorktree fuel (c.delete blob) old new
      | .ModifiedBlob entry wt => resetWorktree fuel ((c.delete wt).create entry) old new
      | .UnmodifiedBlob _ => resetWorktree fuel c old new
      | .MaybeModifiedTree _ => resetWorktree fuel c old new
      | .UnmodifiedTree _ _ => throw .Panic
      | .DeletedTree e sub => resetWorktree fuel (c.createTree (e::sub)) old new
      | .CreatedTree e _ => resetWorktree fuel (c.deleteTree e) old new
      | .BlobToTree blob tree _ => resetWorktree fuel (c.treeToBlob tree blob) old new
      | .TreeToBlob e sub blob => resetWorktree fuel (c.blobToTree blob (e::sub)) old new

/-- The worktree has a directory where the difference has an entry. The recursive checkout of a
subtree is handed in. -/
def withWorktreeDir (recurse : CheckoutCtxt → List BitIndexEntry → List BitIndexEntry → Plan)
    (c : CheckoutCtxt) (worktree : List BitIndexEntry) (d : TreeDiffEntry) (we : BitIndexEntry) : Plan :=
  let forced := strategy.isForced
  -- `reset_created_worktree`: the root of the subtree is made here, the rest by the recursion
  let resetCreatedWorktree (e : BitIndexEntry) (sub : List BitIndexEntry) := recurse (c.mkdir e) sub worktree
  let treesAreDiff (e : BitIndexEntry) (sub : List BitIndexEntry) :=
    treesAreDiff ((e::sub).length+worktree.length) (e::sub) (Iter.subtree worktree)
  match d with
  -- case 11: the blob is deleted; the directory is only touched when forced
  | .DeletedBlob blob =>
    if forced then pure ((c.delete blob).deleteTree we,Iter.stepOver worktree) else pure (c.delete blob,worktree)
  | .CreatedBlob _ => throw .Panic
  | .ModifiedBlob _ entry =>
    if forced then pure (c.treeToBlob we entry,Iter.stepOver worktree) else pure (c.conflict we,Iter.stepOver worktree)
  | .MaybeModifiedTree _ => pure (c,worktree.tail)
  | .UnmodifiedBlob _ => throw .Panic
  | .UnmodifiedTree e sub =>
    if forced then do
      let c ← resetWorktree ((e::sub).length+worktree.length) c (e::sub) worktree
      pure (c,[])
    else pure (c,Iter.stepOver worktree)
  | .DeletedTree e sub =>
    -- forced: the consumer of the worktree is not used, so the worktree stays where it is
    if forced then pure (c.deleteTree we,worktree)
    else do
      if ← treesAreDiff e sub then pure (c.conflict we,Iter.stepOver worktree)
      else pure (c.deleteTree we,Iter.stepOver worktree)
  | .CreatedTree e sub =>
    if forced then resetCreatedWorktree e sub else pure (c.conflict e,Iter.stepOver worktree)
  | .BlobToTree _ e sub =>
    if forced then resetCreatedWorktree e sub else pure (c.conflict e,Iter.stepOver worktree)
  | .TreeToBlob e sub blob =>
    if forced then pure (c.treeToBlob e blob,worktree)
    else do
      if ← treesAreDiff e sub then pure (c.conflict blob,Iter.stepOver worktree)
      else pure ((c.deleteTree we).create blob,Iter.stepOver worktree)

/-- The worktree has a file where the difference has an entry. There is no case yet for a file in
the place of an unmodified tree. -/
def withWorktreeFile (c : CheckoutCtxt) (we : BitIndexEntry) (modified : Bool) : TreeDiffEntry → Option CheckoutCtxt
  | .DeletedBlob entry =>
    some (if modified then (if strategy.isForced then c.delete we else c.conflict entry) else c.delete entry)
  | .CreatedBlob entry => some (if strategy.isForced then c.update entry else c.conflict entry)
  | .ModifiedBlob _ entry =>
    some (if modified then (if strategy.isForced then c.update entry else c.conflict entry) else c.update entry)
  | .MaybeModifiedTree _ => some (if strategy.isForced then c.delete we else c.conflict we)
  | .UnmodifiedBlob entry => some (if modified && strategy.isForced then c.update entry else c)
  | .UnmodifiedTree _ _ => none
  | .DeletedTree e _ => some (if strategy.isForced then (c.delete we).deleteTree e else c.conflict we)
  | .CreatedTree e sub => some (if strategy.isForced then c.blobToTree we (e::sub) else c.conflict e)
  | .BlobToTree blob e sub =>
    some (if modified then (if strategy.isForced then c.blobToTree blob (e::sub) else c.conflict we)
      else c.blobToTree blob (e::sub))
  | .TreeToBlob e _ blob => some (if strategy.isForced then (c.delete we).treeToBlob e blob else c.conflict we)

/-- The worktree has an entry where the difference has one. -/
def withWorktree (recurse : CheckoutCtxt → List BitIndexEntry → List BitIndexEntry → Plan)
    (c : CheckoutCtxt) (worktree : List BitIndexEntry) (d : TreeDiffEntry) (we : BitIndexEntry) : Plan :=
  if we.isTree then withWorktreeDir strategy recurse c worktree d we
  else do
    let modified ← isWorktreeEntryModified we
    match withWorktreeFile strategy c we modified d with
    | some c => pure (c,worktree.tail)
    | none => throw .Panic

/-- The worktree has nothing where the difference has an entry. -/
def noWorktree (c : CheckoutCtxt) : TreeDiffEntry → CheckoutCtxt
  | .DeletedBlob entry => if strategy.isSafe then c.delete entry else c
  | .CreatedBlob entry => if strategy.isSafe then c.create entry else c
  | .ModifiedBlob _ entry => if strategy.isForced then c.update entry else c.conflict entry
  | .MaybeModifiedTree _ => c
  | .UnmodifiedBlob blob => if strategy.isForced then c.create blob else c
  | .UnmodifiedTree e sub => if strategy.isForced then c.createTree (e::sub) else c
  | .DeletedTree e _ => if strategy.isSafe then c.deleteTree e else c
  | .CreatedTree e sub => c.createTree (e::sub)
  | .BlobToTree blob e sub => c.blobToTree blob (e::sub)
  | .TreeToBlob e _ blob => c.treeToBlob e blob

/-- `CheckoutCtxt::checkout`: match up the worktree with the difference by the order of the paths. -/
def checkoutLoop : ℕ → CheckoutCtxt → List TreeDiffEntry → List BitIndexEntry → Plan
  | 0, _, _, _ => throw .Panic
  | _+1, c, [], worktree => pure (c,worktree)
  | fuel+1, c, d::ds, [] => checkoutLoop fuel (noWorktree strategy c d) ds []
  | fuel+1, c, d::ds, we::worktree =>
    match we.diffCmp d.indexEntry with
    | .lt => let (c,worktree) := worktreeOnly strategy c (we::worktree) we; checkoutLoop fuel c (d::ds) worktree
    | .gt => checkoutLoop fuel (noWorktree strategy c d) ds (we::worktree)
    | .eq => do
      let recurse c (sub worktree : List BitIndexEntry) := checkoutLoop fuel c (treeDiffIter true [] sub) worktree
      let (c,worktree) ← withWorktree strategy recurse c (we::worktree) d we
      checkoutLoop fuel c ds worktree

/-- The worktree entries that are left once the difference is through. -/
def worktreeRest : ℕ → CheckoutCtxt → List BitIndexEntry → CheckoutCtxt
  | 0, c, _ => c
  | _+1, c, [] => c
  | fuel+1, c, we::worktree =>
    let (c,worktree) := worktreeOnly strategy c (we::worktree) we
    worktreeRest fuel c worktree

/-- The entries in conflict make the whole checkout fail. The fuel bounds every turn of the
loop: a turn takes an entry of the worktree, of the baseline or of the target. -/
def generate (baseline target worktree : List BitIndexEntry) : Bit Migration := do
  let fuel := baseline.length+target.length+worktree.length+1
  let (c,rest) ← checkoutLoop strategy fuel ⟨.empty,[]⟩ (treeDiffIter true baseline target) worktree
  let c := worktreeRest strategy rest.length c rest
  if c.conflicts = [] then pure c.migration else throw (.CheckoutConflict c.conflicts)

end Generate

section Apply
variable (env : Env)

def rmrf (p : BitPath) : Bit Unit := do
  if (← get).worktree.isDir p then io (·.removeDirAll p) else pure ()

def applyRmrf (e : TreeEntry) : Bit Unit := do
  rmrf e.path
  modifyIndex (·.removeDirectory e.path)

def removeIfEmpty (p : BitPath) : Bit Unit := do
  if ← ioGet (·.readDirIsEmpty p) then io (·.removeDir p) else pure ()

/-- When the removed file was the last one of its directory, the directory goes too. -/
def removeWithParent (p : BitPath) : Bit Unit := do
  if (← get).worktree.isFile p then do
    io (·.removeFile p)
    removeIfEmpty p.parent
  else pure ()

def applyRm (e : TreeEntry) : Bit Unit := do
  removeWithParent e.path
  modifyIndex (·.removeEntry (e.path,.NONE))

def applyMkdir (e : TreeEntry) : Bit Unit := io (·.createDirAll e.path)

/-- A link is made by `symlink`, any other blob with the permissions of its mode. -/
def makeFile (e : TreeEntry) (bytes : Bytes) (stamp : ℕ × ℕ) : Bit Unit :=
  match e.mode with
  | .blob .LINK => io (·.symlink bytes e.path stamp.1 stamp.2)
  | .blob mode => io (·.createNew e.path ⟨mode,bytes,stamp.1,stamp.2⟩)
  | .TREE => throw .Panic

def applyCreate (e : TreeEntry) : Bit Unit := do
  let bytes ← (BitIndexEntry.ofTreeEntry e).readToBytes
  io (·.createDirAll e.path.parent)
  let stamp ← nextStamp env
  makeFile e bytes stamp
  let entry ← fromRelativePath e.path
  addEntry {entry with oid := e.oid}

def applyMigration (m : Migration) : Bit Unit := do
  m.rmrfs.forM applyRmrf
  m.rms.forM applyRm
  m.mkdirs.forM applyMkdir
  m.creates.forM (applyCreate env)

def checkoutIterator (target : List BitIndexEntry) (strategy : CheckoutStrategy) : Bit Unit := do
  let r ← get
  let migration ← generate strategy (treeIter r.headTree) target (worktreeTreeIter env.gitignore r.index r.worktree)
  applyMigration env migration

/-- A forced checkout records the target in the tree cache. -/
def checkoutTreeWithOpts (target : Tree) (strategy : CheckoutStrategy) : Bit Unit := do
  checkoutIterator env (treeIter (.tree target)) strategy
  if strategy.isForced then updateCacheTree target else pure ()

def checkoutIndex (strategy : CheckoutStrategy) : Bit Unit := do
  checkoutIterator env (← get).index.indexTreeIter strategy

end Apply
end Libbit
