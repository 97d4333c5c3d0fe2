import Libbit.Lib.Eff
import Libbit.Merge

/-! What the operations leave alone. A property of the repository that does not depend on the
index, on the worktree or on the stamps is kept by every operation that writes nothing else. -/
namespace Libbit

open Lib

/-- An error other than a refused merge. -/
def NoMergeConflict : BitError → Prop
  | .MergeConflict _ => False
  | _ => True

/-- The property survives the operation, which does not refuse a merge. -/
abbrev Holds {α : Type} (P : Repo → Prop) (m : Bit α) : Prop := Keeps P NoMergeConflict m

def StableIndex (P : Repo → Prop) : Prop := ∀ r idx, P r → P {r with index := idx}
def StableWorktree (P : Repo → Prop) : Prop := ∀ r w, P r → P {r with worktree := w}
def StableClock (P : Repo → Prop) : Prop := ∀ r n, P r → P {r with clock := n}

namespace Holds
variable {P : Repo → Prop}

section Reading

theorem ioGet {α : Type} (f : Worktree → IoResult α) : Holds P (ioGet f) := by
  refine Keeps.get.bind fun r => ?_
  split
  · exact Keeps.pure _
  · exact Keeps.throw trivial

theorem readBlobFromWorktree (p : BitPath) : Holds P (readBlobFromWorktree p) := by
  refine (ioGet _).bind fun f => ?_
  split
  · exact Keeps.pure _
  · exact Keeps.throw trivial

theorem fromRelativePath (p : BitPath) : Holds P (fromRelativePath p) := by
  refine (ioGet _).bind fun f => ?_
  split <;> exact Keeps.pure _

theorem readToBytes (e : BitIndexEntry) : Holds P e.readToBytes := by
  unfold BitIndexEntry.readToBytes
  split
  · exact Keeps.pure _
  · exact readBlobFromWorktree _
  · exact Keeps.throw trivial

theorem write (e : BitIndexEntry) : Holds P e.write :=
  Keeps.ite (fun _ => Keeps.pure _) fun _ => (readToBytes e).bind fun _ => Keeps.pure _

theorem fill (e : BitIndexEntry) : Holds P e.fill :=
  Keeps.ite (fun _ => Keeps.pure _) fun _ => (fromRelativePath _).bind fun _ => Keeps.pure _

theorem hashWorktreeEntry (wte : BitIndexEntry) : Holds P (hashWorktreeEntry wte) :=
  Keeps.ite (fun _ => Keeps.pure _) fun _ => (readBlobFromWorktree _).bind fun _ => Keeps.pure _

theorem unwrapBase (base : Option BitIndexEntry) : Holds P (unwrapBase base) := by
  cases base with
  | none => exact Keeps.throw trivial
  | some b => exact Keeps.pure _

theorem pathExists (p : BitPath) : Holds P (pathExists p) := ioGet _

theorem makeFrom (base : Bytes) (fuel i : ℕ) : Holds P (UniquePath.makeFrom base fuel i) := by
  induction fuel generalizing i with
  | zero => exact Keeps.throw trivial
  | succ fuel ih => exact (pathExists _).bind fun _ => Keeps.ite (fun _ => ih _) fun _ => Keeps.pure _

theorem make (base : Bytes) : Holds P (UniquePath.make base) := Keeps.get.bind fun _ => makeFrom _ _ _

end Reading

section IndexOnly
variable (hi : StableIndex P)
include hi

theorem modifyIndex (f : BitIndexInner → BitIndexInner) : Holds P (modifyIndex f) :=
  Keeps.modify fun r hr => hi r (f r.index) hr

theorem addEntryCommon (e : BitIndexEntry) : Holds P (addEntryCommon e) :=
  (modifyIndex hi _).seq ((write e).bind fun _ => modifyIndex hi _)

theorem addEntry (e : BitIndexEntry) : Holds P (addEntry e) :=
  (fill e).bind fun _ => (modifyIndex hi _).seq (addEntryCommon hi _)

theorem addEntryFromPath (p : BitPath) : Holds P (addEntryFromPath p) :=
  (fromRelativePath p).bind fun _ => addEntry hi _

theorem addConflictedEntry (e : BitIndexEntry) (stage : MergeStage) : Holds P (addConflictedEntry e stage) :=
  Keeps.ite (fun _ => (modifyIndex hi _).seq (addEntryCommon hi _)) fun _ => Keeps.throw trivial

theorem baseToOursOnly (d : MergeDiffEntry) : Holds P (baseToOursOnly d) := by
  unfold Libbit.baseToOursOnly
  split
  · exact addEntry hi _
  · exact Keeps.pure _
  · exact Keeps.throw trivial

theorem updateCacheTree (t : Tree) : Holds P (updateCacheTree t) := modifyIndex hi _

theorem writeTree : Holds P writeTree := by
  refine Keeps.get.bind fun r => Keeps.ite (fun _ => Keeps.throw trivial) fun _ => ?_
  split
  · exact Keeps.throw trivial
  · exact (updateCacheTree hi _).seq (Keeps.pure _)

theorem hasChanges (idxe wte : BitIndexEntry) : Holds P (hasChanges idxe wte) := by
  refine Keeps.get.bind fun r => ?_
  split
  · exact Keeps.pure _
  · exact Keeps.pure _
  · exact (hashWorktreeEntry _).bind fun _ =>
      Keeps.ite (fun _ => Keeps.pure _) fun _ => (addEntry hi _).seq (Keeps.pure _)

theorem isWorktreeEntryModified (wte : BitIndexEntry) : Holds P (isWorktreeEntryModified wte) := by
  refine Keeps.get.bind fun r => ?_
  split
  · exact hasChanges hi _ _
  · exact Keeps.pure _

theorem diffIndexWorktree (fuel : ℕ) (old new : List BitIndexEntry) (s : WorkspaceStatus) :
    Holds P (diffIndexWorktree fuel old new s) := by
  induction fuel generalizing old new s with
  | zero => exact Keeps.pure _
  | succ fuel ih =>
    cases old with
    | nil =>
      cases new with
      | nil => exact Keeps.pure _
      | cons n ns => exact ih _ _ _
    | cons o os =>
      cases new with
      | nil => exact ih _ _ _
      | cons n ns =>
        unfold Libbit.diffIndexWorktree
        split
        · exact ih _ _ _
        · exact ih _ _ _
        · exact (hasChanges hi _ _).bind fun _ => Keeps.ite (fun _ => ih _ _ _) fun _ => ih _ _ _

theorem diffWorktree (env : Env) : Holds P (diffWorktree env) :=
  Keeps.get.bind fun _ => diffIndexWorktree hi _ _ _ _

theorem preMergeChecks (env : Env) (u : List BitPath) : Holds P (preMergeChecks env u) :=
  (diffWorktree hi env).bind fun _ => (Keeps.get.bind fun _ => Keeps.pure _).bind fun _ => Keeps.pure _

theorem onMatch (b : Bool) (o : BitIndexEntry) (os : List BitIndexEntry) (n : BitIndexEntry)
    (ns : List BitIndexEntry) :
    Holds P (TreeDiffIter.onMatch (fun _ n => Libbit.isWorktreeEntryModified n) b o os n ns) := by
  unfold TreeDiffIter.onMatch
  split
  · exact Keeps.ite (fun _ => Keeps.ite (fun _ => Keeps.pure _) fun _ => Keeps.pure _) fun _ => Keeps.pure _
  · exact Keeps.pure _
  · exact Keeps.pure _
  · exact (isWorktreeEntryModified hi _).bind fun _ => Keeps.ite (fun _ => Keeps.pure _) fun _ =>
      Keeps.ite (fun _ => Keeps.pure _) fun _ => Keeps.pure _

theorem turn (b : Bool) (old new : List BitIndexEntry) :
    Holds P (TreeDiffIter.turn (fun _ n => Libbit.isWorktreeEntryModified n) b old new) := by
  unfold TreeDiffIter.turn
  split
  · exact Keeps.pure _
  · exact Keeps.pure _
  · exact Keeps.pure _
  · split
    · exact Keeps.pure _
    · exact Keeps.pure _
    · exact onMatch hi _ _ _ _ _

theorem treesAreDiff (fuel : ℕ) (old new : List BitIndexEntry) : Holds P (treesAreDiff fuel old new) := by
  induction fuel generalizing old new with
  | zero => exact Keeps.pure _
  | succ fuel ih =>
    refine (turn hi _ _ _).bind fun t => ?_
    split
    · exact Keeps.pure _
    · exact ih _ _
    · exact ih _ _
    · exact Keeps.pure _

theorem resetWorktree (fuel : ℕ) (c : CheckoutCtxt) (old new : List BitIndexEntry) :
    Holds P (resetWorktree fuel c old new) := by
  induction fuel generalizing c old new with
  | zero => exact Keeps.pure _
  | succ fuel ih =>
    refine (turn hi _ _ _).bind fun t => ?_
    split
    · exact Keeps.pure _
    · exact ih _ _ _
    · split
      all_goals first | exact ih _ _ _ | exact Keeps.throw trivial

theorem withWorktreeDir (strategy : CheckoutStrategy)
    {recurse : CheckoutCtxt → List BitIndexEntry → List BitIndexEntry → Plan}
    (hr : ∀ c sub wt, Holds P (recurse c sub wt)) (c : CheckoutCtxt) (wt : List BitIndexEntry)
    (d : TreeDiffEntry) (we : BitIndexEntry) : Holds P (withWorktreeDir strategy recurse c wt d we) := by
  unfold Libbit.withWorktreeDir
  have hdiff {α : Type} (fuel : ℕ) (old new : List BitIndexEntry) (x y : α) :
      Holds P (do if ← Libbit.treesAreDiff fuel old new then pure x else pure y) :=
    (treesAreDiff hi _ _ _).bind fun _ => Keeps.ite (fun _ => Keeps.pure _) fun _ => Keeps.pure _
  cases d with
  | CreatedBlob _ => exact Keeps.throw trivial
  | UnmodifiedBlob _ => exact Keeps.throw trivial
  | MaybeModifiedTree _ => exact Keeps.pure _
  | UnmodifiedTree e sub =>
    exact Keeps.ite (fun _ => (resetWorktree hi _ _ _ _).bind fun _ => Keeps.pure _) fun _ => Keeps.pure _
  | DeletedTree e sub => exact Keeps.ite (fun _ => Keeps.pure _) fun _ => hdiff _ _ _ _ _
  | TreeToBlob e sub blob => exact Keeps.ite (fun _ => Keeps.pure _) fun _ => hdiff _ _ _ _ _
  | CreatedTree e sub => exact Keeps.ite (fun _ => hr _ _ _) fun _ => Keeps.pure _
  | BlobToTree _ e sub => exact Keeps.ite (fun _ => hr _ _ _) fun _ => Keeps.pure _
  | DeletedBlob _ => exact Keeps.ite (fun _ => Keeps.pure _) fun _ => Keeps.pure _
  | ModifiedBlob _ _ => exact Keeps.ite (fun _ => Keeps.pure _) fun _ => Keeps.pure _

theorem withWorktree (strategy : CheckoutStrategy)
    {recurse : CheckoutCtxt → List BitIndexEntry → List BitIndexEntry → Plan}
    (hr : ∀ c sub wt, Holds P (recurse c sub wt)) (c : CheckoutCtxt) (wt : List BitIndexEntry)
    (d : TreeDiffEntry) (we : BitIndexEntry) : Holds P (withWorktree strategy recurse c wt d we) := by
  refine Keeps.ite (fun _ => withWorktreeDir hi strategy hr _ _ _ _) fun _ => ?_
  refine (isWorktreeEntryModified hi _).bind fun m => ?_
  split
  · exact Keeps.pure _
  · exact Keeps.throw trivial

theorem checkoutLoop (strategy : CheckoutStrategy) (fuel : ℕ) (c : CheckoutCtxt) (ds : List TreeDiffEntry)
    (wt : List BitIndexEntry) : Holds P (checkoutLoop strategy fuel c ds wt) := by
  induction fuel generalizing c ds wt with
  | zero => exact Keeps.throw trivial
  | succ fuel ih =>
    cases ds with
    | nil => exact Keeps.pure _
    | cons d ds =>
      cases wt with
      | nil => exact ih _ _ _
      | cons we wt =>
        unfold Libbit.checkoutLoop
        split
        · exact ih _ _ _
        · exact ih _ _ _
        · exact (withWorktree hi strategy (fun _ _ _ => ih _ _ _) _ _ _ _).bind fun _ => ih _ _ _

theorem generate (strategy : CheckoutStrategy) (baseline target wt : List BitIndexEntry) :
    Holds P (generate strategy baseline target wt) :=
  (checkoutLoop hi _ _ _ _ _).bind fun _ => Keeps.ite (fun _ => Keeps.pure _) fun _ => Keeps.throw trivial

end IndexOnly

theorem nextStamp (hc : StableClock P) (env : Env) : Holds P (nextStamp env) :=
  Keeps.getBind fun r hr => (Keeps.set (hc r _ hr)).seq (Keeps.pure _)

section Writing
variable (hw : StableWorktree P)
include hw

theorem io (f : Worktree → IoResult Worktree) : Holds P (io f) := by
  refine Keeps.get.bind fun r => ?_
  split
  · exact Keeps.modify fun r hr => hw r _ hr
  · exact Keeps.throw trivial

theorem mvOurConflicted (p : BitPath) : Holds P (mvOurConflicted p) := (make _).bind fun _ => io hw _

variable (hc : StableClock P)
include hc

theorem touchAndWrite (env : Env) (p : BitPath) (b : Bytes) : Holds P (touchAndWrite env p b) :=
  (io hw _).seq ((nextStamp hc env).bind fun _ => io hw _)

theorem writeToDiskAt (env : Env) (e : BitIndexEntry) (p : BitPath) : Holds P (writeToDiskAt env e p) :=
  (readToBytes e).bind fun _ => touchAndWrite hw hc env _ _

theorem writeTheirConflicted (env : Env) (ctx : MergeCtxt) (e : BitIndexEntry) :
    Holds P (writeTheirConflicted env ctx e) := (make _).bind fun _ => writeToDiskAt hw hc env _ _

end Writing

section Merging
variable (hi : StableIndex P) (hw : StableWorktree P) (hc : StableClock P) (env : Env)
include hi

theorem addConflictedBase (base : Option BitIndexEntry) : Holds P (addConflictedBase base) := by
  cases base with
  | none => exact Keeps.pure _
  | some b => exact addConflictedEntry hi _ _

include hw

theorem writeMerged (base : Option BitIndexEntry) (ours theirs : BitIndexEntry) (mtime : ℕ) (m : Except Bytes Bytes) :
    Holds P (writeMerged base ours theirs mtime m) := by
  cases m with
  | ok merged => exact (io hw _).seq (addEntryFromPath hi _)
  | error conflicted =>
    exact (io hw _).seq ((addConflictedBase hi _).seq ((addConflictedEntry hi _ _).seq (addConflictedEntry hi _ _)))

theorem applyRmrf (e : TreeEntry) : Holds P (applyRmrf e) :=
  (Keeps.get.bind fun _ => Keeps.ite (fun _ => io hw _) fun _ => Keeps.pure _).seq (modifyIndex hi _)

theorem applyRm (e : TreeEntry) : Holds P (applyRm e) := by
  have hempty (p : BitPath) : Holds P (removeIfEmpty p) :=
    (ioGet _).bind fun _ => Keeps.ite (fun _ => io hw _) fun _ => Keeps.pure _
  exact (Keeps.get.bind fun _ => Keeps.ite (fun _ => (io hw _).seq (hempty _)) fun _ => Keeps.pure _).seq
    (modifyIndex hi _)

include hc

theorem threeWayMerge (ctx : MergeCtxt) (base : Option BitIndexEntry) (ours theirs : BitIndexEntry) :
    Holds P (threeWayMerge env ctx base ours theirs) := by
  have hbase : Holds P (readBase base) := by
    cases base with
    | none => exact Keeps.pure _
    | some b => exact readToBytes b
  refine hbase.bind fun _ => Keeps.ite (fun _ => Keeps.throw trivial) fun _ => ?_
  exact (readToBytes _).bind fun _ => (readToBytes _).bind fun _ =>
    (nextStamp hc env).bind fun _ => writeMerged hi hw _ _ _ _ _

theorem writeAndAddBlob (e : BitIndexEntry) : Holds P (writeAndAddBlob env e) :=
  (writeToDiskAt hw hc env e e.path).seq (addEntry hi e)

theorem updateBlob (e : BitIndexEntry) : Holds P (updateBlob env e) :=
  (io hw _).seq (writeAndAddBlob hi hw hc env e)

theorem mergeEntry (ctx : MergeCtxt) (base : Option BitIndexEntry) (o t : MergeDiffEntry) :
    Holds P (mergeEntry env ctx base o t) := by
  have hconflict (e : BitIndexEntry) (stage : MergeStage) {k : Bit Unit} (hk : Holds P k) :
      Holds P (do Libbit.addConflictedEntry (← Libbit.unwrapBase base) .BASE; Libbit.addConflictedEntry e stage; k) :=
    (unwrapBase base).bind fun _ => (addConflictedEntry hi _ _).seq ((addConflictedEntry hi _ _).seq hk)
  unfold Libbit.mergeEntry
  split
  · exact modifyIndex hi _
  · exact hconflict _ _ (writeToDiskAt hw hc env _ _)
  · exact (unwrapBase base).bind fun _ => (addConflictedEntry hi _ _).seq (addConflictedEntry hi _ _)
  · exact modifyIndex hi _
  · exact threeWayMerge hi hw hc env _ _ _ _
  · exact threeWayMerge hi hw hc env _ _ _ _
  · exact addEntry hi _
  · exact hconflict _ _ ((mvOurConflicted hw _).seq (io hw _))
  · exact hconflict _ _ (writeTheirConflicted hw hc env _ _)
  · exact (addConflictedEntry hi _ _).seq (writeTheirConflicted hw hc env _ _)
  · exact (addConflictedEntry hi _ _).seq (mvOurConflicted hw _)
  · exact (modifyIndex hi _).seq (io hw _)
  · exact updateBlob hi hw hc env _
  · exact (io hw _).seq (io hw _)
  · exact (addConflictedEntry hi _ _).seq (mvOurConflicted hw _)
  · exact (addConflictedEntry hi _ _).seq (writeTheirConflicted hw hc env _ _)
  · exact modifyIndex hi _
  · exact (io hw _).seq ((writeToDiskAt hw hc env _ _).seq (addEntry hi _))
  · exact (Keeps.tryCatch (io hw _) fun _ => Keeps.pure _).seq (modifyIndex hi _)
  · exact (writeToDiskAt hw hc env _ _).seq (addEntry hi _)
  · exact threeWayMerge hi hw hc env _ _ _ _
  all_goals first | exact Keeps.pure _ | exact Keeps.throw trivial

theorem baseToTheirsOnly (u : List BitPath) (d : MergeDiffEntry) : Holds P (baseToTheirsOnly env u d) := by
  unfold Libbit.baseToTheirsOnly
  split
  · exact (pathExists _).bind fun _ =>
      Keeps.ite (fun _ => Keeps.pure _) fun _ => (writeAndAddBlob hi hw hc env _).seq (Keeps.pure _)
  · exact (io hw _).seq (Keeps.pure _)
  · exact Keeps.throw trivial

theorem mergeEntries (ctx : MergeCtxt) (u : List BitPath) (base ours theirs : Option BitIndexEntry) :
    Holds P (mergeEntries env ctx u base ours theirs) := by
  unfold Libbit.mergeEntries
  split
  · exact Keeps.pure _
  · exact baseToTheirsOnly hi hw hc env _ _
  · exact (baseToOursOnly hi _).seq (Keeps.pure _)
  · exact (mergeEntry hi hw hc env _ _ _ _).seq (Keeps.pure _)

theorem mergeItem (ctx : MergeCtxt) (u : List BitPath) (item : List (Option BitIndexEntry)) :
    Holds P (mergeItem env ctx u item) := by
  unfold Libbit.mergeItem
  split
  · exact mergeEntries hi hw hc env _ _ _ _ _
  · exact Keeps.throw trivial

theorem mergeTrees (ctx : MergeCtxt) (u : List BitPath) (base ours theirs : Oid) :
    Holds P (mergeTrees env ctx u base ours theirs) :=
  Keeps.foldlM (fun _ _ _ => mergeItem hi hw hc env _ _ _) _

theorem mergeCommits (ctx : MergeCtxt) (u : List BitPath) (base : Option ℕ) (ours theirs : ℕ) :
    Holds P (mergeCommits env ctx u base ours theirs) :=
  Keeps.get.bind fun _ => mergeTrees hi hw hc env _ _ _ _ _

theorem applyCreate (e : TreeEntry) : Holds P (applyCreate env e) := by
  refine (readToBytes _).bind fun _ => (io hw _).seq ((nextStamp hc env).bind fun _ => ?_)
  have hmake (b : Bytes) (stamp : ℕ × ℕ) : Holds P (makeFile e b stamp) := by
    unfold makeFile
    split
    · exact io hw _
    · exact io hw _
    · exact Keeps.throw trivial
  exact (hmake _ _).seq ((fromRelativePath _).bind fun _ => addEntry hi _)

theorem applyMigration (m : Migration) : Holds P (applyMigration env m) :=
  (Keeps.forM fun _ _ => applyRmrf hi hw _).seq ((Keeps.forM fun _ _ => applyRm hi hw _).seq
    ((Keeps.forM fun _ _ => io hw _).seq (Keeps.forM fun _ _ => applyCreate hi hw hc env _)))

theorem checkoutIterator (target : List BitIndexEntry) (strategy : CheckoutStrategy) :
    Holds P (checkoutIterator env target strategy) :=
  Keeps.get.bind fun _ => (generate hi _ _ _ _).bind fun _ => applyMigration hi hw hc env _

theorem checkoutIndex (strategy : CheckoutStrategy) : Holds P (checkoutIndex env strategy) :=
  Keeps.get.bind fun _ => checkoutIterator hi hw hc env _ _

end Merging
end Holds
end Libbit
