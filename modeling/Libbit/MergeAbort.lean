import Libbit.Frame
import Libbit.Refresh

/-! The merge that is refused. The changes that stand in its way are looked at only after the
trees were merged in place, and a safe checkout of the old index has to undo what was done. It
brings back no file: the worktree is as before only where the merge never wrote to it. -/
namespace Libbit

open Lib

section Checkout
variable {t : Tree}

/-- Of a difference in which nothing changed a safe checkout plans nothing. -/
theorem withWorktree_calm (ht : t.WellFormed) {recurse : CheckoutCtxt → List BitIndexEntry → List BitIndexEntry → Plan}
    {c c' : CheckoutCtxt} {wt rest : List BitIndexEntry} {d : TreeDiffEntry} (hd : d.Calm) {we : BitIndexEntry} {r r' : Repo}
    (hidx : r.index.Describes t) (hw : r.worktree.WellFormed) (hv : we.isTree = false → Vouched r.worktree we)
    (h : withWorktree .Safe recurse c (we::wt) d we r = .ok (c',rest) r') :
    c'.migration = c.migration ∧ (rest = wt ∨ rest = Iter.stepOver (we::wt)) ∧ Refreshed t r r' := by
  unfold withWorktree at h
  by_cases htree : we.isTree = true
  · simp only [htree,if_true] at h
    cases d with
    | MaybeModifiedTree n =>
      obtain ⟨⟨rfl,rfl⟩,rfl⟩ : (c = c' ∧ wt = rest) ∧ r = r' := by simpa [withWorktreeDir] using h
      exact ⟨rfl,.inl rfl,.refl hidx⟩
    | UnmodifiedBlob n => simp [withWorktreeDir] at h
    | UnmodifiedTree n sub =>
      obtain ⟨⟨rfl,rfl⟩,rfl⟩ : (c = c' ∧ Iter.stepOver (we::wt) = rest) ∧ r = r' := by
        simpa [withWorktreeDir,CheckoutStrategy.isForced] using h
      exact ⟨rfl,.inr rfl,.refl hidx⟩
    | _ => exact absurd hd id
  · simp only [htree] at h
    obtain ⟨modified,s,hmod,hrest⟩ := bind_ok.mp h
    have href := isWorktreeEntryModified_refreshed ht hidx hw (hv (by simpa using htree)) hmod
    cases d with
    | MaybeModifiedTree n =>
      obtain ⟨⟨rfl,rfl⟩,rfl⟩ : (c.conflict we = c' ∧ wt = rest) ∧ s = r' := by
        simpa [withWorktreeFile,CheckoutStrategy.isForced] using hrest
      exact ⟨rfl,.inl rfl,href⟩
    | UnmodifiedBlob n =>
      obtain ⟨⟨rfl,rfl⟩,rfl⟩ : (c = c' ∧ wt = rest) ∧ s = r' := by
        simpa [withWorktreeFile,CheckoutStrategy.isForced] using hrest
      exact ⟨rfl,.inl rfl,href⟩
    | UnmodifiedTree n sub => simp [withWorktreeFile] at hrest
    | _ => exact absurd hd id

theorem noWorktree_calm {c : CheckoutCtxt} {d : TreeDiffEntry} (hd : d.Calm) : noWorktree .Safe c d = c := by
  cases d with
  | MaybeModifiedTree n => rfl
  | UnmodifiedBlob n => rfl
  | UnmodifiedTree n sub => rfl
  | _ => exact absurd hd id

theorem mem_stepOver {e : BitIndexEntry} {l : List BitIndexEntry} (h : e ∈ Iter.stepOver l) : e ∈ l := by
  cases l with
  | nil => simp [Iter.stepOver] at h
  | cons x l =>
    by_cases hx : x.isTree = true
    · simp only [Iter.stepOver,hx,if_true] at h
      exact List.mem_cons_of_mem _ ((List.dropWhile_sublist _).subset h)
    · simp only [Iter.stepOver,hx] at h
      exact List.mem_cons_of_mem _ h

theorem checkoutLoop_calm (ht : t.WellFormed) {fuel : ℕ} {c c' : CheckoutCtxt} {ds : List TreeDiffEntry}
    (hds : ∀ d ∈ ds, d.Calm) {wt rest : List BitIndexEntry} {r r' : Repo} (hidx : r.index.Describes t)
    (hw : r.worktree.WellFormed) (hv : ∀ we ∈ wt, we.isTree = false → Vouched r.worktree we)
    (h : checkoutLoop .Safe fuel c ds wt r = .ok (c',rest) r') :
    c'.migration = c.migration ∧ Refreshed t r r' := by
  induction fuel generalizing c ds wt r with
  | zero => simp [checkoutLoop] at h
  | succ fuel ih =>
    cases ds with
    | nil =>
      obtain ⟨⟨rfl,-⟩,rfl⟩ : (c = c' ∧ wt = rest) ∧ r = r' := by simpa [checkoutLoop] using h
      exact ⟨rfl,.refl hidx⟩
    | cons d ds =>
      obtain ⟨hd,hds⟩ := List.forall_mem_cons.mp hds
      cases wt with
      | nil =>
        simp only [checkoutLoop,noWorktree_calm hd] at h
        exact ih hds hidx hw (by simp) h
      | cons we wt =>
        simp only [checkoutLoop] at h
        cases hcmp : we.diffCmp d.indexEntry with
        | lt =>
          have hsafe : (worktreeOnly .Safe c (we::wt) we).1 = c := by
            unfold worktreeOnly
            split <;> rfl
          have hmem (x : BitIndexEntry) (hx : x ∈ (worktreeOnly .Safe c (we::wt) we).2) : x ∈ we::wt := by
            unfold worktreeOnly at hx
            split at hx
            · exact mem_stepOver hx
            · exact List.mem_cons_of_mem _ hx
          simp only [hcmp,hsafe] at h
          exact ih (List.forall_mem_cons.mpr ⟨hd,hds⟩) hidx hw (fun x hx => hv x (hmem x hx)) h
        | gt =>
          simp only [hcmp,noWorktree_calm hd] at h
          exact ih hds hidx hw hv h
        | eq =>
          simp only [hcmp] at h
          obtain ⟨⟨c₁,wt₁⟩,s,hstep,hrest⟩ := bind_ok.mp h
          obtain ⟨hc₁,hwt₁,href⟩ := withWorktree_calm ht hd hidx hw (hv we List.mem_cons_self) hstep
          have hmem (x : BitIndexEntry) (hx : x ∈ wt₁) : x ∈ we::wt := by
            rcases hwt₁ with rfl | rfl
            · exact List.mem_cons_of_mem _ hx
            · exact mem_stepOver hx
          obtain ⟨idx,rfl,hidx'⟩ := href
          obtain ⟨hc',href'⟩ := ih (r := {r with index := idx}) hds hidx' hw (fun x hx => hv x (hmem x hx)) hrest
          exact ⟨hc'.trans hc₁,Refreshed.trans ⟨idx,rfl,hidx'⟩ href'⟩

theorem worktreeRest_safe (fuel : ℕ) (c : CheckoutCtxt) (wt : List BitIndexEntry) : worktreeRest .Safe fuel c wt = c := by
  induction fuel generalizing wt with
  | zero => rfl
  | succ fuel ih =>
    cases wt with
    | nil => rfl
    | cons we wt =>
      have hsafe : (worktreeOnly .Safe c (we::wt) we).1 = c := by
        unfold worktreeOnly
        split <;> rfl
      simp only [worktreeRest,hsafe]
      exact ih _

/-- Checking out an index in which nothing is staged changes no file. -/
theorem checkoutIndex_described (env : Env) (ht : t.WellFormed) {r r' : Repo} (hhead : r.headTree = .tree t)
    (hidx : r.index.Describes t) (hw : r.worktree.WellFormed) (h : checkoutIndex env .Safe r = .ok () r') :
    Refreshed t r r' := by
  simp only [checkoutIndex,checkoutIterator,run_getBind] at h
  obtain ⟨m,s,hgen,happly⟩ := bind_ok.mp h
  obtain ⟨⟨c,rest⟩,s',hloop,hend⟩ := bind_ok.mp hgen
  rw [hhead] at hloop
  obtain ⟨hc,href⟩ := checkoutLoop_calm ht (TreeDiffIter.drain_calm (hidx.mirror ht.canonical ht.distinct)) hidx hw
    (fun we hwe hb => vouched_of_iter hw hwe hb) hloop
  simp only [worktreeRest_safe] at hend
  by_cases hconf : c.conflicts = []
  · obtain ⟨rfl,rfl⟩ : c.migration = m ∧ s' = s := by simpa [hconf] using hend
    have hnone : applyMigration env c.migration = applyMigration env .empty := by rw [hc]
    rw [hnone] at happly
    obtain rfl : s' = r' := by
      have hrun : applyMigration env .empty s' = .ok () s' := rfl
      simpa using hrun.symm.trans happly
    exact href
  · simp [hconf] at hend

end Checkout

namespace Worktree
variable (w : Worktree)

/-- A call that fails. -/
def refuses {α : Type} : IoResult α → Bool
  | .ok _ => false
  | .error _ => true

/-- Nothing can be made at the path, and no directory above it either. -/
def refusesTouch (p : BitPath) : Bool :=
  match w.createDirAll p.parent with
  | .error _ => true
  | .ok w' => w' = w && refuses (w.createNew p ⟨.REG,[],0,0⟩)

/-- There is nothing to move away. -/
def refusesMove (p : BitPath) : Bool :=
  match w.resolve false p with
  | .error _ => true
  | .ok q => w.look q = none

/-- What a cell of the table first does to the worktree, if anything, fails. -/
def spares : MergeDiffEntry → MergeDiffEntry → Bool
  | .DeletedBlob _, .ModifiedBlob theirs => w.refusesTouch theirs.path
  | .CreatedBlob ours, .CreatedBlob theirs => ours.mode ≠ theirs.mode || refuses (w.openAndWrite ours.path [] 0)
  | .ModifiedBlob ours, .ModifiedBlob theirs => ours.mode ≠ theirs.mode || refuses (w.openAndWrite ours.path [] 0)
  | .ModifiedBlob ours, .BlobToTree _ => w.refusesMove ours.path
  | .BlobToTree _, .ModifiedBlob _ => false
  | .ModifiedTree _, .TreeToBlob _ => false
  | .TreeToBlob ours, .ModifiedTree _ => w.refusesMove ours.path
  | .UnmodifiedTree tree, .DeletedTree _ => refuses (w.removeDirAll tree.path)
  | .UnmodifiedBlob _, .ModifiedBlob theirs => refuses (w.removeFile theirs.path)
  | .UnmodifiedBlob _, .BlobToTree tree => refuses (w.removeFile tree.path)
  | .CreatedBlob ours, .CreatedTree _ => w.refusesMove ours.path
  | .CreatedTree _, .CreatedBlob _ => false
  | .UnmodifiedTree ours, .TreeToBlob _ => refuses (w.removeDirAll ours.path)
  | .UnmodifiedBlob _, .DeletedBlob theirs => refuses (w.removeFile theirs.path)
  | .DeletedTree _, .TreeToBlob theirs => w.refusesTouch theirs.path
  | .TreeToBlob ours, .TreeToBlob theirs => ours.mode ≠ theirs.mode || refuses (w.openAndWrite ours.path [] 0)
  | _, _ => true

/-- New in theirs: a file is in the way, or cannot be made. -/
def sparesTheirs : MergeDiffEntry → Bool
  | .CreatedBlob entry => w.tryExists entry.path ≠ .ok false || w.refusesTouch entry.path
  | .CreatedTree tree => refuses (w.createDir tree.path)
  | _ => true

/-- The item of the walk does nothing to the worktree. -/
def sparesItem : List (Option BitIndexEntry) → Bool
  | [base,ours,theirs] =>
    match diffBaseToOther base ours, diffBaseToOther base theirs with
    | none, some baseToTheirs => w.sparesTheirs baseToTheirs
    | some baseToOurs, some baseToTheirs => w.spares baseToOurs baseToTheirs
    | _, _ => true
  | _ => true

end Worktree

section Walk
variable {w : Worktree}

/-- The worktree is this one. -/
def At (w : Worktree) (r : Repo) : Prop := r.worktree = w

theorem stableIndex_at : StableIndex (At w) := fun _ _ h => h

theorem stableClock_at : StableClock (At w) := fun _ _ h => h

theorem io_refused {f : Worktree → IoResult Worktree} (h : Worktree.refuses (f w) = true) {Q : Unit → Repo → Prop} :
    Returns (At w) (io f) Q := by
  rintro r rfl a r' hr
  simp only [io,run_getBind] at hr
  cases hf : f r.worktree with
  | ok w' => simp [hf,Worktree.refuses] at h
  | error e => simp [hf] at hr

theorem rm_refused_holds {p : BitPath} (h : Worktree.refuses (w.removeFile p) = true) : Holds (At w) (rm p) := by
  rintro r rfl
  have hrun : ∃ e, rm p r = .error (.Io e) r := by
    simp only [rm,io,run_getBind]
    cases hf : r.worktree.removeFile p with
    | ok w' => simp [hf,Worktree.refuses] at h
    | error e => exact ⟨e,by simp⟩
  obtain ⟨e,hrun⟩ := hrun
  rw [hrun]
  exact ⟨rfl,trivial⟩

theorem rm_refused {p : BitPath} (h : Worktree.refuses (w.removeFile p) = true) {Q : Unit → Repo → Prop} :
    Returns (At w) (rm p) Q := io_refused h

theorem rmdirAll_refused {p : BitPath} (h : Worktree.refuses (w.removeDirAll p) = true) {Q : Unit → Repo → Prop} :
    Returns (At w) (rmdirAll p) Q := io_refused h

theorem refuses_createNew (w : Worktree) (p : BitPath) (f g : FileNode) :
    Worktree.refuses (w.createNew p f) = Worktree.refuses (w.createNew p g) := by
  unfold Worktree.createNew
  cases w.resolve false p with
  | error e => rfl
  | ok q => cases hq : w.look q <;> simp [bind,Except.bind,hq,Worktree.refuses]

theorem refuses_openAndWrite (w : Worktree) (p : BitPath) (b b' : Bytes) (n n' : ℕ) :
    Worktree.refuses (w.openAndWrite p b n) = Worktree.refuses (w.openAndWrite p b' n') := by
  unfold Worktree.openAndWrite
  cases w.resolve true p with
  | error e => rfl
  | ok q =>
    cases hq : w.look q with
    | none => simp [bind,Except.bind,hq,Worktree.refuses]
    | some m => cases m <;> simp [bind,Except.bind,hq,Worktree.refuses]

theorem refuses_rename {p : BitPath} (h : w.refusesMove p = true) (q : BitPath) :
    Worktree.refuses (w.rename p q) = true := by
  unfold Worktree.refusesMove at h
  unfold Worktree.rename
  cases hp : w.resolve false p with
  | error e => rfl
  | ok p' =>
    have hlook : w.look p' = none := by simpa [hp] using h
    cases w.resolve false q <;> simp [bind,Except.bind,hlook,Worktree.refuses]

theorem touchAndWrite_refused (env : Env) {p : BitPath} (h : w.refusesTouch p = true) (b : Bytes)
    {Q : Unit → Repo → Prop} : Returns (At w) (touchAndWrite env p b) Q := by
  unfold Worktree.refusesTouch at h
  cases hdir : w.createDirAll p.parent with
  | error e =>
    have hio : Returns (At w) (io (·.createDirAll p.parent)) fun _ _ => False :=
      io_refused (by simp [hdir,Worktree.refuses])
    exact hio.never
  | ok w' =>
    obtain ⟨rfl,hnew⟩ : w' = w ∧ Worktree.refuses (w.createNew p ⟨.REG,[],0,0⟩) = true := by simpa [hdir] using h
    have hmkdir : Returns (At w') (io (·.createDirAll p.parent)) fun _ => At w' := by
      rintro r rfl a r' hr
      have hrun : io (·.createDirAll p.parent) r = .ok () r := by
        simp only [io,run_getBind,hdir]
        rfl
      obtain rfl : r = r' := by simpa using hrun.symm.trans hr
      rfl
    refine hmkdir.bind fun _ => (Returns.of_keeps (Holds.nextStamp stableClock_at env)).bind fun stamp => ?_
    exact io_refused (by rw [refuses_createNew _ _ _ ⟨.REG,[],0,0⟩,hnew])

theorem writeToDiskAt_refused (env : Env) {p : BitPath} (h : w.refusesTouch p = true) (e : BitIndexEntry)
    {Q : Unit → Repo → Prop} : Returns (At w) (writeToDiskAt env e p) Q :=
  (Returns.of_keeps (Holds.readToBytes e)).bind fun b => touchAndWrite_refused env h b

theorem mvOurConflicted_refused {p : BitPath} (h : w.refusesMove p = true) {Q : Unit → Repo → Prop} :
    Returns (At w) (mvOurConflicted p) Q :=
  (Returns.of_keeps (Holds.make _)).bind fun q => io_refused (refuses_rename h q)

theorem threeWayMerge_refused (env : Env) (ctx : MergeCtxt) (base : Option BitIndexEntry) {ours theirs : BitIndexEntry}
    (h : (ours.mode ≠ theirs.mode || Worktree.refuses (w.openAndWrite ours.path [] 0)) = true) {Q : Unit → Repo → Prop} :
    Returns (At w) (threeWayMerge env ctx base ours theirs) Q := by
  have hbase : Holds (At w) (readBase base) := by
    cases base with
    | none => exact Keeps.pure _
    | some b => exact Holds.readToBytes b
  refine (Returns.of_keeps hbase).bind fun _ => Returns.ite (fun _ => Returns.throw _) fun hmode => ?_
  have hopen : Worktree.refuses (w.openAndWrite ours.path [] 0) = true := by simpa [hmode] using h
  refine (Returns.of_keeps (Holds.readToBytes _)).bind fun _ => (Returns.of_keeps (Holds.readToBytes _)).bind fun _ =>
    (Returns.of_keeps (Holds.nextStamp stableClock_at env)).bind fun stamp => ?_
  have hio (b : Bytes) : Returns (At w) (io (·.openAndWrite ours.path b stamp.1)) fun _ _ => False :=
    io_refused (by rw [refuses_openAndWrite _ _ _ [] _ 0,hopen])
  unfold writeMerged
  split
  · exact (hio _).never
  · exact (hio _).never

/-- The cell comes back, if at all, with the worktree it was given. -/
theorem mergeEntry_spares (env : Env) (ctx : MergeCtxt) (base : Option BitIndexEntry) {o t : MergeDiffEntry}
    (h : w.spares o t = true) : Returns (At w) (mergeEntry env ctx base o t) fun _ => At w := by
  have hcall {m : Bit Unit} (hm : Holds (At w) m) : Returns (At w) m fun _ => At w := Returns.of_keeps hm
  have hindex (f : BitIndexInner → BitIndexInner) := hcall (Holds.modifyIndex stableIndex_at f)
  have hadd (e : BitIndexEntry) := hcall (Holds.addEntry stableIndex_at e)
  have hconf (e : BitIndexEntry) (s : MergeStage) := hcall (Holds.addConflictedEntry stableIndex_at e s)
  have hbase {k : BitIndexEntry → Bit Unit} (hk : ∀ b, Returns (At w) (k b) fun _ => At w) :
      Returns (At w) (unwrapBase base >>= k) fun _ => At w := (Returns.of_keeps (Holds.unwrapBase base)).bind hk
  unfold mergeEntry
  split
  · exact hindex _
  · exact hbase fun _ => (hconf _ _).bind fun _ => (hconf _ _).bind fun _ => writeToDiskAt_refused env h _
  · exact hbase fun _ => (hconf _ _).bind fun _ => hconf _ _
  · exact hindex _
  · exact threeWayMerge_refused env ctx base h
  · exact threeWayMerge_refused env ctx base h
  · exact hadd _
  · exact hbase fun _ => (hconf _ _).bind fun _ => (hconf _ _).bind fun _ => (mvOurConflicted_refused h).never
  · exact absurd h (by simp [Worktree.spares])
  · exact absurd h (by simp [Worktree.spares])
  · exact (hconf _ _).bind fun _ => mvOurConflicted_refused h
  · exact (hindex _).bind fun _ => rmdirAll_refused h
  · exact (rm_refused h).never
  · exact (rm_refused h).never
  · exact (hconf _ _).bind fun _ => mvOurConflicted_refused h
  · exact absurd h (by simp [Worktree.spares])
  · exact hindex _
  · exact (rmdirAll_refused h).never
  · -- the removal fails and the failure is passed over
    exact (hcall (Keeps.tryCatch (rm_refused_holds h) fun _ => Keeps.pure _)).bind fun _ => hindex _
  · exact (writeToDiskAt_refused env h _).never
  · exact threeWayMerge_refused env ctx none h
  all_goals first | exact Returns.pure fun _ hr => hr | exact Returns.throw _

theorem mergeItem_spares (env : Env) (ctx : MergeCtxt) (u : List BitPath) {item : List (Option BitIndexEntry)}
    (h : w.sparesItem item = true) : Returns (At w) (mergeItem env ctx u item) fun _ => At w := by
  unfold mergeItem
  split
  · rename_i base ours theirs
    simp only [Worktree.sparesItem] at h
    unfold mergeEntries
    split
    · exact Returns.pure fun _ hr => hr
    · rename_i d ho ht
      simp only [ho,ht] at h
      unfold baseToTheirsOnly
      split
      · rename_i e
        have hexists : Returns (At w) (pathExists e.path) fun b r => At w r ∧ w.tryExists e.path = .ok b := by
          rintro r rfl b r' hr
          obtain ⟨hb,rfl⟩ := ioGet_ok.mp hr
          exact ⟨rfl,hb⟩
        refine hexists.bind fun b => Returns.ite (fun _ => Returns.pure fun _ hr => hr.1) fun hb => ?_
        rintro r ⟨hr,hmiss⟩
        have hrefuse : w.refusesTouch e.path = true := by
          obtain rfl : b = false := by simpa using hb
          simpa [Worktree.sparesTheirs,hmiss] using h
        exact (writeToDiskAt_refused env hrefuse e).never.never r hr
      · exact (io_refused (f := (·.createDir _)) h).never
      · exact Returns.throw _
    · exact (Returns.of_keeps (Holds.baseToOursOnly stableIndex_at _)).bind fun _ => Returns.pure fun _ hr => hr
    · rename_i o t ho ht
      simp only [ho,ht] at h
      exact (mergeEntry_spares env ctx base h).bind fun _ => Returns.pure fun _ hr => hr
  · exact Returns.throw _

theorem mergeTrees_spares (env : Env) (ctx : MergeCtxt) (u : List BitPath) {base ours theirs : Oid}
    (h : ∀ item ∈ walk3 (treeIter base) (treeIter ours) (treeIter theirs), w.sparesItem item = true) :
    Returns (At w) (mergeTrees env ctx u base ours theirs) fun _ => At w :=
  Returns.foldlM (fun item hitem u => mergeItem_spares env ctx u (h item hitem)) u

end Walk

section Abort

/-- The items of the walk that merges two commits. -/
def Repo.mergeWalk (r : Repo) (base : Option ℕ) (ours theirs : ℕ) : List (List (Option BitIndexEntry)) :=
  walk3 (treeIter (base.elim .UNKNOWN fun c => .tree (r.treeOf c))) (treeIter (.tree (r.treeOf ours)))
    (treeIter (.tree (r.treeOf theirs)))

/-- Nothing in the index differs from HEAD. -/
def Repo.NothingStaged (r : Repo) : Prop := ∃ t, r.headTree = .tree t ∧ t.WellFormed ∧ r.index.Describes t

/-- The parts of the repository that a merge in place does not write. -/
def SameHistory (r r' : Repo) : Prop := r'.commits = r.commits ∧ r'.head = r.head ∧ r'.refs = r.refs

theorem SameHistory.headTree {r r' : Repo} (h : SameHistory r r') : r'.headTree = r.headTree := by
  simp only [Repo.headTree,Repo.resolveRef,Repo.treeOf,h.1,h.2.1,h.2.2]

theorem stableIndex_history {r : Repo} : StableIndex (SameHistory r) := fun _ _ h => h

theorem stableWorktree_history {r : Repo} : StableWorktree (SameHistory r) := fun _ _ h => h

theorem stableClock_history {r : Repo} : StableClock (SameHistory r) := fun _ _ h => h

/-- The user finds everything as it was: the files, the entries of the index, HEAD and the refs. -/
structure Restored (r r' : Repo) : Prop where
  worktree : r'.worktree = r.worktree
  index : ∀ k, r'.index.view k = r.index.view k
  head : r'.head = r.head
  refs : r'.refs = r.refs

/-- The operation does not refuse a merge, whatever else may go wrong. -/
def NoRefusal {α : Type} (m : Bit α) : Prop := Holds (fun _ => True) m

theorem NoRefusal.ne {α : Type} {m : Bit α} (h : NoRefusal m) {r r' : Repo} {u : List BitPath} :
    m r ≠ .error (.MergeConflict u) r' := fun hrun => (h.error trivial hrun).2

theorem stable_true : StableIndex (fun _ => True) ∧ StableWorktree (fun _ => True) ∧ StableClock (fun _ => True) :=
  ⟨fun _ _ _ => trivial,fun _ _ _ => trivial,fun _ _ _ => trivial⟩

theorem fastForward_noRefusal (env : Env) (ctx : MergeCtxt) : NoRefusal (fastForward env ctx) := by
  obtain ⟨hi,hw,hc⟩ := stable_true
  have hcheckout (t : Tree) : NoRefusal (checkoutTreeWithOpts env t .Safe) :=
    (Holds.checkoutIterator hi hw hc env _ _).seq (Keeps.ite (fun _ => Holds.updateCacheTree hi _) fun _ => Keeps.pure _)
  exact Keeps.get.bind fun r => (hcheckout _).seq ((Keeps.modify fun _ _ => trivial).seq (Keeps.pure _))

theorem finishMerge_noRefusal (env : Env) (ctx : MergeCtxt) : NoRefusal (finishMerge env ctx) := by
  obtain ⟨hi,-,-⟩ := stable_true
  have hcommit (t : Tree) (ps : List ℕ) : NoRefusal (writeCommit env t ps) := by
    refine Keeps.get.bind fun r => ?_
    split
    · exact Keeps.throw trivial
    · exact Keeps.ite (fun _ => (Keeps.set trivial).seq (Keeps.pure _)) fun _ => Keeps.throw trivial
  refine Keeps.get.bind fun r => Keeps.ite (fun _ => ?_) fun _ => Keeps.ite (fun _ => Keeps.pure _) fun _ => ?_
  · split
    · exact Keeps.pure _
    · exact Keeps.throw trivial
  · exact ((Holds.writeTree hi).bind fun _ => (hcommit _ _).bind fun _ => Keeps.modify fun _ _ => trivial).seq (Keeps.pure _)

/-- A merge is refused by walking the trees and then checking out the index it started with. -/
theorem mergeWithBase_refuses_iff {env : Env} {ctx : MergeCtxt} {u v : List BitPath} {base : Option ℕ} {r r' : Repo} :
    mergeWithBase env ctx u base r = .error (.MergeConflict v) r' ↔
      base ≠ some ctx.theirHead ∧ ¬(!ctx.opts.noFf ∧ base = some ctx.ourHead) ∧ ∃ u' r₁ r₂,
        preMergeChecks env u r = .ok u' r₁ ∧ mergeCommits env ctx u' base ctx.ourHead ctx.theirHead r₁ = .ok v r₂ ∧ v ≠ [] ∧
        checkoutIndex env .Safe {r₂ with index := ctx.initialIndexSnapshot} = .ok () r' := by
  obtain ⟨hi,hw,hc⟩ := stable_true
  constructor
  · intro h
    rcases bind_error.mp h with h | ⟨u',r₁,hchecks,hrest⟩
    · exact absurd h (NoRefusal.ne (Holds.preMergeChecks hi env u))
    by_cases hnull : base = some ctx.theirHead
    · simp [hnull] at hrest
    by_cases hff : !ctx.opts.noFf ∧ base = some ctx.ourHead
    · rw [if_neg hnull,if_pos hff] at hrest
      exact absurd hrest (fastForward_noRefusal env ctx).ne
    rw [if_neg hnull,if_neg hff] at hrest
    rcases bind_error.mp hrest with h | ⟨v',r₂,hmerge,hend⟩
    · exact absurd h (NoRefusal.ne (Holds.mergeCommits hi hw hc env ctx _ _ _ _))
    by_cases hne : v' ≠ []
    · rw [if_pos hne] at hend
      rcases bind_error.mp hend with h | ⟨_,r₃,hset,habort⟩
      · simp [modifyIndex] at h
      obtain rfl : {r₂ with index := ctx.initialIndexSnapshot} = r₃ := by simpa [modifyIndex] using hset
      rcases bind_error.mp habort with h | ⟨_,r₄,hcheckout,hthrow⟩
      · exact absurd h (NoRefusal.ne (Holds.checkoutIndex hi hw hc env .Safe))
      obtain ⟨rfl,rfl⟩ : v' = v ∧ r₄ = r' := by simpa using hthrow
      exact ⟨hnull,hff,u',r₁,r₂,hchecks,hmerge,hne,hcheckout⟩
    · rw [if_neg hne] at hend
      exact absurd hend (finishMerge_noRefusal env ctx).ne
  · rintro ⟨hnull,hff,u',r₁,r₂,hchecks,hmerge,hne,hcheckout⟩
    have habort : abortMerge env ctx v r₂ = .error (.MergeConflict v) r' :=
      (bind_of_ok rfl).trans ((bind_of_ok hcheckout).trans rfl)
    refine (bind_of_ok hchecks).trans ?_
    rw [if_neg hnull,if_neg hff]
    refine (bind_of_ok hmerge).trans ?_
    rw [if_pos hne]
    exact habort

theorem mergeWithBase_restores {env : Env} {ctx : MergeCtxt} {u v : List BitPath} {base : Option ℕ} {r r' : Repo}
    (hw : r.worktree.WellFormed) (hstaged : r.NothingStaged) (hsnap : ctx.initialIndexSnapshot = r.index)
    (hspares : ∀ item ∈ r.mergeWalk base ctx.ourHead ctx.theirHead, r.worktree.sparesItem item = true)
    (h : mergeWithBase env ctx u base r = .error (.MergeConflict v) r') : Restored r r' := by
  obtain ⟨t,hhead,ht,hidx⟩ := hstaged
  obtain ⟨-,-,u',r₁,r₂,hchecks,hmerge,-,hcheckout⟩ := mergeWithBase_refuses_iff.mp h
  have hsame : SameHistory r r := ⟨rfl,rfl,rfl⟩
  have hsame₁ := (Holds.preMergeChecks stableIndex_history env u).ok hsame hchecks
  have hsame₂ := (Holds.mergeCommits stableIndex_history stableWorktree_history stableClock_history env ctx u' base
    ctx.ourHead ctx.theirHead).ok hsame₁ hmerge
  have hwt₁ : At r.worktree r₁ := (Holds.preMergeChecks stableIndex_at env u).ok rfl hchecks
  have hwt₂ : At r.worktree r₂ := by
    refine mergeTrees_spares env ctx u' ?_ r₁ hwt₁ v r₂ hmerge
    have htree (c : ℕ) : r₁.treeOf c = r.treeOf c := by simp only [Repo.treeOf,hsame₁.1]
    simp only [htree]
    exact hspares
  -- the checkout starts from the old index, the old files and the old HEAD
  have hhead₂ : ({r₂ with index := ctx.initialIndexSnapshot} : Repo).headTree = .tree t :=
    (@SameHistory.headTree r {r₂ with index := ctx.initialIndexSnapshot} hsame₂).trans hhead
  obtain ⟨idx,rfl,hidx'⟩ := checkoutIndex_described env ht hhead₂ (hsnap ▸ hidx) (hwt₂ ▸ hw) hcheckout
  have hview := ((BitIndexInner.describes_iff ht).mp hidx).2
  have hview' := ((BitIndexInner.describes_iff ht).mp hidx').2
  exact ⟨hwt₂,fun k => (hview' k).trans (hview k).symm,hsame₂.2.1,hsame₂.2.2⟩

theorem mergeContext_ok {ref : BitRef} {desc : Bytes} {opts : MergeOpts} {r r' : Repo} {ctx : MergeCtxt} :
    MergeCtxt.new ref desc opts r = .ok ctx r' ↔ r' = r ∧ ∃ ours theirs, r.resolveRef r.head = some ours ∧
      r.resolveRef ref = some theirs ∧ ctx = ⟨desc,theirs,ours,opts,r.index⟩ := by
  simp only [MergeCtxt.new,run_getBind]
  cases ho : r.resolveRef r.head with
  | none => simp
  | some ours =>
    cases ht : r.resolveRef ref with
    | none => simp
    | some theirs => simp [eq_comm,and_comm]

/-- With at most one merge base no virtual base is made. -/
theorem mergeBaseRecursive_single {env : Env} {ctx : MergeCtxt} {fuel : ℕ} {u : List BitPath} {ours theirs : ℕ}
    {bases : List ℕ} {r : Repo} (h : MergeBase.findMergeBases r.graph ours theirs = some bases) (hle : bases.length ≤ 1) :
    mergeBaseRecursive env ctx (fuel+1) u ours theirs r = .ok (u,bases.head?) r := by
  simp only [mergeBaseRecursive,run_getBind,h]
  match bases, hle with
  | [], _ => rfl
  | [c], _ => rfl

/-- A branch with a new file `a`, and a branch with a new file `n`. -/
def twoBranches : List Commit :=
  [⟨.leaf [102] (.REG,[1]) .nil,[],(1,0)⟩,
    ⟨.leaf [97] (.REG,[1]) (.leaf [102] (.REG,[1]) .nil),[0],(2,0)⟩,
    ⟨.leaf [102] (.REG,[1]) (.leaf [110] (.REG,[1]) .nil),[0],(2,0)⟩]

/-- On the first branch with nothing staged, and some files. -/
def onFirstBranch (files : Worktree) : Repo where
  commits := twoBranches
  head := .Symbolic [109]
  refs := [([109],1),([116],2)]
  index := ⟨[⟨[[97]],.blob .REG,.blob [1],.NONE,⟨1,1,1⟩⟩,⟨[[102]],.blob .REG,.blob [1],.NONE,⟨2,2,1⟩⟩],none⟩
  indexMtime := some 50
  worktree := files
  clock := 0

end Abort
end Libbit
