import Libbit.History
import Libbit.IndexIterator
import Libbit.ReadTree
import Libbit.DiffWorktree
import Libbit.ChangeDetection
import Libbit.Clean

/-! A commit as a snapshot (`commit.rs`, `status.rs`): what is committed, when a commit is refused, and that nothing is left
to report once everything was added and committed. -/
namespace Libbit

open Lib

/-! ### The run of a commit -/

section Commit
variable {env : Env} {opts : CommitOpts} {edited : Option Bytes} {r rt r' : Repo} {t : Tree} {s : CommitSummary}

theorem lift_ok {α : Type} {m : Bit α} {a : α} : lift m r = .ok a r' ↔ m r = .ok a r' := by
  unfold lift EStateM.adaptExcept
  cases m r <;> simp

theorem deref_head (r : Repo) : r.deref r.head = r.head := by
  unfold Repo.deref
  split <;> rfl

theorem tryFullyResolveRef_ok {reference : BitRef} {x : Option ℕ} : tryFullyResolveRef reference r = .ok x r' ↔
    r' = r ∧ x = r.resolveRef (r.deref reference) ∧ ∀ oid ∈ x, r.isCommit oid := by
  constructor
  · intro h
    have hend := tryFullyResolveRef_ends reference r
    rw [h] at hend
    exact hend
  · rintro ⟨rfl,rfl,hx⟩
    unfold tryFullyResolveRef
    simp only [run_getBind]
    cases hres : r'.resolveRef (r'.deref reference) with
    | none => rfl
    | some oid =>
      have hoid := hx oid hres
      simp only [ensureObjIsCommit,Bind.bind,EStateM.bind,run_get,hoid,if_true,run_pure]

theorem forM_ensure {ps : List ℕ} (h : ∀ p ∈ ps, r.isCommit p) : ps.forM ensureObjIsCommit r = .ok () r := by
  induction ps with
  | nil => rfl
  | cons p ps ih =>
    obtain ⟨hp,hps⟩ := List.forall_mem_cons.mp h
    have hone : ensureObjIsCommit p r = .ok () r := by simp only [ensureObjIsCommit,run_getBind,hp,if_true,run_pure]
    exact (bind_of_ok hone).trans (ih hps)

theorem writeCommit_ok {parents : List ℕ} {oid : ℕ} : writeCommit env t parents r = .ok oid r' ↔
    ∃ now, env.now = some now ∧ (∀ p ∈ parents, r.graph.time p ≤ now) ∧ oid = r.commits.length ∧
      r' = r.withCommit ⟨t,parents,now⟩ := by
  unfold writeCommit
  simp only [run_getBind]
  cases env.now with
  | none => simp
  | some now =>
    dsimp only
    by_cases hclock : parents.all fun p => r.graph.time p ≤ now
    · have hset : (do set {r with commits := r.commits++[Commit.mk t parents now]}; pure r.commits.length : Bit ℕ) r =
          .ok r.commits.length (r.withCommit ⟨t,parents,now⟩) := rfl
      have hall : ∀ p ∈ parents, r.graph.time p ≤ now := by simpa using hclock
      rw [if_pos hclock,hset,EStateM.Result.ok.injEq]
      constructor
      · rintro ⟨rfl,rfl⟩
        exact ⟨now,rfl,hall,rfl,rfl⟩
      · rintro ⟨now',⟨⟩,-,rfl,rfl⟩
        exact ⟨rfl,rfl⟩
    · rw [if_neg hclock]
      simp only [run_throw,reduceCtorEq,false_iff,not_exists]
      rintro now' ⟨⟨⟩,hall,-⟩
      exact hclock (by simpa using hall)

/-- What is asked of a commit of the tree: a change, a message, an identity and a clock that did not go back. -/
structure CommitAllowed (env : Env) (opts : CommitOpts) (edited : Option Bytes) (r : Repo) (t : Tree) (now : BitTime) : Prop where
  change : opts.allowEmpty ∨ commitIsEmpty t r.headTree = false
  message : (opts.message.or edited).isSome
  identity : env.now = some now
  clock : ∀ parent, r.resolveRef r.head = some parent → r.graph.time parent ≤ now

/-- The state after a commit of the tree that the index was written as. -/
def Repo.committed (r : Repo) (t : Tree) (now : BitTime) : Repo :=
  (r.withCommit ⟨t,(r.resolveRef r.head).toList,now⟩).moved r.commits.length

/-- A commit is made exactly if it is allowed, and it adds one commit on top of HEAD and moves the current branch there. -/
theorem commit_ok_iff (hr : r.Sound) (htree : writeTree r = .ok t rt) : commit env opts edited r = .ok s r' ↔
    ∃ now, CommitAllowed env opts edited rt t now ∧ r' = rt.committed t now ∧
      s = ⟨r.head.current,rt.commits.length,diffIterators (treeIter rt.headTree) (treeIter (.tree t))⟩ := by
  have hext : Extends r rt :=
    (Holds.writeTree ((historyInvariant_appendOnly r).toCommitInvariant.andExtends r).index).ok
      (s := r) ⟨⟨hr,List.prefix_refl _⟩,Extends.refl r⟩ htree |>.2
  have hparent : ∀ oid ∈ r.resolveRef r.head, r.isCommit oid := fun oid ho => Repo.isCommit_iff.mpr (hr.resolveHead ho)
  have hresolve : tryFullyResolveRef r.head r = .ok (r.resolveRef r.head) r :=
    tryFullyResolveRef_ok.mpr ⟨rfl,by rw [deref_head],hparent⟩
  have hparents : ∀ p ∈ (r.resolveRef r.head).toList, rt.isCommit p := by
    intro p hp
    have hlt := Repo.isCommit_iff.mp (hparent p (Option.mem_toList.mp hp))
    exact Repo.isCommit_iff.mpr (hlt.trans_le hext.length)
  have hhead : rt.resolveRef rt.head = r.resolveRef r.head := hext.headOid
  have hrun : commit env opts edited r = (if !opts.allowEmpty ∧ commitIsEmpty t rt.headTree then
      (do throw (.NothingToCommit (← status env)) : Command CommitSummary) else do
        let oid ← commitTree env t (r.resolveRef r.head).toList opts.message edited
        lift (updateCurrentRef oid)
        pure ⟨r.head.current,oid,diffIterators (treeIter rt.headTree) (treeIter (.tree t))⟩) rt := by
    unfold commit
    simp only [run_getBind]
    rw [bind_of_ok hresolve,bind_of_ok (lift_ok.mpr htree)]
    rfl
  rw [hrun]
  by_cases hempty : !opts.allowEmpty ∧ commitIsEmpty t rt.headTree
  · rw [if_pos hempty]
    constructor
    · intro h
      obtain ⟨st,u,-,hthrow⟩ := bind_ok.mp h
      simp at hthrow
    · rintro ⟨now,hallow,-⟩
      rcases hallow.change with h | h <;> simp_all
  have hchange : opts.allowEmpty ∨ commitIsEmpty t rt.headTree = false := by
    cases ha : opts.allowEmpty <;> cases hc : commitIsEmpty t rt.headTree <;> simp_all
  rw [if_neg hempty]
  cases hmsg : opts.message.or edited with
  | none =>
    have hnone : commitTree env t (r.resolveRef r.head).toList opts.message edited rt = .error .NoMessage rt := by
      simp [commitTree,hmsg]
    rw [bind_of_error hnone]
    simp only [reduceCtorEq,false_iff,not_exists]
    rintro now ⟨hallow,-⟩
    simpa [hmsg] using hallow.message
  | some msg =>
    have hcommitTree : commitTree env t (r.resolveRef r.head).toList opts.message edited rt =
        lift (writeCommit env t (r.resolveRef r.head).toList) rt := by
      simp only [commitTree,hmsg]
      rw [bind_of_ok (forM_ensure hparents)]
    rw [bind_ok]
    simp only [hcommitTree,lift_ok,writeCommit_ok,bind_ok,updateCurrentRef_run,run_pure,EStateM.Result.ok.injEq,true_and]
    constructor
    · rintro ⟨oid,u,⟨now,hnow,hclock,rfl,rfl⟩,_,_,rfl,rfl,rfl⟩
      refine ⟨now,⟨hchange,by simp [hmsg],hnow,fun parent hp => ?_⟩,by rw [Repo.committed,hhead],rfl⟩
      rw [hhead] at hp
      exact hclock parent (Option.mem_toList.mpr hp)
    · rintro ⟨now,hallow,rfl,rfl⟩
      refine ⟨_,_,⟨now,hallow.identity,fun p hp => ?_,rfl,rfl⟩,⟨⟩,_,rfl,rfl,by rw [Repo.committed,hhead]⟩
      exact hallow.clock p (hhead.trans (Option.mem_toList.mp hp))

/-! ### What is committed -/

theorem Repo.resolveHead_moved (r : Repo) (target : ℕ) : (r.moved target).resolveRef (r.moved target).head = some target := by
  unfold Repo.moved
  cases r.head <;> simp [Repo.resolveRef]

theorem Repo.resolveHead_committed (r : Repo) (t : Tree) (now : BitTime) :
    (r.committed t now).resolveRef (r.committed t now).head = some r.commits.length := Repo.resolveHead_moved _ _

theorem Repo.treeOf_committed (r : Repo) (t : Tree) (now : BitTime) : (r.committed t now).treeOf r.commits.length = t := by
  rw [Repo.treeOf,Repo.committed,Repo.commits_moved]
  simp [Repo.withCommit]

theorem Repo.headTree_committed (r : Repo) (t : Tree) (now : BitTime) : (r.committed t now).headTree = .tree t := by
  rw [Repo.headTree,Repo.resolveHead_committed,Option.elim_some,Repo.treeOf_committed]

theorem Repo.moved_eq (r : Repo) (target : ℕ) : (r.moved target).index = r.index ∧ (r.moved target).worktree = r.worktree ∧
    (r.moved target).indexMtime = r.indexMtime := by
  unfold Repo.moved
  cases r.head <;> exact ⟨rfl,rfl,rfl⟩

/-- The index holds files only, and none of them stands above another one. -/
structure BitIndexInner.Committable (idx : BitIndexInner) : Prop where
  valid : idx.Valid
  file : ∀ e ∈ idx.entries, ∃ a, FileOf (e.path,a) e
  free : idx.CollisionFree
  cache : idx.CacheCoherent

theorem BitIndexInner.Committable.exists_tree {idx : BitIndexInner} (h : idx.Committable) :
    ∃ t : Tree, t.Canonical ∧ t.Distinct ∧ idx.Describes t := by
  obtain ⟨t,ht,hd⟩ := h.valid.describes_tree h.file
  have hstage (e : BitIndexEntry) (he : e ∈ idx.entries) : e.stage = .NONE := (h.file e he).elim fun _ ha => ha.2.2.2
  exact ⟨t,ht,hd.distinct ht fun e he e' he' => h.free e he e' he' (hstage e he) (hstage e' he'),hd⟩

/-- The state after a commit: the index is kept, with a cache of the tree. -/
def Repo.afterCommit (r : Repo) (t : Tree) (now : BitTime) : Repo :=
  ({r with index := {r.index with treeCache := some (updatedCache r.index t)}} : Repo).committed t now

theorem Repo.afterCommit_index (r : Repo) (t : Tree) (now : BitTime) :
    (r.afterCommit t now).index = {r.index with treeCache := some (updatedCache r.index t)} := (Repo.moved_eq _ _).1

theorem diffHeadIndex_run (r : Repo) : diffHeadIndex r = .ok (r.index.diffTree r.headTree) r := rfl

theorem commit_described (hr : r.Sound) {t : Tree} (ht : t.Canonical) (hd : r.index.Describes t) (hcache : r.index.CacheCoherent)
    (env : Env) (opts : CommitOpts) (edited : Option Bytes) (s : CommitSummary) (r' : Repo) : commit env opts edited r = .ok s r' ↔
      ∃ now, CommitAllowed env opts edited r t now ∧ r' = r.afterCommit t now ∧
        s = ⟨r.head.current,r.commits.length,diffIterators (treeIter r.headTree) (treeIter (.tree t))⟩ := by
  rw [commit_ok_iff hr (writeTree_run ht hd hcache)]
  refine exists_congr fun now => and_congr ?_ Iff.rfl
  exact ⟨fun h => ⟨h.change,h.message,h.identity,h.clock⟩,fun h => ⟨h.change,h.message,h.identity,h.clock⟩⟩

theorem diffTree_afterCommit {t : Tree} (ht : t.Canonical) (hdistinct : t.Distinct) (hd : r.index.Describes t) (now : BitTime) :
    (r.afterCommit t now).index.diffTree (r.afterCommit t now).headTree = .empty := by
  have hd' : (r.afterCommit t now).index.Describes t := by
    rw [Repo.afterCommit_index]
    exact hd
  rw [Repo.afterCommit,Repo.headTree_committed]
  exact hd'.diffTree ht hdistinct

end Commit

/-! ### Everything added and committed -/

section Added
variable {env : Env} {r r' : Repo} {d c : List BitIndexEntry} {m : List (BitIndexEntry × BitIndexEntry)} {e : BitIndexEntry}

/-- Where the first entry at the path of a file passes for unchanged, it was made of this file. -/
def Truthful (r : Repo) : Prop :=
  ∀ e ∈ r.index.entries, ∀ f, r.worktree.look e.path = some (some f) →
    (∀ x ∈ r.index.entries, x.path = e.path → e.stage.toFin ≤ x.stage.toFin) →
    hasChangesInner r.indexMtime e (f.toEntry e.path) = .No → e = f.hashed e.path

theorem Truthful.settled (h : Truthful r) : Settled r := by
  intro e he f hf hfirst hno
  rw [h e he f hf hfirst hno]
  exact ⟨rfl,rfl,rfl⟩

/-- Every entry was made of the file at its path, and every file has one. -/
structure Repo.UpToDate (r : Repo) : Prop where
  holds : r.index.HoldsWorktree r.worktree
  made : ∀ e ∈ r.index.entries, ∀ f, r.worktree.look e.path = some (some f) → e = f.hashed e.path

theorem Repo.UpToDate.of_same {r r' : Repo} (h : r.UpToDate) (hi : r'.index.entries = r.index.entries)
    (hw : r'.worktree = r.worktree) : r'.UpToDate where
  holds := ⟨h.holds.valid.of_sublist (hi ▸ List.Sublist.refl _),hi ▸ hw ▸ h.holds.file,hi ▸ hw ▸ h.holds.only⟩
  made := hi ▸ hw ▸ h.made

theorem upToDate_addedAll (hj : Joined env r d m c) (hv : r.index.Valid) (hw : r.worktree.WellFormed) (hign : Unignored env r)
    (h : Truthful r) : ({r with index := r.addedAll d m c} : Repo).UpToDate := by
  have hholds := holdsWorktree_of_settled hj hv hw hign h.settled
  refine ⟨hholds,fun e he f hf => ?_⟩
  have hstage : e.stage = .NONE := (hholds.only e he).elim fun _ hr => hr.2.1
  have hfind : (r.addedAll d m c).findEntry (e.path,e.stage) = some e := (BitIndexInner.mem_entries_iff hholds.valid).mp he
  rcases findEntry_file hj hw hv hf hign with ⟨o,hm,hno⟩ | hfile
  · rw [findEntry_passed hj hw hv hf hm hno] at hfind
    split at hfind
    · obtain rfl : o = e := Option.some.inj hfind
      refine h o (hj.mem_paired hm) f hf (fun x hx hxp => ?_) (verdict_no.mp hno)
      rcases hj.first_paired hv hw hm hx hxp with rfl | hlt
      · exact le_refl _
      · exact hlt.le
    · cases hfind
  · rw [hfile,if_pos hstage] at hfind
    exact (Option.some.inj hfind).symm

theorem cacheExact_addFiles {w : Worktree} {idx : BitIndexInner} (h : idx.CacheExact) (ns : List BitIndexEntry) :
    (w.addFiles idx ns).CacheExact := by
  induction ns generalizing idx with
  | nil => exact h
  | cons n ns ih => exact ih (h.addedEntry _)

theorem cacheExact_addedAll (h : r.index.CacheExact) : (r.addedAll d m c).CacheExact := by
  have hremove (idx : BitIndexInner) (es : List BitIndexEntry) (h : idx.CacheExact) : (idx.removeAll es).CacheExact := by
    induction es generalizing idx with
    | nil => exact h
    | cons e es ih => exact ih _ (h.removeEntry _)
  rw [addedAll_eq]
  exact cacheExact_addFiles (cacheExact_addFiles (hremove _ d (cacheExact_addFiles h _)) _) _

namespace Repo.UpToDate
variable (h : r.UpToDate)
include h

theorem entry (he : e ∈ r.index.entries) : ∃ f, r.worktree.look e.path = some (some f) ∧ e = f.hashed e.path := by
  obtain ⟨f,hf,-⟩ := h.holds.only e he
  exact ⟨f,hf,h.made e he f hf⟩

theorem stage (he : e ∈ r.index.entries) : e.stage = .NONE := (h.holds.only e he).elim fun _ hr => hr.2.1

theorem committable (hc : r.index.CacheExact) : r.index.Committable where
  valid := h.holds.valid
  file e he := by
    obtain ⟨f,-,hstage,hmode,hoid⟩ := h.holds.only e he
    exact ⟨(f.mode,f.contents),rfl,hmode,hoid,hstage⟩
  free e he e' he' _ _ hbelow := by
    obtain ⟨f,hf,-⟩ := h.entry he
    obtain ⟨f',hf',-⟩ := h.entry he'
    obtain ⟨hpre,hne⟩ := BitPath.below_iff.mp hbelow
    exact Worktree.apart_of_files hf hf' (Ne.symm hne) hpre
  cache := hc.coherent

/-- A tree that the index is written as has exactly the files of the worktree. -/
theorem files {t : Tree} (hd : r.index.Describes t) (p : BitPath) (a : BlobMode × Bytes) :
    (p,a) ∈ t.flatten [] ↔ ∃ f, r.worktree.look p = some (some f) ∧ f.blob = a := by
  have hentry : (p,a) ∈ t.flatten [] ↔ ∃ e ∈ r.index.entries, e.key = (p,MergeStage.NONE) ∧
      (e.mode,e.oid) = (.blob a.1,.blob a.2) := by
    rw [← BitIndexInner.mem_keyed,← BitIndexInner.forall₂_fileOf_iff.mp hd]
    simp [Prod.ext_iff]
  rw [hentry]
  constructor
  · rintro ⟨e,he,hkey,hval⟩
    obtain ⟨f,hf,-,hmode,hoid⟩ := h.holds.only e he
    obtain ⟨rfl,-⟩ := Prod.mk.inj hkey
    obtain ⟨hmode',hoid'⟩ := Prod.mk.inj hval
    exact ⟨f,hf,Prod.ext (by simpa [FileNode.blob] using hmode.symm.trans hmode')
      (by simpa [FileNode.blob] using hoid.symm.trans hoid')⟩
  · rintro ⟨f,hf,rfl⟩
    obtain ⟨e,he,hpath,hstage,hmode,hoid⟩ := h.holds.file p f hf
    exact ⟨e,he,Prod.ext hpath hstage,Prod.ext hmode hoid⟩

/-- Change detection finds nothing, however old the index file is. -/
theorem verdict_ne {n o : BitIndexEntry} (ho : o ∈ r.index.entries) (hn : Vouched r.worktree n) (hpath : o.path = n.path)
    (indexMtime : Option ℕ) : verdict indexMtime r.worktree (o,n) ≠ .Yes := by
  obtain ⟨f,hf,heq,hhashed⟩ := Worktree.hashed_of_vouched hn
  have hof : o = f.hashed n.path := hpath ▸ h.made o ho f (hpath ▸ hf)
  have hoid : o.oid = (r.worktree.hashed n).oid := by rw [hof,hhashed]
  have hsame : hasChangesInner indexMtime o n ≠ .Yes := by
    rw [hof,heq]
    change hasChangesInner indexMtime (f.hashed n.path) (f.toEntry (f.hashed n.path).path) ≠ .Yes
    rw [inner_eq rfl]
    have hstat : (f.hashed n.path).stat = f.stat := rfl
    have hmode : (f.hashed n.path).mode = .blob f.mode := rfl
    simp only [hstat,hmode,ne_eq,not_true_eq_false,or_self,if_false]
    split <;> simp
  simp only [verdict]
  cases hc : hasChangesInner indexMtime o n with
  | Yes => exact absurd hc hsame
  | No => simp
  | Maybe => simp [hoid]

variable (hw : r.worktree.WellFormed)
include hw

theorem diffWorktree_empty (env : Env) : ∃ ns, (∀ n ∈ ns, Vouched r.worktree n) ∧
    diffWorktree env r = .ok .empty {r with index := r.worktree.addFiles r.index ns} := by
  obtain ⟨d,m,c,hj,hrun⟩ := diffWorktree_run env hw
  have hstage : ∀ e ∈ r.index.entries, e.stage = .NONE := fun e he => h.stage he
  have hc : c = [] := List.eq_nil_iff_forall_not_mem.mpr fun n hn => by
    obtain ⟨⟨f,hf,-⟩,hne,-⟩ := (hj.mem_new_iff h.holds.valid hw).mp hn
    obtain ⟨e,he,hpath,-⟩ := h.holds.file _ f hf
    exact hne e he hpath
  have hd : d = [] := List.eq_nil_iff_forall_not_mem.mpr fun o ho => by
    obtain ⟨ho,hnone⟩ := (hj.mem_deleted_iff h.holds.valid hw hstage).mp ho
    obtain ⟨f,hf,-⟩ := h.holds.only o ho
    exact hnone f hf
  have hm : withVerdict r.indexMtime r.worktree .Yes m = [] := List.filter_eq_nil_iff.mpr fun x hx => by
    obtain ⟨ho,hn,hpath⟩ := (hj.mem_paired_iff h.holds.valid hw hstage).mp hx
    simpa using h.verdict_ne ho hn hpath r.indexMtime
  refine ⟨r.listed .Maybe m,fun n hn => hj.vouched_listed hw hn,?_⟩
  rw [hrun,hc,hd,hm]
  rfl

/-- Refreshing brings in no conflict. -/
theorem conflicts_refreshed {ns : List BitIndexEntry} (hns : ∀ n ∈ ns, Vouched r.worktree n) :
    (r.worktree.addFiles r.index ns).conflicts = some [] := by
  have hvalid := Worktree.valid_addFiles hw h.holds.valid hns
  have hnone : ∀ e ∈ (r.worktree.addFiles r.index ns).entries, e.stage = .NONE := by
    intro e he
    have hfind := (BitIndexInner.mem_entries_iff hvalid).mp he
    have hold (hfind : r.index.findEntry (e.path,e.stage) = some e) : e.stage = .NONE :=
      h.stage (BitIndexInner.findEntry_some hfind).1
    by_cases hf : ∃ f, r.worktree.look e.path = some (some f)
    · obtain ⟨f,hf⟩ := hf
      change (r.worktree.addFiles r.index ns).findEntry (e.path,e.stage) = some e at hfind
      rw [Worktree.findEntry_addFiles hns hf] at hfind
      split at hfind
      · by_contra hne
        simp [hne] at hfind
      · exact hold hfind
    · exact hold (Worktree.findEntry_of_addFiles hns (fun f hlook => hf ⟨f,hlook⟩) hfind)
  have hunmerged : (r.worktree.addFiles r.index ns).entries.filter (fun e => e.stage.isUnmerged) = [] :=
    List.filter_eq_nil_iff.mpr fun e he => by simp [hnone e he,MergeStage.isUnmerged]
  simp [BitIndexInner.conflicts,hunmerged]

/-- Nothing to report: the index is the tree of HEAD, and the worktree is what the index was made of. -/
theorem status_empty (env : Env) (oid : ℕ) (hhead : r.resolveRef r.head = some oid) (hoid : r.isCommit oid)
    (hstaged : r.index.diffTree r.headTree = .empty) : ∃ r', status env r = .ok ⟨r.head,false,.empty,.empty,[]⟩ r' := by
  obtain ⟨ns,hns,hrun⟩ := h.diffWorktree_empty hw env
  refine ⟨{r with index := r.worktree.addFiles r.index ns},?_⟩
  have hconflicts : conflicts {r with index := r.worktree.addFiles r.index ns} =
      .ok [] {r with index := r.worktree.addFiles r.index ns} := by
    simp only [conflicts,run_getBind,h.conflicts_refreshed hw hns,run_pure]
  have hresolve : tryFullyResolveRef r.head {r with index := r.worktree.addFiles r.index ns} =
      .ok (some oid) {r with index := r.worktree.addFiles r.index ns} := by
    refine tryFullyResolveRef_ok.mpr ⟨rfl,?_,by rintro _ ⟨⟩; exact hoid⟩
    exact hhead.symm.trans (congrArg r.resolveRef (deref_head r).symm)
  unfold status
  rw [run_getBind,bind_of_ok (lift_ok.mpr (diffHeadIndex_run r)),bind_of_ok (lift_ok.mpr hrun),bind_of_ok hconflicts,
    bind_of_ok hresolve,hstaged]
  rfl

end Repo.UpToDate

end Added

/-! ### A file in conflict and a symlink -/

/-- The directory in the place of the file in conflict is added, and what is gone is removed. -/
def addedRepo : Repo :=
  {mixedRepo with index := ⟨[⟨[[97],[120]],.blob .LINK,.blob [97],.NONE,⟨6,3,1⟩⟩,sampleEntry],none⟩}

theorem addAll_mixed : addAll .plain mixedRepo = .ok () addedRepo := by rfl

theorem sound_mixed : mixedRepo.Sound := Repo.Sound.of_same (r := Repo.init) ⟨rfl,rfl,rfl⟩ sound_init

theorem committable_added : addedRepo.index.Committable where
  valid := ⟨by decide,by decide⟩
  file e he := by
    simp only [addedRepo,List.mem_cons,List.not_mem_nil,or_false] at he
    rcases he with rfl | rfl
    · exact ⟨(.LINK,[97]),by decide⟩
    · exact ⟨(.REG,[97]),by decide⟩
  free := by decide
  cache := (BitIndexInner.cacheExact_of_none rfl).coherent

theorem truthful_mixed : Truthful mixedRepo := by
  intro e he f hf _ _
  simp only [mixedRepo,List.mem_cons,List.not_mem_nil,or_false] at he
  rcases he with rfl | rfl | rfl | rfl <;> cases hf
  rfl

end Libbit
