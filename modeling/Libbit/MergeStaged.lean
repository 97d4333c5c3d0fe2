import Libbit.CacheSpec
import Libbit.MergeAbort

/-! Staged changes and the merge. The check before a merge lists the paths of all changes, except
that a path which is new in the index is left out of the list: unless something else reports it,
it is committed together with the merge. -/
namespace Libbit

open Lib

namespace BitIndexInner
variable {idx : BitIndexInner}

/-- The index as the repository keeps it: in order, files only, and with a cache that can be
trusted. -/
structure Kept (idx : BitIndexInner) : Prop where
  valid : idx.Valid
  files : ∀ e ∈ idx.entries, e.isTree = false
  coherent : idx.Coherent

theorem mem_addedEntry {e x : BitIndexEntry} (h : x ∈ (idx.addedEntry e).entries) : x = e ∨ x ∈ idx.entries :=
  (mem_insertSorted h).imp_right fun h => ((removeCollisions_sublist _).trans (removeConflicted_sublist _)).subset h

theorem Kept.addedEntry (h : idx.Kept) {e : BitIndexEntry} (hne : e.path ≠ []) (hn : e.path.Normal)
    (he : e.isTree = false) : (idx.addedEntry e).Kept where
  valid := h.valid.addedEntry hne hn
  files x hx := by
    rcases mem_addedEntry hx with rfl | hx
    · exact he
    · exact h.files x hx
  coherent := by
    have hremove (idx : BitIndexInner) (k : BitPath × MergeStage) (h : idx.Coherent) := h.removeEntry k
    exact (removeCollisions_keeps hremove _ (removeConflicted_keeps hremove _ h.coherent)).insertEntry e

end BitIndexInner

section Check

/-- The unstaged check goes on from a repository with the same history and the same files, whose
index has no blob that the index before did not have. -/
structure Checked (r s : Repo) : Prop where
  history : SameHistory r s
  worktree : s.worktree = r.worktree
  index : s.index.Kept
  has : ∀ p o, s.index.Has p o → r.index.Has p o

theorem Checked.refl {r : Repo} (h : r.index.Kept) : Checked r r := ⟨⟨rfl,rfl,rfl⟩,rfl,h,fun _ _ h => h⟩

theorem Checked.hasChanges {r s s' : Repo} (h : Checked r s) (hw : r.worktree.WellFormed) {o n : BitIndexEntry}
    (ho : r.index.Has n.path o.oid) (hn : Vouched r.worktree n) {b : Bool} (hrun : hasChanges o n s = .ok b s') :
    Checked r s' := by
  rcases hasChanges_ok hrun with ⟨rfl,-⟩ | ⟨-,hmode,f,e',hf,hoid,hfill,rfl⟩
  · exact h
  · have hws : s.worktree.WellFormed := h.worktree ▸ hw
    have hns : Vouched s.worktree n := h.worktree ▸ hn
    obtain ⟨hpath,hmode',hoid',hstage⟩ := hns.fill hws hfill
    obtain ⟨f,hlook,hnf⟩ := hn
    have hne : n.path ≠ [] := by
      intro hnil
      simp [hnil] at hlook
    have htree : e'.isTree = false := by
      rw [BitIndexEntry.isTree,hmode',hnf]
      rfl
    refine ⟨h.history,h.worktree,?_,?_⟩
    · exact h.index.addedEntry (hpath ▸ hne) (hpath ▸ hw.normal (by simp [hlook])) htree
    · rintro p oid ⟨x,hx,rfl,rfl⟩
      rcases BitIndexInner.mem_addedEntry hx with rfl | hx
      · rw [hpath,hoid']
        exact ho
      · exact h.has _ _ ⟨x,hx,rfl,rfl⟩

theorem Checked.diffIndexWorktree {r : Repo} (hr : r.index.Valid) (hw : r.worktree.WellFormed) {fuel : ℕ}
    {old new : List BitIndexEntry} (hold : old ⊆ r.index.entries) (hnew : ∀ n ∈ new, Vouched r.worktree n)
    {st st' : WorkspaceStatus} {s s' : Repo} (h : Checked r s)
    (hrun : diffIndexWorktree fuel old new st s = .ok st' s') : Checked r s' := by
  induction fuel generalizing old new st s with
  | zero =>
    obtain ⟨-,rfl⟩ : st = st' ∧ s = s' := by simpa [Libbit.diffIndexWorktree] using hrun
    exact h
  | succ fuel ih =>
    cases old with
    | nil =>
      cases new with
      | nil =>
        obtain ⟨-,rfl⟩ : st = st' ∧ s = s' := by simpa [Libbit.diffIndexWorktree] using hrun
        exact h
      | cons n ns => exact ih hold (fun x hx => hnew x (List.mem_cons_of_mem _ hx)) h hrun
    | cons o os =>
      have hos : os ⊆ r.index.entries := fun x hx => hold (List.mem_cons_of_mem _ hx)
      cases new with
      | nil => exact ih hos hnew h hrun
      | cons n ns =>
        have hns : ∀ x ∈ ns, Vouched r.worktree x := fun x hx => hnew x (List.mem_cons_of_mem _ hx)
        simp only [Libbit.diffIndexWorktree] at hrun
        cases hcmp : o.diffCmp n with
        | lt =>
          simp only [hcmp] at hrun
          exact ih hos hnew h hrun
        | gt =>
          simp only [hcmp] at hrun
          exact ih hold hns h hrun
        | eq =>
          simp only [hcmp] at hrun
          obtain ⟨b,s₁,hchanged,hrest⟩ := bind_ok.mp hrun
          have homem := hold List.mem_cons_self
          have hnv := hnew n List.mem_cons_self
          have hnn : n.path.Normal := by
            obtain ⟨f,hf,-⟩ := hnv
            exact hw.normal (by simp [hf])
          have hpath : o.path = n.path :=
            BitPath.asBytes_injective (hr.normal o homem).2 hnn (TreeDiffIter.diffCmp_eq.mp hcmp)
          have h₁ := h.hasChanges hw ⟨o,homem,hpath,rfl⟩ hnv hchanged
          cases b with
          | true => exact ih hos hns h₁ hrest
          | false => exact ih hos hns h₁ hrest

theorem Checked.diffWorktree {env : Env} {r s : Repo} (hr : r.index.Kept) (hw : r.worktree.WellFormed)
    {st : WorkspaceStatus} (h : diffWorktree env r = .ok st s) : Checked r s := by
  refine Checked.diffIndexWorktree hr.valid hw (List.Subset.refl _) (fun n hn => ?_) (.refl hr) h
  obtain ⟨hmem,hb⟩ := List.mem_filter.mp hn
  exact vouched_of_iter hw hmem (by simpa using hb)

end Check

section Diff

theorem mem_treeIter_file {t : Tree} (ht : t.WellFormed) {x : BitIndexEntry} (h : x ∈ treeIter (.tree t))
    (hb : x.isTree = false) : ∃ a, t.look x.path = some (some a) ∧ x.oid = .blob a.2 := by
  rcases List.mem_cons.mp h with rfl | h
  · simp [BitIndexEntry.isTree,BitIndexEntry.ofTreeEntry,FileMode.isTree] at hb
  obtain ⟨⟨p,a | s⟩,hx,rfl⟩ := List.mem_map.mp h
  · exact ⟨a,(Forest.mem_entries_leaf ht.distinct).mp hx,rfl⟩
  · simp [TreeEntry.ofItem,BitIndexEntry.isTree,BitIndexEntry.ofTreeEntry,FileMode.isTree] at hb

theorem mem_treeIter_of_look {t : Tree} (ht : t.WellFormed) {p : BitPath} {a : BlobMode × Bytes}
    (h : t.look p = some (some a)) : BitIndexEntry.ofTreeEntry ⟨.blob a.1,p,.blob a.2⟩ ∈ treeIter (.tree t) :=
  List.mem_cons_of_mem _ (List.mem_map.mpr ⟨(p,.inl a),(Forest.mem_entries_leaf ht.distinct).mpr h,rfl⟩)

theorem mem_treeIter_dir {t : Tree} (ht : t.WellFormed) {x : BitIndexEntry} (h : x ∈ treeIter (.tree t))
    (hb : x.isTree = true) : ∃ s, t.sub? x.path = some s ∧ x.oid = .tree s := by
  rcases List.mem_cons.mp h with rfl | h
  · exact ⟨t,by simp [BitIndexEntry.ofTreeEntry],rfl⟩
  obtain ⟨⟨p,a | s⟩,hx,rfl⟩ := List.mem_map.mp h
  · simp [TreeEntry.ofItem,BitIndexEntry.isTree,BitIndexEntry.ofTreeEntry,FileMode.isTree] at hb
  · exact ⟨s,((Forest.mem_entries_node ht.distinct).mp hx).2,rfl⟩

variable {idx : BitIndexInner} {t : Tree} {p : BitPath}

/-- Only files of the tree are reported. -/
theorem look_of_mem_diffTree (hidx : idx.Kept) (ht : t.WellFormed) (h : p ∈ (idx.diffTree (.tree t)).iterPaths) :
    ∃ a, t.look p = some (some a) := by
  rcases mem_iterPaths.mp h with h | ⟨d,hd,hp⟩
  · simp [WorkspaceStatus.iterPaths,WorkspaceStatus.empty] at h
  obtain ⟨x,hx,hb,hpath⟩ := TreeDiffIter.drain_reports_old hd hp
  obtain ⟨a,hlook,-⟩ := mem_treeIter_file ht hx hb
  refine ⟨a,?_⟩
  rcases hpath with rfl | ⟨hbytes,n,hn,hnb,rfl⟩
  · exact hlook
  · rcases mem_indexTreeIter hn with hn | ⟨d,rfl⟩
    · rw [← BitPath.asBytes_injective (ht.normal (by simp [hlook])) (hidx.valid.normal n hn).2 hbytes,hlook]
    · simp [BitIndexInner.createPseudotree,BitIndexEntry.isTree,BitIndexEntry.ofTreeEntry,FileMode.isTree] at hnb

/-- A directory that the index lists with an id is one that the cache vouches for. -/
theorem validChild_of_pseudotree {d : BitPath} (h : (idx.createPseudotree d).oid.isKnown = true) :
    ∃ c, idx.validChild d = some c ∧ (idx.createPseudotree d).oid = c.treeOid := by
  cases hc : idx.validChild d with
  | none =>
    have hoid : (idx.createPseudotree d).oid = .UNKNOWN := by
      simp only [BitIndexInner.validChild] at hc
      simp [BitIndexInner.createPseudotree,BitIndexEntry.ofTreeEntry,hc]
    simp [hoid,Oid.isKnown] at h
  | some c =>
    simp only [BitIndexInner.validChild] at hc
    exact ⟨c,rfl,by simp [BitIndexInner.createPseudotree,BitIndexEntry.ofTreeEntry,hc]⟩

/-- A file of the tree whose blob the index no longer has is reported. -/
theorem mem_diffTree (hidx : idx.Kept) (ht : t.WellFormed) {a : BlobMode × Bytes} (hlook : t.look p = some (some a))
    (hmiss : ¬idx.Has p (.blob a.2)) : p ∈ (idx.diffTree (.tree t)).iterPaths := by
  have hpn : p.Normal := ht.normal (by simp [hlook])
  rcases TreeDiffIter.drain_overlooks (le_refl _) (mem_treeIter_of_look ht hlook) rfl with
    ⟨d,hd,q,hq,hbytes⟩ | ⟨n,hn,hbytes,hoid⟩ | ⟨n,hn,htree,hknown,hold,hpre⟩
  · have hmem : q ∈ (idx.diffTree (.tree t)).iterPaths := mem_iterPaths.mpr (.inr ⟨d,hd,hq⟩)
    obtain ⟨b,hb⟩ := look_of_mem_diffTree hidx ht hmem
    obtain rfl : q = p := BitPath.asBytes_injective (ht.normal (by simp [hb])) hpn hbytes
    exact hmem
  · -- the index has the very blob
    rcases mem_indexTreeIter hn with hn | ⟨d,rfl⟩
    · have hpath := BitPath.asBytes_injective (hidx.valid.normal n hn).2 hpn hbytes
      exact absurd ⟨n,hn,hpath,hoid⟩ hmiss
    · obtain ⟨c,hc,hc'⟩ := @validChild_of_pseudotree idx d (by rw [hoid]; rfl)
      obtain ⟨s,hs,-⟩ := hidx.coherent d c hc
      rw [hc',hs] at hoid
      simp [BitIndexEntry.ofTreeEntry] at hoid
  · -- the file stands in a directory that the cache vouches for
    rcases mem_indexTreeIter hn with hn | ⟨d,rfl⟩
    · simp [hidx.files n hn] at htree
    · obtain ⟨c,hc,hc'⟩ := validChild_of_pseudotree hknown
      obtain ⟨s,hs,hfiles⟩ := hidx.coherent d c hc
      obtain ⟨s',hsub,hs'⟩ := mem_treeIter_dir ht hold htree
      obtain rfl : s' = s := by simpa [hc',hs] using hs'.symm
      obtain ⟨q,rfl⟩ : ∃ q, d++q = p := hpre
      have hlook' : s'.look q = some (some a) := (Forest.look_of_sub? hsub q).symm.trans hlook
      exact absurd (hfiles q a hlook') hmiss

end Diff

section Uniform
variable (env : Env) (ctx : MergeCtxt)

/-- The paths collected before an item play no part in it. -/
theorem mergeItem_uniform (u : List BitPath) (item : List (Option BitIndexEntry)) :
    mergeItem env ctx u item = (u++·) <$> mergeItem env ctx [] item := by
  unfold mergeItem
  split
  · unfold mergeEntries
    split
    · simp
    · unfold baseToTheirsOnly
      split
      · simp only [map_bind]
        congr 1
        funext b
        cases b <;> simp
      · simp
      · rfl
    · simp
    · simp
  · rfl

theorem foldlM_mergeItem_uniform (u : List BitPath) (items : List (List (Option BitIndexEntry))) :
    items.foldlM (mergeItem env ctx) u = (u++·) <$> items.foldlM (mergeItem env ctx) [] := by
  induction items generalizing u with
  | nil => simp
  | cons item items ih =>
    rw [List.foldlM_cons,List.foldlM_cons,mergeItem_uniform env ctx u,bind_map_left,map_bind]
    congr 1
    funext v
    rw [ih (u++v),ih v]
    simp [Functor.map_map]

theorem mergeCommits_uniform {u v : List BitPath} {base : Option ℕ} {ours theirs : ℕ} {r r' : Repo} :
    mergeCommits env ctx u base ours theirs r = .ok v r' ↔
      ∃ v', mergeCommits env ctx [] base ours theirs r = .ok v' r' ∧ v = u++v' := by
  have h : mergeCommits env ctx u base ours theirs = (u++·) <$> mergeCommits env ctx [] base ours theirs := by
    simp only [mergeCommits,mergeTrees,map_bind]
    congr 1
    funext r
    exact foldlM_mergeItem_uniform env ctx u _
  rw [h,map_eq_pure_bind,bind_ok]
  constructor
  · rintro ⟨v',t,hv',hpure⟩
    obtain ⟨rfl,rfl⟩ : u++v' = v ∧ t = r' := by simpa using hpure
    exact ⟨v',hv',rfl⟩
  · rintro ⟨v',hv',rfl⟩
    exact ⟨v',r',hv',rfl⟩

end Uniform

section Staged

/-- The contents of the file that HEAD has at a path. -/
def Repo.headBlob (r : Repo) (p : BitPath) : Option Bytes :=
  match r.headTree.treeish.look p with
  | some (some a) => some a.2
  | _ => none

/-- The index has a file where HEAD has none. -/
def Repo.StagedNew (r : Repo) (p : BitPath) : Prop := r.headBlob p = none ∧ ∃ e ∈ r.index.entries, e.path = p

/-- HEAD has a file whose blob the index does not have: it was modified or deleted. -/
def Repo.StagedChange (r : Repo) (p : BitPath) : Prop := ∃ c, r.headBlob p = some c ∧ ¬r.index.Has p (.blob c)

def Repo.Staged (r : Repo) (p : BitPath) : Prop := r.StagedNew p ∨ r.StagedChange p

/-- The merge is refused with all staged paths in the list, and no commit is made and no ref moved. -/
def RefusesStaged (m : Bit MergeResults) (r : Repo) : Prop :=
  ∃ u r', m r = .error (.MergeConflict u) r' ∧ (∀ p, r.Staged p → p ∈ u) ∧ SameHistory r r'

/-- The merge in place and the checkout of the old index go through, and whatever is staged as new
is reported for another reason: its file is changed or missing, or theirs has a file there too. -/
def Repo.ReportsNew (env : Env) (ctx : MergeCtxt) (base : Option ℕ) (r : Repo) : Prop :=
  ∃ unstaged r₁ clashes r₂ r₃, diffWorktree env r = .ok unstaged r₁ ∧
    mergeCommits env ctx [] base ctx.ourHead ctx.theirHead r₁ = .ok clashes r₂ ∧
    checkoutIndex env .Safe {r₂ with index := ctx.initialIndexSnapshot} = .ok () r₃ ∧
    ∀ p, r.StagedNew p → p ∈ unstaged.iterPaths ∨ p ∈ clashes

theorem preMergeChecks_ok {env : Env} {u : List BitPath} {r r₁ : Repo} :
    preMergeChecks env [] r = .ok u r₁ ↔ ∃ unstaged, diffWorktree env r = .ok unstaged r₁ ∧
      u = unstaged.iterPaths++(r₁.index.diffTree r₁.headTree).iterPaths := by
  simp only [preMergeChecks,bind_ok]
  constructor
  · rintro ⟨unstaged,s,hun,staged,s',hst,hpure⟩
    obtain ⟨rfl,rfl⟩ : s.index.diffTree s.headTree = staged ∧ s = s' := by simpa [diffHeadIndex] using hst
    obtain ⟨rfl,rfl⟩ : _ = u ∧ s = r₁ := by simpa using hpure
    exact ⟨unstaged,hun,by simp⟩
  · rintro ⟨unstaged,hun,rfl⟩
    exact ⟨unstaged,r₁,hun,_,r₁,rfl,by simp⟩

theorem headBlob_eq_some {r : Repo} {t : Tree} (h : r.headTree = .tree t) {p : BitPath} {c : Bytes} :
    r.headBlob p = some c ↔ ∃ m, t.look p = some (some (m,c)) := by
  simp only [Repo.headBlob,h,Oid.treeish]
  cases hl : t.look p with
  | none => simp
  | some x =>
    cases x with
    | none => simp
    | some a =>
      obtain ⟨m,b⟩ := a
      simp

theorem mergeWithBase_refusesStaged_iff {env : Env} {ctx : MergeCtxt} {base : Option ℕ} {r : Repo} {t : Tree}
    (hw : r.worktree.WellFormed) (hidx : r.index.Kept) (hhead : r.headTree = .tree t) (ht : t.WellFormed)
    (hstaged : ∃ p, r.Staged p) (hnull : base ≠ some ctx.theirHead)
    (hff : ¬(!ctx.opts.noFf ∧ base = some ctx.ourHead)) :
    RefusesStaged (mergeWithBase env ctx [] base) r ↔ r.ReportsNew env ctx base := by
  constructor
  · rintro ⟨v,r',hrun,hall,-⟩
    obtain ⟨-,-,u,r₁,r₂,hchecks,hmerge,-,hcheckout⟩ := mergeWithBase_refuses_iff.mp hrun
    obtain ⟨unstaged,hun,rfl⟩ := preMergeChecks_ok.mp hchecks
    obtain ⟨clashes,hclash,rfl⟩ := (mergeCommits_uniform env ctx).mp hmerge
    have hchecked := Checked.diffWorktree hidx hw hun
    refine ⟨unstaged,r₁,clashes,r₂,r',hun,hclash,hcheckout,fun p hp => ?_⟩
    have hmem := hall p (.inl hp)
    simp only [List.mem_append,or_assoc] at hmem
    rcases hmem with h | h | h
    · exact .inl h
    · -- the staged check reports files of HEAD only
      rw [hchecked.history.headTree,hhead] at h
      obtain ⟨a,ha⟩ := look_of_mem_diffTree hchecked.index ht h
      have hsome := (headBlob_eq_some hhead).mpr ⟨a.1,ha⟩
      rw [hp.1] at hsome
      simp at hsome
    · exact .inr h
  · rintro ⟨unstaged,r₁,clashes,r₂,r₃,hun,hclash,hcheckout,hnew⟩
    have hchecked := Checked.diffWorktree hidx hw hun
    have hall (p : BitPath) (hp : r.Staged p) :
        p ∈ unstaged.iterPaths++(r₁.index.diffTree r₁.headTree).iterPaths++clashes := by
      rcases hp with hp | ⟨c,hc,hmiss⟩
      · rcases hnew p hp with h | h <;> simp [h]
      · obtain ⟨m,hm⟩ := (headBlob_eq_some hhead).mp hc
        have hmem := mem_diffTree hchecked.index ht hm fun h => hmiss (hchecked.has p _ h)
        rw [← hhead,← hchecked.history.headTree] at hmem
        simp [hmem]
    have hne : unstaged.iterPaths++(r₁.index.diffTree r₁.headTree).iterPaths++clashes ≠ [] := by
      obtain ⟨p,hp⟩ := hstaged
      exact List.ne_nil_of_mem (hall p hp)
    refine ⟨_,r₃,mergeWithBase_refuses_iff.mpr ⟨hnull,hff,_,r₁,r₂,preMergeChecks_ok.mpr ⟨unstaged,hun,rfl⟩,
      (mergeCommits_uniform env ctx).mpr ⟨clashes,hclash,rfl⟩,hne,hcheckout⟩,hall,?_⟩
    have hsame₂ := (Holds.mergeCommits stableIndex_history stableWorktree_history stableClock_history env ctx _ base
      ctx.ourHead ctx.theirHead).ok hchecked.history hclash
    have hreset : SameHistory r {r₂ with index := ctx.initialIndexSnapshot} := hsame₂
    exact (Holds.checkoutIndex stableIndex_history stableWorktree_history stableClock_history env .Safe).ok hreset hcheckout

/-- The first branch with some files and some staged entries. -/
def stagedOnFirstBranch (entries : List BitIndexEntry) (files : Worktree) : Repo :=
  {onFirstBranch files with index := ⟨entries,none⟩}

theorem kept_of_no_cache {entries : List BitIndexEntry} (hs : BitIndexInner.Sorted ⟨entries,none⟩)
    (hn : BitIndexInner.NormalPaths ⟨entries,none⟩) (hf : ∀ e ∈ entries, e.isTree = false) :
    BitIndexInner.Kept ⟨entries,none⟩ := ⟨⟨hs,hn⟩,hf,fun d c hc => by simp [BitIndexInner.validChild] at hc⟩

end Staged
end Libbit
