import Libbit.Snapshot
import Libbit.MergeStaged

/-! What an empty status stands for (`status.rs`): the worktree, the index and HEAD hold the same files. -/
namespace Libbit

open Lib TreeDiffIter

/-! ### Iterators between which nothing is reported -/

section Run
variable {old new : List BitIndexEntry} {ts : List (List BitIndexEntry × List BitIndexEntry)} {e : BitIndexEntry}

theorem exists_run_empty (h : diffIterators old new = .empty) : ∃ ts, Run old new ts ∧ ∀ u ∈ ts, report u = .empty := by
  obtain ⟨ts,hrun,hts⟩ := exists_run (le_refl (old.length+new.length)) .empty
  have hadded : added .empty ts = .empty := hts.symm.trans h
  simp only [added,WorkspaceStatus.empty,List.nil_append,WorkspaceStatus.mk.injEq,List.flatMap_eq_nil_iff] at hadded
  refine ⟨ts,hrun,fun u hu => ?_⟩
  have hnew : (report u).new = [] := hadded.1 u hu
  have hmodified : (report u).modified = [] := hadded.2.1 u hu
  have hdeleted : (report u).deleted = [] := hadded.2.2 u hu
  cases hr : report u with
  | mk n m d =>
    rw [hr] at hnew hmodified hdeleted
    rw [show n = [] from hnew,show m = [] from hmodified,show d = [] from hdeleted]
    rfl

/-- A file of the new side has its blob on the old side, or it stands below a directory that both sides list alike. -/
def Accounted (old new : List BitIndexEntry) (e : BitIndexEntry) : Prop :=
  (∃ o ∈ old, o.isTree = false ∧ o.path.asBytes = e.path.asBytes ∧ o.oid = e.oid) ∨
    ∃ o ∈ old, o ∈ new ∧ o.isTree = true ∧ o.path <+: e.path

theorem Accounted.mono {old' new' : List BitIndexEntry} (h : Accounted old new e) (hold : old ⊆ old') (hnew : new ⊆ new') :
    Accounted old' new' e := by
  rcases h with ⟨o,ho,hrest⟩ | ⟨o,ho,hn,hrest⟩
  · exact .inl ⟨o,hold ho,hrest⟩
  · exact .inr ⟨o,hold ho,hnew hn,hrest⟩

theorem stepOver_subset_cons (o : BitIndexEntry) (os : List BitIndexEntry) : Iter.stepOver (o::os) ⊆ o::os := fun _ hx =>
  List.mem_cons_of_mem _ ((stepOver_suffix o os).subset hx)

/-- What the turn of a match keeps silent about. -/
theorem accounted_block {o n : BitIndexEntry} {os ns : List BitIndexEntry} (hpath : o.path.asBytes = n.path.asBytes)
    (heq : o.isTree = true → n.isTree = true → o = n) (hempty : report (block (o::os),block (n::ns)) = .empty)
    (he : e ∈ block (n::ns)) : Accounted (o::os) (n::ns) e := by
  obtain ⟨l,hl⟩ := block_cons o os
  cases ho : o.isTree with
  | true =>
    cases hn : n.isTree with
    | true =>
      obtain rfl := heq ho hn
      exact .inr ⟨o,List.mem_cons_self,List.mem_cons_self,ho,path_of_mem_block he⟩
    | false =>
      rw [block_blob hn,hl,report_replaced (by simp [ho,hn])] at hempty
      simp [files,hn,WorkspaceStatus.empty] at hempty
  | false =>
    cases hn : n.isTree with
    | true =>
      obtain ⟨l',hl'⟩ := block_cons n ns
      rw [block_blob ho,hl',report_replaced (by simp [ho,hn])] at hempty
      simp [files,ho,WorkspaceStatus.empty] at hempty
    | false =>
      rw [block_blob hn] at he
      obtain rfl := List.mem_singleton.mp he
      rw [block_blob ho,block_blob hn,report_blobs ho hn] at hempty
      have hoid : o.oid = e.oid := by
        by_contra hne
        rw [if_pos hne] at hempty
        simp [WorkspaceStatus.empty] at hempty
      exact .inl ⟨o,List.mem_cons_self,ho,hpath,hoid⟩

theorem accounted_new (h : Run old new ts) (hempty : ∀ u ∈ ts, report u = .empty) (he : e ∈ new) (hfile : e.isTree = false) :
    Accounted old new e := by
  induction h with
  | done => exact absurd he List.not_mem_nil
  | @deleted o os new ts _ run ih =>
    exact (ih (fun u hu => hempty u (List.mem_cons_of_mem _ hu)) he).mono (stepOver_subset_cons o os) (List.Subset.refl _)
  | @created n old ns ts _ run ih =>
    rw [← block_append (n::ns)] at he
    rcases List.mem_append.mp he with he | he
    · have hnone := hempty _ List.mem_cons_self
      rw [report_new] at hnone
      have hmem : e ∈ files (block (n::ns)) := mem_files_iff.mpr ⟨he,hfile⟩
      rw [show files (block (n::ns)) = [] from congrArg WorkspaceStatus.new hnone] at hmem
      exact absurd hmem List.not_mem_nil
    · exact (ih (fun u hu => hempty u (List.mem_cons_of_mem _ hu)) he).mono (List.Subset.refl _) (stepOver_subset_cons n ns)
  | @entered o n os ns ts _ ho hn _ run ih =>
    rcases List.mem_cons.mp he with rfl | he
    · rw [hn] at hfile
      cases hfile
    · exact (ih (fun u hu => hempty u (List.mem_cons_of_mem _ hu)) he).mono (List.subset_cons_self _ _) (List.subset_cons_self _ _)
  | @passed o n os ns ts hpath heq run ih =>
    rw [← block_append (n::ns)] at he
    rcases List.mem_append.mp he with he | he
    · exact accounted_block hpath heq (hempty _ List.mem_cons_self) he
    · exact (ih (fun u hu => hempty u (List.mem_cons_of_mem _ hu)) he).mono (stepOver_subset_cons o os) (stepOver_subset_cons n ns)

theorem report_swap_empty {u : List BitIndexEntry × List BitIndexEntry} (h : report u = .empty) : report u.swap = .empty := by
  obtain ⟨l,l'⟩ := u
  cases l with
  | nil =>
    rw [report_new] at h
    have hfiles : files l' = [] := congrArg WorkspaceStatus.new h
    rw [Prod.swap_prod_mk,report_old,hfiles]
    rfl
  | cons o l =>
    cases l' with
    | nil =>
      rw [report_old] at h
      have hfiles : files (o::l) = [] := congrArg WorkspaceStatus.deleted h
      rw [Prod.swap_prod_mk,report_new,hfiles]
      rfl
    | cons n l' =>
      rw [Prod.swap_prod_mk]
      simp only [report] at h ⊢
      by_cases hkind : o.isTree = n.isTree
      · rw [if_pos hkind] at h
        rw [if_pos hkind.symm]
        by_cases hoid : o.isTree = false ∧ o.oid ≠ n.oid
        · rw [if_pos hoid] at h
          simp [WorkspaceStatus.empty] at h
        · rw [if_neg fun hne => hoid ⟨hkind.trans hne.1,Ne.symm hne.2⟩]
      · rw [if_neg hkind] at h
        rw [if_neg (Ne.symm hkind)]
        simp only [WorkspaceStatus.empty,WorkspaceStatus.mk.injEq,true_and] at h ⊢
        exact h.symm

theorem accounted_old (h : Run old new ts) (hempty : ∀ u ∈ ts, report u = .empty) (he : e ∈ old) (hfile : e.isTree = false) :
    Accounted new old e := by
  refine accounted_new h.symm (fun u hu => ?_) he hfile
  obtain ⟨v,hv,rfl⟩ := List.mem_map.mp hu
  exact report_swap_empty (hempty v hv)

end Run

/-! ### HEAD and the index -/

section Staged
variable {idx : BitIndexInner} {t : Tree} {e o : BitIndexEntry} {p : BitPath} {a : BlobMode × Bytes}

theorem exists_fileOf {l : List (BitPath × BlobMode × Bytes)} {es : List BitIndexEntry} (h : List.Forall₂ FileOf l es) :
    (∀ x ∈ l, ∃ e ∈ es, FileOf x e) ∧ ∀ e ∈ es, ∃ x ∈ l, FileOf x e := by
  induction h with
  | nil => simp
  | cons hx _ ih =>
    refine ⟨fun y hy => ?_,fun y hy => ?_⟩
    · rcases List.mem_cons.mp hy with rfl | hy
      · exact ⟨_,List.mem_cons_self,hx⟩
      · exact (ih.1 y hy).imp fun e he => ⟨List.mem_cons_of_mem _ he.1,he.2⟩
    · rcases List.mem_cons.mp hy with rfl | hy
      · exact ⟨_,List.mem_cons_self,hx⟩
      · exact (ih.2 y hy).imp fun x hx => ⟨List.mem_cons_of_mem _ hx.1,hx.2⟩

/-- The index holds files, with a cache that can be trusted, and none of them stands below another one. -/
structure BitIndexInner.Tidy (idx : BitIndexInner) : Prop where
  valid : idx.Valid
  file : ∀ e ∈ idx.entries, e.isTree = false
  cache : idx.CacheExact
  free : ∀ e ∈ idx.entries, ∀ e' ∈ idx.entries, ¬e'.path.below e.path

namespace BitIndexInner.Tidy
variable (h : idx.Tidy) (ht : t.WellFormed)
include h ht

/-- A directory that the tree and the index list alike is one that the cache vouches for. -/
theorem exists_cached (hold : o ∈ treeIter (.tree t)) (hnew : o ∈ idx.indexTreeIter) (htree : o.isTree = true) :
    ∃ s : Tree, t.sub? o.path = some s ∧ s.flatten [] ≠ [] ∧ List.Forall₂ FileOf (s.flatten o.path) (idx.under o.path) := by
  rcases mem_indexTreeIter hnew with hn | ⟨d,rfl⟩
  · rw [h.file o hn] at htree
    cases htree
  obtain ⟨s,hsub,hoid⟩ := mem_treeIter_dir ht hold htree
  obtain ⟨c,hc,hc'⟩ := @validChild_of_pseudotree idx d (by rw [hoid]; rfl)
  obtain ⟨root,hroot,hfind⟩ := Option.bind_eq_some_iff.mp hc
  obtain ⟨hfind,hpos⟩ := Option.filter_eq_some_iff.mp hfind
  simp only [decide_eq_true_eq] at hpos
  obtain ⟨s',rfl,hcanon,hfiles⟩ := h.cache root hroot d c hfind (by simp [BitTreeCache.isValid,hpos.le])
  obtain rfl : s' = s := by
    have heq : Oid.tree s' = .tree s := hc'.symm.trans hoid
    exact Oid.tree.inj heq
  refine ⟨s',hsub,fun hnil => ?_,hfiles⟩
  rw [BitTreeCache.readTree,BitTreeCache.readEntries_count,hnil] at hpos
  exact absurd hpos (lt_irrefl _)

theorem has_of_empty (hempty : idx.diffTree (.tree t) = .empty) (hlook : t.look p = some (some a)) : idx.Has p (.blob a.2) := by
  obtain ⟨ts,hrun,hsilent⟩ := exists_run_empty hempty
  have hp : p.Normal := ht.normal (by simp [hlook])
  rcases accounted_old hrun hsilent (mem_treeIter_of_look ht hlook) rfl with ⟨n,hn,hblob,hbytes,hoid⟩ | ⟨o,hnew,hold,htree,hpre⟩
  · have hn' : n ∈ idx.entries := mem_entries_of_files (mem_files_iff.mpr ⟨hn,hblob⟩)
    exact ⟨n,hn',BitPath.asBytes_injective (h.valid.normal n hn').2 hp hbytes,hoid⟩
  · obtain ⟨s,hsub,-,hfiles⟩ := h.exists_cached ht hold hnew htree
    obtain ⟨q,rfl⟩ : ∃ q, o.path++q = p := hpre
    have hq : s.look q = some (some a) := (Forest.look_of_sub? hsub q).symm.trans hlook
    have hmem : (o.path++q,a) ∈ s.flatten o.path :=
      Tree.mem_flatten_iff.mpr ((Forest.mem_entries_leaf (ht.distinct.sub? hsub)).mpr hq)
    obtain ⟨e,he,hpath,-,hoid,-⟩ := (exists_fileOf hfiles).1 _ hmem
    exact ⟨e,(List.mem_filter.mp he).1,hpath,hoid⟩

theorem look_of_empty (hempty : idx.diffTree (.tree t) = .empty) (he : e ∈ idx.entries) :
    ∃ a, t.look e.path = some (some a) ∧ e.oid = .blob a.2 := by
  obtain ⟨ts,hrun,hsilent⟩ := exists_run_empty hempty
  have he' : e ∈ idx.indexTreeIter := List.mem_cons_of_mem _ ((sublist_indexTreeIterFrom _ _).subset he)
  rcases accounted_new hrun hsilent he' (h.file e he) with ⟨o,ho,hblob,hbytes,hoid⟩ | ⟨o,hold,hnew,htree,hpre⟩
  · obtain ⟨a,hlook,ha⟩ := mem_treeIter_file ht ho hblob
    have hpath : o.path = e.path := BitPath.asBytes_injective (ht.normal (by simp [hlook])) (h.valid.normal e he).2 hbytes
    exact ⟨a,hpath ▸ hlook,hoid.symm.trans ha⟩
  · obtain ⟨s,hsub,hne,hfiles⟩ := h.exists_cached ht hold hnew htree
    have hbelow : e.path.below o.path := by
      refine BitPath.below_iff.mpr ⟨hpre,fun hpath => ?_⟩
      -- an entry below the directory would stand below this one
      obtain ⟨x,hx⟩ := List.exists_mem_of_ne_nil _ hne
      have hx' : (o.path++x.1,x.2) ∈ s.flatten o.path := Tree.flatten_map o.path s ▸ List.mem_map_of_mem hx
      obtain ⟨y,hy,-⟩ := (exists_fileOf hfiles).1 _ hx'
      obtain ⟨hy,hbelow⟩ := List.mem_filter.mp hy
      exact h.free e he y hy (hpath ▸ hbelow)
    obtain ⟨x,hx,hpath,-,hoid,-⟩ := (exists_fileOf hfiles).2 e (List.mem_filter.mpr ⟨he,hbelow⟩)
    obtain ⟨q,hq⟩ := hpre
    have hx' : (o.path++q,x.2) ∈ s.flatten o.path := by
      rw [hq,hpath]
      exact hx
    have hlook : s.look q = some (some x.2) :=
      (Forest.mem_entries_leaf (ht.distinct.sub? hsub)).mp (Tree.mem_flatten_iff.mp hx')
    exact ⟨x.2,by rw [← hq,Forest.look_of_sub? hsub q,hlook],hoid⟩

end BitIndexInner.Tidy

end Staged

/-! ### The index and the worktree -/

section Unstaged
variable {env : Env} {r r' : Repo} {m : List (BitIndexEntry × BitIndexEntry)} {e : BitIndexEntry} {p : BitPath} {f : FileNode}

namespace Joined
variable (hj : Joined env r [] m []) (hv : r.index.Valid) (hw : r.worktree.WellFormed)
include hj hv hw

/-- Where nothing is deleted and nothing changed each entry has its file. -/
theorem file_of_entry (htrue : Settled r) (hyes : withVerdict r.indexMtime r.worktree .Yes m = []) (he : e ∈ r.index.entries) :
    ∃ f, r.worktree.look e.path = some (some f) ∧ e.mode = .blob f.mode ∧ e.oid = .blob f.contents := by
  obtain ⟨n,hm⟩ := (hj.mem_left.mp he).resolve_left List.not_mem_nil
  obtain ⟨f,hf,hn,hhashed⟩ := Worktree.hashed_of_vouched (hj.vouched_paired hw hm)
  have hpath := hj.path_eq hv hw hm
  refine ⟨f,hpath ▸ hf,?_⟩
  cases hverdict : verdict r.indexMtime r.worktree (e,n) with
  | Yes =>
    have hlisted : (e,n) ∈ withVerdict r.indexMtime r.worktree .Yes m := List.mem_filter.mpr ⟨hm,by simp [hverdict]⟩
    rw [hyes] at hlisted
    exact absurd hlisted List.not_mem_nil
  | No =>
    have hno := verdict_no.mp hverdict
    rw [hn,← hpath] at hno
    refine (htrue e he f (hpath ▸ hf) (fun x hx hxp => ?_) hno).2
    rcases hj.first_paired hv hw hm hx (hxp.trans hpath) with rfl | hlt
    · exact le_refl _
    · exact hlt.le
  | Maybe =>
    obtain ⟨hmaybe,hoid⟩ := verdict_maybe.mp hverdict
    have hmode := (hasChangesInner_maybe hmaybe).2
    rw [hhashed] at hoid
    rw [hn] at hmode
    exact ⟨hmode,hoid⟩

theorem entry_of_file (hf : r.worktree.look p = some (some f))
    (hign : isIgnored env.gitignore r.index r.worktree (f.toEntry p) = false) : ∃ e ∈ r.index.entries, e.path = p := by
  have hwalk := (Worktree.mem_worktreeIter hw).mpr ⟨Worktree.vouched_file hf,hign⟩
  obtain ⟨o,hm⟩ := (hj.mem_right.mp hwalk).resolve_left List.not_mem_nil
  exact ⟨o,hj.mem_paired hm,hj.path_eq hv hw hm⟩

end Joined

theorem status_parts {st : BitStatus} (h : status env r = .ok st r') :
    st.staged = r.index.diffTree r.headTree ∧ ∃ s, diffWorktree env r = .ok st.unstaged s := by
  unfold status at h
  rw [run_getBind,bind_of_ok (lift_ok.mpr (diffHeadIndex_run r))] at h
  obtain ⟨unstaged,s,hunstaged,h⟩ := bind_ok.mp h
  obtain ⟨conflicted,s₁,-,h⟩ := bind_ok.mp h
  obtain ⟨oid,s₂,-,h⟩ := bind_ok.mp h
  obtain ⟨rfl,-⟩ : _ = st ∧ s₂ = r' := by simpa using h
  exact ⟨rfl,s,lift_ok.mp hunstaged⟩

theorem eq_empty_of_isEmpty {s : WorkspaceStatus} (h : s.isEmpty = true) : s = .empty := by
  obtain ⟨new,modified,deleted⟩ := s
  simp only [WorkspaceStatus.isEmpty,Bool.and_eq_true,List.isEmpty_iff] at h
  obtain ⟨⟨rfl,rfl⟩,rfl⟩ := h
  rfl

/-- The file `f` of HEAD was made executable and added; the directory `d` is as it was, and one more file is ignored. -/
def unreportedRepo : Repo where
  commits := [⟨.node [100] (.leaf [120] (.REG,[1]) .nil) (.leaf [102] (.REG,[97]) .nil),[],(1,0)⟩]
  head := .Direct 0
  refs := []
  index := ⟨[⟨[[100],[120]],.blob .REG,.blob [1],.NONE,⟨1,2,1⟩⟩,⟨[[102]],.blob .EXEC,.blob [97],.NONE,⟨5,1,1⟩⟩],
    some (.readTree (.node [100] (.leaf [120] (.REG,[1]) .nil) (.leaf [102] (.EXEC,[97]) .nil)))⟩
  indexMtime := some 50
  worktree := .node [100] (.leaf [120] ⟨.REG,[1],1,2⟩ .nil) (.leaf [102] (sampleFile .EXEC 5 1) (.leaf [105] (sampleFile .REG 6 3) .nil))
  clock := 0

example : status ignoringEnv unreportedRepo = .ok ⟨.Direct 0,false,.empty,.empty,[]⟩ unreportedRepo := by rfl

end Unstaged

end Libbit
