import Libbit.Clean
import Libbit.MergeBaseInvariant
import Libbit.WalkSpec

/-! The virtual merge base. Where two commits have two merge bases, these are merged into a commit
of their own, and the merge is made in place: on the index and on the worktree of the user. They
are as before only where each item of the walk finds what it would write already there. -/
namespace Libbit

open Lib

def Oid.blob? : Oid → Option Bytes
  | .blob b => some b
  | _ => none

section Quiet
variable (env : Env) (ctx : MergeCtxt) (H : Tree)

/-- What the content merge of three known blobs comes to. -/
def mergedBytes (base : Option BitIndexEntry) (ours theirs : BitIndexEntry) : Option (Except Bytes Bytes) := do
  let b ← base.elim (some []) fun e => e.oid.blob?
  let o ← ours.oid.blob?
  let t ← theirs.oid.blob?
  some (env.merge ctx.theirHeadDesc b o t)

/-- The content merge is not made, has no file to write to, or writes what the file starts with. -/
def quietMerge (base : Option BitIndexEntry) (ours theirs : BitIndexEntry) : Bool :=
  ours.mode ≠ theirs.mode || H.noFile ours.path ||
    match mergedBytes env ctx base ours theirs with
    | some (.ok merged) => (H.blob? ours.path).any fun a => a.1 ≠ .LINK && merged.isPrefixOf a.2
    | _ => false

/-- The cell leaves a repository alone that is in step with the tree. A conflict never does. -/
def quiet (base : Option BitIndexEntry) : MergeDiffEntry → MergeDiffEntry → Bool
  | .DeletedBlob entry, .DeletedBlob _ => H.blob? entry.path = none
  | .DeletedBlob _, .ModifiedBlob _ => false
  | .ModifiedBlob _, .DeletedBlob _ => false
  | .DeletedBlob ours, .UnmodifiedBlob _ => H.blob? ours.path = none
  | .CreatedBlob ours, .CreatedBlob theirs => quietMerge env ctx H base ours theirs
  | .ModifiedBlob ours, .ModifiedBlob theirs => quietMerge env ctx H base ours theirs
  | .ModifiedBlob entry, .UnmodifiedBlob _ => H.hasEntry entry
  | .ModifiedBlob _, .BlobToTree _ => false
  | .BlobToTree _, .ModifiedBlob _ => false
  | .ModifiedTree _, .TreeToBlob _ => false
  | .TreeToBlob _, .ModifiedTree _ => false
  | .UnmodifiedTree tree, .DeletedTree _ => H.noDir tree.path
  | .UnmodifiedBlob _, .ModifiedBlob theirs =>
    H.noFile theirs.path || (H.blob? theirs.path).any fun a => a.1 = .REG && theirs.oid = .blob a.2
  | .UnmodifiedBlob _, .BlobToTree tree => H.noFile tree.path
  | .CreatedBlob _, .CreatedTree _ => false
  | .CreatedTree _, .CreatedBlob _ => false
  | .DeletedTree entry, .DeletedTree _ => !H.isDir entry.path
  | .UnmodifiedTree ours, .TreeToBlob _ => H.noDir ours.path
  | .UnmodifiedBlob _, .DeletedBlob theirs => H.noFile theirs.path
  | .DeletedTree _, .TreeToBlob theirs => H.look theirs.path ≠ none
  | .TreeToBlob ours, .TreeToBlob theirs => quietMerge env ctx H none ours theirs
  | _, _ => true

def quietOurs : MergeDiffEntry → Bool
  | .CreatedBlob entry => H.hasEntry entry
  | _ => true

/-- A file that is in the way of one of theirs is only reported. -/
def quietTheirs : MergeDiffEntry → Bool
  | .CreatedBlob entry => H.isDir entry.path || (H.blob? entry.path).any fun a => a.1 ≠ .LINK
  | .CreatedTree tree => H.look tree.path ≠ none
  | _ => true

def quietItem : List (Option BitIndexEntry) → Bool
  | [base,ours,theirs] =>
    match diffBaseToOther base ours, diffBaseToOther base theirs with
    | none, some baseToTheirs => quietTheirs H baseToTheirs
    | some baseToOurs, none => quietOurs H baseToOurs
    | some baseToOurs, some baseToTheirs => quiet env ctx H base baseToOurs baseToTheirs
    | none, none => true
  | _ => true

end Quiet

section Cells
variable {env : Env} {ctx : MergeCtxt} {H : Tree} (hH : H.WellFormed)
include hH

omit hH in
theorem readToBytes_blob {e : BitIndexEntry} {b : Bytes} (h : e.oid.blob? = some b) : e.readToBytes = pure b := by
  cases hoid : e.oid with
  | blob c =>
    obtain rfl : c = b := by simpa [hoid,Oid.blob?] using h
    simp [BitIndexEntry.readToBytes,hoid]
  | _ => simp [hoid,Oid.blob?] at h

omit hH in
/-- Three known blobs are merged without looking at the worktree. -/
theorem threeWayMerge_known {base : Option BitIndexEntry} {ours theirs : BitIndexEntry} {m : Except Bytes Bytes}
    (hmode : ours.mode = theirs.mode) (h : mergedBytes env ctx base ours theirs = some m) :
    threeWayMerge env ctx base ours theirs = nextStamp env >>= fun stamp => writeMerged base ours theirs stamp.1 m := by
  simp only [mergedBytes,Option.bind_eq_bind,Option.bind_eq_some_iff] at h
  obtain ⟨b,hb,o,ho,t,ht,hm⟩ := h
  obtain rfl := Option.some.inj hm
  have hbase : readBase base = pure b := by
    cases base with
    | none =>
      obtain rfl : [] = b := by simpa using hb
      rfl
    | some e => exact readToBytes_blob hb
  simp only [threeWayMerge,hbase,hmode,readToBytes_blob ho,readToBytes_blob ht,pure_bind,ne_eq,not_true_eq_false,if_false]

theorem threeWayMerge_quiet {base : Option BitIndexEntry} {ours theirs : BitIndexEntry} (hours : ours.FromTree)
    (h : quietMerge env ctx H base ours theirs = true) : Holds (Synced H) (threeWayMerge env ctx base ours theirs) := by
  have hbase : Holds (Synced H) (readBase base) := by
    cases base with
    | none => exact Keeps.pure _
    | some b => exact Holds.readToBytes b
  by_cases hmode : ours.mode = theirs.mode
  · by_cases hfile : H.noFile ours.path = true
    · -- there is no file to open
      refine hbase.bind fun _ => Keeps.ite (fun h => absurd hmode h) fun _ => (Holds.readToBytes _).bind fun _ =>
        (Holds.readToBytes _).bind fun _ => (Holds.nextStamp stableClock_synced env).bind fun stamp => ?_
      unfold writeMerged
      split
      · exact ((openAndWrite_fails hours.normal hfile _ _).bind _).holds
      · exact ((openAndWrite_fails hours.normal hfile _ _).bind _).holds
    · simp only [quietMerge,hmode,ne_eq,not_true_eq_false,decide_false,hfile,Bool.false_or] at h
      split at h
      · rename_i merged hmerged
        obtain ⟨a,ha,hsame⟩ := (Option.any_eq_true _ _).mp h
        obtain ⟨hlink,hpre⟩ : a.1 ≠ .LINK ∧ merged <+: a.2 := by simpa using hsame
        rw [threeWayMerge_known hmode hmerged]
        exact (Holds.nextStamp stableClock_synced env).bind fun stamp =>
          (openAndWrite_synced hours.normal ha hlink hpre _).seq (addEntryFromPath_synced hH hours.normal ha)
      · simp at h
  · exact hbase.bind fun _ => Keeps.ite (fun _ => Keeps.throw trivial) fun h => absurd hmode h

omit hH in
theorem isDir_of_noDir {p : BitPath} (h : H.noDir p = true) : H.isDir p = false := by
  rcases Bool.or_eq_true_iff.mp h with h | h
  · simp [Tree.isDir,(Tree.absent_iff.mp h).1]
  · obtain ⟨a,ha,-⟩ := (Option.any_eq_true _ _).mp h
    simp [Tree.isDir,Tree.blob?_eq_some.mp ha]

omit hH in
theorem blob?_of_noFile {p : BitPath} (h : H.noFile p = true) : H.blob? p = none := by
  rcases Bool.or_eq_true_iff.mp h with h | h
  · simp [Tree.blob?,(Tree.absent_iff.mp h).1]
  · have hdir : H.look p = some none := by simpa [Tree.isDir] using h
    simp [Tree.blob?,hdir]

theorem mergeEntry_quiet {base : Option BitIndexEntry} {o t : MergeDiffEntry} (ho : o.entry.FromTree) (ht : t.entry.FromTree)
    (h : quiet env ctx H base o t = true) : Holds (Synced H) (mergeEntry env ctx base o t) := by
  unfold mergeEntry
  split
  · exact removeEntry_synced hH ho.stage (by simpa [quiet,BitIndexEntry.key] using h)
  · exact absurd h (by simp [quiet])
  · exact absurd h (by simp [quiet])
  · exact removeEntry_synced hH ho.stage (by simpa [quiet,BitIndexEntry.key] using h)
  · exact threeWayMerge_quiet hH ho h
  · exact threeWayMerge_quiet hH ho h
  · exact addEntry_synced hH ho.normal ho.stat h
  · exact absurd h (by simp [quiet])
  · exact absurd h (by simp [quiet])
  · exact absurd h (by simp [quiet])
  · exact absurd h (by simp [quiet])
  · exact (removeDirectory_synced hH (isDir_of_noDir h)).seq (removeDirAll_fails ho.normal h).holds
  · rename_i theirs
    rcases Bool.or_eq_true_iff.mp h with h | h
    · exact ((removeFile_fails ht.normal h).bind _).holds
    · obtain ⟨⟨mode,b⟩,ha,hsame⟩ := (Option.any_eq_true _ _).mp h
      obtain ⟨rfl,hoid⟩ : mode = .REG ∧ theirs.oid = .blob b := by simpa using hsame
      exact updateBlob_synced env hH ht.normal ht.stat hoid ha
  · exact ((removeFile_fails ht.normal h).bind _).holds
  · exact absurd h (by simp [quiet])
  · exact absurd h (by simp [quiet])
  · exact removeDirectory_synced hH (by simpa [quiet] using h)
  · exact ((removeDirAll_fails ho.normal h).bind _).holds
  · -- the removal fails and the failure is passed over
    exact (Keeps.tryCatch (removeFile_fails ht.normal h).holds fun _ => Keeps.pure _).seq
      (removeEntry_synced hH ht.stage (blob?_of_noFile h))
  · have hlook := of_decide_eq_true h
    exact ((Fails.after (Holds.readToBytes _) fun b => touchAndWrite_fails ht.normal env hlook b).bind _).holds
  · exact threeWayMerge_quiet hH ho h
  all_goals first | exact Keeps.pure _ | exact Keeps.throw trivial

omit hH in
theorem baseToTheirsOnly_quiet (u : List BitPath) {d : MergeDiffEntry} (hd : d.entry.FromTree) (h : quietTheirs H d = true) :
    Holds (Synced H) (baseToTheirsOnly env u d) := by
  unfold baseToTheirsOnly
  split
  · rename_i e
    intro r hr
    -- the path exists, so that it is only reported
    have hmeta : ∃ m, r.worktree.metadata e.path = .ok m := by
      rcases Bool.or_eq_true_iff.mp h with h | h
      · exact ⟨_,Worktree.metadata_eq hd.normal (look_dir hr.files h) (by simp)⟩
      · obtain ⟨a,ha,hlink⟩ := (Option.any_eq_true _ _).mp h
        obtain ⟨f,hf,rfl⟩ := look_file hr.files ha
        exact ⟨_,Worktree.metadata_eq hd.normal hf (by rintro g ⟨⟩; exact of_decide_eq_true hlink)⟩
    obtain ⟨m,hm⟩ := hmeta
    have hexists : pathExists e.path r = .ok true r := ioGet_ok.mpr ⟨by simp [Worktree.tryExists,hm],rfl⟩
    have hrun : baseToTheirsOnly env u (.CreatedBlob e) r = .ok (u++[e.path]) r := (bind_of_ok hexists).trans rfl
    simp only [baseToTheirsOnly] at hrun
    rw [hrun]
    exact hr
  · exact ((mkdir_fails hd.normal (of_decide_eq_true h)).bind _).holds
  · exact Keeps.throw trivial

theorem mergeItem_quiet (u : List BitPath) {base ours theirs : Option BitIndexEntry}
    (hfrom : ∀ e, e ∈ base ∨ e ∈ ours ∨ e ∈ theirs → e.FromTree) (h : quietItem env ctx H [base,ours,theirs] = true) :
    Holds (Synced H) (mergeItem env ctx u [base,ours,theirs]) := by
  have hours {d : MergeDiffEntry} (hd : diffBaseToOther base ours = some d) : d.entry.FromTree :=
    hfrom _ ((entry_of_diff hd).imp_right .inl)
  have htheirs {d : MergeDiffEntry} (hd : diffBaseToOther base theirs = some d) : d.entry.FromTree :=
    hfrom _ ((entry_of_diff hd).imp_right .inr)
  simp only [mergeItem,mergeEntries]
  simp only [quietItem] at h
  split
  · exact Keeps.pure _
  · rename_i d ho ht
    simp only [ho,ht] at h
    exact baseToTheirsOnly_quiet u (htheirs ht) h
  · rename_i d ho ht
    simp only [ho,ht] at h
    refine Keeps.seq ?_ (Keeps.pure _)
    unfold baseToOursOnly
    split
    · exact addEntry_synced hH (hours ho).normal (hours ho).stat h
    · exact Keeps.pure _
    · exact Keeps.throw trivial
  · rename_i o t ho ht
    simp only [ho,ht] at h
    exact (mergeEntry_quiet hH (hours ho) (htheirs ht) h).seq (Keeps.pure _)

/-- The walk over three well-formed trees, item by item. -/
theorem mergeTrees_quiet (u : List BitPath) {base ours theirs : Oid} (hbase : base.treeish.WellFormed)
    (hours : ours.treeish.WellFormed) (htheirs : theirs.treeish.WellFormed)
    (h : ∀ item ∈ walk3 (treeIter base) (treeIter ours) (treeIter theirs), quietItem env ctx H item = true) :
    Holds (Synced H) (mergeTrees env ctx u base ours theirs) := by
  refine Keeps.foldlM (fun item hitem u => ?_) u
  obtain ⟨b,o,t,rfl,hb,ho,ht⟩ := mem_walk3 hitem
  refine mergeItem_quiet hH u ?_ (h _ hitem)
  rintro e (he | he | he)
  · exact fromTree_treeIter hbase (hb e he)
  · exact fromTree_treeIter hours (ho e he)
  · exact fromTree_treeIter htheirs (ht e he)

end Cells

section Recursion

/-- The tree of a merge base; that of a virtual one is the tree of HEAD when its merge was quiet. -/
def Repo.baseTree (r : Repo) (ours theirs : ℕ) : Oid :=
  match MergeBase.findMergeBases r.graph ours theirs with
  | some [c] => .tree (r.treeOf c)
  | some [_,_] => .tree r.headTree.treeish
  | _ => .UNKNOWN

/-- Every merge of two merge bases, at each level of the recursion, consists of quiet items. -/
def Repo.QuietBase (r : Repo) (env : Env) (ctx : MergeCtxt) : ℕ → ℕ → ℕ → Prop
  | 0, _, _ => True
  | fuel+1, ours, theirs =>
    match MergeBase.findMergeBases r.graph ours theirs with
    | some [a,b] => r.QuietBase env ctx fuel a b ∧
      ∀ item ∈ walk3 (treeIter (r.baseTree a b)) (treeIter (.tree (r.treeOf a))) (treeIter (.tree (r.treeOf b))),
        quietItem env ctx r.headTree.treeish item = true
    | _ => True

instance Repo.decidableQuietBase (r : Repo) (env : Env) (ctx : MergeCtxt) :
    (fuel ours theirs : ℕ) → Decidable (r.QuietBase env ctx fuel ours theirs)
  | 0, _, _ => isTrue trivial
  | fuel+1, ours, theirs => by
    have := r.decidableQuietBase env ctx fuel
    unfold Repo.QuietBase
    split <;> infer_instance

/-- The same refs, and commits that were only added. -/
structure Grown (r s : Repo) : Prop where
  head : s.head = r.head
  refs : s.refs = r.refs
  commits : r.commits <+: s.commits

theorem Grown.refl (r : Repo) : Grown r r := ⟨rfl,rfl,List.prefix_refl _⟩

theorem Grown.treeOf {r s : Repo} (h : Grown r s) {c : ℕ} (hc : c < r.commits.length) : s.treeOf c = r.treeOf c := by
  obtain ⟨l,hl⟩ := h.commits
  simp only [Repo.treeOf,← hl,List.getElem?_append_left hc]

theorem holds_grown {r : Repo} : StableIndex (Grown r) ∧ StableWorktree (Grown r) ∧ StableClock (Grown r) :=
  ⟨fun _ _ h => ⟨h.head,h.refs,h.commits⟩,fun _ _ h => ⟨h.head,h.refs,h.commits⟩,fun _ _ h => ⟨h.head,h.refs,h.commits⟩⟩

/-- A merge base is no newer than the heads. -/
theorem base_le {r : Repo} {a b : ℕ} {l : List ℕ} (h : MergeBase.findMergeBases r.graph a b = some l) {x : ℕ} (hx : x ∈ l) :
    x ≤ a :=
  (MergeBase.common_of_mem h hx).1.antitone (f := id) fun {_ _} he => (r.graph.level_parents he).le

theorem treeOf_wellFormed {r : Repo} (h : ∀ c ∈ r.commits, c.tree.WellFormed) (c : ℕ) : (r.treeOf c).WellFormed := by
  unfold Repo.treeOf
  cases hc : r.commits[c]? with
  | none => exact trivial
  | some x => exact h x (List.mem_of_getElem? hc)

/-- In step with HEAD as before, with commits that were only added. -/
def Unharmed (r s : Repo) : Prop := Synced r.headTree.treeish s ∧ Grown r s

theorem writeCommit_unharmed {env : Env} {r s : Repo} {t : Tree} {ps : List ℕ} (h : Unharmed r s) :
    Ends (fun c s' => Unharmed r s' ∧ s'.treeOf c = t) (Unharmed r) (writeCommit env t ps s) := by
  simp only [writeCommit,run_getBind]
  cases env.now with
  | none => exact h
  | some now =>
    obtain ⟨hs,hg⟩ := h
    by_cases hold : (ps.all fun p => s.graph.time p ≤ now) = true
    · simp only [hold,if_true]
      refine ⟨⟨⟨hs.index,hs.cache,hs.files⟩,⟨hg.head,hg.refs,hg.commits.trans (List.prefix_append _ _)⟩⟩,?_⟩
      simp [Repo.treeOf]
    · simp only [hold]
      exact ⟨hs,hg⟩

/-- What a level of the recursion hands on: a base with the expected tree. -/
def Handed (r : Repo) (ours theirs : ℕ) (x : List BitPath × Option ℕ) (s : Repo) : Prop :=
  Unharmed r s ∧ (x.2.elim Oid.UNKNOWN fun c => .tree (s.treeOf c)) = r.baseTree ours theirs

theorem baseTree_wellFormed {r : Repo} (hr : r.Clean) (htrees : ∀ c ∈ r.commits, c.tree.WellFormed) (a b : ℕ) :
    (r.baseTree a b).treeish.WellFormed := by
  unfold Repo.baseTree
  split
  · exact treeOf_wellFormed htrees _
  · exact hr.wellFormed
  · exact trivial

theorem mergeCommits_unharmed {env : Env} {ctx : MergeCtxt} {r s : Repo} (hr : r.Clean)
    (htrees : ∀ c ∈ r.commits, c.tree.WellFormed) (hs : Unharmed r s) {a b : ℕ} (ha : a < r.commits.length)
    (hb : b < r.commits.length) {base : Option ℕ}
    (hbase : (base.elim Oid.UNKNOWN fun c => .tree (s.treeOf c)) = r.baseTree a b)
    (hitems : ∀ item ∈ walk3 (treeIter (r.baseTree a b)) (treeIter (.tree (r.treeOf a))) (treeIter (.tree (r.treeOf b))),
      quietItem env ctx r.headTree.treeish item = true) (u : List BitPath) :
    Ends (fun _ => Unharmed r) (Unharmed r) (mergeCommits env ctx u base a b s) := by
  obtain ⟨hi,hw,hc⟩ := holds_grown (r := r)
  have hquiet : Holds (Synced r.headTree.treeish)
      (mergeTrees env ctx u (r.baseTree a b) (.tree (r.treeOf a)) (.tree (r.treeOf b))) :=
    mergeTrees_quiet hr.wellFormed u (baseTree_wellFormed hr htrees a b) (treeOf_wellFormed htrees a)
      (treeOf_wellFormed htrees b) hitems
  have hgrown : Holds (Grown r) (mergeTrees env ctx u (r.baseTree a b) (.tree (r.treeOf a)) (.tree (r.treeOf b))) :=
    Holds.mergeTrees hi hw hc env ctx u _ _ _
  simp only [mergeCommits,run_getBind,hbase,hs.2.treeOf ha,hs.2.treeOf hb]
  exact Ends.of_keeps (hquiet.and hgrown) hs

theorem mergeBaseRecursive_quiet {env : Env} {ctx : MergeCtxt} {r : Repo} (hr : r.Clean)
    (htrees : ∀ c ∈ r.commits, c.tree.WellFormed) {fuel ours theirs : ℕ} (hours : ours < r.commits.length)
    (hq : r.QuietBase env ctx fuel ours theirs) (u : List BitPath) :
    Ends (Handed r ours theirs) (Unharmed r) (mergeBaseRecursive env ctx fuel u ours theirs r) := by
  have hstart : Unharmed r r := ⟨hr.synced,Grown.refl r⟩
  induction fuel generalizing ours theirs u with
  | zero => exact hstart
  | succ fuel ih =>
    simp only [mergeBaseRecursive,run_getBind]
    cases hfind : MergeBase.findMergeBases r.graph ours theirs with
    | none => exact hstart
    | some l =>
      match l, hfind with
      | [], hfind => exact ⟨hstart,by simp [Repo.baseTree,hfind]⟩
      | [c], hfind => exact ⟨hstart,by simp [Repo.baseTree,hfind]⟩
      | [a,b], hfind =>
        simp only [Repo.QuietBase,hfind] at hq
        obtain ⟨hqa,hitems⟩ := hq
        have ha : a < r.commits.length := (base_le hfind (by simp)).trans_lt hours
        have hb : b < r.commits.length := (base_le hfind (by simp)).trans_lt hours
        refine Ends.bind (ih ha hqa u) fun x s hx => ?_
        obtain ⟨hs,hbase⟩ := hx
        refine Ends.bind (mergeCommits_unharmed hr htrees hs ha hb hbase hitems x.1) fun v s₁ hs₁ => ?_
        -- the index is still that of HEAD, so that the tree of the virtual commit is HEAD's
        have hcanon := hr.wellFormed.canonical
        rw [bind_of_ok (writeTree_described hcanon hs₁.1.index hs₁.1.cache)]
        have hs₂ : Unharmed r {s₁ with index := {s₁.index with treeCache := some (.readTree r.headTree.treeish)}} :=
          ⟨⟨hs₁.1.index,BitIndexInner.cacheExact_readTree hcanon hs₁.1.index rfl,hs₁.1.files⟩,holds_grown.1 _ _ hs₁.2⟩
        refine Ends.bind (writeCommit_unharmed hs₂) fun c s₃ hc => ⟨hc.1,?_⟩
        simp [Repo.baseTree,hfind,hc.2]
      | _::_::_::_, _ => exact hstart

/-- Finding the merge base leaves the index, the files and the refs alone when every merge that is
made for it is quiet. -/
theorem mergeBaseRecursive_leaves_alone (env : Env) (ctx : MergeCtxt) (r : Repo) (hr : r.Clean)
    (htrees : ∀ c ∈ r.commits, c.tree.WellFormed) (fuel ours theirs : ℕ) (hours : ours < r.commits.length)
    (hq : r.QuietBase env ctx fuel ours theirs) (u : List BitPath) :
    let s := final (mergeBaseRecursive env ctx fuel u ours theirs r)
    (∀ k, s.index.view k = r.index.view k) ∧ (∀ p, s.worktree.shape p = r.worktree.shape p) ∧ Grown r s := by
  intro s
  obtain ⟨hs,hg⟩ : Unharmed r s := (mergeBaseRecursive_quiet hr htrees hours hq u).final fun _ _ h => h.1
  have hview := ((BitIndexInner.describes_iff hr.wellFormed).mp hs.index).2
  have hview' := ((BitIndexInner.describes_iff hr.wellFormed).mp hr.synced.index).2
  exact ⟨fun k => (hview k).trans (hview' k).symm,fun p => (hs.files p).trans (hr.synced.files p).symm,hg⟩

/-- Two branches that were merged into each other, so that they have two merge bases: one brought in
the file `a`, the other the file `b`. The last commit takes `a` away again. -/
def crissCross : List Commit :=
  let f : Tree := .leaf [102] (.REG,[1]) .nil
  [⟨f,[],(1,0)⟩,⟨.leaf [97] (.REG,[1]) f,[0],(2,0)⟩,⟨.leaf [98] (.REG,[1]) f,[0],(2,0)⟩,
    ⟨.leaf [97] (.REG,[1]) (.leaf [98] (.REG,[1]) f),[1,2],(3,0)⟩,
    ⟨.leaf [97] (.REG,[1]) (.leaf [98] (.REG,[1]) f),[2,1],(3,0)⟩,⟨.leaf [98] (.REG,[1]) f,[3],(4,0)⟩]

/-- HEAD still has both files, so that the virtual base finds all it would write. -/
theorem mergeBaseRecursive_leaves_merged :
    let r := Repo.cloned crissCross 3
    let s := final (mergeBaseRecursive .plain ⟨[],4,3,⟨false,false⟩,r.index⟩ 8 [] 3 4 r)
    MergeBase.findMergeBases r.graph 3 4 = some [1,2] ∧
      (∀ k, s.index.view k = r.index.view k) ∧ (∀ p, s.worktree.shape p = r.worktree.shape p) ∧ Grown r s := by
  intro r s
  refine ⟨by decide +kernel,mergeBaseRecursive_leaves_alone .plain _ r (Repo.cloned_clean (by decide)) ?_ 8 3 4 (by decide) ?_ []⟩
  · decide
  · decide +kernel

/-- HEAD has lost the file `a`, and looking for the merge base brings it back. -/
theorem mergeBaseRecursive_revives_file :
    let r := Repo.cloned crissCross 5
    let s := final (mergeBaseRecursive .plain ⟨[],4,5,⟨false,false⟩,r.index⟩ 10 [] 5 4 r)
    r.Clean ∧ MergeBase.findMergeBases r.graph 5 4 = some [2,1] ∧ MergeBase.findMergeBases r.graph 2 1 = some [0] ∧
      r.worktree.look [[97]] = none ∧
      ¬((∀ k, s.index.view k = r.index.view k) ∧ ∀ p, s.worktree.shape p = r.worktree.shape p) := by
  intro r s
  refine ⟨Repo.cloned_clean (by decide),by decide +kernel,by decide +kernel,by decide,fun h => ?_⟩
  have hview : s.index.view ([[97]],.NONE) ≠ r.index.view ([[97]],.NONE) := by decide +kernel
  exact hview (h.1 _)

end Recursion
end Libbit
