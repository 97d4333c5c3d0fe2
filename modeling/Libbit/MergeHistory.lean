import Libbit.History
import Libbit.MergeBaseExact

/-! What a merge makes of the history (`merge.rs`): which of its results it comes to is decided by which head is an ancestor of
which, and what it leaves of the commits and the refs goes with the result. -/
namespace Libbit

open Lib

/-! ### Merge bases of heads of which one is an ancestor of the other -/

namespace MergeBase
variable {Oid : Type} [DecidableEq Oid] {g : CommitGraph Oid} {a b : Oid}

/-- Without a race nothing but the best common ancestors is left. -/
theorem findMergeBases_eq_singleton (hm : g.Monotone) (hraced : ∀ x, ¬Raced g a b x) {c : Oid}
    (hbest : ∀ x, g.toDag.Best a b x ↔ x = c) : findMergeBases g a b = some [c] := by
  obtain ⟨s,hs,⟨hi,hc,hch⟩,hend⟩ := buildCandidates_run
    (P := fun s => Inv g a b s ∧ Clocked g s ∧ Chained g a b s)
    ⟨inv_initial a b,clocked_initial a b,chained_initial a b⟩
    (by
      rintro s s' ⟨hi,hc,hch⟩ h
      exact ⟨inv_step hi h,clocked_step hm hc h,chained_step hch h⟩)
  have hmem : ∀ x, x ∈ s.candidates.filter (fun node => !(s.nodeFlags node).stale) ↔ x ∈ [c] := by
    intro x
    rw [List.mem_filter,Bool.not_eq_true',← Bool.not_eq_true,List.mem_singleton,← hbest]
    constructor
    · rintro ⟨hx,hst⟩
      by_contra hnb
      exact hraced x (raced_of_survivor hm hi hc hch hend hx hst hnb)
    · exact hi.best_mem hend
  have hperm : (s.candidates.filter fun node => !(s.nodeFlags node).stale).Perm [c] :=
    (List.perm_ext_iff_of_nodup (hi.nodup.filter _) (List.nodup_singleton c)).mpr hmem
  simp only [findMergeBases,mergeBasesAll,hs,Option.map_some,List.perm_singleton.mp hperm]

end MergeBase

/-! ### A merge, by its result -/

/-- What a merge of `theirs` into `ours` returns, and what it has made of the history by then. -/
inductive Merged (r : Repo) (ours theirs : ℕ) (opts : MergeOpts) : MergeResults → Repo → Prop
  /-- theirs is a part of our history already -/
  | null {r' : Repo} (h : r.graph.toDag.Reach ours theirs) (hsame : SameHistory r r') : Merged r ours theirs opts .Null r'
  /-- ours is a part of theirs: the branch goes there -/
  | fastForward {r' : Repo} (h : ¬r.graph.toDag.Reach ours theirs) (hours : r.graph.toDag.Reach theirs ours)
    (hff : opts.noFf = false) (hsame : SameHistory (r.moved theirs) r') : Merged r ours theirs opts (.FastForward ours theirs) r'
  /-- nothing moves before the conflicts are resolved -/
  | conflicts {r' : Repo} {cs : List (BitPath × ConflictType)} (h : ¬r.graph.toDag.Reach ours theirs)
    (hours : r.graph.toDag.Reach theirs ours → opts.noFf = true) (hext : Extends r r') : Merged r ours theirs opts (.Conflicts cs) r'
  | uncommitted {r' : Repo} (h : ¬r.graph.toDag.Reach ours theirs) (hours : r.graph.toDag.Reach theirs ours → opts.noFf = true)
    (hcommit : opts.noCommit = true) (hext : Extends r r') : Merged r ours theirs opts .Merge r'
  /-- the branch goes to a new commit, with ours as its first parent -/
  | committed {r₁ r' : Repo} {c : Commit} (h : ¬r.graph.toDag.Reach ours theirs)
    (hours : r.graph.toDag.Reach theirs ours → opts.noFf = true) (hcommit : opts.noCommit = false) (hext : Extends r r₁)
    (hparents : c.parents = [ours,theirs]) (hsame : SameHistory ((r₁.withCommit c).moved r₁.commits.length) r') :
    Merged r ours theirs opts .Merge r'

section Merge
variable {env : Env} {ctx : MergeCtxt} {r r' r₁ : Repo} {ours theirs : ℕ} {opts : MergeOpts}

theorem SameHistory.refl (r : Repo) : SameHistory r r := ⟨rfl,rfl,rfl⟩

theorem SameHistory.trans {r'' : Repo} (h : SameHistory r r') (h' : SameHistory r' r'') : SameHistory r r'' :=
  ⟨h'.1.trans h.1,h'.2.1.trans h.2.1,h'.2.2.trans h.2.2⟩

theorem SameHistory.moved (h : SameHistory r r') (target : ℕ) : SameHistory (r.moved target) (r'.moved target) := by
  obtain ⟨hc,hh,hr⟩ := h
  unfold Repo.moved
  rw [hh]
  cases r.head with
  | Direct o => exact ⟨hc,rfl,hr⟩
  | Symbolic sym => exact ⟨hc,rfl,by simp only [hr]⟩

theorem commitInvariant_sound : CommitInvariant Repo.Sound where
  sound h := h
  same hs h := h.of_same hs
  commit h hc := h.withCommit hc

theorem Repo.reach_antisymm {a b : ℕ} (h : r.graph.toDag.Reach a b) (h' : r.graph.toDag.Reach b a) : a = b :=
  le_antisymm (Repo.reach_le h') (Repo.reach_le h)

/-- The best common ancestor of a commit and one of its ancestors is the ancestor. -/
theorem best_iff_of_reach {a b : ℕ} (h : r.graph.toDag.Reach a b) (x : ℕ) :
    (r.graph.toDag.Best a b x ↔ x = b) ∧ (r.graph.toDag.Best b a x ↔ x = b) := by
  have hlt {y z : ℕ} (hyz : r.graph.toDag.Proper y z) : z < y := hyz.rank_lt
  have hbest {p q : ℕ} (hb : r.graph.toDag.Common p q b) (hle : ∀ y, r.graph.toDag.Common p q y → r.graph.toDag.Reach b y) :
      r.graph.toDag.Best p q x ↔ x = b := by
    constructor
    · rintro ⟨hcommon,hno⟩
      rcases Relation.reflTransGen_iff_eq_or_transGen.mp (hle x hcommon) with heq | hproper
      · exact heq
      · exact absurd hproper (hno b hb)
    · rintro rfl
      exact ⟨hb,fun y hy hyx => absurd (hlt hyx) (not_lt.mpr (Repo.reach_le (hle y hy)))⟩
  exact ⟨hbest ⟨h,.refl b⟩ fun y hy => hy.2,hbest ⟨.refl b,h⟩ fun y hy => hy.1⟩

/-- The base is one of the heads exactly if that head is an ancestor of the other, and then it is found without a merge. -/
theorem mergeBaseRecursive_heads (env : Env) (ctx : MergeCtxt) (fuel : ℕ) (u : List BitPath) (hs : r.Sound)
    (hours : r.isCommit ours) (htheirs : r.isCommit theirs) (hraced : ∀ x, ¬MergeBase.Raced r.graph ours theirs x) :
    Ends (fun x r' => r'.Sound ∧ Extends r r' ∧ (x.2 = some theirs ↔ r.graph.toDag.Reach ours theirs) ∧
        (x.2 = some ours ↔ r.graph.toDag.Reach theirs ours) ∧
        (r.graph.toDag.Reach ours theirs ∨ r.graph.toDag.Reach theirs ours → r' = r))
      (Extends r) (mergeBaseRecursive env ctx (fuel+1) u ours theirs r) := by
  have hfound {c : ℕ} (hc : MergeBase.findMergeBases r.graph ours theirs = some [c]) :
      mergeBaseRecursive env ctx (fuel+1) u ours theirs r = .ok (u,some c) r := by
    simp only [mergeBaseRecursive,run_getBind,hc,run_pure]
  by_cases h : r.graph.toDag.Reach ours theirs
  · rw [hfound (MergeBase.findMergeBases_eq_singleton hs.monotone hraced fun x => (best_iff_of_reach h x).1)]
    refine ⟨hs,.refl r,iff_of_true rfl h,?_,fun _ => rfl⟩
    rw [Option.some.injEq]
    constructor
    · rintro rfl
      exact h
    · exact fun h' => Repo.reach_antisymm h' h
  by_cases h' : r.graph.toDag.Reach theirs ours
  · rw [hfound (MergeBase.findMergeBases_eq_singleton hs.monotone hraced fun x => (best_iff_of_reach h' x).2)]
    refine ⟨hs,.refl r,iff_of_false (fun heq => h ?_) h,iff_of_true rfl h',fun _ => rfl⟩
    rw [Option.some.injEq] at heq
    exact heq ▸ .refl ours
  have hends : Ends (fun x r' => (r'.Sound ∧ Extends r r') ∧ Extends r r' ∧ BaseFor r r' ours theirs x.2)
      (fun r' => r'.Sound ∧ Extends r r') (mergeBaseRecursive env ctx (fuel+1) u ours theirs r) :=
    mergeBaseRecursive_ends (commitInvariant_sound.andExtends r) env ctx (fuel+1) u ⟨hs,.refl r⟩ hours
  refine hends.mono ?_ fun r' hr' => hr'.2
  rintro x r' ⟨⟨hs',hext⟩,-,hbase⟩
  exact ⟨hs',hext,iff_of_false (fun heq => h ((hbase _ heq).2 htheirs).1) h,
    iff_of_false (fun heq => h' ((hbase _ heq).2 hours).2) h',fun hor => (hor.elim h h').elim⟩

theorem writeCommit_run (env : Env) (t : Tree) (parents : List ℕ) (r : Repo) :
    Ends (fun oid r' => oid = r.commits.length ∧ ∃ c : Commit, c.parents = parents ∧ r' = r.withCommit c) (· = r)
      (writeCommit env t parents r) := by
  unfold writeCommit
  simp only [run_getBind]
  cases env.now with
  | none => exact rfl
  | some now => exact Ends.ite (fun _ => ⟨rfl,⟨t,parents,now⟩,rfl,rfl⟩) fun _ => rfl

theorem same_extends (h : SameHistory r r') : Extends r r' := (Extends.refl r).of_same h

theorem extends_invariant (r : Repo) : CommitInvariant fun r' => r'.Sound ∧ Extends r r' := commitInvariant_sound.andExtends r

/-- The commit of a merge, on top of both heads. -/
theorem commitMerge_run (env : Env) (ctx : MergeCtxt) (r : Repo) :
    Ends (fun _ r' => ∃ r₁ c, SameHistory r r₁ ∧ c.parents = [ctx.ourHead,ctx.theirHead] ∧
      r' = (r₁.withCommit c).moved r₁.commits.length) (Extends r) (commitMerge env ctx r) := by
  have htree := Ends.of_keeps (s := r) (Holds.writeTree stableIndex_history) (.refl r)
  refine Ends.bind (htree.mono (fun _ _ h => h) fun _ h => same_extends h) ?_
  rintro t r₁ hsame
  refine Ends.bind ((writeCommit_run env t _ r₁).mono (fun _ _ h => h) ?_) ?_
  · rintro r' rfl
    exact same_extends hsame
  · rintro oid r₂ ⟨rfl,c,hparents,rfl⟩
    rw [updateCurrentRef_run]
    exact ⟨r₁,c,hsame,hparents,rfl⟩

theorem checkoutTree_kept (env : Env) (t : Tree) (strategy : CheckoutStrategy) (r : Repo) :
    Kept (SameHistory r) (checkoutTreeWithOpts env t strategy) :=
  (kept_of_holds (Holds.checkoutIterator stableIndex_history stableWorktree_history stableClock_history env _ _)).seq
    (Keeps.ite (fun _ => kept_of_holds (Holds.updateCacheTree stableIndex_history _)) fun _ => Keeps.pure _)

theorem fastForward_run (env : Env) (ctx : MergeCtxt) (r : Repo) :
    Ends (fun x r' => x = .FastForward ctx.ourHead ctx.theirHead ∧ SameHistory (r.moved ctx.theirHead) r') (SameHistory r)
      (fastForward env ctx r) := by
  unfold fastForward
  simp only [run_getBind]
  refine Ends.bind (Ends.of_keeps (checkoutTree_kept env _ _ r) (SameHistory.refl r)) ?_
  rintro - r₁ hsame
  rw [bind_of_ok (updateCurrentRef_run ctx.theirHead r₁)]
  exact ⟨rfl,hsame.moved _⟩

/-- The result once the trees are merged. -/
theorem finishMerge_merged (env : Env) {ctx : MergeCtxt} (hext : Extends r r₁)
    (htheirs : ¬r.graph.toDag.Reach ctx.ourHead ctx.theirHead)
    (hours : r.graph.toDag.Reach ctx.theirHead ctx.ourHead → ctx.opts.noFf = true) :
    Ends (Merged r ctx.ourHead ctx.theirHead ctx.opts) (Extends r) (finishMerge env ctx r₁) := by
  unfold finishMerge
  simp only [run_getBind]
  refine Ends.ite (fun _ => ?_) fun _ => Ends.ite (fun hcommit => ?_) fun hcommit => ?_
  · cases r₁.index.conflicts with
    | none => exact hext
    | some cs => exact .conflicts htheirs hours hext
  · exact .uncommitted htheirs hours hcommit hext
  · refine Ends.bind ((commitMerge_run env ctx r₁).mono (fun _ _ h => h) fun _ h => hext.trans h) ?_
    rintro - r' ⟨r₂,c,hsame,hparents,rfl⟩
    exact .committed htheirs hours (Bool.eq_false_iff.mpr hcommit) (hext.of_same hsame) hparents (SameHistory.refl _)

/-- What is left to do once the base is known. -/
theorem mergeWithBase_merged (env : Env) {ctx : MergeCtxt} (u : List BitPath) {base : Option ℕ} (hext : Extends r r₁)
    (htheirs : base = some ctx.theirHead ↔ r.graph.toDag.Reach ctx.ourHead ctx.theirHead)
    (hours : base = some ctx.ourHead ↔ r.graph.toDag.Reach ctx.theirHead ctx.ourHead)
    (hfound : r.graph.toDag.Reach ctx.ourHead ctx.theirHead ∨ r.graph.toDag.Reach ctx.theirHead ctx.ourHead → r₁ = r) :
    Ends (Merged r ctx.ourHead ctx.theirHead ctx.opts) (Extends r) (mergeWithBase env ctx u base r₁) := by
  have hchecks := Ends.of_keeps (s := r₁) (Holds.preMergeChecks stableIndex_history env u) (SameHistory.refl r₁)
  refine Ends.bind (hchecks.mono (fun _ _ h => h) fun _ h => hext.of_same h) ?_
  rintro u₁ r₂ hsame₂
  refine Ends.ite (fun hnull => ?_) fun hnull => Ends.ite (fun hff => ?_) fun hff => ?_
  · have hreach := htheirs.mp hnull
    obtain rfl := hfound (.inl hreach)
    exact .null hreach hsame₂
  · obtain ⟨hopts,hbase⟩ := hff
    have hreach := hours.mp hbase
    obtain rfl := hfound (.inr hreach)
    refine (fastForward_run env ctx r₂).mono ?_ fun r' h => hext.of_same (hsame₂.trans h)
    rintro _ r' ⟨rfl,hmoved⟩
    exact .fastForward (fun h => hnull (htheirs.mpr h)) hreach (by simpa using hopts) ((hsame₂.moved _).trans hmoved)
  · have hnew : ¬r.graph.toDag.Reach ctx.ourHead ctx.theirHead := fun h => hnull (htheirs.mpr h)
    have hold : r.graph.toDag.Reach ctx.theirHead ctx.ourHead → ctx.opts.noFf = true := fun h => by
      by_contra hno
      exact hff ⟨by simpa using hno,hours.mpr h⟩
    have hmerge := Ends.of_keeps (s := r₂) (Holds.mergeCommits stableIndex_history stableWorktree_history stableClock_history
      env ctx u₁ base ctx.ourHead ctx.theirHead) hsame₂
    refine Ends.bind (hmerge.mono (fun _ _ h => h) fun _ h => hext.of_same h) ?_
    rintro u₂ r₃ hsame₃
    refine Ends.ite (fun _ => ?_) fun _ => finishMerge_merged env (hext.of_same hsame₃) hnew hold
    -- the merge is undone, and it fails
    refine Ends.bind ((Ends.of_keeps (Holds.modifyIndex stableIndex_history _) hsame₃).mono (fun _ _ h => h) fun _ h =>
      hext.of_same h) ?_
    rintro - r₄ hsame₄
    refine Ends.bind ((Ends.of_keeps (Holds.checkoutIndex stableIndex_history stableWorktree_history stableClock_history env _)
      hsame₄).mono (fun _ _ h => h) fun _ h => hext.of_same h) ?_
    rintro - r₅ hsame₅
    exact hext.of_same hsame₅

end Merge

/-- One commit on `m`, and one on top of it on `b`. -/
def aheadRepo : Repo := {Repo.init with commits := [⟨.nil,[],(1,0)⟩,⟨.nil,[0],(2,0)⟩], refs := [([109],0),([98],1)]}

theorem sound_ahead : aheadRepo.Sound := by
  have hcases {i : ℕ} {c : Commit} (h : aheadRepo.commits[i]? = some c) :
      c.parents = [] ∨ i = 1 ∧ c.parents = [0] ∧ c.time = (2,0) := by
    rcases i with _ | _ | i
    · exact .inl (congrArg Commit.parents (Option.some.inj h).symm)
    · exact .inr ⟨rfl,congrArg Commit.parents (Option.some.inj h).symm,congrArg Commit.time (Option.some.inj h).symm⟩
    · simp [aheadRepo] at h
  refine ⟨fun h p hp => ?_,fun {i c d} h p hp hd => ?_,by simp [aheadRepo],by simp [aheadRepo,Repo.init]⟩
  · rcases hcases h with hnone | ⟨rfl,hone,-⟩
    · simp [hnone] at hp
    · rw [hone,List.mem_singleton] at hp
      omega
  · rcases hcases h with hnone | ⟨rfl,hone,htime⟩
    · simp [hnone] at hp
    · rw [hone,List.mem_singleton] at hp
      subst hp
      cases hd
      rw [htime]
      exact Prod.Lex.toLex_le_toLex.mpr (.inl (by decide))

theorem not_raced_ahead (x : ℕ) : ¬MergeBase.Raced aheadRepo.graph 0 1 x := by
  refine MergeBase.not_raced_of_strict (fun c p hp => ?_) 0 1 x
  obtain ⟨hp,hlt⟩ := Repo.mem_parents.mp hp
  rcases c with _ | _ | c
  · simp [Repo.parentsOf,aheadRepo] at hp
  · obtain rfl : p = 0 := by omega
    decide
  · simp [Repo.parentsOf,aheadRepo] at hp

end Libbit
