import Libbit.Commands
import Libbit.MergeBaseInvariant
import Libbit.MergeAbort

/-! The history over whole runs. A run is any order of subcommands, each of which may fail half way, and of changes to the
files from outside. What holds in all of them follows from the few moves that are made on the commits and the refs. -/
namespace Libbit

open Lib

/-- `enter` of a subcommand, or what goes on outside: the files change and the index file gets another time. -/
inductive Event
  | command (env : Env) (cmd : BitSubCmd)
  | outside (w : Worktree) (indexMtime : Option ℕ)

namespace Event

def run (r : Repo) : Event → Repo
  | .command env cmd => final (enter (cmd.exec env) r)
  | .outside w indexMtime => {r with worktree := w, indexMtime := indexMtime}

/-- A reset may take a branch back. -/
def isReset : Event → Bool
  | .command _ (.Reset _ _ _) => true
  | _ => false

end Event

def runEvents (r : Repo) (events : List Event) : Repo := events.foldl Event.run r

/-- Every event of a run meets the condition in the state in which it takes place. -/
def EventsMeet (P : Repo → Event → Prop) : Repo → List Event → Prop
  | _, [] => True
  | r, e::events => P r e ∧ EventsMeet P (e.run r) events

theorem runEvents_induction {P : Repo → Event → Prop} {I : Repo → Prop} (hstep : ∀ r e, P r e → I r → I (e.run r))
    {r : Repo} (hr : I r) {events : List Event} (h : EventsMeet P r events) : I (runEvents r events) := by
  induction events generalizing r with
  | nil => exact hr
  | cons e events ih => exact ih (hstep r e h.1 hr) h.2

/-! ### A sound history -/

/-- Parents come before their children, in the store and in time, and no ref points at nothing. -/
structure Repo.Sound (r : Repo) : Prop where
  parents : ∀ {i : ℕ} {c : Commit}, r.commits[i]? = some c → ∀ p ∈ c.parents, p < i
  times : ∀ {i : ℕ} {c d : Commit}, r.commits[i]? = some c → ∀ p ∈ c.parents, r.commits[p]? = some d → d.time ≤ c.time
  refs : ∀ x ∈ r.refs, x.2 < r.commits.length
  head : ∀ oid, r.head = .Direct oid → oid < r.commits.length

section Graph
variable {r r' : Repo}

theorem Repo.mem_parents {c p : ℕ} : p ∈ r.graph.parents c ↔ p ∈ r.parentsOf c ∧ p < c := by
  simp [Repo.graph,Repo.parents,Repo.parentsOf]

theorem Repo.reach_le {a b : ℕ} (h : r.graph.toDag.Reach a b) : b ≤ a :=
  h.antitone (f := id) fun he => (Repo.mem_parents.mp he).2.le

/-- A longer history has the edges of the shorter one. -/
theorem Repo.reach_of_prefix (h : r.commits <+: r'.commits) {a b : ℕ} (hab : r.graph.toDag.Reach a b) :
    r'.graph.toDag.Reach a b := by
  refine Relation.ReflTransGen.mono (fun c p hp => ?_) a b hab
  obtain ⟨hp,hlt⟩ := Repo.mem_parents.mp hp
  refine Repo.mem_parents.mpr ⟨?_,hlt⟩
  obtain ⟨more,hmore⟩ := h
  rw [Repo.parentsOf] at hp ⊢
  cases hc : r.commits[c]? with
  | none => simp [hc] at hp
  | some x =>
    have hx : r'.commits[c]? = some x := by
      rw [← hmore,List.getElem?_append_left (List.getElem?_eq_some_iff.mp hc).1]
      exact hc
    rwa [hx,← hc]

theorem Repo.Sound.edge (h : r.Sound) {i p : ℕ} {c : Commit} (hc : r.commits[i]? = some c) (hp : p ∈ c.parents) :
    r.graph.toDag.Edge i p := Repo.mem_parents.mpr ⟨by simpa [Repo.parentsOf,hc] using hp,h.parents hc p hp⟩

/-- What `mk_commit` checks makes the clock of the graph run forward. -/
theorem Repo.Sound.monotone (h : r.Sound) : r.graph.Monotone := by
  intro c p hp
  obtain ⟨hp,-⟩ := Repo.mem_parents.mp hp
  cases hc : r.commits[c]? with
  | none => simp [Repo.parentsOf,hc] at hp
  | some x =>
    have hx : p ∈ x.parents := by simpa [Repo.parentsOf,hc] using hp
    have hlt : p < r.commits.length := (h.parents hc p hx).trans (List.getElem?_eq_some_iff.mp hc).1
    have hd := List.getElem?_eq_getElem hlt
    simp only [Repo.graph,hc,hd]
    exact h.times hc p hx hd

theorem Repo.Sound.resolve (h : r.Sound) {reference : BitRef} {oid : ℕ} (hr : r.resolveRef reference = some oid)
    (hdirect : reference = .Direct oid → oid < r.commits.length) : oid < r.commits.length := by
  cases reference with
  | Direct o => exact hdirect (congrArg _ (Option.some.inj hr))
  | Symbolic sym =>
    obtain ⟨x,hx,rfl⟩ := Option.map_eq_some_iff.mp hr
    exact h.refs x (List.mem_of_find?_eq_some hx)

theorem Repo.Sound.resolveHead (h : r.Sound) {oid : ℕ} (hr : r.resolveRef r.head = some oid) : oid < r.commits.length :=
  h.resolve hr (h.head oid)

end Graph

/-! ### The moves -/

/-- `update_current_ref` -/
def Repo.moved (r : Repo) (target : ℕ) : Repo :=
  match r.head with
  | .Direct _ => {r with head := .Direct target}
  | .Symbolic sym => {r with refs := (sym,target)::r.refs.filter fun x => x.1 ≠ sym}

def Repo.withCommit (r : Repo) (c : Commit) : Repo := {r with commits := r.commits++[c]}

/-- A commit that `mk_commit` lets pass. -/
structure Repo.Admits (r : Repo) (c : Commit) : Prop where
  parents : ∀ p ∈ c.parents, p < r.commits.length
  times : ∀ p ∈ c.parents, r.graph.time p ≤ c.time

/-- The target is no step back from where the current branch is. -/
def Repo.Advances (r : Repo) (target : ℕ) : Prop := ∀ old, r.resolveRef r.head = some old → r.graph.toDag.Reach target old

/-- A property of the commits and the refs that new commits do not break. -/
structure CommitInvariant (P : Repo → Prop) : Prop where
  sound : ∀ {r}, P r → r.Sound
  same : ∀ {r r'}, SameHistory r r' → P r → P r'
  commit : ∀ {r c}, P r → r.Admits c → P (r.withCommit c)

/-- Nor do refs that move forward, new branches and another HEAD. -/
structure HistoryInvariant (P : Repo → Prop) : Prop extends CommitInvariant P where
  advance : ∀ {r target}, P r → r.isCommit target → r.Advances target → P (r.moved target)
  branch : ∀ {r sym oid}, P r → r.isCommit oid → (∀ x ∈ r.refs, x.1 ≠ sym) → P {r with refs := (sym,oid)::r.refs}
  head : ∀ {r reference}, P r → (∀ oid, reference = .Direct oid → r.isCommit oid) → P {r with head := reference}

/-- The commits so far are there, and the refs are where they were. -/
structure Extends (r r' : Repo) : Prop where
  commits : r.commits <+: r'.commits
  head : r'.head = r.head
  refs : r'.refs = r.refs

theorem Extends.refl (r : Repo) : Extends r r := ⟨List.prefix_refl _,rfl,rfl⟩

theorem Extends.trans {r r' r'' : Repo} (h : Extends r r') (h' : Extends r' r'') : Extends r r'' :=
  ⟨h.commits.trans h'.commits,h'.head.trans h.head,h'.refs.trans h.refs⟩

theorem Extends.length {r r' : Repo} (h : Extends r r') : r.commits.length ≤ r'.commits.length := h.commits.length_le

theorem Extends.resolveRef {r r' : Repo} (h : Extends r r') (reference : BitRef) :
    r'.resolveRef reference = r.resolveRef reference := by
  cases reference with
  | Direct oid => rfl
  | Symbolic sym => rw [Repo.resolveRef,Repo.resolveRef,h.refs]

theorem Extends.headOid {r r' : Repo} (h : Extends r r') : r'.resolveRef r'.head = r.resolveRef r.head := by
  rw [h.head,h.resolveRef]

theorem Extends.withCommit (r : Repo) (c : Commit) : Extends r (r.withCommit c) := ⟨List.prefix_append _ _,rfl,rfl⟩

theorem Extends.of_same {r r' r'' : Repo} (h : Extends r r') (hs : SameHistory r' r'') : Extends r r'' :=
  h.trans ⟨hs.1 ▸ List.prefix_refl _,hs.2.1,hs.2.2⟩

theorem CommitInvariant.andExtends {P : Repo → Prop} (hP : CommitInvariant P) (r₀ : Repo) :
    CommitInvariant fun r => P r ∧ Extends r₀ r where
  sound h := hP.sound h.1
  same hs h := ⟨hP.same hs h.1,h.2.of_same hs⟩
  commit h hc := ⟨hP.commit h.1 hc,h.2.trans (Extends.withCommit _ _)⟩

section Stable
variable {P : Repo → Prop} (hP : CommitInvariant P)
include hP

theorem CommitInvariant.index : StableIndex P := fun r _ h => hP.same (r := r) ⟨rfl,rfl,rfl⟩ h

theorem CommitInvariant.worktree : StableWorktree P := fun r _ h => hP.same (r := r) ⟨rfl,rfl,rfl⟩ h

theorem CommitInvariant.clock : StableClock P := fun r _ h => hP.same (r := r) ⟨rfl,rfl,rfl⟩ h

end Stable

/-! ### The operations -/

@[simp] theorem Repo.isCommit_iff {r : Repo} {oid : ℕ} : r.isCommit oid = true ↔ oid < r.commits.length := by simp [Repo.isCommit]

/-- The property survives the operation, however it ends. -/
abbrev Kept {ε α : Type} (P : Repo → Prop) (m : EStateM ε Repo α) : Prop := Keeps P (fun _ => True) m

section Rules
variable {ε α : Type} {P : Repo → Prop} {r : Repo}

theorem kept_of_ends {m : EStateM ε Repo α} (h : ∀ r, P r → Ends (fun _ => P) P (m r)) : Kept P m := by
  intro r hr
  have hend := h r hr
  cases hm : m r with
  | ok a r' =>
    rw [hm] at hend
    exact hend
  | error e r' =>
    rw [hm] at hend
    exact ⟨hend,trivial⟩

theorem kept_of_holds {m : Bit α} (h : Holds P m) : Kept P m := h.mono (fun _ => Iff.rfl) fun _ _ => trivial

theorem ends_lift {Q : α → Repo → Prop} {R : Repo → Prop} {m : Bit α} (h : Ends Q R (m r)) : Ends Q R (lift m r) := by
  unfold lift EStateM.adaptExcept
  cases hm : m r with
  | ok a r' =>
    rw [hm] at h
    exact h
  | error e r' =>
    rw [hm] at h
    exact h

theorem kept_lift {m : Bit α} (h : Kept P m) : Kept P (lift m) := kept_of_ends fun _ hr => ends_lift (Ends.of_keeps h hr)

end Rules

section Commits
variable {P : Repo → Prop} (hP : CommitInvariant P) (env : Env)
include hP

/-- The new commit comes last, and its parents are behind it. -/
theorem writeCommit_ends {r : Repo} (hr : P r) (t : Tree) {parents : List ℕ} (hparents : ∀ p ∈ parents, r.isCommit p) :
    Ends (fun oid r' => P r' ∧ Extends r r' ∧ oid = r.commits.length ∧ r'.isCommit oid ∧
      ∀ p ∈ parents, r'.graph.toDag.Reach oid p) P (writeCommit env t parents r) := by
  unfold writeCommit
  simp only [run_getBind]
  cases env.now with
  | none => exact hr
  | some now =>
    refine Ends.ite (fun hclock => ?_) fun _ => hr
    have hadmits : r.Admits ⟨t,parents,now⟩ :=
      ⟨fun p hp => by simpa using hparents p hp,fun p hp => by simpa using List.all_eq_true.mp hclock p hp⟩
    have hnew := hP.commit hr hadmits
    refine ⟨hnew,Extends.withCommit r _,rfl,by simp [Repo.isCommit],fun p hp => Dag.Edge.reach ?_⟩
    exact (hP.sound hnew).edge (c := ⟨t,parents,now⟩) (by simp [Repo.withCommit]) hp

/-- What a merge base is good for: it is a commit, and one that was there before is a common ancestor. -/
def BaseFor (r₀ r : Repo) (ours theirs : ℕ) (base : Option ℕ) : Prop :=
  ∀ c ∈ base, r.isCommit c ∧ (r₀.isCommit c → r₀.graph.toDag.Common ours theirs c)

omit hP in
theorem baseFor_of_mem {r : Repo} {ours theirs c : ℕ} {bases : List ℕ} (hours : r.isCommit ours)
    (h : MergeBase.findMergeBases r.graph ours theirs = some bases) (hc : c ∈ bases) :
    r.isCommit c ∧ r.graph.toDag.Common ours theirs c := by
  have hcommon := MergeBase.common_of_mem h hc
  have hle := Repo.reach_le hcommon.1
  simp only [Repo.isCommit_iff] at hours ⊢
  exact ⟨by omega,hcommon⟩

theorem mergeBaseRecursive_ends (ctx : MergeCtxt) (fuel : ℕ) {r : Repo} (u : List BitPath) {ours theirs : ℕ} (hr : P r)
    (hours : r.isCommit ours) : Ends (fun x r' => P r' ∧ Extends r r' ∧ BaseFor r r' ours theirs x.2) P
      (mergeBaseRecursive env ctx fuel u ours theirs r) := by
  induction fuel generalizing r u ours theirs with
  | zero => exact hr
  | succ fuel ih =>
    unfold mergeBaseRecursive
    simp only [run_getBind]
    generalize hbases : MergeBase.findMergeBases r.graph ours theirs = bases
    rcases bases with _ | (_ | ⟨a,_ | ⟨b,_ | ⟨c,l⟩⟩⟩)
    · exact hr
    · exact ⟨hr,Extends.refl r,by simp [BaseFor]⟩
    · refine ⟨hr,Extends.refl r,?_⟩
      rintro d ⟨⟩
      exact (baseFor_of_mem hours hbases List.mem_cons_self).imp_right fun h _ => h
    · obtain ⟨ha,-⟩ := baseFor_of_mem hours hbases (c := a) (by simp)
      obtain ⟨hb,-⟩ := baseFor_of_mem hours hbases (c := b) (by simp)
      have hQ := hP.andExtends r
      -- the base of the two bases, then their merge in place
      refine Ends.bind (ih u hr ha) ?_
      rintro ⟨u₁,base⟩ r₁ ⟨hr₁,hext₁,-⟩
      have hmerge := Ends.of_keeps (Holds.mergeCommits hQ.index hQ.worktree hQ.clock env ctx u₁ base a b) ⟨hr₁,hext₁⟩
      refine Ends.bind (hmerge.mono (fun _ _ h => h) fun _ h => h.1) ?_
      rintro u₂ r₂ h₂
      refine Ends.bind ((Ends.of_keeps (Holds.writeTree hQ.index) h₂).mono (fun _ _ h => h) fun _ h => h.1) ?_
      rintro t r₃ ⟨hr₃,hext₃⟩
      have hparents : ∀ p ∈ [a,b], r₃.isCommit p := by
        have hlen := hext₃.length
        simp only [Repo.isCommit_iff] at ha hb
        simp only [List.mem_cons,List.not_mem_nil,or_false,Repo.isCommit_iff]
        rintro p (rfl | rfl) <;> omega
      refine Ends.bind (writeCommit_ends hP env hr₃ t hparents) ?_
      rintro oid r₄ ⟨hr₄,hext₄,rfl,hoid,-⟩
      refine ⟨hr₄,hext₃.trans hext₄,?_⟩
      rintro d ⟨⟩
      have hlen := hext₃.length
      exact ⟨hoid,fun hd => absurd (Repo.isCommit_iff.mp hd) (by omega)⟩
    · exact hr

end Commits

section Moves
variable {P : Repo → Prop} (env : Env)

theorem updateCurrentRef_run (target : ℕ) (r : Repo) : updateCurrentRef target r = .ok () (r.moved target) := by
  cases h : r.head <;> simp [updateCurrentRef,Repo.moved,h]

theorem tryFullyResolveRef_ends (reference : BitRef) (r : Repo) :
    Ends (fun x r' => r' = r ∧ x = r.resolveRef (r.deref reference) ∧ ∀ oid ∈ x, r.isCommit oid) (· = r)
      (tryFullyResolveRef reference r) := by
  unfold tryFullyResolveRef
  simp only [run_getBind]
  cases h : r.resolveRef (r.deref reference) with
  | none => exact ⟨rfl,rfl,by simp⟩
  | some oid =>
    unfold ensureObjIsCommit
    by_cases hoid : r.isCommit oid
    · simp only [Bind.bind,EStateM.bind,run_get,hoid,if_true,run_pure]
      exact ⟨rfl,rfl,by simpa using hoid⟩
    · simp only [Bind.bind,EStateM.bind,run_get,hoid]
      exact rfl

theorem fullyResolveRef_ends (reference : BitRef) (r : Repo) :
    Ends (fun oid r' => r' = r ∧ r.isCommit oid ∧ r.resolveRef (r.deref reference) = some oid) (· = r)
      (fullyResolveRef reference r) := by
  refine Ends.bind (tryFullyResolveRef_ends reference r) ?_
  rintro (_ | oid) t ⟨rfl,hx,hoid⟩
  · exact rfl
  · exact ⟨rfl,hoid oid rfl,hx.symm⟩

/-- A ref that resolves leaves the state to the rest. -/
theorem resolve_bind {α : Type} {Q : α → Repo → Prop} {reference : BitRef} {k : ℕ → Command α} {r : Repo} (hr : P r)
    (h : ∀ oid, r.isCommit oid → r.resolveRef (r.deref reference) = some oid → Ends Q P (k oid r)) :
    Ends Q P ((fullyResolveRef reference >>= k) r) := by
  refine Ends.bind ((fullyResolveRef_ends reference r).mono (fun _ _ h => h) (fun t ht => ht ▸ hr)) ?_
  rintro oid t ⟨rfl,hoid,hres⟩
  exact h oid hoid hres

variable (hP : HistoryInvariant P)
include hP

theorem updateCurrentRef_ends {r : Repo} (hr : P r) {target : ℕ} (ht : r.isCommit target) (hadv : r.Advances target) :
    Ends (fun _ => P) P (updateCurrentRef target r) := by
  rw [updateCurrentRef_run]
  exact hP.advance hr ht hadv

section Merging
variable {ctx : MergeCtxt} {r : Repo} (hr : P r) (hours : r.resolveRef r.head = some ctx.ourHead)
include hr hours

/-- The new head comes after ours, which is where the branch still is. -/
theorem commitMerge_ends (htheirs : r.isCommit ctx.theirHead) : Ends (fun _ => P) P (commitMerge env ctx r) := by
  have hQ := hP.andExtends r
  have htree := Ends.of_keeps (s := r) (Holds.writeTree hQ.index) ⟨hr,Extends.refl r⟩
  refine Ends.bind (htree.mono (fun _ _ h => h) fun _ h => h.1) ?_
  rintro t r₁ ⟨hr₁,hext⟩
  have hheads : ∀ p ∈ [ctx.ourHead,ctx.theirHead], r₁.isCommit p := by
    have hlen := hext.length
    have hour := (hP.sound hr).resolveHead hours
    rw [Repo.isCommit_iff] at htheirs
    simp only [List.mem_cons,List.not_mem_nil,or_false,Repo.isCommit_iff]
    rintro p (rfl | rfl) <;> omega
  refine Ends.bind (writeCommit_ends hP.toCommitInvariant env hr₁ t hheads) ?_
  rintro oid r₂ ⟨hr₂,hext₂,-,hoid,hreach⟩
  refine updateCurrentRef_ends hP hr₂ hoid fun old hold => ?_
  rw [(hext.trans hext₂).headOid,hours] at hold
  obtain rfl := Option.some.inj hold
  exact hreach _ List.mem_cons_self

theorem fastForward_ends (htheirs : r.isCommit ctx.theirHead) (hreach : r.graph.toDag.Reach ctx.theirHead ctx.ourHead) :
    Ends (fun _ => P) P (fastForward env ctx r) := by
  have hQ := hP.andExtends r
  unfold fastForward
  simp only [run_getBind]
  have hcheckout : Kept (fun r' => P r' ∧ Extends r r') (checkoutTreeWithOpts env (r.treeOf ctx.theirHead) .Safe) :=
    (kept_of_holds (Holds.checkoutIterator hQ.index hQ.worktree hQ.clock env _ _)).seq (Keeps.ite (fun _ =>
      kept_of_holds (Holds.updateCacheTree hQ.index _)) fun _ => Keeps.pure _)
  refine Ends.bind ((Ends.of_keeps hcheckout ⟨hr,Extends.refl r⟩).mono (fun _ _ h => h) fun _ h => h.1) ?_
  rintro - r₁ ⟨hr₁,hext⟩
  refine Ends.bind (Q := fun _ => P) (updateCurrentRef_ends hP hr₁ ?_ fun old hold => ?_) fun _ _ h => h
  · rw [Repo.isCommit_iff] at htheirs ⊢
    exact htheirs.trans_le hext.length
  · rw [hext.headOid,hours] at hold
    obtain rfl := Option.some.inj hold
    exact Repo.reach_of_prefix hext.commits hreach

/-- Whatever becomes of a merge, a branch that it moves goes forward. -/
theorem mergeWithBase_ends (u : List BitPath) {base : Option ℕ} (htheirs : r.isCommit ctx.theirHead)
    (hbase : base = some ctx.ourHead → r.graph.toDag.Reach ctx.theirHead ctx.ourHead) :
    Ends (fun _ => P) P (mergeWithBase env ctx u base r) := by
  have hQ := hP.andExtends r
  have hfirst := Ends.of_keeps (Holds.preMergeChecks hQ.index env u) (s := r) ⟨hr,Extends.refl r⟩
  refine Ends.bind (hfirst.mono (fun _ _ h => h) fun _ h => h.1) ?_
  rintro u₁ r₁ ⟨hr₁,hext₁⟩
  have htheirs₁ {r' : Repo} (hext : Extends r r') : r'.isCommit ctx.theirHead := by
    rw [Repo.isCommit_iff] at htheirs ⊢
    exact htheirs.trans_le hext.length
  refine Ends.ite (fun _ => hr₁) fun _ => Ends.ite (fun hff => ?_) fun _ => ?_
  · exact fastForward_ends env hP hr₁ (hext₁.headOid.trans hours) (htheirs₁ hext₁)
      (Repo.reach_of_prefix hext₁.commits (hbase hff.2))
  · have hmerge := Ends.of_keeps (Holds.mergeCommits hQ.index hQ.worktree hQ.clock env ctx u₁ base ctx.ourHead ctx.theirHead)
      ⟨hr₁,hext₁⟩
    refine Ends.bind (hmerge.mono (fun _ _ h => h) fun _ h => h.1) ?_
    rintro u₂ r₂ ⟨hr₂,hext₂⟩
    refine Ends.ite (fun _ => ?_) fun _ => ?_
    · have habort : Kept P (abortMerge env ctx u₂) :=
        (kept_of_holds (Holds.modifyIndex hP.index _)).seq ((kept_of_holds (Holds.checkoutIndex hP.index hP.worktree
          hP.clock env _)).seq (Keeps.throw trivial))
      exact Ends.of_keeps habort hr₂
    · unfold finishMerge
      simp only [run_getBind]
      refine Ends.ite (fun _ => ?_) fun _ => Ends.ite (fun _ => hr₂) fun _ => ?_
      · cases r₂.index.conflicts with
        | none => exact hr₂
        | some cs => exact hr₂
      · exact Ends.bind (Q := fun _ => P) (commitMerge_ends env hP hr₂ (hext₂.headOid.trans hours) (htheirs₁ hext₂))
          fun _ _ h => h

end Merging

/-! ### The subcommands -/

omit hP in
/-- `MergeCtxt::new` reads the two heads, and the index, which is not looked at here. -/
theorem mergeContext_ends (reference : BitRef) (desc : Bytes) (opts : MergeOpts) (r : Repo) :
    Ends (fun ctx r' => r' = r ∧ r.resolveRef r.head = some ctx.ourHead ∧ r.resolveRef reference = some ctx.theirHead ∧
      ctx.opts = opts) (· = r) (MergeCtxt.new reference desc opts r) := by
  unfold MergeCtxt.new
  simp only [run_getBind]
  cases ho : r.resolveRef r.head with
  | none => exact rfl
  | some ours =>
    cases ht : r.resolveRef reference with
    | none => exact rfl
    | some theirs => exact ⟨rfl,rfl,rfl,rfl⟩

theorem merge_kept (theirs : BitRef) (desc : Bytes) (opts : MergeOpts) : Kept P (mergeRef env theirs desc opts) := by
  refine kept_of_ends fun r hr => ?_
  unfold mergeRef
  simp only [run_getBind]
  refine resolve_bind hr fun ours _ _ => resolve_bind hr fun their htheir htheirs => ?_
  simp only [run_getBind]
  refine ends_lift (Ends.bind ((mergeContext_ends (r.deref theirs) desc opts r).mono (fun _ _ h => h) fun t ht => ht ▸ hr) ?_)
  rintro ctx t ⟨rfl,hours,htheirs',-⟩
  obtain rfl : their = ctx.theirHead := Option.some.inj (htheirs.symm.trans htheirs')
  have hour := (hP.sound hr).resolveHead hours
  refine Ends.bind (mergeBaseRecursive_ends hP.toCommitInvariant env ctx _ [] hr (Repo.isCommit_iff.mpr hour)) ?_
  rintro ⟨u,base⟩ r₁ ⟨hr₁,hext,hbase⟩
  refine mergeWithBase_ends env hP hr₁ (hext.headOid.trans hours) u ?_ fun hb => ?_
  · rw [Repo.isCommit_iff] at htheir ⊢
    exact htheir.trans_le hext.length
  · exact Repo.reach_of_prefix hext.commits ((hbase _ hb).2 (Repo.isCommit_iff.mpr hour)).2

/-- The base is the parent of the commit, so a fast-forward goes to a child. -/
theorem cherrypick_kept (reference : BitRef) (desc : Bytes) : Kept P (cherrypick env reference desc) := by
  refine kept_of_ends fun r hr => ?_
  unfold cherrypick
  refine resolve_bind hr fun oid hoid hres => ?_
  simp only [run_getBind]
  refine Ends.ite (fun _ => hr) fun _ => ?_
  simp only [run_getBind]
  refine resolve_bind hr fun ours _ _ => ?_
  simp only [run_getBind]
  refine Ends.bind (Q := fun _ => P) (ends_lift ?_) fun _ _ h => h
  refine Ends.bind ((mergeContext_ends (r.deref reference) desc _ r).mono (fun _ _ h => h) fun t ht => ht ▸ hr) ?_
  rintro ctx t ⟨rfl,hours,htheirs,-⟩
  obtain rfl : oid = ctx.theirHead := Option.some.inj (hres.symm.trans htheirs)
  refine mergeWithBase_ends env hP hr hours [] hoid fun hbase => Dag.Edge.reach (Repo.mem_parents.mpr ?_)
  have hmem := List.mem_of_head? hbase
  refine ⟨hmem,?_⟩
  rw [Repo.parentsOf] at hmem
  cases hc : t.commits[ctx.theirHead]? with
  | none => simp [hc] at hmem
  | some c => exact (hP.sound hr).parents hc _ (by simpa [hc] using hmem)

theorem commitTree_ends (tree : Tree) (parents : List ℕ) (message edited : Option Bytes) {r : Repo} (hr : P r) :
    Ends (fun oid r' => P r' ∧ Extends r r' ∧ r'.isCommit oid ∧ ∀ p ∈ parents, r'.graph.toDag.Reach oid p) P
      (commitTree env tree parents message edited r) := by
  have hcheck : ∀ ps : List ℕ, Ends (fun _ r' => r' = r ∧ ∀ p ∈ ps, r.isCommit p) (· = r) (ps.forM ensureObjIsCommit r) := by
    intro ps
    induction ps with
    | nil => exact ⟨rfl,by simp⟩
    | cons p ps ih =>
      have hone : Ends (fun _ r' => r' = r ∧ r.isCommit p) (· = r) (ensureObjIsCommit p r) := by
        unfold ensureObjIsCommit
        simp only [run_getBind]
        exact Ends.ite (fun h => ⟨rfl,h⟩) fun _ => rfl
      refine Ends.bind hone ?_
      rintro - t ⟨rfl,hp⟩
      exact ih.mono (fun _ _ h => ⟨h.1,List.forall_mem_cons.mpr ⟨hp,h.2⟩⟩) fun _ h => h
  unfold commitTree
  cases message.or edited with
  | none => exact hr
  | some msg =>
    refine Ends.bind ((hcheck parents).mono (fun _ _ h => h) fun t ht => ht ▸ hr) ?_
    rintro - t ⟨rfl,hparents⟩
    exact ends_lift ((writeCommit_ends hP.toCommitInvariant env hr tree hparents).mono
      (fun _ _ h => ⟨h.1,h.2.1,h.2.2.2⟩) fun _ h => h)

theorem status_kept : Kept P (status env) := by
  refine kept_of_ends fun r hr => ?_
  unfold status
  simp only [run_getBind]
  have hhead : Kept P (lift diffHeadIndex) := kept_lift (Keeps.get.bind fun _ => Keeps.pure _)
  refine Ends.bind (Ends.of_keeps hhead hr) fun _ r₁ hr₁ => ?_
  have hdiff : Kept P (lift (diffWorktree env)) := kept_lift (kept_of_holds (Holds.diffWorktree hP.index env))
  refine Ends.bind (Ends.of_keeps hdiff hr₁) fun _ r₂ hr₂ => ?_
  have hconflicts : Kept P conflicts := by
    refine Keeps.get.bind fun r => ?_
    cases r.index.conflicts with
    | none => exact Keeps.throw trivial
    | some cs => exact Keeps.pure _
  refine Ends.bind (Ends.of_keeps hconflicts hr₂) fun _ r₃ hr₃ => ?_
  refine Ends.bind ((tryFullyResolveRef_ends _ r₃).mono (fun _ _ h => h) fun t ht => ht ▸ hr₃) ?_
  rintro _ t ⟨rfl,-,-⟩
  exact hr₃

theorem commit_kept (opts : CommitOpts) (edited : Option Bytes) : Kept P (commit env opts edited) := by
  refine kept_of_ends fun r hr => ?_
  unfold commit
  simp only [run_getBind]
  refine Ends.bind ((tryFullyResolveRef_ends _ r).mono (fun _ _ h => h) fun t ht => ht ▸ hr) ?_
  rintro parent t ⟨rfl,hparent,-⟩
  have hQ := (hP.toCommitInvariant).andExtends t
  have htree := ends_lift (Ends.of_keeps (Holds.writeTree hQ.index) (s := t) ⟨hr,Extends.refl t⟩)
  refine Ends.bind (htree.mono (fun _ _ h => h) fun _ h => h.1) ?_
  rintro tree r₁ ⟨hr₁,hext⟩
  simp only [run_getBind]
  refine Ends.ite (fun _ => ?_) fun _ => ?_
  · exact Ends.bind (Ends.of_keeps (status_kept env hP) hr₁) fun _ _ h => h
  refine Ends.bind (commitTree_ends env hP tree parent.toList opts.message edited hr₁) ?_
  rintro oid r₂ ⟨hr₂,hext₂,hoid,hreach⟩
  refine Ends.bind (Q := fun _ => P) (ends_lift (updateCurrentRef_ends hP hr₂ hoid fun old hold => hreach old ?_)) fun _ _ h => h
  -- the head that is moved is the parent
  rw [(hext.trans hext₂).headOid] at hold
  have hderef : t.deref t.head = t.head := by
    unfold Repo.deref
    split <;> rfl
  rw [hparent,hderef,hold]
  exact List.mem_singleton_self old

theorem createBranch_kept (sym : Name) (start : BitRef) : Kept P (createBranch sym start) := by
  refine kept_of_ends fun r hr => ?_
  unfold createBranch
  simp only [run_getBind]
  refine Ends.ite (fun _ => hr) fun hnew => ?_
  refine Ends.bind ((tryFullyResolveRef_ends _ r).mono (fun _ _ h => h) fun t ht => ht ▸ hr) ?_
  rintro (_ | oid) t ⟨rfl,-,hoid⟩
  · exact hP.head hr fun oid h => by simp at h
  · exact hP.branch hr (hoid oid rfl) fun x hx hsym => hnew (List.any_eq_true.mpr ⟨x,hx,by simpa using hsym⟩)

theorem checkoutRef_kept (reference : BitRef) (strategy : CheckoutStrategy) : Kept P (checkoutRef env reference strategy) := by
  refine kept_of_ends fun r hr => ?_
  unfold checkoutRef
  refine Ends.ite (fun _ => hr) fun hhead => ?_
  refine resolve_bind hr fun oid hoid hres => ?_
  have hQ := (hP.toCommitInvariant).andExtends r
  simp only [run_getBind]
  have hcheckout : Kept (fun r' => P r' ∧ Extends r r') (checkoutTreeWithOpts env (r.treeOf oid) strategy) :=
    (kept_of_holds (Holds.checkoutIterator hQ.index hQ.worktree hQ.clock env _ _)).seq (Keeps.ite (fun _ =>
      kept_of_holds (Holds.updateCacheTree hQ.index _)) fun _ => Keeps.pure _)
  have hrun := ends_lift (Ends.of_keeps hcheckout (s := r) ⟨hr,Extends.refl r⟩)
  refine Ends.bind (hrun.mono (fun _ _ h => h) fun _ h => h.1) ?_
  rintro - r₁ ⟨hr₁,hext⟩
  have hoid₁ : r₁.isCommit oid := by
    rw [Repo.isCommit_iff] at hoid ⊢
    exact hoid.trans_le hext.length
  refine hP.head hr₁ fun o ho => ?_
  -- a commit is where HEAD goes, unless a branch is
  split at ho
  · obtain rfl : oid = o := by simpa using ho
    exact hoid₁
  · have hderef : r.deref reference = reference := if_neg hhead
    rw [hderef,ho] at hres
    obtain rfl : o = oid := Option.some.inj hres
    exact hoid₁

theorem switchCreate_kept (sym : Name) (revision : BitRef) : Kept P (switchCreate env sym revision) := by
  refine (createBranch_kept hP sym revision).seq (kept_of_ends fun r hr => ?_)
  refine Ends.bind ((tryFullyResolveRef_ends _ r).mono (fun _ _ h => h) fun t ht => ht ▸ hr) ?_
  rintro (_ | oid) t ⟨rfl,-,-⟩
  · exact hr
  · exact Ends.bind (Ends.of_keeps (checkoutRef_kept env hP (.Symbolic sym) .Safe) hr) fun _ _ h => h

theorem branch_kept (sym : Name) (revision : BitRef) : Kept P (branch sym revision) := by
  refine kept_of_ends fun r hr => ?_
  refine Ends.bind ((tryFullyResolveRef_ends _ r).mono (fun _ _ h => h) fun t ht => ht ▸ hr) ?_
  rintro (_ | oid) t ⟨rfl,-,-⟩
  · exact hr
  · exact Ends.of_keeps (createBranch_kept hP sym revision) hr

omit hP in
theorem applyDiff_holds (hi : StableIndex P) (s : WorkspaceStatus) : Holds P (applyDiff s) :=
  (Keeps.forM fun _ _ => Holds.modifyIndex hi _).seq ((Keeps.forM fun _ _ => Holds.addEntry hi _).seq
    (Keeps.forM fun _ _ => Holds.addEntry hi _))

omit hP in
theorem addAll_holds (hi : StableIndex P) : Holds P (addAll env) := (Holds.diffWorktree hi env).bind fun _ => applyDiff_holds hi _

omit hP in
theorem readTree_holds (hi : StableIndex P) (t : Tree) : Holds P (readTree t) :=
  Keeps.get.bind fun _ => (applyDiff_holds hi _).seq (Holds.updateCacheTree hi t)

theorem add_kept (pathspec : BitPath) : Kept P (add env pathspec) :=
  Keeps.get.bind fun _ => Keeps.ite (fun _ => Keeps.throw trivial) fun _ =>
    kept_lift (kept_of_holds (Keeps.forM fun _ _ => Holds.addEntry hP.index _))

/-- A reset puts the current branch anywhere, after the index and the files. -/
theorem reset_ends (merging : Bool) (target : BitRef) (kind : ResetKind) {r : Repo} (hr : P r)
    (hrewind : ∀ r' oid, P r' → Extends r r' → r'.isCommit oid → P (r'.moved oid)) :
    Ends (fun _ => P) P (reset env merging target kind r) := by
  unfold reset
  refine Ends.ite (fun _ => hr) fun _ => resolve_bind hr fun oid hoid _ => ?_
  have hQ := (hP.toCommitInvariant).andExtends r
  simp only [run_getBind]
  have hfiles : Kept (fun r' => P r' ∧ Extends r r') (resetFiles env (r.treeOf oid) kind) := by
    cases kind with
    | Soft => exact Keeps.pure _
    | Mixed => exact kept_lift (kept_of_holds (readTree_holds hQ.index _))
    | Hard =>
      exact kept_lift ((kept_of_holds (Holds.checkoutIterator hQ.index hQ.worktree hQ.clock env _ _)).seq
        (Keeps.ite (fun _ => kept_of_holds (Holds.updateCacheTree hQ.index _)) fun _ => Keeps.pure _))
  refine Ends.bind ((Ends.of_keeps hfiles (s := r) ⟨hr,Extends.refl r⟩).mono (fun _ _ h => h) fun _ h => h.1) ?_
  rintro - r₁ ⟨hr₁,hext⟩
  refine ends_lift ?_
  rw [updateCurrentRef_run]
  refine hrewind r₁ oid hr₁ hext ?_
  rw [Repo.isCommit_iff] at hoid ⊢
  exact hoid.trans_le hext.length

/-- Only a reset asks for more than the moves of a history. -/
theorem exec_ends (cmd : BitSubCmd) {r : Repo} (hr : P r) (hrewind : (Event.command env cmd).isReset →
    ∀ r' oid, P r' → Extends r r' → r'.isCommit oid → P (r'.moved oid)) : Ends (fun _ => P) P (cmd.exec env r) := by
  have hdrop {α : Type} {m : Command α} (h : Kept P m) : Ends (fun _ => P) P ((m >>= fun _ => pure ()) r) :=
    Ends.of_keeps (h.bind fun _ => Keeps.pure ()) hr
  cases cmd with
  | Add pathspecs => exact Ends.of_keeps (Keeps.forM fun p _ => add_kept env hP p) hr
  | AddAll => exact Ends.of_keeps (kept_lift (kept_of_holds (addAll_holds env hP.index))) hr
  | Branch sym revision => exact Ends.of_keeps (branch_kept hP sym revision) hr
  | Checkout revision strategy => exact hdrop (checkoutRef_kept env hP revision strategy)
  | CherryPick revisions =>
    exact Ends.of_keeps ((Keeps.forM fun x _ => cherrypick_kept env hP x.1 x.2).seq (Keeps.throw trivial)) hr
  | CommitTree tree parents message edited =>
    exact Ends.bind (commitTree_ends env hP tree parents message edited hr) fun _ _ h => h.1
  | Commit opts edited => exact hdrop (commit_kept env hP opts edited)
  | Merge revision desc opts => exact hdrop (merge_kept env hP revision desc opts)
  | Reset merging target kind => exact reset_ends env hP merging target kind hr (hrewind rfl)
  | Status => exact hdrop (status_kept env hP)
  | SwitchCreate sym revision => exact Ends.of_keeps (switchCreate_kept env hP sym revision) hr
  | WriteTree => exact hdrop (kept_lift (kept_of_holds (Holds.writeTree hP.index)))

omit hP in
/-- Rolling back the index leaves the history to what the command made of it. -/
theorem run_event {e : Event} (hP : HistoryInvariant P) {r : Repo} (hr : P r)
    (hrewind : e.isReset → ∀ r' oid, P r' → Extends r r' → r'.isCommit oid → P (r'.moved oid)) : P (e.run r) := by
  cases e with
  | outside w indexMtime => exact hP.same (r := r) ⟨rfl,rfl,rfl⟩ hr
  | command env cmd =>
    have hend := exec_ends env hP cmd hr hrewind
    change P (final (enter (cmd.exec env) r))
    unfold enter
    cases hm : cmd.exec env r with
    | ok a r' =>
      rw [hm] at hend
      exact hend
    | error e r' =>
      rw [hm] at hend
      exact hP.same (r := r') ⟨rfl,rfl,rfl⟩ hend

end Moves

/-! ### What a run keeps -/

/-- The history of `r` is sound and has all commits of `r₀`. -/
structure AppendOnly (r₀ r : Repo) : Prop where
  sound : r.Sound
  commits : r₀.commits <+: r.commits

/-- The branch is there, and it has not lost a commit. -/
structure Forward (branch : Name) (r₀ r : Repo) : Prop extends AppendOnly r₀ r where
  tip : ∀ {old}, r₀.resolveRef (.Symbolic branch) = some old →
    ∃ new, r.resolveRef (.Symbolic branch) = some new ∧ r.graph.toDag.Reach new old

section Invariants
variable {r₀ r r' : Repo} {target : ℕ}

theorem Repo.Sound.of_same (hs : SameHistory r r') (h : r.Sound) : r'.Sound := by
  obtain ⟨hc,hh,hr⟩ := hs
  exact ⟨hc ▸ h.parents,hc ▸ h.times,hc ▸ hr ▸ h.refs,hc ▸ hh ▸ h.head⟩

theorem Repo.Sound.withCommit {c : Commit} (h : r.Sound) (hc : r.Admits c) : (r.withCommit c).Sound := by
  -- a commit of the longer list is an old one, or the new one at the end
  have hcases {i : ℕ} {x : Commit} (hx : (r.commits++[c])[i]? = some x) :
      r.commits[i]? = some x ∨ i = r.commits.length ∧ x = c := by
    rcases lt_or_ge i r.commits.length with hi | hi
    · rw [List.getElem?_append_left hi] at hx
      exact .inl hx
    · rw [List.getElem?_append_right hi,List.getElem?_singleton] at hx
      by_cases hzero : i-r.commits.length = 0
      · rw [if_pos hzero] at hx
        exact .inr ⟨by omega,(Option.some.inj hx).symm⟩
      · simp [hzero] at hx
  have hparent {i p : ℕ} {x : Commit} (hx : (r.commits++[c])[i]? = some x) (hp : p ∈ x.parents) :
      p < i ∧ p < r.commits.length := by
    rcases hcases hx with hold | ⟨rfl,rfl⟩
    · have hlt := h.parents hold p hp
      exact ⟨hlt,hlt.trans (List.getElem?_eq_some_iff.mp hold).1⟩
    · exact ⟨hc.parents p hp,hc.parents p hp⟩
  refine ⟨fun hx p hp => (hparent hx hp).1,fun {i x d} hx p hp hd => ?_,fun x hx => ?_,fun oid ho => ?_⟩
  · change (r.commits++[c])[p]? = some d at hd
    rw [List.getElem?_append_left (hparent hx hp).2] at hd
    rcases hcases hx with hold | ⟨-,rfl⟩
    · exact h.times hold p hp hd
    · have htime := hc.times p hp
      simp only [Repo.graph,hd] at htime
      exact htime
  · simpa [Repo.withCommit] using (h.refs x hx).trans (Nat.lt_succ_self _)
  · simpa [Repo.withCommit] using (h.head oid ho).trans (Nat.lt_succ_self _)

theorem Repo.Sound.moved (h : r.Sound) (ht : r.isCommit target) : (r.moved target).Sound := by
  rw [Repo.isCommit_iff] at ht
  unfold Repo.moved
  cases hh : r.head with
  | Direct o =>
    refine ⟨h.parents,h.times,h.refs,?_⟩
    rintro oid ⟨⟩
    exact ht
  | Symbolic sym =>
    refine ⟨h.parents,h.times,?_,fun oid ho => absurd ho (by simp)⟩
    intro x hx
    rcases List.mem_cons.mp hx with rfl | hx
    · exact ht
    · exact h.refs x (List.mem_of_mem_filter hx)

theorem Repo.commits_moved (r : Repo) (target : ℕ) : (r.moved target).commits = r.commits := by
  unfold Repo.moved
  cases r.head <;> rfl

theorem historyInvariant_appendOnly (r₀ : Repo) : HistoryInvariant (AppendOnly r₀) where
  sound h := h.sound
  same hs h := ⟨h.sound.of_same hs,hs.1 ▸ h.commits⟩
  commit h hc := ⟨h.sound.withCommit hc,h.commits.trans (List.prefix_append _ _)⟩
  advance h ht _ := ⟨h.sound.moved ht,by rw [Repo.commits_moved]; exact h.commits⟩
  branch {r sym oid} h ho _ := by
    refine ⟨⟨h.sound.parents,h.sound.times,?_,h.sound.head⟩,h.commits⟩
    exact List.forall_mem_cons.mpr ⟨Repo.isCommit_iff.mp ho,h.sound.refs⟩
  head {r reference} h ho :=
    ⟨⟨h.sound.parents,h.sound.times,h.sound.refs,fun oid hd => Repo.isCommit_iff.mp (ho oid hd)⟩,h.commits⟩

/-- Where a branch is after the current one was moved. -/
theorem Repo.resolve_moved (r : Repo) (target : ℕ) (sym : Name) : (r.moved target).resolveRef (.Symbolic sym) =
    if r.head = .Symbolic sym then some target else r.resolveRef (.Symbolic sym) := by
  unfold Repo.moved
  cases hh : r.head with
  | Direct o => simp [Repo.resolveRef]
  | Symbolic cur =>
    by_cases hcur : cur = sym
    · simp [Repo.resolveRef,hcur]
    · have hfind : (fun x : Name × ℕ => !decide (x.1 = cur) && decide (x.1 = sym)) = fun x => decide (x.1 = sym) := by
        funext x
        by_cases hx : x.1 = sym
        · simp [hx,Ne.symm hcur]
        · simp [hx]
      simp [Repo.resolveRef,hcur,hfind]

theorem Repo.reach_moved {a b : ℕ} (h : r.graph.toDag.Reach a b) : (r.moved target).graph.toDag.Reach a b :=
  Repo.reach_of_prefix (r.commits_moved target ▸ List.prefix_refl _) h

theorem historyInvariant_forward (branch : Name) (r₀ : Repo) : HistoryInvariant (Forward branch r₀) where
  sound h := h.sound
  same {r r'} hs h := by
    refine ⟨(historyInvariant_appendOnly r₀).same hs h.toAppendOnly,fun hold => ?_⟩
    obtain ⟨new,hnew,hreach⟩ := h.tip hold
    refine ⟨new,?_,Repo.reach_of_prefix (hs.1 ▸ List.prefix_refl _) hreach⟩
    rwa [Repo.resolveRef,hs.2.2]
  commit h hc := by
    refine ⟨(historyInvariant_appendOnly r₀).commit h.toAppendOnly hc,fun hold => ?_⟩
    obtain ⟨new,hnew,hreach⟩ := h.tip hold
    exact ⟨new,hnew,Repo.reach_of_prefix (List.prefix_append _ _) hreach⟩
  advance {r target} h ht hadv := by
    refine ⟨(historyInvariant_appendOnly r₀).advance h.toAppendOnly ht hadv,fun hold => ?_⟩
    obtain ⟨new,hnew,hreach⟩ := h.tip hold
    rw [Repo.resolve_moved]
    by_cases hcur : r.head = .Symbolic branch
    · exact ⟨target,if_pos hcur,Repo.reach_moved ((hadv new (hcur ▸ hnew)).trans hreach)⟩
    · exact ⟨new,by rw [if_neg hcur,hnew],Repo.reach_moved hreach⟩
  branch {r sym oid} h ho hfresh := by
    refine ⟨(historyInvariant_appendOnly r₀).branch h.toAppendOnly ho hfresh,fun hold => ?_⟩
    obtain ⟨new,hnew,hreach⟩ := h.tip hold
    refine ⟨new,?_,hreach⟩
    obtain ⟨x,hx,hxnew⟩ := Option.map_eq_some_iff.mp hnew
    have hsym : sym ≠ branch := fun heq =>
      hfresh x (List.mem_of_find?_eq_some hx) ((by simpa using List.find?_some hx : x.1 = branch).trans heq.symm)
    simpa [Repo.resolveRef,hsym] using hnew
  head h ho := ⟨(historyInvariant_appendOnly r₀).head h.toAppendOnly ho,h.tip⟩

end Invariants

/-- An empty commit on `m`, a branch `b` with another commit on it, and `m` taken there. -/
def branchEvents : List Event :=
  [.command .plain (.Commit ⟨some [],true⟩ none),.command .plain (.SwitchCreate [98] (.Symbolic [109])),
    .command .plain (.Commit ⟨some [],true⟩ none),.command .plain (.Checkout (.Symbolic [109]) .Safe),
    .command .plain (.Merge (.Symbolic [98]) [98] ⟨false,false⟩)]

theorem sound_init : Repo.init.Sound := ⟨by simp [Repo.init],by simp [Repo.init],by simp [Repo.init],by simp [Repo.init]⟩

/-- A branch that is not reset keeps every commit it has, whatever is merged, picked, committed or checked out. -/
theorem runEvents_forward (branch : Name) {r : Repo} (hr : r.Sound) {events : List Event}
    (hreset : EventsMeet (fun r' e => e.isReset → r'.head ≠ .Symbolic branch) r events) :
    Forward branch r (runEvents r events) := by
  refine runEvents_induction (I := Forward branch r) (fun r' e he h => ?_)
    ⟨⟨hr,List.prefix_refl _⟩,fun hold => ⟨_,hold,Dag.Reach.refl _⟩⟩ hreset
  refine run_event (historyInvariant_forward branch r) h fun hres r'' oid h'' hext ho => ?_
  have hhead : r''.head ≠ .Symbolic branch := hext.head ▸ he hres
  refine ⟨⟨h''.sound.moved ho,by rw [Repo.commits_moved]; exact h''.commits⟩,fun hold => ?_⟩
  obtain ⟨new,hnew,hreach⟩ := h''.tip hold
  exact ⟨new,by rw [Repo.resolve_moved,if_neg hhead,hnew],Repo.reach_moved hreach⟩

/-- One commit on `m`. -/
def startedRepo : Repo := {Repo.init with commits := [⟨.nil,[],(1,0)⟩], refs := [([109],0)]}

theorem sound_started : startedRepo.Sound := by
  have hone {i : ℕ} {c : Commit} (h : startedRepo.commits[i]? = some c) : c.parents = [] := by
    cases i with
    | zero => exact congrArg Commit.parents (Option.some.inj h).symm
    | succ i => simp [startedRepo] at h
  refine ⟨fun h p hp => ?_,fun h p hp => ?_,by simp [startedRepo],by simp [startedRepo,Repo.init]⟩
  · simp [hone h] at hp
  · simp [hone h] at hp

theorem runEvents_forward_branch : Forward [109] startedRepo (runEvents startedRepo branchEvents) ∧
    (runEvents startedRepo branchEvents).resolveRef (.Symbolic [109]) = some 2 := by
  refine ⟨runEvents_forward [109] sound_started ?_,by decide +kernel⟩
  simp [branchEvents,EventsMeet,Event.isReset]

end Libbit
