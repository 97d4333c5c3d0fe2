import Libbit.MergeBase

/-! What one turn of the merge-base loop can do, the painting invariant it keeps, and
the facts that hold for every commit graph whatever its clocks say. -/
namespace Libbit
namespace MergeBase
open Lib

namespace NodeFlags

theorem le_iff {f h : NodeFlags} : f.Le h ↔ (f.parent1 → h.parent1) ∧ (f.parent2 → h.parent2) ∧
    (f.result → h.result) ∧ (f.stale → h.stale) := by
  obtain ⟨a,b,c,d⟩ := f
  obtain ⟨p,q,r,s⟩ := h
  revert a b c d p q r s
  simp only [Le,union]
  decide

theorem Le.refl (f : NodeFlags) : f.Le f := le_iff.mpr ⟨id,id,id,id⟩

theorem Le.trans {f h k : NodeFlags} (h₁ : f.Le h) (h₂ : h.Le k) : f.Le k := by
  rw [le_iff] at *
  tauto

theorem le_union_left (f h : NodeFlags) : f.Le (f.union h) := by simp [le_iff,union]; tauto
theorem le_union_right (f h : NodeFlags) : h.Le (f.union h) := by simp [le_iff,union]; tauto

@[simp] theorem forParents_parent1 (f : NodeFlags) : f.forParents.parent1 = f.parent1 := rfl
@[simp] theorem forParents_parent2 (f : NodeFlags) : f.forParents.parent2 = f.parent2 := rfl
@[simp] theorem forParents_result (f : NodeFlags) : f.forParents.result = false := rfl
@[simp] theorem forParents_stale (f : NodeFlags) : f.forParents.stale = (f.stale || f.both) := rfl

@[simp] theorem union_union_self (f h : NodeFlags) : (f.union h).union h = f.union h := by
  simp [union]

/-- The result bit is never handed on. -/
@[simp] theorem forParents_union_RESULT (f : NodeFlags) : (f.union .RESULT).forParents = f.forParents := by
  simp [forParents,union,RESULT,empty,both]

end NodeFlags

variable {Oid : Type} {g : CommitGraph Oid}

/-- Some node of the commit is queued. -/
def MergeBaseCtxt.Queued (s : MergeBaseCtxt Oid) (c : Oid) : Prop := ∃ node ∈ s.pqueue, node.commit = c

/-- Total number of paths below the queued commits. -/
def MergeBaseCtxt.load (g : CommitGraph Oid) (s : MergeBaseCtxt Oid) : ℕ :=
  (s.pqueue.map fun node => g.toDag.weight node.commit).sum

/-! ### The heap -/

theorem pop_perm {q : List (CommitNode Oid)} {node : CommitNode Oid} {rest : List (CommitNode Oid)}
    (h : pop g q = some (node,rest)) : q.Perm (node::rest) := by
  induction q generalizing node rest with
  | nil => simp [pop] at h
  | cons x xs ih =>
    simp only [pop] at h
    cases hp : pop g xs with
    | none =>
      rw [hp] at h
      obtain ⟨rfl,rfl⟩ : x = node ∧ [] = rest := by simpa using h
      have hxs : xs = [] := by
        cases xs with
        | nil => rfl
        | cons y ys =>
          simp only [pop] at hp
          cases hq : pop g ys <;> simp only [hq] at hp
          · simp at hp
          · split at hp <;> simp at hp
      rw [hxs]
    | some p =>
      obtain ⟨y,ys⟩ := p
      have hy := ih hp
      simp only [hp] at h
      split at h
      · obtain ⟨rfl,rfl⟩ : y = node ∧ x::ys = rest := by simpa using h
        exact (hy.cons x).trans (List.Perm.swap y x ys)
      · obtain ⟨rfl,rfl⟩ : x = node ∧ y::ys = rest := by simpa using h
        exact hy.cons x

/-- Nothing left in the heap is newer than the popped node. -/
theorem pop_time_le {q : List (CommitNode Oid)} {node : CommitNode Oid} {rest : List (CommitNode Oid)}
    (h : pop g q = some (node,rest)) : ∀ x ∈ rest, g.time x.commit ≤ g.time node.commit := by
  induction q generalizing node rest with
  | nil => simp [pop] at h
  | cons x xs ih =>
    simp only [pop] at h
    cases hp : pop g xs with
    | none =>
      rw [hp] at h
      obtain ⟨rfl,rfl⟩ : x = node ∧ [] = rest := by simpa using h
      simp
    | some p =>
      obtain ⟨y,ys⟩ := p
      have hy := ih hp
      simp only [hp] at h
      split at h
      · rename_i hlt
        obtain ⟨rfl,rfl⟩ : y = node ∧ x::ys = rest := by simpa using h
        simp only [CommitNode.lt,decide_eq_true_eq] at hlt
        have hxy : g.time x.commit ≤ g.time y.commit := hlt.elim le_of_lt fun h => h.1.le
        simpa [hxy] using hy
      · rename_i hlt
        obtain ⟨rfl,rfl⟩ : x = node ∧ y::ys = rest := by simpa using h
        simp only [CommitNode.lt,decide_eq_true_eq,not_or,not_lt] at hlt
        intro z hz
        rcases List.mem_cons.mp hz with rfl | hz
        · exact hlt.1
        · exact (hy z hz).trans hlt.1

theorem pop_isSome {q : List (CommitNode Oid)} (hq : q ≠ []) : ∃ p, pop g q = some p := by
  cases q with
  | nil => exact absurd rfl hq
  | cons x xs =>
    simp only [pop]
    cases pop g xs with
    | none => exact ⟨_,rfl⟩
    | some p => obtain ⟨y,ys⟩ := p; by_cases h : x.lt g y <;> simp [h]

/-! ### One turn of the loop -/

/-- What painting the parents `ps` with `pf` does to the context. -/
structure Painted (g : CommitGraph Oid) (pf : NodeFlags) (ps : List Oid) (s s' : MergeBaseCtxt Oid) : Prop where
  candidates : s'.candidates = s.candidates
  grow : ∀ c, (s.nodeFlags c).Le (s'.nodeFlags c)
  painted : ∀ p ∈ ps, pf.Le (s'.nodeFlags p)
  changed : ∀ c, s'.nodeFlags c ≠ s.nodeFlags c →
    c ∈ ps ∧ s'.Queued c ∧ s'.nodeFlags c = (s.nodeFlags c).union pf
  pushed : ∃ ns, s'.pqueue = s.pqueue++ns ∧ (∀ node ∈ ns, node.commit ∈ ps) ∧
    (ns.map fun node => g.toDag.weight node.commit).sum ≤ (ps.map g.toDag.weight).sum

theorem Painted.queued {pf : NodeFlags} {ps : List Oid} {s s' : MergeBaseCtxt Oid}
    (h : Painted g pf ps s s') {c : Oid} (hc : s.Queued c) : s'.Queued c := by
  obtain ⟨ns,hq,_⟩ := h.pushed
  obtain ⟨node,hn,rfl⟩ := hc
  exact ⟨node,by simp [hq,hn],rfl⟩

/-- A commit whose flags a turn changed has been queued again. -/
theorem Painted.unchanged {pf : NodeFlags} {ps : List Oid} {s s' : MergeBaseCtxt Oid}
    (h : Painted g pf ps s s') {c : Oid} (hc : ¬s'.Queued c) : s'.nodeFlags c = s.nodeFlags c := by
  by_contra hne
  exact hc (h.changed c hne).2.1

/-- Flags are earned along paths, and every settled commit has handed its flags on. -/
structure Inv (g : CommitGraph Oid) (a b : Oid) (s : MergeBaseCtxt Oid) : Prop where
  head1 : (s.nodeFlags a).parent1
  head2 : (s.nodeFlags b).parent2
  sound1 : ∀ c, (s.nodeFlags c).parent1 → g.toDag.Reach a c
  sound2 : ∀ c, (s.nodeFlags c).parent2 → g.toDag.Reach b c
  sound_stale : ∀ c, (s.nodeFlags c).stale → ∃ y, g.toDag.Common a b y ∧ g.toDag.Proper y c
  result : ∀ c, (s.nodeFlags c).result ↔ c ∈ s.candidates
  both : ∀ c ∈ s.candidates, (s.nodeFlags c).both
  nodup : s.candidates.Nodup
  settled : ∀ c, ¬s.Queued c → ∀ p ∈ g.parents c, (s.nodeFlags c).forParents.Le (s.nodeFlags p)
  recorded : ∀ c, ¬s.Queued c → (s.nodeFlags c).both → (s.nodeFlags c).stale ∨ (s.nodeFlags c).result

theorem Inv.common {a b : Oid} {s : MergeBaseCtxt Oid} (h : Inv g a b s) {c : Oid}
    (hc : (s.nodeFlags c).both) : g.toDag.Common a b c := by
  simp only [NodeFlags.both,Bool.and_eq_true] at hc
  exact ⟨h.sound1 c hc.1,h.sound2 c hc.2⟩

theorem Inv.not_stale_of_best {a b : Oid} {s : MergeBaseCtxt Oid} (hi : Inv g a b s) {x c : Oid}
    (hx : g.toDag.Best a b x) (hc : g.toDag.Reach c x) : ¬(s.nodeFlags c).stale := by
  intro hs
  obtain ⟨y,hy,hyc⟩ := hi.sound_stale c hs
  exact hx.2 y hy (hyc.trans_reach hc)

/-- Along a path on which nothing is queued the painting reaches the end. -/
theorem Inv.reached {a b : Oid} {s : MergeBaseCtxt Oid} (hi : Inv g a b s) {x : Oid}
    (hx : ∀ c, g.toDag.Reach c x → ¬s.Queued c) :
    (g.toDag.Reach a x → (s.nodeFlags x).parent1) ∧ (g.toDag.Reach b x → (s.nodeFlags x).parent2) := by
  have hle : ∀ c p, g.toDag.Edge c p → g.toDag.Reach p x → (s.nodeFlags c).forParents.Le (s.nodeFlags p) :=
    fun c p hcp hpx => hi.settled c (hx c (hcp.reach.trans hpx)) p hcp
  constructor
  · intro h
    refine h.closed (P := fun c => (s.nodeFlags c).parent1) hi.head1 ?_
    intro c p _ hc hcp hpx
    exact (NodeFlags.le_iff.mp (hle c p hcp hpx)).1 hc
  · intro h
    refine h.closed (P := fun c => (s.nodeFlags c).parent2) hi.head2 ?_
    intro c p _ hc hcp hpx
    exact (NodeFlags.le_iff.mp (hle c p hcp hpx)).2.1 hc

variable [DecidableEq Oid]

/-- The loop over the parents, one parent at a time. -/
theorem visitParents_painted (pf : NodeFlags) (ps : List Oid) (s : MergeBaseCtxt Oid) :
    Painted g pf ps s (ps.foldl (visitParent pf) s) := by
  induction ps generalizing s with
  | nil => exact ⟨rfl,fun c => .refl _,by simp,by simp,[],by simp⟩
  | cons p ps ih =>
    have ht := ih (visitParent pf s p)
    rw [List.foldl_cons]
    by_cases hp : s.nodeFlags p = pf
    · -- equal flags: the parent is left alone
      rw [show visitParent pf s p = s from by simp [visitParent,hp]] at ht ⊢
      obtain ⟨ns,hq,hns,hw⟩ := ht.pushed
      refine ⟨ht.candidates,ht.grow,?_,?_,ns,hq,?_,?_⟩
      · intro q hq
        rcases List.mem_cons.mp hq with rfl | hq
        · exact hp ▸ ht.grow q
        · exact ht.painted q hq
      · intro c hc
        obtain ⟨h₁,h₂⟩ := ht.changed c hc
        exact ⟨List.mem_cons_of_mem _ h₁,h₂⟩
      · exact fun node hn => List.mem_cons_of_mem _ (hns node hn)
      · simp only [List.map_cons,List.sum_cons]
        omega
    · have hv : visitParent pf s p = s.push p pf := by simp [visitParent,hp]
      rw [hv] at ht ⊢
      have hflag : ∀ c, (s.push p pf).nodeFlags c =
          if c = p then (s.nodeFlags p).union pf else s.nodeFlags c := by
        intro c
        by_cases hc : c = p <;> simp [MergeBaseCtxt.push,hc]
      have hgrow : ∀ c, (s.nodeFlags c).Le ((s.push p pf).nodeFlags c) := by
        intro c
        rw [hflag]
        split_ifs with hc
        · exact hc ▸ NodeFlags.le_union_left _ _
        · exact .refl _
      have hqp : (s.push p pf).Queued p := ⟨⟨p,s.index⟩,by simp [MergeBaseCtxt.push],rfl⟩
      obtain ⟨ns,hq,hns,hw⟩ := ht.pushed
      refine ⟨ht.candidates,fun c => (hgrow c).trans (ht.grow c),?_,?_,⟨p,s.index⟩::ns,?_,?_,?_⟩
      · intro q hq
        rcases List.mem_cons.mp hq with rfl | hq
        · refine NodeFlags.Le.trans ?_ (ht.grow q)
          rw [hflag,if_pos rfl]
          exact NodeFlags.le_union_right _ _
        · exact ht.painted q hq
      · intro c hc
        by_cases hcs : (List.foldl (visitParent pf) (s.push p pf) ps).nodeFlags c = (s.push p pf).nodeFlags c
        · have hcp : c = p := by
            by_contra hne
            exact hc (by rw [hcs,hflag,if_neg hne])
          subst hcp
          exact ⟨by simp,ht.queued hqp,by rw [hcs,hflag,if_pos rfl]⟩
        · obtain ⟨h₁,h₂,h₃⟩ := ht.changed c hcs
          refine ⟨List.mem_cons_of_mem _ h₁,h₂,?_⟩
          rw [h₃,hflag]
          split_ifs with hcp
          · rw [hcp,NodeFlags.union_union_self]
          · rfl
      · rw [hq]
        simp [MergeBaseCtxt.push]
      · intro node hn
        rcases List.mem_cons.mp hn with rfl | hn
        · simp
        · exact List.mem_cons_of_mem _ (hns node hn)
      · simp only [List.map_cons,List.sum_cons]
        omega

/-- Everything one turn can do: a node is popped, perhaps recorded, and its parents are painted. -/
theorem step_cases {s s' : MergeBaseCtxt Oid} (h : step g s = some s') :
    ∃ node rest, pop g s.pqueue = some (node,rest) ∧ s.stillInteresting ∧
      Painted g (s.nodeFlags node.commit).forParents (g.parents node.commit)
        (markResult {s with pqueue := rest} node.commit) s' := by
  simp only [step] at h
  split at h
  · rename_i hi
    obtain ⟨⟨node,rest⟩,hp,rfl⟩ := Option.map_eq_some_iff.mp h
    exact ⟨node,rest,hp,hi,visitParents_painted _ _ _⟩
  · simp at h

/-- The loop ends only when every queued node is stale. -/
theorem step_none {s : MergeBaseCtxt Oid} (h : step g s = none) {c : Oid} (hc : s.Queued c) :
    (s.nodeFlags c).stale := by
  simp only [step] at h
  obtain ⟨node,hn,rfl⟩ := hc
  split at h
  · obtain ⟨p,hp⟩ := pop_isSome (g:=g) (q:=s.pqueue) (List.ne_nil_of_mem hn)
    simp [hp] at h
  · rename_i hi
    simp only [MergeBaseCtxt.stillInteresting,List.any_eq_true,not_exists,not_and] at hi
    simpa using hi node hn

@[simp] theorem markResult_pqueue (s : MergeBaseCtxt Oid) (c : Oid) : (markResult s c).pqueue = s.pqueue := by
  simp only [markResult]
  split <;> rfl

/-- Recording a result changes nothing that is handed on. -/
theorem markResult_forParents (s : MergeBaseCtxt Oid) (c d : Oid) :
    ((markResult s c).nodeFlags d).forParents = (s.nodeFlags d).forParents := by
  simp only [markResult]
  split
  · by_cases hd : d = c <;> simp [hd]
  · rfl

theorem markResult_grow (s : MergeBaseCtxt Oid) (c d : Oid) :
    (s.nodeFlags d).Le ((markResult s c).nodeFlags d) := by
  simp only [markResult]
  split
  · by_cases hd : d = c
    · simp [hd,NodeFlags.le_union_left]
    · simp [hd,NodeFlags.Le.refl]
  · exact .refl _

/-- Each turn takes one path off the load. -/
theorem step_load {s s' : MergeBaseCtxt Oid} (h : step g s = some s') : s'.load g < s.load g := by
  obtain ⟨node,rest,hp,_,hpt⟩ := step_cases h
  obtain ⟨ns,hq,_,hw⟩ := hpt.pushed
  have hs : s.load g = g.toDag.weight node.commit+
      (rest.map fun node => g.toDag.weight node.commit).sum := by
    have hsum := ((pop_perm hp).map fun node : CommitNode Oid => g.toDag.weight node.commit).sum_eq
    rw [MergeBaseCtxt.load,hsum]
    simp
  have hw' : g.toDag.weight node.commit = 1+((g.parents node.commit).map g.toDag.weight).sum :=
    Dag.weight_eq (g:=g.toDag) node.commit
  have hs' : s'.load g = (rest.map fun node => g.toDag.weight node.commit).sum+
      (ns.map fun node => g.toDag.weight node.commit).sum := by
    simp [MergeBaseCtxt.load,hq]
  omega

/-- A budget above the load is never used up, and what the loop keeps holds at its end. -/
theorem buildLoop_run {P : MergeBaseCtxt Oid → Prop}
    (hP : ∀ s s', P s → step g s = some s' → P s') (fuel : ℕ) (s : MergeBaseCtxt Oid)
    (hs : P s) (hf : s.load g < fuel) :
    ∃ t, buildLoop g fuel s = some t ∧ P t ∧ step g t = none := by
  induction fuel generalizing s with
  | zero => omega
  | succ fuel ih =>
    cases hst : step g s with
    | none => exact ⟨s,by simp [buildLoop,hst],hs,hst⟩
    | some s' =>
      have hl := step_load hst
      obtain ⟨t,ht,hpt⟩ := ih s' (hP s s' hs hst) (by omega)
      exact ⟨t,by simp [buildLoop,hst,ht],hpt⟩

/-- Run rule for the whole search. -/
theorem buildCandidates_run {P : MergeBaseCtxt Oid → Prop} {a b : Oid} (h₀ : P (initial a b))
    (hP : ∀ s s', P s → step g s = some s' → P s') :
    ∃ t, buildCandidates g a b = some t ∧ P t ∧ step g t = none := by
  apply buildLoop_run hP _ _ h₀
  simp [MergeBaseCtxt.load,initial,MergeBaseCtxt.push]

/-! ### The painting invariant -/

section Markings
variable (s : MergeBaseCtxt Oid) (c d : Oid)

@[simp] theorem markResult_parent1 : ((markResult s c).nodeFlags d).parent1 = (s.nodeFlags d).parent1 := by
  simpa using congrArg NodeFlags.parent1 (markResult_forParents s c d)

@[simp] theorem markResult_parent2 : ((markResult s c).nodeFlags d).parent2 = (s.nodeFlags d).parent2 := by
  simpa using congrArg NodeFlags.parent2 (markResult_forParents s c d)

@[simp] theorem markResult_stale : ((markResult s c).nodeFlags d).stale = (s.nodeFlags d).stale := by
  simp only [markResult]
  split
  · by_cases hd : d = c <;> simp [hd,NodeFlags.union,NodeFlags.RESULT,NodeFlags.empty]
  · rfl

/-- The result bit marks exactly the recorded candidates. -/
theorem markResult_result (h : ∀ d, (s.nodeFlags d).result ↔ d ∈ s.candidates) :
    ((markResult s c).nodeFlags d).result ↔ d ∈ (markResult s c).candidates := by
  simp only [markResult]
  split
  · by_cases hd : d = c
    · simp [hd,NodeFlags.union,NodeFlags.RESULT]
    · simp [hd,h]
  · exact h d

end Markings

theorem initial_flags (a b c : Oid) : (initial a b).nodeFlags c =
    ⟨decide (c = a),decide (c = b),false,false⟩ := by
  by_cases ha : c = a <;> by_cases hb : c = b <;>
    simp_all [initial,MergeBaseCtxt.push,NodeFlags.union,NodeFlags.empty,NodeFlags.PARENT1,
      NodeFlags.PARENT2,Function.update_apply]

theorem initial_queued (a b c : Oid) : (initial a b).Queued c ↔ c = a ∨ c = b := by
  simp [MergeBaseCtxt.Queued,initial,MergeBaseCtxt.push,eq_comm]

theorem inv_initial (a b : Oid) : Inv g a b (initial a b) where
  head1 := by simp [initial_flags]
  head2 := by simp [initial_flags]
  sound1 c hc := by
    obtain rfl : c = a := by simpa [initial_flags] using hc
    exact Dag.Reach.refl c
  sound2 c hc := by
    obtain rfl : c = b := by simpa [initial_flags] using hc
    exact Dag.Reach.refl c
  sound_stale c hc := by simp [initial_flags] at hc
  result c := by
    rw [initial_flags]
    simp [initial,MergeBaseCtxt.push]
  both c hc := by simp [initial,MergeBaseCtxt.push] at hc
  nodup := by simp [initial,MergeBaseCtxt.push]
  settled c hc p _ := by
    rw [initial_queued,not_or] at hc
    simp [initial_flags,hc,NodeFlags.le_iff,NodeFlags.both]
  recorded c hc hb := by
    rw [initial_queued,not_or] at hc
    simp [initial_flags,hc,NodeFlags.both] at hb

theorem inv_step {a b : Oid} {s s' : MergeBaseCtxt Oid} (hi : Inv g a b s) (h : step g s = some s') :
    Inv g a b s' := by
  obtain ⟨node,rest,hp,_,hpt⟩ := step_cases h
  set t : MergeBaseCtxt Oid := {s with pqueue := rest} with ht
  set n := node.commit with hn
  have hgrow : ∀ c, (s.nodeFlags c).Le (s'.nodeFlags c) := fun c =>
    (markResult_grow t n c).trans (hpt.grow c)
  -- the flags of `c` after the turn come from before or from the popped node
  have hflag : ∀ c (P : NodeFlags → Bool), (∀ f f', P (f.union f') = (P f || P f')) →
      P (s'.nodeFlags c) → P ((markResult t n).nodeFlags c) ∨
        g.toDag.Edge n c ∧ P (s.nodeFlags n).forParents := by
    intro c P hP hc
    by_cases he : s'.nodeFlags c = (markResult t n).nodeFlags c
    · exact .inl (he ▸ hc)
    · obtain ⟨h₁,_,h₃⟩ := hpt.changed c he
      rw [h₃,hP,Bool.or_eq_true] at hc
      exact hc.imp id fun hc => ⟨h₁,hc⟩
  have hres : ∀ c, (t.nodeFlags c).result ↔ c ∈ t.candidates := hi.result
  have hcand : ∀ c, (s'.nodeFlags c).result ↔ c ∈ s'.candidates := by
    intro c
    rw [hpt.candidates,← markResult_result t n c hres]
    constructor
    · intro hc
      exact (hflag c NodeFlags.result (fun _ _ => rfl) hc).elim id fun h => by simp at h
    · exact (NodeFlags.le_iff.mp (hpt.grow c)).2.2.1
  have hqueued : ∀ c, ¬s'.Queued c → c = n ∨ ¬s.Queued c := by
    intro c hc
    by_contra hne
    rw [not_or,not_not] at hne
    obtain ⟨x,hx,hxc⟩ := hne.2
    have hxr : x ∈ rest := by
      rcases List.mem_cons.mp ((pop_perm hp).mem_iff.mp hx) with rfl | hxr
      · exact absurd hxc.symm hne.1
      · exact hxr
    exact hc (hpt.queued ⟨x,by simpa [t] using hxr,hxc⟩)
  have hboth : ∀ c, (s.nodeFlags c).both → (s'.nodeFlags c).both := by
    intro c hc
    have := NodeFlags.le_iff.mp (hgrow c)
    simp only [NodeFlags.both,Bool.and_eq_true] at hc ⊢
    exact ⟨this.1 hc.1,this.2.1 hc.2⟩
  refine ⟨?_,?_,?_,?_,?_,hcand,?_,?_,?_,?_⟩
  · exact (NodeFlags.le_iff.mp (hgrow a)).1 hi.head1
  · exact (NodeFlags.le_iff.mp (hgrow b)).2.1 hi.head2
  · intro c hc
    rcases hflag c NodeFlags.parent1 (fun _ _ => rfl) hc with hc | ⟨he,hc⟩
    · exact hi.sound1 c (by simpa using hc)
    · exact (hi.sound1 n hc).tail he
  · intro c hc
    rcases hflag c NodeFlags.parent2 (fun _ _ => rfl) hc with hc | ⟨he,hc⟩
    · exact hi.sound2 c (by simpa using hc)
    · exact (hi.sound2 n hc).tail he
  · intro c hc
    rcases hflag c NodeFlags.stale (fun _ _ => rfl) hc with hc | ⟨he,hc⟩
    · exact hi.sound_stale c (by simpa using hc)
    · rw [NodeFlags.forParents_stale,Bool.or_eq_true] at hc
      rcases hc with hc | hc
      · obtain ⟨y,hy,hyn⟩ := hi.sound_stale n hc
        exact ⟨y,hy,hyn.trans_reach he.reach⟩
      · exact ⟨n,hi.common hc,.single he⟩
  · intro c hc
    rw [hpt.candidates] at hc
    simp only [markResult] at hc
    split at hc
    · rename_i hm
      rcases List.mem_append.mp hc with hc | hc
      · exact hboth c (hi.both c hc)
      · obtain rfl : c = n := by simpa using hc
        exact hboth _ hm.1
    · exact hboth c (hi.both c hc)
  · rw [hpt.candidates]
    simp only [markResult]
    split
    · rename_i hm
      have hnew : n ∉ s.candidates := fun h => hm.2 (.inl ((hi.result n).mpr h))
      exact List.nodup_append.mpr ⟨hi.nodup,by simp,by
        intro x hx y hy
        obtain rfl : y = n := by simpa using hy
        exact fun h => hnew (h ▸ hx)⟩
    · exact hi.nodup
  · intro c hc p hpc
    rw [hpt.unchanged hc,markResult_forParents]
    rcases hqueued c hc with rfl | hcq
    · exact hpt.painted p hpc
    · exact (hi.settled c hcq p hpc).trans (hgrow p)
  · intro c hc hb
    have he := hpt.unchanged hc
    rw [he] at hb ⊢
    simp only [NodeFlags.both,markResult_parent1,markResult_parent2] at hb
    rcases hqueued c hc with rfl | hcq
    · by_cases hm : (t.nodeFlags n).result ∨ (t.nodeFlags n).stale
      · rcases hm with hm | hm
        · exact .inr ((NodeFlags.le_iff.mp (markResult_grow t n n)).2.2.1 hm)
        · exact .inl (by simpa using hm)
      · right
        simp only [markResult]
        rw [if_pos ⟨hb,hm⟩]
        simp [NodeFlags.union,NodeFlags.RESULT]
    · rcases hi.recorded c hcq hb with h | h
      · exact .inl (by simpa using h)
      · exact .inr ((NodeFlags.le_iff.mp (markResult_grow t n c)).2.2.1 h)

/-! ### What the search returns, whatever the clocks -/

/-- At the end of the loop the commits that are not stale are settled. -/
theorem not_queued_of_end {s : MergeBaseCtxt Oid} (hs : step g s = none) {c : Oid}
    (hc : ¬(s.nodeFlags c).stale) : ¬s.Queued c := fun hq => hc (step_none hs hq)

theorem Inv.best_mem {a b : Oid} {s : MergeBaseCtxt Oid} (hi : Inv g a b s) (hs : step g s = none) {x : Oid}
    (hx : g.toDag.Best a b x) : x ∈ s.candidates ∧ ¬(s.nodeFlags x).stale := by
  have hns : ∀ c, g.toDag.Reach c x → ¬(s.nodeFlags c).stale := fun c => hi.not_stale_of_best hx
  have hr := hi.reached fun c hc => not_queued_of_end hs (hns c hc)
  have hx' := hns x (.refl x)
  have hb : (s.nodeFlags x).both := by
    simp [NodeFlags.both,hr.1 hx.1.1,hr.2 hx.1.2]
  refine ⟨?_,hx'⟩
  rw [← hi.result]
  exact (hi.recorded x (not_queued_of_end hs hx') hb).resolve_left hx'

/-- The candidates at the end of the loop are what the search returns once the stale ones are out. -/
theorem findMergeBases_run (g : CommitGraph Oid) (a b : Oid) : ∃ s, buildCandidates g a b = some s ∧ Inv g a b s ∧
    step g s = none ∧ findMergeBases g a b = some (s.candidates.filter fun node => !(s.nodeFlags node).stale) := by
  obtain ⟨s,hs,hi,hend⟩ := buildCandidates_run (P := Inv g a b) (inv_initial a b) fun _ _ => inv_step
  exact ⟨s,hs,hi,hend,by simp [findMergeBases,mergeBasesAll,hs]⟩

theorem common_of_mem {a b : Oid} {l : List Oid} (h : findMergeBases g a b = some l) {x : Oid} (hx : x ∈ l) :
    g.toDag.Common a b x := by
  obtain ⟨s,-,hi,-,hl⟩ := findMergeBases_run g a b
  obtain rfl : _ = l := Option.some.inj (hl.symm.trans h)
  exact hi.common (hi.both x (List.mem_of_mem_filter hx))

/-- The search ends, repeats nothing, returns common ancestors only and misses no best one. -/
theorem findMergeBases_sound_complete (g : CommitGraph Oid) (a b : Oid) :
    ∃ s, buildCandidates g a b = some s ∧ step g s = none ∧
      ∃ l, findMergeBases g a b = some l ∧ l.Nodup ∧
        (∀ x ∈ l, g.toDag.Common a b x) ∧ ∀ x, g.toDag.Best a b x → x ∈ l := by
  obtain ⟨s,hs,hi,hend,hl⟩ := findMergeBases_run g a b
  refine ⟨s,hs,hend,_,hl,hi.nodup.filter _,fun x => common_of_mem hl,fun x hx => ?_⟩
  obtain ⟨hm,hst⟩ := hi.best_mem hend hx
  exact List.mem_filter.mpr ⟨hm,by simpa using hst⟩

end MergeBase
end Libbit
