import Libbit.MergeBaseInvariant

/-! Merge bases on histories whose clocks never run backwards. Staleness travels down
the graph through the same queue as the painting, so among commits of one instant a
candidate can be recorded before the news that it is stale arrives, and the loop can
end with that news still queued. -/
namespace Libbit
namespace MergeBase
open Lib

variable {Oid : Type}

/-- The commits a painting race can leave behind: a common ancestor that is not best, that
both heads reach by chains without a common commit, every common child of which is neither
best nor newer, and than which nothing unshared and no best common ancestor is older. -/
structure Raced (g : CommitGraph Oid) (a b x : Oid) : Prop where
  common : g.toDag.Common a b x
  not_best : ¬g.toDag.Best a b x
  chains : ∃ S T : Set Oid, Disjoint S T ∧ g.toDag.ReachFrom S a x ∧ g.toDag.ReachFrom T b x
  level : ∀ z, g.toDag.Edge z x → g.toDag.Common a b z → ¬g.toDag.Best a b z ∧ g.time z = g.time x
  oldest : ∀ c, g.toDag.Reach a c ∨ g.toDag.Reach b c →
    ¬g.toDag.Common a b c ∨ g.toDag.Best a b c → g.time x ≤ g.time c

/-- Clocks that strictly advance leave no room for a race. -/
theorem not_raced_of_strict {g : CommitGraph Oid} (hg : ∀ c, ∀ p ∈ g.parents c, g.time p < g.time c)
    (a b x : Oid) : ¬Raced g a b x := by
  intro h
  have hb := h.not_best
  simp only [Dag.Best,not_and,not_forall,not_not] at hb
  obtain ⟨y,hy,hyx⟩ := hb h.common
  obtain ⟨z,hyz,hzx⟩ := Relation.TransGen.tail'_iff.mp hyx
  have hz := (h.level z hzx (hy.of_reach hyz)).2
  exact absurd hz (hg z x hzx).ne'

variable {g : CommitGraph Oid}

theorem monotone_reach (hm : g.Monotone) {c d : Oid} (h : g.toDag.Reach c d) : g.time d ≤ g.time c :=
  Dag.Reach.antitone (g:=g.toDag) (f:=g.time) (fun {u v} huv => hm u v huv) h

/-- A settled commit with both flags has made its parents stale. -/
theorem Inv.stale_of_both {a b : Oid} {s : MergeBaseCtxt Oid} (hi : Inv g a b s) {c p : Oid}
    (hc : ¬s.Queued c) (hb : (s.nodeFlags c).both) (hp : g.toDag.Edge c p) : (s.nodeFlags p).stale :=
  (NodeFlags.le_iff.mp (hi.settled c hc p hp)).2.2.2 (by simp [hb])

theorem Inv.stale_of_stale {a b : Oid} {s : MergeBaseCtxt Oid} (hi : Inv g a b s) {c p : Oid}
    (hc : ¬s.Queued c) (hb : (s.nodeFlags c).stale) (hp : g.toDag.Edge c p) : (s.nodeFlags p).stale :=
  (NodeFlags.le_iff.mp (hi.settled c hc p hp)).2.2.2 (by simp [hb])

theorem Inv.both_of_settled {a b : Oid} {s : MergeBaseCtxt Oid} (hi : Inv g a b s) {x : Oid}
    (hx : g.toDag.Common a b x) (hq : ∀ c, g.toDag.Reach c x → ¬s.Queued c) : (s.nodeFlags x).both := by
  have hr := hi.reached hq
  simp [NodeFlags.both,hr.1 hx.1,hr.2 hx.2]

variable [DecidableEq Oid]

/-- A turn queues nothing newer than the node it popped. -/
theorem step_time_le (hm : g.Monotone) {s s' : MergeBaseCtxt Oid} {node : CommitNode Oid}
    {rest : List (CommitNode Oid)} (hp : pop g s.pqueue = some (node,rest))
    (hpt : Painted g (s.nodeFlags node.commit).forParents (g.parents node.commit)
      (markResult {s with pqueue := rest} node.commit) s') {q : Oid} (hq : s'.Queued q) :
    g.time q ≤ g.time node.commit := by
  obtain ⟨ns,hns,hps,_⟩ := hpt.pushed
  obtain ⟨x,hx,rfl⟩ := hq
  rw [hns,markResult_pqueue] at hx
  rcases List.mem_append.mp hx with hx | hx
  · exact pop_time_le hp x hx
  · exact hm _ _ (hps x hx)

/-- Pops come in non-increasing time: what is queued is no newer than a recorded
candidate or a settled commit. -/
structure Clocked (g : CommitGraph Oid) (s : MergeBaseCtxt Oid) : Prop where
  candidate : ∀ x ∈ s.candidates, ∀ q, s.Queued q → g.time q ≤ g.time x
  settled : ∀ c, (s.nodeFlags c).parent1 ∨ (s.nodeFlags c).parent2 → ¬s.Queued c →
    ∀ q, s.Queued q → g.time q ≤ g.time c

theorem clocked_initial (a b : Oid) : Clocked g (initial a b) where
  candidate x hx := by simp [initial,MergeBaseCtxt.push] at hx
  settled c hc hq := by
    rw [initial_queued] at hq
    exact absurd (by simpa [initial_flags] using hc) hq

theorem clocked_step (hm : g.Monotone) {s s' : MergeBaseCtxt Oid} (hc : Clocked g s)
    (h : step g s = some s') : Clocked g s' := by
  obtain ⟨node,rest,hp,_,hpt⟩ := step_cases h
  have hle : ∀ q, s'.Queued q → g.time q ≤ g.time node.commit := fun q => step_time_le hm hp hpt
  have hnode : s.Queued node.commit := ⟨node,(pop_perm hp).mem_iff.mpr (by simp),rfl⟩
  constructor
  · intro x hx q hq
    rw [hpt.candidates] at hx
    have hx' : x ∈ s.candidates ∨ x = node.commit := by
      simp only [markResult] at hx
      split at hx
      · simpa using hx
      · exact .inl hx
    rcases hx' with hx' | rfl
    · exact (hle q hq).trans (hc.candidate x hx' _ hnode)
    · exact hle q hq
  · intro c hf hcq q hq
    rw [hpt.unchanged hcq] at hf
    by_cases hcs : s.Queued c
    · -- only the popped commit leaves the queue
      have hcn : c = node.commit := by
        by_contra hne
        obtain ⟨x,hx,rfl⟩ := hcs
        rcases List.mem_cons.mp ((pop_perm hp).mem_iff.mp hx) with rfl | hxr
        · exact hne rfl
        · exact hcq (hpt.queued ⟨x,by simpa using hxr,rfl⟩)
      exact hcn ▸ hle q hq
    · exact (hle q hq).trans (hc.settled c (by simpa using hf) hcs _ hnode)

/-- A commit that is painted and not stale got its paint along commits popped with that
paint alone; no commit is popped once with only the first and once with only the second. -/
def Chained (g : CommitGraph Oid) (a b : Oid) (s : MergeBaseCtxt Oid) : Prop :=
  ∃ S T : Set Oid, Disjoint S T ∧
    (∀ c ∈ S, (s.nodeFlags c).parent1) ∧ (∀ c ∈ T, (s.nodeFlags c).parent2) ∧
    (∀ c, (s.nodeFlags c).parent1 → ¬(s.nodeFlags c).stale → g.toDag.ReachFrom S a c) ∧
    ∀ c, (s.nodeFlags c).parent2 → ¬(s.nodeFlags c).stale → g.toDag.ReachFrom T b c

theorem chained_initial (a b : Oid) : Chained g a b (initial a b) := by
  refine ⟨∅,∅,Set.disjoint_empty _,by simp,by simp,?_,?_⟩ <;> intro c hc _
  · obtain rfl : c = a := by simpa [initial_flags] using hc
    exact Relation.ReflTransGen.refl
  · obtain rfl : c = b := by simpa [initial_flags] using hc
    exact Relation.ReflTransGen.refl

/-- The paint of a commit after a turn, followed one edge back when it is new. -/
theorem Painted.chain {s s' : MergeBaseCtxt Oid} {n r : Oid} {S : Set Oid} {rest : List (CommitNode Oid)}
    (hpt : Painted g (s.nodeFlags n).forParents (g.parents n) (markResult {s with pqueue := rest} n) s')
    (P : NodeFlags → Bool) (hP : ∀ f f', P (f.union f') = (P f || P f'))
    (hmark : ∀ d, P ((markResult {s with pqueue := rest} n).nodeFlags d) = P (s.nodeFlags d))
    (hfor : ∀ f : NodeFlags, P f.forParents = P f)
    (hs : ∀ c, P (s.nodeFlags c) → ¬(s.nodeFlags c).stale → g.toDag.ReachFrom S r c)
    {c : Oid} (hc : P (s'.nodeFlags c)) (hst : ¬(s'.nodeFlags c).stale) :
    g.toDag.ReachFrom S r c ∨ (P (s.nodeFlags n) ∧ ¬(s.nodeFlags n).stale ∧ ¬(s.nodeFlags n).both ∧
      g.toDag.ReachFrom S r n ∧ g.toDag.Edge n c) := by
  have hst₀ : ¬(s.nodeFlags c).stale := fun h =>
    hst ((NodeFlags.le_iff.mp (hpt.grow c)).2.2.2 (by simpa using h))
  by_cases he : s'.nodeFlags c = (markResult {s with pqueue := rest} n).nodeFlags c
  · rw [he,hmark] at hc
    exact .inl (hs c hc hst₀)
  · obtain ⟨hmem,_,heq⟩ := hpt.changed c he
    rw [heq,hP,hmark,hfor,Bool.or_eq_true] at hc
    rw [heq] at hst
    simp only [NodeFlags.union,NodeFlags.forParents_stale,Bool.or_eq_true,not_or] at hst
    rcases hc with hc | hc
    · exact .inl (hs c hc hst₀)
    · exact .inr ⟨hc,hst.2.1,hst.2.2,hs n hc hst.2.1,hmem⟩

theorem chained_step {a b : Oid} {s s' : MergeBaseCtxt Oid} (hc : Chained g a b s)
    (h : step g s = some s') : Chained g a b s' := by
  obtain ⟨node,rest,_,_,hpt⟩ := step_cases h
  obtain ⟨S,T,hd,hS,hT,h₁,h₂⟩ := hc
  set n := node.commit with hn
  have hgrow : ∀ c, (s.nodeFlags c).Le (s'.nodeFlags c) := fun c =>
    (markResult_grow {s with pqueue := rest} n c).trans (hpt.grow c)
  -- the popped commit joins the side whose paint it carries alone
  let S' : Set Oid := S ∪ {c | c = n ∧ (s.nodeFlags n).parent1 ∧ ¬(s.nodeFlags n).parent2}
  let T' : Set Oid := T ∪ {c | c = n ∧ (s.nodeFlags n).parent2 ∧ ¬(s.nodeFlags n).parent1}
  refine ⟨S',T',?_,?_,?_,?_,?_⟩
  · rw [Set.disjoint_left] at hd ⊢
    rintro c (hcS | ⟨hcn,_,hc2⟩) (hcT | ⟨hcn,hd1,hd2⟩)
    · exact hd hcS hcT
    · exact hd2 (hcn ▸ hS _ hcS)
    · exact hc2 (hcn ▸ hT _ hcT)
    · exact hc2 hd1
  · rintro c (hcS | ⟨rfl,hc1,_⟩)
    · exact (NodeFlags.le_iff.mp (hgrow c)).1 (hS c hcS)
    · exact (NodeFlags.le_iff.mp (hgrow _)).1 hc1
  · rintro c (hcT | ⟨rfl,hc1,_⟩)
    · exact (NodeFlags.le_iff.mp (hgrow c)).2.1 (hT c hcT)
    · exact (NodeFlags.le_iff.mp (hgrow _)).2.1 hc1
  · intro c hc hst
    rcases hpt.chain NodeFlags.parent1 (fun _ _ => rfl) (fun d => by simp) (fun _ => rfl) h₁ hc hst with
      hr | ⟨hp,_,hb,hr,he⟩
    · exact hr.mono Set.subset_union_left
    · have hp2 : ¬(s.nodeFlags n).parent2 := fun h => hb (by simp [NodeFlags.both,hp,h])
      exact (hr.mono Set.subset_union_left).tail ⟨.inr ⟨rfl,hp,hp2⟩,he⟩
  · intro c hc hst
    rcases hpt.chain NodeFlags.parent2 (fun _ _ => rfl) (fun d => by simp) (fun _ => rfl) h₂ hc hst with
      hr | ⟨hp,_,hb,hr,he⟩
    · exact hr.mono Set.subset_union_left
    · have hp1 : ¬(s.nodeFlags n).parent1 := fun h => hb (by simp [NodeFlags.both,hp,h])
      exact (hr.mono Set.subset_union_left).tail ⟨.inr ⟨rfl,hp,hp1⟩,he⟩

/-- Staleness that has not arrived at `x` is still queued somewhere between a best common ancestor and `x`. -/
theorem Inv.queued_above {a b : Oid} {s : MergeBaseCtxt Oid} (hi : Inv g a b s) (hend : step g s = none)
    {x y : Oid} (hy : g.toDag.Best a b y) (hyx : g.toDag.Proper y x) (hx : ¬(s.nodeFlags x).stale) :
    ∃ z, s.Queued z ∧ g.toDag.Reach z x := by
  by_contra hno
  rw [not_exists] at hno
  have hq : ∀ c, g.toDag.Reach c x → ¬s.Queued c := fun c hcx hc => hno c ⟨hc,hcx⟩
  obtain ⟨z,hyz,hzx⟩ := Relation.TransGen.head'_iff.mp hyx
  have hb : (s.nodeFlags y).both :=
    hi.both_of_settled hy.1 fun c hcy => not_queued_of_end hend (hi.not_stale_of_best hy hcy)
  have hz : (s.nodeFlags z).stale := hi.stale_of_both (hq y hyx.reach) hb hyz
  refine hx (Dag.Reach.closed (P := fun c => (s.nodeFlags c).stale) hzx hz ?_)
  intro c p _ hc hcp hpx
  exact hi.stale_of_stale (hq c (hcp.reach.trans hpx)) hc hcp

/-- A candidate that survives the filter without being best was left behind by a race. -/
theorem raced_of_survivor (hm : g.Monotone) {a b : Oid} {s : MergeBaseCtxt Oid} (hi : Inv g a b s)
    (hc : Clocked g s) (hch : Chained g a b s) (hend : step g s = none) {x : Oid}
    (hx : x ∈ s.candidates) (hst : ¬(s.nodeFlags x).stale) (hnb : ¬g.toDag.Best a b x) : Raced g a b x := by
  have hb := hi.both x hx
  have hcom := hi.common hb
  simp only [NodeFlags.both,Bool.and_eq_true] at hb
  obtain ⟨S,T,hd,_,_,h₁,h₂⟩ := hch
  refine ⟨hcom,hnb,⟨S,T,hd,h₁ x hb.1 hst,h₂ x hb.2 hst⟩,?_,?_⟩
  · intro z hzx hz
    constructor
    · intro hbest
      have hzs := fun c hcz => not_queued_of_end hend (hi.not_stale_of_best hbest hcz (c:=c))
      exact hst (hi.stale_of_both (hzs z (.refl z)) (hi.both_of_settled hz hzs) hzx)
    · -- a newer child has been settled with both flags long before
      by_contra hne
      have hlt : g.time x < g.time z := lt_of_le_of_ne (hm z x hzx) (Ne.symm hne)
      have hzs : ∀ c, g.toDag.Reach c z → ¬s.Queued c := fun c hcz hcq =>
        absurd (hc.candidate x hx c hcq) (not_le.mpr (hlt.trans_le (monotone_reach hm hcz)))
      exact hst (hi.stale_of_both (hzs z (.refl z)) (hi.both_of_settled hz hzs) hzx)
  · intro c hrc hcc
    obtain ⟨y,hy,hyx⟩ := hcom.exists_best
    have hyx' : g.toDag.Proper y x := by
      rcases Relation.ReflTransGen.cases_head_iff.mp hyx with rfl | ⟨z,hyz,hzx⟩
      · exact absurd hy hnb
      · exact Relation.TransGen.head' hyz hzx
    obtain ⟨z,hz,hzx⟩ := hi.queued_above hend hy hyx' hst
    have hns : ∀ d, g.toDag.Reach d c → ¬s.Queued d := by
      intro d hdc
      refine not_queued_of_end hend fun hds => ?_
      rcases hcc with hcc | hcc
      · obtain ⟨w,hw,hwd⟩ := hi.sound_stale d hds
        exact hcc (hw.of_reach (hwd.reach.trans hdc))
      · exact hi.not_stale_of_best hcc hdc hds
    have hfl : (s.nodeFlags c).parent1 ∨ (s.nodeFlags c).parent2 :=
      hrc.imp (hi.reached hns).1 (hi.reached hns).2
    exact (monotone_reach hm hzx).trans (hc.settled c hfl (hns c (.refl c)) z hz)

/-- Without a race the search returns exactly the best common ancestors. -/
theorem findMergeBases_exact (g : CommitGraph Oid) (hm : g.Monotone) (a b : Oid)
    (hr : ∀ x, ¬Raced g a b x) :
    ∃ l, findMergeBases g a b = some l ∧ l.Nodup ∧ ∀ x, x ∈ l ↔ g.toDag.Best a b x := by
  obtain ⟨s,hs,⟨hi,hc,hch⟩,hend⟩ := buildCandidates_run
    (P := fun s => Inv g a b s ∧ Clocked g s ∧ Chained g a b s)
    ⟨inv_initial a b,clocked_initial a b,chained_initial a b⟩
    fun s s' ⟨hi,hc,hch⟩ h => ⟨inv_step hi h,clocked_step hm hc h,chained_step hch h⟩
  refine ⟨s.candidates.filter fun node => !(s.nodeFlags node).stale,?_,hi.nodup.filter _,?_⟩
  · simp [findMergeBases,mergeBasesAll,hs]
  · intro x
    rw [List.mem_filter,Bool.not_eq_true',← Bool.not_eq_true]
    constructor
    · rintro ⟨hx,hst⟩
      by_contra hnb
      exact hr x (raced_of_survivor hm hi hc hch hend hx hst hnb)
    · exact hi.best_mem hend

/-- Two heads over one shared tip, each a second later than its parents. -/
def forkGraph : CommitGraph ℕ where
  parents c := match c with | 1 => [0] | 2 => [1] | 3 => [1] | _ => []
  time c := toLex (c,0)
  level c := c
  level_parents {c p} h := by
    rcases c with _ | _ | _ | _ | c <;> simp at h <;> omega

theorem forkGraph_strict : ∀ c, ∀ p ∈ forkGraph.parents c, forkGraph.time p < forkGraph.time c := by
  intro c p h
  have hlt : p < c := forkGraph.level_parents h
  exact Prod.Lex.toLex_lt_toLex.mpr (.inl (Int.ofNat_lt.mpr hlt))

theorem findMergeBases_exact_fork :
    ∃ l, findMergeBases forkGraph 2 3 = some l ∧ l.Nodup ∧ ∀ x, x ∈ l ↔ forkGraph.toDag.Best 2 3 x :=
  findMergeBases_exact forkGraph (fun c p h => (forkGraph_strict c p h).le) 2 3
    fun x => not_raced_of_strict forkGraph_strict 2 3 x

/-- Two merges without fast-forward of `2` into branches that sat at its ancestor `0`,
all five commits made within one second. -/
def noFfGraph : CommitGraph ℕ where
  parents c := match c with | 1 => [0] | 2 => [1] | 3 => [0,2] | 4 => [0,2] | _ => []
  time _ := toLex (0,0)
  level c := c
  level_parents {c p} h := by
    rcases c with _ | _ | _ | _ | _ | c <;> simp at h <;> omega

/-- `0` is returned although it is an ancestor of `2`: the loop ends with `1` stale and queued. -/
theorem findMergeBases_inexact_noFf : noFfGraph.Monotone ∧ findMergeBases noFfGraph 3 4 = some [0,2] ∧
    ¬∃ l, findMergeBases noFfGraph 3 4 = some l ∧ l.Nodup ∧ ∀ x, x ∈ l ↔ noFfGraph.toDag.Best 3 4 x := by
  have hrun : findMergeBases noFfGraph 3 4 = some [0,2] := by decide
  refine ⟨fun c p _ => le_refl _,hrun,?_⟩
  rintro ⟨l,hl,_,hx⟩
  obtain rfl : [0,2] = l := Option.some.inj (hrun.symm.trans hl)
  have e20 : noFfGraph.toDag.Proper 2 0 :=
    .tail (.single (show (1 : ℕ) ∈ [1] by simp)) (show (0 : ℕ) ∈ [0] by simp)
  have h2 : noFfGraph.toDag.Common 3 4 2 :=
    ⟨Dag.Edge.reach (show (2 : ℕ) ∈ [0,2] by simp),Dag.Edge.reach (show (2 : ℕ) ∈ [0,2] by simp)⟩
  exact ((hx 0).mp (by simp)).2 2 h2 e20

end MergeBase
end Libbit
