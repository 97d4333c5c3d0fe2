import Libbit.MergeBaseInvariant
import Libbit.RevWalk

/-! What the walk yields. It yields every commit once and, with exclusions, misses none that it
should yield; a commit that it should not yield is marked in time when the mark can come down to
it along commits whose times all differ. -/
namespace Libbit

open Lib

namespace RevWalk
variable {Oid : Type} [DecidableEq Oid] {g : CommitGraph Oid}

/-- The commits that are queued. -/
def queue (w : RevWalk Oid) : List Oid := w.pqueue.map MergeBase.CommitNode.commit

section Turn

/-- What queueing some commits does: those that were not seen before are added, in some order. -/
structure Enqueued (g : CommitGraph Oid) (mark : Bool) (cs : List Oid) (w w' : RevWalk Oid) : Prop where
  yielded : ∀ c, (w'.flags c).yielded = (w.flags c).yielded
  enqueued : ∀ c, (w'.flags c).enqueued ↔ (w.flags c).enqueued ∨ c ∈ cs
  uninteresting : ∀ c, (w'.flags c).uninteresting ↔ (w.flags c).uninteresting ∨ mark ∧ c ∈ cs ∧ ¬(w.flags c).enqueued
  queue : ∃ new, w'.queue = w.queue++new ∧ new.Nodup ∧ (∀ c, c ∈ new ↔ c ∈ cs ∧ ¬(w.flags c).enqueued) ∧
    (new.map g.toDag.weight).sum ≤ (cs.map g.toDag.weight).sum

omit [DecidableEq Oid] in
theorem Enqueued.refl (g : CommitGraph Oid) (mark : Bool) (w : RevWalk Oid) : Enqueued g mark [] w w :=
  ⟨fun _ => rfl,fun _ => by simp,fun _ => by simp,[],by simp⟩

theorem enqueued_cons {mark : Bool} {f : CommitNodeFlags} (hf : f = {CommitNodeFlags.empty with uninteresting := mark})
    {w w' : RevWalk Oid} (hw : ∀ c, (w.flags c).yielded → (w.flags c).enqueued) {c : Oid} {cs : List Oid}
    (h : Enqueued g mark cs (enqueueCommitWithFlags f w c) w') : Enqueued g mark (c::cs) w w' := by
  subst hf
  by_cases hc : (w.flags c).enqueued = true
  · have hsame : enqueueCommitWithFlags {CommitNodeFlags.empty with uninteresting := mark} w c = w := by
      simp [enqueueCommitWithFlags,hc]
    rw [hsame] at h
    obtain ⟨new,hq,hnd,hmem,hsum⟩ := h.queue
    refine ⟨h.yielded,fun d => ?_,fun d => ?_,new,hq,hnd,fun d => ?_,by simp only [List.map_cons,List.sum_cons]; omega⟩
    · by_cases hd : d = c <;> simp [h.enqueued,hd,hc]
    · by_cases hd : d = c <;> simp [h.uninteresting,hd,hc]
    · by_cases hd : d = c <;> simp [hmem,hd,hc]
  · have hy : (w.flags c).yielded = false := by
      by_contra hy
      exact hc (hw c (by simpa using hy))
    have hne : (w.flags c).enqueued = false := by simpa using hc
    have hnew : enqueueCommitWithFlags {CommitNodeFlags.empty with uninteresting := mark} w c =
        ⟨Function.update w.flags c ⟨false,true,(w.flags c).uninteresting || mark⟩,w.pqueue++[⟨c,w.index⟩],w.index+1⟩ := by
      simp [enqueueCommitWithFlags,insertFlags,CommitNodeFlags.insert,CommitNodeFlags.ENQUEUED,CommitNodeFlags.empty,hne,hy]
    rw [hnew] at h
    obtain ⟨new,hq,hnd,hmem,hsum⟩ := h.queue
    have hcn : c ∉ new := fun hcn => ((hmem c).mp hcn).2 (by simp)
    refine ⟨fun d => ?_,fun d => ?_,fun d => ?_,c::new,?_,List.nodup_cons.mpr ⟨hcn,hnd⟩,fun d => ?_,?_⟩
    · by_cases hd : d = c
      · simp [h.yielded,hd,hy]
      · simp [h.yielded,hd]
    · by_cases hd : d = c <;> simp [h.enqueued,hd]
    · by_cases hd : d = c
      · simp [h.uninteresting,hd,hne]
      · simp [h.uninteresting,hd]
    · simpa [RevWalk.queue] using hq
    · by_cases hd : d = c
      · simp [hd,hne]
      · simp [hmem,hd]
    · simp only [List.map_cons,List.sum_cons]
      omega

theorem foldl_enqueued {mark : Bool} {f : CommitNodeFlags} (hf : f = {CommitNodeFlags.empty with uninteresting := mark})
    (cs : List Oid) {w : RevWalk Oid} (hw : ∀ c, (w.flags c).yielded → (w.flags c).enqueued) :
    Enqueued g mark cs w (cs.foldl (enqueueCommitWithFlags f) w) := by
  induction cs generalizing w with
  | nil => exact .refl g mark w
  | cons c cs ih =>
    refine enqueued_cons hf hw (ih fun d hd => ?_)
    have hone := enqueued_cons hf hw (.refl g mark (enqueueCommitWithFlags f w c))
    rw [hone.yielded] at hd
    exact (hone.enqueued d).mpr (.inl (hw d hd))

theorem foldl_marked (ps : List Oid) (w : RevWalk Oid) :
    let w' := ps.foldl (fun w parent => w.insertFlags parent .UNINTERESTING) w
    w'.pqueue = w.pqueue ∧ ∀ c, (w'.flags c).yielded = (w.flags c).yielded ∧ (w'.flags c).enqueued = (w.flags c).enqueued ∧
      ((w'.flags c).uninteresting ↔ (w.flags c).uninteresting ∨ c ∈ ps) := by
  induction ps generalizing w with
  | nil => simp
  | cons p ps ih =>
    obtain ⟨hq,hflags⟩ := ih (w.insertFlags p .UNINTERESTING)
    refine ⟨hq,fun c => ?_⟩
    obtain ⟨hy,he,hu⟩ := hflags c
    simp only [List.foldl_cons]
    rw [hy,he,hu]
    by_cases hc : c = p
    · simp [hc,insertFlags,CommitNodeFlags.insert,CommitNodeFlags.UNINTERESTING,CommitNodeFlags.empty]
    · simp [hc,insertFlags]

/-- A turn takes a newest commit off the queue and queues its parents; a marked commit marks them,
any other is yielded. -/
structure Turned (g : CommitGraph Oid) (w : RevWalk Oid) (out : Option Oid) (w' : RevWalk Oid) (n : Oid) : Prop where
  newest : ∀ c ∈ w.queue, g.time c ≤ g.time n
  queue : ∃ rest new, w.queue.Perm (n::rest) ∧ w'.queue = rest++new ∧ new.Nodup ∧
    (∀ c, c ∈ new ↔ c ∈ g.parents n ∧ ¬(w.flags c).enqueued) ∧
    (new.map g.toDag.weight).sum ≤ ((g.parents n).map g.toDag.weight).sum
  yielded : ∀ c, (w'.flags c).yielded ↔ (w.flags c).yielded ∨ c = n
  enqueued : ∀ c, (w'.flags c).enqueued ↔ (w.flags c).enqueued ∨ c ∈ g.parents n
  uninteresting : ∀ c, (w'.flags c).uninteresting ↔
    (w.flags c).uninteresting ∨ (w.flags n).uninteresting ∧ c ∈ g.parents n
  out : out = if (w.flags n).uninteresting then none else some n

theorem turn_cases {w w' : RevWalk Oid} {out : Option Oid} (hw : ∀ c, (w.flags c).yielded → (w.flags c).enqueued)
    (h : w.turn g = some (out,w')) : ∃ n, Turned g w out w' n := by
  unfold turn at h
  split at h
  · obtain ⟨⟨node,rest⟩,hpop,hrest⟩ := Option.map_eq_some_iff.mp h
    set n := node.commit with hn
    have hperm := (MergeBase.pop_perm hpop).map MergeBase.CommitNode.commit
    have hnewest (c : Oid) (hc : c ∈ w.queue) : g.time c ≤ g.time n := by
      rcases List.mem_cons.mp (hperm.subset hc) with rfl | hc
      · exact le_refl _
      · obtain ⟨x,hx,rfl⟩ := List.mem_map.mp hc
        exact MergeBase.pop_time_le hpop x hx
    have henq : Enqueued g false (g.parents n) {w with pqueue := rest} ((g.parents n).foldl enqueueCommit {w with pqueue := rest}) :=
      foldl_enqueued rfl _ hw
    set v := (g.parents n).foldl enqueueCommit {w with pqueue := rest}
    obtain ⟨new,hq,hnd,hmem,hsum⟩ := henq.queue
    have hunint (c : Oid) : (v.flags c).uninteresting = (w.flags c).uninteresting := by
      rw [Bool.eq_iff_iff,henq.uninteresting]
      simp
    have hself : ((v.insertFlags n .YIELDED).flags n).uninteresting = (w.flags n).uninteresting := by
      rw [← hunint]
      simp [insertFlags,CommitNodeFlags.insert,CommitNodeFlags.YIELDED,CommitNodeFlags.empty]
    have hyield (c : Oid) : ((v.insertFlags n .YIELDED).flags c).yielded ↔ (w.flags c).yielded ∨ c = n := by
      by_cases hc : c = n
      · simp [hc,insertFlags,CommitNodeFlags.insert,CommitNodeFlags.YIELDED]
      · simp [hc,insertFlags,henq.yielded]
    have henqueued (c : Oid) : ((v.insertFlags n .YIELDED).flags c).enqueued ↔ (w.flags c).enqueued ∨ c ∈ g.parents n := by
      rw [← henq.enqueued]
      by_cases hc : c = n
      · simp [hc,insertFlags,CommitNodeFlags.insert,CommitNodeFlags.YIELDED,CommitNodeFlags.empty]
      · simp [hc,insertFlags]
    have huninteresting (c : Oid) : ((v.insertFlags n .YIELDED).flags c).uninteresting = (w.flags c).uninteresting := by
      by_cases hc : c = n
      · rw [hc,hself]
      · simp [hc,insertFlags,hunint]
    have hqueue : v.queue = rest.map MergeBase.CommitNode.commit++new := hq
    have hrest : (if ((v.insertFlags n .YIELDED).flags n).uninteresting then
        (none,(v.insertFlags n .YIELDED).markParentsUninteresting g n) else (some n,v.insertFlags n .YIELDED)) = (out,w') := hrest
    rw [hself] at hrest
    refine ⟨n,?_⟩
    by_cases hn' : (w.flags n).uninteresting = true
    · obtain ⟨rfl,rfl⟩ : none = out ∧ (v.insertFlags n .YIELDED).markParentsUninteresting g n = w' := by
        simpa [hn'] using hrest
      obtain ⟨hpq,hflags⟩ := foldl_marked (g.parents n) (v.insertFlags n .YIELDED)
      refine ⟨hnewest,⟨_,new,hperm,?_,hnd,hmem,hsum⟩,fun c => ?_,fun c => ?_,fun c => ?_,by simp [hn']⟩
      · rw [← hqueue,queue,markParentsUninteresting,hpq]
        rfl
      · rw [markParentsUninteresting,(hflags c).1,hyield]
      · rw [markParentsUninteresting,(hflags c).2.1,henqueued]
      · rw [markParentsUninteresting,(hflags c).2.2,huninteresting]
        simp [hn']
    · obtain ⟨rfl,rfl⟩ : some n = out ∧ v.insertFlags n .YIELDED = w' := by simpa [hn'] using hrest
      exact ⟨hnewest,⟨_,new,hperm,hqueue,hnd,hmem,hsum⟩,hyield,henqueued,fun c => by simp [huninteresting,hn'],by simp [hn']⟩
  · simp at h

/-- The walk is over: every commit that is still queued is marked. -/
theorem turn_none {w : RevWalk Oid} (h : w.turn g = none) {c : Oid} (hc : c ∈ w.queue) : (w.flags c).uninteresting := by
  unfold turn at h
  split at h
  · have hne : w.pqueue ≠ [] := by
      rintro hnil
      simp [queue,hnil] at hc
    obtain ⟨p,hp⟩ := MergeBase.pop_isSome (g := g) hne
    simp [hp] at h
  · rename_i hdull
    simp only [stillInteresting,List.any_eq_true,not_exists,not_and] at hdull
    obtain ⟨x,hx,rfl⟩ := List.mem_map.mp hc
    simpa using hdull x hx

end Turn

section Run

/-- The number of paths below the queued commits. -/
def load (g : CommitGraph Oid) (w : RevWalk Oid) : ℕ := (w.queue.map g.toDag.weight).sum

omit [DecidableEq Oid] in
theorem Turned.load {w w' : RevWalk Oid} {out : Option Oid} {n : Oid} (h : Turned g w out w' n) : w'.load g < w.load g := by
  obtain ⟨rest,new,hperm,hq,-,-,hsum⟩ := h.queue
  have hw : w.load g = g.toDag.weight n+(rest.map g.toDag.weight).sum := by
    rw [RevWalk.load,(hperm.map g.toDag.weight).sum_eq]
    simp
  have hw' : w'.load g = (rest.map g.toDag.weight).sum+(new.map g.toDag.weight).sum := by simp [RevWalk.load,hq]
  have hn : g.toDag.weight n = 1+((g.parents n).map g.toDag.weight).sum := Dag.weight_eq (g := g.toDag) n
  omega

/-- What every turn keeps, of the walk and of the commits yielded so far, holds when it is over. -/
theorem drain_run {P : RevWalk Oid → List Oid → Prop} (hseen : ∀ w out, P w out → ∀ c, (w.flags c).yielded → (w.flags c).enqueued)
    (hP : ∀ w w' out c n, P w out → Turned g w c w' n → P w' (out++c.toList)) {fuel : ℕ} {w : RevWalk Oid} {out : List Oid}
    (hw : P w out) (hfuel : w.load g < fuel) : ∃ l w', drain g fuel w = some l ∧ P w' (out++l) ∧ w'.turn g = none := by
  induction fuel generalizing w out with
  | zero => omega
  | succ fuel ih =>
    cases hturn : w.turn g with
    | none => exact ⟨[],w,by simp [drain,hturn],by simpa using hw,hturn⟩
    | some x =>
      obtain ⟨c,w'⟩ := x
      obtain ⟨n,hn⟩ := turn_cases (hseen w out hw) hturn
      have hload := hn.load
      obtain ⟨l,v,hl,hv,hend⟩ := ih (hP w w' out c n hw hn) (by omega)
      exact ⟨c.toList++l,v,by simp [drain,hturn,hl],by simpa using hv,hend⟩

end Run

section Invariant

/-- What is known of the flags, of the queue and of the commits yielded so far. -/
structure Inv (g : CommitGraph Oid) (roots exclude : List Oid) (w : RevWalk Oid) (out : List Oid) : Prop where
  nodup : w.queue.Nodup
  queued : ∀ c, c ∈ w.queue ↔ (w.flags c).enqueued ∧ ¬(w.flags c).yielded
  seen : ∀ c, (w.flags c).yielded → (w.flags c).enqueued
  starts : ∀ c, c ∈ exclude ∨ c ∈ roots → (w.flags c).enqueued
  settled : ∀ c, (w.flags c).yielded → ∀ p ∈ g.parents c, (w.flags p).enqueued
  excluded : ∀ c ∈ exclude, (w.flags c).uninteresting
  marked : ∀ c, (w.flags c).uninteresting → ∃ e ∈ exclude, g.toDag.Reach e c
  rooted : ∀ c, (w.flags c).enqueued → (w.flags c).uninteresting ∨ ∃ r ∈ roots, g.toDag.Reach r c
  passed : ∀ c, (w.flags c).yielded → c ∉ out → (w.flags c).uninteresting ∧ ∀ p ∈ g.parents c, (w.flags p).uninteresting
  out_nodup : out.Nodup
  out_yielded : ∀ c ∈ out, (w.flags c).yielded ∧ ∃ r ∈ roots, g.toDag.Reach r c

theorem inv_build (roots exclude : List Oid) : Inv g roots exclude (build roots exclude) [] ∧
    (build roots exclude).load g < budget g (exclude++roots) := by
  have hex : Enqueued g true exclude empty (exclude.foldl (enqueueCommitWithFlags .UNINTERESTING) empty) :=
    foldl_enqueued rfl exclude (by simp [empty,CommitNodeFlags.empty])
  set v := exclude.foldl (enqueueCommitWithFlags .UNINTERESTING) (empty : RevWalk Oid)
  have hv : ∀ c, (v.flags c).yielded → (v.flags c).enqueued := by
    intro c hc
    rw [hex.yielded] at hc
    simp [empty,CommitNodeFlags.empty] at hc
  have hroots : Enqueued g false roots v (build roots exclude) := foldl_enqueued rfl roots hv
  obtain ⟨new,hq,hnd,hmem,hsum⟩ := hex.queue
  obtain ⟨new',hq',hnd',hmem',hsum'⟩ := hroots.queue
  have hyielded (c : Oid) : ((build roots exclude).flags c).yielded = false := by
    rw [hroots.yielded,hex.yielded]
    rfl
  have henqueued (c : Oid) : ((build roots exclude).flags c).enqueued ↔ c ∈ exclude ∨ c ∈ roots := by
    rw [hroots.enqueued,hex.enqueued]
    simp [empty,CommitNodeFlags.empty]
  have hmarked (c : Oid) : ((build roots exclude).flags c).uninteresting ↔ c ∈ exclude := by
    rw [hroots.uninteresting,hex.uninteresting]
    simp [empty,CommitNodeFlags.empty]
  have hqueue : (build roots exclude).queue = new++new' := by
    rw [hq',hq]
    simp [queue,empty]
  have hnew (c : Oid) : c ∈ new ↔ c ∈ exclude := by
    rw [hmem]
    simp [empty,CommitNodeFlags.empty]
  have hnew' (c : Oid) : c ∈ new' ↔ c ∈ roots ∧ c ∉ exclude := by
    rw [hmem',hex.enqueued]
    simp [empty,CommitNodeFlags.empty]
  constructor
  · refine ⟨?_,fun c => ?_,fun c => by simp [hyielded],fun c => (henqueued c).mpr,fun c => by simp [hyielded],
      fun c => (hmarked c).mpr,fun c hc => ⟨c,(hmarked c).mp hc,.refl c⟩,fun c hc => ?_,fun c => by simp [hyielded],
      List.nodup_nil,by simp⟩
    · rw [hqueue]
      refine List.nodup_append.mpr ⟨hnd,hnd',fun a ha b hb hab => ?_⟩
      exact ((hnew' b).mp hb).2 (hab ▸ (hnew a).mp ha)
    · rw [hqueue,List.mem_append,hnew,hnew',henqueued,hyielded]
      by_cases hc : c ∈ exclude <;> simp [hc]
    · rcases (henqueued c).mp hc with hc | hc
      · exact .inl ((hmarked c).mpr hc)
      · exact .inr ⟨c,hc,.refl c⟩
  · simp only [load,hqueue,budget,List.map_append,List.sum_append]
    omega

omit [DecidableEq Oid] in
theorem Inv.turned {roots exclude : List Oid} {w w' : RevWalk Oid} {out : List Oid} {c : Option Oid} {n : Oid}
    (hi : Inv g roots exclude w out) (h : Turned g w c w' n) : Inv g roots exclude w' (out++c.toList) := by
  obtain ⟨rest,new,hperm,hq,hnd,hmem,-⟩ := h.queue
  have hn : n ∈ w.queue := hperm.symm.subset List.mem_cons_self
  obtain ⟨hnq,hny⟩ := (hi.queued n).mp hn
  have hnp : n ∉ g.parents n := fun hp => (lt_irrefl _ (g.level_parents hp))
  have hnodup : (n::rest).Nodup := hperm.nodup_iff.mp hi.nodup
  have hrest (x : Oid) : x ∈ rest ↔ x ∈ w.queue ∧ x ≠ n := by
    rw [hperm.mem_iff,List.mem_cons]
    refine ⟨fun hx => ⟨.inr hx,fun hxn => (List.nodup_cons.mp hnodup).1 (hxn ▸ hx)⟩,fun hx => hx.1.resolve_left hx.2⟩
  have hout (x : Oid) : x ∈ out++c.toList ↔ x ∈ out ∨ x = n ∧ ¬(w.flags n).uninteresting := by
    rw [List.mem_append,h.out]
    by_cases hu : (w.flags n).uninteresting = true <;> simp [hu]
  refine ⟨?_,fun x => ?_,fun x hx => ?_,fun x hx => ?_,fun x hx p hp => ?_,fun x hx => ?_,fun x hx => ?_,fun x hx => ?_,
    fun x hx hxo => ?_,?_,fun x hx => ?_⟩
  · rw [hq]
    refine List.nodup_append.mpr ⟨(List.nodup_cons.mp hnodup).2,hnd,fun a ha b hb hab => ?_⟩
    have ha' := (hi.queued a).mp ((hrest a).mp ha).1
    exact ((hmem b).mp hb).2 (hab ▸ ha'.1)
  · rw [hq,List.mem_append,hrest,hmem,hi.queued,h.enqueued,h.yielded]
    constructor
    · rintro (⟨⟨he,hy⟩,hne⟩ | ⟨hp,he⟩)
      · exact ⟨.inl he,not_or.mpr ⟨hy,hne⟩⟩
      · exact ⟨.inr hp,not_or.mpr ⟨fun hy => he (hi.seen x hy),fun hxn => hnp (hxn ▸ hp)⟩⟩
    · rintro ⟨he,hy⟩
      obtain ⟨hy,hne⟩ := not_or.mp hy
      by_cases hx : (w.flags x).enqueued = true
      · exact .inl ⟨⟨hx,hy⟩,hne⟩
      · exact .inr ⟨he.resolve_left hx,hx⟩
  · rw [h.enqueued]
    rcases (h.yielded x).mp hx with hx | rfl
    · exact .inl (hi.seen x hx)
    · exact .inl hnq
  · exact (h.enqueued x).mpr (.inl (hi.starts x hx))
  · rw [h.enqueued]
    rcases (h.yielded x).mp hx with hx | rfl
    · exact .inl (hi.settled x hx p hp)
    · exact .inr hp
  · exact (h.uninteresting x).mpr (.inl (hi.excluded x hx))
  · rcases (h.uninteresting x).mp hx with hx | ⟨hu,hp⟩
    · exact hi.marked x hx
    · obtain ⟨e,he,hen⟩ := hi.marked n hu
      exact ⟨e,he,hen.tail hp⟩
  · -- a parent is marked together with its child, or has the root of its child
    rw [h.uninteresting]
    rcases (h.enqueued x).mp hx with hx | hp
    · exact (hi.rooted x hx).imp_left .inl
    · rcases hi.rooted n hnq with hu | ⟨r,hr,hrn⟩
      · exact .inl (.inr ⟨hu,hp⟩)
      · exact .inr ⟨r,hr,hrn.tail hp⟩
  · simp only [hout,not_or,not_and,not_not] at hxo
    rw [h.uninteresting]
    rcases (h.yielded x).mp hx with hx | rfl
    · obtain ⟨hu,hps⟩ := hi.passed x hx hxo.1
      exact ⟨.inl hu,fun p hp => (h.uninteresting p).mpr (.inl (hps p hp))⟩
    · have hu := hxo.2 rfl
      exact ⟨.inl hu,fun p hp => (h.uninteresting p).mpr (.inr ⟨hu,hp⟩)⟩
  · refine List.nodup_append.mpr ⟨hi.out_nodup,by cases c <;> simp,fun a ha b hb hab => ?_⟩
    have hbn : b = n := by
      rw [h.out] at hb
      by_cases hu : (w.flags n).uninteresting = true <;> simp_all
    exact hny (hbn ▸ hab ▸ (hi.out_yielded a ha).1)
  · rw [h.yielded]
    rcases (hout x).mp hx with hx | ⟨rfl,hu⟩
    · exact ⟨.inl (hi.out_yielded x hx).1,(hi.out_yielded x hx).2⟩
    · exact ⟨.inr rfl,(hi.rooted x hnq).resolve_left hu⟩

/-- The walk is over: every commit below a root that no mark is due to was yielded. -/
theorem Inv.complete {roots exclude : List Oid} {w : RevWalk Oid} {out : List Oid} (hi : Inv g roots exclude w out)
    (hend : w.turn g = none) {r x : Oid} (hr : r ∈ roots) (hrx : g.toDag.Reach r x)
    (hx : ¬∃ e ∈ exclude, g.toDag.Reach e x) : x ∈ out := by
  have hclear {c : Oid} (hcx : g.toDag.Reach c x) : ¬(w.flags c).uninteresting := fun hc => by
    obtain ⟨e,he,hec⟩ := hi.marked c hc
    exact hx ⟨e,he,hec.trans hcx⟩
  have hdone {c : Oid} (hcx : g.toDag.Reach c x) (hc : (w.flags c).enqueued) : (w.flags c).yielded := by
    by_contra hy
    exact hclear hcx (turn_none hend ((hi.queued c).mpr ⟨hc,hy⟩))
  have henq : (w.flags x).enqueued :=
    hrx.closed (P := fun c => (w.flags c).enqueued) (hi.starts r (.inr hr)) fun c p hrc hc hcp hpx =>
      hi.settled c (hdone (Dag.Edge.reach hcp |>.trans hpx) hc) p hcp
  by_contra hxo
  exact hclear (.refl x) (hi.passed x (hdone (.refl x) henq) hxo).1

end Invariant

section Exclusion

/-- A mark comes down to the commit along commits that are each older than the one before. -/
inductive Announced (g : CommitGraph Oid) (exclude : List Oid) : Oid → Prop
  | start {e : Oid} (he : e ∈ exclude) : Announced g exclude e
  | parent {c p : Oid} (hc : Announced g exclude c) (hp : p ∈ g.parents c) (ht : g.time p < g.time c) : Announced g exclude p

omit [DecidableEq Oid] in
theorem announced_of_strict (hg : ∀ c, ∀ p ∈ g.parents c, g.time p < g.time c) {exclude : List Oid} {e x : Oid}
    (he : e ∈ exclude) (h : g.toDag.Reach e x) : Announced g exclude x :=
  h.closed (P := Announced g exclude) (.start he) fun c p _ hc hp _ => hc.parent hp (hg c p hp)

omit [DecidableEq Oid] in
/-- What is newer than everything queued, and announced, was taken off before. -/
theorem Inv.yielded_of_announced {roots exclude : List Oid} {w : RevWalk Oid} {out : List Oid} (hi : Inv g roots exclude w out)
    {n x : Oid} (hn : ∀ c ∈ w.queue, g.time c ≤ g.time n) (hx : Announced g exclude x) (ht : g.time n < g.time x) :
    (w.flags x).yielded := by
  have hdone {c : Oid} (hc : (w.flags c).enqueued) (ht : g.time n < g.time c) : (w.flags c).yielded := by
    by_contra hy
    exact absurd (hn c ((hi.queued c).mpr ⟨hc,hy⟩)) (not_le.mpr ht)
  induction hx with
  | start he => exact hdone (hi.starts _ (.inl he)) ht
  | parent hc hp hlt ih => exact hdone (hi.settled _ (ih (ht.trans hlt)) _ hp) ht

/-- No announced commit was yielded. -/
def Withheld (g : CommitGraph Oid) (exclude : List Oid) (w : RevWalk Oid) (out : List Oid) : Prop :=
  ∀ x, Announced g exclude x → (w.flags x).yielded → x ∉ out

omit [DecidableEq Oid] in
theorem Withheld.turned {roots exclude : List Oid} {w w' : RevWalk Oid} {out : List Oid} {c : Option Oid} {n : Oid}
    (hi : Inv g roots exclude w out) (hh : Withheld g exclude w out) (h : Turned g w c w' n) :
    Withheld g exclude w' (out++c.toList) := by
  intro x hx hy hxo
  have hold : x ∉ out := fun hxo => hh x hx (hi.out_yielded x hxo).1 hxo
  obtain ⟨rfl,hu⟩ : x = n ∧ ¬(w.flags n).uninteresting := by
    rw [List.mem_append,h.out] at hxo
    by_cases hu : (w.flags n).uninteresting = true
    · simp [hu,hold] at hxo
    · exact ⟨by simpa [hu,hold] using hxo,hu⟩
  -- the commit it was announced by came off before it, and marked it
  cases hx with
  | start he => exact hu (hi.excluded x he)
  | parent hc hp ht =>
    have hyc := hi.yielded_of_announced h.newest hc ht
    exact hu ((hi.passed _ hyc (hh _ hc hyc)).2 x hp)

/-- Two branches off commit 0: 1 on one side; 2, 3 and 4 on the other. -/
def twoSides (time : ℕ → BitTime) : CommitGraph ℕ where
  parents
    | 1 => [0]
    | 2 => [0]
    | 3 => [2]
    | 4 => [3]
    | _ => []
  time := time
  level := id
  level_parents {c p} h := by
    rcases c with - | - | - | - | - | c <;> simp_all

theorem twoSides_strict : ∀ c, ∀ p ∈ (twoSides fun c => (c,0)).parents c,
    (twoSides fun c => (c,0)).time p < (twoSides fun c => (c,0)).time c := by
  intro c p hp
  have hlt : p < c := (twoSides fun c => (c,0)).level_parents hp
  exact Prod.Lex.toLex_lt_toLex.mpr (.inl (by simpa using hlt))

end Exclusion

section Order

/-- The commits come in the order of their times, and nothing newer is queued. -/
structure Ordered (g : CommitGraph Oid) (w : RevWalk Oid) (out : List Oid) : Prop where
  sorted : out.Pairwise fun a b => g.time b ≤ g.time a
  queued : ∀ a ∈ out, ∀ c ∈ w.queue, g.time c ≤ g.time a

omit [DecidableEq Oid] in
theorem Ordered.turned (hm : g.Monotone) {w w' : RevWalk Oid} {out : List Oid} {c : Option Oid} {n : Oid}
    (ho : Ordered g w out) (h : Turned g w c w' n) : Ordered g w' (out++c.toList) := by
  obtain ⟨rest,new,hperm,hq,-,hmem,-⟩ := h.queue
  have hn : n ∈ w.queue := hperm.symm.subset List.mem_cons_self
  have hc (a : Oid) (ha : a ∈ c.toList) : a = n := by
    rw [h.out] at ha
    split at ha <;> simp_all
  have hle (x : Oid) (hx : x ∈ w'.queue) : g.time x ≤ g.time n := by
    rw [hq,List.mem_append] at hx
    rcases hx with hx | hx
    · exact h.newest x (hperm.symm.subset (List.mem_cons_of_mem _ hx))
    · exact hm n x ((hmem x).mp hx).1
  refine ⟨List.pairwise_append.mpr ⟨ho.sorted,?_,fun a ha b hb => ?_⟩,fun a ha x hx => ?_⟩
  · cases c <;> simp
  · rw [hc b hb]
    exact ho.queued a ha n hn
  · rcases List.mem_append.mp ha with ha | ha
    · exact (hle x hx).trans (ho.queued a ha n hn)
    · rw [hc a ha]
      exact hle x hx

/-- A walk without exclusions yields all that is reachable, each commit once, newest first; with
distinct times along every edge no commit comes before one of its children. -/
theorem walkCommits_complete (g : CommitGraph Oid) (hm : g.Monotone) (roots : List Oid) :
    ∃ l, walkCommits g roots = some l ∧ l.Nodup ∧ (∀ x, x ∈ l ↔ ∃ r ∈ roots, g.toDag.Reach r x) ∧
      (l.Pairwise fun a b => g.time b ≤ g.time a) ∧
      ((∀ c, ∀ p ∈ g.parents c, g.time p < g.time c) → l.Pairwise fun a b => a ∉ g.parents b) := by
  obtain ⟨hinit,hload⟩ := inv_build (g := g) roots []
  obtain ⟨l,w,hl,⟨hi,ho⟩,hend⟩ := drain_run (P := fun w out => Inv g roots [] w out ∧ Ordered g w out)
    (fun w out hw => hw.1.seen) (fun w w' out c n hw hn => ⟨hw.1.turned hn,hw.2.turned hm hn⟩)
    ⟨hinit,List.Pairwise.nil,by simp⟩ hload
  simp only [List.nil_append] at hi ho
  refine ⟨l,hl,hi.out_nodup,fun x => ⟨fun hx => (hi.out_yielded x hx).2,?_⟩,ho.sorted,fun hs => ?_⟩
  · rintro ⟨r,hr,hrx⟩
    exact hi.complete hend hr hrx (by simp)
  · refine ho.sorted.imp fun {a b} hab hp => ?_
    exact absurd (hs b a hp) (not_lt.mpr hab)

theorem walkCommits_complete_strict :
    let g := twoSides fun c => (c,0)
    g.Monotone ∧ ∃ l, walkCommits g [1,4] = some l ∧ l.Nodup ∧ (∀ x, x ∈ l ↔ ∃ r ∈ [1,4], g.toDag.Reach r x) ∧
      (l.Pairwise fun a b => g.time b ≤ g.time a) ∧
      ((∀ c, ∀ p ∈ g.parents c, g.time p < g.time c) → l.Pairwise fun a b => a ∉ g.parents b) := by
  intro g
  have hm : g.Monotone := fun c p hp => (twoSides_strict c p hp).le
  exact ⟨hm,walkCommits_complete g hm [1,4]⟩

end Order
end RevWalk
end Libbit
