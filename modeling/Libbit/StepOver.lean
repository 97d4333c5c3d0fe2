import Libbit.IndexIterator

/-! Stepping over in every iterator of the crate and in every state that calls lead to: the three iterators over
something, and the two over another iterator. -/
namespace Libbit
namespace Iterators

open Lib

variable {σ : Type}

/-- To count is to go to the end. -/
theorem count_run {R : σ → List BitIndexEntry → Prop} {next : EStateM IterError σ (Option BitIndexEntry)}
    (hnext : ∀ s l, R s l → ∃ t, next s = .ok l.head? t ∧ R t l.tail) {s : σ} {l : List BitIndexEntry} {fuel : ℕ}
    (hR : R s l) (hl : l.length < fuel) : ∃ t, count next fuel s = .ok () t ∧ R t [] := by
  induction fuel generalizing s l with
  | zero => exact absurd hl (Nat.not_lt_zero _)
  | succ fuel ih =>
    obtain ⟨t,ht,hRt⟩ := hnext s l hR
    rw [count,bind_of_ok ht]
    cases l with
    | nil => exact ⟨t,rfl,hRt⟩
    | cons e l => exact ih hRt (Nat.lt_of_succ_lt_succ hl)

/-! ### Subtrees -/

namespace CollectSubtree
variable {tree : BitPath}

section
variable {peek method : EStateM IterError σ (Option BitIndexEntry)} {s t u : σ} {e : BitIndexEntry} {r : Option BitIndexEntry}

theorem within_nil (hp : peek s = .ok none t) : within peek method tree s = .ok none t := by
  have hin : inSubtree peek tree s = .ok false t := bind_of_ok hp
  rw [within,bind_of_ok hin]
  rfl

theorem within_out (hp : peek s = .ok (some e) t) (he : e.path.startsWith tree = false) :
    within peek method tree s = .ok none t := by
  have hin : inSubtree peek tree s = .ok false t := by
    rw [inSubtree,bind_of_ok hp]
    simp only [he]
    rfl
  rw [within,bind_of_ok hin]
  rfl

theorem within_in (hp : peek s = .ok (some e) t) (he : e.path.startsWith tree = true) (hm : method t = .ok (some e) u) :
    within peek method tree s = .ok (some e) u := by
  have hin : inSubtree peek tree s = .ok true t := by
    rw [inSubtree,bind_of_ok hp]
    simp only [he]
    rfl
  have hun : (method >>= unwrap) t = .ok e u := bind_of_ok hm
  rw [within,bind_of_ok hin]
  simp only [if_true]
  rw [bind_of_ok hun]
  rfl

end

/-- The call may be made where the iterator below may make it, once it looked at an entry of the subtree. -/
def may (tree : BitPath) (iter : BitTreeIterator σ) (mayBelow : σ → Prop) (s : σ) : Prop :=
  ∀ e t, iter.peek s = .ok (some e) t → e.path.startsWith tree → mayBelow t

theorem takeWhile_filter {α : Type} {p q : α → Bool} {l : List α} (h : ∀ x ∈ l, q x = false → p x = true) :
    (l.filter q).takeWhile p = (l.takeWhile p).filter q := by
  induction l with
  | nil => rfl
  | cons x l ih =>
    have ih := ih fun y hy => h y (List.mem_cons_of_mem _ hy)
    cases hq : q x with
    | false =>
      have hp := h x List.mem_cons_self hq
      simp [hq,hp,ih]
    | true => cases hp : p x <;> simp [hq,hp,ih]

/-- What the iterator below stands for: entries of the subtree, and then the rest. -/
structure Within (R : σ → List BitIndexEntry → Prop) (tree : BitPath) (rest : List BitIndexEntry) (s : σ)
    (m : List BitIndexEntry) : Prop where
  holds : R s (m++rest)
  inside : ∀ e ∈ m, e.path.startsWith tree = true
  outside : ∀ e ∈ rest.head?, e.path.startsWith tree ≠ true

theorem Within.of_split {R : σ → List BitIndexEntry → Prop} {s : σ} {m : List BitIndexEntry} (h : R s m) :
    Within R tree (m.dropWhile fun e => e.path.startsWith tree) s (m.takeWhile fun e => e.path.startsWith tree) := by
  refine ⟨by rwa [List.takeWhile_append_dropWhile],fun e he => ?_,fun e he => ?_⟩
  · exact List.mem_takeWhile_imp (p := fun e : BitIndexEntry => e.path.startsWith tree) he
  have hnot := List.head?_dropWhile_not (fun e : BitIndexEntry => e.path.startsWith tree) m
  rw [Option.mem_def.mp he] at hnot
  simpa using hnot

section
variable {R : σ → List BitIndexEntry → Prop} {peek next : EStateM IterError σ (Option BitIndexEntry)} {s : σ}
  {m : List BitIndexEntry} (hpeek : ∀ s l, R s l → ∃ t, peek s = .ok l.head? t ∧ R t l)
include hpeek

/-- A method that does `after` to the entries does it to those of the subtree. -/
theorem within_spec {method : EStateM IterError σ (Option BitIndexEntry)}
    (after : List BitIndexEntry → List BitIndexEntry) (hnil : after [] = []) (hR : R s m)
    (hmethod : ∀ e rest t, m = e::rest → e.path.startsWith tree → peek s = .ok (some e) t → R t m →
      ∃ u, method t = .ok (some e) u ∧ R u (after m))
    (hafter : ∀ e rest, m = e::rest → e.path.startsWith tree →
      after (m.takeWhile fun e => e.path.startsWith tree) = (after m).takeWhile fun e => e.path.startsWith tree) :
    ∃ t, within peek method tree s = .ok (m.takeWhile fun e => e.path.startsWith tree).head? t ∧
      ∃ m', R t m' ∧ after (m.takeWhile fun e => e.path.startsWith tree) = m'.takeWhile fun e => e.path.startsWith tree := by
  obtain ⟨t,ht,hRt⟩ := hpeek s m hR
  cases m with
  | nil => exact ⟨t,within_nil ht,[],hRt,hnil⟩
  | cons e rest =>
    cases he : e.path.startsWith tree with
    | false =>
      have htake : ((e::rest).takeWhile fun e => e.path.startsWith tree) = [] := by simp [he]
      rw [htake]
      exact ⟨t,within_out ht he,e::rest,hRt,by rw [hnil,htake]⟩
    | true =>
      obtain ⟨u,hu,hRu⟩ := hmethod e rest t rfl he ht hRt
      refine ⟨u,?_,_,hRu,hafter e rest rfl he⟩
      rw [within_in ht he hu]
      simp [he]

/-- The iterator over the subtree goes on to the first entry outside. -/
theorem next_within (hnext : ∀ s l, R s l → ∃ t, next s = .ok l.head? t ∧ R t l.tail) {rest : List BitIndexEntry}
    (h : Within R tree rest s m) : ∃ t, within peek next tree s = .ok m.head? t ∧ Within R tree rest t m.tail := by
  obtain ⟨t,ht,hRt⟩ := hpeek s _ h.holds
  cases m with
  | nil =>
    refine ⟨t,?_,hRt,h.inside,h.outside⟩
    cases rest with
    | nil => exact within_nil ht
    | cons e rest => exact within_out ht (Bool.eq_false_iff.mpr (h.outside e rfl))
  | cons e m =>
    obtain ⟨u,hu,hRu⟩ := hnext t _ hRt
    refine ⟨u,within_in ht (h.inside e List.mem_cons_self) hu,hRu,?_,h.outside⟩
    exact fun x hx => h.inside x (List.mem_cons_of_mem _ hx)

/-- To count what is left of the subtree is to leave it. -/
theorem count_within (tree : BitPath) (hnext : ∀ s l, R s l → ∃ t, next s = .ok l.head? t ∧ R t l.tail) {fuel : ℕ} (hR : R s m)
    (hm : m.length < fuel) :
    ∃ t, count (within peek next tree) fuel s = .ok () t ∧ R t (m.dropWhile fun e => e.path.startsWith tree) := by
  have hlen : (m.takeWhile fun e => e.path.startsWith tree).length < fuel := lt_of_le_of_lt (List.takeWhile_sublist _).length_le hm
  obtain ⟨t,ht,hw⟩ := count_run (fun _ _ h => next_within hpeek hnext h) (Within.of_split hR) hlen
  exact ⟨t,ht,hw.holds⟩

end

section
variable {iter : BitTreeIterator σ} {R : σ → List BitIndexEntry → Prop} {mayBelow : σ → Prop}

/-- The iterator stands for the entries up to the first one outside the subtree. -/
theorem implements (h : iter.Implements belowEntry R mayBelow) (tree : BitPath) :
    (iterator tree iter).Implements belowEntry
      (fun s l => ∃ m, R s m ∧ l = m.takeWhile fun e => e.path.startsWith tree) (may tree iter mayBelow) := by
  refine ⟨?_,?_,?_⟩
  · rintro s _ ⟨m,hR,rfl⟩
    refine within_spec h.peek List.tail rfl hR ?_ ?_
    · rintro e rest t rfl - - hRt
      exact h.next t _ hRt
    · rintro e rest rfl he
      simp [he]
  · rintro s _ ⟨m,hR,rfl⟩
    refine within_spec h.peek id rfl hR ?_ fun _ _ _ _ => rfl
    rintro e rest t rfl - - hRt
    exact h.peek t _ hRt
  · rintro s _ ⟨m,hR,rfl⟩ hmay
    refine within_spec h.peek (Stepper.without belowEntry) rfl hR ?_ ?_
    · rintro e rest t rfl he hp hRt
      exact h.stepOver t _ hRt (hmay e t hp he)
    · rintro e rest rfl he
      have htake : ((e::rest).takeWhile fun e => e.path.startsWith tree) =
          e::rest.takeWhile fun e => e.path.startsWith tree := by simp [he]
      rw [htake,Stepper.without,Stepper.without]
      -- what lies below the entry is in the subtree with it
      refine (takeWhile_filter fun x _ hx => ?_).symm
      have hb : belowEntry x e = true := by simpa using hx
      exact BitPath.startsWith_iff.mpr ((BitPath.startsWith_iff.mp he).trans (belowEntry_iff.mp hb).1)

end

end CollectSubtree

/-! ### The worktree -/

section Worktree

/-- The walk over files with times finds what the walk over a tree finds. -/
theorem alike_entries (f : Worktree) (pre : BitPath) :
    List.Forall₂ Alike
      (((f.map fun x => (x.mode,x.contents)).entries pre).map fun x => BitIndexEntry.ofTreeEntry (TreeEntry.ofItem x))
      ((f.entries pre).map Worktree.entryOfItem) := by
  induction f generalizing pre with
  | nil => exact .nil
  | leaf n a rest ih => exact .cons ⟨rfl,rfl⟩ (ih pre)
  | node n sub rest ihs ihr =>
    rw [Forest.map,Forest.entries,Forest.entries,List.map_cons,List.map_cons,List.map_append,List.map_append]
    exact .cons ⟨rfl,rfl⟩ (List.rel_append (ihs _) (ihr _))

variable {gitignore : Option Bytes → BitPath → Bool → Bool} {idx : BitIndexInner} {w : Worktree}

theorem preorder_worktreeTreeIter (hw : w.WellFormed) : Preorder (worktreeTreeIter gitignore idx w) := by
  have hdistinct : ((w.sort entryLt).map fun x => (x.mode,x.contents)).Distinct := (hw.distinct.sort entryLt).map _
  have hall : Preorder (.ofTreeEntry ⟨.TREE,[],.UNKNOWN⟩::w.listing) :=
    (Tree.Distinct.preorder hdistinct).congr (.cons ⟨rfl,rfl⟩ (alike_entries (w.sort entryLt) []))
  exact hall.sublist List.filter_sublist

end Worktree

namespace WorktreeTreeIter
variable {gitignore : Option Bytes → BitPath → Bool → Bool} {idx : BitIndexInner} {w : Worktree} {iter : WorktreeTreeIter}
  {l : List BitIndexEntry}

/-- The entries of the walk that are not ignored. -/
def visible (gitignore : Option Bytes → BitPath → Bool → Bool) (idx : BitIndexInner) (w : Worktree)
    (jwalk : List DirEntry) : List BitIndexEntry :=
  (jwalk.map Worktree.entryOfItem).filter fun e => !isIgnored gitignore idx w e

structure Holds (gitignore : Option Bytes → BitPath → Bool → Bool) (idx : BitIndexInner) (w : Worktree)
    (iter : WorktreeTreeIter) (l : List BitIndexEntry) : Prop where
  list : l = iter.peeked.toList++visible gitignore idx w iter.jwalk
  preorder : Preorder l

/-- The call may be made at a directory. -/
def may (gitignore : Option Bytes → BitPath → Bool → Bool) (idx : BitIndexInner) (w : Worktree)
    (iter : WorktreeTreeIter) : Prop :=
  ∃ e t, peek gitignore idx w iter = .ok (some e) t ∧ e.isTree

theorem visible_of_rawNext (gitignore : Option Bytes → BitPath → Bool → Bool) (idx : BitIndexInner) (w : Worktree)
    (jwalk : List DirEntry) :
    visible gitignore idx w jwalk = match rawNext gitignore idx w jwalk with
      | some (entry,rest) => Worktree.entryOfItem entry::visible gitignore idx w rest
      | none => [] := by
  induction jwalk with
  | nil => rfl
  | cons x jwalk ih =>
    rw [visible,List.map_cons,rawNext]
    cases hx : isIgnored gitignore idx w (Worktree.entryOfItem x) with
    | true =>
      rw [List.filter_cons_of_neg (by simp [hx]),if_pos rfl]
      exact ih
    | false =>
      rw [List.filter_cons_of_pos (by simp [hx]),if_neg Bool.false_ne_true]
      rfl

theorem next_visible (gitignore : Option Bytes → BitPath → Bool → Bool) (idx : BitIndexInner) (w : Worktree)
    (jwalk : List DirEntry) :
    ∃ jwalk', next gitignore idx w ⟨jwalk,none⟩ = .ok (visible gitignore idx w jwalk).head? ⟨jwalk',none⟩ ∧
      visible gitignore idx w jwalk' = (visible gitignore idx w jwalk).tail := by
  have hv := visible_of_rawNext gitignore idx w jwalk
  cases hraw : rawNext gitignore idx w jwalk with
  | none =>
    simp only [hraw] at hv
    refine ⟨[],?_,by rw [hv]; rfl⟩
    simp only [next,run_getBind,hraw,hv]
    rfl
  | some x =>
    simp only [hraw] at hv
    refine ⟨x.2,?_,by rw [hv]; rfl⟩
    simp only [next,run_getBind,hraw,hv]
    rfl

theorem Holds.next (h : Holds gitignore idx w iter l) :
    ∃ t, next gitignore idx w iter = .ok l.head? t ∧ Holds gitignore idx w t l.tail := by
  obtain ⟨jwalk,peeked⟩ := iter
  obtain ⟨rfl,hp⟩ := h
  cases peeked with
  | some e => exact ⟨⟨jwalk,none⟩,rfl,rfl,hp.2.2⟩
  | none =>
    obtain ⟨jwalk',hrun,hrest⟩ := next_visible gitignore idx w jwalk
    exact ⟨⟨jwalk',none⟩,hrun,hrest.symm,hp.sublist (List.tail_sublist _)⟩

theorem Holds.peek (h : Holds gitignore idx w iter l) :
    ∃ t, peek gitignore idx w iter = .ok l.head? t ∧ Holds gitignore idx w t l := by
  obtain ⟨jwalk,peeked⟩ := iter
  obtain ⟨rfl,hp⟩ := h
  cases peeked with
  | some e => exact ⟨⟨jwalk,some e⟩,rfl,rfl,hp⟩
  | none =>
    obtain ⟨jwalk',hrun,hrest⟩ := next_visible gitignore idx w jwalk
    refine ⟨⟨jwalk',(visible gitignore idx w jwalk).head?⟩,?_,?_,hp⟩
    · simp only [WorktreeTreeIter.peek,run_getBind]
      rw [bind_of_ok hrun]
      rfl
    · change visible gitignore idx w jwalk = _++visible gitignore idx w jwalk'
      rw [hrest]
      cases visible gitignore idx w jwalk <;> rfl

theorem Holds.stepOver (h : Holds gitignore idx w iter l) (hmay : may gitignore idx w iter) {fuel : ℕ}
    (hfuel : l.length ≤ fuel) :
    ∃ t, stepOver gitignore idx w fuel iter = .ok l.head? t ∧ Holds gitignore idx w t (Stepper.without belowEntry l) := by
  obtain ⟨e,t₁,ht₁,he⟩ := hmay
  obtain ⟨t,hp₁,h₁⟩ := h.peek
  obtain ⟨hl,rfl⟩ : l.head? = some e ∧ t = t₁ := by
    rw [ht₁] at hp₁
    injection hp₁ with hl ht
    exact ⟨hl.symm,ht.symm⟩
  obtain ⟨rest,rfl⟩ : ∃ rest, l = e::rest := List.head?_eq_some_iff.mp hl
  have hconsumer : asConsumer (WorktreeTreeIter.peek gitignore idx w) iter = .ok () t := by
    have hexpect : (WorktreeTreeIter.peek gitignore idx w >>= expect "can't call `as_consumer` on empty iterator") iter =
        .ok e t := bind_of_ok ht₁
    rw [asConsumer,bind_of_ok hexpect]
    exact assertThat_run _ he t
  -- the directory is peeked three times, taken, and what is in it counted
  obtain ⟨t₂,hp₂,h₂⟩ := h₁.peek
  obtain ⟨t₃,hp₃,h₃⟩ := h₂.peek
  obtain ⟨t₄,hn₄,h₄⟩ := h₃.next
  have hcollect : collectOverTreeIter (WorktreeTreeIter.peek gitignore idx w) t = .ok e t₂ := by
    have hunwrap : (WorktreeTreeIter.peek gitignore idx w >>= unwrap) t = .ok e t₂ := bind_of_ok hp₂
    rw [collectOverTreeIter,bind_of_ok hunwrap,bind_of_ok (assertThat_run _ he t₂)]
    rfl
  have hself : e.path.startsWith e.path = true := BitPath.startsWith_iff.mpr List.prefix_rfl
  have hfirst := CollectSubtree.within_in hp₃ hself hn₄
  obtain ⟨u,hcount,hu⟩ := CollectSubtree.count_within (fun _ _ h => Holds.peek h) e.path
    (fun _ _ h => Holds.next h) h₄ (Nat.lt_of_succ_le hfuel)
  refine ⟨u,?_,?_⟩
  · rw [WorktreeTreeIter.stepOver,bind_of_ok hconsumer,bind_of_ok hcollect,bind_of_ok hfirst,bind_of_ok hcount]
    rfl
  · rw [without_eq_stepOver h.preorder,Iter.stepOver,if_pos he]
    exact hu

/-- The iterator stands for what is left of the walk, with fuel for all of it. -/
theorem implements {fuel : ℕ} :
    (iterator gitignore idx w fuel).Implements belowEntry
      (fun iter l => Holds gitignore idx w iter l ∧ l.length ≤ fuel) (may gitignore idx w) := by
  refine ⟨?_,?_,?_⟩
  · rintro iter l ⟨h,hl⟩
    obtain ⟨t,ht,hh⟩ := h.next
    exact ⟨t,ht,hh,(List.tail_sublist l).length_le.trans hl⟩
  · rintro iter l ⟨h,hl⟩
    obtain ⟨t,ht,hh⟩ := h.peek
    exact ⟨t,ht,hh,hl⟩
  · rintro iter l ⟨h,hl⟩ hmay
    obtain ⟨t,ht,hh⟩ := h.stepOver hmay hl
    exact ⟨t,ht,hh,(IndexTreeIter.length_without l).trans ((List.tail_sublist l).length_le.trans hl)⟩

theorem holds_new (hw : w.WellFormed) : Holds gitignore idx w (new w) (worktreeTreeIter gitignore idx w) :=
  ⟨rfl,preorder_worktreeTreeIter hw⟩

end WorktreeTreeIter

/-! ### Filters -/

namespace Filter
variable {f : BitIndexEntry → Bool} {iter : BitTreeIterator σ} {mayBelow : σ → Prop} {s : σ}

/-- None of the entries rejected before the first one that passes has an entry below it that passes. -/
def Clear (f : BitIndexEntry → Bool) (l : List BitIndexEntry) : Prop :=
  ∀ e ∈ l.takeWhile fun e => !f e, ∀ x ∈ l, belowEntry x e → f x = false

/-- What is left when rejected entries are stepped over. -/
inductive Reaches (f : BitIndexEntry → Bool) : List BitIndexEntry → List BitIndexEntry → Prop
  | refl (l : List BitIndexEntry) : Reaches f l l
  | step {e : BitIndexEntry} {l m : List BitIndexEntry} (hf : f e = false)
      (h : Reaches f (Stepper.without belowEntry (e::l)) m) : Reaches f (e::l) m

/-- The call may be made where the entries still to come leave the way clear, and the iterator below may make it at
each entry on the way. -/
def may (f : BitIndexEntry → Bool) (iter : BitTreeIterator σ) (mayBelow : σ → Prop) (s : σ) : Prop :=
  ∃ l, iter.Drains s l ∧ Clear f l ∧ ∀ m t, Reaches f l m → iter.Drains t m → mayBelow t

variable {e : BitIndexEntry} {l : List BitIndexEntry}

/-- What is passed over with a rejected entry is rejected too. -/
theorem Clear.filter_without (h : Clear f (e::l)) (he : f e = false) :
    (Stepper.without belowEntry (e::l)).filter f = (e::l).filter f := by
  rw [List.filter_cons_of_neg (by simp [he]),Stepper.without,List.filter_filter]
  refine List.filter_congr fun x hx => ?_
  cases hxe : belowEntry x e with
  | false => simp
  | true => simp [h e (by simp [he]) x (List.mem_cons_of_mem _ hx) hxe]

theorem Clear.without (h : Clear f (e::l)) (he : f e = false) : Clear f (Stepper.without belowEntry (e::l)) := by
  intro d hd x hx hxd
  have hrejected : ∀ y ∈ l, (!belowEntry y e) = false → (!f y) = true := by
    intro y hy hye
    rw [Bool.not_eq_eq_eq_not,Bool.not_false] at hye
    simp [h e (by simp [he]) y (List.mem_cons_of_mem _ hy) hye]
  rw [Stepper.without,CollectSubtree.takeWhile_filter hrejected] at hd
  refine h d ?_ x (List.mem_cons_of_mem _ (List.mem_of_mem_filter hx)) hxd
  rw [List.takeWhile_cons_of_pos (by simp [he])]
  exact List.mem_cons_of_mem _ (List.mem_of_mem_filter hd)

theorem seek_next {R : σ → List BitIndexEntry → Prop} {next : EStateM IterError σ (Option BitIndexEntry)}
    (hnext : ∀ s l, R s l → ∃ t, next s = .ok l.head? t ∧ R t l.tail) (fuel : ℕ) {m : List BitIndexEntry} (hR : R s m)
    (hm : m.length < fuel) :
    ∃ t, seek f next fuel s = .ok (m.filter f).head? t ∧
      ∃ m', R t m' ∧ (m.filter f).tail = m'.filter f ∧ m'.length < fuel := by
  induction fuel generalizing s m with
  | zero => exact absurd hm (Nat.not_lt_zero _)
  | succ fuel ih =>
    obtain ⟨t,ht,hRt⟩ := hnext s m hR
    rw [seek,bind_of_ok ht]
    cases m with
    | nil => exact ⟨t,rfl,[],hRt,rfl,hm⟩
    | cons e m =>
      cases he : f e with
      | true =>
        simp only [List.head?_cons,he,if_true]
        rw [List.filter_cons_of_pos he]
        exact ⟨t,rfl,m,hRt,rfl,Nat.lt_of_succ_lt hm⟩
      | false =>
        simp only [List.head?_cons,he,Bool.false_eq_true,if_false]
        rw [List.filter_cons_of_neg (by simp [he])]
        obtain ⟨u,hu,m',hRu,htail,hlen⟩ := ih hRt (Nat.lt_of_succ_lt_succ hm)
        exact ⟨u,hu,m',hRu,htail,Nat.lt_succ_of_lt hlen⟩

section
variable {R : σ → List BitIndexEntry → Prop} (h : iter.Implements belowEntry R mayBelow)
include h

theorem peek_spec (fuel : ℕ) {m : List BitIndexEntry} (hR : R s m) (hm : m.length < fuel) :
    ∃ t, peek f iter fuel s = .ok (m.filter f).head? t ∧ ∃ m', R t m' ∧ m.filter f = m'.filter f ∧ m'.length < fuel := by
  induction fuel generalizing s m with
  | zero => exact absurd hm (Nat.not_lt_zero _)
  | succ fuel ih =>
    obtain ⟨t,ht,hRt⟩ := h.peek s m hR
    rw [peek,bind_of_ok ht]
    cases m with
    | nil =>
      obtain ⟨u,hu,hRu⟩ := h.peek t [] hRt
      exact ⟨u,hu,[],hRu,rfl,hm⟩
    | cons e m =>
      cases he : f e with
      | true =>
        simp only [List.head?_cons,he,if_true]
        obtain ⟨u,hu,hRu⟩ := h.peek t _ hRt
        rw [List.filter_cons_of_pos he]
        exact ⟨u,hu,e::m,hRu,by rw [List.filter_cons_of_pos he],hm⟩
      | false =>
        simp only [List.head?_cons,he,Bool.false_eq_true,if_false]
        obtain ⟨u,hu,hRu⟩ := h.next t _ hRt
        rw [List.filter_cons_of_neg (by simp [he]),bind_of_ok hu]
        obtain ⟨v,hv,m',hRv,heq,hlen⟩ := ih hRu (Nat.lt_of_succ_lt_succ hm)
        exact ⟨v,hv,m',hRv,heq,Nat.lt_succ_of_lt hlen⟩

theorem seek_stepOver (fuel : ℕ) {m : List BitIndexEntry} (hR : R s m) (hm : m.length < fuel)
    (hmay : may f iter mayBelow s) :
    ∃ t, seek f iter.stepOver fuel s = .ok (m.filter f).head? t ∧
      ∃ m', R t m' ∧ Stepper.without belowEntry (m.filter f) = m'.filter f ∧ m'.length < fuel := by
  induction fuel generalizing s m with
  | zero => exact absurd hm (Nat.not_lt_zero _)
  | succ fuel ih =>
    obtain ⟨l,hd,hclear,hreach⟩ := hmay
    obtain rfl := (h.drains hR).unique hd
    obtain ⟨t,ht,hRt⟩ := h.stepOver s m hR (hreach m s (.refl m) hd)
    rw [seek,bind_of_ok ht]
    cases m with
    | nil => exact ⟨t,rfl,[],hRt,rfl,hm⟩
    | cons e m =>
      have hlen : (Stepper.without belowEntry (e::m)).length < fuel :=
        lt_of_le_of_lt (IndexTreeIter.length_without _) (Nat.lt_of_succ_lt_succ hm)
      cases he : f e with
      | true =>
        simp only [List.head?_cons,he,if_true]
        rw [List.filter_cons_of_pos he]
        refine ⟨t,rfl,_,hRt,?_,Nat.lt_succ_of_lt hlen⟩
        rw [Stepper.without,Stepper.without,List.filter_filter,List.filter_filter]
        exact List.filter_congr fun x _ => Bool.and_comm _ _
      | false =>
        simp only [List.head?_cons,he,Bool.false_eq_true,if_false]
        have hmay' : may f iter mayBelow t :=
          ⟨_,h.drains hRt,hclear.without he,fun m' u hr hu => hreach m' u (.step he hr) hu⟩
        obtain ⟨u,hu,m',hRu,hwo,hlen'⟩ := ih hRt hlen hmay'
        rw [hclear.filter_without he] at hu hwo
        exact ⟨u,hu,m',hRu,hwo,Nat.lt_succ_of_lt hlen'⟩

/-- The iterator stands for the entries that pass, with fuel for all that there are. -/
theorem implements (f : BitIndexEntry → Bool) (fuel : ℕ) :
    (iterator f fuel iter).Implements belowEntry (fun s l => ∃ m, R s m ∧ l = m.filter f ∧ m.length < fuel)
      (may f iter mayBelow) := by
  refine ⟨?_,?_,?_⟩
  · rintro s _ ⟨m,hR,rfl,hm⟩
    exact seek_next h.next fuel hR hm
  · rintro s _ ⟨m,hR,rfl,hm⟩
    exact peek_spec h fuel hR hm
  · rintro s _ ⟨m,hR,rfl,hm⟩ hp
    exact seek_stepOver h fuel hR hm hp

end
end Filter
/-! ### Any iterator -/

/-- The iterators of the crate as they are made, and where stepping over may be asked of each. -/
inductive OfCrate : {σ : Type} → BitTreeIterator σ → σ → (σ → Prop) → Prop
  | tree {oid : Oid} (ho : oid.treeish.Distinct) (hblob : ∀ c, oid ≠ .blob c) :
    OfCrate TreeIter.iterator (.new oid) fun _ => True
  | index {idx : BitIndexInner} {fuel : ℕ} (h : idx.Sane) (hfuel : idx.indexTreeIter.length ≤ fuel) :
    OfCrate (IndexTreeIter.iterator idx fuel) (.new idx) fun _ => True
  | worktree {gitignore : Option Bytes → BitPath → Bool → Bool} {idx : BitIndexInner} {w : Worktree} {fuel : ℕ}
      (hw : w.WellFormed) (hfuel : (worktreeTreeIter gitignore idx w).length ≤ fuel) :
    OfCrate (WorktreeTreeIter.iterator gitignore idx w fuel) (.new w) (WorktreeTreeIter.may gitignore idx w)
  /-- The iterator below was in use before, and is in use again after. -/
  | collectSubtree {σ : Type} {iter : BitTreeIterator σ} {start s : σ} {may : σ → Prop} {cs : List Call}
      (h : OfCrate iter start may) (hr : iter.Runs may cs start s) (tree : BitPath) :
    OfCrate (CollectSubtree.iterator tree iter) s (CollectSubtree.may tree iter may)
  | filter {σ : Type} {iter : BitTreeIterator σ} {start : σ} {may : σ → Prop} {fuel : ℕ} (h : OfCrate iter start may)
      (hfuel : ∀ l, iter.Drains start l → l.length < fuel) (f : BitIndexEntry → Bool) :
    OfCrate (Filter.iterator f fuel iter) start (Filter.may f iter may)

theorem OfCrate.implements {it : BitTreeIterator σ} {start : σ} {may : σ → Prop} (h : OfCrate it start may) :
    ∃ R l, it.Implements belowEntry R may ∧ R start l := by
  induction h with
  | tree ho hblob => exact ⟨_,_,TreeIter.implements,TreeIter.holds_new ho hblob⟩
  | @index idx fuel h hfuel => exact ⟨_,_,IndexTreeIter.implements h hfuel,IndexTreeIter.holds_new idx⟩
  | worktree hw hfuel => exact ⟨_,_,WorktreeTreeIter.implements,WorktreeTreeIter.holds_new hw,hfuel⟩
  | collectSubtree _ hr tree ih =>
    obtain ⟨R,l,hR,hl⟩ := ih
    obtain ⟨m,hm⟩ := hR.runs hr hl
    exact ⟨_,_,CollectSubtree.implements hR tree,m,hm,rfl⟩
  | @filter _ _ _ _ fuel _ hfuel f ih =>
    obtain ⟨R,l,hR,hl⟩ := ih
    exact ⟨_,_,Filter.implements hR f fuel,l,hl,rfl,hfuel l (hR.drains hl)⟩

/-- In every run that steps over only where it may, to step over is to go on without what lies below. -/
theorem OfCrate.over_is_next {it : BitTreeIterator σ} {start s : σ} {may : σ → Prop} {cs : List Call}
    (h : OfCrate it start may) (hr : it.Runs may cs start s) (hmay : may s) : it.OverIsNext belowEntry s := by
  obtain ⟨R,l,hR,hl⟩ := h.implements
  exact hR.overIsNext_of_runs hr hl hmay

/-- The tree of one file in a directory. -/
def nestedOid : Oid := .tree (.node [97] (.leaf [98] (.REG,[]) .nil) .nil)

theorem drains_nestedOid : TreeIter.iterator.Drains (.new nestedOid) (treeIter nestedOid) :=
  TreeIter.implements.drains (TreeIter.holds_new (by decide) (Oid.tree_ne_blob _))

theorem ofCrate_nestedOid (f : BitIndexEntry → Bool) :
    OfCrate (Filter.iterator f 4 TreeIter.iterator) (.new nestedOid) (Filter.may f TreeIter.iterator fun _ => True) := by
  have htree : OfCrate TreeIter.iterator (.new nestedOid) fun _ => True := .tree (by decide) (Oid.tree_ne_blob _)
  exact .filter htree (fun l hl => by rw [hl.unique drains_nestedOid]; decide) f

/-- The iterator over the directory `a`, which a peek has found behind the root. -/
def peekedDirectory : TreeIter := ⟨[⟨.TREE,[[97]],.tree (.leaf [98] (.REG,[]) .nil)⟩],0⟩

/-- Once the directory was found it can be stepped over. -/
theorem OfCrate.over_is_next_peeked :
    (Pathspec.matchTreeIter ⟨[[97]]⟩ 4 TreeIter.iterator).OverIsNext belowEntry peekedDirectory := by
  have hr : (Pathspec.matchTreeIter ⟨[[97]]⟩ 4 TreeIter.iterator).Runs
      (Filter.may (fun entry => entry.path.startsWith [[97]]) TreeIter.iterator fun _ => True) [.peek] (.new nestedOid)
      peekedDirectory := .cons nofun rfl (.nil _)
  refine OfCrate.over_is_next (ofCrate_nestedOid _) hr ?_
  refine ⟨_,.cons rfl (.cons rfl (.nil rfl)),?_,fun _ _ _ _ => trivial⟩
  unfold Filter.Clear
  decide

/-- A worktree of one file. -/
def oneFile : Worktree := .leaf [97] ⟨.REG,[],0,0⟩ .nil

/-- The iterator over the worktree panics at a file, and a filter loses what is in a directory that it rejects. -/
theorem over_not_next :
    (∃ may s, OfCrate (WorktreeTreeIter.iterator (fun _ _ _ => false) ⟨[],none⟩ oneFile 2) (.new oneFile) may ∧
      (WorktreeTreeIter.iterator (fun _ _ _ => false) ⟨[],none⟩ oneFile 2).Runs (fun _ => True) [.next] (.new oneFile) s ∧
      ¬(WorktreeTreeIter.iterator (fun _ _ _ => false) ⟨[],none⟩ oneFile 2).OverIsNext belowEntry s) ∧
    ∃ may, OfCrate (Pathspec.matchTreeIter ⟨[[97]]⟩ 4 TreeIter.iterator) (.new nestedOid) may ∧
      ¬(Pathspec.matchTreeIter ⟨[[97]]⟩ 4 TreeIter.iterator).OverIsNext belowEntry (.new nestedOid) := by
  constructor
  · have hpanic : WorktreeTreeIter.stepOver (fun _ _ _ => false) ⟨[],none⟩ oneFile 2
        ⟨[([[97]],.inl ⟨.REG,[],0,0⟩)],none⟩ =
          .error (.panic "assertion failed: entry.mode() == FileMode::TREE")
            ⟨[],some (FileNode.toEntry ⟨.REG,[],0,0⟩ [[97]])⟩ := rfl
    refine ⟨_,_,.worktree ⟨by decide,by decide⟩ (by decide),.cons nofun rfl (.nil _),?_⟩
    rintro ⟨r,t,u,l,ho,-⟩
    cases hpanic.symm.trans ho
  · refine ⟨_,ofCrate_nestedOid _,?_⟩
    have hover : (Pathspec.matchTreeIter ⟨[[97]]⟩ 4 TreeIter.iterator).stepOver (.new nestedOid) = .ok none ⟨[],0⟩ := rfl
    rintro ⟨r,t,u,l,ho,hn,-⟩
    cases hover.symm.trans ho
    -- `next` goes into the root
    have hnext : (Pathspec.matchTreeIter ⟨[[97]]⟩ 4 TreeIter.iterator).next (.new nestedOid) =
        .ok (some (.ofTreeEntry ⟨.TREE,[[97]],.tree (.leaf [98] (.REG,[]) .nil)⟩))
          ⟨[⟨.blob .REG,[[97],[98]],.blob []⟩],0⟩ := rfl
    cases hnext.symm.trans hn

end Iterators
end Libbit
