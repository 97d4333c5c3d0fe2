import Libbit.DiffConsumers
import Libbit.WalkEntries

/-! However a directory of the difference is used up, the iterator it was borrowed from is left behind the directory.
So all that go through a difference see one list of entries, and what they make of it agrees. -/
namespace Libbit
namespace Iterators

open Lib

variable {σ τ : Type}

theorem collect_run {α : Type} {R : σ → List α → Prop} {next : EStateM IterError σ (Option α)}
    (hnext : ∀ s l, R s l → ∃ t, next s = .ok l.head? t ∧ R t l.tail) {s : σ} {l : List α} {fuel : ℕ}
    (hR : R s l) (hl : l.length < fuel) : ∃ t, collect next fuel s = .ok l t ∧ R t [] := by
  induction fuel generalizing s l with
  | zero => exact absurd hl (Nat.not_lt_zero _)
  | succ fuel ih =>
    obtain ⟨t,ht,hRt⟩ := hnext s l hR
    rw [collect,bind_of_ok ht]
    cases l with
    | nil => exact ⟨t,rfl,hRt⟩
    | cons e l =>
      obtain ⟨u,hu,hRu⟩ := ih hRt (Nat.lt_of_succ_lt_succ hl)
      exact ⟨u,(bind_of_ok hu).trans rfl,hRu⟩

/-- The methods may be called in any order. The list that the iterator stands for is shorter than the fuel, and the
hashes in it are known. -/
structure Serves (it : BitTreeIterator σ) (R : σ → List BitIndexEntry → Prop) (fuel : ℕ) : Prop where
  next : ∀ s l, R s l → ∃ t, it.next s = .ok l.head? t ∧ R t l.tail
  peek : ∀ s l, R s l → ∃ t, it.peek s = .ok l.head? t ∧ R t l
  stepOver : ∀ s l, R s l → ∃ t, it.stepOver s = .ok l.head? t ∧ R t (Iter.stepOver l)
  known : ∀ s l, R s l → ∀ e ∈ l, e.oid.isKnown
  short : ∀ s l, R s l → l.length < fuel

/-- What is left of a tree. -/
structure TreeIter.Left (fuel : ℕ) (iter : TreeIter) (l : List BitIndexEntry) : Prop where
  holds : iter.Holds l
  preorder : Preorder l
  known : ∀ e ∈ l, e.oid.isKnown
  short : l.length < fuel

theorem TreeIter.Left.of_sublist {fuel : ℕ} {iter t : TreeIter} {l l' : List BitIndexEntry} (h : iter.Left fuel l)
    (hs : l'.Sublist l) (ht : t.Holds l') : t.Left fuel l' :=
  ⟨ht,h.preorder.sublist hs,fun e he => h.known e (hs.subset he),lt_of_le_of_lt hs.length_le h.short⟩

theorem stepOver_sublist (l : List BitIndexEntry) : (Iter.stepOver l).Sublist l := by
  cases l with
  | nil => exact List.Sublist.refl _
  | cons e l => exact (stepOver_suffix e l).sublist.trans (List.sublist_cons_self e l)

theorem TreeIter.serves (fuel : ℕ) : Serves TreeIter.iterator (TreeIter.Left fuel) fuel where
  next s l h := by
    obtain ⟨t,ht,hh⟩ := TreeIter.implements.next s l h.holds
    exact ⟨t,ht,h.of_sublist (List.tail_sublist l) hh⟩
  peek s l h := by
    obtain ⟨t,ht,hh⟩ := TreeIter.implements.peek s l h.holds
    exact ⟨t,ht,h.of_sublist (List.Sublist.refl l) hh⟩
  stepOver s l h := by
    obtain ⟨t,ht,hh⟩ := TreeIter.implements.stepOver s l h.holds trivial
    rw [without_eq_stepOver h.preorder] at hh
    exact ⟨t,ht,h.of_sublist (stepOver_sublist l) hh⟩
  known _ _ h := h.known
  short _ _ h := h.short

theorem TreeIter.left_new {t : Tree} {fuel : ℕ} (ht : t.GitOrder) (hfuel : (treeIter (.tree t)).length < fuel) :
    (TreeIter.new (.tree t)).Left fuel (treeIter (.tree t)) := by
  refine ⟨holds_new ht.distinct (Oid.tree_ne_blob _),ht.preorder,fun e he => ?_,hfuel⟩
  rcases List.mem_cons.mp he with rfl | he
  · rfl
  · obtain ⟨⟨p,a | s⟩,-,rfl⟩ := List.mem_map.mp he <;> rfl

/-! ### Ways to use up a directory -/

section Consumer
variable {iter : BitTreeIterator σ} {R : σ → List BitIndexEntry → Prop} {fuel : ℕ} (h : Serves iter R fuel) {s : σ}
  {e : BitIndexEntry} {l m : List BitIndexEntry}
include h

theorem asConsumer_run (hR : R s (e::l)) (he : e.isTree) : ∃ t, asConsumer iter.peek s = .ok () t ∧ R t (e::l) := by
  obtain ⟨t,ht,hRt⟩ := h.peek s _ hR
  have hexpect : (iter.peek >>= expect "can't call `as_consumer` on empty iterator") s = .ok e t := bind_of_ok ht
  refine ⟨t,?_,hRt⟩
  rw [asConsumer,bind_of_ok hexpect,assertThat_run _ he]

namespace TreeEntriesConsumer

theorem drop_run (hR : R s (e::l)) : ∃ t, drop iter s = .ok () t ∧ R t (Iter.stepOver (e::l)) := by
  obtain ⟨t,ht,hRt⟩ := h.stepOver s _ hR
  have hexpect : (iter.stepOver >>= expect "is it better to panic here or just ignore the error?") s = .ok e t := bind_of_ok ht
  exact ⟨t,(bind_of_ok hexpect).trans rfl,hRt⟩

theorem collectWhile_run (predicate : BitIndexEntry → Bool) (tree : BitPath) {turns : ℕ} (hR : R s m) (hm : m.length < turns) :
    ∃ t, collectWhile iter predicate tree turns s =
        .ok ((m.takeWhile fun x => x.path.startsWith tree).filter predicate) t ∧
      R t (m.dropWhile fun x => x.path.startsWith tree) := by
  induction turns generalizing s m with
  | zero => exact absurd hm (Nat.not_lt_zero _)
  | succ turns ih =>
    obtain ⟨t,ht,hRt⟩ := h.peek s m hR
    cases m with
    | nil =>
      have hin : CollectSubtree.inSubtree iter.peek tree s = .ok false t := bind_of_ok ht
      exact ⟨t,(bind_of_ok hin).trans rfl,hRt⟩
    | cons x m =>
      have hin : CollectSubtree.inSubtree iter.peek tree s = .ok (x.path.startsWith tree) t := bind_of_ok ht
      rw [collectWhile,bind_of_ok hin]
      cases hx : x.path.startsWith tree with
      | false => exact ⟨t,by simp [hx],by simpa [hx] using hRt⟩
      | true =>
        obtain ⟨u,hu,hRu⟩ := h.next t _ hRt
        obtain ⟨v,hv,hRv⟩ := ih hRu (Nat.lt_of_succ_lt_succ hm)
        have hunwrap : (iter.next >>= unwrap) t = .ok x u := bind_of_ok hu
        refine ⟨v,?_,by simpa [hx] using hRv⟩
        simp only [if_true]
        rw [bind_of_ok hunwrap,bind_of_ok hv]
        simp only [List.takeWhile_cons,hx,if_true,List.filter_cons]
        rfl

theorem collectOverFiles_run (hR : R s (e::l)) (he : e.isTree) :
    ∃ t, collectOverFiles iter fuel s = .ok (files (Iter.subtree (e::l)).tail) t ∧ R t (Iter.stepOver (e::l)) := by
  obtain ⟨t,ht,hRt⟩ := h.next s _ hR
  obtain ⟨u,hu,hRu⟩ := collectWhile_run h (fun entry => !entry.isTree) e.path hRt (h.short _ _ hRt)
  have hexpect : (iter.next >>= expect "currently expected to not be called when at end") s = .ok e t := bind_of_ok ht
  have hover : collectOverTreeFiltered iter (fun entry => !entry.isTree) fuel s =
      .ok (e,files (Iter.subtree (e::l)).tail) u := by
    rw [collectOverTreeFiltered,bind_of_ok hexpect,bind_of_ok (assertThat_run _ he t),bind_of_ok hu]
    rfl
  refine ⟨u,(bind_of_ok hover).trans rfl,?_⟩
  rw [Iter.stepOver,if_pos he]
  exact hRu

theorem iterFiles_run (hR : R s (e::l)) (he : e.isTree) :
    ∃ t, iterFiles iter fuel s = .ok (files (Iter.subtree (e::l)).tail) t ∧ R t (Iter.stepOver (e::l)) := by
  obtain ⟨t,ht,hRt⟩ := h.peek s _ hR
  have hcollect : collectOverTreeIter iter.peek s = .ok e t := by
    have hunwrap : (iter.peek >>= unwrap) s = .ok e t := bind_of_ok ht
    rw [collectOverTreeIter,bind_of_ok hunwrap,bind_of_ok (assertThat_run _ he t)]
    rfl
  have hself : e.path.startsWith e.path = true := BitPath.startsWith_iff.mpr List.prefix_rfl
  obtain ⟨inside,hinside⟩ : ∃ inside, inside = (e::l).takeWhile fun x => x.path.startsWith e.path := ⟨_,rfl⟩
  obtain ⟨rest,hrest⟩ : ∃ rest, rest = (e::l).dropWhile fun x => x.path.startsWith e.path := ⟨_,rfl⟩
  have hw : CollectSubtree.Within R e.path rest t inside := by
    rw [hinside,hrest]
    exact .of_split hRt
  -- first the files of the subtree, and then what may be left of it
  have hsubtree : ∀ s m, CollectSubtree.Within R e.path rest s m →
      ∃ t, (CollectSubtree.iterator e.path iter).next s = .ok m.head? t ∧ CollectSubtree.Within R e.path rest t m.tail :=
    fun _ _ => CollectSubtree.next_within h.peek h.next
  have hfiles : ∀ s l', (∃ m, CollectSubtree.Within R e.path rest s m ∧ l' = m.filter (fun entry => !entry.isTree) ∧
      m.length < fuel) → ∃ t, Filter.seek (fun entry => !entry.isTree) (CollectSubtree.iterator e.path iter).next fuel s =
        .ok l'.head? t ∧ ∃ m, CollectSubtree.Within R e.path rest t m ∧
          l'.tail = m.filter (fun entry => !entry.isTree) ∧ m.length < fuel := by
    rintro s _ ⟨m,hm,rfl,hmlen⟩
    exact Filter.seek_next hsubtree fuel hm hmlen
  have hlen : inside.length < fuel := lt_of_le_of_lt (hinside ▸ (List.takeWhile_sublist _).length_le) (h.short _ _ hR)
  obtain ⟨u,hu,m,hm,-,hmlen⟩ := collect_run hfiles ⟨inside,hw,rfl,hlen⟩ (lt_of_le_of_lt List.filter_sublist.length_le hlen)
  obtain ⟨v,hv,hRv⟩ := count_run hsubtree hm hmlen
  refine ⟨v,?_,?_⟩
  · have hresult : inside.filter (fun entry => !entry.isTree) = files (Iter.subtree (e::l)).tail := by
      rw [hinside,List.takeWhile_cons_of_pos (p := fun x : BitIndexEntry => x.path.startsWith e.path) hself,
        List.filter_cons_of_neg (by simp [he])]
      rfl
    rw [iterFiles,bind_of_ok hcollect,← hresult]
    exact (bind_of_ok hu).trans ((bind_of_ok hv).trans rfl)
  · have hleft : Iter.stepOver (e::l) = rest := by
      rw [hrest,List.dropWhile_cons_of_pos (p := fun x : BitIndexEntry => x.path.startsWith e.path) hself,Iter.stepOver,if_pos he]
    rw [hleft]
    exact hRv.holds

end TreeEntriesConsumer
end Consumer
/-! ### The entries of the difference -/

open Libbit.TreeDiffIter (Turn)

/-- A turn of the loop, where hashes tell whether two files differ. -/
def turnOf (old new : List BitIndexEntry) : Turn :=
  Libbit.TreeDiffIter.turn (m := Id) (fun o n => decide (o.oid ≠ n.oid)) false old new

/-- The turns of the loop to the end and what they yield. -/
inductive Drained : List BitIndexEntry → List BitIndexEntry → List Libbit.TreeDiffEntry → Prop
  | done {old new : List BitIndexEntry} (h : turnOf old new = .done) : Drained old new []
  | yield {old new old' new' : List BitIndexEntry} {d : Libbit.TreeDiffEntry} {ds : List Libbit.TreeDiffEntry}
      (h : turnOf old new = .yield d old' new') (hd : Drained old' new' ds) : Drained old new (d::ds)
  | pass {old new old' new' : List BitIndexEntry} {ds : List Libbit.TreeDiffEntry}
      (h : turnOf old new = .pass old' new') (hd : Drained old' new' ds) : Drained old new ds

/-- The entries that a turn leaves, if it is not the last: it uses up one at least. -/
def Leaves (old new : List BitIndexEntry) : Turn → Prop
  | .done => True
  | .yield _ old' new' => old' <:+ old ∧ new' <:+ new ∧ old'.length+new'.length < old.length+new.length
  | .pass old' new' => old' <:+ old ∧ new' <:+ new ∧ old'.length+new'.length < old.length+new.length

section
variable {o n : BitIndexEntry} {old new os ns old' new' : List BitIndexEntry}

theorem leaves_old (h : old' <:+ os) : old' <:+ o::os ∧ new <:+ new ∧ old'.length+new.length < (o::os).length+new.length := by
  have hlen := h.length_le
  exact ⟨h.trans (List.suffix_cons o os),List.suffix_rfl,by simp; omega⟩

theorem leaves_new (h : new' <:+ ns) : old <:+ old ∧ new' <:+ n::ns ∧ old.length+new'.length < old.length+(n::ns).length := by
  have hlen := h.length_le
  exact ⟨List.suffix_rfl,h.trans (List.suffix_cons n ns),by simp; omega⟩

theorem leaves_both (h : old' <:+ os) (h' : new' <:+ ns) :
    old' <:+ o::os ∧ new' <:+ n::ns ∧ old'.length+new'.length < (o::os).length+(n::ns).length := by
  have hlen := h.length_le
  have hlen' := h'.length_le
  exact ⟨h.trans (List.suffix_cons o os),h'.trans (List.suffix_cons n ns),by simp; omega⟩

end

theorem turnOf_leaves (old new : List BitIndexEntry) : Leaves old new (turnOf old new) := by
  rcases Libbit.TreeDiffIter.turn_cases (m := Id) (fun o n => decide (o.oid ≠ n.oid)) false old new with
    ⟨t,ht,hturn⟩ | ⟨o,os,n,ns,rfl,rfl,-,-,-,hturn⟩
  · rw [turnOf,hturn]
    change Leaves old new t
    cases ht with
    | done => trivial
    | @created old n ns _ =>
      unfold Libbit.TreeDiffIter.onCreated
      split
      · exact leaves_new (stepOver_suffix n ns)
      · exact leaves_new List.suffix_rfl
    | @deleted o os new _ =>
      unfold Libbit.TreeDiffIter.onDeleted
      split
      · exact leaves_old (stepOver_suffix o os)
      · exact leaves_old List.suffix_rfl
    | @trees o n os ns =>
      unfold Libbit.TreeDiffIter.onTrees
      split
      · exact leaves_both (stepOver_suffix o os) (stepOver_suffix n ns)
      · exact leaves_both List.suffix_rfl List.suffix_rfl
    | @treeToBlob o n os ns => exact leaves_both (stepOver_suffix o os) List.suffix_rfl
    | @blobToTree o n os ns => exact leaves_both List.suffix_rfl (stepOver_suffix n ns)
  · rw [turnOf,hturn]
    by_cases hoid : o.oid = n.oid
    · simp only [hoid,ne_eq,not_true_eq_false,decide_false]
      exact leaves_both List.suffix_rfl List.suffix_rfl
    · simp only [hoid,ne_eq,not_false_eq_true,decide_true]
      exact leaves_both List.suffix_rfl List.suffix_rfl

theorem drained {fuel : ℕ} {old new : List BitIndexEntry} (h : old.length+new.length ≤ fuel) :
    Drained old new (Libbit.TreeDiffIter.drain false fuel old new) := by
  induction fuel generalizing old new with
  | zero =>
    obtain ⟨rfl,rfl⟩ : old = [] ∧ new = [] := ⟨List.length_eq_zero_iff.mp (by omega),List.length_eq_zero_iff.mp (by omega)⟩
    exact .done rfl
  | succ fuel ih =>
    have hleaves := turnOf_leaves old new
    rw [Libbit.TreeDiffIter.drain]
    cases hturn : turnOf old new with
    | done =>
      rw [show Libbit.TreeDiffIter.turn (m := Id) _ false old new = .done from hturn]
      exact .done hturn
    | yield d old' new' =>
      rw [show Libbit.TreeDiffIter.turn (m := Id) _ false old new = .yield d old' new' from hturn]
      rw [hturn] at hleaves
      have hlt := hleaves.2.2
      exact .yield hturn (ih (by omega))
    | pass old' new' =>
      rw [show Libbit.TreeDiffIter.turn (m := Id) _ false old new = .pass old' new' from hturn]
      rw [hturn] at hleaves
      have hlt := hleaves.2.2
      exact .pass hturn (ih (by omega))

/-- An entry as it is handed out, the iterators at that moment, and the entries left when it is used up. -/
inductive Lends (R₁ : σ → List BitIndexEntry → Prop) (R₂ : τ → List BitIndexEntry → Prop) :
    TreeDiffEntry → Libbit.TreeDiffEntry → σ × τ → List BitIndexEntry → List BitIndexEntry → Prop
  | deletedBlob {iters : σ × τ} {old new : List BitIndexEntry} (o : BitIndexEntry) (h₁ : R₁ iters.1 old) (h₂ : R₂ iters.2 new) :
    Lends R₁ R₂ (.DeletedBlob o) (.DeletedBlob o) iters old new
  | createdBlob {iters : σ × τ} {old new : List BitIndexEntry} (n : BitIndexEntry) (h₁ : R₁ iters.1 old) (h₂ : R₂ iters.2 new) :
    Lends R₁ R₂ (.CreatedBlob n) (.CreatedBlob n) iters old new
  | modifiedBlob {iters : σ × τ} {old new : List BitIndexEntry} (o n : BitIndexEntry) (h₁ : R₁ iters.1 old)
      (h₂ : R₂ iters.2 new) : Lends R₁ R₂ (.ModifiedBlob o n) (.ModifiedBlob o n) iters old new
  | maybeModifiedTree {iters : σ × τ} {old new : List BitIndexEntry} (n : BitIndexEntry) (h₁ : R₁ iters.1 old)
      (h₂ : R₂ iters.2 new) : Lends R₁ R₂ (.MaybeModifiedTree n) (.MaybeModifiedTree n) iters old new
  | deletedTree {iters : σ × τ} {o : BitIndexEntry} {os new : List BitIndexEntry} (ho : o.isTree) (h₁ : R₁ iters.1 (o::os))
      (h₂ : R₂ iters.2 new) :
    Lends R₁ R₂ .DeletedTree (.DeletedTree o (Iter.subtree (o::os)).tail) iters (Iter.stepOver (o::os)) new
  | createdTree {iters : σ × τ} {n : BitIndexEntry} {old ns : List BitIndexEntry} (hn : n.isTree) (h₁ : R₁ iters.1 old)
      (h₂ : R₂ iters.2 (n::ns)) :
    Lends R₁ R₂ .CreatedTree (.CreatedTree n (Iter.subtree (n::ns)).tail) iters old (Iter.stepOver (n::ns))
  | blobToTree {iters : σ × τ} {o n : BitIndexEntry} {old ns : List BitIndexEntry} (hn : n.isTree) (h₁ : R₁ iters.1 old)
      (h₂ : R₂ iters.2 (n::ns)) :
    Lends R₁ R₂ (.BlobToTree o) (.BlobToTree o n (Iter.subtree (n::ns)).tail) iters old (Iter.stepOver (n::ns))
  | treeToBlob {iters : σ × τ} {o n : BitIndexEntry} {os new : List BitIndexEntry} (ho : o.isTree) (h₁ : R₁ iters.1 (o::os))
      (h₂ : R₂ iters.2 new) :
    Lends R₁ R₂ (.TreeToBlob n) (.TreeToBlob o (Iter.subtree (o::os)).tail n) iters (Iter.stepOver (o::os)) new

theorem onOld_run {α : Type} {m : EStateM IterError σ α} {a : α} {s s' : σ} (h : m s = .ok a s') (t : τ) :
    onOld m (s,t) = .ok a (s',t) := by
  simp only [onOld,h]

theorem onNew_run {α : Type} {m : EStateM IterError τ α} {a : α} {t t' : τ} (h : m t = .ok a t') (s : σ) :
    onNew m (s,t) = .ok a (s,t') := by
  simp only [onNew,h]

namespace TreeDiffIter
variable {oldIter : BitTreeIterator σ} {newIter : BitTreeIterator τ} {R₁ : σ → List BitIndexEntry → Prop}
  {R₂ : τ → List BitIndexEntry → Prop} {s : σ} {t : τ} {o n : BitIndexEntry} {old new os ns : List BitIndexEntry}

section
variable {fuel : ℕ} (h₁ : Serves oldIter R₁ fuel) (h₂ : Serves newIter R₂ fuel)
include h₁ in
theorem onDeleted_run (hs : R₁ s (o::os)) (ht : R₂ t new) :
    ∃ e d u old', onDeleted oldIter o (s,t) = .ok (some e) u ∧
      Libbit.TreeDiffIter.onDeleted o os new = .yield d old' new ∧ Lends R₁ R₂ e d u old' new := by
  cases ho : o.isTree with
  | true =>
    obtain ⟨s',hs',hrs⟩ := asConsumer_run h₁ hs ho
    refine ⟨_,_,(s',t),_,?_,?_,.deletedTree ho hrs ht⟩
    · rw [onDeleted,if_pos ho]
      exact bind_of_ok (onOld_run hs' t)
    · rw [Libbit.TreeDiffIter.onDeleted,if_pos ho]
  | false =>
    obtain ⟨s',hs',hrs⟩ := h₁.next s _ hs
    refine ⟨_,_,(s',t),_,?_,?_,.deletedBlob o hrs ht⟩
    · rw [onDeleted,if_neg (by simp [ho])]
      exact bind_of_ok (onOld_run hs' t)
    · rw [Libbit.TreeDiffIter.onDeleted,if_neg (by simp [ho])]
      rfl

include h₂ in
theorem onCreated_run (hs : R₁ s old) (ht : R₂ t (n::ns)) :
    ∃ e d u new', onCreated newIter n (s,t) = .ok (some e) u ∧
      Libbit.TreeDiffIter.onCreated old n ns = .yield d old new' ∧ Lends R₁ R₂ e d u old new' := by
  cases hn : n.isTree with
  | true =>
    obtain ⟨t',ht',hrt⟩ := asConsumer_run h₂ ht hn
    refine ⟨_,_,(s,t'),_,?_,?_,.createdTree hn hs hrt⟩
    · rw [onCreated,if_pos hn]
      exact bind_of_ok (onNew_run ht' s)
    · rw [Libbit.TreeDiffIter.onCreated,if_pos hn]
  | false =>
    obtain ⟨t',ht',hrt⟩ := h₂.next t _ ht
    refine ⟨_,_,(s,t'),_,?_,?_,.createdBlob n hs hrt⟩
    · rw [onCreated,if_neg (by simp [hn])]
      exact bind_of_ok (onNew_run ht' s)
    · rw [Libbit.TreeDiffIter.onCreated,if_neg (by simp [hn])]
      rfl

include h₁ h₂

theorem onMatch_run (hs : R₁ s (o::os)) (ht : R₂ t (n::ns)) :
    (∃ e d u old' new', onMatch oldIter newIter o n (s,t) = .ok (some e) u ∧
      Libbit.TreeDiffIter.onMatch (m := Id) (fun o n => decide (o.oid ≠ n.oid)) false o os n ns = .yield d old' new' ∧
      Lends R₁ R₂ e d u old' new') ∨
    ∃ u old' new', onMatch oldIter newIter o n (s,t) = .ok none u ∧
      Libbit.TreeDiffIter.onMatch (m := Id) (fun o n => decide (o.oid ≠ n.oid)) false o os n ns = .pass old' new' ∧
      R₁ u.1 old' ∧ R₂ u.2 new' := by
  obtain ⟨s₁,hs₁,hrs₁⟩ := h₁.next s _ hs
  obtain ⟨t₁,ht₁,hrt₁⟩ := h₂.next t _ ht
  unfold onMatch Libbit.TreeDiffIter.onMatch
  cases ho : o.mode with
  | TREE =>
    have hto := Libbit.TreeDiffIter.isTree_of_mode ho
    cases hn : n.mode with
    | TREE =>
      by_cases hk : o.oid.isKnown ∧ o = n
      · obtain ⟨s₂,hs₂,hrs₂⟩ := h₁.stepOver s _ hs
        obtain ⟨t₂,ht₂,hrt₂⟩ := h₂.stepOver t _ ht
        refine .inr ⟨(s₂,t₂),_,_,?_,by simp only [if_pos hk]; rfl,hrs₂,hrt₂⟩
        simp only [if_pos hk]
        rw [bind_of_ok (onOld_run hs₂ t),bind_of_ok (onNew_run ht₂ s₂)]
        rfl
      · refine .inl ⟨_,_,(s₁,t₁),_,_,?_,by simp only [if_neg hk]; rfl,.maybeModifiedTree n hrs₁ hrt₁⟩
        simp only [if_neg hk]
        rw [bind_of_ok (onOld_run hs₁ t),bind_of_ok (onNew_run ht₁ s₁)]
        rfl
    | blob m =>
      obtain ⟨s₂,hs₂,hrs₂⟩ := asConsumer_run h₁ hs hto
      refine .inl ⟨_,_,(s₂,t₁),_,_,?_,rfl,.treeToBlob hto hrs₂ hrt₁⟩
      simp only
      rw [bind_of_ok (onNew_run ht₁ s),bind_of_ok (onOld_run hs₂ t₁)]
      rfl
  | blob m =>
    cases hn : n.mode with
    | TREE =>
      have htn := Libbit.TreeDiffIter.isTree_of_mode hn
      obtain ⟨t₂,ht₂,hrt₂⟩ := asConsumer_run h₂ ht htn
      refine .inl ⟨_,_,(s₁,t₂),_,_,?_,rfl,.blobToTree htn hrs₁ hrt₂⟩
      simp only
      rw [bind_of_ok (onOld_run hs₁ t),bind_of_ok (onNew_run ht₂ s₁)]
      rfl
    | blob m' =>
      have hko : o.oid.isKnown := h₁.known s _ hs o List.mem_cons_self
      have hkn : n.oid.isKnown := h₂.known t _ ht n List.mem_cons_self
      by_cases hoid : o.oid = n.oid
      · refine .inr ⟨(s₁,t₁),_,_,?_,?_,hrs₁,hrt₁⟩
        · simp only
          rw [bind_of_ok (assertThat_run _ hko _),bind_of_ok (assertThat_run _ hkn _),bind_of_ok (onOld_run hs₁ t),
            bind_of_ok (onNew_run ht₁ s₁),if_neg (not_not_intro hoid)]
          rfl
        · simp only [hoid,ne_eq,not_true_eq_false,decide_false]
          rfl
      · refine .inl ⟨_,_,(s₁,t₁),_,_,?_,?_,.modifiedBlob o n hrs₁ hrt₁⟩
        · simp only
          rw [bind_of_ok (assertThat_run _ hko _),bind_of_ok (assertThat_run _ hkn _),bind_of_ok (onOld_run hs₁ t),
            bind_of_ok (onNew_run ht₁ s₁),if_pos hoid]
          rfl
        · simp only [hoid,ne_eq,not_false_eq_true,decide_true]
          rfl

/-- What `next` makes of the turn that its lists take. -/
def Takes (oldIter : BitTreeIterator σ) (newIter : BitTreeIterator τ) (R₁ : σ → List BitIndexEntry → Prop)
    (R₂ : τ → List BitIndexEntry → Prop) (turns : ℕ) (iters : σ × τ) : Turn → Prop
  | .done => ∃ u, next oldIter newIter (turns+1) iters = .ok none u ∧ R₁ u.1 [] ∧ R₂ u.2 []
  | .yield d old' new' => ∃ e u, next oldIter newIter (turns+1) iters = .ok (some e) u ∧ Lends R₁ R₂ e d u old' new'
  | .pass old' new' => ∃ u, next oldIter newIter (turns+1) iters = next oldIter newIter turns u ∧ R₁ u.1 old' ∧ R₂ u.2 new'

theorem next_turn (turns : ℕ) (hs : R₁ s old) (ht : R₂ t new) :
    Takes oldIter newIter R₁ R₂ turns (s,t) (turnOf old new) := by
  obtain ⟨s₁,hs₁,hrs₁⟩ := h₁.peek s _ hs
  obtain ⟨t₁,ht₁,hrt₁⟩ := h₂.peek t _ ht
  have hnext : next oldIter newIter (turns+1) (s,t) = _ := (bind_of_ok (onOld_run hs₁ t)).trans (bind_of_ok (onNew_run ht₁ s₁))
  cases old with
  | nil =>
    cases new with
    | nil => exact ⟨(s₁,t₁),hnext,hrs₁,hrt₁⟩
    | cons n ns =>
      obtain ⟨e,d,u,new',hrun,hturn,hlends⟩ := onCreated_run h₂ hrs₁ hrt₁
      have hof : turnOf [] (n::ns) = .yield d [] new' := hturn
      rw [hof]
      exact ⟨e,u,hnext.trans hrun,hlends⟩
  | cons o os =>
    cases new with
    | nil =>
      obtain ⟨e,d,u,old',hrun,hturn,hlends⟩ := onDeleted_run h₁ hrs₁ hrt₁
      have hof : turnOf (o::os) [] = .yield d old' [] := hturn
      rw [hof]
      exact ⟨e,u,hnext.trans hrun,hlends⟩
    | cons n ns =>
      simp only [List.head?_cons] at hnext
      cases hcmp : o.diffCmp n with
      | lt =>
        obtain ⟨e,d,u,old',hrun,hturn,hlends⟩ := onDeleted_run h₁ hrs₁ hrt₁
        have hof : turnOf (o::os) (n::ns) = .yield d old' (n::ns) := by
          simp only [turnOf,Libbit.TreeDiffIter.turn,hcmp]
          exact hturn
        rw [hof]
        simp only [hcmp] at hnext
        exact ⟨e,u,hnext.trans hrun,hlends⟩
      | gt =>
        obtain ⟨e,d,u,new',hrun,hturn,hlends⟩ := onCreated_run h₂ hrs₁ hrt₁
        have hof : turnOf (o::os) (n::ns) = .yield d (o::os) new' := by
          simp only [turnOf,Libbit.TreeDiffIter.turn,hcmp]
          exact hturn
        rw [hof]
        simp only [hcmp] at hnext
        exact ⟨e,u,hnext.trans hrun,hlends⟩
      | eq =>
        have hknown : o.oid.isKnown ∨ n.oid.isKnown ∨ o.path = [] ∧ n.path = [] :=
          .inl (h₁.known s _ hs o List.mem_cons_self)
        have hof : turnOf (o::os) (n::ns) =
            Libbit.TreeDiffIter.onMatch (m := Id) (fun o n => decide (o.oid ≠ n.oid)) false o os n ns := by
          simp only [turnOf,Libbit.TreeDiffIter.turn,hcmp]
        simp only [hcmp,assertThat,if_pos hknown] at hnext
        rcases onMatch_run h₁ h₂ hrs₁ hrt₁ with ⟨e,d,u,old',new',hrun,hturn,hlends⟩ | ⟨u,old',new',hrun,hturn,hru⟩
        · rw [hof,hturn]
          exact ⟨e,u,hnext.trans ((bind_of_ok rfl).trans ((bind_of_ok hrun).trans rfl)),hlends⟩
        · rw [hof,hturn]
          exact ⟨u,hnext.trans ((bind_of_ok rfl).trans ((bind_of_ok hrun).trans rfl)),hru⟩

/-- A call of `next` yields the first entry that there is. -/
theorem next_run {ds : List Libbit.TreeDiffEntry} (hd : Drained old new ds) {turns : ℕ}
    (hturns : old.length+new.length < turns) (hs : R₁ s old) (ht : R₂ t new) :
    (ds = [] ∧ ∃ u, next oldIter newIter turns (s,t) = .ok none u ∧ R₁ u.1 [] ∧ R₂ u.2 []) ∨
      ∃ d ds' old' new' e u, ds = d::ds' ∧ Drained old' new' ds' ∧ old'.length+new'.length < old.length+new.length ∧
        next oldIter newIter turns (s,t) = .ok (some e) u ∧ Lends R₁ R₂ e d u old' new' := by
  induction hd generalizing turns s t with
  | done h =>
    obtain ⟨turns,rfl⟩ := Nat.exists_eq_succ_of_ne_zero (Nat.ne_zero_of_lt hturns)
    have htakes := next_turn h₁ h₂ turns hs ht
    rw [h] at htakes
    exact .inl ⟨rfl,htakes⟩
  | @yield old new old' new' d ds h hd _ =>
    obtain ⟨turns,rfl⟩ := Nat.exists_eq_succ_of_ne_zero (Nat.ne_zero_of_lt hturns)
    have htakes := next_turn h₁ h₂ turns hs ht
    have hleaves := turnOf_leaves old new
    rw [h] at htakes hleaves
    obtain ⟨e,u,hnext,hlends⟩ := htakes
    exact .inr ⟨d,ds,old',new',e,u,rfl,hd,hleaves.2.2,hnext,hlends⟩
  | @pass old new old' new' ds h hd ih =>
    obtain ⟨turns,rfl⟩ := Nat.exists_eq_succ_of_ne_zero (Nat.ne_zero_of_lt hturns)
    have htakes := next_turn h₁ h₂ turns hs ht
    have hleaves := turnOf_leaves old new
    rw [h] at htakes hleaves
    obtain ⟨u,hnext,hu₁,hu₂⟩ := htakes
    have hlt := hleaves.2.2
    have hlt' : old'.length+new'.length < turns := by omega
    rw [Nat.succ_eq_add_one,hnext]
    rcases ih hlt' hu₁ hu₂ with hnil | ⟨d,ds',old'',new'',e,v,hds,hd',hless,hv,hlends⟩
    · exact .inl hnil
    · exact .inr ⟨d,ds',old'',new'',e,v,hds,hd',hless.trans hlt,hv,hlends⟩

end
end TreeDiffIter

/-! ### Going through the difference -/

/-- The entries that a directory of the difference is expanded to. -/
def entriesOf : Libbit.TreeDiffEntry → List DiffEntry
  | .DeletedBlob old => [.Deleted old]
  | .CreatedBlob new => [.Created new]
  | .ModifiedBlob old new => [.Modified old new]
  | .DeletedTree _ sub => (files sub).map .Deleted
  | .CreatedTree _ sub => (files sub).map .Created
  | .BlobToTree old _ sub => .Deleted old::(files sub).map .Created
  | .TreeToBlob _ sub new => (files sub).map .Deleted++[.Created new]
  | .MaybeModifiedTree _ => []
  | .UnmodifiedBlob _ => []
  | .UnmodifiedTree _ _ => []

section
variable {oldIter : BitTreeIterator σ} {newIter : BitTreeIterator τ} {R₁ : σ → List BitIndexEntry → Prop}
  {R₂ : τ → List BitIndexEntry → Prop} {fuel : ℕ} {old new : List BitIndexEntry} {e : TreeDiffEntry}
  {d : Libbit.TreeDiffEntry} {iters : σ × τ}
variable (h₁ : Serves oldIter R₁ fuel) (h₂ : Serves newIter R₂ fuel)
include h₁ h₂

theorem EntryDiffIter.onEntry_run (h : Lends R₁ R₂ e d iters old new) :
    ∃ x u, onEntry oldIter newIter fuel e iters = .ok x u ∧ R₁ u.1 old ∧ R₂ u.2 new ∧
      entriesOf d = x.elim (fun diffEntry => [diffEntry]) id := by
  obtain ⟨s,t⟩ := iters
  cases h with
  | deletedBlob o hs ht => exact ⟨_,_,rfl,hs,ht,rfl⟩
  | createdBlob n hs ht => exact ⟨_,_,rfl,hs,ht,rfl⟩
  | modifiedBlob o n hs ht => exact ⟨_,_,rfl,hs,ht,rfl⟩
  | maybeModifiedTree n hs ht => exact ⟨_,_,rfl,hs,ht,rfl⟩
  | deletedTree ho hs ht =>
    obtain ⟨s',hs',hrs⟩ := TreeEntriesConsumer.iterFiles_run h₁ hs ho
    exact ⟨_,_,(bind_of_ok (onOld_run hs' t)).trans rfl,hrs,ht,rfl⟩
  | createdTree hn hs ht =>
    obtain ⟨t',ht',hrt⟩ := TreeEntriesConsumer.iterFiles_run h₂ ht hn
    exact ⟨_,_,(bind_of_ok (onNew_run ht' s)).trans rfl,hs,hrt,rfl⟩
  | blobToTree hn hs ht =>
    obtain ⟨t',ht',hrt⟩ := TreeEntriesConsumer.iterFiles_run h₂ ht hn
    exact ⟨_,_,(bind_of_ok (onNew_run ht' s)).trans rfl,hs,hrt,rfl⟩
  | treeToBlob ho hs ht =>
    obtain ⟨s',hs',hrs⟩ := TreeEntriesConsumer.iterFiles_run h₁ hs ho
    exact ⟨_,_,(bind_of_ok (onOld_run hs' t)).trans rfl,hrs,ht,rfl⟩

theorem TreeStatusDiffer.onEntry_run (status : WorkspaceStatus) (h : Lends R₁ R₂ e d iters old new) :
    ∃ u, onEntry oldIter newIter fuel status e iters = .ok (Libbit.TreeStatusDiffer.on status d) u ∧ R₁ u.1 old ∧ R₂ u.2 new := by
  obtain ⟨s,t⟩ := iters
  cases h with
  | deletedBlob o hs ht => exact ⟨_,rfl,hs,ht⟩
  | createdBlob n hs ht => exact ⟨_,rfl,hs,ht⟩
  | modifiedBlob o n hs ht => exact ⟨_,rfl,hs,ht⟩
  | maybeModifiedTree n hs ht => exact ⟨_,rfl,hs,ht⟩
  | deletedTree ho hs ht =>
    obtain ⟨s',hs',hrs⟩ := TreeEntriesConsumer.collectOverFiles_run h₁ hs ho
    exact ⟨_,(bind_of_ok (onOld_run hs' t)).trans rfl,hrs,ht⟩
  | createdTree hn hs ht =>
    obtain ⟨t',ht',hrt⟩ := TreeEntriesConsumer.collectOverFiles_run h₂ ht hn
    exact ⟨_,(bind_of_ok (onNew_run ht' s)).trans rfl,hs,hrt⟩
  | blobToTree hn hs ht =>
    obtain ⟨t',ht',hrt⟩ := TreeEntriesConsumer.iterFiles_run h₂ ht hn
    exact ⟨_,(bind_of_ok (onNew_run ht' s)).trans rfl,hs,hrt⟩
  | treeToBlob ho hs ht =>
    obtain ⟨s',hs',hrs⟩ := TreeEntriesConsumer.iterFiles_run h₁ hs ho
    exact ⟨_,(bind_of_ok (onOld_run hs' t)).trans rfl,hrs,ht⟩

theorem TreeDiffIter.drop_run (h : Lends R₁ R₂ e d iters old new) :
    ∃ u, drop oldIter newIter e iters = .ok () u ∧ R₁ u.1 old ∧ R₂ u.2 new := by
  obtain ⟨s,t⟩ := iters
  cases h with
  | deletedBlob o hs ht => exact ⟨_,rfl,hs,ht⟩
  | createdBlob n hs ht => exact ⟨_,rfl,hs,ht⟩
  | modifiedBlob o n hs ht => exact ⟨_,rfl,hs,ht⟩
  | maybeModifiedTree n hs ht => exact ⟨_,rfl,hs,ht⟩
  | deletedTree _ hs ht =>
    obtain ⟨s',hs',hrs⟩ := TreeEntriesConsumer.drop_run h₁ hs
    exact ⟨_,onOld_run hs' t,hrs,ht⟩
  | createdTree _ hs ht =>
    obtain ⟨t',ht',hrt⟩ := TreeEntriesConsumer.drop_run h₂ ht
    exact ⟨_,onNew_run ht' s,hs,hrt⟩
  | blobToTree _ hs ht =>
    obtain ⟨t',ht',hrt⟩ := TreeEntriesConsumer.drop_run h₂ ht
    exact ⟨_,onNew_run ht' s,hs,hrt⟩
  | treeToBlob _ hs ht =>
    obtain ⟨s',hs',hrs⟩ := TreeEntriesConsumer.drop_run h₁ hs
    exact ⟨_,onOld_run hs' t,hrs,ht⟩

namespace EntryDiffIter

omit h₁ h₂ in
theorem onIters_run {α : Type} {m : EStateM IterError (σ × τ) α} {a : α} {u : σ × τ} (h : m iters = .ok a u)
    (queue : List DiffEntry) : onIters m ⟨iters,queue⟩ = .ok a ⟨u,queue⟩ := by
  simp only [onIters,h]

/-- What is left: the queue, and the entries that the difference is expanded to. -/
def Holds (R₁ : σ → List BitIndexEntry → Prop) (R₂ : τ → List BitIndexEntry → Prop) (fuel : ℕ) (iter : EntryDiffIter σ τ)
    (l : List DiffEntry) : Prop :=
  ∃ old new ds, R₁ iter.iters.1 old ∧ R₂ iter.iters.2 new ∧ Drained old new ds ∧ old.length+new.length < fuel ∧
    l = iter.queue++ds.flatMap entriesOf

theorem loop_run {turns : ℕ} {queue : List DiffEntry} {ds : List Libbit.TreeDiffEntry} (hs : R₁ iters.1 old)
    (ht : R₂ iters.2 new) (hd : Drained old new ds) (hfuel : old.length+new.length < fuel)
    (hturns : old.length+new.length < turns) :
    ∃ t, loop oldIter newIter fuel turns ⟨iters,queue⟩ = .ok (queue++ds.flatMap entriesOf).head? t ∧
      Holds R₁ R₂ fuel t (queue++ds.flatMap entriesOf).tail := by
  induction turns generalizing iters old new queue ds with
  | zero => exact absurd hturns (Nat.not_lt_zero _)
  | succ turns ih =>
    cases queue with
    | cons x queue => exact ⟨⟨iters,queue⟩,rfl,old,new,ds,hs,ht,hd,hfuel,rfl⟩
    | nil =>
      rw [loop,run_getBind]
      rcases TreeDiffIter.next_run h₁ h₂ hd hfuel hs ht with
        ⟨rfl,u,hu,hu₁,hu₂⟩ | ⟨d,ds',old',new',e,u,rfl,hd',hlt,hu,hlends⟩
      · exact ⟨⟨u,[]⟩,(bind_of_ok (onIters_run hu [])).trans rfl,[],[],[],hu₁,hu₂,.done rfl,Nat.zero_lt_of_lt hfuel,rfl⟩
      · obtain ⟨x,v,hv,hv₁,hv₂,hx⟩ := onEntry_run h₁ h₂ hlends
        rw [List.flatMap_cons,hx]
        cases x with
        | inl x =>
          refine ⟨⟨v,[]⟩,?_,old',new',ds',hv₁,hv₂,hd',hlt.trans hfuel,rfl⟩
          exact (bind_of_ok (onIters_run hu [])).trans ((bind_of_ok (onIters_run hv [])).trans rfl)
        | inr queue =>
          have hlt' : old'.length+new'.length < turns := by omega
          obtain ⟨w,hw,hrw⟩ : ∃ w, loop oldIter newIter fuel turns ⟨v,queue⟩ = .ok (queue++ds'.flatMap entriesOf).head? w ∧
            Holds R₁ R₂ fuel w (queue++ds'.flatMap entriesOf).tail := ih hv₁ hv₂ hd' (hlt.trans hfuel) hlt'
          refine ⟨w,?_,hrw⟩
          exact (bind_of_ok (onIters_run hu [])).trans ((bind_of_ok (onIters_run hv [])).trans ((bind_of_ok rfl).trans hw))

/-- The iterator yields what the difference is expanded to. -/
theorem yields {ds : List Libbit.TreeDiffEntry} (hs : R₁ iters.1 old) (ht : R₂ iters.2 new) (hd : Drained old new ds)
    (hfuel : old.length+new.length < fuel) : Enumerates (next oldIter newIter fuel) ⟨iters,[]⟩ (ds.flatMap entriesOf) := by
  refine .of_step (R := Holds R₁ R₂ fuel) ?_ ⟨old,new,ds,hs,ht,hd,hfuel,rfl⟩
  rintro ⟨iters,queue⟩ _ ⟨old,new,ds,hs,ht,hd,hfuel,rfl⟩
  exact loop_run h₁ h₂ hs ht hd hfuel hfuel

end EntryDiffIter

theorem TreeStatusDiffer.runDiff_run {turns : ℕ} {status : WorkspaceStatus} {ds : List Libbit.TreeDiffEntry}
    (hs : R₁ iters.1 old) (ht : R₂ iters.2 new) (hd : Drained old new ds) (hfuel : old.length+new.length < fuel)
    (hturns : old.length+new.length < turns) :
    ∃ u, runDiff oldIter newIter fuel turns status iters = .ok (ds.foldl Libbit.TreeStatusDiffer.on status) u := by
  induction turns generalizing iters old new status ds with
  | zero => exact absurd hturns (Nat.not_lt_zero _)
  | succ turns ih =>
    rw [runDiff]
    rcases TreeDiffIter.next_run h₁ h₂ hd hfuel hs ht with
      ⟨rfl,u,hu,-⟩ | ⟨d,ds',old',new',e,u,rfl,hd',hlt,hu,hlends⟩
    · exact ⟨u,(bind_of_ok hu).trans rfl⟩
    · obtain ⟨v,hv,hv₁,hv₂⟩ := onEntry_run h₁ h₂ status hlends
      obtain ⟨w,hw⟩ := ih hv₁ hv₂ hd' (hlt.trans hfuel) (by omega)
      exact ⟨w,(bind_of_ok hu).trans ((bind_of_ok hv).trans hw)⟩

/-- Whether there is an entry that stands for a difference. -/
def differs : Libbit.TreeDiffEntry → Bool
  | .MaybeModifiedTree _ => false
  | .UnmodifiedBlob _ => false
  | .UnmodifiedTree _ _ => false
  | _ => true

theorem treesAreDiffLoop_run {turns : ℕ} {ds : List Libbit.TreeDiffEntry}
    (hs : R₁ iters.1 old) (ht : R₂ iters.2 new) (hd : Drained old new ds) (hfuel : old.length+new.length < fuel)
    (hturns : old.length+new.length < turns) :
    ∃ u, treesAreDiffLoop oldIter newIter fuel turns iters = .ok (ds.any differs) u := by
  induction turns generalizing iters old new ds with
  | zero => exact absurd hturns (Nat.not_lt_zero _)
  | succ turns ih =>
    rw [treesAreDiffLoop]
    rcases TreeDiffIter.next_run h₁ h₂ hd hfuel hs ht with
      ⟨rfl,u,hu,-⟩ | ⟨d,ds',old',new',e,u,rfl,hd',hlt,hu,hlends⟩
    · exact ⟨u,(bind_of_ok hu).trans rfl⟩
    · obtain ⟨v,hv,hv₁,hv₂⟩ := TreeDiffIter.drop_run h₁ h₂ hlends
      obtain ⟨w,hw⟩ := ih hv₁ hv₂ hd' (hlt.trans hfuel) (by omega)
      cases hlends
      case maybeModifiedTree => exact ⟨w,(bind_of_ok hu).trans ((bind_of_ok hv).trans hw)⟩
      all_goals exact ⟨v,(bind_of_ok hu).trans ((bind_of_ok hv).trans rfl)⟩

end
/-! ### What they make of it -/

theorem foldl_on (ds : List Libbit.TreeDiffEntry) (s : WorkspaceStatus) :
    ds.foldl Libbit.TreeStatusDiffer.on s =
      ⟨s.new++(ds.flatMap entriesOf).filterMap DiffEntry.created?,
        s.modified++(ds.flatMap entriesOf).filterMap DiffEntry.modified?,
        s.deleted++(ds.flatMap entriesOf).filterMap DiffEntry.deleted?⟩ := by
  have hcreated (l : List BitIndexEntry) : (l.map DiffEntry.Created).filterMap DiffEntry.created? = l ∧
      (l.map DiffEntry.Created).filterMap DiffEntry.modified? = [] ∧
      (l.map DiffEntry.Created).filterMap DiffEntry.deleted? = [] := by
    induction l with
    | nil => exact ⟨rfl,rfl,rfl⟩
    | cons x l ih => exact ⟨congrArg (x::·) ih.1,ih.2⟩
  have hdeleted (l : List BitIndexEntry) : (l.map DiffEntry.Deleted).filterMap DiffEntry.deleted? = l ∧
      (l.map DiffEntry.Deleted).filterMap DiffEntry.modified? = [] ∧
      (l.map DiffEntry.Deleted).filterMap DiffEntry.created? = [] := by
    induction l with
    | nil => exact ⟨rfl,rfl,rfl⟩
    | cons x l ih => exact ⟨congrArg (x::·) ih.1,ih.2⟩
  induction ds generalizing s with
  | nil => simp
  | cons d ds ih =>
    rw [List.foldl_cons,ih,List.flatMap_cons,List.filterMap_append,List.filterMap_append,List.filterMap_append]
    cases d <;> simp only [Libbit.TreeStatusDiffer.on,entriesOf,List.filterMap_append,List.filterMap_cons,List.filterMap_nil,
      hcreated,hdeleted,DiffEntry.created?,DiffEntry.modified?,DiffEntry.deleted?,List.append_assoc,List.nil_append,
      List.append_nil,List.cons_append]

theorem isEmpty_entries (l : List DiffEntry) : l.isEmpty = ((l.filterMap DiffEntry.created?).isEmpty &&
    (l.filterMap DiffEntry.deleted?).isEmpty && (l.filterMap DiffEntry.modified?).isEmpty) := by
  cases l with
  | nil => rfl
  | cons x l => cases x <;> simp [DiffEntry.created?,DiffEntry.modified?,DiffEntry.deleted?]

/-- Directories that are deleted or created have files in them. -/
def Full (d : Libbit.TreeDiffEntry) : Prop := differs d = true → entriesOf d ≠ []

theorem any_differs {ds : List Libbit.TreeDiffEntry} (h : ∀ d ∈ ds, Full d) :
    ds.any differs = !(ds.foldl Libbit.TreeStatusDiffer.on .empty).isEmpty := by
  have hiff : ∀ d ∈ ds, differs d = true ↔ entriesOf d ≠ [] := by
    refine fun d hd => ⟨h d hd,fun hne => ?_⟩
    cases d with
    | MaybeModifiedTree | UnmodifiedBlob | UnmodifiedTree => exact absurd rfl hne
    | _ => rfl
  have hempty : (ds.foldl Libbit.TreeStatusDiffer.on .empty).isEmpty = (ds.flatMap entriesOf).isEmpty := by
    rw [foldl_on,isEmpty_entries]
    rfl
  rw [hempty,Bool.eq_iff_iff,List.any_eq_true,Bool.not_eq_true',List.isEmpty_eq_false_iff,ne_eq,List.flatMap_eq_nil_iff]
  push Not
  exact exists_congr fun d => and_congr_right fun hd => hiff d hd

/-! ### Directories with files in them -/

/-- Every directory has a file among the entries that come after it and start with it. -/
def Populated : List BitIndexEntry → Prop
  | [] => True
  | x::os => (x.isTree = true → ∃ y ∈ os.takeWhile (fun z => z.path.startsWith x.path), y.isTree = false) ∧ Populated os

theorem Populated.suffix {l l' : List BitIndexEntry} (h : Populated l) (hs : l' <:+ l) : Populated l' := by
  obtain ⟨passed,rfl⟩ := hs
  induction passed with
  | nil => exact h
  | cons x passed ih => exact ih h.2

theorem Populated.append {l l' : List BitIndexEntry} (h : Populated l) (h' : Populated l') : Populated (l++l') := by
  induction l with
  | nil => exact h'
  | cons x os ih =>
    refine ⟨fun hx => ?_,ih h.2⟩
    obtain ⟨y,hy,hfile⟩ := h.1 hx
    refine ⟨y,?_,hfile⟩
    have hall : ∀ z ∈ os.takeWhile (fun z => z.path.startsWith x.path), z.path.startsWith x.path = true := fun z hz =>
      List.mem_takeWhile_imp (p := fun z : BitIndexEntry => z.path.startsWith x.path) hz
    have hsplit : os++l' = os.takeWhile (fun z => z.path.startsWith x.path)++
        (os.dropWhile (fun z => z.path.startsWith x.path)++l') := by
      rw [← List.append_assoc,List.takeWhile_append_dropWhile]
    change y ∈ (os++l').takeWhile fun z => z.path.startsWith x.path
    rw [hsplit,List.takeWhile_append_of_pos hall]
    exact List.mem_append_left _ hy

theorem Populated.files {x : BitIndexEntry} {os : List BitIndexEntry} (h : Populated (x::os)) (hx : x.isTree = true) :
    files (Iter.subtree (x::os)).tail ≠ [] := by
  obtain ⟨y,hy,hfile⟩ := h.1 hx
  have hmem : y ∈ Libbit.files (Iter.subtree (x::os)).tail := List.mem_filter.mpr ⟨hy,by simp [hfile]⟩
  exact List.ne_nil_of_mem hmem

theorem populated_entries {t : Tree} (h : t.Canonical) (pre : BitPath) :
    Populated ((t.entries pre).map fun x => BitIndexEntry.ofTreeEntry (TreeEntry.ofItem x)) := by
  induction t generalizing pre with
  | nil => trivial
  | leaf n a rest ih =>
    refine ⟨fun hx => ?_,ih h.2.2 pre⟩
    cases hx
  | node n sub rest ihs ihr =>
    rw [Forest.entries,List.map_cons,List.map_append]
    refine ⟨fun _ => ?_,(ihs h.2.2.2.1 _).append (ihr h.2.2.2.2 pre)⟩
    -- the directory is not empty, and so a file is in it at some depth
    obtain ⟨x,hx⟩ : ∃ x, x ∈ Tree.flatten (pre++[n]) sub := by
      obtain ⟨y,hy⟩ : ∃ y, y ∈ Tree.siblings sub := by
        cases sub with
        | nil => exact absurd rfl h.2.2.1
        | leaf m a rest => exact ⟨_,List.mem_cons_self⟩
        | node m s rest => exact ⟨_,List.mem_cons_self⟩
      obtain ⟨x,hx,-⟩ := h.2.2.2.1.file_of_sibling hy (pre++[n])
      exact ⟨x,hx⟩
    have hin : ∀ z ∈ (sub.entries (pre++[n])).map (fun x => BitIndexEntry.ofTreeEntry (TreeEntry.ofItem x)),
        z.path.startsWith (pre++[n]) = true := by
      intro z hz
      obtain ⟨y,hy,rfl⟩ := List.mem_map.mp hz
      obtain ⟨m,-,q,hq⟩ := Forest.entries_append _ _ hy
      rw [path_ofItem,hq]
      exact BitPath.startsWith_iff.mpr (List.prefix_append _ _)
    change ∃ y ∈ List.takeWhile (fun z : BitIndexEntry => z.path.startsWith (pre++[n])) (_++_), BitIndexEntry.isTree y = false
    rw [List.takeWhile_append_of_pos hin]
    exact ⟨_,List.mem_append_left _ (List.mem_map_of_mem (Tree.mem_flatten_iff.mp hx)),rfl⟩

theorem turnOf_full {old new old' new' : List BitIndexEntry} {d : Libbit.TreeDiffEntry} (ho : Populated old)
    (hn : Populated new) (h : turnOf old new = .yield d old' new') : Full d := by
  have hmap {l : List BitIndexEntry} (hl : l ≠ []) (f : BitIndexEntry → DiffEntry) : l.map f ≠ [] := by simpa using hl
  rcases Libbit.TreeDiffIter.turn_cases (m := Id) (fun o n => decide (o.oid ≠ n.oid)) false old new with
    ⟨t,ht,hturn⟩ | ⟨o,os,n,ns,rfl,rfl,-,-,-,hturn⟩
  · obtain rfl : t = .yield d old' new' := (hturn.symm.trans h : pure t = _)
    generalize ht' : Turn.yield d old' new' = t at ht
    cases ht with
    | done => cases ht'
    | @created old n ns _ =>
      unfold Libbit.TreeDiffIter.onCreated at ht'
      split at ht'
      · cases ht'
        exact fun _ => hmap (hn.files ‹_›) _
      · cases ht'
        exact fun _ => List.cons_ne_nil _ _
    | @deleted o os new _ =>
      unfold Libbit.TreeDiffIter.onDeleted at ht'
      split at ht'
      · cases ht'
        exact fun _ => hmap (ho.files ‹_›) _
      · cases ht'
        exact fun _ => List.cons_ne_nil _ _
    | @trees o n os ns =>
      unfold Libbit.TreeDiffIter.onTrees at ht'
      split at ht'
      · cases ht'
      · cases ht'
        exact fun hd => absurd hd Bool.false_ne_true
    | treeToBlob =>
      cases ht'
      exact fun _ => List.append_ne_nil_of_right_ne_nil _ (List.cons_ne_nil _ _)
    | blobToTree =>
      cases ht'
      exact fun _ => List.cons_ne_nil _ _
  · by_cases hoid : o.oid = n.oid
    · simp only [hoid,ne_eq,not_true_eq_false,decide_false] at hturn
      cases hturn.symm.trans h
    · simp only [hoid,ne_eq,not_false_eq_true,decide_true] at hturn
      cases hturn.symm.trans h
      exact fun _ => List.cons_ne_nil _ _

theorem Drained.full {old new : List BitIndexEntry} {ds : List Libbit.TreeDiffEntry} (hd : Drained old new ds)
    (ho : Populated old) (hn : Populated new) : ∀ d ∈ ds, Full d := by
  induction hd with
  | done => exact fun d hd => by cases hd
  | @yield old new old' new' d ds h _ ih =>
    have hleaves := turnOf_leaves old new
    rw [h] at hleaves
    exact List.forall_mem_cons.mpr ⟨turnOf_full ho hn h,ih (ho.suffix hleaves.1) (hn.suffix hleaves.2.1)⟩
  | @pass old new old' new' ds h _ ih =>
    have hleaves := turnOf_leaves old new
    rw [h] at hleaves
    exact ih (ho.suffix hleaves.1) (hn.suffix hleaves.2.1)

/-- The roots of two trees are met together, so that the root of an empty tree is not listed either. -/
theorem full_of_trees {a b : Tree} (ha : a.Canonical) (hb : b.Canonical) {ds : List Libbit.TreeDiffEntry}
    (hd : Drained (treeIter (.tree a)) (treeIter (.tree b)) ds) : ∀ d ∈ ds, Full d := by
  have hla : Populated a.listing := populated_entries ha []
  have hlb : Populated b.listing := populated_entries hb []
  obtain ⟨rootA,hrootA⟩ : ∃ x, x = BitIndexEntry.ofTreeEntry ⟨.TREE,[],.tree a⟩ := ⟨_,rfl⟩
  obtain ⟨rootB,hrootB⟩ : ∃ x, x = BitIndexEntry.ofTreeEntry ⟨.TREE,[],.tree b⟩ := ⟨_,rfl⟩
  have hia : treeIter (.tree a) = rootA::a.listing := by rw [hrootA]; rfl
  have hib : treeIter (.tree b) = rootB::b.listing := by rw [hrootB]; rfl
  have hcmp : rootA.diffCmp rootB = .eq := by
    rw [Libbit.TreeDiffIter.diffCmp_eq,hrootA,hrootB]
    rfl
  have hturn : turnOf (treeIter (.tree a)) (treeIter (.tree b)) =
      if rootA.oid.isKnown ∧ rootA = rootB then .pass (Iter.stepOver (rootA::a.listing)) (Iter.stepOver (rootB::b.listing))
      else .yield (.MaybeModifiedTree rootB) a.listing b.listing := by
    rw [hia,hib]
    simp only [turnOf,Libbit.TreeDiffIter.turn,hcmp,Libbit.TreeDiffIter.onMatch]
    rw [hrootA,hrootB]
    rfl
  by_cases hk : rootA.oid.isKnown ∧ rootA = rootB
  · rw [if_pos hk] at hturn
    cases hd with
    | done h => cases hturn.symm.trans h
    | yield h _ => cases hturn.symm.trans h
    | pass h hd =>
      cases hturn.symm.trans h
      exact hd.full (hla.suffix (stepOver_suffix _ _)) (hlb.suffix (stepOver_suffix _ _))
  · rw [if_neg hk] at hturn
    cases hd with
    | done h => cases hturn.symm.trans h
    | pass h _ => cases hturn.symm.trans h
    | yield h hd =>
      cases hturn.symm.trans h
      exact List.forall_mem_cons.mpr ⟨fun hd => absurd hd Bool.false_ne_true,hd.full hla hlb⟩

/-! ### The order of the lists -/

theorem sorted_of_files {t : Tree} (ht : t.GitOrder) {l : List BitIndexEntry} (h : l.Sublist (files (treeIter (.tree t)))) :
    TreeStatusDiffer.isSorted l := by
  have hsorted : Sorted l := (treeEntryIter_sorted ht).sublist h
  refine List.Pairwise.isChain (hsorted.imp fun {x y} hlt => ?_)
  rw [Libbit.TreeDiffIter.diffCmp_lt.mpr hlt]
  decide

theorem files_sublist {ts : List (List BitIndexEntry × List BitIndexEntry)} {f : WorkspaceStatus → List BitIndexEntry}
    {g : List BitIndexEntry × List BitIndexEntry → List BitIndexEntry}
    (h : ∀ u, (f (Libbit.TreeDiffIter.report u)).Sublist (files (g u))) :
    (ts.flatMap fun u => f (Libbit.TreeDiffIter.report u)).Sublist (files (ts.map g).flatten) := by
  induction ts with
  | nil => exact List.Sublist.slnil
  | cons u ts ih =>
    rw [List.flatMap_cons,List.map_cons,List.flatten_cons,files,List.filter_append]
    exact (h u).append ih

/-- The new and the deleted files are in the order of their paths even where directories were not met together. -/
theorem diffTreeToTree_sorted {a b : Tree} (ha : a.GitOrder) (hb : b.GitOrder) :
    TreeStatusDiffer.isSorted (diffTreeToTree a b).new ∧ TreeStatusDiffer.isSorted (diffTreeToTree a b).deleted := by
  obtain ⟨ts,hrun,hts⟩ := Libbit.TreeDiffIter.Run.exists_of_diff a b
  rw [hts]
  constructor
  · refine sorted_of_files hb ?_
    rw [← hrun.new_eq]
    exact files_sublist fun u => Libbit.TreeDiffIter.new_sublist
  · refine sorted_of_files ha ?_
    rw [← hrun.old_eq]
    exact files_sublist fun u => Libbit.TreeDiffIter.deleted_sublist

/-- The entries of the difference, kind by kind, are the lists of the status, and there is one in them exactly if the
trees are said to differ. -/
theorem diff_consumers_agree (a b : Tree) (ha : a.GitOrder) (hb : b.GitOrder) (hea : a.Canonical) (heb : b.Canonical)
    (fuel : ℕ) (hfuel : (treeIter (.tree a)).length+(treeIter (.tree b)).length < fuel) :
    ∃ status ds u v,
      TreeStatusDiffer.buildDiff TreeIter.iterator TreeIter.iterator fuel (.new (.tree a),.new (.tree b)) = .ok status u ∧
      Enumerates (EntryDiffIter.next TreeIter.iterator TreeIter.iterator fuel) ⟨(.new (.tree a),.new (.tree b)),[]⟩ ds ∧
      ds.filterMap DiffEntry.created? = status.new ∧ ds.filterMap DiffEntry.modified? = status.modified ∧
      ds.filterMap DiffEntry.deleted? = status.deleted ∧
      treesAreDiff TreeIter.iterator TreeIter.iterator fuel (.new (.tree a),.new (.tree b)) = .ok (!status.isEmpty) v := by
  have hserves := TreeIter.serves fuel
  have hs : (TreeIter.new (.tree a)).Left fuel (treeIter (.tree a)) := TreeIter.left_new ha (by omega)
  have ht : (TreeIter.new (.tree b)).Left fuel (treeIter (.tree b)) := TreeIter.left_new hb (by omega)
  have hd : Drained (treeIter (.tree a)) (treeIter (.tree b)) (treeDiffIter false (treeIter (.tree a)) (treeIter (.tree b))) :=
    drained le_rfl
  obtain ⟨u,hu⟩ : ∃ u, TreeStatusDiffer.runDiff TreeIter.iterator TreeIter.iterator fuel fuel .empty
      (.new (.tree a),.new (.tree b)) = .ok (diffTreeToTree a b) u :=
    TreeStatusDiffer.runDiff_run hserves hserves hs ht hd hfuel hfuel
  obtain ⟨v,hv⟩ : ∃ v, treesAreDiffLoop TreeIter.iterator TreeIter.iterator fuel fuel (.new (.tree a),.new (.tree b)) =
      .ok ((treeDiffIter false (treeIter (.tree a)) (treeIter (.tree b))).any differs) v :=
    treesAreDiffLoop_run hserves hserves hs ht hd hfuel hfuel
  have hsorted := diffTreeToTree_sorted ha hb
  refine ⟨diffTreeToTree a b,_,u,v,?_,EntryDiffIter.yields hserves hserves hs ht hd hfuel,?_,?_,?_,?_⟩
  · rw [TreeStatusDiffer.buildDiff,bind_of_ok hu]
    exact (bind_of_ok (assertThat_run _ hsorted.1 u)).trans ((bind_of_ok (assertThat_run _ hsorted.2 u)).trans rfl)
  · rw [diffTreeToTree,diffIterators,foldl_on]
    rfl
  · rw [diffTreeToTree,diffIterators,foldl_on]
    rfl
  · rw [diffTreeToTree,diffIterators,foldl_on]
    rfl
  · rw [any_differs (full_of_trees hea heb hd)] at hv
    exact hv

/-- The directory `a` becomes a file, `c` goes and the directory `d` comes. -/
theorem diff_consumers_agree_replaced :
    ∃ status ds u v,
      TreeStatusDiffer.buildDiff TreeIter.iterator TreeIter.iterator 9
        (.new (.tree (.node [97] (.leaf [98] (.REG,[1]) .nil) (.leaf [99] (.REG,[2]) .nil))),
          .new (.tree (.leaf [97] (.REG,[3]) (.node [100] (.leaf [101] (.REG,[4]) .nil) .nil)))) = .ok status u ∧
      Enumerates (EntryDiffIter.next TreeIter.iterator TreeIter.iterator 9)
        ⟨(.new (.tree (.node [97] (.leaf [98] (.REG,[1]) .nil) (.leaf [99] (.REG,[2]) .nil))),
          .new (.tree (.leaf [97] (.REG,[3]) (.node [100] (.leaf [101] (.REG,[4]) .nil) .nil)))),[]⟩ ds ∧
      ds.filterMap DiffEntry.created? = status.new ∧ ds.filterMap DiffEntry.modified? = status.modified ∧
      ds.filterMap DiffEntry.deleted? = status.deleted ∧
      treesAreDiff TreeIter.iterator TreeIter.iterator 9
        (.new (.tree (.node [97] (.leaf [98] (.REG,[1]) .nil) (.leaf [99] (.REG,[2]) .nil))),
          .new (.tree (.leaf [97] (.REG,[3]) (.node [100] (.leaf [101] (.REG,[4]) .nil) .nil)))) = .ok (!status.isEmpty) v :=
  diff_consumers_agree _ _ (by decide) (by decide) (by decide) (by decide) 9 (by decide)

end Iterators
end Libbit
