import Libbit.WalkEntries

/-! The entries of a difference in their order (`diff/tree_diff.rs`): what a turn does to the two iterators, and that above an
entry of the old side the difference goes on below every directory. -/
namespace Libbit

open Lib TreeDiffIter
open Iterators (Sorted)

namespace TreeDiffEntry

/-- The entry of the baseline that may have to go. -/
def removes : TreeDiffEntry → Option BitIndexEntry
  | DeletedBlob old => some old
  | ModifiedBlob old _ => some old
  | DeletedTree old _ => some old
  | BlobToTree old _ _ => some old
  | TreeToBlob old _ _ => some old
  | _ => none

/-- The difference goes on below the directory. -/
def Enters : TreeDiffEntry → Prop
  | MaybeModifiedTree _ => True
  | _ => False

/-- What the entry says of the baseline is so. -/
def Fits (old : List BitIndexEntry) : TreeDiffEntry → Prop
  | DeletedBlob o => o ∈ old ∧ o.isTree = false
  | ModifiedBlob o n => o ∈ old ∧ o.isTree = false ∧ n.isTree = false ∧ o.path.asBytes = n.path.asBytes
  | DeletedTree o sub => o ∈ old ∧ o.isTree = true ∧ sub ⊆ old
  | BlobToTree o n _ => o ∈ old ∧ o.isTree = false ∧ o.path.asBytes = n.path.asBytes
  | TreeToBlob o sub n => o ∈ old ∧ o.isTree = true ∧ sub ⊆ old ∧ o.path.asBytes = n.path.asBytes
  | _ => True

variable {d : TreeDiffEntry} {old old' : List BitIndexEntry} {o : BitIndexEntry}

theorem Fits.mono (h : d.Fits old) (hsub : old ⊆ old') : d.Fits old' := by
  cases d with
  | DeletedBlob o => exact ⟨hsub h.1,h.2⟩
  | ModifiedBlob o n => exact ⟨hsub h.1,h.2⟩
  | DeletedTree o sub => exact ⟨hsub h.1,h.2.1,List.Subset.trans h.2.2 hsub⟩
  | BlobToTree o n sub => exact ⟨hsub h.1,h.2⟩
  | TreeToBlob o sub n => exact ⟨hsub h.1,h.2.1,List.Subset.trans h.2.2.1 hsub,h.2.2.2⟩
  | _ => trivial

theorem Fits.removes (h : d.Fits old) (ho : d.removes = some o) : o ∈ old ∧ o.path.asBytes = d.path.asBytes := by
  cases d with
  | DeletedBlob x => exact Option.some.inj ho ▸ ⟨h.1,rfl⟩
  | ModifiedBlob x n => exact Option.some.inj ho ▸ ⟨h.1,h.2.2.2⟩
  | DeletedTree x sub => exact Option.some.inj ho ▸ ⟨h.1,rfl⟩
  | BlobToTree x n sub => exact Option.some.inj ho ▸ ⟨h.1,h.2.2⟩
  | TreeToBlob x sub n => exact Option.some.inj ho ▸ ⟨h.1,h.2.2.2⟩
  | _ => cases ho

end TreeDiffEntry

section Difference
variable {d : TreeDiffEntry} {old old' new new' l l' : List BitIndexEntry} {fuel : ℕ}

/-- What a turn does to one of its iterators: it leaves it, or takes its first entry, with all that lies below it unless the
difference goes on there. -/
def Passed (d : TreeDiffEntry) (l l' : List BitIndexEntry) : Prop :=
  (l' = l ∧ ∀ x ∈ l.head?, d.path.asBytes < x.path.asBytes) ∨
    ∃ x xs, l = x::xs ∧ x.path.asBytes = d.path.asBytes ∧ (l' = Iter.stepOver (x::xs) ∨ l' = xs ∧ d.Enters)

theorem Passed.suffix (h : Passed d l l') : l' <:+ l := by
  rcases h with ⟨rfl,-⟩ | ⟨x,xs,rfl,-,rfl | ⟨rfl,-⟩⟩
  · exact List.suffix_refl _
  · exact (stepOver_suffix x xs).trans (List.suffix_cons x xs)
  · exact List.suffix_cons x _

theorem Passed.lt (h : Passed d l l') (hs : Sorted l) {x : BitIndexEntry} (hx : x ∈ l') : d.path.asBytes < x.path.asBytes := by
  rcases h with ⟨rfl,hhead⟩ | ⟨y,ys,rfl,hpath,hrest⟩
  · cases l' with
    | nil => cases hx
    | cons y ys =>
      have hy : d.path.asBytes < y.path.asBytes := hhead y rfl
      rcases List.mem_cons.mp hx with rfl | hx
      · exact hy
      · exact hy.trans ((List.pairwise_cons.mp hs).1 x hx)
  · have hmem : x ∈ ys := by
      rcases hrest with rfl | ⟨rfl,-⟩
      · exact (stepOver_suffix y ys).subset hx
      · exact hx
    exact hpath ▸ (List.pairwise_cons.mp hs).1 x hmem

theorem passed_over {x : BitIndexEntry} {xs : List BitIndexEntry} (hpath : x.path.asBytes = d.path.asBytes) :
    Passed d (x::xs) (Iter.stepOver (x::xs)) := .inr ⟨x,xs,rfl,hpath,.inl rfl⟩

theorem passed_blob {x : BitIndexEntry} {xs : List BitIndexEntry} (hx : x.isTree = false)
    (hpath : x.path.asBytes = d.path.asBytes) : Passed d (x::xs) xs :=
  .inr ⟨x,xs,rfl,hpath,.inl (by simp [Iter.stepOver,hx])⟩

theorem subtree_tail_subset (o : BitIndexEntry) (os : List BitIndexEntry) : (Iter.subtree (o::os)).tail ⊆ o::os := fun _ hx =>
  List.mem_cons_of_mem _ (mem_of_block hx)

/-- One entry of the difference. -/
theorem drain_turn (fuel : ℕ) (old new : List BitIndexEntry) : drain true (fuel+1) old new = [] ∨
    ∃ d old' new', drain true (fuel+1) old new = d::drain true fuel old' new' ∧ Passed d old old' ∧ Passed d new new' ∧
      (d.indexEntry ∈ old ∨ d.indexEntry ∈ new) ∧ d.Fits old := by
  rcases drain_cases true fuel old new with ⟨t,ht,hdrain⟩ | ⟨o,os,n,ns,rfl,rfl,hpath,ho,hn,hdrain⟩
  · rw [hdrain]
    cases ht with
    | done => exact .inl rfl
    | @created old n ns hlt =>
      unfold onCreated
      by_cases hn : n.isTree = true
      · rw [if_pos hn]
        exact .inr ⟨_,_,_,rfl,.inl ⟨rfl,hlt⟩,passed_over rfl,.inr List.mem_cons_self,trivial⟩
      · rw [if_neg hn]
        exact .inr ⟨_,_,_,rfl,.inl ⟨rfl,hlt⟩,passed_blob (by simpa using hn) rfl,.inr List.mem_cons_self,trivial⟩
    | @deleted o os new hlt =>
      unfold onDeleted
      by_cases ho : o.isTree = true
      · rw [if_pos ho]
        exact .inr ⟨_,_,_,rfl,passed_over rfl,.inl ⟨rfl,hlt⟩,.inl List.mem_cons_self,List.mem_cons_self,ho,
          subtree_tail_subset o os⟩
      · rw [if_neg ho]
        exact .inr ⟨_,_,_,rfl,passed_blob (by simpa using ho) rfl,.inl ⟨rfl,hlt⟩,.inl List.mem_cons_self,List.mem_cons_self,
          by simpa using ho⟩
    | @trees o n os ns hpath ho hn =>
      unfold onTrees
      by_cases hk : o.oid.isKnown ∧ o = n
      · rw [if_pos hk]
        exact .inr ⟨_,_,_,rfl,passed_over hpath,passed_over rfl,.inr List.mem_cons_self,trivial⟩
      · rw [if_neg hk]
        exact .inr ⟨_,_,_,rfl,.inr ⟨o,os,rfl,hpath,.inr ⟨rfl,trivial⟩⟩,.inr ⟨n,ns,rfl,rfl,.inr ⟨rfl,trivial⟩⟩,
          .inr List.mem_cons_self,trivial⟩
    | @treeToBlob o n os ns hpath ho hn =>
      exact .inr ⟨_,_,_,rfl,passed_over hpath,passed_blob hn rfl,.inr List.mem_cons_self,List.mem_cons_self,ho,
        subtree_tail_subset o os,hpath⟩
    | @blobToTree o n os ns hpath ho hn =>
      exact .inr ⟨_,_,_,rfl,passed_blob ho hpath,passed_over rfl,.inr List.mem_cons_self,List.mem_cons_self,ho,hpath⟩
  · rw [hdrain]
    unfold onBlobs
    by_cases hoid : decide (o.oid ≠ n.oid) = true
    · rw [if_pos hoid]
      exact .inr ⟨_,_,_,rfl,passed_blob ho hpath,passed_blob hn rfl,.inr List.mem_cons_self,List.mem_cons_self,ho,hn,hpath⟩
    · rw [if_neg hoid]
      exact .inr ⟨_,_,_,rfl,passed_blob ho hpath,passed_blob hn rfl,.inr List.mem_cons_self,trivial⟩

theorem mem_drain {d : TreeDiffEntry} (h : d ∈ drain true fuel old new) :
    (d.indexEntry ∈ old ∨ d.indexEntry ∈ new) ∧ d.Fits old := by
  induction fuel generalizing old new with
  | zero => cases h
  | succ fuel ih =>
    rcases drain_turn fuel old new with hdrain | ⟨d',old',new',hdrain,hold,hnew,hmem,hfits⟩
    · rw [hdrain] at h
      cases h
    · rw [hdrain] at h
      rcases List.mem_cons.mp h with rfl | h
      · exact ⟨hmem,hfits⟩
      · exact ⟨(ih h).1.imp (fun hx => hold.suffix.subset hx) fun hx => hnew.suffix.subset hx,(ih h).2.mono hold.suffix.subset⟩

theorem drain_sorted (hold : Sorted old) (hnew : Sorted new) :
    (drain true fuel old new).Pairwise fun d d' => d.path.asBytes < d'.path.asBytes := by
  induction fuel generalizing old new with
  | zero => exact .nil
  | succ fuel ih =>
    rcases drain_turn fuel old new with hdrain | ⟨d,old',new',hdrain,ho,hn,-,-⟩
    · rw [hdrain]
      exact .nil
    · rw [hdrain]
      refine .cons (fun d' hd' => ?_) (ih (hold.sublist ho.suffix.sublist) (hnew.sublist hn.suffix.sublist))
      rcases (mem_drain hd').1 with hmem | hmem
      · exact ho.lt hold hmem
      · exact hn.lt hnew hmem

/-- Above an entry that may have to go each directory of the baseline has an entry of its own, and the difference goes on
below it. -/
theorem drain_enters (hs : Sorted old) (hp : Preorder old) {o x : BitIndexEntry} (hd : d ∈ drain true fuel old new)
    (ho : d.removes = some o) (hx : x ∈ old) (hxo : x.path <+: o.path) (hne : x.path ≠ o.path) :
    ∃ d' ∈ drain true fuel old new, d'.path.asBytes = x.path.asBytes ∧ d'.Enters := by
  induction fuel generalizing old new with
  | zero => cases hd
  | succ fuel ih =>
    rcases drain_turn fuel old new with hdrain | ⟨d',old',new',hdrain,hold,hnew,-,hfits⟩
    · rw [hdrain] at hd
      cases hd
    · rw [hdrain] at hd ⊢
      rcases List.mem_cons.mp hd with rfl | hd
      · -- nothing above the first entry is left
        obtain ⟨hmem,hpath⟩ := hfits.removes ho
        rcases hold with ⟨-,hhead⟩ | ⟨y,ys,rfl,hy,-⟩
        · cases old with
          | nil => cases hmem
          | cons y ys =>
            have hlt : d.path.asBytes < y.path.asBytes := hhead y rfl
            rcases List.mem_cons.mp hmem with rfl | hmem
            · exact absurd hpath hlt.ne'
            · exact absurd hpath (hlt.trans ((List.pairwise_cons.mp hs).1 o hmem)).ne'
        · obtain rfl : o = y := (List.mem_cons.mp hmem).resolve_right fun hmem =>
            absurd (hpath.trans hy.symm) ((List.pairwise_cons.mp hs).1 o hmem).ne'
          rcases List.mem_cons.mp hx with rfl | hx
          · exact absurd rfl hne
          · exact absurd hxo (hp.1 x hx)
      · have hmem : o ∈ old' := ((mem_drain hd).2.removes ho).1
        by_cases hx' : x ∈ old'
        · obtain ⟨d'',hd'',hrest⟩ := ih (hs.sublist hold.suffix.sublist) (hp.suffix hold.suffix) hd hx'
          exact ⟨d'',List.mem_cons_of_mem _ hd'',hrest⟩
        · rcases hold with ⟨rfl,-⟩ | ⟨y,ys,rfl,hy,rfl | ⟨rfl,henters⟩⟩
          · exact absurd hx hx'
          · have hyx : y.path <+: x.path := by
              by_contra hbelow
              exact hx' (mem_stepOver_of_not_below hx hbelow)
            exact absurd (hyx.trans hxo) (hp.2.1 o hmem)
          · obtain rfl := (List.mem_cons.mp hx).resolve_right hx'
            exact ⟨d',List.mem_cons_self,hy.symm,henters⟩

end Difference

end Libbit
