import Libbit.IndexIterator

/-! The index iterates like the tree that it would write: the directories that it makes up come where the tree has
them, once each. -/
namespace Libbit

open Lib

namespace BitIndexInner
variable {idx : BitIndexInner} {d : BitPath} {es : List BitIndexEntry}

/-- The directories that are made up are those of the entries, if they were not seen before. -/
theorem dir_mem_indexTreeIterFrom (seen : List BitPath) (hfile : ∀ e ∈ es, e.isTree = false) :
    (∃ x ∈ idx.indexTreeIterFrom seen es, x.isTree ∧ x.path = d) ↔
      d ∉ seen ∧ ∃ e ∈ es, d ∈ e.path.parent.cumulativeComponents := by
  induction es generalizing seen with
  | nil => simp [indexTreeIterFrom]
  | cons e rest ih =>
    have he := hfile e List.mem_cons_self
    have hrest (seen : List BitPath) := ih seen fun x hx => hfile x (List.mem_cons_of_mem _ hx)
    have hsplit : (∃ x ∈ idx.indexTreeIterFrom seen (e::rest), x.isTree ∧ x.path = d) ↔
        d ∈ e.path.parent.cumulativeComponents.filter (fun p => p ∉ seen) ∨
          ∃ x ∈ idx.indexTreeIterFrom (seen++e.path.parent.cumulativeComponents.filter fun p => p ∉ seen) rest,
            x.isTree ∧ x.path = d := by
      rw [indexTreeIterFrom]
      constructor
      · rintro ⟨x,hx,ht,hd⟩
        rcases List.mem_append.mp hx with hx | hx
        · obtain ⟨p,hp,rfl⟩ := List.mem_map.mp hx
          exact .inl (hd ▸ hp)
        · rcases List.mem_cons.mp hx with rfl | hx
          · rw [he] at ht
            cases ht
          · exact .inr ⟨x,hx,ht,hd⟩
      · rintro (hd | ⟨x,hx,ht⟩)
        · exact ⟨idx.createPseudotree d,List.mem_append_left _ (List.mem_map_of_mem hd),rfl,rfl⟩
        · exact ⟨x,List.mem_append_right _ (List.mem_cons_of_mem _ hx),ht⟩
    rw [hsplit,hrest,List.mem_append,List.mem_filter,decide_eq_true_eq]
    simp only [List.mem_cons,exists_eq_or_imp]
    tauto

/-- Every directory that holds an entry is listed, and the root. -/
theorem dir_mem_indexTreeIter (hfile : ∀ e ∈ idx.entries, e.isTree = false) (hne : ∀ e ∈ idx.entries, e.path ≠ []) :
    (∃ x ∈ idx.indexTreeIter, x.isTree ∧ x.path = d) ↔ d = [] ∨ ∃ e ∈ idx.entries, e.path.below d := by
  by_cases hd : d = []
  · subst hd
    exact iff_of_true ⟨_,List.mem_cons_self,rfl,rfl⟩ (.inl rfl)
  · have hcomponent : ∀ e ∈ idx.entries, d ∈ e.path.parent.cumulativeComponents ↔ e.path.below d := by
      intro e he
      rw [BitPath.below_iff_parent (hne e he)]
      by_cases hp : e.path.parent = []
      · simp [hp,BitPath.cumulativeComponents,hd,List.prefix_nil]
      · rw [BitPath.mem_cumulativeComponents hp,and_iff_right hd]
    have hroot : (∃ x ∈ idx.indexTreeIter, x.isTree ∧ x.path = d) ↔
        ∃ x ∈ idx.indexTreeIterFrom [[]] idx.entries, x.isTree ∧ x.path = d := by
      rw [indexTreeIter,List.exists_mem_cons_iff,or_iff_right]
      exact fun h => hd h.2.symm
    rw [hroot,dir_mem_indexTreeIterFrom _ hfile,List.mem_singleton,and_iff_right hd,or_iff_right hd]
    exact exists_congr fun e => and_congr_right fun he => hcomponent e he

theorem Describes.paths_modes {t : Tree} (hd : idx.Describes t) (ht : t.Canonical) (hdistinct : t.Distinct) :
    idx.indexTreeIter.map (fun e => (e.path,e.mode)) = (treeIter (.tree t)).map fun e => (e.path,e.mode) := by
  rw [← List.forall₂_eq_eq_eq,List.forall₂_map_left_iff,List.forall₂_map_right_iff]
  refine (hd.mirror ht hdistinct).flip.imp fun e x hx => ?_
  rw [hx.1,hx.2.1]

/-- A directory with a known hash has that of its tree. -/
theorem Describes.oid_of_dir {t : Tree} (hd : idx.Describes t) (ht : t.Canonical) (hdistinct : t.Distinct)
    (hcache : idx.CacheCoherent) {e : BitIndexEntry} (he : e ∈ idx.indexTreeIter) (hfile : e ∉ idx.entries)
    (hk : e.oid.isKnown) : ∃ s, t.sub? e.path = some s ∧ e.oid = .tree s := by
  obtain ⟨d,rfl⟩ := (mem_indexTreeIter he).resolve_left hfile
  -- the tree has a directory there
  have hmem : (d,FileMode.TREE) ∈ (treeIter (.tree t)).map fun e => (e.path,e.mode) := by
    rw [← hd.paths_modes ht hdistinct]
    exact List.mem_map_of_mem (f := fun e : BitIndexEntry => (e.path,e.mode)) he
  have hdir : ∃ s, t.IsDir d s ∧ t.sub? d = some s := by
    obtain ⟨x,hx,hxd⟩ := List.mem_map.mp hmem
    rcases List.mem_cons.mp hx with rfl | hx
    · obtain rfl : [] = d := congrArg Prod.fst hxd
      exact ⟨t,.inl ⟨rfl,rfl⟩,by cases t <;> rfl⟩
    · obtain ⟨⟨p,y⟩,hy,rfl⟩ := List.mem_map.mp hx
      cases y with
      | inl a => cases hxd
      | inr s =>
        obtain rfl : p = d := congrArg Prod.fst hxd
        have hsub : ([]++p,Sum.inr s) ∈ t.entries [] ↔ p ≠ [] ∧ t.sub? p = some s := Forest.mem_entries_node hdistinct
        exact ⟨s,.inr hy,(hsub.mp hy).2⟩
  obtain ⟨s,hs,hsub⟩ := hdir
  refine ⟨s,hsub,?_⟩
  cases hc : idx.treeCache.bind fun c => c.findValidChild d with
  | none =>
    simp [createPseudotree,hc,BitIndexEntry.ofTreeEntry,Oid.isKnown] at hk
  | some c =>
    simp only [createPseudotree,hc,Option.map_some,Option.getD_some,BitIndexEntry.ofTreeEntry]
    exact (hcache.of_isDir ht hd hs hc).1

end BitIndexInner

namespace Iterators

end Iterators
end Libbit
