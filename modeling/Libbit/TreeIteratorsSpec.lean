import Libbit.TreeIterators
import Libbit.WriteTree
import Libbit.Listing
import Libbit.WorktreeOrder
import Libbit.IndexRun

/-! What stepping over does in each of the tree iterators: it returns what `next` would return, and leaves what
would be left by `next` without the entries below the one returned. -/
namespace Libbit

open Lib

/-! ### Lists in preorder -/

/-- Some of the entries in their order. -/
theorem Preorder.sublist {l l' : List BitIndexEntry} (h : Preorder l) (hs : l'.Sublist l) : Preorder l' := by
  induction hs with
  | slnil => exact h
  | cons x _ ih => exact ih h.2.2
  | @cons_cons l' l x hs ih =>
    refine ⟨fun y hy => h.1 y (hs.subset hy),?_,ih h.2.2⟩
    intro y hy
    by_cases hx : x.isTree = true
    · -- the entries that start with the directory come before those that do not
      simp only [Iter.stepOver,hx,if_true] at hy
      rw [← List.takeWhile_append_dropWhile (p := fun z : BitIndexEntry => z.path.startsWith x.path) (l := l)] at hs
      obtain ⟨a,b,rfl,ha,hb⟩ := List.sublist_append_iff.mp hs
      have hall : ∀ z ∈ a, z.path.startsWith x.path = true := fun z hz =>
        List.mem_takeWhile_imp (p := fun z : BitIndexEntry => z.path.startsWith x.path) (ha.subset hz)
      rw [List.dropWhile_append_of_pos hall] at hy
      apply h.2.1 y
      simpa only [Iter.stepOver,hx,if_true] using hb.subset ((List.dropWhile_sublist _).subset hy)
    · simp only [Iter.stepOver,hx,Bool.false_eq_true,if_false] at hy
      apply h.2.1 y
      simpa only [Iter.stepOver,hx,Bool.false_eq_true,if_false] using hs.subset hy

namespace Iterators

theorem assertThat_run {σ : Type} (condition : String) {c : Prop} [Decidable c] (hc : c) (s : σ) :
    assertThat condition c s = .ok () s := by
  rw [assertThat,if_pos hc]
  rfl

/-- Strictly below, for entries. -/
def belowEntry (x a : BitIndexEntry) : Bool := x.path.below a.path

theorem belowEntry_iff {x a : BitIndexEntry} : belowEntry x a = true ↔ a.path <+: x.path ∧ x.path ≠ a.path :=
  BitPath.below_iff

theorem without_eq_stepOver {l : List BitIndexEntry} (h : Preorder l) :
    Stepper.without belowEntry l = Iter.stepOver l := by
  cases l with
  | nil => rfl
  | cons x os =>
    have hout : ∀ y ∈ Iter.stepOver (x::os), (!belowEntry y x) = true := by
      intro y hy
      rw [Bool.not_eq_true',Bool.eq_false_iff,ne_eq,belowEntry_iff]
      exact fun hb => h.2.1 y hy hb.1
    rw [Stepper.without]
    by_cases hx : x.isTree = true
    · have hin : ∀ y ∈ os.takeWhile (fun z => z.path.startsWith x.path), ¬(!belowEntry y x) = true := by
        intro y hy
        rw [Bool.not_eq_true',Bool.not_eq_false,belowEntry_iff]
        have hp := List.mem_takeWhile_imp (p := fun z : BitIndexEntry => z.path.startsWith x.path) hy
        refine ⟨BitPath.startsWith_iff.mp hp,fun he => ?_⟩
        exact h.1 y ((List.takeWhile_sublist _).subset hy) (he ▸ List.prefix_rfl)
      simp only [Iter.stepOver,hx,if_true] at hout ⊢
      conv_lhs => rw [← List.takeWhile_append_dropWhile (p := fun z : BitIndexEntry => z.path.startsWith x.path) (l := os)]
      rw [List.filter_append,List.filter_eq_nil_iff.mpr hin,List.nil_append,List.filter_eq_self.mpr hout]
    · simp only [Iter.stepOver,hx,Bool.false_eq_true,if_false] at hout ⊢
      exact List.filter_eq_self.mpr hout

/-! ### Trees -/

/-- The entry and, of a directory, all that is in it. -/
def listingOf (e : TreeEntry) : List BitIndexEntry :=
  .ofTreeEntry e::(if e.mode = .TREE then (e.oid.treeish.entries e.path).map fun x => .ofTreeEntry (.ofItem x) else [])

/-- The entries of a tree object with the path of the tree before their names. -/
def childEntries (pre : BitPath) (t : Tree) : List TreeEntry := (objEntries t).map fun x => {x with path := pre++x.path}

theorem listing_childEntries (pre : BitPath) (t : Tree) :
    (childEntries pre t).flatMap listingOf = (t.entries pre).map fun x => .ofTreeEntry (.ofItem x) := by
  induction t with
  | nil => rfl
  | leaf n a rest ih =>
    rw [Forest.entries,List.map_cons,← ih]
    rfl
  | node n sub rest _ ih =>
    rw [Forest.entries,List.map_cons,List.map_append,← ih]
    rfl

theorem path_of_listing {e : TreeEntry} {y : BitIndexEntry} (h : y ∈ listingOf e) : e.path <+: y.path := by
  rcases List.mem_cons.mp h with rfl | h
  · exact List.prefix_rfl
  · split at h
    · obtain ⟨x,hx,rfl⟩ := List.mem_map.mp h
      obtain ⟨n,-,q,hq⟩ := Forest.entries_append _ _ hx
      rw [path_ofItem,hq]
      exact List.prefix_append _ _
    · cases h

/-- Neither lies at or below the other. -/
def Apart (x y : TreeEntry) : Prop := ¬x.path <+: y.path ∧ ¬y.path <+: x.path

/-- The entry of a file with a hash, or of a tree whose names are distinct at every level. -/
def Sound (e : TreeEntry) : Prop :=
  match e.mode with
  | .TREE => ∃ t, e.oid = .tree t ∧ t.Distinct
  | .blob _ => e.oid.isKnown

theorem Apart.not_below {x y : TreeEntry} (h : Apart x y) {z : BitIndexEntry} (hz : z ∈ listingOf y) :
    ¬x.path <+: z.path := by
  intro hx
  exact (List.prefix_or_prefix_of_prefix hx (path_of_listing hz)).elim h.1 h.2

theorem path_of_objEntries {t : Tree} {x : TreeEntry} (h : x ∈ objEntries t) : ∃ n ∈ t.names, x.path = [n] := by
  induction t with
  | nil => cases h
  | leaf n a rest ih =>
    rcases List.mem_cons.mp h with rfl | h
    · exact ⟨n,List.mem_cons_self,rfl⟩
    · exact (ih h).imp fun m hm => ⟨List.mem_cons_of_mem _ hm.1,hm.2⟩
  | node n sub rest _ ih =>
    rcases List.mem_cons.mp h with rfl | h
    · exact ⟨n,List.mem_cons_self,rfl⟩
    · exact (ih h).imp fun m hm => ⟨List.mem_cons_of_mem _ hm.1,hm.2⟩

theorem apart_append {pre : BitPath} {x y : TreeEntry} {m n : Name} (hx : x.path = [m]) (hy : y.path = [n]) (h : m ≠ n) :
    Apart {x with path := pre++x.path} {y with path := pre++y.path} := by
  simp only [Apart,hx,hy]
  exact ⟨by simp [List.cons_prefix_cons,h],by simp [List.cons_prefix_cons,h.symm]⟩

theorem childEntries_apart {t : Tree} (h : t.Distinct) (pre : BitPath) : (childEntries pre t).Pairwise Apart := by
  have hcons {n : Name} {rest : Tree} (hn : n ∉ rest.names) {x : TreeEntry} (hx : x.path = [n]) :
      ∀ y ∈ childEntries pre rest, Apart {x with path := pre++x.path} y := by
    intro y hy
    obtain ⟨z,hz,rfl⟩ := List.mem_map.mp hy
    obtain ⟨m,hm,hzm⟩ := path_of_objEntries hz
    exact apart_append hx hzm fun he => hn (he ▸ hm)
  induction t with
  | nil => exact List.Pairwise.nil
  | leaf n a rest ih => exact List.pairwise_cons.mpr ⟨hcons h.1 rfl,ih h.2⟩
  | node n sub rest _ ih => exact List.pairwise_cons.mpr ⟨hcons h.1 rfl,ih h.2.2⟩

theorem childEntries_sound {t : Tree} (h : t.Distinct) (pre : BitPath) : ∀ e ∈ childEntries pre t, Sound e := by
  induction t with
  | nil => simp [childEntries,objEntries]
  | leaf n a rest ih =>
    intro e he
    rcases List.mem_cons.mp he with rfl | he
    · simp [Sound,Oid.isKnown]
    · exact ih h.2 e he
  | node n sub rest _ ih =>
    intro e he
    rcases List.mem_cons.mp he with rfl | he
    · exact ⟨sub,rfl,h.2.1⟩
    · exact ih h.2.2 e he

theorem Apart.symm {x y : TreeEntry} (h : Apart x y) : Apart y x := ⟨h.2,h.1⟩

/-- What is apart from a directory is apart from all that is in it. -/
theorem Apart.child {x e y : TreeEntry} (h : Apart x e) (hy : e.path <+: y.path) : Apart x y :=
  ⟨fun hx => (List.prefix_or_prefix_of_prefix hx hy).elim h.1 h.2,fun hx => h.2 (hy.trans hx)⟩

theorem path_of_childEntries {t : Tree} {pre : BitPath} {y : TreeEntry} (h : y ∈ childEntries pre t) : pre <+: y.path := by
  obtain ⟨x,-,rfl⟩ := List.mem_map.mp h
  exact List.prefix_append _ _

theorem listingOf_tree {e : TreeEntry} {t : Tree} (hm : e.mode = .TREE) (ho : e.oid = .tree t) :
    listingOf e = .ofTreeEntry e::(childEntries e.path t).flatMap listingOf := by
  rw [listingOf,if_pos hm,ho,listing_childEntries]
  rfl

theorem listingOf_file {e : TreeEntry} {m : BlobMode} (hm : e.mode = .blob m) : listingOf e = [.ofTreeEntry e] := by
  simp [listingOf,hm]

/-- All that is in a directory is below it. -/
theorem below_of_children {e : TreeEntry} {t : Tree} {y : BitIndexEntry}
    (h : y ∈ (childEntries e.path t).flatMap listingOf) : belowEntry y (.ofTreeEntry e) = true := by
  rw [listing_childEntries] at h
  obtain ⟨x,hx,rfl⟩ := List.mem_map.mp h
  obtain ⟨n,-,q,hq⟩ := Forest.entries_append _ _ hx
  rw [belowEntry_iff,path_ofItem,hq]
  exact ⟨List.prefix_append _ _,by simp [BitIndexEntry.ofTreeEntry]⟩

namespace TreeIter
variable {st : List TreeEntry} {e : TreeEntry} {n : ℕ} {iter : TreeIter} {l : List BitIndexEntry}

theorem next_file {m : BlobMode} (hm : e.mode = .blob m) (ho : e.oid.isKnown) :
    next ⟨st++[e],n⟩ = .ok (some (.ofTreeEntry e)) ⟨st,n⟩ := by
  simp only [next,run_getBind,List.getLast?_concat,List.dropLast_concat,hm,ho,assertThat,if_true]
  rfl

theorem next_tree {t : Tree} (hm : e.mode = .TREE) (ho : e.oid = .tree t) :
    next ⟨st++[e],n⟩ = .ok (some (.ofTreeEntry e)) ⟨st++(childEntries e.path t).reverse,st.length⟩ := by
  simp only [next,run_getBind,List.getLast?_concat,List.dropLast_concat,hm,ho,treeish,reduceCtorEq,if_false,
    childEntries,List.map_reverse]
  rfl

/-- What the stack stands for: its entries from the top down, each with all that is in it. -/
structure Holds (iter : TreeIter) (l : List BitIndexEntry) : Prop where
  list : l = iter.entryStack.reverse.flatMap listingOf
  sound : ∀ e ∈ iter.entryStack, Sound e
  apart : iter.entryStack.Pairwise Apart

/-- A stack is empty, or has a file or a tree on top. -/
theorem Holds.cases (h : Holds iter l) : (iter.entryStack = [] ∧ l = []) ∨
    (∃ st e, iter.entryStack = st++[e] ∧ l = listingOf e++st.reverse.flatMap listingOf ∧ (∀ x ∈ st, Apart x e) ∧
      (∀ m, Holds ⟨st,m⟩ (st.reverse.flatMap listingOf)) ∧ Sound e) := by
  rcases List.eq_nil_or_concat iter.entryStack with hnil | ⟨st,e,hst⟩
  · exact .inl ⟨hnil,by rw [h.list,hnil]; rfl⟩
  · rw [List.concat_eq_append] at hst
    have hp := h.apart
    rw [hst,List.pairwise_append] at hp
    refine .inr ⟨st,e,hst,?_,fun x hx => hp.2.2 x hx e (List.mem_singleton_self e),fun m => ⟨rfl,?_,hp.1⟩,?_⟩
    · rw [h.list,hst,List.reverse_concat,List.flatMap_cons]
    · exact fun x hx => h.sound x (by rw [hst]; exact List.mem_append_left _ hx)
    · exact h.sound e (by rw [hst]; exact List.mem_append_right _ (List.mem_singleton_self e))

/-- What is left on the stack is not below the entry on top. -/
theorem not_below_stack (h : ∀ x ∈ st, Apart x e) {y : BitIndexEntry} (hy : y ∈ st.reverse.flatMap listingOf) :
    (!belowEntry y (.ofTreeEntry e)) = true := by
  obtain ⟨x,hx,hy⟩ := List.mem_flatMap.mp hy
  rw [Bool.not_eq_true',Bool.eq_false_iff,ne_eq,belowEntry_iff]
  exact fun hb => (h x (List.mem_reverse.mp hx)).symm.not_below hy hb.1

theorem Holds.push {t : Tree} (hst : Holds ⟨st,n⟩ (st.reverse.flatMap listingOf)) (ha : ∀ x ∈ st, Apart x e)
    (ht : t.Distinct) : Holds ⟨st++(childEntries e.path t).reverse,st.length⟩
      ((childEntries e.path t).flatMap listingOf++st.reverse.flatMap listingOf) := by
  refine ⟨?_,?_,?_⟩
  · rw [List.reverse_append,List.reverse_reverse,List.flatMap_append]
  · intro x hx
    rcases List.mem_append.mp hx with hx | hx
    · exact hst.sound x hx
    · exact childEntries_sound ht _ x (List.mem_reverse.mp hx)
  · refine List.pairwise_append.mpr ⟨hst.apart,?_,?_⟩
    · exact List.pairwise_reverse.mpr ((childEntries_apart ht _).imp Apart.symm)
    · intro x hx y hy
      exact (ha x hx).child (path_of_childEntries (List.mem_reverse.mp hy))

theorem Holds.next (h : Holds iter l) : ∃ t, next iter = .ok l.head? t ∧ Holds t l.tail := by
  obtain ⟨stack,n⟩ := iter
  obtain ⟨hst,rfl⟩ | ⟨st,e,hst,rfl,ha,hrest,hs⟩ := h.cases
  · obtain rfl : stack = [] := hst
    exact ⟨⟨[],n⟩,rfl,h⟩
  · obtain rfl : stack = st++[e] := hst
    cases hm : e.mode with
    | blob m =>
      simp only [Sound,hm] at hs
      rw [listingOf_file hm]
      exact ⟨_,next_file hm hs,hrest n⟩
    | TREE =>
      simp only [Sound,hm] at hs
      obtain ⟨t,ho,ht⟩ := hs
      rw [listingOf_tree hm ho]
      exact ⟨_,next_tree hm ho,(hrest n).push ha ht⟩

theorem Holds.peek (h : Holds iter l) : ∃ t, peek iter = .ok l.head? t ∧ Holds t l := by
  refine ⟨iter,?_,h⟩
  change EStateM.Result.ok (iter.entryStack.getLast?.map BitIndexEntry.ofTreeEntry) iter = _
  obtain ⟨hst,rfl⟩ | ⟨st,e,hst,rfl,-⟩ := h.cases
  · rw [hst]
    rfl
  · rw [hst,List.getLast?_concat]
    rfl

theorem Holds.stepOver (h : Holds iter l) : ∃ t, stepOver iter = .ok l.head? t ∧ Holds t (Stepper.without belowEntry l) := by
  obtain ⟨stack,n⟩ := iter
  obtain ⟨hst,rfl⟩ | ⟨st,e,hst,rfl,ha,hrest,hs⟩ := h.cases
  · obtain rfl : stack = [] := hst
    exact ⟨⟨[],n⟩,rfl,h⟩
  · obtain rfl : stack = st++[e] := hst
    have hkeep := List.filter_eq_self.mpr fun y hy => not_below_stack ha (y := y) hy
    cases hm : e.mode with
    | blob m =>
      simp only [Sound,hm] at hs
      refine ⟨⟨st,n⟩,?_,?_⟩
      · rw [TreeIter.stepOver,bind_of_ok (next_file hm hs),listingOf_file hm]
        simp only [BitIndexEntry.isTree,BitIndexEntry.ofTreeEntry,hm,FileMode.isTree,Bool.false_eq_true,if_false]
        rfl
      · rw [listingOf_file hm,List.singleton_append,Stepper.without,hkeep]
        exact hrest n
    | TREE =>
      simp only [Sound,hm] at hs
      obtain ⟨t,ho,ht⟩ := hs
      refine ⟨⟨st,st.length⟩,?_,?_⟩
      · rw [TreeIter.stepOver,bind_of_ok (next_tree hm ho),listingOf_tree hm ho]
        simp only [BitIndexEntry.isTree,BitIndexEntry.ofTreeEntry,hm,FileMode.isTree,if_true]
        change EStateM.Result.ok _ (⟨(st++(childEntries e.path t).reverse).take st.length,st.length⟩ : TreeIter) = _
        rw [List.take_left]
        rfl
      · have hdrop : ((childEntries e.path t).flatMap listingOf).filter (fun x => !belowEntry x (.ofTreeEntry e)) = [] :=
          List.filter_eq_nil_iff.mpr fun y hy => by rw [below_of_children hy]; simp
        rw [listingOf_tree hm ho,List.cons_append,Stepper.without,List.filter_append,hdrop,hkeep,List.nil_append]
        exact hrest _

theorem implements : iterator.Implements belowEntry Holds fun _ => True :=
  ⟨fun _ _ h => h.next,fun _ _ h => h.peek,fun _ _ h _ => h.stepOver⟩

/-- The iterator stands for the listing of its tree. -/
theorem holds_new {oid : Oid} (ho : oid.treeish.Distinct) (hblob : ∀ c, oid ≠ .blob c) : Holds (new oid) (treeIter oid) := by
  have htree : (if oid.isKnown then oid else .EMPTY_TREE) = .tree oid.treeish := by
    cases oid with
    | UNKNOWN => rfl
    | blob c => exact absurd rfl (hblob c)
    | tree t => simp [Oid.isKnown,Oid.treeish]
  refine ⟨?_,?_,List.pairwise_singleton _ _⟩
  · rw [new,htree]
    simp [listingOf,treeIter,Oid.treeish,Tree.listing]
  · intro e he
    obtain rfl := List.mem_singleton.mp he
    exact ⟨_,htree,ho⟩

end TreeIter
end Iterators
end Libbit
