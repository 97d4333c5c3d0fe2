import Libbit.TreeFiles
import Mathlib.Data.Ordering.Lemmas

/-! The order that git gives the children of a directory: a total order, that of the bytes of their names where a
directory ends in a slash. Files in and below the children come in the same order. -/
namespace Libbit

open Lib

/-- What a directory entry may be called. -/
def FreeName (n : Name) : Prop := SLASH ∉ n ∧ 0 ∉ n

instance (n : Name) : Decidable (FreeName n) := inferInstanceAs (Decidable (_ ∧ _))

section Order
variable {x y z : Name × Bool}

/-- A name as the order of siblings reads it. -/
def siblingKey (x : Name × Bool) : Bytes := x.1++if x.2 then [SLASH] else []

theorem siblingKey_lt (h : entryLt x y) : siblingKey x < siblingKey y := by
  have hfollows (b : Bool) : Tree.Follows b (if b then [SLASH] else []) := by
    cases b
    · rfl
    · exact ⟨[],rfl⟩
  exact Tree.lt_of_entryLt h (hfollows x.2) (hfollows y.2)

theorem pathCmpExplicit_swap (a b : Bytes) (x y : Bool) :
    (pathCmpExplicit a x b y).swap = pathCmpExplicit b y a x := by
  simp only [pathCmpExplicit,Ordering.swap_then,cmp_swap,min_comm a.length]

theorem entryLt_iff (hx : FreeName x.1) (hy : FreeName y.1) : entryLt x y ↔ siblingKey x < siblingKey y := by
  refine ⟨siblingKey_lt,fun hlt => ?_⟩
  by_contra hnot
  by_cases hback : entryLt y x
  · exact lt_asymm hlt (siblingKey_lt hback)
  · obtain rfl := entryLt_total hx hy hnot hback
    exact lt_irrefl _ hlt

/-- The comparison of the source is that of the bytes of the keys. -/
theorem pathCmpExplicit_eq (hx : FreeName x.1) (hy : FreeName y.1) :
    pathCmpExplicit x.1 x.2 y.1 y.2 = cmp (siblingKey x) (siblingKey y) := by
  have hlt {x y : Name × Bool} : pathCmpExplicit x.1 x.2 y.1 y.2 = .lt ↔ entryLt x y := by simp [entryLt]
  cases hcmp : pathCmpExplicit x.1 x.2 y.1 y.2 with
  | lt => exact (Tree.cmp_lt.mpr (siblingKey_lt (hlt.mp hcmp))).symm
  | eq =>
    have hback : pathCmpExplicit y.1 y.2 x.1 x.2 = .eq := by rw [← pathCmpExplicit_swap,hcmp]; rfl
    obtain rfl : x = y := entryLt_total hx hy (by simp [← hlt,hcmp]) (by simp [← hlt,hback])
    exact (Tree.cmp_eq.mpr rfl).symm
  | gt =>
    have hback : pathCmpExplicit y.1 y.2 x.1 x.2 = .lt := by rw [← pathCmpExplicit_swap,hcmp]; rfl
    have hkey : cmp (siblingKey y) (siblingKey x) = .lt := Tree.cmp_lt.mpr (siblingKey_lt (hlt.mp hback))
    rw [← cmp_swap,hkey]
    rfl

theorem siblingKey_injective (hx : FreeName x.1) (hy : FreeName y.1) (h : siblingKey x = siblingKey y) : x = y := by
  have hnot {x y : Name × Bool} (h : siblingKey x = siblingKey y) : ¬entryLt x y := fun hlt =>
    (siblingKey_lt hlt).ne h
  exact entryLt_total hx hy (hnot h) (hnot h.symm)

theorem entryLt_trans (hx : FreeName x.1) (hz : FreeName z.1) (h : entryLt x y) (h' : entryLt y z) : entryLt x z :=
  (entryLt_iff hx hz).mpr ((siblingKey_lt h).trans (siblingKey_lt h'))

theorem entryLt_of_not (hx : FreeName x.1) (hy : FreeName y.1) (hne : x.1 ≠ y.1) (h : ¬entryLt x y) : entryLt y x := by
  by_contra hback
  exact hne (congrArg Prod.fst (entryLt_total hx hy h hback))

end Order

namespace Tree
variable {t : Tree} {n : Name} {y : Name × Bool}

theorem mem_siblings_insertLeaf {a : BlobMode × Bytes} :
    y ∈ siblings (t.insertLeaf entryLt n a) ↔ y = (n,false) ∨ y ∈ siblings t := by
  induction t with
  | nil => simp [Forest.insertLeaf,siblings]
  | leaf m b rest ih =>
    unfold Forest.insertLeaf
    split
    · simp [siblings,ih,or_left_comm]
    · simp [siblings]
  | node m sub rest _ ih =>
    unfold Forest.insertLeaf
    split
    · simp [siblings,ih,or_left_comm]
    · simp [siblings]

theorem mem_siblings_insertNode {s : Tree} :
    y ∈ siblings (Forest.insertNode entryLt n s t) ↔ y = (n,true) ∨ y ∈ siblings t := by
  induction t with
  | nil => simp [Forest.insertNode,siblings]
  | leaf m b rest ih =>
    unfold Forest.insertNode
    split
    · simp [siblings,ih,or_left_comm]
    · simp [siblings]
  | node m sub rest _ ih =>
    unfold Forest.insertNode
    split
    · simp [siblings,ih,or_left_comm]
    · simp [siblings]

theorem mem_siblings_sort : y ∈ siblings (t.sort entryLt) ↔ y ∈ siblings t := by
  induction t with
  | nil => rfl
  | leaf n a rest ih => rw [Forest.sort,mem_siblings_insertLeaf,ih,siblings,List.mem_cons]
  | node n sub rest _ ih => rw [Forest.sort,mem_siblings_insertNode,ih,siblings,List.mem_cons]

/-- A name that comes before the first sibling comes before all of them. -/
theorem before_siblings {x first : Name × Bool} {ys : List (Name × Bool)} (hx : FreeName x.1)
    (hys : ∀ y ∈ ys, FreeName y.1) (hlt : entryLt x first) (hfirst : ∀ y ∈ ys, entryLt first y) :
    ∀ y ∈ first::ys, entryLt x y := by
  intro y hy
  rcases List.mem_cons.mp hy with rfl | hy
  · exact hlt
  · exact entryLt_trans hx (hys y hy) hlt (hfirst y hy)

/-- What is put among siblings that come after another one comes after it too. -/
theorem after_inserted {x y new : Name × Bool} {ys ys' : List (Name × Bool)} (hmem : y ∈ ys' ↔ y = new ∨ y ∈ ys)
    (hnew : entryLt x new) (hys : ∀ y ∈ ys, entryLt x y) (hy : y ∈ ys') : entryLt x y := by
  rcases hmem.mp hy with rfl | hy
  · exact hnew
  · exact hys y hy

section Insert
variable (hn : FreeName n) (hnames : ∀ y ∈ siblings t, FreeName y.1 ∧ y.1 ≠ n) (h : t.Ordered)
include hn hnames h

theorem Ordered.insertLeaf (a : BlobMode × Bytes) : Ordered (t.insertLeaf entryLt n a) := by
  induction t with
  | nil => exact ⟨fun y hy => (by cases hy),trivial⟩
  | leaf m b rest ih =>
    obtain ⟨⟨hm,hmn⟩,hrest⟩ := List.forall_mem_cons.mp hnames
    unfold Forest.insertLeaf
    split
    · exact ⟨fun y hy => after_inserted mem_siblings_insertLeaf ‹_› h.1 hy,ih hrest h.2⟩
    · exact ⟨before_siblings hn (fun y hy => (hrest y hy).1) (entryLt_of_not hm hn hmn ‹_›) h.1,h⟩
  | node m sub rest _ ih =>
    obtain ⟨⟨hm,hmn⟩,hrest⟩ := List.forall_mem_cons.mp hnames
    unfold Forest.insertLeaf
    split
    · exact ⟨fun y hy => after_inserted mem_siblings_insertLeaf ‹_› h.1 hy,h.2.1,ih hrest h.2.2⟩
    · exact ⟨before_siblings hn (fun y hy => (hrest y hy).1) (entryLt_of_not hm hn hmn ‹_›) h.1,h⟩

theorem Ordered.insertNode {s : Tree} (hs : s.Ordered) : Ordered (Forest.insertNode entryLt n s t) := by
  induction t with
  | nil => exact ⟨fun y hy => (by cases hy),hs,trivial⟩
  | leaf m b rest ih =>
    obtain ⟨⟨hm,hmn⟩,hrest⟩ := List.forall_mem_cons.mp hnames
    unfold Forest.insertNode
    split
    · exact ⟨fun y hy => after_inserted mem_siblings_insertNode ‹_› h.1 hy,ih hrest h.2⟩
    · exact ⟨before_siblings hn (fun y hy => (hrest y hy).1) (entryLt_of_not hm hn hmn ‹_›) h.1,hs,h⟩
  | node m sub rest _ ih =>
    obtain ⟨⟨hm,hmn⟩,hrest⟩ := List.forall_mem_cons.mp hnames
    unfold Forest.insertNode
    split
    · exact ⟨fun y hy => after_inserted mem_siblings_insertNode ‹_› h.1 hy,h.2.1,ih hrest h.2.2⟩
    · exact ⟨before_siblings hn (fun y hy => (hrest y hy).1) (entryLt_of_not hm hn hmn ‹_›) h.1,hs,h⟩

end Insert

theorem free_of_siblings (h : t.AllNames FreeName) (hy : y ∈ siblings t) : FreeName y.1 := by
  induction t with
  | nil => cases hy
  | leaf n a rest ih =>
    rcases List.mem_cons.mp hy with rfl | hy
    · exact h.1
    · exact ih h.2 hy
  | node n sub rest _ ih =>
    rcases List.mem_cons.mp hy with rfl | hy
    · exact h.1
    · exact ih h.2.2 hy

theorem ordered_sort (hnames : t.AllNames FreeName) (hd : t.Distinct) : Ordered (t.sort entryLt) := by
  have hothers {rest : Tree} {n : Name} (hrest : rest.AllNames FreeName) (hn : n ∉ rest.names) :
      ∀ y ∈ siblings (rest.sort entryLt), FreeName y.1 ∧ y.1 ≠ n := by
    intro y hy
    have hy := mem_siblings_sort.mp hy
    refine ⟨free_of_siblings hrest hy,?_⟩
    rintro rfl
    exact hn (mem_names_iff.mpr ⟨y.2,hy⟩)
  induction t with
  | nil => trivial
  | leaf n a rest ih => exact (ih hnames.2 hd.2).insertLeaf hnames.1 (hothers hnames.2 hd.1) a
  | node n sub rest ihs ihr =>
    exact (ihr hnames.2.2 hd.2.2).insertNode hnames.1 (hothers hnames.2.2 hd.1) (ihs hnames.2.1 hd.2.1)

end Tree

/-! ### The order of the children of a directory -/

/-- A child of a directory as it is compared with its siblings. -/
structure Sibling where
  name : Name
  isDir : Bool
  free : FreeName name

namespace Sibling
variable {x y : Sibling}

/-- `path_cmp_explicit` of the name and the kind. -/
def order (x y : Sibling) : Ordering := pathCmpExplicit x.name x.isDir y.name y.isDir

/-- The name, with a slash at the end for a directory. -/
def key (x : Sibling) : Bytes := siblingKey (x.name,x.isDir)

/-- Below `pre` the child is the file, or a directory with the file in it. -/
def Has (x : Sibling) (pre p : BitPath) : Prop := ∃ q, p = pre++x.name::q ∧ (x.isDir = true ↔ q ≠ [])

theorem key_injective : Function.Injective key := fun x y h => by
  obtain ⟨hname,hdir⟩ := Prod.mk.inj (siblingKey_injective (x := (x.name,x.isDir)) (y := (y.name,y.isDir)) x.free y.free h)
  cases x
  cases y
  simp_all

theorem order_eq (x y : Sibling) : x.order y = cmp x.key y.key :=
  pathCmpExplicit_eq (x := (x.name,x.isDir)) (y := (y.name,y.isDir)) x.free y.free

instance : Std.TransCmp order where
  eq_swap {x y} := (pathCmpExplicit_swap y.name x.name y.isDir x.isDir).symm
  isLE_trans {x y z} hxy hyz := by
    rw [order_eq] at *
    have hle {a b : Bytes} : (cmp a b).isLE = true ↔ a ≤ b := by
      rw [Ordering.isLE_iff_ne_gt,← not_lt,← Tree.cmp_lt,← cmp_swap a b,Ordering.swap_eq_lt]
    exact hle.mpr ((hle.mp hxy).trans (hle.mp hyz))

instance : Std.LawfulEqCmp order where
  eq_of_compare {x y} h := by
    rw [order_eq] at h
    exact key_injective (Tree.cmp_eq.mp h)

theorem order_lt_iff : x.order y = .lt ↔ entryLt (x.name,x.isDir) (y.name,y.isDir) := by simp [order,entryLt]

/-- The files of one child come before those of another as the children do. -/
theorem order_files {pre p q : BitPath} (hne : x ≠ y) (hp : x.Has pre p) (hq : y.Has pre q) : p.pathCmp q = x.order y := by
  obtain ⟨s,rfl,hs⟩ := hp
  obtain ⟨t,rfl,ht⟩ := hq
  have hlt {x y : Sibling} {s t : BitPath} (hs : x.isDir = true ↔ s ≠ []) (ht : y.isDir = true ↔ t ≠ [])
      (h : x.order y = .lt) : BitPath.pathCmp (pre++x.name::s) (pre++y.name::t) = .lt :=
    Tree.cmp_lt.mpr (Tree.lt_of_siblings (x := (x.name,x.isDir)) (y := (y.name,y.isDir)) (order_lt_iff.mp h) hs ht)
  cases horder : x.order y with
  | lt => exact hlt hs ht horder
  | eq => exact absurd (Std.LawfulEqCmp.eq_of_compare horder) hne
  | gt =>
    have hback : y.order x = .lt := by
      have hswap : y.order x = (x.order y).swap := Std.OrientedCmp.eq_swap
      rw [hswap,horder]
      rfl
    rw [BitPath.pathCmp,← cmp_swap]
    exact congrArg Ordering.swap (hlt ht hs hback)

end Sibling

/-- The comparison of children is a total order, that of the bytes of the names with a slash after a directory. Files below
two children compare as the children do, so in a tree that is sorted by it the files are in the order of their bytes. -/
structure GitNameOrder : Prop where
  trans : Std.TransCmp Sibling.order
  eq : Std.LawfulEqCmp Sibling.order
  bytes : ∀ x y : Sibling, x.order y = cmp (x.name++if x.isDir then [SLASH] else []) (y.name++if y.isDir then [SLASH] else [])
  files : ∀ (x y : Sibling) (pre p q : BitPath), x ≠ y → x.Has pre p → y.Has pre q → p.pathCmp q = x.order y
  sorts : ∀ t : Tree, t.AllNames FreeName → t.Distinct → ∀ pre, (Tree.flatten pre (t.sort entryLt)).Pairwise fun a b =>
    a.1.pathCmp b.1 = .lt

theorem gitNameOrder : GitNameOrder where
  trans := inferInstance
  eq := inferInstance
  bytes := Sibling.order_eq
  files _ _ _ _ _ hne hp hq := Sibling.order_files hne hp hq
  sorts _ hnames hd pre := ((Tree.ordered_sort hnames hd).flatten_sorted pre).imp Tree.cmp_lt.mpr

end Libbit
