import Libbit.TreeIteratorsSpec

/-! The iterator over the index makes up the directories above the entries. What it has still to yield depends on
the entries that are left and on the directories that were yielded; an entry that is stepped over leaves neither
itself nor a directory of its own. -/
namespace Libbit

open Lib

/-! ### Prefixes -/

theorem inits_pairwise {α : Type} (p : List α) : p.inits.Pairwise fun a b => a.length < b.length := by
  induction p with
  | nil => exact List.pairwise_singleton _ _
  | cons n p ih =>
    rw [List.inits_cons]
    refine List.pairwise_cons.mpr ⟨?_,List.pairwise_map.mpr (ih.imp fun h => by simpa using h)⟩
    intro q hq
    obtain ⟨q,-,rfl⟩ := List.mem_map.mp hq
    simp

theorem BitPath.cumulativeComponents_pairwise (p : BitPath) :
    p.cumulativeComponents.Pairwise fun a b => a.length < b.length := by
  unfold cumulativeComponents
  split
  · exact List.pairwise_singleton _ _
  · exact (inits_pairwise p).sublist (List.tail_sublist _)

theorem BitPath.prefix_of_mem_cumulativeComponents {p q : BitPath} (h : q ∈ p.cumulativeComponents) : q <+: p := by
  by_cases hp : p = []
  · subst hp
    obtain rfl : q = [] := by simpa [cumulativeComponents] using h
    exact List.prefix_rfl
  · exact ((mem_cumulativeComponents hp).mp h).2

/-- Strictly below a directory is at or below it with the parent. -/
theorem BitPath.below_iff_parent {p d : BitPath} (hp : p ≠ []) : p.below d ↔ d <+: p.parent := by
  obtain ⟨q,n,rfl⟩ := eq_parent_append hp
  rw [below_iff,parent_append]
  constructor
  · rintro ⟨h,hne⟩
    rcases List.prefix_concat_iff.mp h with rfl | h
    · exact absurd rfl hne
    · exact h
  · intro h
    refine ⟨h.trans (List.prefix_append _ _),?_⟩
    rintro rfl
    simpa using h.length_le

theorem BitPath.below_of_prefix {p q d : BitPath} (h : p.below d) (hpq : p <+: q) : q.below d := by
  obtain ⟨hd,hne⟩ := below_iff.mp h
  refine below_iff.mpr ⟨hd.trans hpq,?_⟩
  rintro rfl
  exact hne (hpq.eq_of_length_le hd.length_le)

namespace BitIndexInner
variable {idx : BitIndexInner} {seen seen' : List BitPath} {es : List BitIndexEntry} {d : BitPath}

theorem path_createPseudotree (p : BitPath) : (idx.createPseudotree p).path = p := rfl

/-- Only the directories above the entries matter. -/
theorem indexTreeIterFrom_congr (h : ∀ e ∈ es, ∀ p ∈ e.path.parent.cumulativeComponents, p ∈ seen ↔ p ∈ seen') :
    idx.indexTreeIterFrom seen es = idx.indexTreeIterFrom seen' es := by
  induction es generalizing seen seen' with
  | nil => rfl
  | cons e rest ih =>
    have hfresh : e.path.parent.cumulativeComponents.filter (fun p => p ∉ seen) =
        e.path.parent.cumulativeComponents.filter fun p => p ∉ seen' :=
      List.filter_congr fun p hp => by simp [h e List.mem_cons_self p hp]
    have hrest (fresh : List BitPath) : idx.indexTreeIterFrom (seen++fresh) rest = idx.indexTreeIterFrom (seen'++fresh) rest :=
      ih fun x hx p hp => by rw [List.mem_append,List.mem_append,h x (List.mem_cons_of_mem _ hx) p hp]
    simp only [indexTreeIterFrom,hfresh,hrest]

/-- Without the entries below a directory the listing lacks what is below the directory. -/
theorem indexTreeIterFrom_filter (hes : ∀ e ∈ es, e.path ≠ []) (hd : ∀ q, q <+: d → q ∈ seen) :
    idx.indexTreeIterFrom seen (es.filter fun e => !e.path.below d) =
      (idx.indexTreeIterFrom seen es).filter fun e => !e.path.below d := by
  induction es generalizing seen with
  | nil => rfl
  | cons e rest ih =>
    have hrest : ∀ x ∈ rest, x.path ≠ [] := fun x hx => hes x (List.mem_cons_of_mem _ hx)
    have hgrow (fresh : List BitPath) : ∀ q, q <+: d → q ∈ seen++fresh := fun q hq => List.mem_append_left _ (hd q hq)
    have hpath := hes e List.mem_cons_self
    by_cases hb : e.path.below d = true
    · -- the directories that come with it are below the directory too
      have hfresh : ∀ p ∈ e.path.parent.cumulativeComponents.filter (fun p => p ∉ seen), p.below d = true := by
        intro p hp
        obtain ⟨hp,hnew⟩ := List.mem_filter.mp hp
        have hpe := (BitPath.prefix_of_mem_cumulativeComponents hp).trans (BitPath.parent_prefix e.path)
        have hnd : ¬p <+: d := fun h => of_decide_eq_true hnew (hd p h)
        rcases List.prefix_or_prefix_of_prefix hpe (BitPath.below_iff.mp hb).1 with h | h
        · exact absurd h hnd
        · exact BitPath.below_iff.mpr ⟨h,fun he => hnd (he ▸ List.prefix_rfl)⟩
      rw [List.filter_cons_of_neg (by simp [hb]),indexTreeIterFrom,List.filter_append,List.filter_cons_of_neg (by simp [hb]),
        ← ih hrest (hgrow _)]
      have hnone : ((e.path.parent.cumulativeComponents.filter fun p => p ∉ seen).map idx.createPseudotree).filter
          (fun e => !e.path.below d) = [] := by
        refine List.filter_eq_nil_iff.mpr fun x hx => ?_
        obtain ⟨p,hp,rfl⟩ := List.mem_map.mp hx
        simp [path_createPseudotree,hfresh p hp]
      rw [hnone,List.nil_append]
      refine indexTreeIterFrom_congr fun x hx p hp => ?_
      rw [List.mem_append,or_iff_left]
      intro hpf
      have hpx := (BitPath.prefix_of_mem_cumulativeComponents hp).trans (BitPath.parent_prefix x.path)
      have hxb : x.path.below d = true := BitPath.below_of_prefix (hfresh p hpf) hpx
      simpa [hxb] using (List.mem_filter.mp hx).2
    · rw [Bool.not_eq_true] at hb
      have hkeep : ((e.path.parent.cumulativeComponents.filter fun p => p ∉ seen).map idx.createPseudotree).filter
          (fun e => !e.path.below d) = (e.path.parent.cumulativeComponents.filter fun p => p ∉ seen).map idx.createPseudotree := by
        refine List.filter_eq_self.mpr fun x hx => ?_
        obtain ⟨p,hp,rfl⟩ := List.mem_map.mp hx
        rw [path_createPseudotree,Bool.not_eq_true',Bool.eq_false_iff]
        intro hpb
        have hpe := (BitPath.prefix_of_mem_cumulativeComponents (List.mem_filter.mp hp).1).trans (BitPath.parent_prefix e.path)
        exact Bool.eq_false_iff.mp hb (BitPath.below_of_prefix hpb hpe)
      rw [List.filter_cons_of_pos (by simp [hb]),indexTreeIterFrom,indexTreeIterFrom,List.filter_append,hkeep,
        List.filter_cons_of_pos (by simp [hb]),ih hrest (hgrow _)]

theorem sublist_indexTreeIterFrom (seen : List BitPath) (es : List BitIndexEntry) :
    es.Sublist (idx.indexTreeIterFrom seen es) := by
  induction es generalizing seen with
  | nil => exact List.Sublist.slnil
  | cons e rest ih => exact ((ih _).cons_cons e).trans (List.sublist_append_right _ _)

end BitIndexInner

/-! ### The listing of an index -/

/-- At one path, and both directories or both files. -/
def Alike (x y : BitIndexEntry) : Prop := x.path = y.path ∧ x.isTree = y.isTree

theorem alike_stepOver {l l' : List BitIndexEntry} (h : List.Forall₂ Alike l l') :
    List.Forall₂ Alike (Iter.stepOver l) (Iter.stepOver l') := by
  cases h with
  | nil => exact .nil
  | @cons x y l l' hxy h =>
    simp only [Iter.stepOver,← hxy.1,← hxy.2]
    split
    · exact TreeDiffIter.forall₂_dropWhile (fun a b hab => by rw [hab.1]) h
    · exact h

theorem Alike.exists_of_mem {l l' : List BitIndexEntry} (h : List.Forall₂ Alike l l') {y : BitIndexEntry} (hy : y ∈ l') :
    ∃ x ∈ l, x.path = y.path := by
  have hpaths : l.map BitIndexEntry.path = l'.map BitIndexEntry.path := by
    rw [← List.forall₂_eq_eq_eq,List.forall₂_map_left_iff,List.forall₂_map_right_iff]
    exact h.imp fun _ _ hxy => hxy.1
  obtain ⟨x,hx,hxy⟩ := List.mem_map.mp (hpaths ▸ List.mem_map_of_mem hy : y.path ∈ l.map BitIndexEntry.path)
  exact ⟨x,hx,hxy⟩

theorem Preorder.congr {l l' : List BitIndexEntry} (h : Preorder l) (hl : List.Forall₂ Alike l l') : Preorder l' := by
  induction hl with
  | nil => exact h
  | @cons x y l l' hxy hl ih =>
    refine ⟨?_,?_,ih h.2.2⟩
    · intro z hz
      obtain ⟨w,hw,hwz⟩ := Alike.exists_of_mem hl hz
      rw [← hwz,← hxy.1]
      exact h.1 w hw
    · intro z hz
      obtain ⟨w,hw,hwz⟩ := Alike.exists_of_mem (alike_stepOver (.cons hxy hl)) hz
      rw [← hwz,← hxy.1]
      exact h.2.1 w hw

/-- Files that do not lie below one another leave each name to one child. -/
theorem Tree.Canonical.distinct {t : Tree} (h : t.Canonical) (pre : BitPath)
    (hf : ∀ x ∈ t.flatten pre, ∀ y ∈ t.flatten pre, ¬y.1.below x.1) : t.Distinct := by
  have hclash {n : Name} {q : BitPath} (hq : q ≠ []) : (pre++n::q).below (pre++[n]) :=
    BitPath.below_iff.mpr ⟨by simp,by simpa using hq⟩
  induction t generalizing pre with
  | nil => trivial
  | leaf n a rest ih =>
    have hrest := ih h.2.2 pre (fun x hx y hy => hf x (List.mem_cons_of_mem _ hx) y (List.mem_cons_of_mem _ hy)) hclash
    refine ⟨fun hn => ?_,hrest⟩
    obtain ⟨b,hb⟩ := Tree.mem_names_iff.mp hn
    obtain ⟨y,hy,q,hyq,hbq⟩ := h.2.2.file_of_sibling hb pre
    cases b with
    | false => exact entryLt_irrefl _ (h.2.1 _ hb)
    | true =>
      apply hf _ List.mem_cons_self y (List.mem_cons_of_mem _ hy)
      rw [hyq]
      exact hclash (hbq.mp rfl)
  | node n sub rest ihs ihr =>
    have hsub : sub.Distinct := by
      refine ihs h.2.2.2.1 (pre++[n]) (fun x hx y hy => hf x (List.mem_append_left _ hx) y (List.mem_append_left _ hy)) ?_
      exact fun hq => BitPath.below_iff.mpr ⟨by simp,by simpa using hq⟩
    have hrest := ihr h.2.2.2.2 pre (fun x hx y hy => hf x (List.mem_append_right _ hx) y (List.mem_append_right _ hy)) hclash
    refine ⟨fun hn => ?_,hsub,hrest⟩
    obtain ⟨b,hb⟩ := Tree.mem_names_iff.mp hn
    obtain ⟨y,hy,q,hyq,hbq⟩ := h.2.2.2.2.file_of_sibling hb pre
    cases b with
    | true => exact entryLt_irrefl _ (h.2.1 _ hb)
    | false =>
      obtain rfl : q = [] := by simpa using hbq
      obtain ⟨x,hx,q,hxq,hq⟩ := h.file_of_sibling (y := (n,true)) List.mem_cons_self pre
      apply hf y (List.mem_append_right _ hy) x hx
      rw [hyq,hxq]
      exact hclash (hq.mp rfl)

namespace BitIndexInner
variable {idx : BitIndexInner}

/-- Files only, none of them in conflict or in the place of a directory of another, and a cache that is right. -/
structure Sane (idx : BitIndexInner) : Prop where
  valid : idx.Valid
  stage : ∀ e ∈ idx.entries, e.stage = .NONE
  file : ∀ e ∈ idx.entries, e.isTree = false
  collisionFree : idx.CollisionFree
  coherent : idx.CacheCoherent

/-- The index with another hash for every entry. -/
def withOid (idx : BitIndexInner) (oid : Oid) : BitIndexInner := ⟨idx.entries.map fun e => {e with oid := oid},idx.treeCache⟩

theorem alike_indexTreeIterFrom (oid : Oid) (seen : List BitPath) (es : List BitIndexEntry) :
    List.Forall₂ Alike ((idx.withOid oid).indexTreeIterFrom seen (es.map fun e => {e with oid := oid}))
      (idx.indexTreeIterFrom seen es) := by
  induction es generalizing seen with
  | nil => exact .nil
  | cons e rest ih =>
    refine List.rel_append (List.forall₂_same.mpr ?_) (.cons ⟨rfl,rfl⟩ (ih _))
    exact fun x _ => ⟨rfl,rfl⟩

/-- Without collisions the tree that an index holds the files of leaves each name to one child. -/
theorem Describes.distinct {t : Tree} (hd : idx.Describes t) (ht : t.Canonical)
    (hfree : ∀ e ∈ idx.entries, ∀ e' ∈ idx.entries, ¬e'.path.below e.path) : t.Distinct := by
  have hmem : ∀ x ∈ t.flatten [], ∃ e ∈ idx.entries, e.path = x.1 := by
    intro x hx
    have hpaths : (t.flatten []).map Prod.fst = idx.entries.map BitIndexEntry.path := by
      rw [← List.forall₂_eq_eq_eq,List.forall₂_map_left_iff,List.forall₂_map_right_iff]
      exact hd.imp fun _ _ hxe => hxe.1.symm
    exact List.mem_map.mp (hpaths ▸ List.mem_map_of_mem hx : x.1 ∈ _)
  refine ht.distinct [] fun x hx y hy hb => ?_
  obtain ⟨e,he,hex⟩ := hmem x hx
  obtain ⟨e',he',hey⟩ := hmem y hy
  exact hfree e he e' he' (by rwa [hex,hey])

/-- The directories come before what is in them, and nothing comes between. -/
theorem Sane.preorder (h : idx.Sane) : Preorder idx.indexTreeIter := by
  -- the hashes do not matter, and with the hash of a file the index describes a tree
  have hvalid : (idx.withOid (.blob [])).Valid := by
    refine ⟨List.pairwise_map.mpr h.valid.sorted,?_⟩
    intro e he
    obtain ⟨x,hx,rfl⟩ := List.mem_map.mp he
    exact h.valid.normal x hx
  have hfile : ∀ e ∈ (idx.withOid (.blob [])).entries, ∃ a, FileOf (e.path,a) e := by
    intro e he
    obtain ⟨x,hx,rfl⟩ := List.mem_map.mp he
    cases hm : x.mode with
    | TREE => exact absurd (h.file x hx) (by simp [BitIndexEntry.isTree,hm,FileMode.isTree])
    | blob m => exact ⟨(m,[]),rfl,rfl,rfl,h.stage x hx⟩
  obtain ⟨t,ht,hd⟩ := hvalid.describes_tree hfile
  have hdistinct : t.Distinct := by
    refine hd.distinct ht fun e he e' he' => ?_
    obtain ⟨x,hx,rfl⟩ := List.mem_map.mp he
    obtain ⟨y,hy,rfl⟩ := List.mem_map.mp he'
    exact h.collisionFree x hx y hy (h.stage x hx) (h.stage y hy)
  refine ((Tree.Distinct.preorder hdistinct).congr ((hd.mirror ht hdistinct).imp ?_)).congr
    (.cons ⟨rfl,rfl⟩ (alike_indexTreeIterFrom (.blob []) [[]] idx.entries))
  exact fun x y hxy => ⟨hxy.1,by rw [BitIndexEntry.isTree,hxy.2.1]; rfl⟩

theorem Sane.count (h : idx.Sane) {d : BitPath} {c : BitTreeCache}
    (hc : (idx.treeCache.bind fun cache => cache.findValidChild d) = some c) : c.entryCount = (idx.under d).length := by
  obtain ⟨root,hroot,hfind⟩ := Option.bind_eq_some_iff.mp hc
  obtain ⟨hfind,hpos⟩ := Option.filter_eq_some_iff.mp hfind
  refine (h.coherent root hroot d c hfind ?_).2.1
  simp only [decide_eq_true_eq] at hpos
  simp [BitTreeCache.isValid,hpos.le]

end BitIndexInner

/-! ### The state between two calls -/

namespace Iterators
namespace IndexTreeIter
variable {idx : BitIndexInner} {iter : IndexTreeIter} {l : List BitIndexEntry}

/-- A directory that was just yielded, or is looked at: none of its entries were passed yet. -/
structure Entered (idx : BitIndexInner) (iter : IndexTreeIter) (d : BitPath) : Prop where
  seen : d ∈ iter.pseudotrees
  ahead : ∀ e ∈ idx.entries, e.path.below d → e ∈ iter.entryIter

/-- The iterator once the root was yielded. -/
structure Started (idx : BitIndexInner) (iter : IndexTreeIter) (l : List BitIndexEntry) : Prop where
  root : [] ∈ iter.pseudotrees
  closed : ∀ d ∈ iter.pseudotrees, ∀ q, q <+: d → q ∈ iter.pseudotrees
  suffix : iter.entryIter <:+ idx.entries
  /-- The directories that an entry left shares with one passed were yielded. -/
  shared : ∀ e ∈ idx.entries, e ∉ iter.entryIter → ∀ e' ∈ iter.entryIter, ∀ d, e.path.below d → e'.path.below d →
    d ∈ iter.pseudotrees
  peeked : ∀ x ∈ iter.peeked, x.isTree → Entered idx iter x.path
  list : l = iter.peeked.toList++idx.indexTreeIterFrom iter.pseudotrees iter.entryIter
  listed : l.Sublist idx.indexTreeIter

/-- Before the first call nothing was yielded. -/
def Holds (idx : BitIndexInner) (iter : IndexTreeIter) (l : List BitIndexEntry) : Prop :=
  iter = new idx ∧ l = idx.indexTreeIter ∨ Started idx iter l

/-- What `next` does, and what it says of a directory that it returns. -/
structure Nexts (idx : BitIndexInner) (iter : IndexTreeIter) (l : List BitIndexEntry) (t : IndexTreeIter) : Prop where
  run : next idx iter = .ok l.head? t
  started : Started idx t l.tail
  nonePeeked : t.peeked = none
  entered : ∀ x ∈ l.head?, x.isTree → Entered idx t x.path

theorem nexts_new (idx : BitIndexInner) : Nexts idx (new idx) idx.indexTreeIter ⟨idx.entries,[[]],none⟩ where
  run := by simp [next,new,BitIndexInner.indexTreeIter]; rfl
  started := by
    refine ⟨by simp,?_,List.suffix_rfl,?_,by simp,rfl,List.tail_sublist _⟩
    · intro d hd q hq
      obtain rfl := List.mem_singleton.mp hd
      exact List.mem_singleton.mpr (List.prefix_nil.mp hq)
    · exact fun e he hnot => absurd he hnot
  nonePeeked := rfl
  entered x hx _ := by
    obtain rfl : idx.createPseudotree [] = x := by simpa [BitIndexInner.indexTreeIter] using hx
    exact ⟨List.mem_singleton_self _,fun e he _ => he⟩

theorem next_peeked {x : BitIndexEntry} (hroot : [] ∈ iter.pseudotrees) (hx : iter.peeked = some x) :
    next idx iter = .ok (some x) {iter with peeked := none} := by
  simp only [next,run_getBind,hroot,not_true_eq_false,if_false,hx]
  rfl

theorem next_nil (hroot : [] ∈ iter.pseudotrees) (hx : iter.peeked = none) (he : iter.entryIter = []) :
    next idx iter = .ok none iter := by
  simp only [next,run_getBind,hroot,not_true_eq_false,if_false,hx,he]
  rfl

theorem next_dir {e : BitIndexEntry} {rest : List BitIndexEntry} {d : BitPath} (hroot : [] ∈ iter.pseudotrees)
    (hx : iter.peeked = none) (he : iter.entryIter = e::rest)
    (hd : (e.path.parent.cumulativeComponents.find? fun p => p ∉ iter.pseudotrees) = some d) :
    next idx iter = .ok (some (idx.createPseudotree d)) {iter with pseudotrees := iter.pseudotrees++[d]} := by
  simp only [next,run_getBind,hroot,not_true_eq_false,if_false,hx,he,hd]
  rfl

theorem next_entry {e : BitIndexEntry} {rest : List BitIndexEntry} (hroot : [] ∈ iter.pseudotrees)
    (hx : iter.peeked = none) (he : iter.entryIter = e::rest)
    (hd : (e.path.parent.cumulativeComponents.find? fun p => p ∉ iter.pseudotrees) = none) :
    next idx iter = .ok (some e) {iter with entryIter := rest} := by
  simp only [next,run_getBind,hroot,not_true_eq_false,if_false,hx,he,hd]
  rfl

/-- All directories above the first new one were yielded. -/
theorem above_of_find {seen : List BitPath} {p d : BitPath} (hroot : [] ∈ seen)
    (hd : (p.cumulativeComponents.find? fun q => q ∉ seen) = some d) :
    ∃ q n, d = q++[n] ∧ d <+: p ∧ d ∉ seen ∧ ∀ r, r <+: q → r ∈ seen := by
  have hnew : d ∉ seen := by simpa using List.find?_some hd
  have hpre := BitPath.prefix_of_mem_cumulativeComponents (List.mem_of_find?_eq_some hd)
  obtain ⟨q,n,rfl⟩ := BitPath.eq_parent_append (p := d) fun h => hnew (h ▸ hroot)
  refine ⟨q,n,rfl,hpre,hnew,fun r hr => ?_⟩
  by_cases hnil : r = []
  · exact hnil ▸ hroot
  obtain ⟨-,as,bs,hcomp,hold⟩ := List.find?_eq_some_iff_append.mp hd
  have hlt : r.length < (q++[n]).length := by simpa using Nat.lt_succ_of_le hr.length_le
  have hmem : r ∈ p.cumulativeComponents := by
    have hrp := (hr.trans (List.prefix_append q [n])).trans hpre
    refine (BitPath.mem_cumulativeComponents ?_).mpr ⟨hnil,hrp⟩
    rintro rfl
    exact hnil (List.prefix_nil.mp hrp)
  rw [hcomp] at hmem
  rcases List.mem_append.mp hmem with hr | hr
  · simpa using hold r hr
  · -- the components after the first new one are longer
    have hsorted := BitPath.cumulativeComponents_pairwise p
    rw [hcomp,List.pairwise_append] at hsorted
    rcases List.mem_cons.mp hr with rfl | hr
    · exact absurd hlt (lt_irrefl _)
    · exact absurd hlt (lt_asymm ((List.pairwise_cons.mp hsorted.2.1).1 r hr))

section
variable (hsane : idx.Sane)
include hsane

theorem ne_nil_of_mem {e : BitIndexEntry} (he : e ∈ idx.entries) : e.path ≠ [] := (hsane.valid.normal e he).1

theorem Started.nexts (h : Started idx iter l) : ∃ t, Nexts idx iter l t := by
  cases hx : iter.peeked with
  | some x =>
    have hl : l = x::idx.indexTreeIterFrom iter.pseudotrees iter.entryIter := by rw [h.list,hx]; rfl
    refine ⟨{iter with peeked := none},by rw [hl]; exact next_peeked h.root hx,?_,rfl,?_⟩
    · exact ⟨h.root,h.closed,h.suffix,h.shared,by simp,by rw [hl]; rfl,(List.tail_sublist _).trans h.listed⟩
    · intro y hy hty
      obtain rfl : x = y := by simpa [hl] using hy
      have hent := h.peeked x hx hty
      exact ⟨hent.seen,hent.ahead⟩
  | none =>
    have hl : l = idx.indexTreeIterFrom iter.pseudotrees iter.entryIter := by rw [h.list,hx]; rfl
    cases he : iter.entryIter with
    | nil =>
      rw [he] at hl
      refine ⟨iter,by rw [hl]; exact next_nil h.root hx he,?_,hx,by simp [hl,BitIndexInner.indexTreeIterFrom]⟩
      rwa [hl] at h ⊢
    | cons e rest =>
      rw [he] at hl
      have hmem : e ∈ idx.entries := h.suffix.subset (he ▸ List.mem_cons_self)
      have hne := ne_nil_of_mem hsane hmem
      cases hd : e.path.parent.cumulativeComponents.find? fun p => p ∉ iter.pseudotrees with
      | some d =>
        obtain ⟨q,n,rfl,hpre,hnew,habove⟩ := above_of_find h.root hd
        have hl' : l = idx.createPseudotree (q++[n])::idx.indexTreeIterFrom (iter.pseudotrees++[q++[n]]) (e::rest) := by
          rw [hl]
          exact BitIndexInner.indexTreeIterFrom_enter hpre habove hnew rest
        refine ⟨{iter with pseudotrees := iter.pseudotrees++[q++[n]]},by rw [hl']; exact next_dir h.root hx he hd,?_,hx,?_⟩
        · refine ⟨List.mem_append_left _ h.root,?_,h.suffix,?_,by simp [hx],by rw [hl',he,hx]; rfl,
            (List.tail_sublist _).trans h.listed⟩
          · intro d hd r hr
            rcases List.mem_append.mp hd with hd | hd
            · exact List.mem_append_left _ (h.closed d hd r hr)
            · obtain rfl := List.mem_singleton.mp hd
              rcases List.prefix_concat_iff.mp hr with rfl | hr
              · exact List.mem_append_right _ (List.mem_singleton_self _)
              · exact List.mem_append_left _ (habove r hr)
          · exact fun a ha hna b hb d hda hdb => List.mem_append_left _ (h.shared a ha hna b hb d hda hdb)
        · intro y hy _
          obtain rfl : idx.createPseudotree (q++[n]) = y := by simpa [hl'] using hy
          refine ⟨List.mem_append_right _ (List.mem_singleton_self _),fun a ha hb => ?_⟩
          by_contra hna
          exact hnew (h.shared a ha hna e (he ▸ List.mem_cons_self) _ hb ((BitPath.below_iff_parent hne).mpr hpre))
      | none =>
        have hold : ∀ p ∈ e.path.parent.cumulativeComponents, p ∈ iter.pseudotrees := by
          simpa using List.find?_eq_none.mp hd
        have hfresh : e.path.parent.cumulativeComponents.filter (fun p => p ∉ iter.pseudotrees) = [] :=
          List.filter_eq_nil_iff.mpr (by simpa using hold)
        have hl' : l = e::idx.indexTreeIterFrom iter.pseudotrees rest := by
          rw [hl]
          simp only [BitIndexInner.indexTreeIterFrom,hfresh,List.map_nil,List.nil_append,List.append_nil]
        refine ⟨{iter with entryIter := rest},by rw [hl']; exact next_entry h.root hx he hd,?_,hx,?_⟩
        · refine ⟨h.root,h.closed,(List.suffix_cons e rest).trans (he ▸ h.suffix),?_,by simp [hx],by rw [hl',hx]; rfl,
            (List.tail_sublist _).trans h.listed⟩
          intro a ha hna b hb d hda hdb
          by_cases hae : a = e
          · subst hae
            by_cases hnil : d = []
            · exact hnil ▸ h.root
            · have hdp := (BitPath.below_iff_parent hne).mp hda
              refine hold d ((BitPath.mem_cumulativeComponents ?_).mpr ⟨hnil,hdp⟩)
              intro hp
              exact hnil (List.prefix_nil.mp (hp ▸ hdp))
          · refine h.shared a ha ?_ b (he ▸ List.mem_cons_of_mem _ hb) d hda hdb
            rw [he]
            exact fun hm => (List.mem_cons.mp hm).elim hae hna
        · intro y hy hty
          obtain rfl : e = y := by simpa [hl'] using hy
          exact absurd hty (by simp [hsane.file e hmem])

theorem Holds.nexts (h : Holds idx iter l) : ∃ t, Nexts idx iter l t := by
  rcases h with ⟨rfl,rfl⟩ | h
  · exact ⟨_,nexts_new idx⟩
  · exact h.nexts hsane

/-- The entry that is looked at goes into its slot. -/
theorem Holds.peeks (h : Holds idx iter l) : ∃ t, peek idx iter = .ok l.head? t ∧ Started idx t l := by
  cases hx : iter.peeked with
  | some x =>
    rcases h with ⟨rfl,rfl⟩ | h
    · cases hx
    · refine ⟨iter,?_,h⟩
      rw [h.list]
      simp only [peek,run_getBind,hx]
      rfl
  | none =>
    obtain ⟨t,ht⟩ := h.nexts hsane
    have hs := ht.started
    refine ⟨{t with peeked := l.head?},?_,hs.root,hs.closed,hs.suffix,hs.shared,?_,?_,?_⟩
    · simp only [peek,run_getBind,hx]
      rw [bind_of_ok ht.run]
      rfl
    · intro x hxl htx
      have hent := ht.entered x hxl htx
      exact ⟨hent.seen,hent.ahead⟩
    · have hlist := hs.list
      rw [ht.nonePeeked,Option.toList_none,List.nil_append] at hlist
      change l = l.head?.toList++idx.indexTreeIterFrom t.pseudotrees t.entryIter
      rw [← hlist]
      cases l <;> rfl
    · rcases h with ⟨rfl,rfl⟩ | h
      · exact List.Sublist.refl _
      · exact h.listed

end

/-! ### Stepping over -/

section
variable {t : IndexTreeIter} {x : BitIndexEntry} {skip : BitIndexEntry → EStateM IterError IndexTreeIter Unit} {n : ℕ}

/-- After a directory come the entries below it, and then the others. -/
theorem drop_below {es : List BitIndexEntry} (h : Preorder (x::es)) (hx : x.isTree) :
    es.drop (es.filter fun y => belowEntry y x).length = es.filter fun y => !belowEntry y x := by
  have hw : es.filter (fun y => !belowEntry y x) = es.dropWhile fun y => y.path.startsWith x.path := by
    have hwo := without_eq_stepOver h
    simpa only [Stepper.without,Iter.stepOver,hx,if_true] using hwo
  have hsplit := List.takeWhile_append_dropWhile (p := fun y : BitIndexEntry => y.path.startsWith x.path) (l := es)
  rw [← hw] at hsplit
  have hin : (es.takeWhile fun y => y.path.startsWith x.path).filter (fun y => !belowEntry y x) = [] := by
    have hf := congrArg (List.filter fun y => !belowEntry y x) hsplit
    rw [List.filter_append,List.filter_filter] at hf
    simpa using hf
  have hall : ∀ y ∈ es.takeWhile (fun y => y.path.startsWith x.path), belowEntry y x = true := by
    simpa using List.filter_eq_nil_iff.mp hin
  have hlen : es.filter (fun y => belowEntry y x) = es.takeWhile fun y => y.path.startsWith x.path := by
    conv_lhs => rw [← hsplit]
    rw [List.filter_append,List.filter_eq_self.mpr hall,List.filter_filter]
    simp
  have hd : ((es.takeWhile fun y => y.path.startsWith x.path)++es.filter fun y => !belowEntry y x).drop
      (es.takeWhile fun y => y.path.startsWith x.path).length = es.filter fun y => !belowEntry y x := List.drop_left
  rw [hlen]
  rwa [hsplit] at hd

/-- What a skip of all below an entry does, while fewer entries than `n` are left. -/
def Skips (idx : BitIndexInner) (skip : BitIndexEntry → EStateM IterError IndexTreeIter Unit) (n : ℕ) : Prop :=
  ∀ t l x, Started idx t l → Preorder (x::l) → l.length < n →
    ∃ u, skip x t = .ok () u ∧ Started idx u (l.filter fun y => !belowEntry y x)

theorem length_without (l : List BitIndexEntry) : (Stepper.without belowEntry l).length ≤ l.tail.length := by
  cases l with
  | nil => exact le_rfl
  | cons x l => exact List.length_filter_le _ _

section
variable (hsane : idx.Sane)
include hsane

theorem Holds.preorder (h : Holds idx iter l) : Preorder l := by
  rcases h with ⟨-,rfl⟩ | h
  · exact hsane.preorder
  · exact hsane.preorder.sublist h.listed

/-- None of the entries below a directory that was just entered were passed. -/
theorem Entered.length_under {d : BitPath} (h : Entered idx t d) (hs : t.entryIter <:+ idx.entries) :
    (idx.under d).length = (t.entryIter.filter fun e => e.path.below d).length := by
  obtain ⟨passed,hp⟩ := hs
  have hnone : passed.filter (fun e => e.path.below d) = [] := by
    refine List.filter_eq_nil_iff.mpr fun e he hb => ?_
    have hnd := hsane.valid.nodup
    rw [← hp] at hnd
    exact List.disjoint_of_nodup_append hnd he (h.ahead e (hp ▸ List.mem_append_left _ he) hb)
  rw [BitIndexInner.under,← hp,List.filter_append,hnone,List.nil_append]

/-- The count of the cache takes the entries to the first one that is not below the directory. -/
theorem Started.passed (h : Started idx t l) (hp : Preorder (x::l)) (hx : x.isTree) (hent : Entered idx t x.path)
    (hnone : t.peeked = none) :
    Started idx {t with entryIter := t.entryIter.drop (idx.under x.path).length} (l.filter fun y => !belowEntry y x) := by
  have hl : l = idx.indexTreeIterFrom t.pseudotrees t.entryIter := by rw [h.list,hnone]; rfl
  have hdrop : t.entryIter.drop (idx.under x.path).length = t.entryIter.filter fun e => !e.path.below x.path := by
    rw [hent.length_under hsane h.suffix]
    refine drop_below (hp.sublist (List.Sublist.cons_cons x ?_)) hx
    rw [hl]
    exact BitIndexInner.sublist_indexTreeIterFrom _ _
  rw [hdrop]
  refine ⟨h.root,h.closed,?_,?_,by simp [hnone],?_,List.filter_sublist.trans h.listed⟩
  · rw [← hdrop]
    exact (List.drop_suffix _ _).trans h.suffix
  · intro a ha hna b hb d hda hdb
    obtain ⟨hbt,hbx⟩ := List.mem_filter.mp hb
    by_cases hat : a ∈ t.entryIter
    · -- passed just now, so it is below the directory and the other is not
      have hax : a.path.below x.path = true := by
        by_contra hnot
        exact hna (List.mem_filter.mpr ⟨hat,by simp [hnot]⟩)
      have hadx := (BitPath.below_iff.mp hax).1
      rcases List.prefix_or_prefix_of_prefix (BitPath.below_iff.mp hda).1 hadx with hd | hd
      · exact h.closed _ hent.seen d hd
      · have hbx' : b.path.below x.path = true := by
          obtain ⟨hbd,hne⟩ := BitPath.below_iff.mp hdb
          refine BitPath.below_iff.mpr ⟨hd.trans hbd,fun he => hne ?_⟩
          exact ((he ▸ hd : b.path <+: d).eq_of_length_le hbd.length_le)
        simp [hbx'] at hbx
    · exact h.shared a ha hat b hbt d hda hdb
  · rw [hnone,Option.toList_none,List.nil_append,hl]
    refine (BitIndexInner.indexTreeIterFrom_filter ?_ fun q hq => h.closed _ hent.seen q hq).symm
    exact fun e he => ne_nil_of_mem hsane (h.suffix.subset he)

theorem stepOverWith_spec (hskip : Skips idx skip n) (h : Holds idx iter l) (hn : l.length ≤ n) :
    ∃ t, stepOverWith idx skip iter = .ok l.head? t ∧ Started idx t (Stepper.without belowEntry l) := by
  obtain ⟨t,ht⟩ := h.nexts hsane
  have hp := h.preorder hsane
  rw [stepOverWith,bind_of_ok ht.run]
  cases l with
  | nil => exact ⟨t,rfl,ht.started⟩
  | cons x l =>
    have hs : Started idx t l := ht.started
    by_cases hx : x.isTree = true
    · simp only [List.head?_cons,hx,if_true,stepOverTree]
      have hent := ht.entered x rfl hx
      cases hc : idx.treeCache.bind fun cache => cache.findValidChild x.path with
      | some c =>
        refine ⟨_,rfl,?_⟩
        rw [hsane.count hc,Int.toNat_natCast]
        exact hs.passed hsane hp hx hent ht.nonePeeked
      | none =>
        obtain ⟨u,hu,hsu⟩ := hskip t l x hs hp hn
        exact ⟨u,bind_of_ok hu,hsu⟩
    · rw [Bool.not_eq_true] at hx
      simp only [List.head?_cons,hx,Bool.false_eq_true,if_false]
      refine ⟨t,rfl,?_⟩
      rw [without_eq_stepOver hp]
      simpa only [Iter.stepOver,hx,Bool.false_eq_true,if_false] using hs

theorem stepOverChildren_spec (fuel : ℕ) : Skips idx (stepOverChildren idx fuel) fuel := by
  induction fuel with
  | zero => exact fun t l x _ _ hlt => absurd hlt (Nat.not_lt_zero _)
  | succ fuel ih =>
    intro t l x h hp hlt
    obtain ⟨u,hu,hsu⟩ := Holds.peeks hsane (.inr h)
    rw [stepOverChildren,bind_of_ok hu]
    cases l with
    | nil => exact ⟨u,rfl,hsu⟩
    | cons y l =>
      by_cases hy : y.path.startsWith x.path = true
      · simp only [List.head?_cons,hy,if_true]
        obtain ⟨v,hv,hsv⟩ := stepOverWith_spec hsane ih (.inr hsu) (Nat.le_of_lt_succ hlt)
        have hsub : (Stepper.without belowEntry (y::l)).Sublist (y::l) := List.filter_sublist.cons y
        obtain ⟨w,hw,hsw⟩ := ih v _ x hsv (hp.sublist (hsub.cons_cons x))
          (lt_of_le_of_lt (length_without _) (Nat.lt_of_succ_lt_succ hlt))
        refine ⟨w,by rw [bind_of_ok hv]; exact hw,?_⟩
        have hyx : belowEntry y x = true :=
          belowEntry_iff.mpr ⟨BitPath.startsWith_iff.mp hy,fun he => hp.1 y List.mem_cons_self (he ▸ List.prefix_rfl)⟩
        have hfilter : (y::l).filter (fun z => !belowEntry z x) =
            (Stepper.without belowEntry (y::l)).filter fun z => !belowEntry z x := by
          rw [List.filter_cons_of_neg (by simp [hyx]),Stepper.without,List.filter_filter]
          refine List.filter_congr fun z _ => ?_
          by_cases hz : belowEntry z y = true
          · have hzx : belowEntry z x = true := BitPath.below_of_prefix hyx (belowEntry_iff.mp hz).1
            simp [hzx]
          · simp [hz]
        rwa [hfilter]
      · rw [Bool.not_eq_true] at hy
        simp only [List.head?_cons,hy,Bool.false_eq_true,if_false]
        refine ⟨u,rfl,?_⟩
        have hkeep : (y::l).filter (fun z => !belowEntry z x) = y::l := by
          refine List.filter_eq_self.mpr fun z hz => ?_
          rw [Bool.not_eq_true',Bool.eq_false_iff,ne_eq,belowEntry_iff]
          intro hb
          apply hp.2.1 z _ hb.1
          by_cases hx : x.isTree = true
          · simpa only [Iter.stepOver,hx,if_true,List.dropWhile_cons,hy,Bool.false_eq_true,if_false] using hz
          · simpa only [Iter.stepOver,hx,Bool.false_eq_true,if_false] using hz
        rwa [hkeep]

/-- With fuel for all the entries there are. -/
theorem implements {fuel : ℕ} (hfuel : idx.indexTreeIter.length ≤ fuel) :
    (iterator idx fuel).Implements belowEntry (Holds idx) fun _ => True where
  next s l h := (h.nexts hsane).imp fun t ht => ⟨ht.run,.inr ht.started⟩
  peek s l h := (h.peeks hsane).imp fun t ht => ⟨ht.1,.inr ht.2⟩
  stepOver s l h _ := by
    have hlen : l.length ≤ fuel := by
      rcases h with ⟨-,rfl⟩ | h
      · exact hfuel
      · exact h.listed.length_le.trans hfuel
    exact (stepOverWith_spec hsane (stepOverChildren_spec hsane fuel) h hlen).imp fun t ht => ⟨ht.1,.inr ht.2⟩

end

theorem holds_new (idx : BitIndexInner) : Holds idx (new idx) idx.indexTreeIter := .inl ⟨rfl,rfl⟩

end
end IndexTreeIter
end Iterators
end Libbit
