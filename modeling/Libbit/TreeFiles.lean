import Libbit.TreeSpec

/-! A tree and the list of its files say the same thing: files in the order of the bytes of their
paths are the files of exactly one tree whose siblings are in git's order. -/
namespace Libbit

open Lib

section Order

theorem entryLt_asymm {x y : Name × Bool} (h : entryLt x y) : entryLt y x = false := by
  simp only [entryLt,pathCmpExplicit,decide_eq_true_eq,decide_eq_false_iff_not,Ordering.then_eq_lt,Tree.cmp_lt,
    Tree.cmp_eq,cmp_eq_lt_iff,min_comm y.1.length] at *
  rcases h with h | ⟨h,h'⟩
  · rintro (h₁ | ⟨h₁,-⟩)
    · exact lt_asymm h h₁
    · exact h.ne h₁.symm
  · rintro (h₁ | ⟨-,h₁⟩)
    · exact h₁.ne h.symm
    · exact lt_asymm h' h₁

theorem entryLt_irrefl (x : Name × Bool) : ¬entryLt x x := fun h => by simpa [h] using entryLt_asymm h

/-- The byte that ends a name in the order of siblings. -/
def terminator (isDir : Bool) : Byte := if isDir then SLASH else 0

theorem terminator_injective {b b' : Bool} (h : terminator b = terminator b') : b = b' := by
  revert h
  cases b <;> cases b' <;> decide

theorem terminator_not_mem {n : Name} (hn : SLASH ∉ n ∧ 0 ∉ n) (b : Bool) : terminator b ∉ n := by
  cases b
  · exact hn.2
  · exact hn.1

/-- A name that starts with another: the byte after it decides, and it is no terminator. -/
theorem eq_of_extends {n s : Name} {b b' : Bool} (hm : SLASH ∉ n++s ∧ 0 ∉ n++s)
    (h : (s.head?).getD (terminator b') = terminator b) : (n,b) = (n++s,b') := by
  cases s with
  | nil => simp [terminator_injective (by simpa using h.symm)]
  | cons y s =>
    obtain rfl : y = terminator b := by simpa using h
    exact absurd (by simp) (terminator_not_mem hm b)

/-- The order of siblings is total on the names that a directory can hold. -/
theorem entryLt_total {x y : Name × Bool} (hx : SLASH ∉ x.1 ∧ 0 ∉ x.1) (hy : SLASH ∉ y.1 ∧ 0 ∉ y.1)
    (h : ¬entryLt x y) (h' : ¬entryLt y x) : x = y := by
  obtain ⟨n,b⟩ := x
  obtain ⟨m,b'⟩ := y
  simp only [entryLt,pathCmpExplicit,decide_eq_true_eq,Ordering.then_eq_lt,Tree.cmp_lt,
    Tree.cmp_eq,cmp_eq_lt_iff,min_comm m.length,not_or,not_and] at h h'
  have heq : n.take (min n.length m.length) = m.take (min n.length m.length) :=
    le_antisymm (not_lt.mp h'.1) (not_lt.mp h.1)
  have hnext := le_antisymm (not_lt.mp (h'.2 heq.symm)) (not_lt.mp (h.2 heq))
  rcases le_total n.length m.length with hle | hle
  · rw [min_eq_left hle,List.take_length] at heq
    obtain ⟨s,rfl⟩ := List.prefix_iff_eq_take.mpr heq
    rw [min_eq_left hle,List.getElem?_eq_none le_rfl,List.getElem?_append_right le_rfl,Nat.sub_self] at hnext
    exact eq_of_extends hy (by simpa [terminator,List.head?_eq_getElem?] using hnext.symm)
  · rw [min_eq_right hle,List.take_length] at heq
    obtain ⟨s,rfl⟩ := List.prefix_iff_eq_take.mpr heq.symm
    rw [min_eq_right hle,List.getElem?_append_right le_rfl,List.getElem?_eq_none le_rfl,Nat.sub_self] at hnext
    exact (eq_of_extends hx (by simpa [terminator,List.head?_eq_getElem?] using hnext)).symm

end Order

namespace BitPath

/-- Strictly below a directory. -/
def below (p d : BitPath) : Bool := p.startsWith d && p ≠ d

theorem below_iff {p d : BitPath} : p.below d ↔ d <+: p ∧ p ≠ d := by simp [below,startsWith_iff]

end BitPath

namespace Tree

/-- The entries of such a tree are in order already. -/
theorem Canonical.sort {t : Tree} (h : t.Canonical) : Forest.sort entryLt t = t := by
  induction t with
  | nil => rfl
  | leaf n a rest ih =>
    rw [Forest.sort,ih h.2.2]
    cases rest with
    | nil => rfl
    | leaf m b rest => simp [Forest.insertLeaf,entryLt_asymm (h.2.1 (m,false) (by simp [siblings]))]
    | node m sub rest => simp [Forest.insertLeaf,entryLt_asymm (h.2.1 (m,true) (by simp [siblings]))]
  | node n sub rest ihs ihr =>
    rw [Forest.sort,ihs h.2.2.2.1,ihr h.2.2.2.2]
    cases rest with
    | nil => rfl
    | leaf m b rest => simp [Forest.insertNode,entryLt_asymm (h.2.1 (m,false) (by simp [siblings]))]
    | node m sub rest => simp [Forest.insertNode,entryLt_asymm (h.2.1 (m,true) (by simp [siblings]))]

theorem Canonical.normal_of_sibling {t : Tree} (h : t.Canonical) {y : Name × Bool} (hy : y ∈ t.siblings) : NormalName y.1 := by
  induction t with
  | nil => simp [siblings] at hy
  | leaf n a rest ih =>
    rcases List.mem_cons.mp hy with rfl | hy
    · exact h.1
    · exact ih h.2.2 hy
  | node n sub rest _ ih =>
    rcases List.mem_cons.mp hy with rfl | hy
    · exact h.1
    · exact ih h.2.2.2.2 hy

/-- There is a file at or below every child. -/
theorem Canonical.file_of_sibling {t : Tree} (h : t.Canonical) {y : Name × Bool} (hy : y ∈ t.siblings) (pre : BitPath) :
    ∃ x ∈ t.flatten pre, ∃ q, x.1 = pre++y.1::q ∧ (y.2 = true ↔ q ≠ []) := by
  induction t with
  | nil => simp [siblings] at hy
  | leaf n a rest ih =>
    rcases List.mem_cons.mp hy with rfl | hy
    · exact ⟨(pre++[n],a),by simp [flatten],[],by simp⟩
    · obtain ⟨x,hx,hq⟩ := ih h.2.2 hy
      exact ⟨x,by simp [flatten,hx],hq⟩
  | node n sub rest _ ih =>
    rcases List.mem_cons.mp hy with rfl | hy
    · obtain ⟨x,hx⟩ := List.exists_mem_of_ne_nil _ (h.2.2.2.1.flatten_ne_nil h.2.2.1 (pre++[n]))
      obtain ⟨z,-,q,hq,-⟩ := flatten_append hx
      exact ⟨x,by simp [flatten,hx],z.1::q,by simp [hq]⟩
    · obtain ⟨x,hx,hq⟩ := ih h.2.2.2.2 hy
      exact ⟨x,by simp [flatten,hx],hq⟩

theorem Canonical.normal_of_flatten {t : Tree} (h : t.Canonical) {pre : BitPath} (hpre : pre.Normal)
    {x : BitPath × BlobMode × Bytes} (hx : x ∈ t.flatten pre) : x.1.Normal := by
  induction t generalizing pre with
  | nil => simp [flatten] at hx
  | leaf n a rest ih =>
    rcases List.mem_cons.mp hx with rfl | hx
    · exact hpre.concat h.1
    · exact ih h.2.2 hpre hx
  | node n sub rest ihs ihr =>
    rcases List.mem_append.mp hx with hx | hx
    · exact ihs h.2.2.2.1 (hpre.concat h.1) hx
    · exact ihr h.2.2.2.2 hpre hx

theorem flatten_map (pre : BitPath) (t : Tree) : t.flatten pre = (t.flatten []).map fun x => (pre++x.1,x.2) := by
  have hgen (base : BitPath) : t.flatten (pre++base) = (t.flatten base).map fun x => (pre++x.1,x.2) := by
    induction t generalizing base with
    | nil => rfl
    | leaf n a rest ih => simp [flatten,ih]
    | node n sub rest ihs ihr => simp [flatten,← ihs,← ihr]
  simpa using hgen []

section OfFiles

/-- Put a file before all others: into the first directory if it lies below it. -/
def prepend (a : BlobMode × Bytes) : BitPath → Tree → Tree
  | [], t => t
  | [n], t => .leaf n a t
  | n::m::q, .node n' sub rest =>
    if n = n' then .node n (prepend a (m::q) sub) rest else .node n (prepend a (m::q) .nil) (.node n' sub rest)
  | n::m::q, .leaf n' b rest => .node n (prepend a (m::q) .nil) (.leaf n' b rest)
  | n::m::q, .nil => .node n (prepend a (m::q) .nil) .nil

/-- The tree with these files, listed in the order of their paths. -/
def ofFiles (l : List (BitPath × BlobMode × Bytes)) : Tree := l.foldr (fun x t => prepend x.2 x.1 t) .nil

theorem flatten_prepend (a : BlobMode × Bytes) {q : BitPath} (hq : q ≠ []) (pre : BitPath) (t : Tree) :
    (prepend a q t).flatten pre = (pre++q,a)::t.flatten pre := by
  fun_induction prepend a q t generalizing pre with
  | case1 => exact absurd rfl hq
  | case2 => rfl
  | case3 m q n sub rest ih => simp [flatten,ih]
  | case4 n m q n' sub rest hne ih => simp [flatten,ih]
  | case5 n m q n' b rest ih => simp [flatten,ih]
  | case6 n m q ih => simp [flatten,ih]

theorem flatten_ofFiles {l : List (BitPath × BlobMode × Bytes)} (hl : ∀ x ∈ l, x.1 ≠ []) : (ofFiles l).flatten [] = l := by
  induction l with
  | nil => rfl
  | cons x l ih =>
    have hrest := ih fun y hy => hl y (List.mem_cons_of_mem _ hy)
    rw [ofFiles,List.foldr_cons,flatten_prepend _ (hl x List.mem_cons_self)]
    simpa [ofFiles] using hrest

theorem prepend_ne_nil (a : BlobMode × Bytes) {q : BitPath} (hq : q ≠ []) (t : Tree) : prepend a q t ≠ .nil := by
  fun_cases prepend a q t <;> simp_all

/-- What lies between two paths below a directory in the order of the bytes lies below it. -/
theorem below_of_between {d x p q : BitPath} (hd : d ≠ []) (hdn : d.Normal) (hxn : x.Normal) (hp : d <+: p) (hpd : d ≠ p)
    (hq : d <+: q) (hqd : d ≠ q) (h₁ : p.asBytes < x.asBytes) (h₂ : x.asBytes < q.asBytes) : d <+: x ∧ d ≠ x := by
  obtain ⟨s,hs⟩ := BitPath.asBytes_prefix hd hp hpd
  obtain ⟨t,ht⟩ := BitPath.asBytes_prefix hd hq hqd
  refine BitPath.prefix_of_asBytes hd hdn hxn (BitPath.prefix_of_between (t := t) ?_ ?_)
  · intro h
    have hlt : x.asBytes < p.asBytes := lt_of_lt_of_le h (hs ▸ not_lt.mp List.le_append_left)
    exact lt_asymm h₁ hlt
  · rw [ht]
    exact lt_asymm h₂

section Prepend
variable {t : Tree} {pre q : BitPath} {n : Name}

/-- A file before all others is in or below the first child, or in or below a new one. -/
theorem Canonical.entryLt_of_before (ht : t.Canonical) (hn : NormalName n)
    (hlt : ∀ x ∈ t.flatten pre, (pre++n::q).asBytes < x.1.asBytes) {b : Bool} (hb : b = true ↔ q ≠ []) {y : Name × Bool}
    (hy : y ∈ t.siblings) (hne : b = true → y ≠ (n,true)) :
    entryLt (n,b) y := by
  obtain ⟨x,hx,q',hq',hqy⟩ := ht.file_of_sibling hy pre
  have hxlt := hlt x hx
  rw [hq'] at hxlt
  by_contra hnot
  have hrev : ¬entryLt y (n,b) := fun h => lt_asymm hxlt (lt_of_siblings h hqy hb)
  obtain rfl := entryLt_total hn.2.2.2 (ht.normal_of_sibling hy).2.2.2 hnot hrev
  cases b with
  | true => exact hne rfl rfl
  | false =>
    obtain rfl : q = [] := by simpa using hb
    obtain rfl : q' = [] := by simpa using hqy
    exact lt_irrefl _ hxlt

/-- If it lies below a directory of the tree, then that is the first child. -/
theorem Canonical.not_mem_of_before (ht : t.Canonical) (hpre : pre.Normal) (hn : NormalName n) (hq : q ≠ [])
    (hlt : ∀ x ∈ t.flatten pre, (pre++n::q).asBytes < x.1.asBytes) (hhead : t.siblings.head? ≠ some (n,true)) :
    (n,true) ∉ t.siblings := by
  intro hmem
  obtain ⟨z,hz,hzn⟩ : ∃ z, t.siblings.head? = some z ∧ entryLt z (n,true) := by
    cases t with
    | nil => simp [siblings] at hmem
    | leaf m a rest => exact ⟨(m,false),rfl,ht.2.1 _ (by simpa [siblings] using hmem)⟩
    | node m sub rest =>
      refine ⟨(m,true),rfl,ht.2.1 _ ?_⟩
      rcases List.mem_cons.mp hmem with h | h
      · exact absurd (by rw [h]; rfl) hhead
      · exact h
  have hzmem : z ∈ t.siblings := List.mem_of_mem_head? hz
  obtain ⟨x,hx,q₁,hq₁,hqz⟩ := ht.file_of_sibling hzmem pre
  obtain ⟨x',hx',q₂,hq₂,hqn⟩ := ht.file_of_sibling hmem pre
  have hbetween : pre++[n] <+: x.1 ∧ pre++[n] ≠ x.1 := by
    refine below_of_between (p := pre++n::q) (q := x'.1) (by simp) (hpre.concat hn) (ht.normal_of_flatten hpre hx) ?_ ?_ ?_ ?_
      (hlt x hx) ?_
    · exact ⟨q,by simp⟩
    · simpa using hq.symm
    · exact ⟨q₂,by simp [hq₂]⟩
    · simpa [hq₂] using (hqn.mp rfl).symm
    · rw [hq₁,hq₂]
      exact lt_of_siblings hzn hqz hqn
  obtain ⟨⟨s,hs⟩,hne⟩ := hbetween
  obtain ⟨rfl,rfl⟩ : n = z.1 ∧ s = q₁ := by simpa [hq₁] using hs
  have hdir : z.2 = true := hqz.mpr fun h => hne (by simp [hq₁,h])
  exact hhead (by rw [hz,← hdir])

/-- A new directory with one file in it, before all other children. -/
theorem Canonical.new_node (ht : t.Canonical) (hpre : pre.Normal) (hn : NormalName n) (hq : q ≠ [])
    (hlt : ∀ x ∈ t.flatten pre, (pre++n::q).asBytes < x.1.asBytes) (hhead : t.siblings.head? ≠ some (n,true)) {sub : Tree}
    (hne : sub ≠ .nil) (hsub : sub.Canonical) : Canonical (.node n sub t) := by
  have hnot := ht.not_mem_of_before hpre hn hq hlt hhead
  refine ⟨hn,fun y hy => ?_,hne,hsub,ht⟩
  exact ht.entryLt_of_before hn hlt (by simp [hq]) hy fun _ h => hnot (h ▸ hy)

theorem Canonical.prepend {a : BlobMode × Bytes} (ht : t.Canonical) (hpre : pre.Normal) (hq : q ≠ []) (hqn : q.Normal)
    (hlt : ∀ x ∈ t.flatten pre, (pre++q).asBytes < x.1.asBytes) : (Tree.prepend a q t).Canonical := by
  fun_induction Tree.prepend a q t generalizing pre with
  | case1 => exact absurd rfl hq
  | case2 n t =>
    have hn := hqn n (by simp)
    exact ⟨hn,fun y hy => ht.entryLt_of_before (q := []) hn hlt (by simp) hy (by simp),ht⟩
  | case3 m q n sub rest ih =>
    have hn := hqn n (by simp)
    refine ⟨hn,ht.2.1,prepend_ne_nil a (by simp) sub,?_,ht.2.2.2.2⟩
    refine ih ht.2.2.2.1 (hpre.concat hn) (by simp) (fun x hx => hqn x (List.mem_cons_of_mem _ hx)) fun x hx => ?_
    simpa using hlt x (by simp [flatten,hx])
  | case4 n m q n' sub rest hne ih =>
    have hn := hqn n (by simp)
    have hhead : (siblings (.node n' sub rest)).head? ≠ some (n,true) := by simpa [siblings] using Ne.symm hne
    refine ht.new_node hpre hn (by simp) hlt hhead (prepend_ne_nil a (by simp) _) ?_
    exact ih trivial (hpre.concat hn) (by simp) (fun x hx => hqn x (List.mem_cons_of_mem _ hx)) (by simp [flatten])
  | case5 n m q n' b rest ih =>
    have hn := hqn n (by simp)
    refine ht.new_node hpre hn (by simp) hlt (by simp [siblings]) (prepend_ne_nil a (by simp) _) ?_
    exact ih trivial (hpre.concat hn) (by simp) (fun x hx => hqn x (List.mem_cons_of_mem _ hx)) (by simp [flatten])
  | case6 n m q ih =>
    have hn := hqn n (by simp)
    refine ht.new_node hpre hn (by simp) hlt (by simp [siblings]) (prepend_ne_nil a (by simp) _) ?_
    exact ih trivial (hpre.concat hn) (by simp) (fun x hx => hqn x (List.mem_cons_of_mem _ hx)) (by simp [flatten])

end Prepend

/-- Files in order make up a tree in order. -/
theorem canonical_ofFiles {l : List (BitPath × BlobMode × Bytes)} (hl : ∀ x ∈ l, x.1 ≠ [] ∧ x.1.Normal)
    (hs : l.Pairwise fun x y => x.1.asBytes < y.1.asBytes) : (ofFiles l).Canonical := by
  induction l with
  | nil => trivial
  | cons x l ih =>
    obtain ⟨hx,hs⟩ := List.pairwise_cons.mp hs
    have hl' : ∀ y ∈ l, y.1 ≠ [] ∧ y.1.Normal := fun y hy => hl y (List.mem_cons_of_mem _ hy)
    obtain ⟨hne,hn⟩ := hl x List.mem_cons_self
    refine (ih hl' hs).prepend (by simp [BitPath.Normal] : BitPath.Normal []) hne hn fun y hy => ?_
    rw [flatten_ofFiles fun y hy => (hl' y hy).1] at hy
    exact hx y hy

/-- The files of a directory, put before what does not start with it. -/
theorem foldr_prepend_below (n : Name) {rest : Tree} (hrest : rest.siblings.head? ≠ some (n,true))
    {l : List (BitPath × BlobMode × Bytes)} (hl : ∀ x ∈ l, x.1 ≠ []) :
    (l.map fun x => (n::x.1,x.2)).foldr (fun x t => Tree.prepend x.2 x.1 t) rest =
      if l = [] then rest else .node n (ofFiles l) rest := by
  have hnew (a : BlobMode × Bytes) (q : BitPath) (hq : q ≠ []) :
      Tree.prepend a (n::q) rest = .node n (Tree.prepend a q .nil) rest := by
    cases q with
    | nil => exact absurd rfl hq
    | cons m q =>
      cases rest with
      | nil => rfl
      | leaf k b rest => rfl
      | node k sub rest =>
        have hk : n ≠ k := fun h => hrest (by simp [siblings,h])
        simp [Tree.prepend,hk]
  have hold (a : BlobMode × Bytes) (q : BitPath) (hq : q ≠ []) (sub : Tree) :
      Tree.prepend a (n::q) (.node n sub rest) = .node n (Tree.prepend a q sub) rest := by
    cases q with
    | nil => exact absurd rfl hq
    | cons m q => simp [Tree.prepend]
  induction l with
  | nil => rfl
  | cons x l ih =>
    have hx := hl x List.mem_cons_self
    rw [List.map_cons,List.foldr_cons,ih fun y hy => hl y (List.mem_cons_of_mem _ hy)]
    by_cases hnil : l = []
    · subst hnil
      simp [hnew x.2 x.1 hx,ofFiles]
    · simp [hnil,hold x.2 x.1 hx,ofFiles]

theorem Canonical.not_mem_rest {n : Name} {sub rest : Tree} (h : Canonical (.node n sub rest)) : (n,true) ∉ rest.siblings :=
  fun hmem => entryLt_irrefl _ (h.2.1 _ hmem)

/-- Nothing after a directory has its name: a file of that name comes before it. -/
theorem Canonical.ne_of_rest {n : Name} {sub rest : Tree} (h : Canonical (.node n sub rest)) {y : Name × Bool}
    (hy : y ∈ rest.siblings) : y.1 ≠ n := by
  rintro rfl
  obtain ⟨m,b⟩ := y
  have hlt := h.2.1 _ hy
  have hslash : cmp SLASH (0 : Byte) = .gt := by decide
  have hself : cmp m m = .eq := cmp_eq.mpr rfl
  cases b <;> simp [entryLt,pathCmpExplicit,hself,hslash] at hlt

/-- A tree in order is known by its files. -/
theorem Canonical.ofFiles_flatten {t : Tree} (h : t.Canonical) : ofFiles (t.flatten []) = t := by
  induction t with
  | nil => rfl
  | leaf n a rest ih => simpa [ofFiles,flatten,Tree.prepend] using ih h.2.2
  | node n sub rest ihs ihr =>
    have hhead : (siblings rest).head? ≠ some (n,true) := fun hh => h.not_mem_rest (List.mem_of_mem_head? hh)
    have hne : ∀ x ∈ flatten [] sub, x.1 ≠ [] := fun x hx => by
      obtain ⟨y,-,q,hq,-⟩ := flatten_append hx
      simp [hq]
    have hrest : (flatten [] rest).foldr (fun x t => Tree.prepend x.2 x.1 t) .nil = rest := ihr h.2.2.2.2
    rw [ofFiles,flatten,List.foldr_append,hrest,flatten_map]
    simp only [List.nil_append,List.singleton_append]
    rw [foldr_prepend_below n hhead hne,ihs h.2.2.2.1]
    simp [h.2.2.2.1.flatten_ne_nil h.2.2.1]

theorem Canonical.eq_of_flatten {t t' : Tree} (h : t.Canonical) (h' : t'.Canonical) {pre : BitPath}
    (heq : t.flatten pre = t'.flatten pre) : t = t' := by
  have hinj : Function.Injective fun x : BitPath × BlobMode × Bytes => (pre++x.1,x.2) := fun x y hxy => by
    simpa [Prod.ext_iff] using hxy
  rw [flatten_map pre t,flatten_map pre t'] at heq
  rw [← h.ofFiles_flatten,← h'.ofFiles_flatten,List.map_injective_iff.mpr hinj heq]

end OfFiles
section Dirs
variable {t s : Tree} {pre d : BitPath}

/-- The tree of a directory below another, in which that directory is the root. -/
def IsDir (t : Tree) (d : BitPath) (s : Tree) : Prop := d = [] ∧ s = t ∨ (d,.inr s) ∈ t.entries []

theorem Canonical.of_mem_entries (h : t.Canonical) (hs : (d,.inr s) ∈ t.entries pre) : s.Canonical ∧ s ≠ .nil := by
  induction t generalizing pre with
  | nil => simp [Forest.entries] at hs
  | leaf n a rest ih => exact ih h.2.2 (by simpa [Forest.entries] using hs)
  | node n sub rest ihs ihr =>
    simp only [Forest.entries,List.mem_cons,List.mem_append,Prod.mk.injEq,Sum.inr.injEq] at hs
    rcases hs with ⟨-,rfl⟩ | hs | hs
    · exact ⟨h.2.2.2.1,h.2.2.1⟩
    · exact ihs h.2.2.2.1 hs
    · exact ihr h.2.2.2.2 hs

/-- The path of a directory goes through a child that is a directory. -/
theorem dir_append (hs : (d,.inr s) ∈ t.entries pre) : ∃ n, (n,true) ∈ t.siblings ∧ ∃ q, d = pre++n::q := by
  induction t generalizing pre with
  | nil => simp [Forest.entries] at hs
  | leaf n a rest ih =>
    obtain ⟨m,hm,q,hq⟩ := ih (by simpa [Forest.entries] using hs)
    exact ⟨m,by simp [siblings,hm],q,hq⟩
  | node n sub rest ihs ihr =>
    simp only [Forest.entries,List.mem_cons,List.mem_append,Prod.mk.injEq,Sum.inr.injEq] at hs
    rcases hs with ⟨rfl,-⟩ | hs | hs
    · exact ⟨n,by simp [siblings],[],rfl⟩
    · obtain ⟨m,-,q,hq⟩ := ihs hs
      exact ⟨n,by simp [siblings],m::q,by simp [hq]⟩
    · obtain ⟨m,hm,q,hq⟩ := ihr hs
      exact ⟨m,by simp [siblings,hm],q,hq⟩

theorem filter_below_self (t : Tree) (pre : BitPath) : (t.flatten pre).filter (fun x => x.1.below pre) = t.flatten pre := by
  refine List.filter_eq_self.mpr fun x hx => ?_
  obtain ⟨y,-,q,hq,-⟩ := flatten_append hx
  simp [BitPath.below_iff,hq]

/-- Nothing of a tree lies below a directory that goes through none of its directories. -/
theorem filter_below_nil {n : Name} (hn : (n,true) ∉ t.siblings) (q : BitPath) :
    (t.flatten pre).filter (fun x => x.1.below (pre++n::q)) = [] := by
  refine List.filter_eq_nil_iff.mpr fun x hx hbelow => ?_
  obtain ⟨⟨s,hs⟩,hne⟩ := BitPath.below_iff.mp hbelow
  obtain ⟨⟨m,b⟩,hy,q',hq',hqy⟩ := flatten_append hx
  obtain ⟨rfl,rfl⟩ : n = m ∧ q++s = q' := by simpa [hq'] using hs
  have hb : b = true := hqy.mpr fun h => hne (by simp_all)
  exact hn (hb ▸ hy)

/-- The files of a directory are those below its path. -/
theorem Canonical.filter_below (h : t.Canonical) (hs : (d,.inr s) ∈ t.entries pre) :
    (t.flatten pre).filter (fun x => x.1.below d) = s.flatten d := by
  induction t generalizing pre with
  | nil => simp [Forest.entries] at hs
  | leaf n a rest ih =>
    have hs' : (d,.inr s) ∈ Forest.entries pre rest := by simpa [Forest.entries] using hs
    obtain ⟨m,-,q,hq⟩ := dir_append hs'
    have hn : BitPath.below (pre++[n]) d = false := by
      rw [Bool.eq_false_iff,ne_eq,BitPath.below_iff]
      rintro ⟨hp,hne⟩
      have hlen := hp.length_le
      rw [hq] at hp hlen hne
      obtain rfl : q = [] := by simpa using hlen
      exact hne (hp.eq_of_length (by simp)).symm
    rw [flatten,List.filter_cons]
    simpa [hn] using ih h.2.2 hs'
  | node n sub rest ihs ihr =>
    rw [flatten,List.filter_append]
    simp only [Forest.entries,List.mem_cons,List.mem_append,Prod.mk.injEq,Sum.inr.injEq] at hs
    rcases hs with ⟨rfl,rfl⟩ | hs | hs
    · rw [filter_below_self,filter_below_nil h.not_mem_rest,List.append_nil]
    · obtain ⟨m,-,q,hq⟩ := dir_append hs
      obtain rfl : d = pre++n::(m::q) := by simpa using hq
      rw [ihs h.2.2.2.1 hs,filter_below_nil h.not_mem_rest,List.append_nil]
    · obtain ⟨m,hm,q,rfl⟩ := dir_append hs
      rw [ihr h.2.2.2.2 hs,List.append_left_eq_self]
      refine List.filter_eq_nil_iff.mpr fun x hx hbelow => ?_
      obtain ⟨y,-,q',hq',-⟩ := flatten_append hx
      obtain ⟨⟨r,hr⟩,-⟩ := BitPath.below_iff.mp hbelow
      obtain ⟨rfl,-⟩ : m = n ∧ q++r = y.1::q' := by simpa [hq'] using hr
      exact h.not_mem_rest hm

theorem Canonical.filter_below_dir (h : t.Canonical) (hs : t.IsDir d s) :
    (t.flatten []).filter (fun x => x.1.below d) = s.flatten d := by
  rcases hs with ⟨rfl,rfl⟩ | hs
  · exact filter_below_self s []
  · exact h.filter_below hs

theorem Canonical.of_isDir (h : t.Canonical) (hs : t.IsDir d s) : s.Canonical := by
  rcases hs with ⟨-,rfl⟩ | hs
  · exact h
  · exact (h.of_mem_entries hs).1

end Dirs

end Tree

/-- The files of a tree as `TreeEntryIter` yields them. -/
theorem treeEntryIter_flatten (t : Tree) :
    treeEntryIter (.tree t) = (t.flatten []).map fun x => .ofTreeEntry ⟨.blob x.2.1,x.1,.blob x.2.2⟩ := by
  have hlist (pre : BitPath) : ((t.entries pre).map fun x => BitIndexEntry.ofTreeEntry (.ofItem x)).filter
      (fun e => !e.isTree) = (t.flatten pre).map fun x => .ofTreeEntry ⟨.blob x.2.1,x.1,.blob x.2.2⟩ := by
    induction t generalizing pre with
    | nil => rfl
    | leaf n a rest ih =>
      rw [Forest.entries,List.map_cons,List.filter_cons_of_pos rfl,ih]
      rfl
    | node n sub rest ihs ihr =>
      rw [Forest.entries,List.map_cons,List.filter_cons_of_neg (by simp [TreeEntry.ofItem,BitIndexEntry.ofTreeEntry,
        BitIndexEntry.isTree,FileMode.isTree]),List.map_append,List.filter_append,ihs,ihr,← List.map_append]
      rfl
  exact hlist []

end Libbit
