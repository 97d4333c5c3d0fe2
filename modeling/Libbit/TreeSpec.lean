import Libbit.Iter
import Libbit.IndexSpec

/-! Well-formed trees, and the order in which the iterators list them: the files of a tree come in
the order of the bytes of their paths, which is the order of the index, so that the directories
that the index makes up are those of the tree, at the same places. -/
namespace Libbit

open Lib

namespace Tree

/-- The children of a directory, directories with the flag set. -/
def siblings : Tree → List (Name × Bool)
  | .nil => []
  | .leaf n _ rest => (n,false)::siblings rest
  | .node n _ rest => (n,true)::siblings rest

/-- Siblings are ordered and have names of their own, no directory is empty, and no link has an
empty target. -/
def WellFormed : Tree → Prop
  | .nil => True
  | .leaf n a rest =>
    NormalName n ∧ (∀ y ∈ siblings rest, entryLt (n,false) y ∧ y.1 ≠ n) ∧ (a.1 = .LINK → a.2 ≠ []) ∧ WellFormed rest
  | .node n sub rest =>
    NormalName n ∧ (∀ y ∈ siblings rest, entryLt (n,true) y ∧ y.1 ≠ n) ∧ sub ≠ .nil ∧ WellFormed sub ∧ WellFormed rest

instance decidableWellFormed : (t : Tree) → Decidable t.WellFormed
  | .nil => isTrue trivial
  | .leaf n a rest => by
    have := decidableWellFormed rest
    unfold WellFormed NormalName
    infer_instance
  | .node n sub rest => by
    have := decidableWellFormed sub
    have := decidableWellFormed rest
    unfold WellFormed NormalName
    infer_instance

/-- Siblings are strictly ordered and no directory is empty. A file and a directory may share a
name, as they do in the tree of an index with a collision. -/
def Canonical : Tree → Prop
  | .nil => True
  | .leaf n _ rest => NormalName n ∧ (∀ y ∈ siblings rest, entryLt (n,false) y) ∧ Canonical rest
  | .node n sub rest =>
    NormalName n ∧ (∀ y ∈ siblings rest, entryLt (n,true) y) ∧ sub ≠ .nil ∧ Canonical sub ∧ Canonical rest

instance decidableCanonical : (t : Tree) → Decidable t.Canonical
  | .nil => isTrue trivial
  | .leaf n a rest => by
    have := decidableCanonical rest
    unfold Canonical NormalName
    infer_instance
  | .node n sub rest => by
    have := decidableCanonical sub
    have := decidableCanonical rest
    unfold Canonical NormalName
    infer_instance

theorem WellFormed.canonical {t : Tree} (h : t.WellFormed) : t.Canonical := by
  induction t with
  | nil => trivial
  | leaf n a rest ih => exact ⟨h.1,fun y hy => (h.2.1 y hy).1,ih h.2.2.2⟩
  | node n sub rest ihs ihr => exact ⟨h.1,fun y hy => (h.2.1 y hy).1,h.2.2.1,ihs h.2.2.2.1,ihr h.2.2.2.2⟩

/-- The files of a tree with their full paths. -/
def flatten (pre : BitPath) : Tree → List (BitPath × BlobMode × Bytes)
  | .nil => []
  | .leaf n a rest => (pre++[n],a)::flatten pre rest
  | .node n sub rest => flatten (pre++[n]) sub++flatten pre rest

/-- The directories of a tree with their full paths. -/
def dirs (pre : BitPath) : Tree → List BitPath
  | .nil => []
  | .leaf _ _ rest => dirs pre rest
  | .node n sub rest => (pre++[n])::(dirs (pre++[n]) sub++dirs pre rest)

theorem mem_names_iff {t : Tree} {n : Name} : n ∈ t.names ↔ ∃ b, (n,b) ∈ t.siblings := by
  induction t with
  | nil => simp [Forest.names,siblings]
  | leaf m a rest ih => simp [Forest.names,siblings,ih,exists_or]
  | node m sub rest _ ih => simp [Forest.names,siblings,ih,exists_or]

theorem WellFormed.distinct {t : Tree} (h : t.WellFormed) : t.Distinct := by
  induction t with
  | nil => trivial
  | leaf n a rest ih =>
    refine ⟨fun hn => ?_,ih h.2.2.2⟩
    obtain ⟨b,hb⟩ := mem_names_iff.mp hn
    exact (h.2.1 _ hb).2 rfl
  | node n sub rest ihs ihr =>
    refine ⟨fun hn => ?_,ihs h.2.2.2.1,ihr h.2.2.2.2⟩
    obtain ⟨b,hb⟩ := mem_names_iff.mp hn
    exact (h.2.1 _ hb).2 rfl

theorem mem_dirs {t : Tree} {pre d : BitPath} (h : d ∈ t.dirs pre) : ∃ n ∈ t.names, ∃ q, d = pre++n::q := by
  induction t generalizing pre with
  | nil => simp [dirs] at h
  | leaf n a rest ih =>
    obtain ⟨m,hm,q,hq⟩ := ih h
    exact ⟨m,by simp [Forest.names,hm],q,hq⟩
  | node n sub rest ihs ihr =>
    simp only [dirs,List.mem_cons,List.mem_append] at h
    rcases h with rfl | h | h
    · exact ⟨n,by simp [Forest.names],[],rfl⟩
    · obtain ⟨m,-,q,hq⟩ := ihs h
      exact ⟨n,by simp [Forest.names],m::q,by simp [hq]⟩
    · obtain ⟨m,hm,q,hq⟩ := ihr h
      exact ⟨m,by simp [Forest.names,hm],q,hq⟩

theorem Canonical.flatten_ne_nil {t : Tree} (h : t.Canonical) (ht : t ≠ .nil) (pre : BitPath) : t.flatten pre ≠ [] := by
  induction t generalizing pre with
  | nil => exact absurd rfl ht
  | leaf n a rest _ => simp [flatten]
  | node n sub rest ihs _ => simp [flatten,ihs h.2.2.2.1 h.2.2.1]

/-- The path of a file goes through a child. -/
theorem flatten_append {t : Tree} {pre : BitPath} {x : BitPath × BlobMode × Bytes} (h : x ∈ t.flatten pre) :
    ∃ y ∈ t.siblings, ∃ q, x.1 = pre++y.1::q ∧ (y.2 = true ↔ q ≠ []) := by
  induction t generalizing pre with
  | nil => simp [flatten] at h
  | leaf n a rest ih =>
    rcases List.mem_cons.mp h with rfl | h
    · exact ⟨(n,false),by simp [siblings],[],by simp⟩
    · obtain ⟨y,hy,q,hq⟩ := ih h
      exact ⟨y,by simp [siblings,hy],q,hq⟩
  | node n sub rest ihs ihr =>
    rcases List.mem_append.mp h with h | h
    · obtain ⟨y,-,q,hq,-⟩ := ihs h
      exact ⟨(n,true),by simp [siblings],y.1::q,by simp [hq]⟩
    · obtain ⟨y,hy,q,hq⟩ := ihr h
      exact ⟨y,by simp [siblings,hy],q,hq⟩

theorem mem_flatten_iff {t : Tree} {pre : BitPath} {x : BitPath × BlobMode × Bytes} :
    x ∈ t.flatten pre ↔ (x.1,Sum.inl x.2) ∈ t.entries pre := by
  induction t generalizing pre with
  | nil => simp [flatten,Forest.entries]
  | leaf n a rest ih => simp [flatten,Forest.entries,ih,Prod.ext_iff]
  | node n sub rest ihs ihr => simp [flatten,Forest.entries,ihs,ihr]

theorem WellFormed.mem_flatten {t : Tree} (h : t.WellFormed) {p : BitPath} {a : BlobMode × Bytes} :
    (p,a) ∈ t.flatten [] ↔ t.look p = some (some a) := by
  rw [mem_flatten_iff,← Forest.mem_entries_leaf h.distinct]
  rfl

theorem WellFormed.names {t : Tree} (h : t.WellFormed) : t.AllNames NormalName := by
  induction t with
  | nil => trivial
  | leaf n a rest ih => exact ⟨h.1,ih h.2.2.2⟩
  | node n sub rest ihs ihr => exact ⟨h.1,ihs h.2.2.2.1,ihr h.2.2.2.2⟩

theorem WellFormed.normal {t : Tree} (h : t.WellFormed) {p : BitPath} (hp : t.look p ≠ none) : p.Normal :=
  h.names.of_look hp

section Order

/-- What follows the name of a child in the path of a file: nothing after a file, a slash after
a directory. -/
def Follows (isDir : Bool) (t : Bytes) : Prop := if isDir then ∃ s, t = SLASH::s else t = []

theorem cmp_lt {a b : Bytes} : cmp a b = .lt ↔ a < b := by
  unfold cmp cmpUsing
  split <;> simp_all

theorem cmp_eq {a b : Bytes} : cmp a b = .eq ↔ a = b := by
  unfold cmp cmpUsing
  rcases lt_trichotomy a b with h | h | h
  · simp [h,h.ne]
  · simp [h]
  · simp [h,h.ne',lt_asymm h]

theorem cmp_gt {a b : Bytes} : cmp a b = .gt ↔ b < a := by
  unfold cmp cmpUsing
  rcases lt_trichotomy a b with h | h | h
  · simp [h,lt_asymm h]
  · simp [h]
  · simp [h,lt_asymm h]

theorem lt_of_take {a b : Bytes} {k : ℕ} (h : a.take k < b.take k) : a < b := by
  induction k generalizing a b with
  | zero => simp at h
  | succ k ih =>
    cases b with
    | nil => simp at h
    | cons y b =>
      cases a with
      | nil => exact List.nil_lt_cons y b
      | cons x a =>
        rw [List.take_succ_cons,List.take_succ_cons,List.cons_lt_cons_iff] at h
        rw [List.cons_lt_cons_iff]
        exact h.imp_right fun h => ⟨h.1,ih h.2⟩

theorem append_lt_append {l a b : Bytes} (h : a < b) : l++a < l++b := by
  induction l with
  | nil => simpa using h
  | cons x l ih => exact List.cons_lt_cons_iff.mpr (.inr ⟨rfl,ih⟩)

/-- The order of siblings is the order of the bytes of any files in or below them. -/
theorem lt_of_entryLt {n m : Name} {bn bm : Bool} {tn tm : Bytes} (h : entryLt (n,bn) (m,bm)) (hn : Follows bn tn)
    (hm : Follows bm tm) : n++tn < m++tm := by
  simp only [entryLt,pathCmpExplicit,decide_eq_true_eq,Ordering.then_eq_lt,cmp_lt,cmp_eq,cmp_eq_lt_iff] at h
  rcases h with h | ⟨heq,h⟩
  · have htake : (n++tn).take (min n.length m.length) < (m++tm).take (min n.length m.length) := by
      rwa [List.take_append_of_le_length (min_le_left _ _),List.take_append_of_le_length (min_le_right _ _)]
    exact lt_of_take htake
  · rcases le_total n.length m.length with hle | hle
    · -- n is a prefix of m: the byte after it decides
      rw [min_eq_left hle,List.take_length] at heq
      obtain ⟨m',rfl⟩ := List.prefix_iff_eq_take.mpr heq
      rw [min_eq_left hle,List.getElem?_eq_none le_rfl,List.getElem?_append_right le_rfl,Nat.sub_self] at h
      rw [List.append_assoc]
      refine append_lt_append ?_
      cases bn with
      | false =>
        obtain rfl : tn = [] := hn
        cases m' with
        | cons y m' => exact List.nil_lt_cons _ _
        | nil =>
          cases bm with
          | false => simp at h
          | true =>
            obtain ⟨s,rfl⟩ := hm
            exact List.nil_lt_cons _ _
      | true =>
        obtain ⟨s,rfl⟩ := hn
        cases m' with
        | cons y m' => exact List.cons_lt_cons_iff.mpr (.inl (by simpa using h))
        | nil => cases bm <;> simp at h
    · -- m is a prefix of n, and only a directory comes after what extends it
      rw [min_eq_right hle,List.take_length] at heq
      obtain ⟨n',rfl⟩ := List.prefix_iff_eq_take.mpr heq.symm
      rw [min_eq_right hle,List.getElem?_append_right le_rfl,List.getElem?_eq_none le_rfl,Nat.sub_self] at h
      rw [List.append_assoc]
      refine append_lt_append ?_
      cases bm with
      | false => simp at h
      | true =>
        obtain ⟨s,rfl⟩ := hm
        cases n' with
        | cons y n' => exact List.cons_lt_cons_iff.mpr (.inl (by simpa using h))
        | nil =>
          cases bn with
          | true => simp at h
          | false =>
            obtain rfl : tn = [] := hn
            exact List.nil_lt_cons _ _

/-- The bytes of a path below a directory: those of the directory, of the child, and what follows. -/
theorem asBytes_child (pre : BitPath) : ∃ l : Bytes, ∀ n q, ∃ t, (pre++n::q).asBytes = l++(n++t) ∧
    Follows (decide (q ≠ [])) t := by
  have hrest (n : Name) (q : BitPath) : ∃ t, BitPath.asBytes (n::q) = n++t ∧ Follows (decide (q ≠ [])) t := by
    cases q with
    | nil => exact ⟨[],by simp [BitPath.asBytes],rfl⟩
    | cons m q => exact ⟨SLASH::BitPath.asBytes (m::q),BitPath.asBytes_cons n (by simp),by simp [Follows]⟩
  by_cases hp : pre = []
  · subst hp
    exact ⟨[],hrest⟩
  · refine ⟨pre.asBytes++[SLASH],fun n q => ?_⟩
    obtain ⟨t,ht,hf⟩ := hrest n q
    exact ⟨t,by rw [BitPath.asBytes_append hp (by simp),ht]; simp,hf⟩

theorem lt_of_siblings {x y : Name × Bool} (h : entryLt x y) {pre p q : BitPath} (hp : x.2 = true ↔ p ≠ [])
    (hq : y.2 = true ↔ q ≠ []) : (pre++x.1::p).asBytes < (pre++y.1::q).asBytes := by
  obtain ⟨l,hl⟩ := asBytes_child pre
  obtain ⟨t,ht,hft⟩ := hl x.1 p
  obtain ⟨u,hu,hfu⟩ := hl y.1 q
  rw [ht,hu]
  have hx : decide (p ≠ []) = x.2 := Bool.eq_iff_iff.mpr (by simpa using hp.symm)
  have hy : decide (q ≠ []) = y.2 := Bool.eq_iff_iff.mpr (by simpa using hq.symm)
  exact append_lt_append (lt_of_entryLt h (hx ▸ hft) (hy ▸ hfu))

/-- Siblings are in order. -/
def Ordered : Tree → Prop
  | .nil => True
  | .leaf n _ rest => (∀ y ∈ siblings rest, entryLt (n,false) y) ∧ Ordered rest
  | .node n sub rest => (∀ y ∈ siblings rest, entryLt (n,true) y) ∧ Ordered sub ∧ Ordered rest

theorem Canonical.ordered {t : Tree} (h : t.Canonical) : t.Ordered := by
  induction t with
  | nil => trivial
  | leaf n a rest ih => exact ⟨h.2.1,ih h.2.2⟩
  | node n sub rest ihs ihr => exact ⟨h.2.1,ihs h.2.2.2.1,ihr h.2.2.2.2⟩

theorem Ordered.flatten_sorted {t : Tree} (h : t.Ordered) (pre : BitPath) :
    (t.flatten pre).Pairwise fun x y => x.1.asBytes < y.1.asBytes := by
  induction t generalizing pre with
  | nil => exact List.Pairwise.nil
  | leaf n a rest ih =>
    refine List.pairwise_cons.mpr ⟨fun x hx => ?_,ih h.2 pre⟩
    obtain ⟨y,hy,q,hq,hqy⟩ := flatten_append hx
    rw [hq]
    exact lt_of_siblings (h.1 y hy) (by simp) hqy
  | node n sub rest ihs ihr =>
    refine List.pairwise_append.mpr ⟨ihs h.2.1 _,ihr h.2.2 _,fun x hx x' hx' => ?_⟩
    obtain ⟨y,-,q,hq,-⟩ := flatten_append hx
    obtain ⟨y',hy',q',hq',hqy'⟩ := flatten_append hx'
    rw [hq,hq',List.append_assoc,List.singleton_append]
    exact lt_of_siblings (h.1 y' hy') (by simp) hqy'

end Order

end Tree

namespace BitIndexInner
variable {idx : BitIndexInner}

/-- The first directory above an entry that was not yielded yet is yielded first. -/
theorem indexTreeIterFrom_enter {seen : List BitPath} {d : BitPath} {n : Name} {e : BitIndexEntry}
    (hd : d++[n] <+: e.path.parent) (hseen : ∀ q, q <+: d → q ∈ seen) (hn : d++[n] ∉ seen) (rest : List BitIndexEntry) :
    idx.indexTreeIterFrom seen (e::rest) =
      idx.createPseudotree (d++[n])::idx.indexTreeIterFrom (seen++[d++[n]]) (e::rest) := by
  obtain ⟨q,hq⟩ := hd
  have hcomp : e.path.parent.cumulativeComponents = d.inits.tail++(d++[n])::q.inits.tail.map ((d++[n])++·) := by
    rw [← hq,BitPath.cumulativeComponents_below]
  have hold : d.inits.tail.filter (fun p => decide (p ∉ seen)) = [] := by
    simp only [List.filter_eq_nil_iff,decide_eq_true_eq,not_not]
    intro p hp
    exact hseen p ((List.mem_inits p d).mp (List.mem_of_mem_tail hp))
  have hold' : d.inits.tail.filter (fun p => decide (p ∉ seen++[d++[n]])) = [] := by
    simp only [List.filter_eq_nil_iff,decide_eq_true_eq,not_not]
    intro p hp
    exact List.mem_append_left _ (hseen p ((List.mem_inits p d).mp (List.mem_of_mem_tail hp)))
  have hnew : (q.inits.tail.map ((d++[n])++·)).filter (fun p => decide (p ∉ seen++[d++[n]])) =
      (q.inits.tail.map ((d++[n])++·)).filter (fun p => decide (p ∉ seen)) := by
    refine List.filter_congr fun p hp => ?_
    obtain ⟨s,hs,rfl⟩ := List.mem_map.mp hp
    have hne : s ≠ [] := by
      rintro rfl
      cases q <;> simp at hs
    simp [hne]
  simp only [indexTreeIterFrom,hcomp,List.filter_append,List.filter_cons,hold,hold',hnew]
  simp [hn]

/-- An index entry for a file of a tree. -/
def FileOf (x : BitPath × BlobMode × Bytes) (e : BitIndexEntry) : Prop :=
  e.path = x.1 ∧ e.mode = .blob x.2.1 ∧ e.oid = .blob x.2.2 ∧ e.stage = .NONE

instance (x : BitPath × BlobMode × Bytes) (e : BitIndexEntry) : Decidable (FileOf x e) :=
  inferInstanceAs (Decidable (_ ∧ _))

/-- The entries of the index are the files of a tree, in their order. -/
def Describes (idx : BitIndexInner) (t : Tree) : Prop := List.Forall₂ FileOf (t.flatten []) idx.entries

instance (idx : BitIndexInner) (t : Tree) : Decidable (idx.Describes t) := inferInstanceAs (Decidable (List.Forall₂ _ _ _))

theorem forall₂_fileOf_iff {l : List (BitPath × BlobMode × Bytes)} {es : List BitIndexEntry} :
    List.Forall₂ FileOf l es ↔ l.map (fun x => ((x.1,MergeStage.NONE),FileMode.blob x.2.1,Oid.blob x.2.2)) =
      es.map fun e => (e.key,e.mode,e.oid) := by
  have hiff : FileOf = fun x e =>
      ((x.1,MergeStage.NONE),FileMode.blob x.2.1,Oid.blob x.2.2) = (e.key,e.mode,e.oid) := by
    funext x e
    simp only [FileOf,BitIndexEntry.key,Prod.mk.injEq,eq_iff_iff]
    constructor
    · rintro ⟨h₁,h₂,h₃,h₄⟩
      exact ⟨⟨h₁.symm,h₄.symm⟩,h₂.symm,h₃.symm⟩
    · rintro ⟨⟨h₁,h₂⟩,h₃,h₄⟩
      exact ⟨h₁.symm,h₃.symm,h₄.symm,h₂.symm⟩
  rw [← List.forall₂_eq_eq_eq,List.forall₂_map_left_iff,List.forall₂_map_right_iff,hiff]

/-- The mode and the id that the index has at a key. -/
def view (idx : BitIndexInner) (k : BitPath × MergeStage) : Option (FileMode × Oid) :=
  (idx.findEntry k).map fun e => (e.mode,e.oid)

/-- What an index that holds a tree has at a key. -/
def treeView (t : Tree) (k : BitPath × MergeStage) : Option (FileMode × Oid) :=
  if k.2 = .NONE then
    match t.look k.1 with
    | some (some a) => some (.blob a.1,.blob a.2)
    | _ => none
  else none

theorem mem_keyed {es : List BitIndexEntry} {k : BitPath × MergeStage} {v : FileMode × Oid} :
    (k,v) ∈ es.map (fun e => (e.key,e.mode,e.oid)) ↔ ∃ e ∈ es, e.key = k ∧ (e.mode,e.oid) = v := by
  simp [Prod.ext_iff]

/-- A valid index is known by what it has at every key. -/
theorem Valid.mem_keyed_iff (h : idx.Valid) {k : BitPath × MergeStage} {v : FileMode × Oid} :
    (k,v) ∈ idx.entries.map (fun e => (e.key,e.mode,e.oid)) ↔ idx.view k = some v := by
  rw [mem_keyed,view,Option.map_eq_some_iff]
  constructor
  · rintro ⟨e,he,rfl,hv⟩
    exact ⟨e,(mem_entries_iff h).mp he,hv⟩
  · rintro ⟨e,he,hv⟩
    obtain ⟨hmem,hk⟩ := findEntry_some he
    exact ⟨e,hmem,hk,hv⟩

theorem nodup_of_keyLt {α : Type} {l : List ((BitPath × MergeStage) × α)} (h : l.Pairwise fun a b => keyLt a.1 b.1) :
    l.Nodup := h.imp fun {a b} hlt heq => by
  subst heq
  exact keyLt_irrefl _ hlt

theorem describes_iff {t : Tree} (ht : t.WellFormed) :
    idx.Describes t ↔ idx.Valid ∧ ∀ k, idx.view k = treeView t k := by
  have hflat (k : BitPath × MergeStage) (v : FileMode × Oid) : treeView t k = some v ↔
      (k,v) ∈ (t.flatten []).map fun x => ((x.1,MergeStage.NONE),FileMode.blob x.2.1,Oid.blob x.2.2) := by
    obtain ⟨p,s⟩ := k
    simp only [treeView,List.mem_map,Prod.mk.injEq]
    constructor
    · intro h
      split at h
      · rename_i hs
        split at h
        · rename_i a ha
          exact ⟨(p,a),ht.mem_flatten.mpr ha,⟨rfl,Eq.symm hs⟩,by simpa using h⟩
        · simp at h
      · simp at h
    · rintro ⟨⟨q,a⟩,hmem,⟨rfl,rfl⟩,hv⟩
      simp [ht.mem_flatten.mp hmem,hv]
  have hsorted : ((t.flatten []).map fun x => ((x.1,MergeStage.NONE),FileMode.blob x.2.1,Oid.blob x.2.2)).Pairwise
      fun a b => keyLt a.1 b.1 := by
    rw [List.pairwise_map]
    exact (ht.canonical.ordered.flatten_sorted []).imp fun h => Prod.Lex.toLex_lt_toLex.mpr (.inl h)
  constructor
  · intro h
    have heq := forall₂_fileOf_iff.mp h
    have hvalid : idx.Valid := by
      constructor
      · rw [heq,List.pairwise_map] at hsorted
        exact hsorted
      · intro e he
        have hmem : (e.key,e.mode,e.oid) ∈ idx.entries.map fun e => (e.key,e.mode,e.oid) := List.mem_map.mpr ⟨e,he,rfl⟩
        rw [← heq,List.mem_map] at hmem
        obtain ⟨⟨p,a⟩,hx,hxe⟩ := hmem
        obtain rfl : p = e.path := congrArg (fun y => y.1.1) hxe
        have hlook := ht.mem_flatten.mp hx
        refine ⟨fun hnil => ?_,ht.normal (by simp [hlook])⟩
        simp [hnil] at hlook
    refine ⟨hvalid,fun k => Option.ext fun v => ?_⟩
    rw [hflat,← hvalid.mem_keyed_iff,heq]
  · rintro ⟨hvalid,hview⟩
    have hkeyed : (idx.entries.map fun e => (e.key,e.mode,e.oid)).Pairwise fun a b => keyLt a.1 b.1 := by
      rw [List.pairwise_map]
      exact hvalid.sorted
    refine forall₂_fileOf_iff.mpr (List.Perm.eq_of_pairwise (fun a b _ _ h h' => ?_) hsorted hkeyed ?_)
    · exact absurd (h.trans h') (keyLt_irrefl _)
    · refine (List.perm_ext_iff_of_nodup ?_ ?_).mpr fun x => ?_
      · exact nodup_of_keyLt hsorted
      · exact nodup_of_keyLt hkeyed
      · obtain ⟨k,v⟩ := x
        rw [← hflat,hvalid.mem_keyed_iff,hview]

/-- What the iterator yields for a vertex of the tree that the index describes. -/
def Lists (idx : BitIndexInner) (x : BitPath × ((BlobMode × Bytes) ⊕ Tree)) (e : BitIndexEntry) : Prop :=
  match x.2 with
  | .inl a => FileOf (x.1,a) e
  | .inr _ => e = idx.createPseudotree x.1

/-- The entries for the files of a tree come with the directories of the tree. -/
theorem indexTreeIterFrom_flatten {t : Tree} (ht : t.Canonical) (hd : t.Distinct) {pre : BitPath} {es : List BitIndexEntry}
    (hes : List.Forall₂ FileOf (t.flatten pre) es) {seen : List BitPath} (hseen : ∀ q, q <+: pre → q ∈ seen)
    (hfresh : ∀ n ∈ t.names, ∀ q, pre++n::q ∉ seen) (rest : List BitIndexEntry) :
    ∃ l, idx.indexTreeIterFrom seen (es++rest) = l++idx.indexTreeIterFrom (seen++t.dirs pre) rest ∧
      List.Forall₂ (Lists idx) (t.entries pre) l := by
  induction t generalizing pre es seen rest with
  | nil =>
    cases hes
    exact ⟨[],by simp [Tree.dirs],.nil⟩
  | leaf n a t ih =>
    cases hes with
    | @cons _ e _ es he hes =>
      obtain ⟨l,hl,hlists⟩ := ih ht.2.2 hd.2 hes hseen (fun m hm => hfresh m (by simp [Forest.names,hm])) rest
      refine ⟨e::l,?_,.cons he hlists⟩
      have hfilter : e.path.parent.cumulativeComponents.filter (fun p => decide (p ∉ seen)) = [] := by
        simp only [List.filter_eq_nil_iff,decide_eq_true_eq,not_not]
        rw [he.1,BitPath.parent_append]
        intro q hq
        by_cases hp : pre = []
        · subst hp
          obtain rfl : q = [] := by simpa [BitPath.cumulativeComponents] using hq
          exact hseen [] List.nil_prefix
        · exact hseen q ((BitPath.mem_cumulativeComponents hp).mp hq).2
      simp only [List.cons_append,indexTreeIterFrom,hfilter,List.map_nil,List.nil_append,List.append_nil,hl,Tree.dirs]
  | node n sub t ihs ihr =>
    obtain ⟨hn,hlt,hsub,hws,hwt⟩ := ht
    obtain ⟨hname,hds,hdt⟩ := hd
    obtain ⟨es₁,es₂,rfl,h₁,h₂⟩ : ∃ es₁ es₂, es = es₁++es₂ ∧
        List.Forall₂ FileOf (Tree.flatten (pre++[n]) sub) es₁ ∧ List.Forall₂ FileOf (Tree.flatten pre t) es₂ := by
      have htake := List.forall₂_take_append es _ _ hes.flip
      have hdrop := List.forall₂_drop_append es _ _ hes.flip
      exact ⟨_,_,(List.take_append_drop _ es).symm,htake.flip,hdrop.flip⟩
    have hdir : pre++[n] ∉ seen := hfresh n (by simp [Forest.names]) []
    have hstart : idx.indexTreeIterFrom seen (es₁++(es₂++rest)) =
        idx.createPseudotree (pre++[n])::idx.indexTreeIterFrom (seen++[pre++[n]]) (es₁++(es₂++rest)) := by
      -- the first file below the directory brings it in
      cases es₁ with
      | nil => exact absurd (List.forall₂_nil_right_iff.mp h₁) (hws.flatten_ne_nil hsub _)
      | cons e es₁ =>
        obtain ⟨x,xs,hx,-,hflat⟩ := List.forall₂_cons_right_iff.mp h₁
        obtain ⟨y,-,q,hq,-⟩ := Tree.flatten_append (hflat ▸ List.mem_cons_self : x ∈ Tree.flatten (pre++[n]) sub)
        have hpre : pre++[n] <+: e.path.parent := by
          rw [hx.1,hq,BitPath.parent,List.dropLast_append_of_ne_nil (by simp)]
          exact List.prefix_append _ _
        exact indexTreeIterFrom_enter hpre hseen hdir _
    obtain ⟨l₁,hl₁,hlists₁⟩ : ∃ l, idx.indexTreeIterFrom (seen++[pre++[n]]) (es₁++(es₂++rest)) =
        l++idx.indexTreeIterFrom (seen++[pre++[n]]++Tree.dirs (pre++[n]) sub) (es₂++rest) ∧
        List.Forall₂ (Lists idx) (sub.entries (pre++[n])) l := by
      refine ihs hws hds h₁ (fun q hq => ?_) (fun m _ q hq => ?_) _
      · rcases List.prefix_concat_iff.mp hq with rfl | hq
        · simp
        · exact List.mem_append_left _ (hseen q hq)
      · rcases List.mem_append.mp hq with hq | hq
        · exact hfresh n (by simp [Forest.names]) (m::q) (by simpa using hq)
        · simp at hq
    obtain ⟨l₂,hl₂,hlists₂⟩ : ∃ l, idx.indexTreeIterFrom (seen++[pre++[n]]++Tree.dirs (pre++[n]) sub) (es₂++rest) =
        l++idx.indexTreeIterFrom (seen++[pre++[n]]++Tree.dirs (pre++[n]) sub++Tree.dirs pre t) rest ∧
        List.Forall₂ (Lists idx) (t.entries pre) l := by
      refine ihr hwt hdt h₂ (fun q hq => ?_) (fun m hm q hq => ?_) _
      · exact List.mem_append_left _ (List.mem_append_left _ (hseen q hq))
      · have hmn : m ≠ n := fun heq => hname (heq ▸ hm)
        rcases List.mem_append.mp hq with hq | hq
        · rcases List.mem_append.mp hq with hq | hq
          · exact hfresh m (by simp [Forest.names,hm]) q hq
          · simp [hmn] at hq
        · obtain ⟨x,-,q',hq'⟩ := Tree.mem_dirs hq
          simp [hmn] at hq'
    refine ⟨idx.createPseudotree (pre++[n])::(l₁++l₂),?_,.cons rfl (List.rel_append hlists₁ hlists₂)⟩
    rw [List.append_assoc,hstart,hl₁,hl₂]
    simp [Tree.dirs]

theorem Describes.file {t : Tree} (ht : t.WellFormed) (h : idx.Describes t) {e : BitIndexEntry} (he : e ∈ idx.entries) :
    ∃ a, t.look e.path = some (some a) ∧ FileOf (e.path,a) e := by
  obtain ⟨hvalid,hview⟩ := (describes_iff ht).mp h
  have hv : treeView t e.key = some (e.mode,e.oid) := by
    rw [← hview,view,(mem_entries_iff hvalid).mp he]
    rfl
  unfold treeView at hv
  split at hv
  · rename_i hs
    split at hv
    · rename_i a ha
      obtain ⟨hm,ho⟩ : FileMode.blob a.1 = e.mode ∧ Oid.blob a.2 = e.oid := by simpa using hv
      exact ⟨a,ha,rfl,hm.symm,ho.symm,hs⟩
    · simp at hv
  · simp at hv

theorem Describes.indexTreeIter {t : Tree} (ht : t.Canonical) (hd : t.Distinct) (h : idx.Describes t) :
    ∃ l, idx.indexTreeIter = idx.createPseudotree []::l ∧ List.Forall₂ (Lists idx) (t.entries []) l := by
  obtain ⟨l,hl,hlists⟩ : ∃ l, idx.indexTreeIterFrom [[]] (idx.entries++[]) =
      l++idx.indexTreeIterFrom ([[]]++Tree.dirs [] t) [] ∧ List.Forall₂ (Lists idx) (t.entries []) l :=
    indexTreeIterFrom_flatten ht hd h (by simp) (by simp) []
  refine ⟨l,?_,hlists⟩
  simpa [BitIndexInner.indexTreeIter,indexTreeIterFrom] using hl

end BitIndexInner
end Libbit
