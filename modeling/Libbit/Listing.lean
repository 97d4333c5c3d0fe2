import Libbit.TreeFiles
import Libbit.DiffSpec

/-! The list of the entries of a tree, as the iterators hand it out: directories come before what is
in them, and what is in a directory follows it without a gap. -/
namespace Libbit

open Lib

@[simp] theorem path_ofItem (x : BitPath × ((BlobMode × Bytes) ⊕ Tree)) :
    (BitIndexEntry.ofTreeEntry (.ofItem x)).path = x.1 := by
  obtain ⟨p,a | s⟩ := x <;> rfl

namespace Tree

/-- Siblings are in git's order and have names of their own. -/
def GitOrder : Tree → Prop
  | .nil => True
  | .leaf n _ rest => NormalName n ∧ (∀ y ∈ siblings rest, entryLt (n,false) y ∧ y.1 ≠ n) ∧ GitOrder rest
  | .node n sub rest => NormalName n ∧ (∀ y ∈ siblings rest, entryLt (n,true) y ∧ y.1 ≠ n) ∧ GitOrder sub ∧ GitOrder rest

instance decidableGitOrder : (t : Tree) → Decidable t.GitOrder
  | .nil => isTrue trivial
  | .leaf n a rest => by
    have := decidableGitOrder rest
    unfold GitOrder NormalName
    infer_instance
  | .node n sub rest => by
    have := decidableGitOrder sub
    have := decidableGitOrder rest
    unfold GitOrder NormalName
    infer_instance

variable {t : Tree}

theorem GitOrder.distinct (h : t.GitOrder) : t.Distinct := by
  induction t with
  | nil => trivial
  | leaf n a rest ih =>
    refine ⟨fun hn => ?_,ih h.2.2⟩
    obtain ⟨b,hb⟩ := mem_names_iff.mp hn
    exact (h.2.1 _ hb).2 rfl
  | node n sub rest ihs ihr =>
    refine ⟨fun hn => ?_,ihs h.2.2.1,ihr h.2.2.2⟩
    obtain ⟨b,hb⟩ := mem_names_iff.mp hn
    exact (h.2.1 _ hb).2 rfl

theorem GitOrder.names (h : t.GitOrder) : t.AllNames NormalName := by
  induction t with
  | nil => trivial
  | leaf n a rest ih => exact ⟨h.1,ih h.2.2⟩
  | node n sub rest ihs ihr => exact ⟨h.1,ihs h.2.2.1,ihr h.2.2.2⟩

/-- The entry of a tree at a path. -/
def entryAt (t : Tree) (p : BitPath) : Option BitIndexEntry :=
  match t.look p with
  | none => none
  | some (some a) => some (.ofTreeEntry ⟨.blob a.1,p,.blob a.2⟩)
  | some none => (t.sub? p).map fun s => .ofTreeEntry ⟨.TREE,p,.tree s⟩

theorem entryAt_file {p : BitPath} {a : BlobMode × Bytes} (h : t.look p = some (some a)) :
    t.entryAt p = some (.ofTreeEntry ⟨.blob a.1,p,.blob a.2⟩) := by simp [entryAt,h]

theorem entryAt_dir {p : BitPath} {s : Tree} (h : t.sub? p = some s) :
    t.entryAt p = some (.ofTreeEntry ⟨.TREE,p,.tree s⟩) := by simp [entryAt,Forest.look_eq_dir.mpr ⟨s,h⟩,h]

theorem mem_listing {e : BitIndexEntry} : e ∈ t.listing ↔ ∃ x ∈ t.entries [], .ofTreeEntry (.ofItem x) = e := List.mem_map

/-- The iterator yields the entry of every path. -/
theorem GitOrder.mem_treeIter (h : t.GitOrder) {e : BitIndexEntry} : e ∈ treeIter (.tree t) ↔ t.entryAt e.path = some e := by
  have hfile (p : BitPath) (a : BlobMode × Bytes) : (p,.inl a) ∈ t.entries [] ↔ t.look p = some (some a) :=
    @Forest.mem_entries_leaf _ _ _ _ h.distinct [] _ _
  have hdir (p : BitPath) (s : Tree) : (p,.inr s) ∈ t.entries [] ↔ p ≠ [] ∧ t.sub? p = some s :=
    @Forest.mem_entries_node _ _ _ _ h.distinct [] _ _
  constructor
  · intro he
    rcases List.mem_cons.mp he with rfl | he
    · exact entryAt_dir (Forest.sub?_nil_path t)
    · obtain ⟨⟨p,a | s⟩,hx,rfl⟩ := mem_listing.mp he
      · exact entryAt_file ((hfile p a).mp hx)
      · exact entryAt_dir ((hdir p s).mp hx).2
  · intro he
    cases hlook : t.look e.path with
    | none => simp [entryAt,hlook] at he
    | some v =>
      cases v with
      | some a =>
        rw [entryAt_file hlook] at he
        exact List.mem_cons_of_mem _ (mem_listing.mpr ⟨_,(hfile _ a).mpr hlook,Option.some.inj he⟩)
      | none =>
        obtain ⟨s,hs⟩ := Forest.look_eq_dir.mp hlook
        rw [entryAt_dir hs] at he
        have he := Option.some.inj he
        by_cases hp : e.path = []
        · rw [hp,Forest.sub?_nil_path] at hs
          rw [← he,hp,← Option.some.inj hs]
          exact List.mem_cons_self
        · exact List.mem_cons_of_mem _ (mem_listing.mpr ⟨_,(hdir _ s).mpr ⟨hp,hs⟩,he⟩)

end Tree

/-- An entry comes before all that lies below it, and that follows it without a gap. -/
def Preorder : List BitIndexEntry → Prop
  | [] => True
  | x::os => (∀ y ∈ os, ¬y.path <+: x.path) ∧ (∀ y ∈ Iter.stepOver (x::os), ¬x.path <+: y.path) ∧ Preorder os

section Preorder

theorem mem_stepOver_append {x y : BitIndexEntry} {l l' : List BitIndexEntry} (h : y ∈ Iter.stepOver (x::(l++l'))) :
    y ∈ Iter.stepOver (x::l) ∨ y ∈ l' := by
  by_cases hx : x.isTree = true
  · simp only [Iter.stepOver,hx,if_true] at h ⊢
    rw [List.dropWhile_append] at h
    split at h
    · exact .inr ((List.dropWhile_sublist _).subset h)
    · exact List.mem_append.mp h
  · simp only [Iter.stepOver,hx] at h ⊢
    exact List.mem_append.mp h

theorem Preorder.append {l l' : List BitIndexEntry} (h : Preorder l) (h' : Preorder l')
    (hcross : ∀ x ∈ l, ∀ y ∈ l', ¬y.path <+: x.path ∧ ¬x.path <+: y.path) : Preorder (l++l') := by
  induction l with
  | nil => exact h'
  | cons x l ih =>
    refine ⟨fun y hy => ?_,fun y hy => ?_,ih h.2.2 fun z hz => hcross z (List.mem_cons_of_mem _ hz)⟩
    · rcases List.mem_append.mp hy with hy | hy
      · exact h.1 y hy
      · exact (hcross x List.mem_cons_self y hy).1
    · rcases mem_stepOver_append hy with hy | hy
      · exact h.2.1 y hy
      · exact (hcross x List.mem_cons_self y hy).2

theorem Preorder.suffix {l l' : List BitIndexEntry} (h : Preorder l) (hs : l' <:+ l) : Preorder l' := by
  induction l with
  | nil => simpa [List.suffix_nil.mp hs] using h
  | cons x l ih =>
    rcases List.suffix_cons_iff.mp hs with rfl | hs
    · exact h
    · exact ih h.2.2 hs

theorem Preorder.nodup {l : List BitIndexEntry} (h : Preorder l) : (l.map BitIndexEntry.path).Nodup := by
  induction l with
  | nil => exact List.nodup_nil
  | cons x l ih =>
    refine List.nodup_cons.mpr ⟨fun hmem => ?_,ih h.2.2⟩
    obtain ⟨y,hy,hxy⟩ := List.mem_map.mp hmem
    exact h.1 y hy (hxy ▸ List.prefix_rfl)

theorem stepOver_suffix (x : BitIndexEntry) (os : List BitIndexEntry) : Iter.stepOver (x::os) <:+ os := by
  by_cases hx : x.isTree = true
  · simp only [Iter.stepOver,hx,if_true]
    exact List.dropWhile_suffix _
  · simp only [Iter.stepOver,hx]
    exact List.suffix_refl _

theorem mem_stepOver_of_not_below {x y : BitIndexEntry} {os : List BitIndexEntry} (hy : y ∈ x::os) (h : ¬x.path <+: y.path) :
    y ∈ Iter.stepOver (x::os) := by
  have hmem := (List.mem_cons.mp hy).resolve_left fun he => h (he ▸ List.prefix_rfl)
  by_cases hx : x.isTree = true
  · rcases TreeDiffIter.mem_cons_block hy hx with rfl | hblock | hover
    · exact absurd List.prefix_rfl h
    · exact absurd (TreeDiffIter.path_of_block hblock) h
    · exact hover
  · simpa [Iter.stepOver,hx] using hmem

/-- What is stepped over is what lies below the directory. -/
theorem Tree.mem_stepOver_dir {sub rest : Tree} {pre : BitPath} {n : Name} {y : BitIndexEntry}
    (hy : y ∈ Iter.stepOver (BitIndexEntry.ofTreeEntry (.ofItem (pre++[n],.inr sub))::
      ((sub.entries (pre++[n])).map (fun x => .ofTreeEntry (.ofItem x))++
        (rest.entries pre).map fun x => .ofTreeEntry (.ofItem x)))) :
    y ∈ (rest.entries pre).map fun x => BitIndexEntry.ofTreeEntry (.ofItem x) := by
  have hall : ∀ z ∈ (sub.entries (pre++[n])).map (fun x => BitIndexEntry.ofTreeEntry (.ofItem x)),
      z.path.startsWith (pre++[n]) = true := fun z hz => by
    obtain ⟨x,hx,rfl⟩ := List.mem_map.mp hz
    obtain ⟨m,-,q,hq⟩ := Forest.entries_append _ sub hx
    exact BitPath.startsWith_iff.mpr ⟨m::q,by simp [hq]⟩
  have hnil : Iter.stepOver (BitIndexEntry.ofTreeEntry (.ofItem (pre++[n],.inr sub))::
      (sub.entries (pre++[n])).map fun x => .ofTreeEntry (.ofItem x)) = [] :=
    List.dropWhile_eq_nil_iff.mpr hall
  rcases mem_stepOver_append hy with hy | hy
  · rw [hnil] at hy
    simp at hy
  · exact hy

theorem Tree.preorder_entries {t : Tree} (h : t.Distinct) (pre : BitPath) :
    Preorder ((t.entries pre).map fun x => .ofTreeEntry (.ofItem x)) := by
  have hin (t : Tree) (pre : BitPath) (y : BitIndexEntry)
      (hy : y ∈ (t.entries pre).map fun x => .ofTreeEntry (.ofItem x)) : ∃ n ∈ t.names, ∃ q, y.path = pre++n::q := by
    obtain ⟨x,hx,rfl⟩ := List.mem_map.mp hy
    rw [path_ofItem]
    exact Forest.entries_append pre t hx
  induction t generalizing pre with
  | nil => trivial
  | leaf n a rest ih =>
    have hout (y : BitIndexEntry) (hy : y ∈ (rest.entries pre).map fun x => .ofTreeEntry (.ofItem x)) :
        ¬y.path <+: pre++[n] ∧ ¬pre++[n] <+: y.path := by
      obtain ⟨m,hm,q,hq⟩ := hin rest pre y hy
      have hmn : n ≠ m := fun he => h.1 (he ▸ hm)
      rw [hq]
      constructor <;> simp [List.cons_prefix_cons,hmn,hmn.symm]
    exact ⟨fun y hy => (hout y hy).1,fun y hy => (hout y hy).2,ih h.2 pre⟩
  | node n sub rest ihs ihr =>
    have hout (y : BitIndexEntry) (hy : y ∈ (rest.entries pre).map fun x => .ofTreeEntry (.ofItem x)) (q : BitPath) :
        ¬y.path <+: pre++n::q ∧ ¬pre++n::q <+: y.path := by
      obtain ⟨m,hm,q,hq⟩ := hin rest pre y hy
      have hmn : n ≠ m := fun he => h.1 (he ▸ hm)
      rw [hq]
      constructor <;> simp [List.cons_prefix_cons,hmn,hmn.symm]
    have hbelow (y : BitIndexEntry) (hy : y ∈ (sub.entries (pre++[n])).map fun x => .ofTreeEntry (.ofItem x)) :
        ∃ m q, y.path = pre++n::m::q := by
      obtain ⟨m,-,q,hq⟩ := hin sub _ y hy
      exact ⟨m,q,by simp [hq]⟩
    rw [Forest.entries,List.map_cons,List.map_append]
    refine ⟨fun y hy => ?_,fun y hy => ?_,(ihs h.2.1 _).append (ihr h.2.2 _) fun x hx y hy => ?_⟩
    · rcases List.mem_append.mp hy with hy | hy
      · obtain ⟨m,q,hq⟩ := hbelow y hy
        rw [hq,path_ofItem]
        exact fun hp => by simpa using hp.length_le
      · exact (hout y hy []).1
    · exact (hout y (Tree.mem_stepOver_dir hy) []).2
    · obtain ⟨m,q,hq⟩ := hbelow x hx
      rw [hq]
      exact hout y hy (m::q)

theorem Tree.stepOver_root (t : Tree) : Iter.stepOver (treeIter (.tree t)) = [] :=
  List.dropWhile_eq_nil_iff.mpr fun _ _ => BitPath.startsWith_iff.mpr List.nil_prefix

theorem Tree.Distinct.preorder {t : Tree} (h : t.Distinct) : Preorder (treeIter (.tree t)) := by
  have hne : ∀ y ∈ t.listing, y.path ≠ [] := fun y hy => by
    obtain ⟨x,hx,rfl⟩ := Tree.mem_listing.mp hy
    obtain ⟨n,-,q,hq⟩ := Forest.entries_append [] t hx
    simp [hq]
  refine ⟨fun y hy hp => hne y hy (List.prefix_nil.mp hp),fun y hy => ?_,Tree.preorder_entries h []⟩
  have hy : y ∈ Iter.stepOver (treeIter (.tree t)) := hy
  rw [Tree.stepOver_root] at hy
  cases hy

theorem Tree.GitOrder.preorder {t : Tree} (h : t.GitOrder) : Preorder (treeIter (.tree t)) :=
  Tree.Distinct.preorder h.distinct

theorem BitPath.asBytes_lt_of_prefix {p q : BitPath} (hp : p ≠ []) (h : p <+: q) (hne : p ≠ q) : p.asBytes < q.asBytes := by
  obtain ⟨t,ht⟩ := BitPath.asBytes_prefix hp h hne
  rw [← ht,List.append_assoc]
  exact BitPath.lt_append _ (by simp)

/-- An entry with greater bytes that comes behind a directory has greater bytes than all in it. -/
def Convex : List BitIndexEntry → Prop
  | [] => True
  | x::os => (∀ y ∈ Iter.stepOver (x::os), x.path.asBytes < y.path.asBytes →
      ∀ z ∈ x::os, x.path <+: z.path → z.path.asBytes < y.path.asBytes) ∧ Convex os

/-- A sibling behind a directory that is greater than its name is greater than all in it. -/
theorem lt_of_sibling_dir {n : Name} {y : Name × Bool} (h : entryLt (n,true) y) (hy : NormalName y.1) (hn : NormalName n)
    {pre p q : BitPath} (hpre : pre.Normal) (hp : p ≠ []) (hq : q ≠ [] → y.2 = true)
    (hlt : (pre++[n]).asBytes < (pre++y.1::q).asBytes) : (pre++n::p).asBytes < (pre++y.1::q).asBytes := by
  by_cases hdir : y.2 = true ∧ q = []
  · obtain ⟨hdir,rfl⟩ := hdir
    have hbelow : (pre++n::p).asBytes < (pre++y.1::[[]]).asBytes :=
      Tree.lt_of_siblings h (by simpa using hp) (by simpa using hdir)
    have happ : (pre++y.1::[[]]).asBytes = (pre++[y.1]).asBytes++[SLASH] := by
      have := BitPath.asBytes_append (p := pre++[y.1]) (q := [[]]) (by simp) (by simp)
      simpa [BitPath.asBytes] using this
    have hx : (pre++[n]).asBytes++[SLASH] <+: (pre++n::p).asBytes :=
      BitPath.asBytes_prefix (by simp) ⟨p,by simp⟩ (by simpa using hp.symm)
    by_contra hnot
    have hpy := BitPath.prefix_of_between hnot (happ ▸ hbelow.asymm)
    rcases Nat.lt_or_ge (pre++[n]).asBytes.length (pre++[y.1]).asBytes.length with hlen | hlen
    · have hpo := List.prefix_of_prefix_length_le hx hpy (by simpa using hlen)
      have hbelow := BitPath.prefix_of_asBytes (by simp) (hpre.concat hn) (hpre.concat hy) hpo
      exact hbelow.2 (hbelow.1.eq_of_length (by simp))
    · have hpo := List.prefix_of_prefix_length_le hpy ((List.prefix_append _ _).trans hx) hlen
      exact hpo.le hlt
  · refine Tree.lt_of_siblings h (by simpa using hp) ⟨fun hd => ?_,hq⟩
    exact fun hnil => hdir ⟨hd,hnil⟩

theorem Convex.suffix {l l' : List BitIndexEntry} (h : Convex l) (hs : l' <:+ l) : Convex l' := by
  induction l with
  | nil => simpa [List.suffix_nil.mp hs] using h
  | cons x l ih =>
    rcases List.suffix_cons_iff.mp hs with rfl | hs
    · exact h
    · exact ih h.2 hs

theorem Convex.append {l l' : List BitIndexEntry} (h : Convex l) (h' : Convex l')
    (hout : ∀ x ∈ l, ∀ y ∈ l', ¬x.path <+: y.path)
    (hcross : ∀ x ∈ l, ∀ y ∈ l', x.path.asBytes < y.path.asBytes → ∀ z ∈ l, z.path.asBytes < y.path.asBytes) :
    Convex (l++l') := by
  induction l with
  | nil => exact h'
  | cons x l ih =>
    refine ⟨fun y hy hlt z hz hpre => ?_,ih h.2 (fun w hw => hout w (List.mem_cons_of_mem _ hw)) fun w hw y hy hlt z hz =>
      hcross w (List.mem_cons_of_mem _ hw) y hy hlt z (List.mem_cons_of_mem _ hz)⟩
    have hzl : z ∈ x::l := by
      rcases List.mem_append.mp (show z ∈ (x::l)++l' from hz) with hz | hz
      · exact hz
      · exact absurd hpre (hout x List.mem_cons_self z hz)
    rcases mem_stepOver_append hy with hy | hy
    · exact h.1 y hy hlt z hzl hpre
    · exact hcross x List.mem_cons_self y hy hlt z hzl

theorem Tree.entries_sibling {t : Tree} {pre : BitPath} {x : BitPath × ((BlobMode × Bytes) ⊕ Tree)} (h : x ∈ t.entries pre) :
    ∃ y ∈ t.siblings, ∃ q, x.1 = pre++y.1::q ∧ (q ≠ [] → y.2 = true) := by
  induction t with
  | nil => simp [Forest.entries] at h
  | leaf n a rest ih =>
    rcases List.mem_cons.mp h with rfl | h
    · exact ⟨(n,false),by simp [siblings],[],by simp⟩
    · obtain ⟨y,hy,q,hq⟩ := ih h
      exact ⟨y,by simp [siblings,hy],q,hq⟩
  | node n sub rest ihs ihr =>
    rcases List.mem_cons.mp h with rfl | h
    · exact ⟨(n,true),by simp [siblings],[],by simp⟩
    · rcases List.mem_append.mp h with h | h
      · obtain ⟨m,-,q,hq⟩ := Forest.entries_append _ sub h
        exact ⟨(n,true),by simp [siblings],m::q,by simp [hq]⟩
      · obtain ⟨y,hy,q,hq⟩ := ihr h
        exact ⟨y,by simp [siblings,hy],q,hq⟩

theorem Tree.GitOrder.sibling {t : Tree} (h : t.GitOrder) {y : Name × Bool} (hy : y ∈ t.siblings) : NormalName y.1 := by
  induction t with
  | nil => simp [siblings] at hy
  | leaf n a rest ih =>
    rcases List.mem_cons.mp hy with rfl | hy
    · exact h.1
    · exact ih h.2.2 hy
  | node n sub rest _ ih =>
    rcases List.mem_cons.mp hy with rfl | hy
    · exact h.1
    · exact ih h.2.2.2 hy

/-- What follows a name in its directory is not below it and has a name that comes behind it. -/
theorem Tree.GitOrder.behind {rest : Tree} (h : rest.GitOrder) {n : Name} {b : Bool}
    (hsib : ∀ y ∈ siblings rest, entryLt (n,b) y ∧ y.1 ≠ n) {pre : BitPath} {y : BitIndexEntry}
    (hy : y ∈ (rest.entries pre).map fun x => .ofTreeEntry (.ofItem x)) : (∀ q, ¬pre++n::q <+: y.path) ∧
      ∃ s q, y.path = pre++s.1::q ∧ entryLt (n,b) s ∧ NormalName s.1 ∧ (q ≠ [] → s.2 = true) := by
  obtain ⟨x,hx,rfl⟩ := List.mem_map.mp hy
  obtain ⟨s,hs,q',hq',hdir⟩ := Tree.entries_sibling hx
  rw [path_ofItem,hq']
  refine ⟨fun q hp => ?_,s,q',rfl,(hsib s hs).1,h.sibling hs,hdir⟩
  rw [List.prefix_append_right_inj,List.cons_prefix_cons] at hp
  exact (hsib s hs).2 hp.1.symm

theorem Tree.GitOrder.convex_entries {t : Tree} (h : t.GitOrder) {pre : BitPath} (hpre : pre.Normal) :
    Convex ((t.entries pre).map fun x => .ofTreeEntry (.ofItem x)) := by
  induction t generalizing pre with
  | nil => trivial
  | leaf n a rest ih =>
    refine ⟨fun y hy hlt z hz hp => ?_,ih h.2.2 hpre⟩
    rcases List.mem_cons.mp hz with rfl | hz
    · exact hlt
    · exact absurd hp ((h.2.2.behind h.2.1 hz).1 [])
  | node n sub rest ihs ihr =>
    have hbelow (z : BitIndexEntry) (hz : z ∈ (sub.entries (pre++[n])).map fun x => .ofTreeEntry (.ofItem x)) :
        ∃ p, p ≠ [] ∧ z.path = pre++n::p := by
      obtain ⟨x,hx,rfl⟩ := List.mem_map.mp hz
      obtain ⟨m,-,q,hq⟩ := Forest.entries_append _ sub hx
      exact ⟨m::q,by simp,by simp [hq]⟩
    have hcross (y : BitIndexEntry) (hy : y ∈ (rest.entries pre).map fun x => .ofTreeEntry (.ofItem x))
        (hlt : (pre++[n]).asBytes < y.path.asBytes) (p : BitPath) (hp : p ≠ []) : (pre++n::p).asBytes < y.path.asBytes := by
      obtain ⟨s,q,hq,hs,hsn,hdir⟩ := (h.2.2.2.behind h.2.1 hy).2
      rw [hq] at hlt ⊢
      exact lt_of_sibling_dir hs hsn h.1 hpre hp hdir hlt
    rw [Forest.entries,List.map_cons,List.map_append]
    refine ⟨fun y hy hlt z hz hp => ?_,(ihs h.2.2.1 (hpre.concat h.1)).append (ihr h.2.2.2 hpre) (fun x hx y hy => ?_)
      fun x hx y hy hlt z hz => ?_⟩
    · have hy := Tree.mem_stepOver_dir hy
      rcases List.mem_cons.mp hz with rfl | hz
      · exact hlt
      · rcases List.mem_append.mp hz with hz | hz
        · obtain ⟨p,hp,hz⟩ := hbelow z hz
          rw [hz]
          exact hcross y hy hlt p hp
        · exact absurd hp ((h.2.2.2.behind h.2.1 hz).1 [])
    · obtain ⟨p,-,hp⟩ := hbelow x hx
      rw [hp]
      exact (h.2.2.2.behind h.2.1 hy).1 p
    · obtain ⟨p,hp,hx⟩ := hbelow x hx
      obtain ⟨p',hp',hz⟩ := hbelow z hz
      rw [hx] at hlt
      rw [hz]
      refine hcross y hy (lt_trans ?_ hlt) p' hp'
      exact BitPath.asBytes_lt_of_prefix (by simp) ⟨p,by simp⟩ (by simpa using hp.symm)

theorem Tree.GitOrder.convex {t : Tree} (h : t.GitOrder) : Convex (treeIter (.tree t)) := by
  have hroot : Iter.stepOver (treeIter (.tree t)) = [] := Tree.stepOver_root t
  refine ⟨fun y hy => ?_,h.convex_entries (by simp [BitPath.Normal] : BitPath.Normal [])⟩
  have hy : y ∈ Iter.stepOver (treeIter (.tree t)) := hy
  rw [hroot] at hy
  simp at hy

end Preorder

/-! Two or more such lists are walked at the same time. Some directories are entered, others are taken
with all that is below them; what the walk can see of a list are the entries that have only entered
directories above them. -/
section Frontier
variable (ent : BitPath → Bool)

/-- All directories above the path are entered. -/
def visited (p : BitPath) : Bool := p.inits.dropLast.all ent

/-- The bytes of the paths that the walk sees, in the order of the list. -/
def visitedKeys (l : List BitIndexEntry) : List Bytes := (l.filter fun e => visited ent e.path).map fun e => e.path.asBytes

variable {ent}

theorem mem_inits_dropLast {p d : BitPath} : d ∈ p.inits.dropLast ↔ d <+: p ∧ d ≠ p := by
  induction p generalizing d with
  | nil => simp
  | cons n p ih =>
    have hne : p.inits ≠ [] := by cases p <;> simp
    rw [List.inits_cons,List.dropLast_cons_of_ne_nil (by simpa using hne),List.mem_cons,← List.map_dropLast,List.mem_map]
    cases d with
    | nil => simp
    | cons m d =>
      simp only [ih,List.cons_prefix_cons,List.cons.injEq,ne_eq,reduceCtorEq,false_or]
      constructor
      · rintro ⟨q,⟨hq,hne⟩,rfl,rfl⟩
        exact ⟨⟨rfl,hq⟩,fun h => hne h.2⟩
      · rintro ⟨⟨rfl,hq⟩,hne⟩
        exact ⟨d,⟨hq,fun h => hne ⟨rfl,h⟩⟩,rfl,rfl⟩

theorem visited_iff {p : BitPath} : visited ent p = true ↔ ∀ d, d <+: p → d ≠ p → ent d = true := by
  simp only [visited,List.all_eq_true,mem_inits_dropLast,and_imp]

/-- What is left of a list in the middle of a walk: a directory that is no longer in it while
something below it is, was entered. -/
structure Frontier (ent : BitPath → Bool) (l : List BitIndexEntry) : Prop where
  preorder : Preorder l
  normal : ∀ e ∈ l, e.path.Normal
  entered : ∀ e ∈ l, ∀ d, d <+: e.path → d ≠ e.path → (∃ x ∈ l, x.path = d) ∨ ent d = true

namespace Frontier
variable {x : BitIndexEntry} {os l : List BitIndexEntry}

theorem head (h : Frontier ent (x::os)) : visited ent x.path = true := by
  refine visited_iff.mpr fun d hd hne => ?_
  refine (h.entered x List.mem_cons_self d hd hne).resolve_left ?_
  rintro ⟨y,hy,rfl⟩
  rcases List.mem_cons.mp hy with rfl | hy
  · exact hne rfl
  · exact h.preorder.1 y hy hd

theorem visitedKeys_cons (h : Frontier ent (x::os)) : visitedKeys ent (x::os) = x.path.asBytes::visitedKeys ent os := by
  simp [visitedKeys,h.head]

/-- The head was entered. -/
theorem enter (h : Frontier ent (x::os)) (hx : ent x.path = true) : Frontier ent os where
  preorder := h.preorder.2.2
  normal e he := h.normal e (List.mem_cons_of_mem _ he)
  entered e he d hd hne := by
    rcases h.entered e (List.mem_cons_of_mem _ he) d hd hne with ⟨y,hy,rfl⟩ | hent
    · rcases List.mem_cons.mp hy with rfl | hy
      · exact .inr hx
      · exact .inl ⟨y,hy,rfl⟩
    · exact .inr hent

/-- The head was taken with all that is below it. -/
theorem stepOver (h : Frontier ent (x::os)) : Frontier ent (Iter.stepOver (x::os)) where
  preorder := h.preorder.2.2.suffix (stepOver_suffix x os)
  normal e he := h.normal e (List.mem_cons_of_mem _ ((stepOver_suffix x os).subset he))
  entered e he d hd hne := by
    have hmem : e ∈ x::os := List.mem_cons_of_mem _ ((stepOver_suffix x os).subset he)
    rcases h.entered e hmem d hd hne with ⟨y,hy,rfl⟩ | hent
    · -- a directory at or below the head has nothing left below it
      by_cases hyx : x.path <+: y.path
      · exact absurd (hyx.trans hd) (h.preorder.2.1 e he)
      · exact .inl ⟨y,mem_stepOver_of_not_below hy hyx,rfl⟩
    · exact .inr hent

/-- Nothing below a directory that is not entered is seen. -/
theorem visitedKeys_stepOver (h : Frontier ent (x::os)) (hx : ent x.path = false) :
    visitedKeys ent (Iter.stepOver (x::os)) = visitedKeys ent os := by
  by_cases htree : x.isTree = true
  · have hblock : (os.takeWhile fun y => y.path.startsWith x.path).filter (fun e => visited ent e.path) = [] := by
      refine List.filter_eq_nil_iff.mpr fun y hy hv => ?_
      have hpre : x.path <+: y.path :=
        BitPath.startsWith_iff.mp (List.mem_takeWhile_imp (p := fun y : BitIndexEntry => y.path.startsWith x.path) hy)
      have hne : x.path ≠ y.path := fun he => h.preorder.1 y (List.takeWhile_subset _ hy) (he ▸ List.prefix_rfl)
      simp [visited_iff.mp hv x.path hpre hne] at hx
    conv_rhs => rw [← List.takeWhile_append_dropWhile (p := fun y : BitIndexEntry => y.path.startsWith x.path) (l := os)]
    simp only [visitedKeys,List.filter_append,hblock,List.nil_append,Iter.stepOver,htree,if_true]
  · simp only [Iter.stepOver,htree]
    rfl

/-- What the walk still sees after the head was entered or taken with all that is below it. -/
theorem mem_next (h : Frontier ent (x::os)) {y : BitIndexEntry} (hy : visited ent y.path = true) :
    y ∈ (if ent x.path then os else Iter.stepOver (x::os)) ↔ y ∈ x::os ∧ y.path ≠ x.path := by
  have hos {z : BitIndexEntry} (hz : z ∈ os) : z ∈ x::os ∧ z.path ≠ x.path :=
    ⟨List.mem_cons_of_mem _ hz,fun heq => h.preorder.1 z hz (heq ▸ List.prefix_rfl)⟩
  split
  · refine ⟨hos,fun hmem => ?_⟩
    exact (List.mem_cons.mp hmem.1).resolve_left fun heq => hmem.2 (heq ▸ rfl)
  · rename_i hent
    refine ⟨fun hmem => hos ((stepOver_suffix x os).subset hmem),fun hmem => ?_⟩
    exact mem_stepOver_of_not_below hmem.1 fun hpre => hent (visited_iff.mp hy x.path hpre (Ne.symm hmem.2))

theorem next (h : Frontier ent (x::os)) : Frontier ent (if ent x.path then os else Iter.stepOver (x::os)) := by
  split
  · exact h.enter ‹_›
  · exact h.stepOver

theorem next_subset (_ : Frontier ent (x::os)) : (if ent x.path then os else Iter.stepOver (x::os)) ⊆ x::os := by
  split
  · exact List.subset_cons_self x os
  · exact fun y hy => List.mem_cons_of_mem _ ((stepOver_suffix x os).subset hy)

theorem visitedKeys_next (h : Frontier ent (x::os)) :
    visitedKeys ent (x::os) = x.path.asBytes::visitedKeys ent (if ent x.path then os else Iter.stepOver (x::os)) := by
  rw [h.visitedKeys_cons]
  split
  · rfl
  · rw [h.visitedKeys_stepOver (Bool.eq_false_iff.mpr ‹_›)]

theorem nodup (h : Frontier ent l) : (visitedKeys ent l).Nodup := by
  have hpaths : (l.map fun e => e.path.asBytes).Nodup := by
    have hmap : (l.map fun e => e.path.asBytes) = (l.map BitIndexEntry.path).map BitPath.asBytes := by rw [List.map_map]; rfl
    rw [hmap]
    refine h.preorder.nodup.map_on fun p hp q hq hpq => ?_
    obtain ⟨x,hx,rfl⟩ := List.mem_map.mp hp
    obtain ⟨y,hy,rfl⟩ := List.mem_map.mp hq
    exact BitPath.asBytes_injective (h.normal x hx) (h.normal y hy) hpq
  exact ((List.filter_sublist).map _).nodup hpaths

end Frontier

theorem Tree.entryAt_path {t : Tree} {p : BitPath} {e : BitIndexEntry} (h : t.entryAt p = some e) : e.path = p := by
  unfold Tree.entryAt at h
  split at h
  · simp at h
  · exact Option.some.inj h ▸ rfl
  · obtain ⟨s,-,rfl⟩ := Option.map_eq_some_iff.mp h
    rfl

theorem Tree.entryAt_cases {t : Tree} {p : BitPath} {e : BitIndexEntry} (h : t.entryAt p = some e) :
    (∃ a, t.look p = some (some a) ∧ t.sub? p = none ∧ e = .ofTreeEntry ⟨.blob a.1,p,.blob a.2⟩) ∨
      ∃ s, t.look p = some none ∧ t.sub? p = some s ∧ e = .ofTreeEntry ⟨.TREE,p,.tree s⟩ := by
  cases hlook : t.look p with
  | none => simp [Tree.entryAt,hlook] at h
  | some v =>
    cases v with
    | some a =>
      rw [Tree.entryAt_file hlook] at h
      refine .inl ⟨a,rfl,?_,(Option.some.inj h).symm⟩
      by_contra hsub
      obtain ⟨s,hs⟩ := Option.ne_none_iff_exists'.mp hsub
      simp [Forest.look_eq_dir.mpr ⟨s,hs⟩] at hlook
    | none =>
      obtain ⟨s,hs⟩ := Forest.look_eq_dir.mp hlook
      rw [Tree.entryAt_dir hs] at h
      exact .inr ⟨s,rfl,hs,(Option.some.inj h).symm⟩

theorem Tree.entryAt_isSome {t : Tree} {p : BitPath} : (t.entryAt p).isSome = true ↔ t.look p ≠ none := by
  unfold Tree.entryAt
  split
  · simp_all
  · simp_all
  · rename_i h
    obtain ⟨s,hs⟩ := Forest.look_eq_dir.mp h
    simp [h,hs]

theorem Tree.GitOrder.normal {t : Tree} (h : t.GitOrder) {e : BitIndexEntry} (he : e ∈ treeIter (.tree t)) : e.path.Normal := by
  have hlook := Tree.entryAt_isSome.mp (Option.isSome_of_eq_some (h.mem_treeIter.mp he))
  exact h.names.of_look hlook

/-- Before the walk starts. -/
theorem Tree.GitOrder.frontier {t : Tree} (h : t.GitOrder) (ent : BitPath → Bool) : Frontier ent (treeIter (.tree t)) where
  preorder := h.preorder
  normal _ he := h.normal he
  entered e he d hd hne := by
    have hlook := Tree.entryAt_isSome.mp (Option.isSome_of_eq_some (h.mem_treeIter.mp he))
    obtain ⟨s,hs⟩ := Forest.look_eq_dir.mp (Forest.look_prefix hlook hd hne)
    exact .inl ⟨.ofTreeEntry ⟨.TREE,d,.tree s⟩,h.mem_treeIter.mpr (Tree.entryAt_dir hs),rfl⟩

end Frontier
/-- A directory `d` with one file, next to the entries of the rest. -/
def Tree.besideDir (file : Name) (rest : Tree → Tree) : Tree := rest (.node [100] (.leaf file (.REG,[1]) .nil) .nil)

end Libbit
