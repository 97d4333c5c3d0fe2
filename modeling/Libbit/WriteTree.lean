import Libbit.CacheSpec
import Libbit.Refresh
import Libbit.TreeFiles

/-! Writing the tree of an index: it is the one tree that has the entries for its files, whichever of
its directories are taken from the cache. -/
namespace Libbit

open Lib

namespace IndexTreeIter
variable {idx : BitIndexInner} {seen : List BitPath} {e : BitIndexEntry} {rest : List BitIndexEntry}

/-- An entry is yielded once all directories above it were. -/
theorem next_entry (hseen : ∀ q, q <+: e.path.parent → q ∈ seen) : next idx ⟨seen,e::rest⟩ = some (e,⟨seen,rest⟩) := by
  have hroot : [] ∈ seen := hseen [] List.nil_prefix
  have hfind : (e.path.parent.cumulativeComponents.find? fun p => decide (p ∉ seen)) = none := by
    simp only [List.find?_eq_none,decide_eq_true_eq,not_not]
    intro p hp
    by_cases hnil : e.path.parent = []
    · obtain rfl : p = [] := by simpa [hnil,BitPath.cumulativeComponents] using hp
      exact hroot
    · exact hseen p ((BitPath.mem_cumulativeComponents hnil).mp hp).2
  simp only [next,hroot,not_true_eq_false,if_false,hfind]

/-- Before it comes the first directory above it that was not yielded yet. -/
theorem next_dir {d : BitPath} {n : Name} (hd : d++[n] <+: e.path.parent) (hseen : ∀ q, q <+: d → q ∈ seen)
    (hn : d++[n] ∉ seen) :
    next idx ⟨seen,e::rest⟩ = some (idx.createPseudotree (d++[n]),⟨seen++[d++[n]],e::rest⟩) := by
  obtain ⟨q,hq⟩ := hd
  have hroot : [] ∈ seen := hseen [] List.nil_prefix
  have hold : (d.inits.tail.find? fun p => decide (p ∉ seen)) = none := by
    simp only [List.find?_eq_none,decide_eq_true_eq,not_not]
    intro p hp
    exact hseen p ((List.mem_inits p d).mp (List.mem_of_mem_tail hp))
  have hfind : (e.path.parent.cumulativeComponents.find? fun p => decide (p ∉ seen)) = some (d++[n]) := by
    rw [← hq,BitPath.cumulativeComponents_below,List.find?_append,hold,List.find?_cons_of_pos (by simpa using hn)]
    rfl
  simp only [next,hroot,not_true_eq_false,if_false,hfind]

/-- Whatever is yielded next is the next entry or a directory above it. -/
theorem path_of_next (hroot : [] ∈ seen) {x : BitIndexEntry} {iter : IndexTreeIter}
    (h : next idx ⟨seen,e::rest⟩ = some (x,iter)) : x.path <+: e.path := by
  simp only [next,hroot,not_true_eq_false,if_false] at h
  split at h
  · rename_i p hp
    obtain ⟨rfl,-⟩ : idx.createPseudotree p = x ∧ _ := by simpa using h
    have hmem := List.mem_of_find?_eq_some hp
    by_cases hnil : e.path.parent = []
    · obtain rfl : p = [] := by simpa [hnil,BitPath.cumulativeComponents] using hmem
      exact List.nil_prefix
    · exact ((BitPath.mem_cumulativeComponents hnil).mp hmem).2.trans (List.dropLast_prefix _)
  · obtain ⟨rfl,-⟩ : e = x ∧ _ := by simpa using h
    exact List.prefix_rfl

end IndexTreeIter

section Build
variable {idx : BitIndexInner} {cache : Option BitTreeCache}

/-- The list goes on, if at all, with an entry outside of the directory. -/
def BitIndexInner.Leaves (d : BitPath) (rest : List BitIndexEntry) : Prop := ∀ e ∈ rest.head?, ¬d <+: e.path

open BitIndexInner

/-- What the cache says about the directories of a tree is right. -/
def CacheFor (cache : Option BitTreeCache) (pre : BitPath) (t : Tree) : Prop :=
  ∀ d s c, (d,.inr s) ∈ t.entries pre → (cache.bind fun c => c.findValidChild d) = some c →
    c.treeOid = .tree s ∧ c.entryCount = (s.flatten []).length

/-- The first file below a directory brings it in. -/
theorem next_below {sub : Tree} {base : BitPath} {n : Name} {es : List BitIndexEntry} {seen : List BitPath}
    (hsub : sub ≠ .nil) (hcs : sub.Canonical) (h : List.Forall₂ FileOf (Tree.flatten (base++[n]) sub) es)
    (hseen : ∀ q, q <+: base → q ∈ seen) (hdir : base++[n] ∉ seen) (rest : List BitIndexEntry) :
    IndexTreeIter.next idx ⟨seen,es++rest⟩ = some (idx.createPseudotree (base++[n]),⟨seen++[base++[n]],es++rest⟩) := by
  cases es with
  | nil => exact absurd (List.forall₂_nil_right_iff.mp h) (hcs.flatten_ne_nil hsub _)
  | cons e es =>
    obtain ⟨x,xs,hx,-,hflat⟩ := List.forall₂_cons_right_iff.mp h
    obtain ⟨y,-,q,hq,-⟩ := Tree.flatten_append (hflat ▸ List.mem_cons_self : x ∈ Tree.flatten (base++[n]) sub)
    refine IndexTreeIter.next_dir ?_ hseen hdir
    rw [hx.1,hq,BitPath.parent,List.dropLast_append_of_ne_nil (by simp)]
    exact List.prefix_append _ _

/-- After a directory come its siblings, or what follows them. -/
theorem leaves_append {t : Tree} {base : BitPath} {n : Name} {es rest : List BitIndexEntry}
    (hne : ∀ y ∈ Tree.siblings t, y.1 ≠ n) (h : List.Forall₂ FileOf (Tree.flatten base t) es) (hrest : Leaves base rest) :
    Leaves (base++[n]) (es++rest) := by
  intro e he hpre
  cases es with
  | nil => exact hrest e (by simpa using he) ((List.prefix_append base [n]).trans hpre)
  | cons x es =>
    obtain rfl : x = e := by simpa using he
    obtain ⟨z,zs,hz,-,hflat⟩ := List.forall₂_cons_right_iff.mp h
    obtain ⟨y,hy,q,hq,-⟩ := Tree.flatten_append (hflat ▸ List.mem_cons_self : z ∈ Tree.flatten base t)
    obtain ⟨s,hs⟩ := hpre
    rw [hz.1,hq] at hs
    have hcons : n = y.1 ∧ s = q := by simpa using hs
    exact hne y hy hcons.1.symm

/-- The entries of a directory are built into its tree. -/
theorem buildTreeInternal_files {t : Tree} (ht : t.Canonical) {base : BitPath} {es rest : List BitIndexEntry}
    (hes : List.Forall₂ FileOf (t.flatten base) es) (hrest : Leaves base rest) {seen : List BitPath}
    (hseen : ∀ q, q <+: base → q ∈ seen) (hfresh : ∀ n, (n,true) ∈ t.siblings → ∀ q, base++n::q ∉ seen)
    (hcache : CacheFor cache base t) {fuel : ℕ} (hfuel : t.size < fuel) :
    ∃ seen', buildTreeInternal idx cache fuel base ⟨seen,es++rest⟩ = some (t,⟨seen',rest⟩) ∧ seen ⊆ seen' ∧
      ∀ d ∈ seen', d ∈ seen ∨ ∃ n q, (n,true) ∈ t.siblings ∧ d = base++n::q := by
  induction t generalizing base es rest seen fuel with
  | nil =>
    cases hes
    obtain ⟨fuel,rfl⟩ : ∃ k, fuel = k+1 := ⟨fuel-1,by simp [Forest.size] at hfuel; omega⟩
    refine ⟨seen,?_,List.Subset.refl _,fun d hd => .inl hd⟩
    have hroot : [] ∈ seen := hseen [] List.nil_prefix
    simp only [List.nil_append,buildTreeInternal]
    split
    · rfl
    · rename_i x iter hnext
      cases rest with
      | nil => simp [IndexTreeIter.next,hroot] at hnext
      | cons e rest =>
        have hout : x.path.startsWith base = false := by
          rw [Bool.eq_false_iff,ne_eq,BitPath.startsWith_iff]
          exact fun h => hrest e (by simp) (h.trans (IndexTreeIter.path_of_next hroot hnext))
        simp [hout]
  | leaf n a t ih =>
    obtain ⟨e,es,he,hes',rfl⟩ := List.forall₂_cons_left_iff.mp hes
    obtain ⟨fuel,rfl⟩ : ∃ k, fuel = k+1 := ⟨fuel-1,by simp [Forest.size] at hfuel; omega⟩
    obtain ⟨hpath,hmode,hoid,-⟩ := he
    have hpre : (base++[n]).startsWith base = true := BitPath.startsWith_iff.mpr (List.prefix_append _ _)
    have hnext : IndexTreeIter.next idx ⟨seen,e::(es++rest)⟩ = some (e,⟨seen,es++rest⟩) := by
      refine IndexTreeIter.next_entry fun q hq => hseen q ?_
      rwa [hpath,BitPath.parent_append] at hq
    obtain ⟨seen',hbuild,hsub,hnew⟩ := ih ht.2.2 hes' hrest hseen (fun m hm => hfresh m (by simp [Tree.siblings,hm]))
      (fun d s c hd => hcache d s c (by simp [Forest.entries,hd])) (by simpa [Forest.size] using hfuel)
    refine ⟨seen',?_,hsub,fun d hd => (hnew d hd).imp_right ?_⟩
    · simp [buildTreeInternal,hnext,hpath,hpre,hmode,hoid,hbuild,BitPath.fileName_append]
    · rintro ⟨m,q,hm,hq⟩
      exact ⟨m,q,by simp [Tree.siblings,hm],hq⟩
  | node n sub t ihs ihr =>
    have hne {y : Name × Bool} (hy : y ∈ Tree.siblings t) : y.1 ≠ n := Tree.Canonical.ne_of_rest ht hy
    obtain ⟨hn,hlt,hsub,hcs,hct⟩ := ht
    obtain ⟨fuel,rfl⟩ : ∃ k, fuel = k+1 := ⟨fuel-1,by simp [Forest.size] at hfuel; omega⟩
    simp only [Forest.size] at hfuel
    obtain ⟨es₁,es₂,rfl,h₁,h₂⟩ : ∃ es₁ es₂, es = es₁++es₂ ∧
        List.Forall₂ FileOf (Tree.flatten (base++[n]) sub) es₁ ∧ List.Forall₂ FileOf (Tree.flatten base t) es₂ := by
      have htake := List.forall₂_take_append es _ _ hes.flip
      have hdrop := List.forall₂_drop_append es _ _ hes.flip
      exact ⟨_,_,(List.take_append_drop _ es).symm,htake.flip,hdrop.flip⟩
    have hdir : base++[n] ∉ seen := hfresh n (by simp [Tree.siblings]) []
    have hnext : IndexTreeIter.next idx ⟨seen,es₁++(es₂++rest)⟩ = _ := next_below hsub hcs h₁ hseen hdir (es₂++rest)
    have hleaves := leaves_append (fun y hy => hne hy) h₂ hrest
    have hseen' : ∀ q, q <+: base++[n] → q ∈ seen++[base++[n]] := fun q hq => by
      rcases List.prefix_concat_iff.mp hq with rfl | hq
      · simp
      · exact List.mem_append_left _ (hseen q hq)
    obtain ⟨seen₁,hsubtree,hmore₁,hnew₁⟩ := ihs hcs h₁ hleaves hseen'
      (fun m _ q hq => by
        rcases List.mem_append.mp hq with hq | hq
        · exact hfresh n (by simp [Tree.siblings]) (m::q) (by simpa using hq)
        · simp at hq)
      (fun d s c hd => hcache d s c (by simp [Forest.entries,hd])) (show _ < fuel by omega)
    -- the siblings are built with whatever was yielded below the directory
    have hsiblings (seen₂ : List BitPath) (hmore : seen ⊆ seen₂) (hnew : ∀ d ∈ seen₂, d ∈ seen ∨ base++[n] <+: d) :
        ∃ seen', buildTreeInternal idx cache fuel base ⟨seen₂,es₂++rest⟩ = some (t,⟨seen',rest⟩) ∧ seen ⊆ seen' ∧
          ∀ d ∈ seen', d ∈ seen ∨ ∃ m q, (m,true) ∈ Tree.siblings (.node n sub t) ∧ d = base++m::q := by
      obtain ⟨seen',hbuild,hmore',hnew'⟩ := ihr hct h₂ hrest (fun q hq => hmore (hseen q hq))
        (fun m hm q hq => by
          rcases hnew _ hq with hq | ⟨s,hs⟩
          · exact hfresh m (by simp [Tree.siblings,hm]) q hq
          · have hcons : n = m ∧ s = q := by simpa using hs
            exact hne hm hcons.1.symm)
        (fun d s c hd => hcache d s c (by simp [Forest.entries,hd])) (show _ < fuel by omega)
      refine ⟨seen',hbuild,fun x hx => hmore' (hmore hx),fun d hd => ?_⟩
      rcases hnew' d hd with hd | ⟨m,q,hm,hq⟩
      · refine (hnew d hd).imp_right ?_
        rintro ⟨s,rfl⟩
        exact ⟨n,s,by simp [Tree.siblings],by simp⟩
      · exact .inr ⟨m,q,by simp [Tree.siblings,hm],hq⟩
    have hpre : (base++[n]).startsWith base = true := BitPath.startsWith_iff.mpr (List.prefix_append _ _)
    have hpath : (idx.createPseudotree (base++[n])).path = base++[n] := rfl
    have hmode : (idx.createPseudotree (base++[n])).mode = .TREE := rfl
    simp only [List.append_assoc,buildTreeInternal,hnext,hpath,hpre,hmode,Bool.not_true,Bool.false_eq_true,if_false]
    cases hc : (cache.bind fun c => c.findValidChild (base++[n])).filter
        fun c => c.isValid && decide (c.treeOid = (idx.createPseudotree (base++[n])).oid) with
    | none =>
      obtain ⟨seen',hbuild,hprops⟩ := hsiblings seen₁ (fun x hx => hmore₁ (by simp [hx])) fun d hd => by
        rcases hnew₁ d hd with hd | ⟨m,q,-,rfl⟩
        · rcases List.mem_append.mp hd with hd | hd
          · exact .inl hd
          · exact .inr (List.mem_singleton.mp hd ▸ List.prefix_rfl)
        · exact .inr (List.prefix_append _ _)
      exact ⟨seen',by simp [hsubtree,hbuild,BitPath.fileName_append],hprops⟩
    | some c =>
      -- the directory is taken from the cache, and its entries are skipped by their number
      obtain ⟨hfind,hvalid⟩ := Option.filter_eq_some_iff.mp hc
      obtain ⟨htree,hcount⟩ := hcache _ sub c (by simp [Forest.entries]) hfind
      have hoid : (idx.createPseudotree (base++[n])).oid = .tree sub := by
        simp only [Bool.and_eq_true,decide_eq_true_eq] at hvalid
        rw [← hvalid.2,htree]
      have hlen : es₁.length = c.entryCount.toNat := by
        rw [← h₁.length_eq,hcount,Tree.flatten_map]
        simp
      have hdrop : (es₁++(es₂++rest)).drop c.entryCount.toNat = es₂++rest := by rw [← hlen,List.drop_left]
      obtain ⟨seen',hbuild,hprops⟩ := hsiblings (seen++[base++[n]]) (by simp) fun d hd => by
        rcases List.mem_append.mp hd with hd | hd
        · exact .inl hd
        · exact .inr (List.mem_singleton.mp hd ▸ List.prefix_rfl)
      exact ⟨seen',by simp [hoid,IndexTreeIter.stepOverTree,hdrop,hbuild,BitPath.fileName_append],hprops⟩

/-- Every vertex of a tree is on the way to some file. -/
theorem size_le_flatten {t : Tree} (ht : t.Canonical) : t.size ≤ ((t.flatten []).map fun x => x.1.length).sum := by
  induction t with
  | nil => simp [Forest.size,Tree.flatten]
  | leaf n a t ih => simpa [Forest.size,Tree.flatten,Nat.add_comm] using ih ht.2.2
  | node n sub t ihs ihr =>
    have hpos : 0 < (Tree.flatten [] sub).length := List.length_pos_iff.mpr (ht.2.2.2.1.flatten_ne_nil ht.2.2.1 [])
    have hsum : ((Tree.flatten [n] sub).map fun x => x.1.length).sum =
        ((Tree.flatten [] sub).map fun x => x.1.length).sum+(Tree.flatten [] sub).length := by
      rw [Tree.flatten_map]
      generalize Tree.flatten [] sub = l
      induction l with
      | nil => rfl
      | cons x l ih => simp_all; omega
    have hs := ihs ht.2.2.2.1
    have hr := ihr ht.2.2.2.2
    simp only [Forest.size,Tree.flatten,List.nil_append,List.map_append,List.sum_append,hsum]
    omega

/-- `build_tree` on an index that holds the files of a tree, with any cache that is right about it. -/
theorem buildTree_described {t : Tree} (ht : t.Canonical) (hd : idx.Describes t) (hcache : CacheFor cache [] t) :
    buildTree idx cache = some t := by
  have hsum : (idx.entries.map fun e => e.path.length).sum = ((t.flatten []).map fun x => x.1.length).sum := by
    have hmap : (t.flatten []).map (fun x => x.1.length) = idx.entries.map fun e => e.path.length := by
      rw [← List.forall₂_eq_eq_eq,List.forall₂_map_left_iff,List.forall₂_map_right_iff]
      exact hd.imp fun x e he => by rw [he.1]
    rw [hmap]
  obtain ⟨seen,hbuild,-⟩ := @buildTreeInternal_files idx cache t ht [] idx.entries [] hd
    (by simp [Leaves]) [[]] (by simp) (by simp) hcache _ (Nat.lt_succ_of_le (size_le_flatten ht))
  simp only [List.append_nil,← hsum] at hbuild
  simp [buildTree,IndexTreeIter.new,IndexTreeIter.next,hbuild,ht.sort]

theorem cacheFor_none (pre : BitPath) (t : Tree) : CacheFor none pre t := fun _ _ _ _ h => by simp at h

end Build

section Cache

namespace BitTreeCache

/-- Every valid node is what reading its tree afresh would give. -/
def Fresh (c : BitTreeCache) : Prop := ∀ d x, c.findChild d = some x → x.isValid → ∃ s, x = readTree s

theorem Fresh.child {c x : BitTreeCache} (h : c.Fresh) {n : Name} (hx : c.children.get? n = some x) : x.Fresh := by
  intro d y hy
  exact h (n::d) y (by simpa [findChild,hx] using hy)

/-- An update of such a cache is the same as reading the tree afresh. -/
theorem updateEntries_fresh {old : TreeCacheChildren} {t : Tree} (h : ∀ n x, old.get? n = some x → x.Fresh) :
    updateEntries old t = readEntries t := by
  induction t generalizing old with
  | nil => rfl
  | leaf n a rest ih => simp [updateEntries,readEntries,ih h]
  | node n sub rest ihs ihr =>
    cases hc : old.get? n with
    | none => simp [updateEntries,readEntries,hc,ihr h,readTree]
    | some c =>
      have hfresh := h n c hc
      by_cases hstale : !c.isValid ∨ c.treeOid ≠ .tree sub
      · simp only [updateEntries,readEntries,hc,if_pos hstale,ihr h,ihs fun m x hx => hfresh.child hx]
      · -- the child is stolen
        simp only [Bool.not_eq_true',not_or,Bool.not_eq_false,not_not] at hstale
        obtain ⟨s,rfl⟩ := hfresh [] c rfl hstale.1
        obtain rfl : s = sub := by simpa [readTree] using hstale.2
        have hnot : ¬(!(readTree s).isValid ∨ (readTree s).treeOid ≠ .tree s) := by simp [hstale]
        simp only [updateEntries,readEntries,hc,if_neg hnot,ihr h]
        rfl

theorem update_fresh {c : BitTreeCache} (h : c.Fresh) (t : Tree) : c.update t = readTree t := by
  simp only [update,readTree,updateEntries_fresh fun n x hx => h.child hx]

theorem readEntries_count (t : Tree) : (readEntries t).1 = (t.flatten []).length := by
  induction t with
  | nil => rfl
  | leaf n a rest ih => simp [readEntries,Tree.flatten,ih]
  | node n sub rest ihs ihr => simp [readEntries,Tree.flatten,ihs,ihr,Tree.flatten_map [n] sub]

theorem get?_readEntries {t : Tree} {n : Name} {x : BitTreeCache} (h : (readEntries t).2.get? n = some x) (pre : BitPath) :
    ∃ s, x = readTree s ∧ (pre++[n],.inr s) ∈ t.entries pre ∧ ∀ y ∈ s.entries (pre++[n]), y ∈ t.entries pre := by
  induction t with
  | nil => simp [readEntries,TreeCacheChildren.get?] at h
  | leaf m a rest ih =>
    obtain ⟨s,hx,hs,hsub⟩ := ih h
    exact ⟨s,hx,by simp [Forest.entries,hs],fun y hy => by simp [Forest.entries,hsub y hy]⟩
  | node m sub rest _ ih =>
    simp only [readEntries,TreeCacheChildren.get?] at h
    split at h
    · rename_i hm
      subst hm
      exact ⟨sub,(Option.some.inj h).symm,by simp [Forest.entries],fun y hy => by simp [Forest.entries,hy]⟩
    · obtain ⟨s,hx,hs,hsub⟩ := ih h
      exact ⟨s,hx,by simp [Forest.entries,hs],fun y hy => by simp [Forest.entries,hsub y hy]⟩

/-- The nodes of a cache that was read afresh are those of the directories of the tree. -/
theorem findChild_readTree {t : Tree} {d : BitPath} {x : BitTreeCache} (h : (readTree t).findChild d = some x) :
    ∃ s, t.IsDir d s ∧ x = readTree s := by
  have hbelow (pre : BitPath) : d ≠ [] → ∃ s, (pre++d,.inr s) ∈ t.entries pre ∧ x = readTree s := by
    induction d generalizing t pre with
    | nil => simp
    | cons n d ih =>
      intro _
      obtain ⟨y,hy,hx⟩ := Option.bind_eq_some_iff.mp h
      obtain ⟨s,rfl,hs,hsub⟩ := get?_readEntries hy pre
      by_cases hd : d = []
      · subst hd
        exact ⟨s,hs,(Option.some.inj hx).symm⟩
      · obtain ⟨s',hs',hx'⟩ := ih hx (pre++[n]) hd
        exact ⟨s',by simpa using hsub _ hs',hx'⟩
  by_cases hd : d = []
  · subst hd
    exact ⟨t,.inl ⟨rfl,rfl⟩,(Option.some.inj h).symm⟩
  · obtain ⟨s,hs,hx⟩ := hbelow [] hd
    exact ⟨s,.inr hs,hx⟩

end BitTreeCache

namespace BitIndexInner
variable {idx : BitIndexInner}

/-- The entries strictly below a directory. -/
def under (idx : BitIndexInner) (d : BitPath) : List BitIndexEntry := idx.entries.filter fun e => e.path.below d

/-- A valid node of the cache is what reading the tree of the entries below it would give. -/
def CacheExact (idx : BitIndexInner) : Prop :=
  ∀ root ∈ idx.treeCache, ∀ d c, root.findChild d = some c → c.isValid →
    ∃ s : Tree, c = .readTree s ∧ s.Canonical ∧ List.Forall₂ FileOf (s.flatten d) (idx.under d)

theorem cacheExact_of_none (h : idx.treeCache = none) : idx.CacheExact := fun root hroot => by simp [h] at hroot

/-- An operation that changes entries at one path only, and invalidates that path. -/
theorem CacheExact.of_touched {es : List BitIndexEntry} {p : BitPath} (h : idx.CacheExact)
    (hes : ∀ d, ¬d <+: p → es.filter (fun e => e.path.below d) = idx.under d) :
    (invalidateTreeCachePath {idx with entries := es} p).CacheExact := by
  intro root hroot d c hc hvalid
  obtain ⟨old,hold,rfl⟩ := Option.map_eq_some_iff.mp hroot
  rcases BitTreeCache.findChild_invalidatePath hc with hinv | ⟨hd,hc⟩
  · simp [BitTreeCache.isValid,hinv] at hvalid
  · obtain ⟨s,hs,hcanon,hfiles⟩ := h old hold d c hc hvalid
    refine ⟨s,hs,hcanon,?_⟩
    rwa [← hes d hd] at hfiles

theorem CacheExact.removeEntry (h : idx.CacheExact) (k : BitPath × MergeStage) : (idx.removeEntry k).CacheExact := by
  unfold BitIndexInner.removeEntry
  split
  · refine h.of_touched fun d hd => ?_
    rw [under,List.filter_filter]
    refine List.filter_congr fun e _ => ?_
    by_cases hb : e.path.below d = true
    · have hk : e.key ≠ k := by
        rintro rfl
        exact hd (BitPath.below_iff.mp hb).1
      simp [hb,hk]
    · simp [hb]
  · exact h

theorem filter_insertSorted {P : BitIndexEntry → Bool} {e : BitIndexEntry} (hP : ∀ x, x.key = e.key → P x = false)
    (l : List BitIndexEntry) : (insertSorted e l).filter P = l.filter P := by
  induction l with
  | nil => simp [insertSorted,hP e rfl]
  | cons x l ih =>
    unfold insertSorted
    split
    · simp [List.filter_cons,ih]
    · split
      · rename_i hx
        simp [hP e rfl,hP x hx]
      · simp [hP e rfl]

theorem CacheExact.insertEntry (h : idx.CacheExact) (e : BitIndexEntry) : (idx.insertEntry e).CacheExact := by
  refine h.of_touched fun d hd => filter_insertSorted (fun x hx => ?_) _
  rw [Bool.eq_false_iff,ne_eq,BitPath.below_iff]
  rintro ⟨hp,-⟩
  have hpath : x.path = e.path := congrArg Prod.fst hx
  exact hd (hpath ▸ hp)

theorem CacheExact.addedEntry (h : idx.CacheExact) (e : BitIndexEntry) : (idx.addedEntry e).CacheExact := by
  have hremove (idx : BitIndexInner) (k : BitPath × MergeStage) (h : idx.CacheExact) := h.removeEntry k
  exact (removeCollisions_keeps hremove _ (removeConflicted_keeps hremove _ h)).insertEntry e

theorem Describes.under {t s : Tree} (ht : t.Canonical) (h : idx.Describes t) {d : BitPath} (hs : t.IsDir d s) :
    List.Forall₂ FileOf (s.flatten d) (idx.under d) := by
  rw [← ht.filter_below_dir hs]
  exact List.rel_filter (fun {x e} he => by simp only [he.1]) h

/-- The cache of the tree that the index describes. -/
theorem cacheExact_readTree {t : Tree} (ht : t.Canonical) (hd : idx.Describes t) (hc : idx.treeCache = some (.readTree t)) :
    idx.CacheExact := by
  intro root hroot d c hfind _
  obtain rfl : BitTreeCache.readTree t = root := by simpa [hc] using hroot
  obtain ⟨s,hs,rfl⟩ := BitTreeCache.findChild_readTree hfind
  exact ⟨s,rfl,ht.of_isDir hs,hd.under ht hs⟩

theorem CacheExact.fresh (h : idx.CacheExact) {root : BitTreeCache} (hroot : root ∈ idx.treeCache) : root.Fresh :=
  fun d c hc hvalid => (h root hroot d c hc hvalid).imp fun _ hs => hs.1

/-- A valid index of files holds the files of some tree. -/
theorem Valid.describes_tree (h : idx.Valid) (hfile : ∀ e ∈ idx.entries, ∃ a, FileOf (e.path,a) e) :
    ∃ t : Tree, t.Canonical ∧ idx.Describes t := by
  have : Nonempty (BlobMode × Bytes) := ⟨.REG,[]⟩
  choose! a ha using hfile
  have hstage (e : BitIndexEntry) (he : e ∈ idx.entries) : e.stage = .NONE := (ha e he).2.2.2
  have hnormal : ∀ x ∈ idx.entries.map fun e => (e.path,a e), x.1 ≠ [] ∧ BitPath.Normal x.1 := by
    rintro x hx
    obtain ⟨e,he,rfl⟩ := List.mem_map.mp hx
    exact h.normal e he
  have hsorted : (idx.entries.map fun e => (e.path,a e)).Pairwise fun x y => x.1.asBytes < y.1.asBytes := by
    rw [List.pairwise_map]
    refine h.sorted.imp_of_mem fun {e e'} he he' hlt => ?_
    rcases Prod.Lex.toLex_lt_toLex.mp hlt with hlt | ⟨-,hlt⟩
    · exact hlt
    · simp [BitIndexEntry.key,hstage e he,hstage e' he'] at hlt
  refine ⟨Tree.ofFiles (idx.entries.map fun e => (e.path,a e)),Tree.canonical_ofFiles hnormal hsorted,?_⟩
  rw [Describes,Tree.flatten_ofFiles fun x hx => (hnormal x hx).1,List.forall₂_map_left_iff]
  exact List.forall₂_same.mpr ha

theorem Describes.stage {t : Tree} (h : idx.Describes t) {e : BitIndexEntry} (he : e ∈ idx.entries) : e.stage = .NONE := by
  have hmem : (e.key,e.mode,e.oid) ∈ idx.entries.map fun e => (e.key,e.mode,e.oid) := List.mem_map.mpr ⟨e,he,rfl⟩
  rw [← forall₂_fileOf_iff.mp h,List.mem_map] at hmem
  obtain ⟨x,-,hx⟩ := hmem
  exact (congrArg (fun y => y.1.2) hx).symm

/-- The index of a directory alone: the entries below it, with paths that start there. -/
def relative (idx : BitIndexInner) (d : BitPath) : BitIndexInner :=
  ⟨(idx.under d).map fun e => {e with path := e.path.drop d.length},none⟩

/-- A valid node has the tree that is built without a cache from the entries below its directory and
their number, and all nodes below it are valid. -/
def CacheCoherent (idx : BitIndexInner) : Prop :=
  ∀ root ∈ idx.treeCache, ∀ d c, root.findChild d = some c → c.isValid →
    (∃ t, buildTree (idx.relative d) none = some t ∧ c.treeOid = .tree t) ∧ c.entryCount = (idx.under d).length ∧
      ∀ q x, c.findChild q = some x → x.isValid

theorem relative_describes {s : Tree} {d : BitPath} (h : List.Forall₂ FileOf (s.flatten d) (idx.under d)) :
    (idx.relative d).Describes s := by
  rw [Tree.flatten_map,List.forall₂_map_left_iff] at h
  rw [Describes,relative,List.forall₂_map_right_iff]
  refine h.imp fun x e he => ⟨?_,he.2⟩
  simp [he.1]

theorem CacheExact.coherent (h : idx.CacheExact) : idx.CacheCoherent := by
  intro root hroot d c hc hvalid
  obtain ⟨s,rfl,hs,hfiles⟩ := h root hroot d c hc hvalid
  refine ⟨⟨s,buildTree_described hs (relative_describes hfiles) (cacheFor_none _ _),rfl⟩,?_,fun q x hx => ?_⟩
  · rw [← hfiles.length_eq,Tree.flatten_map,List.length_map]
    exact BitTreeCache.readEntries_count s
  · obtain ⟨s',-,rfl⟩ := BitTreeCache.findChild_readTree hx
    simp [BitTreeCache.isValid,BitTreeCache.readTree,BitTreeCache.readEntries_count]

/-- A node that the cache vouches for has the tree of its directory. -/
theorem CacheCoherent.of_isDir {t s : Tree} (h : idx.CacheCoherent) (ht : t.Canonical) (hd : idx.Describes t) {d : BitPath}
    (hs : t.IsDir d s) {c : BitTreeCache} (hc : (idx.treeCache.bind fun cache => cache.findValidChild d) = some c) :
    c.treeOid = .tree s ∧ c.entryCount = (s.flatten []).length := by
  obtain ⟨root,hroot,hfind⟩ := Option.bind_eq_some_iff.mp hc
  obtain ⟨hfind,hpos⟩ := Option.filter_eq_some_iff.mp hfind
  have hvalid : c.isValid = true := by
    simp only [decide_eq_true_eq] at hpos
    simp [BitTreeCache.isValid,hpos.le]
  obtain ⟨⟨t',hbuild,hoid⟩,hcount,-⟩ := h root hroot d c hfind hvalid
  have hfiles := hd.under ht hs
  have hs' := buildTree_described (ht.of_isDir hs) (relative_describes hfiles) (cacheFor_none [] s)
  obtain rfl : s = t' := Option.some.inj (hs'.symm.trans hbuild)
  exact ⟨hoid,by rw [hcount,← hfiles.length_eq,Tree.flatten_map,List.length_map]⟩

theorem CacheCoherent.cacheFor {t : Tree} (h : idx.CacheCoherent) (ht : t.Canonical) (hd : idx.Describes t) :
    CacheFor idx.treeCache [] t := fun _ _ _ hs hc => h.of_isDir ht hd (.inr hs) hc

end BitIndexInner

/-- `write_tree` on an index that holds the files of a tree. -/
theorem writeTree_run {t : Tree} (ht : t.Canonical) {r : Repo} (hd : r.index.Describes t) (hc : r.index.CacheCoherent) :
    writeTree r = .ok t {r with
      index := {r.index with treeCache := some ((r.index.treeCache.map (·.update t)).getD (.readTree t))}} := by
  have hnone : r.index.hasConflicts = false := by
    rw [BitIndexInner.hasConflicts,List.any_eq_false]
    exact fun e he => by simp [hd.stage he,MergeStage.isUnmerged]
  simp only [writeTree,run_getBind,hnone,buildTree_described ht hd (hc.cacheFor ht hd),Bool.false_eq_true,if_false]
  exact bind_of_ok rfl

/-- A right cache is the cache of the tree after it. -/
theorem writeTree_described {t : Tree} (ht : t.Canonical) {r : Repo} (hd : r.index.Describes t) (hc : r.index.CacheExact) :
    writeTree r = .ok t {r with index := {r.index with treeCache := some (.readTree t)}} := by
  have hcache : (r.index.treeCache.map (·.update t)).getD (.readTree t) = .readTree t := by
    cases hroot : r.index.treeCache with
    | none => rfl
    | some root => exact BitTreeCache.update_fresh (hc.fresh hroot) t
  rw [writeTree_run ht hd hc.coherent,hcache]

end Cache

section LosesNothing

/-- The files `a-` and `a/b`. -/
def dashTree : Tree := .leaf [97,45] (.REG,[1]) (.node [97] (.leaf [98] (.EXEC,[2]) .nil) .nil)

def dashIndex : BitIndexInner :=
  ⟨[⟨[[97,45]],.blob .REG,.blob [1],.NONE,.unknown⟩,⟨[[97],[98]],.blob .EXEC,.blob [2],.NONE,.unknown⟩],
    some (.readTree dashTree)⟩

/-- A link `c` was added since the tree was written, so that only the directory is still cached. -/
def dashRepo : Repo :=
  { commits := []
    head := .Symbolic []
    refs := []
    index := dashIndex.insertEntry ⟨[[99]],.blob .LINK,.blob [3],.NONE,.unknown⟩
    indexMtime := none
    worktree := .nil
    clock := 0 }

end LosesNothing
end Libbit
