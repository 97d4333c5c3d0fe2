import Libbit.TreeCache

/-! A refreshed tree cache against a fresh one. Two caches are the same when they find the same nodes along the
same keys. Where the valid nodes of the old cache are right, the refresh of it is the cache that the tree gives. -/
namespace Libbit
namespace TreeCache

open Lib

namespace TreeCaches

theorem get_insert (m : TreeCaches) (k k' : Bytes) (c : BitTreeCache) :
    (m.insert k c).get k' = if k' = k then some c else m.get k' := by
  induction m with
  | nil => simp [insert,get,eq_comm]
  | cons key path oid count children rest _ ih =>
    by_cases hk : key = k
    · subst hk
      by_cases hk' : k' = key
      · simp [insert,get,hk']
      · simp [insert,get,hk',Ne.symm hk']
    · by_cases hk' : key = k'
      · subst hk'
        simp [insert,get,hk]
      · simp [insert,get,hk,hk',ih]

theorem sumCounts_insert {m : TreeCaches} {k : Bytes} (h : m.get k = none) (c : BitTreeCache) :
    (m.insert k c).sumCounts = m.sumCounts+c.entryCount := by
  induction m with
  | nil => simp [insert,sumCounts]
  | cons key path oid count children rest _ ih =>
    by_cases hk : key = k
    · simp [get,hk] at h
    · simp only [get,hk,if_false] at h
      simp only [insert,hk,if_false,sumCounts,ih h]
      ring

/-- A node that is found has its keys among the locations. -/
theorem mem_locations {m : TreeCaches} {k : Bytes} {ks : List Bytes} {c d : BitTreeCache} (h : m.get k = some c)
    (hd : c.findChild ks = some d) : k::ks ∈ m.locations := by
  induction m generalizing k ks c with
  | nil => simp [get] at h
  | cons key path oid count children rest ihc ihr =>
    by_cases hk : key = k
    · subst hk
      obtain rfl : (⟨path,oid,count,children⟩ : BitTreeCache) = c := by simpa [get] using h
      cases ks with
      | nil => simp [locations]
      | cons k ks =>
        obtain ⟨e,he,hd⟩ := Option.bind_eq_some_iff.mp hd
        have hm := ihc he hd
        simp [locations,hm]
    · have hm := ihr (by simpa [get,hk] using h) hd
      simp [locations,hm]

end TreeCaches

namespace BitTreeCache

/-! ### Equality as maps -/

/-- Along every way the two find the same node, or neither finds one. -/
def Same (c d : BitTreeCache) : Prop := ∀ ks, (c.findChild ks).map label = (d.findChild ks).map label

theorem findChild_eq_none {c : BitTreeCache} {ks : List Bytes} (h : ks ∉ []::c.children.locations) :
    c.findChild ks = none := by
  cases ks with
  | nil => simp at h
  | cons k ks =>
    by_contra hc
    obtain ⟨d,hd⟩ := Option.ne_none_iff_exists'.mp hc
    obtain ⟨e,he,hd⟩ := Option.bind_eq_some_iff.mp hd
    exact h (List.mem_cons_of_mem _ (TreeCaches.mem_locations he hd))

/-- The assertion compares along all the ways that there are. -/
theorem eq_iff (c d : BitTreeCache) : c.eq d = true ↔ Same c d := by
  rw [eq,List.all_eq_true]
  constructor
  · intro h ks
    by_cases hk : ks ∈ []::c.children.locations++d.children.locations
    · exact of_decide_eq_true (h ks hk)
    · rw [List.mem_append,not_or] at hk
      have hd : ks ∉ []::d.children.locations := by
        intro hm
        cases hm with
        | head => simp at hk
        | tail _ hm => exact hk.2 hm
      rw [findChild_eq_none hk.1,findChild_eq_none hd]
  · intro h ks _
    exact decide_eq_true (h ks)

theorem Same.refl (c : BitTreeCache) : Same c c := fun _ => rfl

theorem Same.label_eq {c d : BitTreeCache} (h : Same c d) : c.label = d.label := Option.some.inj (h [])

theorem same_of_children {c d : BitTreeCache} (hl : c.label = d.label)
    (h : ∀ k, Option.Rel Same (c.children.get k) (d.children.get k)) : Same c d := by
  intro ks
  cases ks with
  | nil => simp [findChild,hl]
  | cons k ks =>
    have hk := h k
    simp only [findChild]
    cases hc : c.children.get k with
    | none =>
      rw [hc] at hk
      cases hd : d.children.get k with
      | none => rfl
      | some y => rw [hd] at hk; cases hk
    | some x =>
      rw [hc] at hk
      cases hd : d.children.get k with
      | none => rw [hd] at hk; cases hk
      | some y =>
        rw [hd] at hk
        cases hk with
        | some hxy => exact hxy ks

/-! ### Caches to start from -/

/-- The map's key is the path of the child. -/
def Keyed (c : BitTreeCache) : Prop :=
  ∀ ks d, c.findChild ks = some d → ∀ k e, d.children.get k = some e → e.path = k

/-- The node is the cache of the tree that it names. -/
def Fresh (repo : BitRepo) (d : BitTreeCache) : Prop :=
  ∃ tree fuel fresh, repo.readObjTree d.treeOid = .ok tree ∧ readTreeInternal repo fuel tree d.path = .ok fresh ∧
    Same d fresh

/-- The valid nodes are right, whatever is invalid above them or below them. -/
def Honest (repo : BitRepo) (c : BitTreeCache) : Prop :=
  ∀ ks d, c.findChild ks = some d → d.isValid → Fresh repo d

section
variable {repo : BitRepo} {c d : BitTreeCache} {k : Bytes}

theorem Keyed.child (h : Keyed c) (hd : c.children.get k = some d) : Keyed d := by
  intro ks x hx
  apply h (k::ks) x
  simpa [findChild,hd] using hx

theorem Keyed.path_eq (h : Keyed c) (hd : c.children.get k = some d) : d.path = k := h [] c rfl k d hd

theorem Honest.child (h : Honest repo c) (hd : c.children.get k = some d) : Honest repo d := by
  intro ks x hx
  apply h (k::ks) x
  simpa [findChild,hd] using hx

theorem Honest.fresh (h : Honest repo c) (hd : c.children.get k = some d) (hv : d.isValid) : Fresh repo d :=
  h.child hd [] d rfl hv

theorem findChild_leaf {p : Bytes} {o : IndexFile.Oid} {n : ℤ} {ks : List Bytes}
    (h : (⟨p,o,n,.nil⟩ : BitTreeCache).findChild ks = some d) : d = ⟨p,o,n,.nil⟩ := by
  cases ks with
  | nil => exact (Option.some.inj h).symm
  | cons k ks => simp [findChild,TreeCaches.get] at h

/-- A node as it is before anything was read. -/
theorem keyed_leaf (p : Bytes) (o : IndexFile.Oid) (n : ℤ) : Keyed ⟨p,o,n,.nil⟩ := by
  intro ks d hd k e he
  obtain rfl := findChild_leaf hd
  simp [TreeCaches.get] at he

theorem honest_leaf (repo : BitRepo) (p : Bytes) (o : IndexFile.Oid) : Honest repo ⟨p,o,-1,.nil⟩ := by
  intro ks d hd hv
  obtain rfl := findChild_leaf hd
  simp [isValid] at hv

end

end BitTreeCache

theorem TreeCaches.get_ofFile {m : IndexFile.TreeCaches} {k : Bytes} {c : BitTreeCache} (h : (ofFile m).get k = some c) :
    c.path = k ∧ c.Keyed := by
  induction m generalizing k c with
  | nil => simp [ofFile,get] at h
  | cons path oid count children rest ihc ihr =>
    by_cases hk : path = k
    · subst hk
      obtain rfl : (⟨path,oid,count,ofFile children⟩ : BitTreeCache) = c := by simpa [ofFile,get] using h
      refine ⟨rfl,?_⟩
      intro ks d hd k e he
      cases ks with
      | nil =>
        obtain rfl := Option.some.inj hd
        exact (ihc he).1
      | cons k' ks =>
        obtain ⟨x,hx,hd⟩ := Option.bind_eq_some_iff.mp hd
        exact (ihc hx).2 ks d hd k e he
    · exact ihr (by simpa [ofFile,get,hk] using h)

/-- What is read from an index file has its nodes under their paths. -/
theorem BitTreeCache.keyed_ofFile (c : IndexFile.BitTreeCache) : (ofFile c).Keyed := by
  intro ks d hd k e he
  cases ks with
  | nil =>
    obtain rfl := Option.some.inj hd
    exact (TreeCaches.get_ofFile he).1
  | cons k' ks =>
    obtain ⟨x,hx,hd⟩ := Option.bind_eq_some_iff.mp hd
    exact (TreeCaches.get_ofFile hx).2 ks d hd k e he

/-! ### Trees to read -/

/-- The names of the entries that are directories. -/
def dirNames (es : List TreeFormat.TreeEntry) : List Bytes := (es.filter fun e => e.isTree).map (·.path)

/-- All of the tree is in the repository, and no gitlink is in it. -/
inductive Readable (repo : BitRepo) : Tree → Prop
  | mk {tree : Tree} (hlink : ∀ e ∈ tree.entries, e.mode ≠ .GITLINK)
      (hread : ∀ e ∈ tree.entries, e.isTree → ∃ s, repo.readObjTree e.oid = .ok s)
      (hsub : ∀ e ∈ tree.entries, e.isTree → ∀ s, repo.readObjTree e.oid = .ok s → Readable repo s) :
      Readable repo tree

/-- The second is the first or below it, at any depth. -/
inductive Holds (repo : BitRepo) : Tree → Tree → Prop
  | refl (tree : Tree) : Holds repo tree tree
  | sub {tree s u : Tree} {e : TreeFormat.TreeEntry} (he : e ∈ tree.entries) (ht : e.isTree)
      (hs : repo.readObjTree e.oid = .ok s) (hu : Holds repo s u) : Holds repo tree u

/-- No tree object names a directory twice. -/
def NamesOnce (repo : BitRepo) (tree : Tree) : Prop := ∀ u, Holds repo tree u → (dirNames u.entries).Nodup

namespace BitTreeCache
variable {repo : BitRepo}

/-! ### What more fuel changes -/

theorem readEntry_mono {r r' : Tree → Bytes → Except IndexFile.Error BitTreeCache}
    (h : ∀ t p c, r t p = .ok c → r' t p = .ok c) (c : BitTreeCache) (e : TreeFormat.TreeEntry) (d : BitTreeCache)
    (hr : readEntry repo r c e = .ok d) : readEntry repo r' c e = .ok d := by
  unfold readEntry at hr ⊢
  cases hm : e.mode with
  | TREE =>
    simp only [hm] at hr ⊢
    obtain ⟨s,hs,hr⟩ := except_bind_eq_ok.mp hr
    obtain ⟨x,hx,hr⟩ := except_bind_eq_ok.mp hr
    rw [hs]
    change (r' s e.path >>= _) = _
    rw [h s e.path x hx]
    exact hr
  | _ => simpa only [hm] using hr

theorem readTreeInternal_succ {fuel : ℕ} {tree : Tree} {p : Bytes} {c : BitTreeCache}
    (h : readTreeInternal repo fuel tree p = .ok c) : readTreeInternal repo (fuel+1) tree p = .ok c := by
  induction fuel generalizing tree p c with
  | zero => cases h
  | succ fuel ih => exact foldlM_mono (readEntry_mono fun t p c h => ih h) h

theorem readTreeInternal_mono {fuel fuel' : ℕ} (hle : fuel ≤ fuel') {tree : Tree} {p : Bytes} {c : BitTreeCache}
    (h : readTreeInternal repo fuel tree p = .ok c) : readTreeInternal repo fuel' tree p = .ok c := by
  induction hle with
  | refl => exact h
  | step _ ih => exact readTreeInternal_succ ih

/-- Two reads that both return agree. -/
theorem readTreeInternal_unique {m n : ℕ} {tree : Tree} {p : Bytes} {c d : BitTreeCache}
    (hc : readTreeInternal repo m tree p = .ok c) (hd : readTreeInternal repo n tree p = .ok d) : c = d := by
  have hm := readTreeInternal_mono (Nat.le_max_left m n) hc
  rw [readTreeInternal_mono (Nat.le_max_right m n) hd] at hm
  exact (Except.ok.inj hm).symm

/-! ### One entry -/

/-- With that much fuel any cache to start from is refreshed to what is read. -/
def Refreshes (repo : BitRepo) (fuel : ℕ) (tree : Tree) : Prop :=
  ∀ c, c.Keyed → c.Honest repo → ∃ c' fresh, updateInternal repo fuel c tree = .ok c' ∧
    readTreeInternal repo fuel tree c.path = .ok fresh ∧ Same c' fresh

/-- A tree that refreshes anything is read under any path. -/
theorem Refreshes.read {fuel : ℕ} {tree : Tree} (h : Refreshes repo fuel tree) (p : Bytes) :
    ∃ fresh, readTreeInternal repo fuel tree p = .ok fresh := by
  obtain ⟨_,fresh,_,hf,_⟩ := h ⟨p,.UNKNOWN,-1,.nil⟩ (keyed_leaf _ _ _) (honest_leaf _ _ _)
  exact ⟨fresh,hf⟩

/-- The two loops after the same entries. The names are those of the directories to come. -/
structure InStep (old : TreeCaches) (names : List Bytes) (c : BitTreeCache) (newChildren : TreeCaches)
    (f : BitTreeCache) : Prop where
  path : c.path = f.path
  treeOid : c.treeOid = f.treeOid
  count : f.entryCount = c.entryCount+newChildren.sumCounts
  children : ∀ k, Option.Rel Same (newChildren.get k) (f.children.get k)
  unseen : ∀ k ∈ names, newChildren.get k = none
  untouched : ∀ k ∈ names, c.children.get k = old.get k

section
variable {old newChildren : TreeCaches} {c f : BitTreeCache} {e : TreeFormat.TreeEntry} {es : List TreeFormat.TreeEntry}
  {fuel : ℕ}

theorem dirNames_cons_of_file (h : e.isTree = false) : dirNames (e::es) = dirNames es := by simp [dirNames,h]

theorem dirNames_cons_of_tree (h : e.isTree) : dirNames (e::es) = e.path::dirNames es := by simp [dirNames,h]

theorem InStep.file (h : InStep old (dirNames (e::es)) c newChildren f) (he : e.isTree = false) :
    InStep old (dirNames es) {c with entryCount := c.entryCount+1} newChildren {f with entryCount := f.entryCount+1} := by
  rw [dirNames_cons_of_file he] at h
  refine ⟨h.path,h.treeOid,?_,h.children,h.unseen,h.untouched⟩
  change f.entryCount+1 = c.entryCount+1+newChildren.sumCounts
  rw [h.count]
  ring

/-- A child joins both maps. What happens to the old children of that name does not matter any more. -/
theorem InStep.dir (h : InStep old (dirNames (e::es)) c newChildren f) (he : e.isTree)
    (hn : (dirNames (e::es)).Nodup) {child fresh : BitTreeCache} (hs : Same child fresh) {oldChildren : TreeCaches}
    (hold : ∀ k, k ≠ e.path → oldChildren.get k = c.children.get k) :
    InStep old (dirNames es) {c with children := oldChildren} (newChildren.insert e.path child)
      {f with entryCount := f.entryCount+fresh.entryCount, children := f.children.insert e.path fresh} := by
  rw [dirNames_cons_of_tree he] at h hn
  obtain ⟨hnot,_⟩ := List.nodup_cons.mp hn
  have hne : ∀ k ∈ dirNames es, k ≠ e.path := fun k hk hke => hnot (hke ▸ hk)
  refine ⟨h.path,h.treeOid,?_,?_,?_,?_⟩
  · have hc : child.entryCount = fresh.entryCount := congrArg (·.2.2) hs.label_eq
    change f.entryCount+fresh.entryCount = c.entryCount+(newChildren.insert e.path child).sumCounts
    rw [TreeCaches.sumCounts_insert (h.unseen _ List.mem_cons_self),h.count,hc]
    ring
  · intro k
    change Option.Rel Same ((newChildren.insert e.path child).get k) ((f.children.insert e.path fresh).get k)
    rw [TreeCaches.get_insert,TreeCaches.get_insert]
    by_cases hk : k = e.path
    · simpa only [hk,if_true] using Option.Rel.some hs
    · simpa only [hk,if_false] using h.children k
  · intro k hk
    rw [TreeCaches.get_insert]
    simpa only [hne k hk,if_false] using h.unseen k (List.mem_cons_of_mem _ hk)
  · intro k hk
    exact (hold k (hne k hk)).trans (h.untouched k (List.mem_cons_of_mem _ hk))

/-- A child that there was is right in the end: refreshed where that is needed, and right before where not. -/
theorem refreshChild_same {child : BitTreeCache} {s : Tree} (hkey : child.Keyed) (hhon : child.Honest repo)
    (hs : repo.readObjTree e.oid = .ok s) (hr : Refreshes repo fuel s) :
    ∃ child' fresh, refreshChild repo (updateInternal repo fuel) child e = .ok child' ∧
      readTreeInternal repo fuel s child.path = .ok fresh ∧ Same child' fresh := by
  unfold refreshChild
  by_cases hc : !child.isValid ∨ child.treeOid ≠ e.oid
  · obtain ⟨child',fresh,hu,hf,hsame⟩ := hr child hkey hhon
    refine ⟨child',fresh,?_,hf,hsame⟩
    rw [if_pos hc,hs]
    exact hu
  · rw [if_neg hc]
    rw [not_or,not_not] at hc
    obtain ⟨hv,ho⟩ := hc
    obtain ⟨tree,n,fresh,ht,hf,hsame⟩ := hhon [] child rfl (by simpa using hv)
    obtain rfl : s = tree := Except.ok.inj (hs.symm.trans (ho ▸ ht))
    obtain ⟨fresh',hf'⟩ := hr.read child.path
    obtain rfl := readTreeInternal_unique hf' hf
    exact ⟨child,fresh',rfl,hf',hsame⟩

theorem readEntry_tree (hm : e.mode = .TREE) {s : Tree} (hs : repo.readObjTree e.oid = .ok s) {fresh : BitTreeCache}
    (hf : readTreeInternal repo fuel s e.path = .ok fresh) (f : BitTreeCache) :
    readEntry repo (readTreeInternal repo fuel) f e
      = .ok {f with entryCount := f.entryCount+fresh.entryCount, children := f.children.insert e.path fresh} := by
  simp only [readEntry,hm,hs,hf,Except.bind,bind,pure,Except.pure]

theorem updateEntry_none (hm : e.mode = .TREE) {s : Tree} (hs : repo.readObjTree e.oid = .ok s) {fresh : BitTreeCache}
    (hf : readTreeInternal repo fuel s e.path = .ok fresh) (hc : c.children.get e.path = none) :
    updateEntry repo (readTreeInternal repo fuel) (updateInternal repo fuel) (c,newChildren) e
      = .ok (c,newChildren.insert e.path fresh) := by
  simp only [updateEntry,hm,hc,hs,hf,Except.bind,bind,pure,Except.pure]

/-- The assertion holds because the child is right. -/
theorem updateEntry_some (hm : e.mode = .TREE) {s : Tree} (hs : repo.readObjTree e.oid = .ok s)
    {child child' fresh : BitTreeCache} (hf : readTreeInternal repo fuel s e.path = .ok fresh)
    (hc : c.children.get e.path = some child)
    (hr : refreshChild repo (updateInternal repo fuel) child e = .ok child') (hsame : Same child' fresh) :
    updateEntry repo (readTreeInternal repo fuel) (updateInternal repo fuel) (c,newChildren) e
      = .ok ({c with children := c.children.insert e.path default},newChildren.insert e.path child') := by
  have he := (eq_iff child' fresh).mpr hsame
  simp only [updateEntry,hm,hc,hr,hs,hf,ensure,he,if_true,Except.bind,bind,pure,Except.pure]

/-- One round of both loops. -/
theorem updateEntry_inStep (hkey : ∀ k d, old.get k = some d → d.path = k ∧ d.Keyed)
    (hhon : ∀ k d, old.get k = some d → d.Honest repo) (hlink : e.mode ≠ .GITLINK)
    (hread : e.isTree → ∃ s, repo.readObjTree e.oid = .ok s)
    (hsub : e.isTree → ∀ s, repo.readObjTree e.oid = .ok s → Refreshes repo fuel s)
    (hn : (dirNames (e::es)).Nodup) (h : InStep old (dirNames (e::es)) c newChildren f) :
    ∃ c' newChildren' f',
      updateEntry repo (readTreeInternal repo fuel) (updateInternal repo fuel) (c,newChildren) e
        = .ok (c',newChildren') ∧ readEntry repo (readTreeInternal repo fuel) f e = .ok f' ∧
      InStep old (dirNames es) c' newChildren' f' := by
  cases hm : e.mode with
  | REG =>
    refine ⟨_,_,_,by simp only [updateEntry,hm],by simp only [readEntry,hm],h.file ?_⟩
    simp [TreeFormat.TreeEntry.isTree,hm]
  | EXEC =>
    refine ⟨_,_,_,by simp only [updateEntry,hm],by simp only [readEntry,hm],h.file ?_⟩
    simp [TreeFormat.TreeEntry.isTree,hm]
  | LINK =>
    refine ⟨_,_,_,by simp only [updateEntry,hm],by simp only [readEntry,hm],h.file ?_⟩
    simp [TreeFormat.TreeEntry.isTree,hm]
  | GITLINK => exact absurd hm hlink
  | TREE =>
    have ht : e.isTree := by simp [TreeFormat.TreeEntry.isTree,hm]
    obtain ⟨s,hs⟩ := hread ht
    have hr := hsub ht s hs
    have hget : c.children.get e.path = old.get e.path := h.untouched _ (by simp [dirNames_cons_of_tree ht])
    cases hold : old.get e.path with
    | none =>
      obtain ⟨fresh,hf⟩ := hr.read e.path
      exact ⟨_,_,_,updateEntry_none hm hs hf (hget.trans hold),readEntry_tree hm hs hf f,
        h.dir ht hn (Same.refl fresh) fun _ _ => rfl⟩
    | some child =>
      obtain ⟨hp,hck⟩ := hkey _ _ hold
      obtain ⟨child',fresh,hc',hf,hsame⟩ := refreshChild_same hck (hhon _ _ hold) hs hr
      rw [hp] at hf
      refine ⟨_,_,_,updateEntry_some hm hs hf (hget.trans hold) hc' hsame,readEntry_tree hm hs hf f,
        h.dir ht hn hsame ?_⟩
      intro k hk
      rw [TreeCaches.get_insert,if_neg hk]

/-- Both loops, to the end of the entries. -/
theorem updateEntries_inStep (hkey : ∀ k d, old.get k = some d → d.path = k ∧ d.Keyed)
    (hhon : ∀ k d, old.get k = some d → d.Honest repo) (hlink : ∀ e ∈ es, e.mode ≠ .GITLINK)
    (hread : ∀ e ∈ es, e.isTree → ∃ s, repo.readObjTree e.oid = .ok s)
    (hsub : ∀ e ∈ es, e.isTree → ∀ s, repo.readObjTree e.oid = .ok s → Refreshes repo fuel s)
    (hn : (dirNames es).Nodup) (h : InStep old (dirNames es) c newChildren f) :
    ∃ c' newChildren' f',
      es.foldlM (updateEntry repo (readTreeInternal repo fuel) (updateInternal repo fuel)) (c,newChildren)
        = .ok (c',newChildren') ∧ es.foldlM (readEntry repo (readTreeInternal repo fuel)) f = .ok f' ∧
      InStep old [] c' newChildren' f' := by
  induction es generalizing c newChildren f with
  | nil => exact ⟨c,newChildren,f,rfl,rfl,h⟩
  | cons e es ih =>
    obtain ⟨c₁,new₁,f₁,hu,hr,h₁⟩ := updateEntry_inStep hkey hhon (hlink e List.mem_cons_self)
      (hread e List.mem_cons_self) (hsub e List.mem_cons_self) hn h
    have hn' : (dirNames es).Nodup := by
      have hs : (dirNames es).Sublist (dirNames (e::es)) := ((List.sublist_cons_self e es).filter _).map _
      exact hn.sublist hs
    obtain ⟨c₂,new₂,f₂,hus,hrs,h₂⟩ := ih (fun x hx => hlink x (List.mem_cons_of_mem _ hx))
      (fun x hx => hread x (List.mem_cons_of_mem _ hx)) (fun x hx => hsub x (List.mem_cons_of_mem _ hx)) hn' h₁
    refine ⟨c₂,new₂,f₂,?_,?_,h₂⟩
    · rw [List.foldlM_cons,hu]
      exact hus
    · rw [List.foldlM_cons,hr]
      exact hrs

/-! ### The tree -/

/-- Where the subtrees refresh any cache, the tree does. -/
theorem refreshes_succ {tree : Tree} (hlink : ∀ e ∈ tree.entries, e.mode ≠ .GITLINK)
    (hread : ∀ e ∈ tree.entries, e.isTree → ∃ s, repo.readObjTree e.oid = .ok s)
    (hsub : ∀ e ∈ tree.entries, e.isTree → ∀ s, repo.readObjTree e.oid = .ok s → Refreshes repo fuel s)
    (hn : (dirNames tree.entries).Nodup) : Refreshes repo (fuel+1) tree := by
  intro c hkey hhon
  have h₀ : InStep c.children (dirNames tree.entries) {c with treeOid := tree.oid, entryCount := 0} .nil
      ⟨c.path,tree.oid,0,.nil⟩ :=
    ⟨rfl,rfl,rfl,fun _ => Option.Rel.none,fun _ _ => rfl,fun _ _ => rfl⟩
  obtain ⟨c',new',f',hu,hr,h⟩ := updateEntries_inStep (fun k d hd => ⟨hkey.path_eq hd,hkey.child hd⟩)
    (fun k d hd => hhon.child hd) hlink hread hsub hn h₀
  refine ⟨{c' with entryCount := c'.entryCount+new'.sumCounts, children := new'},f',?_,hr,?_⟩
  · rw [updateInternal,hu]
    rfl
  · refine same_of_children ?_ h.children
    rw [label,label,h.count,← h.path,← h.treeOid]

theorem refreshes_of_readable {tree : Tree} (h : Readable repo tree) (hn : NamesOnce repo tree) :
    ∀ᶠ fuel in Filter.atTop, Refreshes repo fuel tree := by
  induction h with
  | @mk tree hlink hread hsub ih =>
    have hsubs : ∀ e ∈ {e | e ∈ tree.entries}, ∀ᶠ fuel in Filter.atTop,
        e.isTree → ∀ s, repo.readObjTree e.oid = .ok s → Refreshes repo fuel s := by
      intro e he
      by_cases ht : e.isTree
      · obtain ⟨s,hs⟩ := hread e he ht
        refine (ih e he ht s hs fun u hu => hn u (.sub he ht hs hu)).mono ?_
        intro fuel hf _ s' hs'
        obtain rfl : s = s' := Except.ok.inj (hs.symm.trans hs')
        exact hf
      · exact .of_forall fun _ ht' => absurd ht' ht
    obtain ⟨n,hall⟩ := Filter.eventually_atTop.mp
      ((Filter.eventually_all_finite tree.entries.finite_toSet).mpr hsubs)
    refine Filter.eventually_atTop.mpr ⟨n+1,?_⟩
    intro fuel hle
    obtain ⟨m,rfl⟩ : ∃ m, fuel = m+1 := ⟨fuel-1,by omega⟩
    exact refreshes_succ hlink hread (hall m (by omega)) (hn tree (.refl tree))

/-- Whatever the tree has to do with the old cache, the refreshed cache is the one that is read afresh, with any
fuel from some amount on. -/
theorem update_same_readTree {c : BitTreeCache} {tree : Tree} (hroot : c.path = []) (hkey : c.Keyed)
    (hhon : c.Honest repo) (ht : Readable repo tree) (hn : NamesOnce repo tree) :
    ∀ᶠ fuel in Filter.atTop, ∃ c' fresh, update repo fuel c tree = .ok c' ∧ readTree repo fuel tree = .ok fresh ∧
      Same c' fresh := by
  refine (refreshes_of_readable ht hn).mono ?_
  intro fuel h
  obtain ⟨c',fresh,hu,hr,hsame⟩ := h c hkey hhon
  refine ⟨c',fresh,?_,?_,hsame⟩
  · rw [update,ensure,if_pos hroot]
    exact hu
  · rw [readTree,← hroot]
    exact hr

end

/-! ### A tree with one directory -/

/-- The id of the one tree object. -/
def srcOid : IndexFile.Oid := ⟨List.replicate 20 1,rfl⟩

/-- A directory with one file. -/
def srcRepo : BitRepo := ⟨fun o => if o = srcOid then some [⟨.REG,[102],.UNKNOWN⟩] else none⟩

/-- The directory as an entry of the tree above it. -/
def srcEntry : TreeFormat.TreeEntry := ⟨.TREE,[115],srcOid⟩

def srcTree : Tree := ⟨.UNKNOWN,[srcEntry,⟨.REG,[116],.UNKNOWN⟩]⟩

/-- A tree object that names the directory twice. -/
def twiceTree : Tree := ⟨.UNKNOWN,[srcEntry,srcEntry]⟩

theorem readable_leaf (o : IndexFile.Oid) : Readable srcRepo ⟨o,[⟨.REG,[102],.UNKNOWN⟩]⟩ := by
  refine ⟨?_,?_,?_⟩
  · simp
  · simp [TreeFormat.TreeEntry.isTree]
  · simp [TreeFormat.TreeEntry.isTree]

theorem readObjTree_src : srcRepo.readObjTree srcOid = .ok ⟨srcOid,[⟨.REG,[102],.UNKNOWN⟩]⟩ := rfl

theorem readable_of_src {o : IndexFile.Oid} {es : List TreeFormat.TreeEntry} (h : ∀ e ∈ es, e = srcEntry ∨ e.mode = .REG) :
    Readable srcRepo ⟨o,es⟩ := by
  have hmode : ∀ e ∈ es, e.isTree → e.oid = srcOid := by
    intro e he ht
    obtain rfl | hr := h e he
    · rfl
    · simp [TreeFormat.TreeEntry.isTree,hr] at ht
  refine ⟨?_,?_,?_⟩
  · intro e he
    obtain rfl | hr := h e he
    · decide
    · simp [hr]
  · intro e he ht
    exact ⟨_,by rw [hmode e he ht]; exact readObjTree_src⟩
  · intro e he ht s hs
    rw [hmode e he ht,readObjTree_src] at hs
    obtain rfl := Except.ok.inj hs
    exact readable_leaf _

/-- The directory is valid below an invalid root. -/
def staleRoot : BitTreeCache := ⟨[],.UNKNOWN,-1,.cons [115] [115] srcOid 1 .nil .nil⟩

theorem findChild_staleRoot {ks : List Bytes} {d : BitTreeCache} (h : staleRoot.findChild ks = some d) :
    d = staleRoot ∨ d = ⟨[115],srcOid,1,.nil⟩ := by
  cases ks with
  | nil => exact .inl (Option.some.inj h).symm
  | cons k ks =>
    obtain ⟨x,hx,hd⟩ := Option.bind_eq_some_iff.mp h
    simp only [staleRoot,TreeCaches.get] at hx
    split at hx
    · obtain rfl := Option.some.inj hx
      exact .inr (findChild_leaf hd)
    · cases hx

theorem keyed_staleRoot : staleRoot.Keyed := by
  intro ks d hd k e he
  obtain rfl | rfl := findChild_staleRoot hd
  · simp only [staleRoot,TreeCaches.get] at he
    split at he
    · obtain rfl := Option.some.inj he
      assumption
    · cases he
  · simp [TreeCaches.get] at he

theorem honest_staleRoot : staleRoot.Honest srcRepo := by
  intro ks d hd hv
  obtain rfl | rfl := findChild_staleRoot hd
  · simp [staleRoot,isValid] at hv
  · exact ⟨_,1,⟨[115],srcOid,1,.nil⟩,readObjTree_src,rfl,.refl _⟩

theorem namesOnce_srcTree : NamesOnce srcRepo srcTree := by
  intro u hu
  cases hu with
  | refl => decide
  | sub he ht hs hu =>
    simp only [srcTree,List.mem_cons,List.not_mem_nil,or_false] at he
    obtain rfl | rfl := he
    · obtain rfl := Except.ok.inj (readObjTree_src.symm.trans hs)
      cases hu with
      | refl => decide
      | sub he ht hs hu =>
        obtain rfl := List.mem_singleton.mp he
        cases ht
    · cases ht

theorem update_same_readTree_staleRoot : ∀ᶠ fuel in Filter.atTop, ∃ c' fresh,
    update srcRepo fuel staleRoot srcTree = .ok c' ∧ readTree srcRepo fuel srcTree = .ok fresh ∧ Same c' fresh :=
  update_same_readTree rfl keyed_staleRoot honest_staleRoot (readable_of_src (by simp)) namesOnce_srcTree

/-- The refresh puts the children into a map before it counts, the fresh read counts as it goes, so that only the
second counts a directory that is named twice two times. -/
theorem twice_named_miscounted : ∃ repo c tree, c.path = [] ∧ c.Keyed ∧ c.Honest repo ∧ Readable repo tree ∧
    ∀ fuel, 2 ≤ fuel → ∃ c' fresh, update repo fuel c tree = .ok c' ∧ readTree repo fuel tree = .ok fresh ∧
      c'.entryCount = 1 ∧ fresh.entryCount = 2 ∧ ¬Same c' fresh := by
  refine ⟨srcRepo,default,twiceTree,rfl,keyed_leaf _ _ _,honest_leaf _ _ _,readable_of_src (by simp),?_⟩
  intro fuel hf
  obtain ⟨n,rfl⟩ : ∃ n, fuel = n+2 := ⟨fuel-2,by omega⟩
  refine ⟨⟨[],.UNKNOWN,1,.cons [115] [115] srcOid 1 .nil .nil⟩,⟨[],.UNKNOWN,2,.cons [115] [115] srcOid 1 .nil .nil⟩,
    rfl,rfl,rfl,rfl,?_⟩
  intro h
  have hl := congrArg (·.2.2) h.label_eq
  simp [label] at hl

end BitTreeCache
end TreeCache
end Libbit
