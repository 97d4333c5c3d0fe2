import Libbit.IndexSpec

/-! The tree cache next to the entries it remembers. Whatever changes an entry invalidates the
directories above it, so that a directory the cache still vouches for is held by the index. -/
namespace Libbit

open Lib

theorem TreeCacheChildren.get?_invalidatePath (c : TreeCacheChildren) (n : Name) (p : BitPath) (m : Name) :
    (c.invalidatePath (n::p)).get? m = if m = n then (c.get? m).map (·.invalidatePath p) else c.get? m := by
  induction c with
  | nil => simp [invalidatePath,get?]
  | cons k oid count children rest _ ih =>
    by_cases hk : k = n
    · subst hk
      by_cases hm : k = m
      · subst hm
        simp [invalidatePath,get?,BitTreeCache.invalidatePath]
      · simp [invalidatePath,get?,hm,Ne.symm hm]
    · by_cases hm : k = m
      · subst hm
        simp [invalidatePath,get?,hk]
      · simp [invalidatePath,get?,hk,hm,ih]

namespace BitTreeCache

/-- The nodes on the way to the path are invalid; the others are as they were. -/
theorem findChild_invalidatePath {c x : BitTreeCache} {p d : BitPath} (h : (c.invalidatePath p).findChild d = some x) :
    x.entryCount = -1 ∨ ¬d <+: p ∧ c.findChild d = some x := by
  induction d generalizing c p with
  | nil =>
    obtain rfl : c.invalidatePath p = x := by simpa [findChild] using h
    exact .inl rfl
  | cons m d ih =>
    cases p with
    | nil =>
      have hnil : c.children.invalidatePath [] = c.children := by cases c.children <;> rfl
      exact .inr ⟨by simp,by simpa [findChild,invalidatePath,hnil] using h⟩
    | cons n p =>
      simp only [findChild,invalidatePath,TreeCacheChildren.get?_invalidatePath] at h
      by_cases hm : m = n
      · subst hm
        cases hget : c.children.get? m with
        | none => simp [hget] at h
        | some child =>
          simp only [hget,if_true,Option.map_some,Option.bind_some] at h
          refine (ih h).imp_right fun h => ⟨fun hp => h.1 (List.cons_prefix_cons.mp hp).2,?_⟩
          simpa [findChild,hget] using h.2
      · simp only [hm,if_false] at h
        exact .inr ⟨fun hp => hm (List.cons_prefix_cons.mp hp).1,h⟩

end BitTreeCache

namespace BitIndexInner
variable {idx : BitIndexInner}

/-- Some entry at the path has the id. -/
def Has (idx : BitIndexInner) (p : BitPath) (o : Oid) : Prop := ∃ e ∈ idx.entries, e.path = p ∧ e.oid = o

/-- The node that the cache vouches for at a path. -/
def validChild (idx : BitIndexInner) (d : BitPath) : Option BitTreeCache := idx.treeCache.bind fun c => c.findValidChild d

/-- The index holds the files of every tree that the cache vouches for. -/
def Coherent (idx : BitIndexInner) : Prop :=
  ∀ d c, idx.validChild d = some c → ∃ s, c.treeOid = .tree s ∧
    ∀ q a, s.look q = some (some a) → idx.Has (d++q) (.blob a.2)

theorem validChild_invalidate {p d : BitPath} {c : BitTreeCache}
    (h : (idx.invalidateTreeCachePath p).validChild d = some c) : ¬d <+: p ∧ idx.validChild d = some c := by
  simp only [validChild,invalidateTreeCachePath,Option.bind_eq_some_iff,Option.map_eq_some_iff] at h
  obtain ⟨_,⟨root,hroot,rfl⟩,hc⟩ := h
  obtain ⟨hfind,hcount⟩ := Option.filter_eq_some_iff.mp hc
  rcases BitTreeCache.findChild_invalidatePath hfind with hinv | ⟨hd,hfind⟩
  · simp [hinv] at hcount
  · refine ⟨hd,?_⟩
    simp only [validChild,hroot,Option.bind_some]
    exact Option.filter_eq_some_iff.mpr ⟨hfind,hcount⟩

/-- An operation that changes entries at one path only, and invalidates that path. -/
theorem Coherent.of_touched {idx' : BitIndexInner} {p : BitPath} (h : idx.Coherent)
    (hcache : ∀ d c, idx'.validChild d = some c → ¬d <+: p ∧ idx.validChild d = some c)
    (hhas : ∀ q o, q ≠ p → idx.Has q o → idx'.Has q o) : idx'.Coherent := by
  intro d c hc
  obtain ⟨hd,hc⟩ := hcache d c hc
  obtain ⟨s,hs,hfiles⟩ := h d c hc
  refine ⟨s,hs,fun q a hq => hhas _ _ ?_ (hfiles q a hq)⟩
  rintro rfl
  exact hd (List.prefix_append d q)

theorem Coherent.removeEntry (h : idx.Coherent) (k : BitPath × MergeStage) : (idx.removeEntry k).Coherent := by
  unfold BitIndexInner.removeEntry
  split
  · refine h.of_touched (p := k.1) (fun d c hc => validChild_invalidate hc) ?_
    rintro q o hq ⟨e,he,rfl,rfl⟩
    refine ⟨e,List.mem_filter.mpr ⟨he,?_⟩,rfl,rfl⟩
    simp only [ne_eq,decide_not,Bool.not_eq_true',decide_eq_false_iff_not]
    rintro rfl
    exact hq rfl
  · exact h

theorem mem_insertSorted_of_mem {e x : BitIndexEntry} {l : List BitIndexEntry} (h : x ∈ l) (hx : x.key ≠ e.key) :
    x ∈ insertSorted e l := by
  induction l with
  | nil => simp at h
  | cons y l ih =>
    unfold insertSorted
    rcases List.mem_cons.mp h with rfl | h
    · split
      · exact List.mem_cons_self
      · simp
    · split
      · exact List.mem_cons_of_mem _ (ih h)
      · split
        · exact List.mem_cons_of_mem _ h
        · exact List.mem_cons_of_mem _ (List.mem_cons_of_mem _ h)

theorem Coherent.insertEntry (h : idx.Coherent) (e : BitIndexEntry) : (idx.insertEntry e).Coherent := by
  refine h.of_touched (p := e.path) (fun d c hc => validChild_invalidate hc) ?_
  rintro q o hq ⟨x,hx,rfl,rfl⟩
  refine ⟨x,mem_insertSorted_of_mem hx fun hk => hq (congrArg Prod.fst hk),rfl,rfl⟩

end BitIndexInner
end Libbit
