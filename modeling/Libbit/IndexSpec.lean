import Libbit.Index
import Libbit.WorktreeSpec

/-! What the operations on the index do, in terms of the entry found at each path and stage. -/
namespace Libbit

namespace BitPath

theorem asBytes_cons (n : Name) {p : BitPath} (hp : p ≠ []) : asBytes (n::p) = n++SLASH::asBytes p := by
  cases p with
  | nil => exact absurd rfl hp
  | cons m p => rfl

theorem asBytes_append {p q : BitPath} (hp : p ≠ []) (hq : q ≠ []) :
    asBytes (p++q) = asBytes p++SLASH::asBytes q := by
  induction p with
  | nil => exact absurd rfl hp
  | cons n p ih =>
    cases p with
    | nil => rw [List.singleton_append,asBytes_cons n hq]; rfl
    | cons m p =>
      rw [List.cons_append,asBytes_cons n (by simp),asBytes_cons n (by simp),ih (by simp)]
      simp

/-- A text up to its first slash determines that part. -/
theorem split_slash {n m : Name} {s t : Bytes} (hn : SLASH ∉ n) (hm : SLASH ∉ m)
    (h : n++SLASH::s = m++SLASH::t) : n = m ∧ s = t := by
  induction n generalizing m with
  | nil =>
    cases m with
    | nil => simpa using h
    | cons y m => simp only [List.nil_append,List.cons_append,List.cons.injEq] at h; simp [← h.1] at hm
  | cons x n ih =>
    cases m with
    | nil => simp only [List.nil_append,List.cons_append,List.cons.injEq] at h; simp [h.1] at hn
    | cons y m =>
      simp only [List.cons_append,List.cons.injEq] at h
      simp only [List.mem_cons,not_or] at hn hm
      obtain ⟨rfl,rfl⟩ := ih hn.2 hm.2 h.2
      exact ⟨by rw [h.1],rfl⟩

/-- A path whose bytes start with those of another and a slash lies strictly below it. -/
theorem prefix_of_asBytes {p q : BitPath} (hp : p ≠ []) (hpn : p.Normal) (hqn : q.Normal)
    (h : p.asBytes++[SLASH] <+: q.asBytes) : p <+: q ∧ p ≠ q := by
  induction p generalizing q with
  | nil => exact absurd rfl hp
  | cons n p ih =>
    obtain ⟨t,ht⟩ := h
    have hn := (hpn n List.mem_cons_self).2.2.2.1
    cases q with
    | nil =>
      have := congrArg List.length ht
      simp [asBytes] at this
    | cons m q =>
      have hm := (hqn m List.mem_cons_self).2.2.2.1
      by_cases hq : q = []
      · subst hq
        have hmem : SLASH ∈ m := by
          have : m = asBytes [m] := rfl
          rw [this,← ht]
          simp
        exact absurd hmem hm
      · rw [asBytes_cons m hq] at ht
        by_cases hp' : p = []
        · subst hp'
          simp only [asBytes,List.append_assoc,List.singleton_append] at ht
          obtain ⟨rfl,-⟩ := split_slash hn hm ht
          exact ⟨⟨q,rfl⟩,fun h => hq (by simpa using h.symm)⟩
        · rw [asBytes_cons n hp'] at ht
          simp only [List.append_assoc,List.cons_append] at ht
          obtain ⟨rfl,hrest⟩ := split_slash hn hm ht
          obtain ⟨h₁,h₂⟩ := ih hp' (fun x hx => hpn x (List.mem_cons_of_mem _ hx))
            (fun x hx => hqn x (List.mem_cons_of_mem _ hx)) ⟨t,by simpa using hrest⟩
          exact ⟨by simpa [List.cons_prefix_cons] using h₁,fun h => h₂ (by simpa using h)⟩

theorem asBytes_prefix {p q : BitPath} (hp : p ≠ []) (h : p <+: q) (hne : p ≠ q) :
    p.asBytes++[SLASH] <+: q.asBytes := by
  obtain ⟨t,rfl⟩ := h
  have ht : t ≠ [] := fun ht => hne (by simp [ht])
  rw [asBytes_append hp ht]
  exact ⟨asBytes t,by simp⟩

/-- Paths of normal names are told apart by their bytes. -/
theorem asBytes_injective {p q : BitPath} (hp : p.Normal) (hq : q.Normal) (h : p.asBytes = q.asBytes) : p = q := by
  induction p generalizing q with
  | nil =>
    cases q with
    | nil => rfl
    | cons m q =>
      exfalso
      have hm := (hq m List.mem_cons_self).1
      by_cases hq' : q = []
      · subst hq'; exact hm (by simpa [asBytes] using h.symm)
      · rw [asBytes_cons m hq'] at h; simp [asBytes] at h
  | cons n p ih =>
    have hn := hp n List.mem_cons_self
    cases q with
    | nil =>
      exfalso
      by_cases hp' : p = []
      · subst hp'; exact hn.1 (by simpa [asBytes] using h)
      · rw [asBytes_cons n hp'] at h; simp [asBytes] at h
    | cons m q =>
      have hm := hq m List.mem_cons_self
      by_cases hp' : p = [] <;> by_cases hq' : q = []
      · subst hp' hq'; simpa [asBytes] using h
      · subst hp'
        rw [asBytes_cons m hq'] at h
        exact absurd (show SLASH ∈ n by simp only [asBytes] at h; rw [h]; simp) hn.2.2.2.1
      · subst hq'
        rw [asBytes_cons n hp'] at h
        exact absurd (show SLASH ∈ m by simp only [asBytes] at h; rw [← h]; simp) hm.2.2.2.1
      · rw [asBytes_cons n hp',asBytes_cons m hq'] at h
        obtain ⟨rfl,hrest⟩ := split_slash hn.2.2.2.1 hm.2.2.2.1 h
        rw [ih (fun x hx => hp x (List.mem_cons_of_mem _ hx)) (fun x hx => hq x (List.mem_cons_of_mem _ hx)) hrest]

/-- What lies between a text and an extension of it extends the text. -/
theorem prefix_of_between {l x t : Bytes} (h₁ : ¬x < l) (h₂ : ¬l++t < x) : l <+: x := by
  induction l generalizing x with
  | nil => exact List.nil_prefix
  | cons a l ih =>
    cases x with
    | nil => exact absurd (List.nil_lt_cons a l) h₁
    | cons b x =>
      rw [List.cons_lt_cons_iff,not_or] at h₁
      rw [List.cons_append,List.cons_lt_cons_iff,not_or] at h₂
      obtain rfl : a = b := le_antisymm (not_lt.mp h₁.1) (not_lt.mp h₂.1)
      exact List.cons_prefix_cons.mpr ⟨rfl,ih (by simpa using h₁.2) (by simpa using h₂.2)⟩

theorem startsWith_iff {p q : BitPath} : p.startsWith q ↔ q <+: p := by simp [startsWith]

/-- A text comes before its extensions. -/
theorem lt_append (l : Bytes) {t : Bytes} (ht : t ≠ []) : l < l++t := by
  induction l with
  | nil =>
    cases t with
    | nil => exact absurd rfl ht
    | cons a t => exact List.nil_lt_cons a t
  | cons a l ih => exact List.cons_lt_cons_iff.mpr (.inr ⟨rfl,ih⟩)

theorem mem_cumulativeComponents {p q : BitPath} (hp : p ≠ []) : q ∈ p.cumulativeComponents ↔ q ≠ [] ∧ q <+: p := by
  cases p with
  | nil => exact absurd rfl hp
  | cons n p =>
    simp only [cumulativeComponents,List.cons_ne_nil,if_false,List.inits_cons,List.tail_cons,List.mem_map,
      List.mem_inits]
    constructor
    · rintro ⟨t,ht,rfl⟩
      exact ⟨by simp,List.cons_prefix_cons.mpr ⟨rfl,ht⟩⟩
    · rintro ⟨hq,h⟩
      cases q with
      | nil => exact absurd rfl hq
      | cons m q =>
        obtain ⟨rfl,hq⟩ := List.cons_prefix_cons.mp h
        exact ⟨q,hq,rfl⟩

/-- The components of a path below a directory: those of the directory, the child, and the rest. -/
theorem cumulativeComponents_below (d : BitPath) (n : Name) (q : BitPath) :
    cumulativeComponents (d++[n]++q) = d.inits.tail++(d++[n])::q.inits.tail.map ((d++[n])++·) := by
  simp only [cumulativeComponents,List.append_eq_nil_iff,List.cons_ne_self,and_false,false_and,if_false,
    List.inits_append]
  cases d <;> simp

end BitPath

theorem keyLt_irrefl (k : BitPath × MergeStage) : ¬keyLt k k := lt_irrefl _

theorem keyLt.trans {k k' k'' : BitPath × MergeStage} (h : keyLt k k') (h' : keyLt k' k'') : keyLt k k'' :=
  lt_trans h h'

theorem keyLt.asBytes_le {k k' : BitPath × MergeStage} (h : keyLt k k') : ¬k'.1.asBytes < k.1.asBytes := by
  rcases Prod.Lex.lt_iff.mp h with h | ⟨h,-⟩
  · exact h.asymm
  · simp only [ofLex_toLex] at h
    rw [h]
    exact lt_irrefl _

theorem keyLt_of_not {k k' : BitPath × MergeStage} (hk : k.1.Normal) (hk' : k'.1.Normal) (h : ¬keyLt k k')
    (hne : k ≠ k') : keyLt k' k := by
  refine lt_of_le_of_ne (not_lt.mp h) fun he => hne ?_
  have h' := Prod.ext_iff.mp (congrArg ofLex he)
  have hs : ∀ s s' : MergeStage, s.toFin = s'.toFin → s = s' := by
    intro s s'
    cases s <;> cases s' <;> decide
  exact Prod.ext (BitPath.asBytes_injective hk hk' h'.1.symm) (hs _ _ h'.2.symm)

namespace BitIndexInner
variable {idx : BitIndexInner}

theorem mem_insertSorted {e x : BitIndexEntry} {l : List BitIndexEntry} (h : x ∈ insertSorted e l) : x = e ∨ x ∈ l := by
  induction l with
  | nil => simpa [insertSorted] using h
  | cons y l ih =>
    unfold insertSorted at h
    split at h
    · rcases List.mem_cons.mp h with rfl | h
      · simp
      · exact (ih h).imp id (List.mem_cons_of_mem _)
    · split at h <;> grind

theorem find?_insertSorted (e : BitIndexEntry) (l : List BitIndexEntry) (k : BitPath × MergeStage) :
    (insertSorted e l).find? (fun x => x.key = k) = if k = e.key then some e else l.find? fun x => x.key = k := by
  induction l with
  | nil => by_cases h : k = e.key <;> simp [insertSorted,h,eq_comm]
  | cons y l ih =>
    unfold insertSorted
    split
    · rename_i hlt
      have hne : y.key ≠ e.key := fun h => keyLt_irrefl _ (h ▸ hlt)
      by_cases h : k = e.key
      · subst h; simp [ih,hne]
      · simp only [List.find?_cons,ih,h,if_false]
    · split
      · rename_i hy
        by_cases h : k = e.key
        · subst h; simp
        · have : ¬y.key = k := fun hk => h (hk.symm.trans hy)
          simp [h,this,Ne.symm h]
      · by_cases h : k = e.key
        · subst h; simp
        · simp [List.find?_cons,h,Ne.symm h]

@[simp] theorem findEntry_insertEntry (e : BitIndexEntry) (k : BitPath × MergeStage) :
    (idx.insertEntry e).findEntry k = if k = e.key then some e else idx.findEntry k :=
  find?_insertSorted e idx.entries k

@[simp] theorem findEntry_removeEntry (k' k : BitPath × MergeStage) :
    (idx.removeEntry k').findEntry k = if k = k' then none else idx.findEntry k := by
  unfold removeEntry
  split
  · simp only [findEntry,invalidateTreeCachePath,List.find?_filter]
    by_cases h : k = k'
    · subst h
      simp
    · simp only [h,if_false]
      congr 1
      funext x
      by_cases hx : x.key = k <;> simp [hx,h]
  · rename_i hn
    by_cases h : k = k'
    · subst h; simpa using hn
    · simp [h]

theorem findEntry_removeAll (ks : List (BitPath × MergeStage)) (idx : BitIndexInner) (k : BitPath × MergeStage) :
    (ks.foldl (fun idx k => idx.removeEntry k) idx).findEntry k = if k ∈ ks then none else idx.findEntry k := by
  induction ks generalizing idx with
  | nil => simp
  | cons k' ks ih =>
    simp only [List.foldl_cons,ih,findEntry_removeEntry,List.mem_cons]
    by_cases h : k = k' <;> by_cases h' : k ∈ ks <;> simp [h,h']

theorem findEntry_removeConflicted (p : BitPath) (k : BitPath × MergeStage) :
    (idx.removeConflicted p).findEntry k = if k.1 = p ∧ k.2 ≠ .NONE then none else idx.findEntry k := by
  obtain ⟨q,s⟩ := k
  simp only [removeConflicted,findEntry_removeEntry,Prod.mk.injEq]
  cases s <;> by_cases h : q = p <;> simp [h]

theorem findEntry_removeFileDirCollisions {p : BitPath} (hp : p ≠ []) (k : BitPath × MergeStage) :
    (idx.removeFileDirCollisions p).findEntry k =
      if k.2 = .NONE ∧ k.1 ≠ [] ∧ k.1 <+: p then none else idx.findEntry k := by
  have h := findEntry_removeAll (p.cumulativeComponents.map fun c => (c,MergeStage.NONE)) idx k
  rw [List.foldl_map] at h
  obtain ⟨q,s⟩ := k
  have hmem : (q,s) ∈ p.cumulativeComponents.map (fun c => (c,MergeStage.NONE)) ↔ s = .NONE ∧ q ≠ [] ∧ q <+: p := by
    simp only [List.mem_map,Prod.mk.injEq,BitPath.mem_cumulativeComponents hp]
    constructor
    · rintro ⟨c,hc,rfl,rfl⟩
      exact ⟨rfl,hc⟩
    · rintro ⟨rfl,hq⟩
      exact ⟨q,hq,rfl,rfl⟩
  simpa only [removeFileDirCollisions,hmem] using h

/-- The entries that `remove_directory` takes out. -/
def subentries (idx : BitIndexInner) (p : BitPath) : List BitIndexEntry :=
  ((idx.rangeFrom (if p = [] then [] else p.asBytes++[SLASH])).takeWhile fun e => e.path.startsWith p).filter
    fun e => e.stage = .NONE

theorem removeDirectory_eq (idx : BitIndexInner) (p : BitPath) :
    idx.removeDirectory p = ((idx.subentries p).map BitIndexEntry.key).foldl (fun idx k => idx.removeEntry k) idx := by
  rw [List.foldl_map]
  rfl

theorem findEntry_removeDirectory' (p : BitPath) (k : BitPath × MergeStage) :
    (idx.removeDirectory p).findEntry k =
      if k ∈ (idx.subentries p).map BitIndexEntry.key then none else idx.findEntry k := by
  rw [removeDirectory_eq,findEntry_removeAll]

theorem mem_rangeFrom {start : Bytes} {e : BitIndexEntry} :
    e ∈ idx.rangeFrom start ↔ e ∈ idx.entries ∧ ¬e.path.asBytes < start := by
  simp [rangeFrom]

theorem mem_subentries {p : BitPath} {e : BitIndexEntry} (h : e ∈ idx.subentries p) :
    e ∈ idx.entries ∧ e.stage = .NONE ∧ p <+: e.path ∧ (p ≠ [] → e.path ≠ p) := by
  obtain ⟨h₁,h₂⟩ := List.mem_filter.mp h
  have hmem := mem_rangeFrom.mp (List.takeWhile_subset _ h₁)
  have hpre : e.path.startsWith p = true := List.mem_takeWhile_imp (p := fun e : BitIndexEntry => e.path.startsWith p) h₁
  refine ⟨hmem.1,by simpa using h₂,BitPath.startsWith_iff.mp hpre,fun hp he => ?_⟩
  rw [if_neg hp,he] at hmem
  exact hmem.2 (BitPath.lt_append _ (by simp))

/-- Nothing below the directory, nothing to remove. -/
theorem removeDirectory_of_clear {p : BitPath}
    (h : ∀ e ∈ idx.entries, e.stage = .NONE → p <+: e.path → p ≠ [] ∧ e.path = p) : idx.removeDirectory p = idx := by
  have hnil : idx.subentries p = [] := by
    rw [List.eq_nil_iff_forall_not_mem]
    intro e he
    obtain ⟨h₁,h₂,h₃,h₄⟩ := mem_subentries he
    obtain ⟨hp,heq⟩ := h e h₁ h₂ h₃
    exact h₄ hp heq
  rw [removeDirectory_eq,hnil]
  rfl

theorem removeDirFileCollisions_of_clear {p : BitPath}
    (h : ∀ e ∈ idx.entries, e.stage = .NONE → p <+: e.path → p ≠ [] ∧ e.path = p) :
    idx.removeDirFileCollisions p = idx := by
  simp only [removeDirFileCollisions,removeDirectory_of_clear h,ite_self]

/-- The paths of the entries are made of normal names, and none is empty. -/
def NormalPaths (idx : BitIndexInner) : Prop := ∀ e ∈ idx.entries, e.path ≠ [] ∧ e.path.Normal

instance (idx : BitIndexInner) : Decidable idx.NormalPaths :=
  inferInstanceAs (Decidable (∀ e ∈ idx.entries, e.path ≠ [] ∧ e.path.Normal))

/-- In the order of the index the entries below a directory follow the directory and a slash
without a gap, so `remove_directory` finds them all. -/
theorem mem_subentries_of_below {p : BitPath} (hs : idx.Sorted) (hn : idx.NormalPaths) (hpn : p.Normal)
    {e : BitIndexEntry} (he : e ∈ idx.entries) (hstage : e.stage = .NONE) (hp : p <+: e.path) (hne : p ≠ e.path) :
    e ∈ idx.subentries p := by
  refine List.mem_filter.mpr ⟨?_,by simpa using hstage⟩
  by_cases hroot : p = []
  · subst hroot
    have hall : ∀ x ∈ idx.rangeFrom [], BitPath.startsWith x.path [] = true := fun x _ => by
      simp [BitPath.startsWith_iff]
    rw [if_pos rfl,List.takeWhile_eq_self_iff.mpr hall]
    exact mem_rangeFrom.mpr ⟨he,by simp⟩
  · rw [if_neg hroot]
    have hmem : e ∈ idx.rangeFrom (p.asBytes++[SLASH]) := by
      obtain ⟨t,ht⟩ := BitPath.asBytes_prefix hroot hp hne
      refine mem_rangeFrom.mpr ⟨he,fun hlt => ?_⟩
      rw [← ht] at hlt
      cases t with
      | nil => simp at hlt
      | cons a t => exact hlt.asymm (BitPath.lt_append _ (by simp))
    -- an entry before `e` in the range lies between the directory and `e`
    have hsorted : (idx.rangeFrom (p.asBytes++[SLASH])).Pairwise fun x y => keyLt x.key y.key := hs.filter _
    have hstart : ∀ x ∈ idx.rangeFrom (p.asBytes++[SLASH]), x.path.Normal ∧ ¬x.path.asBytes < p.asBytes++[SLASH] :=
      fun x hx => ⟨(hn x (mem_rangeFrom.mp hx).1).2,(mem_rangeFrom.mp hx).2⟩
    generalize idx.rangeFrom (p.asBytes++[SLASH]) = l at hmem hsorted hstart
    induction l with
    | nil => simp at hmem
    | cons x l ih =>
      have hx : x.path.startsWith p = true := by
        rw [BitPath.startsWith_iff]
        rcases List.mem_cons.mp hmem with rfl | hmem
        · exact hp
        · have hlt := (List.pairwise_cons.mp hsorted).1 e hmem
          obtain ⟨t,ht⟩ := BitPath.asBytes_prefix hroot hp hne
          have hle : ¬(p.asBytes++[SLASH])++t < x.path.asBytes := by
            rw [ht]
            exact hlt.asBytes_le
          have hpre := BitPath.prefix_of_between (hstart x List.mem_cons_self).2 hle
          exact (BitPath.prefix_of_asBytes hroot hpn (hstart x List.mem_cons_self).1 hpre).1
      rw [List.takeWhile_cons_of_pos (p := fun e : BitIndexEntry => e.path.startsWith p) hx]
      rcases List.mem_cons.mp hmem with rfl | hmem
      · exact List.mem_cons_self
      · exact List.mem_cons_of_mem _ (ih hmem (List.pairwise_cons.mp hsorted).2
          fun y hy => hstart y (List.mem_cons_of_mem _ hy))

theorem findEntry_some {k : BitPath × MergeStage} {e : BitIndexEntry} (h : idx.findEntry k = some e) :
    e ∈ idx.entries ∧ e.key = k := ⟨List.mem_of_find?_eq_some h,by simpa using List.find?_some h⟩

theorem findEntry_removeDirectory {p : BitPath} (hs : idx.Sorted) (hn : idx.NormalPaths) (hpn : p.Normal)
    (k : BitPath × MergeStage) :
    (idx.removeDirectory p).findEntry k =
      if k.2 = .NONE ∧ p <+: k.1 ∧ k.1 ≠ p then none else idx.findEntry k := by
  rw [findEntry_removeDirectory']
  by_cases hk : k ∈ (idx.subentries p).map BitIndexEntry.key
  · obtain ⟨e,he,rfl⟩ := List.mem_map.mp hk
    obtain ⟨h₁,h₂,h₃,h₄⟩ := mem_subentries he
    have hne : e.path ≠ p := by
      by_cases hp : p = []
      · rw [hp]
        exact (hn e h₁).1
      · exact h₄ hp
    rw [if_pos hk,if_pos ⟨h₂,h₃,hne⟩]
  · rw [if_neg hk]
    split
    · rename_i hb
      cases hf : idx.findEntry k with
      | none => rfl
      | some e =>
        obtain ⟨he,rfl⟩ := findEntry_some hf
        exact absurd (List.mem_map.mpr ⟨e,mem_subentries_of_below hs hn hpn he hb.1 hb.2.1 (Ne.symm hb.2.2),rfl⟩) hk
    · rfl

section Valid

theorem removeEntry_sublist (k : BitPath × MergeStage) : (idx.removeEntry k).entries.Sublist idx.entries := by
  unfold removeEntry
  split
  · exact List.filter_sublist
  · exact List.Sublist.refl _

section Removals
variable {P : BitIndexInner → Prop} (hP : ∀ idx k, P idx → P (idx.removeEntry k))
include hP

/-- What every removal of one entry keeps, the removal of many keeps. -/
theorem removeAll_keeps (ks : List (BitPath × MergeStage)) {idx : BitIndexInner} (h : P idx) :
    P (ks.foldl (fun idx k => idx.removeEntry k) idx) := by
  induction ks generalizing idx with
  | nil => exact h
  | cons k ks ih => exact ih (hP idx k h)

theorem removeDirectory_keeps (p : BitPath) (h : P idx) : P (idx.removeDirectory p) := by
  rw [removeDirectory_eq]
  exact removeAll_keeps hP _ h

theorem removeFileDirCollisions_keeps (p : BitPath) (h : P idx) : P (idx.removeFileDirCollisions p) := by
  have hall := removeAll_keeps hP (p.cumulativeComponents.map fun c => (c,MergeStage.NONE)) h
  rwa [List.foldl_map] at hall

theorem removeDirFileCollisions_keeps (p : BitPath) (h : P idx) : P (idx.removeDirFileCollisions p) := by
  simp only [removeDirFileCollisions]
  split
  · exact removeDirectory_keeps hP p h
  · exact h

theorem removeCollisions_keeps (p : BitPath) (h : P idx) : P (idx.removeCollisions p) :=
  removeDirFileCollisions_keeps hP p (removeFileDirCollisions_keeps hP p h)

theorem removeConflicted_keeps (p : BitPath) (h : P idx) : P (idx.removeConflicted p) := hP _ _ (hP _ _ (hP _ _ h))

end Removals

theorem sublist_removeEntry (idx' : BitIndexInner) (k : BitPath × MergeStage) (h : idx'.entries.Sublist idx.entries) :
    (idx'.removeEntry k).entries.Sublist idx.entries := (removeEntry_sublist k).trans h

theorem removeFileDirCollisions_sublist (p : BitPath) :
    (idx.removeFileDirCollisions p).entries.Sublist idx.entries :=
  removeFileDirCollisions_keeps sublist_removeEntry p (List.Sublist.refl _)

theorem removeCollisions_sublist (p : BitPath) : (idx.removeCollisions p).entries.Sublist idx.entries :=
  removeCollisions_keeps sublist_removeEntry p (List.Sublist.refl _)

theorem removeConflicted_sublist (p : BitPath) : (idx.removeConflicted p).entries.Sublist idx.entries :=
  removeConflicted_keeps sublist_removeEntry p (List.Sublist.refl _)

/-- An index as the repository keeps it: in order, with paths of normal names. -/
structure Valid (idx : BitIndexInner) : Prop where
  sorted : idx.Sorted
  normal : idx.NormalPaths

theorem Valid.of_sublist {idx' : BitIndexInner} (h : idx.Valid) (hs : idx'.entries.Sublist idx.entries) : idx'.Valid :=
  ⟨h.sorted.sublist hs,fun e he => h.normal e (hs.subset he)⟩

theorem Valid.paths_sorted (h : idx.Valid) : idx.entries.Pairwise fun e e' => e.path.asBytes ≤ e'.path.asBytes :=
  h.sorted.imp fun h => not_lt.mp h.asBytes_le

theorem Valid.nodup (h : idx.Valid) : idx.entries.Nodup :=
  h.sorted.imp fun hlt => ne_of_apply_ne BitIndexEntry.key fun heq => keyLt_irrefl _ (heq ▸ hlt)

theorem insertSorted_pairwise {e : BitIndexEntry} (he : e.path.Normal) {l : List BitIndexEntry}
    (hn : ∀ x ∈ l, x.path.Normal) (hl : l.Pairwise fun x y => keyLt x.key y.key) :
    (insertSorted e l).Pairwise fun x y => keyLt x.key y.key := by
  induction l with
  | nil => exact List.pairwise_singleton _ _
  | cons y l ih =>
    obtain ⟨hy,hl⟩ := List.pairwise_cons.mp hl
    have hn' : ∀ x ∈ l, x.path.Normal := fun x hx => hn x (List.mem_cons_of_mem _ hx)
    unfold insertSorted
    split
    · refine List.pairwise_cons.mpr ⟨fun x hx => ?_,ih hn' hl⟩
      rcases mem_insertSorted hx with rfl | hx
      · assumption
      · exact hy x hx
    · split
      · rename_i hk
        exact List.pairwise_cons.mpr ⟨fun x hx => hk ▸ hy x hx,hl⟩
      · rename_i hlt hk
        have hey := keyLt_of_not (hn y List.mem_cons_self) he hlt hk
        refine List.pairwise_cons.mpr ⟨fun x hx => ?_,List.pairwise_cons.mpr ⟨hy,hl⟩⟩
        rcases List.mem_cons.mp hx with rfl | hx
        · exact hey
        · exact hey.trans (hy x hx)

theorem Valid.insertEntry (h : idx.Valid) {e : BitIndexEntry} (hne : e.path ≠ []) (he : e.path.Normal) :
    (idx.insertEntry e).Valid where
  sorted := insertSorted_pairwise he (fun x hx => (h.normal x hx).2) h.sorted
  normal x hx := by
    rcases mem_insertSorted hx with rfl | hx
    · exact ⟨hne,he⟩
    · exact h.normal x hx

theorem mem_entries_iff (h : idx.Valid) {e : BitIndexEntry} : e ∈ idx.entries ↔ idx.findEntry e.key = some e := by
  refine ⟨fun he => ?_,fun hf => (findEntry_some hf).1⟩
  cases hf : idx.findEntry e.key with
  | none => simpa using List.find?_eq_none.mp hf e he
  | some x =>
    obtain ⟨hx,hk⟩ := findEntry_some hf
    have hnodup : (idx.entries.map BitIndexEntry.key).Nodup :=
      List.pairwise_map.mpr (h.sorted.imp fun {a b} hlt heq => by
        rw [heq] at hlt
        exact keyLt_irrefl _ hlt)
    rw [List.inj_on_of_nodup_map hnodup hx he hk]

end Valid
end BitIndexInner
end Libbit
