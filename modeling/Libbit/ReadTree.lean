import Libbit.DiffExact
import Libbit.IndexRun

/-! Reading a tree into the index. The difference takes the tree as the old side and the index as the new
one, and it is applied to the index itself: what is new is there already, and what is deleted is not. -/
namespace Libbit

open Lib BitIndexInner TreeDiffIter

/-- If the tree can be read, the index holds its files and nothing else, the cache is that of the
tree, and there is no difference between the two. -/
def Replaces (t : Tree) (r : Repo) : Prop :=
  ∀ r', readTree t r = .ok () r' → r'.index.Describes t ∧ r'.index.treeCache = some (.readTree t) ∧
    (r'.index.diffTree (.tree t)).isEmpty = true

/-- An index as it is when nothing is left to do: no conflict, no collision, every entry complete. -/
structure BitIndexInner.Settled (idx : BitIndexInner) : Prop where
  valid : idx.Valid
  merged : ∀ e ∈ idx.entries, e.stage = .NONE
  complete : ∀ e ∈ idx.entries, e.isFilled = true ∧ e.oid.isKnown = true
  collisionFree : idx.CollisionFree

section Apply
variable {idx cur : BitIndexInner} {e x : BitIndexEntry} {s : WorkspaceStatus} {r : Repo}

/-- The index once a difference of complete entries is applied. -/
def BitIndexInner.applied (idx : BitIndexInner) (s : WorkspaceStatus) : BitIndexInner :=
  s.new.foldl addedEntry ((s.modified.map Prod.snd).foldl addedEntry (s.deleted.foldl (fun idx old => idx.removeEntry old.key) idx))

theorem addEntry_complete (hf : e.isFilled = true) (hk : e.oid.isKnown = true) (r : Repo) :
    addEntry e r = .ok () {r with index := r.index.addedEntry e} := by
  have hfill : e.fill r = .ok e r := by simp [BitIndexEntry.fill,hf]
  exact (bind_of_ok hfill).trans ((bind_of_ok rfl).trans ((bind_of_ok rfl).trans (bind_of_ok (write_known hk _))))

theorem forM_index {γ : Type} {f : γ → Bit Unit} {g : BitIndexInner → γ → BitIndexInner} {l : List γ}
    (h : ∀ x ∈ l, ∀ r : Repo, f x r = .ok () {r with index := g r.index x}) (r : Repo) :
    l.forM f r = .ok () {r with index := l.foldl g r.index} := by
  induction l generalizing r with
  | nil => rfl
  | cons x l ih =>
    obtain ⟨hx,hl⟩ := List.forall_mem_cons.mp h
    exact (bind_of_ok (hx r)).trans (ih hl _)

theorem applyDiff_complete (hs : ∀ e ∈ s.modified.map Prod.snd++s.new, e.isFilled = true ∧ e.oid.isKnown = true) (r : Repo) :
    applyDiff s r = .ok () {r with index := r.index.applied s} := by
  have hadd (e : BitIndexEntry) (he : e ∈ s.modified.map Prod.snd++s.new) (r : Repo) :=
    addEntry_complete (hs e he).1 (hs e he).2 r
  refine (bind_of_ok (forM_index (g := fun idx (old : BitIndexEntry) => idx.removeEntry old.key) (fun _ _ _ => rfl) r)).trans
    ((bind_of_ok (forM_index (g := fun idx (x : BitIndexEntry × BitIndexEntry) => idx.addedEntry x.2) (fun x hx r => ?_) _)).trans
      ((forM_index (g := addedEntry) (fun e he r => hadd e (List.mem_append_right _ he) r) _).trans ?_))
  · exact hadd x.2 (List.mem_append_left _ (List.mem_map_of_mem hx)) r
  · simp [applied,List.foldl_map]

/-- Adding an entry of a settled index again takes nothing away. -/
theorem BitIndexInner.Settled.mem_addedEntry (h : idx.Settled) (hcur : cur.Valid) (hsub : ∀ y ∈ cur.entries, y ∈ idx.entries)
    (he : e ∈ idx.entries) : x ∈ (cur.addedEntry e).entries ↔ x = e ∨ x ∈ cur.entries := by
  have hpath := (h.valid.normal e he).1
  have hclear (y : BitIndexEntry) (hy : y ∈ cur.entries) (hpre : e.path <+: y.path) : y.path = e.path := by
    by_contra hne
    exact h.collisionFree e he y (hsub y hy) (h.merged e he) (h.merged y (hsub y hy)) (BitPath.below_iff.mpr ⟨hpre,hne⟩)
  have hfind := findEntry_addedEntry (h.merged e he) hpath (fun y hy _ => hclear y hy)
  rw [mem_entries_iff (hcur.addedEntry hpath (h.valid.normal e he).2),hfind]
  constructor
  · intro hx
    split at hx
    · split at hx
      · exact .inl (Option.some.inj hx).symm
      · simp at hx
    · split at hx
      · simp at hx
      · exact .inr ((mem_entries_iff hcur).mpr hx)
  · rintro (rfl | hx)
    · simp [BitIndexEntry.key,h.merged x he]
    · have hstage := h.merged x (hsub x hx)
      by_cases hxe : x.path = e.path
      · have hkey : x.key = e.key := by simp [BitIndexEntry.key,hxe,hstage,h.merged e he]
        have hsome := (mem_entries_iff h.valid).mp (hsub x hx)
        rw [hkey,(mem_entries_iff h.valid).mp he,Option.some.injEq] at hsome
        simp [BitIndexEntry.key,hxe,hstage,hsome]
      · have hpre : ¬x.path <+: e.path := fun hpre => h.collisionFree x (hsub x hx) e he hstage (h.merged e he)
          (BitPath.below_iff.mpr ⟨hpre,Ne.symm hxe⟩)
        simpa [BitIndexEntry.key,hxe,hpre] using (mem_entries_iff hcur).mp hx

theorem mem_removeEntries {l : List BitIndexEntry} : x ∈ (l.foldl (fun idx old => idx.removeEntry old.key) idx).entries ↔
    x ∈ idx.entries ∧ ∀ old ∈ l, x.key ≠ old.key := by
  induction l generalizing idx with
  | nil => simp
  | cons old l ih => simp [ih,mem_removeEntry,and_assoc]

theorem BitIndexInner.Settled.foldl_addedEntry (h : idx.Settled) {l : List BitIndexEntry} (hl : ∀ e ∈ l, e ∈ idx.entries)
    (hcur : cur.Valid) (hsub : ∀ y ∈ cur.entries, y ∈ idx.entries) :
    (l.foldl addedEntry cur).Valid ∧ ∀ y, y ∈ (l.foldl addedEntry cur).entries ↔ y ∈ l ∨ y ∈ cur.entries := by
  induction l generalizing cur with
  | nil => simpa using hcur
  | cons e l ih =>
    obtain ⟨he,hl⟩ := List.forall_mem_cons.mp hl
    have hadd (y : BitIndexEntry) := h.mem_addedEntry (x := y) hcur hsub he
    have hvalid := hcur.addedEntry (h.valid.normal e he).1 (h.valid.normal e he).2
    obtain ⟨hv,hmem⟩ := ih hl hvalid fun y hy => ((hadd y).mp hy).elim (fun heq => heq ▸ he) (hsub y)
    refine ⟨hv,fun y => ?_⟩
    rw [List.foldl_cons,hmem,hadd,List.mem_cons]
    tauto

/-- What a difference that names only entries of a settled index leaves of it. -/
theorem BitIndexInner.Settled.applied (h : idx.Settled) (hs : ∀ e ∈ s.modified.map Prod.snd++s.new, e ∈ idx.entries) :
    (idx.applied s).Valid ∧ ∀ y, y ∈ (idx.applied s).entries ↔
      y ∈ s.modified.map Prod.snd++s.new ∨ y ∈ idx.entries ∧ ∀ old ∈ s.deleted, y.key ≠ old.key := by
  have hremoved : (s.deleted.foldl (fun idx old => idx.removeEntry old.key) idx).Valid := by
    have hkeep (l : List BitIndexEntry) (cur : BitIndexInner) (hcur : cur.Valid) :
        (l.foldl (fun idx old => idx.removeEntry old.key) cur).Valid := by
      induction l generalizing cur with
      | nil => exact hcur
      | cons old l ih => exact ih _ (hcur.of_sublist (removeEntry_sublist old.key))
    exact hkeep _ _ h.valid
  obtain ⟨hv₁,hm₁⟩ := h.foldl_addedEntry (l := s.modified.map Prod.snd) (fun e he => hs e (List.mem_append_left _ he)) hremoved
    fun y hy => (mem_removeEntries.mp hy).1
  obtain ⟨hv₂,hm₂⟩ := h.foldl_addedEntry (l := s.new) (fun e he => hs e (List.mem_append_right _ he)) hv₁ fun y hy =>
    ((hm₁ y).mp hy).elim (fun hy => hs y (List.mem_append_left _ hy)) fun hy => (mem_removeEntries.mp hy).1
  refine ⟨hv₂,fun y => ?_⟩
  rw [BitIndexInner.applied,hm₂,hm₁,mem_removeEntries,List.mem_append]
  tauto

end Apply

section Sound
variable {idx : BitIndexInner} {t : Tree}

theorem mem_entries_of_files {e : BitIndexEntry} (h : e ∈ files idx.indexTreeIter) : e ∈ idx.entries := by
  obtain ⟨he,hfile⟩ := mem_files_iff.mp h
  have hpseudo (p : BitPath) : e ≠ idx.createPseudotree p := by
    rintro rfl
    simp [createPseudotree,BitIndexEntry.isTree,BitIndexEntry.ofTreeEntry,FileMode.isTree] at hfile
  exact (mem_indexTreeIter he).resolve_right (not_exists.mpr hpseudo)

theorem mem_modified_new {u : List BitIndexEntry × List BitIndexEntry} {m : BitIndexEntry × BitIndexEntry}
    (h : m ∈ (report u).modified) : m.2 ∈ files u.2 := by
  obtain ⟨l,l'⟩ := u
  cases l' with
  | nil => simp [report_old] at h
  | cons n l' =>
    cases l with
    | nil => simp [report_new] at h
    | cons o l =>
      simp only [report] at h
      split at h
      · split at h
        · rename_i hkind hblob
          obtain rfl : m = (o,n) := by simpa using h
          exact mem_files_iff.mpr ⟨List.mem_cons_self,hkind ▸ hblob.1⟩
        · simp [WorkspaceStatus.empty] at h
      · simp at h

/-- What a difference of iterators calls old or new is a file of the old or the new one. -/
theorem diffIterators_sound (old new : List BitIndexEntry) : (∀ e ∈ (diffIterators old new).deleted, e ∈ files old) ∧
    ∀ e ∈ (diffIterators old new).modified.map Prod.snd++(diffIterators old new).new, e ∈ files new := by
  obtain ⟨ts,hrun,hts⟩ := exists_run (le_refl (old.length+new.length)) .empty
  have hstatus : diffIterators old new = added .empty ts := hts
  have hold {u : List BitIndexEntry × List BitIndexEntry} (hu : u ∈ ts) {e : BitIndexEntry} (he : e ∈ files u.1) : e ∈ files old := by
    obtain ⟨he,hfile⟩ := mem_files_iff.mp he
    rw [← hrun.old_eq]
    exact mem_files_iff.mpr ⟨List.mem_flatten.mpr ⟨u.1,List.mem_map_of_mem hu,he⟩,hfile⟩
  have hnew {u : List BitIndexEntry × List BitIndexEntry} (hu : u ∈ ts) {e : BitIndexEntry} (he : e ∈ files u.2) : e ∈ files new := by
    obtain ⟨he,hfile⟩ := mem_files_iff.mp he
    rw [← hrun.new_eq]
    exact mem_files_iff.mpr ⟨List.mem_flatten.mpr ⟨u.2,List.mem_map_of_mem hu,he⟩,hfile⟩
  rw [hstatus]
  simp only [added,WorkspaceStatus.empty,List.nil_append]
  refine ⟨fun e he => ?_,fun e he => ?_⟩
  · obtain ⟨u,hu,he⟩ := List.mem_flatMap.mp he
    exact hold hu (deleted_sublist.subset he)
  · rcases List.mem_append.mp he with he | he
    · obtain ⟨m,hm,rfl⟩ := List.mem_map.mp he
      obtain ⟨u,hu,hm⟩ := List.mem_flatMap.mp hm
      exact hnew hu (mem_modified_new hm)
    · obtain ⟨u,hu,he⟩ := List.mem_flatMap.mp he
      exact hnew hu (new_sublist.subset he)

theorem foldl_calm {ds : List TreeDiffEntry} (h : ∀ d ∈ ds, d.Calm) (s : WorkspaceStatus) : ds.foldl TreeStatusDiffer.on s = s := by
  induction ds with
  | nil => rfl
  | cons d ds ih =>
    obtain ⟨hd,hds⟩ := List.forall_mem_cons.mp h
    have hon : TreeStatusDiffer.on s d = s := by cases d <;> simp_all [TreeDiffEntry.Calm,TreeStatusDiffer.on]
    rw [List.foldl_cons,hon,ih hds]

/-- There is no difference between a tree and an index that holds its files. -/
theorem BitIndexInner.Describes.diffTree (ht : t.Canonical) (hd : t.Distinct) (h : idx.Describes t) :
    idx.diffTree (.tree t) = .empty := foldl_calm (drain_calm (h.mirror ht hd)) .empty

end Sound

section Main
variable {t : Tree} {r : Repo}

/-- The cache after `update_cache_tree`. -/
def updatedCache (idx : BitIndexInner) (t : Tree) : BitTreeCache := (idx.treeCache.map (·.update t)).getD (.readTree t)

theorem updatedCache_fresh {idx : BitIndexInner} (h : ∀ root ∈ idx.treeCache, root.Fresh) (t : Tree) :
    updatedCache idx t = .readTree t := by
  unfold updatedCache
  cases hc : idx.treeCache with
  | none => rfl
  | some root => exact BitTreeCache.update_fresh (h root hc) t

theorem readTree_of_applyDiff {r' : Repo} (h : applyDiff (r.index.diffTree (.tree t)) r = .ok () r') :
    readTree t r = .ok () {r' with index := {r'.index with treeCache := some (updatedCache r'.index t)}} :=
  (bind_of_ok rfl).trans (bind_of_ok h)

/-- An index that holds the files of the tree already keeps them. -/
theorem readTree_described (ht : t.Canonical) (hd : t.Distinct) (hfresh : ∀ root ∈ r.index.treeCache, root.Fresh)
    (h : r.index.Describes t) : (∃ r', readTree t r = .ok () r') ∧ Replaces t r := by
  have happly : applyDiff (r.index.diffTree (.tree t)) r = .ok () r := by
    rw [h.diffTree ht hd]
    exact applyDiff_complete (s := .empty) (by simp [WorkspaceStatus.empty]) r
  have hrun := readTree_of_applyDiff happly
  rw [updatedCache_fresh hfresh] at hrun
  refine ⟨⟨_,hrun⟩,fun r' hr' => ?_⟩
  obtain rfl : _ = r' := by simpa using hrun.symm.trans hr'
  have h' : BitIndexInner.Describes ⟨r.index.entries,some (.readTree t)⟩ t := h
  exact ⟨h',rfl,by rw [h'.diffTree ht hd]; rfl⟩

/-- The order of the index leaves no choice. -/
theorem BitIndexInner.Valid.entries_eq {idx idx' : BitIndexInner} (h : idx.Valid) (h' : idx'.Valid)
    (hmem : ∀ e, e ∈ idx.entries ↔ e ∈ idx'.entries) : idx.entries = idx'.entries := by
  have hnodup {idx : BitIndexInner} (h : idx.Valid) : idx.entries.Nodup := by
    refine h.sorted.imp fun hlt heq => ?_
    rw [heq] at hlt
    exact keyLt_irrefl _ hlt
  refine List.Perm.eq_of_pairwise (fun a b _ _ hab hba => absurd (hab.trans hba) (keyLt_irrefl _)) h.sorted h'.sorted ?_
  exact (List.perm_ext_iff_of_nodup (hnodup h) (hnodup h')).mpr hmem

/-- Nothing is added to a settled index, so it can only hold what it held before. -/
theorem described_of_replaces (h : r.index.Settled) (hrep : Replaces t r) : r.index.Describes t := by
  obtain ⟨hold,hnew⟩ := diffIterators_sound (treeIter (.tree t)) r.index.indexTreeIter
  have hmem : ∀ e ∈ (r.index.diffTree (.tree t)).modified.map Prod.snd++(r.index.diffTree (.tree t)).new, e ∈ r.index.entries :=
    fun e he => mem_entries_of_files (hnew e he)
  have hrun := readTree_of_applyDiff (applyDiff_complete (fun e he => h.complete e (hmem e he)) r)
  have hdesc : (r.index.applied (r.index.diffTree (.tree t))).Describes t := (hrep _ hrun).1
  obtain ⟨hvalid,happlied⟩ := h.applied hmem
  have heq : (r.index.applied (r.index.diffTree (.tree t))).entries = r.index.entries := by
    refine hvalid.entries_eq h.valid fun y => ⟨fun hy => ?_,fun hy => ?_⟩
    · exact ((happlied y).mp hy).elim (hmem y) And.left
    · by_contra hnot
      have hdel : ¬∀ old ∈ (r.index.diffTree (.tree t)).deleted, y.key ≠ old.key := fun hdel =>
        hnot ((happlied y).mpr (.inr ⟨hy,hdel⟩))
      push Not at hdel
      obtain ⟨old,hdel,hkey⟩ := hdel
      -- the tree has a file there, so in the end the index has one too
      obtain ⟨x,hx,rfl⟩ := mem_files_treeIter.mp (hold old hdel)
      have hx : ((x.1,MergeStage.NONE),FileMode.blob x.2.1,Oid.blob x.2.2) ∈
          (r.index.applied (r.index.diffTree (.tree t))).entries.map fun e => (e.key,e.mode,e.oid) :=
        forall₂_fileOf_iff.mp hdesc ▸ List.mem_map_of_mem hx
      obtain ⟨f,hf,hfx⟩ := List.mem_map.mp hx
      have hfy : f.key = y.key := (congrArg Prod.fst hfx).trans hkey.symm
      have hfr := (mem_entries_iff h.valid).mp (((happlied f).mp hf).elim (hmem f) And.left)
      rw [hfy,(mem_entries_iff h.valid).mp hy,Option.some.injEq] at hfr
      exact hnot (hfr ▸ hf)
  rw [Describes,heq] at hdesc
  exact hdesc

/-- Reading a tree replaces the index by it if the index holds its files already, and a settled index
that does not hold them is not replaced. -/
theorem readTree_replaces_iff (hg : t.GitOrder) (ht : t.Canonical) (hfresh : ∀ root ∈ r.index.treeCache, root.Fresh) :
    (r.index.Describes t → (∃ r', readTree t r = .ok () r') ∧ Replaces t r) ∧
      (r.index.Settled → (Replaces t r ↔ r.index.Describes t)) :=
  ⟨readTree_described ht hg.distinct hfresh,fun h =>
    ⟨described_of_replaces h,fun hd => (readTree_described ht hg.distinct hfresh hd).2⟩⟩

/-- The index holds the file `a`, the tree holds it as well. -/
theorem readTree_replaces_iff_same : Replaces (.leaf [97] (.REG,[97]) .nil) {Repo.init with index := ⟨[fileAt [[97]]],none⟩} :=
  ((readTree_replaces_iff (by decide) (by decide) (by simp)).1 (by decide)).2

/-- The index is empty, and it is empty after the tree with the file `a` was read. -/
theorem readTree_keeps_empty : Tree.WellFormed (.leaf [97] (.REG,[97]) .nil) ∧
    ¬Replaces (.leaf [97] (.REG,[97]) .nil) Repo.init := by
  refine ⟨by decide,fun h => ?_⟩
  have hrun := @readTree_of_applyDiff (.leaf [97] (.REG,[97]) .nil) Repo.init Repo.init
    (applyDiff_complete (by decide) Repo.init)
  exact absurd (h _ hrun).1 (by decide)

end Main
end Libbit
