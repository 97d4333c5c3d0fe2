import Libbit.AddAll
import Libbit.MergeStaged

/-! A checkout that ends in conflicts. Planning asks the index about files of the worktree, and an answer may refresh an
entry; the records of the index are what has to survive that. -/
namespace Libbit

open Lib

/-! ### Records -/

/-- An entry without its stat data. -/
def BitIndexEntry.record (e : BitIndexEntry) : (BitPath × MergeStage) × FileMode × Oid := (e.key,e.mode,e.oid)

namespace BitIndexInner
variable {idx idx' : BitIndexInner}

def records (idx : BitIndexInner) : List ((BitPath × MergeStage) × FileMode × Oid) := idx.entries.map BitIndexEntry.record

theorem records_removeEntry (idx : BitIndexInner) (k : BitPath × MergeStage) :
    (idx.removeEntry k).records = idx.records.filter fun x => x.1 ≠ k := by
  have hfilter : (idx.entries.filter fun e => e.key ≠ k).map BitIndexEntry.record = idx.records.filter fun x => x.1 ≠ k := by
    rw [records,List.filter_map]
    rfl
  unfold removeEntry
  split
  · exact hfilter
  · rename_i hnone
    rw [← hfilter,List.filter_eq_self.mpr]
    · rfl
    · intro e he
      have hnot := List.find?_eq_none.mp (by simpa using hnone : idx.findEntry k = none) e he
      simpa using hnot

/-- A function of the entries that reads their records only. -/
theorem records_filter (q : (BitPath × MergeStage) × FileMode × Oid → Bool) (es : List BitIndexEntry) :
    (es.filter fun e => q e.record).map BitIndexEntry.record = (es.map BitIndexEntry.record).filter q := by
  rw [List.filter_map]
  rfl

section Same
variable (h : idx.records = idx'.records)
include h

theorem same_removeEntry (k : BitPath × MergeStage) : (idx.removeEntry k).records = (idx'.removeEntry k).records := by
  rw [records_removeEntry,records_removeEntry,h]

theorem same_removeAll (ks : List (BitPath × MergeStage)) :
    (ks.foldl (fun idx k => idx.removeEntry k) idx).records = (ks.foldl (fun idx k => idx.removeEntry k) idx').records := by
  induction ks generalizing idx idx' with
  | nil => exact h
  | cons k ks ih => exact ih (same_removeEntry h k)

theorem same_removeConflicted (p : BitPath) : (idx.removeConflicted p).records = (idx'.removeConflicted p).records :=
  same_removeEntry (same_removeEntry (same_removeEntry h _) _) _

theorem same_removeFileDirCollisions (p : BitPath) :
    (idx.removeFileDirCollisions p).records = (idx'.removeFileDirCollisions p).records := by
  have hall := same_removeAll h (p.cumulativeComponents.map fun c => (c,MergeStage.NONE))
  rwa [List.foldl_map,List.foldl_map] at hall

theorem same_rangeFrom (start : Bytes) :
    (idx.rangeFrom start).map BitIndexEntry.record = (idx'.rangeFrom start).map BitIndexEntry.record := by
  have hrange (idx : BitIndexInner) : (idx.rangeFrom start).map BitIndexEntry.record =
      idx.records.filter fun x => start ≤ x.1.1.asBytes := records_filter (fun x => start ≤ x.1.1.asBytes) _
  rw [hrange,hrange,h]

theorem same_subentries (p : BitPath) : (idx.subentries p).map BitIndexEntry.key = (idx'.subentries p).map BitIndexEntry.key := by
  have hsub (idx : BitIndexInner) : (idx.subentries p).map BitIndexEntry.record =
      (((idx.rangeFrom (if p = [] then [] else p.asBytes++[SLASH])).map BitIndexEntry.record).takeWhile
        fun x => x.1.1.startsWith p).filter fun x => x.1.2 = .NONE := by
    rw [List.takeWhile_map,List.filter_map]
    rfl
  have hkeys (es : List BitIndexEntry) : es.map BitIndexEntry.key = (es.map BitIndexEntry.record).map Prod.fst := by
    rw [List.map_map]
    rfl
  rw [hkeys,hkeys,hsub,hsub,same_rangeFrom h]

theorem same_removeDirectory (p : BitPath) : (idx.removeDirectory p).records = (idx'.removeDirectory p).records := by
  rw [removeDirectory_eq,removeDirectory_eq,same_subentries h]
  exact same_removeAll h _

theorem same_removeDirFileCollisions (p : BitPath) :
    (idx.removeDirFileCollisions p).records = (idx'.removeDirFileCollisions p).records := by
  have hany (idx : BitIndexInner) : ((idx.collisionRange p).drop 1).any (fun e => e.path.startsWith p) =
      ((((idx.rangeFrom p.asBytes).map BitIndexEntry.record).filter fun x => x.1.1.asBytes < p.asBytes++[97]).drop 1).any
        fun x => x.1.1.startsWith p := by
    rw [List.filter_map,← List.map_drop,List.any_map]
    rfl
  have hsame : ((idx.collisionRange p).drop 1).any (fun e => e.path.startsWith p) =
      ((idx'.collisionRange p).drop 1).any fun e => e.path.startsWith p := by
    rw [hany,hany,same_rangeFrom h]
  change (if ((idx.collisionRange p).drop 1).any (fun e => e.path.startsWith p) then idx.removeDirectory p else idx).records =
    (if ((idx'.collisionRange p).drop 1).any (fun e => e.path.startsWith p) then idx'.removeDirectory p else idx').records
  rw [hsame]
  split
  · exact same_removeDirectory h p
  · exact h

end Same

theorem same_insertSorted {e e' : BitIndexEntry} (he : e.record = e'.record) {l l' : List BitIndexEntry}
    (h : l.map BitIndexEntry.record = l'.map BitIndexEntry.record) :
    (insertSorted e l).map BitIndexEntry.record = (insertSorted e' l').map BitIndexEntry.record := by
  have hkey {a b : BitIndexEntry} (h : a.record = b.record) : a.key = b.key := congrArg Prod.fst h
  induction l generalizing l' with
  | nil =>
    cases l' with
    | nil => simp [insertSorted,he]
    | cons y l' => cases h
  | cons x l ih =>
    cases l' with
    | nil => cases h
    | cons y l' =>
      obtain ⟨hxy,hrest⟩ := List.cons.inj h
      unfold insertSorted
      rw [hkey hxy,hkey he]
      split
      · rw [List.map_cons,List.map_cons,hxy,ih hrest]
      · split
        · rw [List.map_cons,List.map_cons,he,hrest]
        · rw [List.map_cons,List.map_cons,List.map_cons,List.map_cons,he,hxy,hrest]

/-- What adding an entry does to the records is seen from the records. -/
theorem same_addedEntry {e e' : BitIndexEntry} (he : e.record = e'.record) (h : idx.records = idx'.records) :
    (idx.addedEntry e).records = (idx'.addedEntry e').records := by
  have hpath : e.path = e'.path := congrArg (fun x => x.1.1) he
  refine same_insertSorted he ?_
  rw [hpath]
  exact same_removeDirFileCollisions (same_removeFileDirCollisions (same_removeConflicted h _) _) _

/-- Adding the entry takes nothing away and changes no mode and no id. -/
def Harmless (idx : BitIndexInner) (e : BitIndexEntry) : Prop := (idx.addedEntry e).records = idx.records

instance (idx : BitIndexInner) (e : BitIndexEntry) : Decidable (idx.Harmless e) := inferInstanceAs (Decidable (_ = _))

theorem Harmless.same {e : BitIndexEntry} (h : idx.Harmless e) (hsame : idx'.records = idx.records) :
    (idx'.addedEntry e).records = idx.records := (same_addedEntry rfl hsame).trans h

end BitIndexInner

/-! ### What an answer does to the index -/

/-- No refresh of a file that the hash finds unchanged takes another entry away. -/
def Repo.RefreshesHarmlessly (r : Repo) : Prop :=
  ∀ e ∈ r.index.entries, ∀ f, e.stage = .NONE → r.worktree.look e.path = some (some f) →
    hasChangesInner r.indexMtime e (f.toEntry e.path) = .Maybe → e.oid = .blob f.contents →
    r.index.Harmless (f.hashed e.path)

/-- The index has the records that it had; an entry that is not as it was is that of a file. -/
structure RefreshedIndex (r : Repo) (idx : BitIndexInner) : Prop where
  records : idx.records = r.index.records
  entry : ∀ e ∈ idx.entries, e ∈ r.index.entries ∨
    ∃ f, r.worktree.look e.path = some (some f) ∧ e = f.hashed e.path ∧ r.index.Harmless e

/-- The index may have been refreshed; all else is as it was. -/
def OnlyRefreshed (r s : Repo) : Prop := ∃ idx, s = {r with index := idx} ∧ RefreshedIndex r idx

section Answers
variable {r s : Repo}

theorem OnlyRefreshed.refl (r : Repo) : OnlyRefreshed r r := ⟨r.index,rfl,rfl,fun _ he => Or.inl he⟩

theorem RefreshedIndex.addedEntry {idx : BitIndexInner} (h : RefreshedIndex r idx) {f : FileNode} {p : BitPath}
    (hf : r.worktree.look p = some (some f)) (hharmless : r.index.Harmless (f.hashed p)) :
    RefreshedIndex r (idx.addedEntry (f.hashed p)) := by
  refine ⟨hharmless.same h.records,fun e he => ?_⟩
  rcases BitIndexInner.mem_addedEntry he with rfl | he
  · exact Or.inr ⟨f,hf,rfl,hharmless⟩
  · exact h.entry e he

theorem OnlyRefreshed.isWorktreeEntryModified (hr : r.RefreshesHarmlessly) (hw : r.worktree.WellFormed)
    {we : BitIndexEntry} (hv : Vouched r.worktree we) (h : OnlyRefreshed r s) :
    Ends (fun _ => OnlyRefreshed r) (OnlyRefreshed r) (isWorktreeEntryModified we s) := by
  obtain ⟨idx,rfl,hidx⟩ := h
  obtain ⟨f,hf,heq,hhashed⟩ := Worktree.hashed_of_vouched hv
  rw [Libbit.isWorktreeEntryModified,run_getBind]
  cases ho : idx.findEntry we.key with
  | none => exact ⟨idx,rfl,hidx⟩
  | some o =>
    obtain ⟨hmem,hkey⟩ := BitIndexInner.findEntry_some ho
    have hpath : o.path = we.path := congrArg Prod.fst hkey
    have hstage : o.stage = .NONE := (congrArg Prod.snd hkey).trans (by rw [BitIndexEntry.key,heq]; rfl)
    change Ends _ _ (hasChanges o we {r with index := idx})
    rw [hasChanges_run (r := {r with index := idx}) hw hv]
    cases hverdict : verdict r.indexMtime r.worktree (o,we) with
    | Yes => exact ⟨idx,rfl,hidx⟩
    | No => exact ⟨idx,rfl,hidx⟩
    | Maybe =>
      have hharmless : r.index.Harmless (f.hashed we.path) := by
        rcases hidx.entry o hmem with hold | ⟨g,hg,hoeq,hharmless⟩
        · obtain ⟨hmaybe,hoid⟩ := verdict_maybe.mp hverdict
          rw [hhashed] at hoid
          rw [← hpath] at hf heq ⊢
          exact hr o hold f hstage hf (heq ▸ hmaybe) hoid
        · rw [hpath,hf] at hg
          obtain rfl : f = g := by simpa using hg
          rwa [hoeq,hpath] at hharmless
      refine ⟨_,rfl,?_⟩
      rw [hhashed]
      exact hidx.addedEntry hf hharmless

end Answers

/-! ### Planning -/

section Planning
variable {P : Repo → Prop} {A : BitIndexEntry → Prop} {s : Repo}

/-- The files among the entries may be asked about. -/
def Askable (A : BitIndexEntry → Prop) (es : List BitIndexEntry) : Prop := ∀ e ∈ es, e.isTree = false → A e

theorem Askable.mono {es es' : List BitIndexEntry} (h : Askable A es) (hsub : es' ⊆ es) : Askable A es' := fun e he =>
  h e (hsub he)

theorem stepOver_subset (es : List BitIndexEntry) : Iter.stepOver es ⊆ es := by
  cases es with
  | nil => exact List.Subset.refl _
  | cons e es => exact List.subset_cons_of_subset _ (TreeDiffIter.stepOver_sublist e es).subset

theorem subtree_subset (es : List BitIndexEntry) : Iter.subtree es ⊆ es := by
  cases es with
  | nil => exact List.Subset.refl _
  | cons e es => exact List.cons_subset_cons e (List.takeWhile_subset _)

theorem worktreeOnly_subset (strategy : CheckoutStrategy) (c : CheckoutCtxt) (we : BitIndexEntry) (wt : List BitIndexEntry) :
    (worktreeOnly strategy c (we::wt) we).2 ⊆ we::wt := by
  unfold worktreeOnly
  split
  · exact stepOver_subset (we::wt)
  · exact List.subset_cons_self we wt

/-- The worktree entries that a turn leaves are among those that it got. -/
def TreeDiffIter.Turn.Within (new : List BitIndexEntry) : TreeDiffIter.Turn → Prop
  | .done => True
  | .yield _ _ new' => new' ⊆ new
  | .pass _ new' => new' ⊆ new

theorem onCreated_within (old : List BitIndexEntry) (n : BitIndexEntry) (ns : List BitIndexEntry) :
    (TreeDiffIter.onCreated old n ns).Within (n::ns) := by
  unfold TreeDiffIter.onCreated
  split
  · exact stepOver_subset (n::ns)
  · exact List.subset_cons_self n ns

theorem onDeleted_within (o : BitIndexEntry) (os new : List BitIndexEntry) : (TreeDiffIter.onDeleted o os new).Within new := by
  unfold TreeDiffIter.onDeleted
  split <;> exact List.Subset.refl _

variable (ha : ∀ we s, A we → P s → Ends (fun _ => P) P (isWorktreeEntryModified we s))
include ha

theorem onMatch_ends (b : Bool) (o : BitIndexEntry) (os : List BitIndexEntry) {n : BitIndexEntry} (ns : List BitIndexEntry)
    (hn : n.isTree = false → A n) (hs : P s) : Ends (fun t s => P s ∧ t.Within (n::ns)) P
      (TreeDiffIter.onMatch (fun _ n => isWorktreeEntryModified n) b o os n ns s) := by
  have hself := List.subset_cons_self n ns
  have hover := stepOver_subset (n::ns)
  cases ho : o.mode with
  | TREE =>
    cases hmode : n.mode with
    | TREE =>
      simp only [TreeDiffIter.onMatch,ho,hmode]
      exact Ends.ite (fun _ => Ends.ite (fun _ => ⟨hs,hover⟩) fun _ => ⟨hs,hover⟩) fun _ => ⟨hs,hself⟩
    | blob m =>
      simp only [TreeDiffIter.onMatch,ho,hmode]
      exact ⟨hs,hself⟩
  | blob m =>
    cases hmode : n.mode with
    | TREE =>
      simp only [TreeDiffIter.onMatch,ho,hmode]
      exact ⟨hs,hover⟩
    | blob m' =>
      simp only [TreeDiffIter.onMatch,ho,hmode]
      refine Ends.bind (ha n s (hn (TreeDiffIter.not_isTree_of_mode hmode)) hs) fun changed t ht => ?_
      exact Ends.ite (fun _ => ⟨ht,hself⟩) fun _ => Ends.ite (fun _ => ⟨ht,hself⟩) fun _ => ⟨ht,hself⟩

theorem turn_ends (b : Bool) (old : List BitIndexEntry) {new : List BitIndexEntry} (hnew : Askable A new) (hs : P s) :
    Ends (fun t s => P s ∧ t.Within new) P (TreeDiffIter.turn (fun _ n => isWorktreeEntryModified n) b old new s) := by
  cases old with
  | nil =>
    cases new with
    | nil => exact ⟨hs,trivial⟩
    | cons n ns => exact ⟨hs,onCreated_within [] n ns⟩
  | cons o os =>
    cases new with
    | nil => exact ⟨hs,onDeleted_within o os []⟩
    | cons n ns =>
      cases hcmp : o.diffCmp n with
      | lt =>
        simp only [TreeDiffIter.turn,hcmp]
        exact ⟨hs,onDeleted_within o os (n::ns)⟩
      | gt =>
        simp only [TreeDiffIter.turn,hcmp]
        exact ⟨hs,onCreated_within (o::os) n ns⟩
      | eq =>
        simp only [TreeDiffIter.turn,hcmp]
        exact onMatch_ends ha b o os ns (hnew n List.mem_cons_self) hs

theorem treesAreDiff_ends (fuel : ℕ) (old : List BitIndexEntry) {new : List BitIndexEntry} (hnew : Askable A new) (hs : P s) :
    Ends (fun _ => P) P (treesAreDiff fuel old new s) := by
  induction fuel generalizing old new s with
  | zero => exact hs
  | succ fuel ih =>
    refine Ends.bind (turn_ends ha false old hnew hs) fun t s ht => ?_
    cases t with
    | done => exact ht.1
    | pass old' new' => exact ih _ (hnew.mono ht.2) ht.1
    | yield d old' new' =>
      cases d with
      | MaybeModifiedTree _ => exact ih _ (hnew.mono ht.2) ht.1
      | _ => exact ht.1

theorem resetWorktree_ends (fuel : ℕ) (c : CheckoutCtxt) (old : List BitIndexEntry) {new : List BitIndexEntry}
    (hnew : Askable A new) (hs : P s) : Ends (fun _ => P) P (resetWorktree fuel c old new s) := by
  induction fuel generalizing c old new s with
  | zero => exact hs
  | succ fuel ih =>
    refine Ends.bind (turn_ends ha true old hnew hs) fun t s ht => ?_
    cases t with
    | done => exact ht.1
    | pass old' new' => exact ih _ _ (hnew.mono ht.2) ht.1
    | yield d old' new' =>
      cases d with
      | UnmodifiedTree _ _ => exact ht.1
      | _ => exact ih _ _ (hnew.mono ht.2) ht.1

/-- What a planning step keeps, and that it leaves entries that it got. -/
def PlanEnds (P : Repo → Prop) (wt : List BitIndexEntry) : EStateM.Result BitError Repo (CheckoutCtxt × List BitIndexEntry) → Prop :=
  Ends (fun x s => P s ∧ x.2 ⊆ wt) P

variable (strategy : CheckoutStrategy)

theorem withWorktreeDir_ends {recurse : CheckoutCtxt → List BitIndexEntry → List BitIndexEntry → Plan}
    {wt : List BitIndexEntry} (hr : ∀ c sub, PlanEnds P wt (recurse c sub wt s)) (hwt : Askable A wt) (hs : P s)
    (c : CheckoutCtxt) (d : TreeDiffEntry) (we : BitIndexEntry) :
    PlanEnds P wt (withWorktreeDir strategy recurse c wt d we s) := by
  have hself := List.Subset.refl wt
  have hover := stepOver_subset wt
  have hdiff (e : BitIndexEntry) (sub : List BitIndexEntry) (x y : CheckoutCtxt) :
      PlanEnds P wt ((do
        if ← treesAreDiff ((e::sub).length+wt.length) (e::sub) (Iter.subtree wt) then pure (x,Iter.stepOver wt)
        else pure (y,Iter.stepOver wt) : Plan) s) := by
    refine Ends.bind (treesAreDiff_ends ha _ _ (hwt.mono (subtree_subset wt)) hs) fun b t ht => ?_
    exact Ends.ite (fun _ => ⟨ht,hover⟩) fun _ => ⟨ht,hover⟩
  cases d with
  | DeletedBlob blob => exact Ends.ite (fun _ => ⟨hs,hover⟩) fun _ => ⟨hs,hself⟩
  | CreatedBlob _ => exact hs
  | ModifiedBlob _ entry => exact Ends.ite (fun _ => ⟨hs,hover⟩) fun _ => ⟨hs,hover⟩
  | MaybeModifiedTree _ => exact ⟨hs,List.tail_subset wt⟩
  | UnmodifiedBlob _ => exact hs
  | UnmodifiedTree e sub =>
    refine Ends.ite (fun _ => ?_) fun _ => ⟨hs,hover⟩
    exact Ends.bind (resetWorktree_ends ha _ c (e::sub) hwt hs) fun c t ht => ⟨ht,List.nil_subset wt⟩
  | DeletedTree e sub => exact Ends.ite (fun _ => ⟨hs,hself⟩) fun _ => hdiff e sub _ _
  | CreatedTree e sub => exact Ends.ite (fun _ => hr _ _) fun _ => ⟨hs,hover⟩
  | BlobToTree _ e sub => exact Ends.ite (fun _ => hr _ _) fun _ => ⟨hs,hover⟩
  | TreeToBlob e sub blob => exact Ends.ite (fun _ => ⟨hs,hself⟩) fun _ => hdiff e sub _ _

theorem withWorktree_ends {recurse : CheckoutCtxt → List BitIndexEntry → List BitIndexEntry → Plan}
    {we : BitIndexEntry} {wt : List BitIndexEntry} (hr : ∀ c sub, PlanEnds P (we::wt) (recurse c sub (we::wt) s))
    (hwt : Askable A (we::wt)) (hs : P s) (c : CheckoutCtxt) (d : TreeDiffEntry) :
    PlanEnds P (we::wt) (withWorktree strategy recurse c (we::wt) d we s) := by
  refine Ends.ite (fun _ => withWorktreeDir_ends ha strategy hr hwt hs c d we) fun hblob => ?_
  refine Ends.bind (ha we s (hwt we List.mem_cons_self (by simpa using hblob)) hs) fun modified t ht => ?_
  cases withWorktreeFile strategy c we modified d with
  | some c => exact ⟨ht,List.subset_cons_self we wt⟩
  | none => exact ht

theorem checkoutLoop_ends (fuel : ℕ) (c : CheckoutCtxt) (ds : List TreeDiffEntry) {wt : List BitIndexEntry}
    (hwt : Askable A wt) (hs : P s) : PlanEnds P wt (checkoutLoop strategy fuel c ds wt s) := by
  induction fuel generalizing c ds wt s with
  | zero => exact hs
  | succ fuel ih =>
    have hmore {wt' : List BitIndexEntry} (hsub : wt' ⊆ wt) {s' : Repo} (hs' : P s') (c : CheckoutCtxt)
        (ds : List TreeDiffEntry) : PlanEnds P wt (checkoutLoop strategy fuel c ds wt' s') := by
      exact Ends.mono (ih c ds (hwt.mono hsub) hs') (fun x t ht => ⟨ht.1,List.Subset.trans ht.2 hsub⟩) fun _ ht => ht
    cases ds with
    | nil => exact ⟨hs,List.Subset.refl wt⟩
    | cons d ds =>
      cases wt with
      | nil => exact hmore (List.Subset.refl _) hs _ _
      | cons we wt =>
        cases hcmp : we.diffCmp d.indexEntry with
        | lt =>
          simp only [checkoutLoop,hcmp]
          exact hmore (worktreeOnly_subset strategy c we wt) hs _ _
        | gt =>
          simp only [checkoutLoop,hcmp]
          exact hmore (List.Subset.refl _) hs _ _
        | eq =>
          simp only [checkoutLoop,hcmp]
          exact Ends.bind (withWorktree_ends ha strategy (fun c sub => ih c _ hwt hs) hwt hs c d) fun x t ht =>
            hmore ht.2 ht.1 _ _

theorem generate_ends (baseline target : List BitIndexEntry) {wt : List BitIndexEntry} (hwt : Askable A wt) (hs : P s) :
    Ends (fun _ => P) P (generate strategy baseline target wt s) := by
  refine Ends.bind (checkoutLoop_ends ha strategy _ _ _ hwt hs) fun x t ht => ?_
  exact Ends.ite (fun _ => ht.1) fun _ => ht.1

end Planning

/-! ### Where the error comes from -/

/-- An error that does not say that a checkout conflicts. -/
def NoCheckoutConflict (e : BitError) : Prop := ∀ conflicts, e ≠ .CheckoutConflict conflicts

/-- The operation fails with other errors only. -/
abbrev NeverConflicts {α : Type} (m : Bit α) : Prop := Keeps (fun _ => True) NoCheckoutConflict m

section Errors
variable (env : Env)

theorem ioGet_neverConflicts {α : Type} (f : Worktree → IoResult α) : NeverConflicts (ioGet f) := by
  refine Keeps.get.bind fun r => ?_
  cases f r.worktree with
  | ok a => exact Keeps.pure a
  | error e => exact Keeps.throw fun _ h => by cases h

theorem io_neverConflicts (f : Worktree → IoResult Worktree) : NeverConflicts (io f) := by
  refine Keeps.get.bind fun r => ?_
  cases f r.worktree with
  | ok w => exact Keeps.modify fun _ _ => trivial
  | error e => exact Keeps.throw fun _ h => by cases h

theorem modifyIndex_neverConflicts (f : BitIndexInner → BitIndexInner) : NeverConflicts (modifyIndex f) :=
  Keeps.modify fun _ _ => trivial

theorem fromRelativePath_neverConflicts (p : BitPath) : NeverConflicts (fromRelativePath p) := by
  refine (ioGet_neverConflicts _).bind fun m => ?_
  cases m <;> exact Keeps.pure _

theorem readBlobFromWorktree_neverConflicts (p : BitPath) : NeverConflicts (readBlobFromWorktree p) := by
  refine (ioGet_neverConflicts _).bind fun m => ?_
  cases m with
  | some f => exact Keeps.pure _
  | none => exact Keeps.throw fun _ h => by cases h

theorem readToBytes_neverConflicts (e : BitIndexEntry) : NeverConflicts e.readToBytes := by
  unfold BitIndexEntry.readToBytes
  split
  · exact Keeps.pure _
  · exact readBlobFromWorktree_neverConflicts _
  · exact Keeps.throw fun _ h => by cases h

theorem addEntry_neverConflicts (e : BitIndexEntry) : NeverConflicts (addEntry e) := by
  have hwrite (e : BitIndexEntry) : NeverConflicts e.write :=
    Keeps.ite (fun _ => Keeps.pure _) fun _ => (readToBytes_neverConflicts e).bind fun _ => Keeps.pure _
  have hfill : NeverConflicts e.fill :=
    Keeps.ite (fun _ => Keeps.pure _) fun _ => (fromRelativePath_neverConflicts _).bind fun _ => Keeps.pure _
  exact hfill.bind fun e => (modifyIndex_neverConflicts _).seq ((modifyIndex_neverConflicts _).seq
    ((hwrite e).bind fun _ => modifyIndex_neverConflicts _))

theorem applyRmrf_neverConflicts (e : TreeEntry) : NeverConflicts (applyRmrf e) :=
  (Keeps.get.bind fun _ => Keeps.ite (fun _ => io_neverConflicts _) fun _ => Keeps.pure _).seq (modifyIndex_neverConflicts _)

theorem applyRm_neverConflicts (e : TreeEntry) : NeverConflicts (applyRm e) := by
  have hempty (p : BitPath) : NeverConflicts (removeIfEmpty p) :=
    (ioGet_neverConflicts _).bind fun _ => Keeps.ite (fun _ => io_neverConflicts _) fun _ => Keeps.pure _
  exact (Keeps.get.bind fun _ => Keeps.ite (fun _ => (io_neverConflicts _).seq (hempty _)) fun _ => Keeps.pure _).seq
    (modifyIndex_neverConflicts _)

theorem applyCreate_neverConflicts (e : TreeEntry) : NeverConflicts (applyCreate env e) := by
  have hmake (b : Bytes) (stamp : ℕ × ℕ) : NeverConflicts (makeFile e b stamp) := by
    unfold makeFile
    split
    · exact io_neverConflicts _
    · exact io_neverConflicts _
    · exact Keeps.throw fun _ h => by cases h
  have hstamp : NeverConflicts (nextStamp env) := Keeps.get.bind fun _ => (Keeps.set trivial).seq (Keeps.pure _)
  exact (readToBytes_neverConflicts _).bind fun b => (io_neverConflicts _).seq (hstamp.bind fun stamp =>
    (hmake b stamp).seq ((fromRelativePath_neverConflicts _).bind fun _ => addEntry_neverConflicts _))

theorem applyMigration_neverConflicts (m : Migration) : NeverConflicts (applyMigration env m) :=
  (Keeps.forM fun _ _ => applyRmrf_neverConflicts _).seq ((Keeps.forM fun _ _ => applyRm_neverConflicts _).seq
    ((Keeps.forM fun _ _ => io_neverConflicts _).seq (Keeps.forM fun _ _ => applyCreate_neverConflicts env _)))

/-- A checkout that conflicts has changed nothing but stat data. -/
theorem checkoutTree_conflict {r r' : Repo} (hr : r.RefreshesHarmlessly) (hw : r.worktree.WellFormed) {target : Tree}
    {strategy : CheckoutStrategy} {conflicts : List TreeEntry}
    (h : checkoutTreeWithOpts env target strategy r = .error (.CheckoutConflict conflicts) r') : OnlyRefreshed r r' := by
  have hask (we : BitIndexEntry) (s : Repo) (hv : Vouched r.worktree we) (hs : OnlyRefreshed r s) :=
    OnlyRefreshed.isWorktreeEntryModified hr hw hv hs
  have hwt : Askable (Vouched r.worktree) (worktreeTreeIter env.gitignore r.index r.worktree) := fun e he hb =>
    vouched_of_iter hw he hb
  have hplan := generate_ends hask strategy (treeIter r.headTree) (treeIter (.tree target)) hwt (OnlyRefreshed.refl r)
  have hforced : NeverConflicts (if strategy.isForced then updateCacheTree target else pure () : Bit Unit) :=
    Keeps.ite (fun _ => modifyIndex_neverConflicts _) fun _ => Keeps.pure _
  rcases bind_error.mp h with h | ⟨_,t,-,h⟩
  · rcases bind_error.mp (show ((generate strategy (treeIter r.headTree) (treeIter (.tree target))
      (worktreeTreeIter env.gitignore r.index r.worktree)) >>= applyMigration env) r = _ from h) with h | ⟨m,t,-,h⟩
    · rw [h] at hplan
      exact hplan
    · exact absurd rfl (((applyMigration_neverConflicts env m).error trivial h).2 conflicts)
  · exact absurd rfl ((hforced.error trivial h).2 conflicts)

end Errors

/-! ### The checkout of a reference -/

/-- An entry of a reflog; those with other causes stand as their line. -/
inductive LogEntry
  | moved (newOid : ℕ) (source target : BitRef)
  | other (line : Bytes)
  deriving DecidableEq, Repr

/-- The repository with the logs of its refs. -/
structure LoggedRepo where
  repo : Repo
  reflogs : List (Name × List LogEntry)

namespace LoggedRepo

def HEAD : Name := [72,69,65,68]

/-- An entry goes to the end of the log of a ref. -/
def log (s : LoggedRepo) (sym : Name) (e : LogEntry) : LoggedRepo :=
  let old := ((s.reflogs.find? fun x => x.1 = sym).map Prod.snd).getD []
  {s with reflogs := (sym,old++[e])::s.reflogs.filter fun x => x.1 ≠ sym}

end LoggedRepo

def REFS_REMOTES : BitPath := [[114,101,102,115],[114,101,109,111,116,101,115]]

def BitRef.isRemote : BitRef → Bool
  | .Direct _ => false
  | .Symbolic sym => (BitPath.ofBytes sym).startsWith REFS_REMOTES

section Checkout

/-- An operation on the repository below its logs. -/
def onRepo {α : Type} (m : Bit α) : EStateM BitError LoggedRepo α := fun s =>
  match m s.repo with
  | .ok a r => .ok a {s with repo := r}
  | .error e r => .error e {s with repo := r}

variable (env : Env)

/-- `update_head_for_checkout`: HEAD is written before the log. -/
def updateHeadForCheckout (target : BitRef) : EStateM BitError LoggedRepo Unit := do
  let source := (← get).repo.head
  match (← get).repo.resolveRef target with
  | none => throw .NonExistentRef
  | some oid => do
    modify fun s => {s with repo := {s.repo with head := target}}
    match env.now with
    | none => throw .NoSignature
    | some _ => modify fun s => s.log LoggedRepo.HEAD (.moved oid source target)

/-- `BitRepo::checkout`: a remote branch detaches HEAD. -/
def checkout (reference : BitRef) (strategy : CheckoutStrategy) : EStateM BitError LoggedRepo BitRef := do
  if reference = .Symbolic LoggedRepo.HEAD then throw .Panic
  else match (← get).repo.resolveRef reference with
    | none => throw .NonExistentRef
    | some oid => do
      onRepo (checkoutTreeWithOpts env ((← get).repo.treeOf oid) strategy)
      let newHead := if reference.isRemote then .Direct oid else reference
      updateHeadForCheckout env newHead
      pure newHead

end Checkout

/-- The worktree, HEAD, the refs and the reflogs are as they were, and so is the index up to stat data. -/
structure SameButStat (s s' : LoggedRepo) : Prop where
  repo : s'.repo = {s.repo with index := s'.repo.index}
  records : s'.repo.index.records = s.repo.index.records
  reflogs : s'.reflogs = s.reflogs

/-- A checkout that conflicts leaves all as it was. -/
def ConflictsAtomically (env : Env) (reference : BitRef) (strategy : CheckoutStrategy) (s : LoggedRepo) : Prop :=
  ∀ conflicts s', checkout env reference strategy s = .error (.CheckoutConflict conflicts) s' → SameButStat s s'

section Atomic
variable {env : Env} {reference : BitRef} {strategy : CheckoutStrategy} {s : LoggedRepo}

theorem onRepo_error {α : Type} {m : Bit α} {s s' : LoggedRepo} {e : BitError} (h : onRepo m s = .error e s') :
    ∃ r, m s.repo = .error e r ∧ s' = {s with repo := r} := by
  unfold onRepo at h
  cases hm : m s.repo with
  | ok a r => simp [hm] at h
  | error e' r =>
    simp only [hm] at h
    cases h
    exact ⟨r,rfl,rfl⟩

theorem updateHeadForCheckout_error {target : BitRef} {s s' : LoggedRepo} {e : BitError}
    (h : updateHeadForCheckout env target s = .error e s') : NoCheckoutConflict e := by
  simp only [updateHeadForCheckout,run_getBind] at h
  cases hr : s.repo.resolveRef target with
  | none =>
    simp only [hr] at h
    cases h
    exact fun _ h => by cases h
  | some oid =>
    simp only [hr] at h
    rcases bind_error.mp h with h | ⟨_,t,-,h⟩
    · cases h
    · cases hnow : env.now with
      | none =>
        simp only [hnow] at h
        cases h
        exact fun _ h => by cases h
      | some now =>
        simp only [hnow] at h
        cases h

end Atomic

/-! ### A file and what lies below its path -/

/-- Two commits that differ in the file `g`. -/
def gCommits : List Commit :=
  [⟨.leaf [102] (.REG,[97]) (.leaf [103] (.REG,[49]) .nil),[],(0,0)⟩,
    ⟨.leaf [102] (.REG,[97]) (.leaf [103] (.REG,[50]) .nil),[0],(1,0)⟩]

/-- `f` was touched and `g` was edited since the index was written. -/
def editedRepo (staged : List BitIndexEntry) : LoggedRepo where
  repo := {Repo.init with
    commits := gCommits
    head := .Direct 0
    index := ⟨sampleEntry::staged++[⟨[[103]],.blob .REG,.blob [49],.NONE,⟨5,2,1⟩⟩],none⟩
    indexMtime := some 7
    worktree := .leaf [102] (sampleFile .REG 6 1) (.leaf [103] ⟨.REG,[51],6,3⟩ .nil)}
  reflogs := []

theorem editedRepo_wellFormed (staged : List BitIndexEntry) : (editedRepo staged).repo.worktree.WellFormed :=
  ⟨by change Forest.AllNames NormalName (.leaf [102] _ (.leaf [103] _ .nil)); decide,
    by change Forest.Distinct (.leaf [102] _ (.leaf [103] _ .nil)); decide⟩

/-- Staged before `f` was made a file again, and a file that comes between the two. -/
def collided : List BitIndexEntry := [fileAt [[102,45]],fileAt [[102],[97]]]

/-- The refresh of `f` takes `f/a` out of the index. -/
theorem checkout_collided : checkout .plain (.Direct 1) .Safe (editedRepo collided) =
    .error (.CheckoutConflict [⟨.blob .REG,[[103]],.blob [50]⟩])
      {editedRepo collided with repo := {(editedRepo collided).repo with
        index := (editedRepo collided).repo.index.addedEntry ((sampleFile .REG 6 1).hashed [[102]])}} := by rfl

end Libbit
