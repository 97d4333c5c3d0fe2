import Libbit.WriteTree

/-! Runs of calls on one index. What a call does to the entries and to the tree cache is said once;
what holds after any run follows by induction over the calls. -/
namespace Libbit

open Lib

/-- The calls that a run is made of. Between two of them the worktree may change in any way. -/
inductive IndexCall
  | addEntry (e : BitIndexEntry)
  | addConflictedEntry (e : BitIndexEntry) (stage : MergeStage)
  | removeEntry (key : BitPath × MergeStage)
  | removeDirectory (p : BitPath)
  | writeTree
  | editWorktree (w : Worktree)

namespace IndexCall

def run : IndexCall → Bit Unit
  | addEntry e => Libbit.addEntry e
  | addConflictedEntry e stage => Libbit.addConflictedEntry e stage
  | removeEntry key => modifyIndex (·.removeEntry key)
  | removeDirectory p => modifyIndex (·.removeDirectory p)
  | writeTree => do
    let _ ← Libbit.writeTree
    pure ()
  | editWorktree w => modify fun r => {r with worktree := w}

/-- The repository after the call, whether it returned or failed. -/
def step (r : Repo) (c : IndexCall) : Repo := final (c.run r)

/-- The entry that the call is to add. -/
def entry? : IndexCall → Option BitIndexEntry
  | addEntry e => some e
  | addConflictedEntry e stage => some {e with stage := stage}
  | _ => none

/-- Only entries at proper paths are added. -/
def NormalPath (c : IndexCall) : Prop := ∀ e ∈ c.entry?, e.path ≠ [] ∧ e.path.Normal

end IndexCall

/-- The repository after a run of calls. -/
def runCalls (r : Repo) (calls : List IndexCall) : Repo := calls.foldl IndexCall.step r

/-- Every call of a run meets the condition in the state in which it is made. -/
def Along (P : Repo → IndexCall → Prop) : Repo → List IndexCall → Prop
  | _, [] => True
  | r, c::calls => P r c ∧ Along P (c.step r) calls

/-- What every call keeps holds after every run. -/
theorem runCalls_induction {P : Repo → IndexCall → Prop} {I : Repo → Prop} (hstep : ∀ r c, P r c → I r → I (c.step r))
    {r : Repo} (hr : I r) {calls : List IndexCall} (h : Along P r calls) : I (runCalls r calls) := by
  induction calls generalizing r with
  | nil => exact hr
  | cons c calls ih => exact ih (hstep r c h.1 hr) h.2

section Step

/-- What `add_entry` makes of an entry: it is completed from the disk unless it is filled, and its
contents are written unless they have an id. -/
structure Completed (r : Repo) (e e' : BitIndexEntry) : Prop where
  path : e'.path = e.path
  disk : e.isFilled ∧ e'.stage = e.stage ∧ e'.mode = e.mode ∨
    ¬e.isFilled ∧ e'.stage = .NONE ∧ ∃ m, r.worktree.symlinkMetadata e.path = .ok m ∧ e'.mode = (diskEntry e.path m).mode
  oid : e.oid.isKnown ∧ e'.oid = e.oid ∨ e.oid = .UNKNOWN ∧ ∃ contents, e'.oid = .blob contents

theorem fill_cases (e : BitIndexEntry) (r : Repo) :
    (∃ err, e.fill r = .error err r) ∨ e.isFilled ∧ e.fill r = .ok e r ∨
      ¬e.isFilled ∧ ∃ m, r.worktree.symlinkMetadata e.path = .ok m ∧
        e.fill r = .ok {diskEntry e.path m with oid := e.oid} r := by
  by_cases he : e.isFilled = true
  · exact .inr (.inl ⟨he,by simp [BitIndexEntry.fill,he]⟩)
  · cases hr : e.fill r with
    | error err r' =>
      have hr' := hr
      simp only [BitIndexEntry.fill,he,Bool.false_eq_true,if_false] at hr'
      rcases bind_error.mp hr' with hread | ⟨x,t,-,hpure⟩
      · rcases bind_error.mp hread with hget | ⟨m,t,hget,hpure⟩
        · exact .inl ⟨err,by rw [ioGet_error hget]⟩
        · cases m <;> simp at hpure
      · simp at hpure
    | ok e' r' =>
      have hr' := hr
      simp only [BitIndexEntry.fill,he,Bool.false_eq_true,if_false] at hr'
      obtain ⟨x,t,hx,hpure⟩ := bind_ok.mp hr'
      obtain ⟨m,hm,rfl,rfl⟩ := fromRelativePath_ok.mp hx
      obtain ⟨rfl,rfl⟩ : _ = e' ∧ t = r' := by simpa using hpure
      exact .inr (.inr ⟨he,m,hm,rfl⟩)

theorem write_cases (e : BitIndexEntry) (r : Repo) :
    (∃ err, e.write r = .error err r) ∨
      ∃ oid, e.write r = .ok oid r ∧
        (e.oid.isKnown ∧ oid = e.oid ∨ e.oid = .UNKNOWN ∧ ∃ contents, oid = .blob contents) := by
  by_cases hk : e.oid.isKnown = true
  · exact .inr ⟨e.oid,write_known hk r,.inl ⟨hk,rfl⟩⟩
  · have ho : e.oid = .UNKNOWN := by simpa [Oid.isKnown] using hk
    have hwrite : e.write r = (readBlobFromWorktree e.path >>= fun contents => pure (.blob contents)) r := by
      simp [BitIndexEntry.write,BitIndexEntry.readToBytes,ho,Oid.isKnown]
    rw [hwrite]
    cases hr : readBlobFromWorktree e.path r with
    | error err r' =>
      refine .inl ⟨err,?_⟩
      rw [bind_of_error hr]
      rcases bind_error.mp hr with hget | ⟨m,t,hget,hm⟩
      · rw [ioGet_error hget]
      · obtain ⟨-,rfl⟩ := ioGet_ok.mp hget
        cases m <;> simp_all
    | ok contents r' =>
      refine .inr ⟨.blob contents,?_,.inr ⟨ho,contents,rfl⟩⟩
      rw [bind_of_ok hr]
      obtain ⟨m,t,hget,hm⟩ := bind_ok.mp hr
      obtain ⟨-,rfl⟩ := ioGet_ok.mp hget
      cases m <;> simp_all

open BitIndexInner

/-- Everything that `add_entry` can do to the index. -/
theorem addEntry_step (e : BitIndexEntry) (r : Repo) :
    (final (addEntry e r)).index = r.index ∨
    (final (addEntry e r)).index = (r.index.removeConflicted e.path).removeCollisions e.path ∨
    ∃ e', Completed r e e' ∧ (final (addEntry e r)).index = r.index.addedEntry e' := by
  -- the entry was completed, what is left is to write it
  have hrest (x : BitIndexEntry) (hfill : e.fill r = .ok x r) (hpath : x.path = e.path) (hoid : x.oid = e.oid)
      (hdisk : e.isFilled ∧ x.stage = e.stage ∧ x.mode = e.mode ∨
        ¬e.isFilled ∧ x.stage = .NONE ∧
          ∃ m, r.worktree.symlinkMetadata e.path = .ok m ∧ x.mode = (diskEntry e.path m).mode) :
      (final (addEntry e r)).index = (r.index.removeConflicted e.path).removeCollisions e.path ∨
      ∃ e', Completed r e e' ∧ (final (addEntry e r)).index = r.index.addedEntry e' := by
    have hrun : addEntry e r = (x.write >>= fun oid => modifyIndex (·.insertEntry {x with oid := oid}))
        {r with index := (r.index.removeConflicted x.path).removeCollisions x.path} :=
      (bind_of_ok hfill).trans ((bind_of_ok rfl).trans (bind_of_ok rfl))
    rcases write_cases x {r with index := (r.index.removeConflicted x.path).removeCollisions x.path} with
      ⟨err,hw⟩ | ⟨oid,hw,ho⟩
    · rw [bind_of_error hw] at hrun
      rw [hrun,← hpath]
      exact .inl rfl
    · rw [bind_of_ok hw] at hrun
      rw [hrun]
      exact .inr ⟨{x with oid := oid},⟨hpath,hdisk,hoid ▸ ho⟩,rfl⟩
  rcases fill_cases e r with ⟨err,h⟩ | ⟨hfilled,h⟩ | ⟨hfilled,m,hm,h⟩
  · refine .inl ?_
    rw [addEntry,bind_of_error h]
    rfl
  · exact .inr (hrest e h rfl rfl (.inl ⟨hfilled,rfl,rfl⟩))
  · refine .inr (hrest _ h ?_ rfl (.inr ⟨hfilled,?_,m,hm,rfl⟩))
    · cases m <;> rfl
    · cases m <;> rfl

/-- What `add_conflicted_entry` makes of the index. -/
def BitIndexInner.addedConflicted (idx : BitIndexInner) (e : BitIndexEntry) : BitIndexInner :=
  ((idx.removeEntry (e.path,.NONE)).removeCollisions e.path).insertEntry e

theorem addConflictedEntry_step (e : BitIndexEntry) (stage : MergeStage) (r : Repo) :
    (final (addConflictedEntry e stage r)).index = r.index ∨ e.oid.isKnown ∧
      (final (addConflictedEntry e stage r)).index = r.index.addedConflicted {e with stage := stage} := by
  by_cases hk : e.oid.isKnown = true
  · have hrun : addConflictedEntry e stage r =
        .ok () {r with index := r.index.addedConflicted {e with stage := stage}} := by
      rw [addConflictedEntry,if_pos hk]
      exact (bind_of_ok rfl).trans ((bind_of_ok rfl).trans (bind_of_ok (write_known hk _)))
    rw [hrun]
    exact .inr ⟨hk,rfl⟩
  · rw [addConflictedEntry,if_neg hk]
    exact .inl rfl

theorem writeTree_step (r : Repo) : (final (writeTree r)).index = r.index ∨ r.index.hasConflicts = false ∧
    ∃ t, buildTree r.index r.index.treeCache = some t ∧ (final (writeTree r)).index =
      {r.index with treeCache := some ((r.index.treeCache.map (·.update t)).getD (.readTree t))} := by
  simp only [writeTree,run_getBind]
  split
  · exact .inl rfl
  · rename_i hconflicts
    cases hbuild : buildTree r.index r.index.treeCache with
    | none => exact .inl rfl
    | some t => exact .inr ⟨by simpa using hconflicts,t,rfl,rfl⟩

/-- The rule for a property of the index that taking out an entry keeps. -/
theorem step_keeps {P : BitIndexInner → Prop} (hremove : ∀ idx k, P idx → P (idx.removeEntry k)) {r : Repo} {c : IndexCall}
    (hr : P r.index) (hadd : ∀ e, c = .addEntry e → ∀ e', Completed r e e' → P (r.index.addedEntry e'))
    (hconflicted : ∀ e stage, c = .addConflictedEntry e stage → e.oid.isKnown →
      P (r.index.addedConflicted {e with stage := stage}))
    (hwrite : c = .writeTree → r.index.hasConflicts = false → ∀ t, buildTree r.index r.index.treeCache = some t →
      P {r.index with treeCache := some ((r.index.treeCache.map (·.update t)).getD (.readTree t))}) :
    P (c.step r).index := by
  cases c with
  | addEntry e =>
    rcases addEntry_step e r with h | h | ⟨e',he',h⟩
    · exact h.symm ▸ hr
    · exact h.symm ▸ removeCollisions_keeps hremove _ (removeConflicted_keeps hremove _ hr)
    · exact h.symm ▸ hadd e rfl e' he'
  | addConflictedEntry e stage =>
    rcases addConflictedEntry_step e stage r with h | ⟨hk,h⟩
    · exact h.symm ▸ hr
    · exact h.symm ▸ hconflicted e stage rfl hk
  | removeEntry key => exact hremove _ _ hr
  | removeDirectory p => exact removeDirectory_keeps hremove p hr
  | writeTree =>
    have hstep : (IndexCall.writeTree.step r).index = (final (writeTree r)).index := by
      simp only [IndexCall.step,IndexCall.run]
      cases hw : writeTree r with
      | ok t s => rw [bind_of_ok hw]; rfl
      | error err s => rw [bind_of_error hw]; rfl
    rw [hstep]
    rcases writeTree_step r with h | ⟨hnone,t,hbuild,h⟩
    · exact h.symm ▸ hr
    · exact h.symm ▸ hwrite rfl hnone t hbuild
  | editWorktree w => exact hr

end Step

section Coherence

open BitIndexInner

/-- Files and links, with blobs for contents. -/
def BitIndexEntry.IsFile (e : BitIndexEntry) : Prop := (∃ mode, e.mode = .blob mode) ∧ ∀ t, e.oid ≠ .tree t

/-- The call adds a file or a link if any entry: the mode of an entry that is not filled is the one
that the disk has. -/
def IndexCall.OnFiles (r : Repo) (c : IndexCall) : Prop :=
  (∀ e ∈ c.entry?, e.IsFile) ∧
    ∀ e, c = .addEntry e → e.isFilled ∨ r.worktree.symlinkMetadata e.path ≠ .ok none

/-- The invariant: the cache is exact, in an index of files. -/
structure BitIndexInner.Cached (idx : BitIndexInner) : Prop where
  valid : idx.Valid
  files : ∀ e ∈ idx.entries, ∃ mode contents, e.mode = .blob mode ∧ e.oid = .blob contents
  exact : idx.CacheExact

namespace BitIndexInner
variable {idx : BitIndexInner}

theorem Cached.removeEntry (h : idx.Cached) (k : BitPath × MergeStage) : (idx.removeEntry k).Cached where
  valid := h.valid.of_sublist (removeEntry_sublist k)
  files e he := h.files e ((removeEntry_sublist k).subset he)
  exact := h.exact.removeEntry k

theorem Cached.insertEntry (h : idx.Cached) {e : BitIndexEntry} (hne : e.path ≠ []) (hn : e.path.Normal)
    (hfile : ∃ mode contents, e.mode = .blob mode ∧ e.oid = .blob contents) : (idx.insertEntry e).Cached where
  valid := h.valid.insertEntry hne hn
  files x hx := by
    rcases mem_insertSorted hx with rfl | hx
    · exact hfile
    · exact h.files x hx
  exact := h.exact.insertEntry e

theorem Cached.writeTree (h : idx.Cached) (hnone : idx.hasConflicts = false) {t : Tree}
    (hbuild : buildTree idx idx.treeCache = some t) :
    Cached {idx with treeCache := some ((idx.treeCache.map (·.update t)).getD (.readTree t))} := by
  obtain ⟨s,hs,hd⟩ := h.valid.describes_tree fun e he => by
    obtain ⟨mode,contents,hm,ho⟩ := h.files e he
    have hstage : e.stage = .NONE := by
      rw [hasConflicts,List.any_eq_false] at hnone
      simpa [MergeStage.isUnmerged] using hnone e he
    exact ⟨(mode,contents),rfl,hm,ho,hstage⟩
  obtain rfl : s = t := Option.some.inj ((buildTree_described hs hd (h.exact.coherent.cacheFor hs hd)).symm.trans hbuild)
  refine ⟨⟨h.valid.sorted,h.valid.normal⟩,h.files,cacheExact_readTree hs hd ?_⟩
  cases hroot : idx.treeCache with
  | none => rfl
  | some root => exact congrArg some (BitTreeCache.update_fresh (h.exact.fresh hroot) s)

end BitIndexInner

theorem Completed.file {r : Repo} {e e' : BitIndexEntry} (h : Completed r e e') (he : e.IsFile)
    (hdisk : e.isFilled ∨ r.worktree.symlinkMetadata e.path ≠ .ok none) :
    ∃ mode contents, e'.mode = .blob mode ∧ e'.oid = .blob contents := by
  obtain ⟨mode,hmode⟩ : ∃ mode, e'.mode = .blob mode := by
    rcases h.disk with ⟨-,-,hm⟩ | ⟨hfilled,-,m,hm,hmode⟩
    · exact hm ▸ he.1
    · cases m with
      | none => exact absurd hm (hdisk.resolve_left hfilled)
      | some f => exact ⟨f.mode,hmode⟩
  rcases h.oid with ⟨hk,ho⟩ | ⟨-,contents,ho⟩
  · cases hoid : e.oid with
    | UNKNOWN => simp [hoid,Oid.isKnown] at hk
    | blob contents => exact ⟨mode,contents,hmode,ho.trans hoid⟩
    | tree t => exact absurd hoid (he.2 t)
  · exact ⟨mode,contents,hmode,ho⟩

theorem step_cached {r : Repo} {c : IndexCall} (hp : c.NormalPath) (hf : c.OnFiles r) (h : r.index.Cached) :
    (c.step r).index.Cached := by
  have hremove (idx : BitIndexInner) (k : BitPath × MergeStage) (h : idx.Cached) := h.removeEntry k
  refine step_keeps hremove h ?_ ?_ fun _ hnone t hbuild => h.writeTree hnone hbuild
  · rintro e rfl e' he'
    obtain ⟨hne,hn⟩ := hp e rfl
    have hcleared := removeCollisions_keeps hremove e'.path (removeConflicted_keeps hremove e'.path h)
    exact hcleared.insertEntry (he'.path ▸ hne) (he'.path ▸ hn) (he'.file (hf.1 e rfl) (hf.2 e rfl))
  · rintro e stage rfl hk
    obtain ⟨hne,hn⟩ := hp _ rfl
    obtain ⟨⟨mode,hmode⟩,htree⟩ := hf.1 _ rfl
    refine (removeCollisions_keeps hremove e.path (h.removeEntry _)).insertEntry hne hn ⟨mode,?_⟩
    cases hoid : e.oid with
    | UNKNOWN => simp [hoid,Oid.isKnown] at hk
    | blob contents => exact ⟨contents,hmode,rfl⟩
    | tree t => exact absurd hoid (htree t)

/-- After any run from an empty index every valid node of the tree cache is right about the index. -/
theorem runCalls_cacheCoherent (r : Repo) (hempty : r.index = ⟨[],none⟩) (calls : List IndexCall)
    (h : Along (fun r c => c.NormalPath ∧ c.OnFiles r) r calls) : (runCalls r calls).index.CacheCoherent := by
  have hstart : r.index.Cached := by
    rw [hempty]
    exact ⟨⟨List.Pairwise.nil,by simp [NormalPaths]⟩,by simp,cacheExact_of_none rfl⟩
  have hend := runCalls_induction (I := fun r => r.index.Cached) (fun r c hc hr => step_cached hc.1 hc.2 hr) hstart h
  exact hend.exact.coherent

/-- A repository in which nothing was added yet. -/
def Repo.init : Repo :=
  { commits := []
    head := .Symbolic [109]
    refs := []
    index := ⟨[],none⟩
    indexMtime := none
    worktree := .nil
    clock := 0 }

/-- The entry of a file with the path as its contents. -/
def fileAt (p : BitPath) : BitIndexEntry := ⟨p,.blob .REG,.blob p.asBytes,.NONE,⟨1,1,p.asBytes.length⟩⟩

theorem normalPath_fileAt {p : BitPath} (h : p ≠ [] ∧ p.Normal) : (IndexCall.addEntry (fileAt p)).NormalPath := by
  rintro e he
  obtain rfl : fileAt p = e := by simpa [IndexCall.entry?] using he
  exact h

theorem runCalls_cacheCoherent_kept :
    (runCalls Repo.init [.addEntry (fileAt [[97],[98]]),.writeTree,.addEntry (fileAt [[99]])]).index.CacheCoherent := by
  have hfile (p : BitPath) (hp : (fileAt p).isFilled = true) (r : Repo) : (IndexCall.addEntry (fileAt p)).OnFiles r := by
    refine ⟨fun e he => ?_,fun e he => .inl ?_⟩
    · obtain rfl : fileAt p = e := by simpa [IndexCall.entry?] using he
      exact ⟨⟨.REG,rfl⟩,fun t => by simp [fileAt]⟩
    · obtain rfl : fileAt p = e := by simpa using he
      exact hp
  refine runCalls_cacheCoherent Repo.init rfl _ ⟨⟨normalPath_fileAt (by decide),hfile _ (by decide) _⟩,?_,?_,trivial⟩
  · exact ⟨by simp [IndexCall.NormalPath,IndexCall.entry?],by simp [IndexCall.OnFiles,IndexCall.entry?]⟩
  · exact ⟨normalPath_fileAt (by decide),hfile _ (by decide) _⟩

end Coherence

section Collisions

open BitIndexInner

namespace BitIndexInner
variable {idx : BitIndexInner} {p : BitPath}

/-- No file of the index stands where another has a directory. -/
def CollisionFree (idx : BitIndexInner) : Prop :=
  ∀ e ∈ idx.entries, ∀ e' ∈ idx.entries, e.stage = .NONE → e'.stage = .NONE → ¬e'.path.below e.path

instance (idx : BitIndexInner) : Decidable idx.CollisionFree :=
  inferInstanceAs (Decidable (∀ e ∈ idx.entries, ∀ e' ∈ idx.entries, _ → _ → ¬_))

/-- Among these entries only one lies below the path, and it is the first of those that follow the
path in the order of the index. -/
def LoneChild (es : List BitIndexEntry) (p : BitPath) : Prop :=
  ∃ x ∈ es, x.stage = .NONE ∧ x.path.below p ∧
    ∀ y ∈ es, y ≠ x → ¬y.path.below p ∧ (¬y.path.asBytes < p.asBytes → x.path.asBytes < y.path.asBytes)

instance (es : List BitIndexEntry) (p : BitPath) : Decidable (LoneChild es p) :=
  inferInstanceAs (Decidable (∃ x ∈ es, _))

theorem CollisionFree.of_sublist {idx' : BitIndexInner} (h : idx.CollisionFree) (hs : idx'.entries.Sublist idx.entries) :
    idx'.CollisionFree := fun e he e' he' => h e (hs.subset he) e' (hs.subset he')

theorem CollisionFree.insertEntry (h : idx.CollisionFree) {e : BitIndexEntry}
    (hnew : e.stage = .NONE → ∀ x ∈ idx.entries, x.stage = .NONE → ¬x.path.below e.path ∧ ¬e.path.below x.path) :
    (idx.insertEntry e).CollisionFree := by
  intro x hx y hy hxs hys hbelow
  rcases mem_insertSorted hx with rfl | hx' <;> rcases mem_insertSorted hy with rfl | hy'
  · exact (BitPath.below_iff.mp hbelow).2 rfl
  · exact (hnew hxs y hy' hys).1 hbelow
  · exact (hnew hys x hx' hxs).2 hbelow
  · exact h x hx' y hy' hxs hys hbelow

/-- The entries that `remove_dir_file_collisions` looks at, before one is skipped. -/
def collisionRange (idx : BitIndexInner) (p : BitPath) : List BitIndexEntry :=
  (idx.rangeFrom p.asBytes).filter fun e => e.path.asBytes < p.asBytes++[97]

theorem mem_collisionRange {e : BitIndexEntry} : e ∈ idx.collisionRange p ↔
    e ∈ idx.entries ∧ ¬e.path.asBytes < p.asBytes ∧ e.path.asBytes < p.asBytes++[97] := by
  simp [collisionRange,mem_rangeFrom,and_assoc]

/-- An entry below the path is in the range: a slash comes before the letter. -/
theorem mem_collisionRange_of_below {e : BitIndexEntry} (hp : p ≠ []) (he : e ∈ idx.entries) (hb : e.path.below p) :
    e ∈ idx.collisionRange p := by
  obtain ⟨hpre,hne⟩ := BitPath.below_iff.mp hb
  obtain ⟨t,ht⟩ := BitPath.asBytes_prefix hp hpre (Ne.symm hne)
  refine mem_collisionRange.mpr ⟨he,?_,?_⟩
  · rw [← ht,List.append_assoc]
    exact (BitPath.lt_append _ (by simp)).asymm
  · rw [← ht,List.append_assoc]
    exact Tree.append_lt_append (List.cons_lt_cons_iff.mpr (.inl (by decide)))

/-- An entry below the path that survives was the one that is skipped. -/
theorem loneChild_of_survivor (hv : idx.Valid) (hp : p ≠ []) (hpn : p.Normal) {z : BitIndexEntry}
    (hz : z ∈ (idx.removeDirFileCollisions p).entries) (hzs : z.stage = .NONE) (hzp : z.path.below p) :
    LoneChild idx.entries p := by
  obtain ⟨hpre,hne⟩ := BitPath.below_iff.mp hzp
  by_cases hany : (idx.collisionRange p).drop 1 |>.any fun e => e.path.startsWith p
  · -- the directory was removed
    rw [show idx.removeDirFileCollisions p = idx.removeDirectory p from if_pos hany] at hz
    have hsub : (idx.removeDirectory p).entries.Sublist idx.entries := removeDirectory_keeps sublist_removeEntry p (.refl _)
    have hfind := (mem_entries_iff (hv.of_sublist hsub)).mp hz
    rw [findEntry_removeDirectory hv.sorted hv.normal hpn,if_pos ⟨hzs,hpre,hne⟩] at hfind
    exact absurd hfind (by simp)
  · rw [show idx.removeDirFileCollisions p = idx from if_neg hany] at hz
    have hzr := mem_collisionRange_of_below hp hz hzp
    have hsorted : (idx.collisionRange p).Pairwise fun x y => keyLt x.key y.key := (hv.sorted.filter _).filter _
    obtain ⟨rest,hrange⟩ : ∃ rest, idx.collisionRange p = z::rest := by
      cases hr : idx.collisionRange p with
      | nil => simp [hr] at hzr
      | cons x rest =>
        rw [hr] at hzr hany
        rcases List.mem_cons.mp hzr with rfl | hmem
        · exact ⟨rest,rfl⟩
        · exact absurd (List.any_eq_true.mpr ⟨z,hmem,BitPath.startsWith_iff.mpr hpre⟩) hany
    have hrest {y : BitIndexEntry} (hy : y ∈ idx.collisionRange p) (hyz : y ≠ z) : y ∈ rest ∧ ¬p <+: y.path := by
      rw [hrange] at hy hany
      have hmem := (List.mem_cons.mp hy).resolve_left hyz
      exact ⟨hmem,fun h => hany (List.any_eq_true.mpr ⟨y,hmem,BitPath.startsWith_iff.mpr h⟩)⟩
    refine ⟨z,hz,hzs,hzp,fun y hy hyz => ⟨fun hyb => ?_,fun hyp => ?_⟩⟩
    · exact (hrest (mem_collisionRange_of_below hp hy hyb) hyz).2 (BitPath.below_iff.mp hyb).1
    · by_cases hya : y.path.asBytes < p.asBytes++[97]
      · obtain ⟨hmem,hyn⟩ := hrest (mem_collisionRange.mpr ⟨hy,hyp,hya⟩) hyz
        rw [hrange] at hsorted
        have hlt := (List.pairwise_cons.mp hsorted).1 y hmem
        refine lt_of_le_of_ne (not_lt.mp hlt.asBytes_le) fun heq => hyn ?_
        rwa [← BitPath.asBytes_injective (hv.normal z hz).2 (hv.normal y hy).2 heq]
      · exact lt_of_lt_of_le (mem_collisionRange.mp hzr).2.2 (not_lt.mp hya)

theorem mem_removeEntry {k : BitPath × MergeStage} {e : BitIndexEntry} :
    e ∈ (idx.removeEntry k).entries ↔ e ∈ idx.entries ∧ e.key ≠ k := by
  unfold BitIndexInner.removeEntry
  split
  · simp [invalidateTreeCachePath]
  · rename_i hnone
    refine ⟨fun he => ⟨he,?_⟩,fun he => he.1⟩
    rintro rfl
    have hnot := List.find?_eq_none.mp (by simpa using hnone : idx.findEntry e.key = none) e he
    simp at hnot

theorem mem_removeConflicted {e : BitIndexEntry} :
    e ∈ (idx.removeConflicted p).entries ↔ e ∈ idx.entries ∧ (e.path = p → e.stage = .NONE) := by
  simp only [removeConflicted,mem_removeEntry,BitIndexEntry.key,ne_eq,Prod.mk.injEq,and_assoc]
  refine and_congr_right fun _ => ?_
  cases e.stage <;> by_cases hp : e.path = p <;> simp [hp]

theorem LoneChild.of_mem {es es' : List BitIndexEntry} (h : LoneChild es p) (hmem : ∀ x ∈ es, x ∈ es')
    (hmem' : ∀ x ∈ es', x ∉ es → ¬x.path.below p ∧ x.path.asBytes < p.asBytes) : LoneChild es' p := by
  obtain ⟨x,hx,hxs,hxp,hfirst⟩ := h
  refine ⟨x,hmem x hx,hxs,hxp,fun y hy hyx => ?_⟩
  by_cases hye : y ∈ es
  · exact hfirst y hye hyx
  · obtain ⟨hyb,hyp⟩ := hmem' y hy hye
    exact ⟨hyb,fun h => absurd hyp h⟩

/-- Once the collisions are removed there is no file above or below the path, unless the one entry
below it was skipped. -/
theorem removeCollisions_clear (hv : idx.Valid) (hp : p ≠ []) (hpn : p.Normal)
    (hlone : ¬LoneChild (idx.entries.filter fun e => e.key ≠ (p,.NONE)) p) {x : BitIndexEntry}
    (hx : x ∈ (idx.removeCollisions p).entries) (hxs : x.stage = .NONE) : ¬x.path.below p ∧ ¬p.below x.path := by
  have hsub₁ : (idx.removeFileDirCollisions p).entries.Sublist idx.entries := removeFileDirCollisions_sublist p
  have hsub₂ : (idx.removeCollisions p).entries.Sublist (idx.removeFileDirCollisions p).entries :=
    removeDirFileCollisions_keeps sublist_removeEntry p (.refl _)
  have hv₁ := hv.of_sublist hsub₁
  have hgone {y : BitIndexEntry} (hy : y ∈ (idx.removeFileDirCollisions p).entries) :
      ¬(y.stage = .NONE ∧ y.path <+: p) := by
    rintro ⟨hys,hyp⟩
    have hfind := (mem_entries_iff hv₁).mp hy
    rw [findEntry_removeFileDirCollisions hp,if_pos ⟨hys,(hv₁.normal y hy).1,hyp⟩] at hfind
    exact absurd hfind (by simp)
  refine ⟨fun hxb => hlone ?_,fun hpx => hgone (hsub₂.subset hx) ⟨hxs,(BitPath.below_iff.mp hpx).1⟩⟩
  refine (loneChild_of_survivor hv₁ hp hpn hx hxs hxb).of_mem (fun y hy => ?_) fun y hy hyn => ?_
  · refine List.mem_filter.mpr ⟨hsub₁.subset hy,?_⟩
    simp only [ne_eq,decide_not,Bool.not_eq_true',decide_eq_false_iff_not]
    intro hk
    obtain ⟨rfl,hys⟩ : y.path = p ∧ y.stage = .NONE := by simpa [BitIndexEntry.key] using hk
    exact hgone hy ⟨hys,List.prefix_rfl⟩
  · -- what was taken out is a file above the path
    obtain ⟨hymem,hyk⟩ := List.mem_filter.mp hy
    have hyabove : y.stage = .NONE ∧ y.path ≠ [] ∧ y.path <+: p := by
      by_contra hnot
      refine hyn ((mem_entries_iff hv₁).mpr ?_)
      exact (findEntry_removeFileDirCollisions hp y.key).trans ((if_neg hnot).trans ((mem_entries_iff hv).mp hymem))
    have hyne : y.path ≠ p := by
      rintro rfl
      simp [BitIndexEntry.key,hyabove.1] at hyk
    obtain ⟨t,ht⟩ := BitPath.asBytes_prefix hyabove.2.1 hyabove.2.2 hyne
    refine ⟨fun hyb => hyne ?_,?_⟩
    · exact hyabove.2.2.eq_of_length_le (BitPath.below_iff.mp hyb).1.length_le
    · rw [← ht,List.append_assoc]
      exact BitPath.lt_append _ (by simp)

theorem mem_insertSorted_self (e : BitIndexEntry) (l : List BitIndexEntry) : e ∈ insertSorted e l := by
  induction l with
  | nil => simp [insertSorted]
  | cons x l ih =>
    unfold insertSorted
    split
    · exact List.mem_cons_of_mem _ ih
    · split <;> simp

/-- The condition is exact: a file that is added above such an entry collides with it. -/
theorem addedEntry_collides (hv : idx.Valid) {e : BitIndexEntry} (hs : e.stage = .NONE) (hne : e.path ≠ [])
    (h : LoneChild (idx.entries.filter fun x => x.path ≠ e.path) e.path) : ¬(idx.addedEntry e).CollisionFree := by
  obtain ⟨x,hx,hxs,hxp,hfirst⟩ := h
  obtain ⟨hxmem,hxe⟩ := List.mem_filter.mp hx
  have hxe : x.path ≠ e.path := by simpa using hxe
  have hv₀ : (idx.removeConflicted e.path).Valid := hv.of_sublist (removeConflicted_sublist _)
  have hv₁ : ((idx.removeConflicted e.path).removeFileDirCollisions e.path).Valid :=
    hv₀.of_sublist (removeFileDirCollisions_sublist _)
  have hpre := (BitPath.below_iff.mp hxp).1
  -- neither the conflicted entries nor the files above the path include it
  have hx₁ : x ∈ ((idx.removeConflicted e.path).removeFileDirCollisions e.path).entries := by
    refine (mem_entries_iff hv₁).mpr ?_
    have hx₀ : x ∈ (idx.removeConflicted e.path).entries := mem_removeConflicted.mpr ⟨hxmem,fun h => absurd h hxe⟩
    have hnot : ¬(x.key.2 = .NONE ∧ x.key.1 ≠ [] ∧ x.key.1 <+: e.path) := fun h =>
      hxe (h.2.2.eq_of_length_le hpre.length_le)
    exact (findEntry_removeFileDirCollisions hne x.key).trans ((if_neg hnot).trans ((mem_entries_iff hv₀).mp hx₀))
  have hothers {y : BitIndexEntry}
      (hy : y ∈ ((idx.removeConflicted e.path).removeFileDirCollisions e.path).entries) (hye : y.path = e.path) : False := by
    have hy₀ := (removeFileDirCollisions_sublist e.path).subset hy
    have hnone := (mem_removeConflicted.mp hy₀).2 hye
    have hgone : y.key.2 = .NONE ∧ y.key.1 ≠ [] ∧ y.key.1 <+: e.path :=
      ⟨hnone,fun h => hne (hye.symm.trans h),(show y.path <+: e.path from hye ▸ List.prefix_rfl)⟩
    have hfind := (mem_entries_iff hv₁).mp hy
    rw [findEntry_removeFileDirCollisions hne,if_pos hgone] at hfind
    exact absurd hfind (by simp)
  have hfirst' {y : BitIndexEntry} (hy : y ∈ ((idx.removeConflicted e.path).removeFileDirCollisions e.path).entries)
      (hyx : y ≠ x) := by
    have hmem := (removeConflicted_sublist e.path).subset ((removeFileDirCollisions_sublist e.path).subset hy)
    exact hfirst y (List.mem_filter.mpr ⟨hmem,by simpa using fun h => hothers hy h⟩) hyx
  -- it comes first in the range, and nothing else there is below the path
  have hskip : ¬((((idx.removeConflicted e.path).removeFileDirCollisions e.path).collisionRange e.path).drop 1).any
      fun y => y.path.startsWith e.path := by
    rw [List.any_eq_true]
    rintro ⟨y,hy,hyp⟩
    have hyr := List.mem_of_mem_drop hy
    have hymem := (mem_collisionRange.mp hyr).1
    by_cases hyx : y = x
    · subst hyx
      have hsorted : (((idx.removeConflicted e.path).removeFileDirCollisions e.path).collisionRange e.path).Pairwise
          fun x y => keyLt x.key y.key := (hv₁.sorted.filter _).filter _
      cases hr : ((idx.removeConflicted e.path).removeFileDirCollisions e.path).collisionRange e.path with
      | nil => simp [hr] at hyr
      | cons z rest =>
        rw [hr] at hy hsorted
        have hlt := (List.pairwise_cons.mp hsorted).1 y hy
        have hz := mem_collisionRange.mp (hr ▸ List.mem_cons_self : z ∈ collisionRange _ e.path)
        have hzy : z ≠ y := fun h => keyLt_irrefl _ (h ▸ hlt)
        exact hlt.asBytes_le ((hfirst' hz.1 hzy).2 hz.2.1)
    · refine (hfirst' hymem hyx).1 (BitPath.below_iff.mpr ⟨BitPath.startsWith_iff.mp hyp,fun h => hothers hymem h⟩)
  have hkept : (idx.removeConflicted e.path).removeCollisions e.path =
      (idx.removeConflicted e.path).removeFileDirCollisions e.path := if_neg hskip
  intro hfree
  refine hfree e (mem_insertSorted_self e _) x ?_ hs hxs hxp
  rw [BitIndexInner.addedEntry,hkept]
  exact mem_insertSorted_of_mem hx₁ fun h => hxe (congrArg Prod.fst h)

end BitIndexInner

/-- The branch that goes wrong: a file is added where the one entry below it is the first to follow
it in the index. The entry that was at the path itself is taken out before the range is read, so
the entry that is skipped is the one below. -/
def IndexCall.Skips (r : Repo) : IndexCall → Prop
  | addEntry e =>
    (e.isFilled → e.stage = .NONE) ∧ LoneChild (r.index.entries.filter fun x => x.path ≠ e.path) e.path
  | addConflictedEntry e stage =>
    stage = .NONE ∧ LoneChild (r.index.entries.filter fun x => x.key ≠ (e.path,.NONE)) e.path
  | _ => False

theorem step_valid {r : Repo} {c : IndexCall} (hp : c.NormalPath) (h : r.index.Valid) : (c.step r).index.Valid := by
  have hremove (idx : BitIndexInner) (k : BitPath × MergeStage) (h : idx.Valid) := h.of_sublist (removeEntry_sublist k)
  refine step_keeps hremove h ?_ ?_ fun _ _ t _ => ⟨h.sorted,h.normal⟩
  · rintro e rfl e' he'
    obtain ⟨hne,hn⟩ := hp e rfl
    exact h.addedEntry (he'.path ▸ hne) (he'.path ▸ hn)
  · rintro e stage rfl hk
    obtain ⟨hne,hn⟩ := hp _ rfl
    exact Valid.insertEntry (removeCollisions_keeps hremove _ (hremove _ _ h)) hne hn

theorem step_collisionFree {r : Repo} {c : IndexCall} (hp : c.NormalPath) (hs : ¬c.Skips r) (hv : r.index.Valid)
    (h : r.index.CollisionFree) : (c.step r).index.CollisionFree := by
  have hremove (idx : BitIndexInner) (k : BitPath × MergeStage) (h : idx.CollisionFree) := h.of_sublist (removeEntry_sublist k)
  have hvremove (idx : BitIndexInner) (k : BitPath × MergeStage) (h : idx.Valid) := h.of_sublist (removeEntry_sublist k)
  refine step_keeps hremove h ?_ ?_ fun _ _ t _ => h
  · rintro e rfl e' he'
    obtain ⟨hne,hn⟩ := hp e rfl
    rw [← he'.path] at hne hn
    have hv' : (r.index.removeConflicted e'.path).Valid := removeConflicted_keeps hvremove _ hv
    have hfree : ((r.index.removeConflicted e'.path).removeCollisions e'.path).CollisionFree :=
      removeCollisions_keeps hremove _ (removeConflicted_keeps hremove _ h)
    refine hfree.insertEntry fun hstage x hx hxs => removeCollisions_clear hv' hne hn (fun hlone => hs ?_) hx hxs
    refine ⟨fun hfilled => ?_,?_⟩
    · rcases he'.disk with ⟨-,hst,-⟩ | ⟨hnot,-⟩
      · exact hst ▸ hstage
      · exact absurd hfilled hnot
    · -- the conflicted entries at the path are gone as well
      rw [← he'.path]
      refine hlone.of_mem (fun y hy => ?_) fun y hy hyn => (hyn ?_).elim
      · obtain ⟨hmem,hk⟩ := List.mem_filter.mp hy
        obtain ⟨hmem,hnone⟩ := mem_removeConflicted.mp hmem
        have hpath : y.path ≠ e'.path := fun heq => by simp [BitIndexEntry.key,heq,hnone heq] at hk
        exact List.mem_filter.mpr ⟨hmem,by simpa using hpath⟩
      · obtain ⟨hmem,hpath⟩ := List.mem_filter.mp hy
        have hpath : y.path ≠ e'.path := by simpa using hpath
        exact List.mem_filter.mpr ⟨mem_removeConflicted.mpr ⟨hmem,fun h => absurd h hpath⟩,by simp [BitIndexEntry.key,hpath]⟩
  · rintro e stage rfl hk
    obtain ⟨hne,hn⟩ := hp _ rfl
    have hfree : ((r.index.removeEntry (e.path,.NONE)).removeCollisions e.path).CollisionFree :=
      removeCollisions_keeps hremove _ (hremove _ _ h)
    refine hfree.insertEntry fun hstage x hx hxs =>
      removeCollisions_clear (hvremove _ _ hv) hne hn (fun hlone => hs ⟨hstage,?_⟩) hx hxs
    refine hlone.of_mem (fun y hy => ?_) fun y hy hyn => (hyn ?_).elim
    · obtain ⟨hmem,hk⟩ := List.mem_filter.mp hy
      exact List.mem_filter.mpr ⟨(mem_removeEntry.mp hmem).1,hk⟩
    · obtain ⟨hmem,hk⟩ := List.mem_filter.mp hy
      exact List.mem_filter.mpr ⟨mem_removeEntry.mpr ⟨hmem,by simpa using hk⟩,hk⟩

/-- No file collides with a directory after a run in which the branch that goes wrong is never taken. -/
theorem runCalls_collisionFree (r : Repo) (hempty : r.index = ⟨[],none⟩) (calls : List IndexCall)
    (h : Along (fun r c => c.NormalPath ∧ ¬c.Skips r) r calls) : (runCalls r calls).index.CollisionFree := by
  have hstart : r.index.Valid ∧ r.index.CollisionFree := by
    rw [hempty]
    exact ⟨⟨List.Pairwise.nil,by simp [NormalPaths]⟩,by simp [CollisionFree]⟩
  have hend := runCalls_induction (I := fun r => r.index.Valid ∧ r.index.CollisionFree)
    (fun r c hc hr => ⟨step_valid hc.1 hr.1,step_collisionFree hc.1 hc.2 hr.1 hr.2⟩) hstart h
  exact hend.2

/-- A file takes the place of a directory with two files in it. -/
theorem runCalls_collisionFree_replaced :
    (runCalls Repo.init [.addEntry (fileAt [[102],[97]]),.addEntry (fileAt [[102],[98]]),
      .addEntry (fileAt [[102]])]).index.CollisionFree := by
  refine runCalls_collisionFree Repo.init rfl _ ⟨⟨normalPath_fileAt (by decide),?_⟩,⟨normalPath_fileAt (by decide),?_⟩,
    ⟨normalPath_fileAt (by decide),?_⟩,trivial⟩
  · rintro ⟨-,h⟩
    exact absurd h (by decide)
  · rintro ⟨-,h⟩
    exact absurd h (by decide)
  · rintro ⟨-,h⟩
    exact absurd h (by decide)

/-- A file takes the place of a directory with one file in it, and both stay. -/
theorem runCalls_collides : (∀ c ∈ [IndexCall.addEntry (fileAt [[102],[97]]),.addEntry (fileAt [[102]])], c.NormalPath) ∧
    Repo.init.index = ⟨[],none⟩ ∧
    ¬(runCalls Repo.init [.addEntry (fileAt [[102],[97]]),.addEntry (fileAt [[102]])]).index.CollisionFree := by
  refine ⟨fun c hc => ?_,rfl,by decide⟩
  simp only [List.mem_cons,List.not_mem_nil,or_false] at hc
  rcases hc with rfl | rfl <;> exact normalPath_fileAt (by decide)

end Collisions
end Libbit
