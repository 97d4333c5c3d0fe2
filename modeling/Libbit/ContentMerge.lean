import Libbit.IndexRun
import Libbit.VirtualBase

/-! What a content merge leaves on disk. The file of ours is opened and written over from its start, so its old
bytes stay behind a shorter result, and the write goes through a link to the file that the link leads to. -/
namespace Libbit

open Lib

/-- The cells of the table that merge contents, with the entries they hand on. -/
inductive MergesContents (base : Option BitIndexEntry) :
    MergeDiffEntry → MergeDiffEntry → Option BitIndexEntry → BitIndexEntry → BitIndexEntry → Prop
  | created (ours theirs : BitIndexEntry) : MergesContents base (.CreatedBlob ours) (.CreatedBlob theirs) base ours theirs
  | modified (ours theirs : BitIndexEntry) : MergesContents base (.ModifiedBlob ours) (.ModifiedBlob theirs) base ours theirs
  | treeToBlob (ours theirs : BitIndexEntry) : MergesContents base (.TreeToBlob ours) (.TreeToBlob theirs) none ours theirs

/-- The blob of an entry stands at its path. -/
structure CheckedOut (w : Worktree) (e : BitIndexEntry) (f : FileNode) : Prop where
  wellFormed : w.WellFormed
  look : w.look e.path = some (some f)
  mode : e.mode = .blob f.mode
  oid : e.oid = .blob f.contents

/-- The merged bytes, or the bytes with conflict markers. -/
def resultBytes : Except Bytes Bytes → Bytes
  | .ok merged => merged
  | .error conflicted => conflicted

/-- When the call returns, the file has exactly the bytes of the result, and so has the entry of the index when
there was no conflict. -/
def WritesResult (env : Env) (ctx : MergeCtxt) (r : Repo) (base : Option BitIndexEntry) (o t : MergeDiffEntry)
    (p : BitPath) (result : Except Bytes Bytes) : Prop :=
  ∀ r', mergeEntry env ctx base o t r = .ok () r' →
    (∃ f, r'.worktree.look p = some (some f) ∧ f.contents = resultBytes result) ∧
    ∀ merged, result = .ok merged → ∃ e, r'.index.findEntry (p,.NONE) = some e ∧ e.oid = .blob merged

/-- The bytes cover the file. Those that go through a link must be its target, if they go anywhere. -/
def Covers (w : Worktree) (p : BitPath) (f : FileNode) (bytes : Bytes) : Prop :=
  if f.mode = .LINK then (∀ g, w.metadata p ≠ .ok (some g)) ∨ bytes = f.contents
  else f.contents.length ≤ bytes.length

variable {env : Env} {ctx : MergeCtxt} {r : Repo} {p : BitPath} {f : FileNode} {bytes : Bytes} {mtime : ℕ}

/-! ### The index -/

theorem addEntryFromPath_run (hn : p.Normal) (h : r.worktree.look p = some (some f)) :
    addEntryFromPath p r = .ok () {r with index := r.index.addedEntry (f.hashed p)} := by
  have hmeta := Worktree.symlinkMetadata_eq hn h
  have hread : fromRelativePath p r = .ok (f.toEntry p) r := fromRelativePath_ok.mpr ⟨some f,hmeta,rfl,rfl⟩
  exact (bind_of_ok hread).trans (addEntry_file hn h)

theorem addConflictedEntry_run {e : BitIndexEntry} (h : e.oid.isKnown) (stage : MergeStage) (r : Repo) :
    ∃ idx, addConflictedEntry e stage r = .ok () {r with index := idx} := by
  unfold addConflictedEntry
  rw [if_pos h]
  exact ⟨_,(bind_of_ok rfl).trans ((bind_of_ok rfl).trans ((bind_of_ok (write_known h _)).trans rfl))⟩

theorem addConflictedBase_run {base : Option BitIndexEntry} (h : ∀ b ∈ base, b.oid.isKnown) (r : Repo) :
    ∃ idx, addConflictedBase base r = .ok () {r with index := idx} := by
  cases base with
  | none => exact ⟨r.index,rfl⟩
  | some b => exact addConflictedEntry_run (h b rfl) .BASE r

/-! ### The file -/

theorem openAndWrite_ok {w w' : Worktree} : w.openAndWrite p bytes mtime = .ok w' ↔
    ∃ q g, w.resolve true p = .ok q ∧ w.look q = some (some g) ∧
      w' = (w.unlink q).place q {g with contents := bytes++g.contents.drop bytes.length, mtime := mtime} := by
  unfold Worktree.openAndWrite
  cases hres : w.resolve true p with
  | error e => simp [bind,Except.bind]
  | ok q =>
    cases hlook : w.look q with
    | none => simp [bind,Except.bind,hlook]
    | some m => cases m <;> simp [bind,Except.bind,hlook,eq_comm]

theorem metadata_file {w : Worktree} {g : FileNode} :
    w.metadata p = .ok (some g) ↔ ∃ q, w.resolve true p = .ok q ∧ w.look q = some (some g) := by
  unfold Worktree.metadata Worktree.metadataWith
  cases hres : w.resolve true p with
  | error e => simp [bind,Except.bind]
  | ok q => cases hlook : w.look q <;> simp [bind,Except.bind,hlook]

theorem look_replaced {w : Worktree} {q : BitPath} {g g' : FileNode} (h : w.look q = some (some g)) (p : BitPath) :
    ((w.unlink q).place q g').look p = if p = q then some (some g') else w.look p := by
  have hne : q ≠ [] := by
    rintro rfl
    simp at h
  have hparent : (w.unlink q).look q.parent = some none := by
    have hnot : ¬q <+: q.parent := by
      intro hpre
      obtain ⟨d,n,hd⟩ := BitPath.eq_parent_append hne
      rw [hd,BitPath.parent_append] at hpre
      simpa using hpre.length_le
    rw [Worktree.look_unlink hne,if_neg hnot]
    exact Worktree.parent_dir (by simp [h]) hne
  rw [Worktree.look_place hparent hne,Worktree.look_unlink hne]
  by_cases hp : p = q
  · rw [if_pos hp,if_pos hp,if_pos (hp ▸ List.prefix_rfl)]
  · rw [if_neg hp,if_neg hp]
    by_cases hpre : q <+: p
    · obtain ⟨t,rfl⟩ := hpre
      cases t with
      | nil => simp at hp
      | cons n t =>
        rw [if_pos (List.prefix_append q _),Forest.look_append_of_ne_dir (by simp [h])]
    · rw [if_neg hpre,if_neg hpre]

/-- A walk that has arrived is not at a link, and one that has to go on goes on from a directory. -/
def Unlinked (w : Worktree) : Worktree.Scan → Prop
  | .at q => ∀ g, w.look q = some (some g) → g.mode ≠ .LINK
  | .link d _ _ => w.look d = some none

theorem scan_unlinked {w : Worktree} {dir : BitPath} {todo : List Name} {s : Worktree.Scan} (hdir : w.look dir = some none)
    (h : w.scan true dir todo = .ok s) : Unlinked w s := by
  induction todo generalizing dir with
  | nil =>
    cases h
    intro g hg
    rw [hdir] at hg
    cases hg
  | cons n rest ih =>
    rw [Worktree.scan] at h
    by_cases hskip : n = [] ∨ n = Worktree.DOT
    · rw [if_pos hskip] at h
      exact ih hdir h
    rw [if_neg hskip] at h
    by_cases hup : n = Worktree.DOTDOT
    · rw [if_pos hup] at h
      split at h
      · cases h
      · exact ih (Forest.look_dir_of_prefix hdir (List.dropLast_prefix dir)) h
    rw [if_neg hup] at h
    cases hlook : w.look (dir++[n]) with
    | none =>
      rw [hlook] at h
      change (if rest = [] then _ else _) = _ at h
      split at h <;> cases h
      intro g hg
      rw [hlook] at hg
      cases hg
    | some m =>
      rw [hlook] at h
      cases m with
      | none => exact ih hlook h
      | some f =>
        change (if f.mode = .LINK ∧ (true = true ∨ rest ≠ []) then _ else if rest = [] then _ else _) = _ at h
        by_cases hlink : f.mode = .LINK
        · rw [if_pos ⟨hlink,Or.inl rfl⟩] at h
          cases h
          exact hdir
        · rw [if_neg fun hboth => hlink hboth.1] at h
          split at h <;> cases h
          intro g hg
          rw [hlook] at hg
          cases hg
          exact hlink

theorem resolveFrom_no_link {w : Worktree} {fuel : ℕ} {dir q : BitPath} {todo : List Name} {g : FileNode}
    (hdir : w.look dir = some none) (h : w.resolveFrom true fuel dir todo = .ok q) (hg : w.look q = some (some g)) :
    g.mode ≠ .LINK := by
  induction fuel generalizing dir todo with
  | zero =>
    rw [Worktree.resolveFrom] at h
    split at h
    · cases h
    · rename_i hscan
      cases h
      exact scan_unlinked hdir hscan g hg
    · cases h
  | succ fuel ih =>
    rw [Worktree.resolveFrom] at h
    split at h
    · cases h
    · rename_i hscan
      cases h
      exact scan_unlinked hdir hscan g hg
    · rename_i d target rest hscan
      change (if target.head? = some SLASH then _ else w.resolveFrom true fuel d _) = _ at h
      split at h
      · cases h
      · exact ih (scan_unlinked hdir hscan) h

theorem resolve_no_link {w : Worktree} {q : BitPath} {g : FileNode} (h : w.resolve true p = .ok q)
    (hg : w.look q = some (some g)) : g.mode ≠ .LINK := resolveFrom_no_link (Forest.look_nil_path w) h hg

/-- The file at the path is the one that was written, unless it is a link. -/
theorem openAndWrite_look {w w' : Worktree} {e : BitIndexEntry} (hours : CheckedOut w e f)
    (h : w.openAndWrite e.path bytes mtime = .ok w') : ∃ g, w'.look e.path = some (some g) ∧
      g.contents = if f.mode = .LINK then f.contents else bytes++f.contents.drop bytes.length := by
  obtain ⟨q,g,hres,hlook,rfl⟩ := openAndWrite_ok.mp h
  rw [look_replaced hlook]
  by_cases hlink : f.mode = .LINK
  · have hne : e.path ≠ q := by
      rintro rfl
      have hnot := resolve_no_link hres hlook
      rw [hours.look] at hlook
      cases hlook
      exact hnot hlink
    rw [if_neg hne,if_pos hlink]
    exact ⟨f,hours.look,rfl⟩
  · have harrive : w.resolve true e.path = .ok e.path :=
      Worktree.resolve_arrives (hours.wellFormed.normal (by simp [hours.look]))
        (Worktree.parent_dir (by simp [hours.look])) (by simpa [hours.look] using hlink)
    obtain rfl : e.path = q := Except.ok.inj (harrive.symm.trans hres)
    obtain rfl : f = g := by simpa [hours.look] using hlook
    rw [if_pos rfl,if_neg hlink]
    exact ⟨_,rfl,rfl⟩

theorem covers_iff {w : Worktree} {e : BitIndexEntry} (hours : CheckedOut w e f) (mtime : ℕ) : Covers w e.path f bytes ↔
    ∀ w', w.openAndWrite e.path bytes mtime = .ok w' → ∃ g, w'.look e.path = some (some g) ∧ g.contents = bytes := by
  have hopen : (∃ w', w.openAndWrite e.path bytes mtime = .ok w') ↔ ∃ g, w.metadata e.path = .ok (some g) := by
    simp only [openAndWrite_ok,metadata_file]
    constructor
    · rintro ⟨w',q,g,hres,hlook,-⟩
      exact ⟨g,q,hres,hlook⟩
    · rintro ⟨g,q,hres,hlook⟩
      exact ⟨_,q,g,hres,hlook,rfl⟩
  unfold Covers
  by_cases hlink : f.mode = .LINK
  · rw [if_pos hlink]
    constructor
    · intro hcov w' hw'
      obtain ⟨g,hg,hcontents⟩ := openAndWrite_look hours hw'
      rw [if_pos hlink] at hcontents
      rcases hcov with hnone | heq
      · obtain ⟨g',hg'⟩ := hopen.mp ⟨w',hw'⟩
        exact absurd hg' (hnone g')
      · exact ⟨g,hg,hcontents.trans heq.symm⟩
    · intro h
      by_cases hfile : ∃ g, w.metadata e.path = .ok (some g)
      · obtain ⟨w',hw'⟩ := hopen.mpr hfile
        obtain ⟨g,hg,hcontents⟩ := openAndWrite_look hours hw'
        obtain ⟨g',hg',hbytes⟩ := h w' hw'
        rw [if_pos hlink] at hcontents
        obtain rfl : g = g' := by simpa [hg] using hg'
        exact Or.inr (hbytes.symm.trans hcontents)
      · exact Or.inl (not_exists.mp hfile)
  · rw [if_neg hlink]
    have htail : bytes++f.contents.drop bytes.length = bytes ↔ f.contents.length ≤ bytes.length := by simp
    constructor
    · intro hlen w' hw'
      obtain ⟨g,hg,hcontents⟩ := openAndWrite_look hours hw'
      rw [if_neg hlink] at hcontents
      exact ⟨g,hg,hcontents.trans (htail.mpr hlen)⟩
    · intro h
      have hmeta : w.metadata e.path = .ok (some f) :=
        Worktree.metadata_eq (hours.wellFormed.normal (by simp [hours.look])) hours.look (by simpa using hlink)
      obtain ⟨w',hw'⟩ := hopen.mpr ⟨f,hmeta⟩
      obtain ⟨g,hg,hcontents⟩ := openAndWrite_look hours hw'
      obtain ⟨g',hg',hbytes⟩ := h w' hw'
      rw [if_neg hlink] at hcontents
      obtain rfl : g = g' := by simpa [hg] using hg'
      exact htail.mp (hcontents.symm.trans hbytes)

/-! ### The whole merge of one path -/

theorem writeMerged_run {base : Option BitIndexEntry} {ours theirs : BitIndexEntry} {result : Except Bytes Bytes}
    {w : Worktree} {g : FileNode} (hbase : ∀ b ∈ base, b.oid.isKnown) (ho : ours.oid.isKnown) (ht : theirs.oid.isKnown)
    (hn : ours.path.Normal) (hopen : r.worktree.openAndWrite ours.path (resultBytes result) mtime = .ok w)
    (hg : w.look ours.path = some (some g)) :
    ∃ idx, writeMerged base ours theirs mtime result r = .ok () {r with worktree := w, index := idx} ∧
      ∀ merged, result = .ok merged → ∃ e, idx.findEntry (ours.path,.NONE) = some e ∧ e.oid = .blob g.contents := by
  cases result with
  | ok merged =>
    refine ⟨_,(bind_of_ok (io_of_ok hopen)).trans (addEntryFromPath_run hn hg),fun _ _ => ?_⟩
    exact ⟨_,BitIndexInner.findEntry_addedEntry_self rfl .NONE,rfl⟩
  | error conflicted =>
    obtain ⟨idx₁,h₁⟩ := addConflictedBase_run hbase {r with worktree := w}
    obtain ⟨idx₂,h₂⟩ := addConflictedEntry_run ho .OURS {r with worktree := w, index := idx₁}
    obtain ⟨idx₃,h₃⟩ := addConflictedEntry_run ht .THEIRS {r with worktree := w, index := idx₂}
    refine ⟨idx₃,?_,fun _ h => by cases h⟩
    exact (bind_of_ok (io_of_ok hopen)).trans ((bind_of_ok h₁).trans ((bind_of_ok h₂).trans h₃))

theorem open_of_writeMerged {base : Option BitIndexEntry} {ours theirs : BitIndexEntry} {result : Except Bytes Bytes}
    {r' : Repo} (h : writeMerged base ours theirs mtime result r = .ok () r') :
    ∃ w, r.worktree.openAndWrite ours.path (resultBytes result) mtime = .ok w := by
  have hio : ∃ s, io (·.openAndWrite ours.path (resultBytes result) mtime) r = .ok () s := by
    cases result with
    | ok merged =>
      obtain ⟨_,s,hs,-⟩ := bind_ok.mp h
      exact ⟨s,hs⟩
    | error conflicted =>
      obtain ⟨_,s,hs,-⟩ := bind_ok.mp h
      exact ⟨s,hs⟩
  obtain ⟨s,hs⟩ := hio
  cases hopen : r.worktree.openAndWrite ours.path (resultBytes result) mtime with
  | ok w => exact ⟨w,rfl⟩
  | error e => cases (io_of_error hopen).symm.trans hs

theorem known_of_blob? {e : BitIndexEntry} {b : Bytes} (h : e.oid.blob? = some b) : e.oid.isKnown := by
  cases hoid : e.oid with
  | blob c => rfl
  | _ => simp [hoid,Oid.blob?] at h

theorem known_of_mergedBytes {base : Option BitIndexEntry} {ours theirs : BitIndexEntry} {result : Except Bytes Bytes}
    (h : mergedBytes env ctx base ours theirs = some result) :
    (∀ b ∈ base, b.oid.isKnown) ∧ ours.oid.isKnown ∧ theirs.oid.isKnown := by
  simp only [mergedBytes,Option.bind_eq_bind,Option.bind_eq_some_iff] at h
  obtain ⟨b,hb,o,ho,t,ht,-⟩ := h
  refine ⟨fun x hx => ?_,known_of_blob? ho,known_of_blob? ht⟩
  cases hx
  exact known_of_blob? hb

theorem mergeEntry_contents {base base' : Option BitIndexEntry} {o t : MergeDiffEntry} {ours theirs : BitIndexEntry}
    {result : Except Bytes Bytes} (hcell : MergesContents base o t base' ours theirs) (hmode : ours.mode = theirs.mode)
    (hresult : mergedBytes env ctx base' ours theirs = some result) : mergeEntry env ctx base o t r =
      writeMerged base' ours theirs (env.stamp r.clock).1 result {r with clock := r.clock+1} := by
  have hthree : mergeEntry env ctx base o t = threeWayMerge env ctx base' ours theirs := by cases hcell <;> rfl
  rw [hthree,threeWayMerge_known hmode hresult]
  rfl

/-- A content merge of files that are no links returns, with what is left of ours behind the result. -/
theorem mergeEntry_returns {base base' : Option BitIndexEntry} {o t : MergeDiffEntry} {ours theirs : BitIndexEntry}
    {result : Except Bytes Bytes} (hcell : MergesContents base o t base' ours theirs) (hours : CheckedOut r.worktree ours f)
    (hlink : f.mode ≠ .LINK) (hmode : ours.mode = theirs.mode) (hresult : mergedBytes env ctx base' ours theirs = some result) :
    ∃ r' g, mergeEntry env ctx base o t r = .ok () r' ∧ r'.worktree.look ours.path = some (some g) ∧
      g.contents = resultBytes result++f.contents.drop (resultBytes result).length := by
  have hknown := known_of_mergedBytes hresult
  have hn : ours.path.Normal := hours.wellFormed.normal (by simp [hours.look])
  obtain ⟨w,hopen⟩ : ∃ w, r.worktree.openAndWrite ours.path (resultBytes result) (env.stamp r.clock).1 = .ok w := by
    obtain ⟨q,hres,hlook⟩ := metadata_file.mp (Worktree.metadata_eq hn hours.look (by simpa using hlink))
    exact ⟨_,openAndWrite_ok.mpr ⟨q,f,hres,hlook,rfl⟩⟩
  obtain ⟨g,hg,hcontents⟩ := openAndWrite_look hours hopen
  rw [if_neg hlink] at hcontents
  obtain ⟨idx,hrun,-⟩ := writeMerged_run (r := {r with clock := r.clock+1}) hknown.1 hknown.2.1 hknown.2.2 hn hopen hg
  exact ⟨_,g,(mergeEntry_contents hcell hmode hresult).trans hrun,hg,hcontents⟩

section Shrinking

def blobEntry (contents : Bytes) : BitIndexEntry := ⟨[[102]],.blob .REG,.blob contents,.NONE,.unknown⟩

/-- Ours has one file. -/
def oneFile (contents : Bytes) : Repo := {Repo.init with worktree := .leaf [102] ⟨.REG,contents,1,1⟩ .nil}

theorem checkedOut_oneFile (contents : Bytes) :
    CheckedOut (oneFile contents).worktree (blobEntry contents) ⟨.REG,contents,1,1⟩ :=
  ⟨⟨⟨by decide,trivial⟩,⟨by decide,trivial⟩⟩,rfl,rfl,rfl⟩

def mergeCtxt : MergeCtxt := ⟨[109],1,0,⟨false,false⟩,⟨[],none⟩⟩

/-- Ours adds the line d to the lines a, b and c, and theirs takes the line a away. -/
def shrinkingEnv : Env := {Env.plain with merge := fun _ _ _ _ => .ok [98,10,99,10,100,10]}

end Shrinking

end Libbit
