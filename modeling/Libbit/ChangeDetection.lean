import Libbit.IndexRun

/-! Change detection against the contents. The stat data answer before a hash is made: a time that matches hides a
change of the mode, and an inode that does not match stands for a change. -/
namespace Libbit

open Lib

/-- The contract of racy git: a file with the time of an entry older than the index file has the contents recorded. -/
def RacyContract (indexMtime : Option ℕ) (e : BitIndexEntry) (f : FileNode) : Prop :=
  e.stat.mtime = f.mtime → (∃ m ∈ indexMtime, e.stat.mtime < m) → e.oid = .blob f.contents

/-- The answer is whether the blob or the mode of the file is another one than that of the entry. -/
def DetectsExactly (r : Repo) (e : BitIndexEntry) (f : FileNode) : Prop :=
  ∃ b r', hasChanges e (f.toEntry e.path) r = .ok b r' ∧ (b = true ↔ e.oid ≠ .blob f.contents ∨ e.mode ≠ .blob f.mode)

/-- Where the time vouches for the file its mode is that of the entry, and elsewhere stat data that differ come from
contents that differ, unless the mode tells. -/
def StatTells (indexMtime : Option ℕ) (e : BitIndexEntry) (f : FileNode) : Prop :=
  if e.stat.mtime = f.mtime ∧ isRacyEntry indexMtime e = false then e.mode = .blob f.mode
  else e.mode = .blob f.mode → e.stat.filesize ≠ f.stat.filesize ∨ e.stat.inode ≠ f.stat.inode → e.oid ≠ .blob f.contents

instance (indexMtime : Option ℕ) (e : BitIndexEntry) (f : FileNode) : Decidable (StatTells indexMtime e f) := by
  unfold StatTells
  infer_instance

variable {r : Repo} {e : BitIndexEntry} {f : FileNode} {indexMtime : Option ℕ}

theorem not_racy : isRacyEntry indexMtime e = false ↔ ∃ m ∈ indexMtime, e.stat.mtime < m := by
  cases indexMtime <;> simp [isRacyEntry]

/-! ### The answer of the stat data -/

/-- The file's id is not known yet, so no two ids are compared. -/
theorem inner_eq (hknown : e.oid.isKnown) : hasChangesInner indexMtime e (f.toEntry e.path) =
    if e.stat.mtime = f.mtime ∧ isRacyEntry indexMtime e = false then .No
    else if (e.stat.filesize ≠ f.stat.filesize ∨ e.stat.inode ≠ f.stat.inode) ∨ e.mode ≠ .blob f.mode then .Yes
    else .Maybe := by
  have hne : e.oid ≠ (f.toEntry e.path).oid := by simpa [Oid.isKnown,FileNode.toEntry] using hknown
  have hunknown : ¬(f.toEntry e.path).oid.isKnown = true := by simp [FileNode.toEntry,Oid.isKnown]
  rw [hasChangesInner,if_neg hne,if_neg hunknown]
  change (if e.stat.mtime = f.mtime ∧ (!isRacyEntry indexMtime e) = true then Changed.No
    else if e.stat.filesize ≠ f.stat.filesize then .Yes
    else if e.stat.inode ≠ f.stat.inode then .Yes
    else if e.mode ≠ .blob f.mode then .Yes
    else .Maybe) = _
  simp only [Bool.not_eq_true']
  by_cases hsize : e.stat.filesize = f.stat.filesize
  · by_cases hinode : e.stat.inode = f.stat.inode <;> simp [hsize,hinode]
  · simp [hsize]

/-! ### The answer of the hash -/

/-- An answer settles whether the call is right. -/
theorem detectsExactly_of_run {b : Bool} {r' : Repo} (h : hasChanges e (f.toEntry e.path) r = .ok b r') :
    DetectsExactly r e f ↔ (b = true ↔ e.oid ≠ .blob f.contents ∨ e.mode ≠ .blob f.mode) := by
  constructor
  · rintro ⟨b',s,hrun,hiff⟩
    cases h.symm.trans hrun
    exact hiff
  · exact fun hiff => ⟨b,r',h,hiff⟩

def sampleFile (mode : BlobMode) (mtime inode : ℕ) : FileNode := ⟨mode,[97],mtime,inode⟩

/-- The index was written after the entry. -/
def statRepo (f : FileNode) : Repo := {Repo.init with indexMtime := some 7, worktree := .leaf [102] f .nil}

def sampleEntry : BitIndexEntry := ⟨[[102]],.blob .REG,.blob [97],.NONE,⟨5,1,1⟩⟩

theorem wellFormed_statRepo (f : FileNode) : (statRepo f).worktree.WellFormed :=
  ⟨⟨by decide,trivial⟩,⟨by decide,trivial⟩⟩

end Libbit
