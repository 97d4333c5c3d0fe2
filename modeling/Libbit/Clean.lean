import Libbit.Frame
import Libbit.WriteTree

/-! A repository in step with a tree: the index and the worktree hold its files and nothing else.
What an operation finds, and what it leaves, is then read off the tree. -/
namespace Libbit

open Lib

def FileNode.blob (f : FileNode) : BlobMode × Bytes := (f.mode,f.contents)

namespace Worktree
variable {w : Worktree} {p : BitPath}

/-- What stands at a path, up to the stat data. -/
def shape (w : Worktree) (p : BitPath) : Option (Option (BlobMode × Bytes)) := (w.look p).map (·.map FileNode.blob)

theorem shape_eq_none : w.shape p = none ↔ w.look p = none := by simp [shape]

theorem shape_eq_dir : w.shape p = some none ↔ w.look p = some none := by
  unfold shape
  cases w.look p with
  | none => simp
  | some m => cases m <;> simp

theorem shape_eq_file {a : BlobMode × Bytes} : w.shape p = some (some a) ↔ ∃ f, w.look p = some (some f) ∧ f.blob = a := by
  unfold shape
  cases w.look p with
  | none => simp
  | some m => cases m <;> simp

/-- The path is either reached, with nothing at it, or not even reached. -/
theorem resolve_none {follow : Bool} (hn : p.Normal) (h : w.look p = none)
    (hc : ∀ q, q <+: p → ∀ f, w.look q ≠ some (some f)) :
    w.resolve follow p = .ok p ∨ w.resolve follow p = .error .NotFound := by
  cases hd : w.look p.parent with
  | none => exact .inr (resolve_missing hn hd fun q hq => hc q (hq.trans p.parent_prefix))
  | some m =>
    cases m with
    | none => exact .inl (resolve_arrives hn (fun _ => hd) (by simp [h]))
    | some f => exact absurd hd (hc _ p.parent_prefix f)

end Worktree

namespace Tree
variable (t : Tree) (p : BitPath)

def blob? : Option (BlobMode × Bytes) := (t.look p).join

def isDir : Bool := t.look p = some none

/-- Neither the path nor any file above it. -/
def absent : Bool := t.look p = none ∧ ∀ q ∈ p.inits, t.blob? q = none

variable {t p}

theorem blob?_eq_some {a : BlobMode × Bytes} : t.blob? p = some a ↔ t.look p = some (some a) := by
  simp [blob?,Option.join_eq_some_iff]

theorem absent_iff : t.absent p = true ↔ t.look p = none ∧ ∀ q, q <+: p → ∀ a, t.look q ≠ some (some a) := by
  simp only [absent,List.mem_inits,decide_eq_true_eq,Option.eq_none_iff_forall_ne_some,ne_eq,blob?_eq_some]

end Tree

/-- The index and the worktree hold the files of the tree, and the cache is right about the index. -/
structure Synced (t : Tree) (r : Repo) : Prop where
  index : r.index.Describes t
  cache : r.index.CacheExact
  files : ∀ p, r.worktree.shape p = t.look p

theorem stableClock_synced {t : Tree} : StableClock (Synced t) := fun _ _ h => ⟨h.index,h.cache,h.files⟩

/-- The files of HEAD are those of the index and of the worktree. -/
structure Repo.Clean (r : Repo) : Prop where
  wellFormed : r.headTree.treeish.WellFormed
  synced : Synced r.headTree.treeish r

section Cloned

/-- A file of a tree that was written to the disk. -/
def FileNode.ofBlob (a : BlobMode × Bytes) : FileNode := ⟨a.1,a.2,1,1⟩

/-- A repository right after a clone: the tree of one commit is checked out. -/
def Repo.cloned (commits : List Commit) (head : ℕ) : Repo :=
  let t := (commits[head]?).elim .nil Commit.tree
  { commits := commits
    head := .Direct head
    refs := []
    index := ⟨(t.flatten []).map fun x => ⟨x.1,.blob x.2.1,.blob x.2.2,.NONE,(FileNode.ofBlob x.2).stat⟩,none⟩
    indexMtime := some 50
    worktree := t.map FileNode.ofBlob
    clock := 0 }

theorem Repo.cloned_clean {commits : List Commit} {head : ℕ} (h : ((commits[head]?).elim .nil Commit.tree).WellFormed) :
    (Repo.cloned commits head).Clean where
  wellFormed := h
  synced := by
    refine ⟨?_,BitIndexInner.cacheExact_of_none rfl,fun p => ?_⟩
    · simp only [BitIndexInner.Describes,cloned,List.forall₂_map_right_iff]
      exact List.forall₂_same.mpr fun x _ => ⟨rfl,rfl,rfl,rfl⟩
    · have hblob : FileNode.blob ∘ FileNode.ofBlob = id := rfl
      simp only [Worktree.shape,cloned,Forest.look_map,Option.map_map]
      have hid : (Option.map FileNode.blob ∘ Option.map FileNode.ofBlob : Option (BlobMode × Bytes) → _) = id := by
        funext a
        simp [hblob]
      rw [hid,Option.map_id]
      rfl

end Cloned

section Files
variable {t : Tree} {w : Worktree} (hw : ∀ p, w.shape p = t.look p)
include hw

theorem look_file {p : BitPath} {a : BlobMode × Bytes} (h : t.blob? p = some a) : ∃ f, w.look p = some (some f) ∧ f.blob = a :=
  Worktree.shape_eq_file.mp ((hw p).trans (Tree.blob?_eq_some.mp h))

theorem look_dir {p : BitPath} (h : t.isDir p = true) : w.look p = some none :=
  Worktree.shape_eq_dir.mp ((hw p).trans (by simpa [Tree.isDir] using h))

theorem resolve_absent (follow : Bool) {p : BitPath} (hn : p.Normal) (h : t.absent p = true) :
    w.look p = none ∧ (w.resolve follow p = .ok p ∨ w.resolve follow p = .error .NotFound) := by
  obtain ⟨hnone,habove⟩ := Tree.absent_iff.mp h
  have hlook : w.look p = none := Worktree.shape_eq_none.mp ((hw p).trans hnone)
  refine ⟨hlook,Worktree.resolve_none hn hlook fun q hq f hf => ?_⟩
  have hshape : w.shape q = some (some f.blob) := Worktree.shape_eq_file.mpr ⟨f,hf,rfl⟩
  exact habove q hq f.blob ((hw q).symm.trans hshape)

end Files

/-- The operation never returns, and what it leaves is as good as what it found. -/
def Fails {α : Type} (P : Repo → Prop) (m : Bit α) : Prop :=
  ∀ r, P r → ∃ e r', m r = .error e r' ∧ P r' ∧ NoMergeConflict e

theorem Fails.holds {α : Type} {P : Repo → Prop} {m : Bit α} (h : Fails P m) : Holds P m := by
  intro r hr
  obtain ⟨e,r',he,hr'⟩ := h r hr
  rw [he]
  exact hr'

theorem Fails.bind {α β : Type} {P : Repo → Prop} {m : Bit α} (h : Fails P m) (f : α → Bit β) : Fails P (m >>= f) := by
  intro r hr
  obtain ⟨e,r',he,hr'⟩ := h r hr
  exact ⟨e,r',bind_of_error he,hr'⟩

theorem Fails.after {α β : Type} {P : Repo → Prop} {m : Bit α} {f : α → Bit β} (hm : Holds P m) (hf : ∀ a, Fails P (f a)) :
    Fails P (m >>= f) := by
  intro r hr
  cases hrun : m r with
  | ok a r' =>
    obtain ⟨e,r'',he,hr''⟩ := hf a r' (hm.ok hr hrun)
    exact ⟨e,r'',(bind_of_ok hrun).trans he,hr''⟩
  | error e r' => exact ⟨e,r',bind_of_error hrun,hm.error hr hrun⟩

theorem Fails.io {P : Repo → Prop} {f : Worktree → IoResult Worktree} (h : ∀ r, P r → ∃ e, f r.worktree = .error e) :
    Fails P (io f) := by
  intro r hr
  obtain ⟨e,he⟩ := h r hr
  exact ⟨.Io e,r,io_of_error he,hr,trivial⟩

namespace Tree
variable (t : Tree)

/-- There is no file to remove or to write to. -/
def noFile (p : BitPath) : Bool := t.absent p || t.isDir p

/-- There is no directory to remove, and no link that would be taken for one. -/
def noDir (p : BitPath) : Bool := t.absent p || (t.blob? p).any fun a => a.1 ≠ .LINK

/-- The entry is in the tree, or there is nothing on disk to complete it from. -/
def hasEntry (e : BitIndexEntry) : Bool := t.absent e.path || (t.blob? e.path).any fun a => e.oid = .blob a.2

end Tree

section Calls
variable {t : Tree} {p : BitPath} (hn : p.Normal)
include hn

theorem removeFile_fails (h : t.noFile p = true) : Fails (Synced t) (rm p) := by
  refine Fails.io fun r hr => ?_
  rcases Bool.or_eq_true_iff.mp h with h | h
  · obtain ⟨hnone,hres | hres⟩ := resolve_absent hr.files false hn h
    · exact ⟨.NotFound,by simp [Worktree.removeFile,hres,hnone,bind,Except.bind]⟩
    · exact ⟨.NotFound,by simp [Worktree.removeFile,hres,bind,Except.bind]⟩
  · have hdir := look_dir hr.files h
    have hres : r.worktree.resolve false p = .ok p :=
      Worktree.resolve_arrives hn (Worktree.parent_dir (by simp [hdir])) (by simp)
    exact ⟨.IsADirectory,by simp [Worktree.removeFile,hres,hdir,bind,Except.bind]⟩

theorem openAndWrite_fails (h : t.noFile p = true) (b : Bytes) (mtime : ℕ) :
    Fails (Synced t) (io (·.openAndWrite p b mtime)) := by
  refine Fails.io fun r hr => ?_
  rcases Bool.or_eq_true_iff.mp h with h | h
  · obtain ⟨hnone,hres | hres⟩ := resolve_absent hr.files true hn h
    · exact ⟨.NotFound,by simp [Worktree.openAndWrite,hres,hnone,bind,Except.bind]⟩
    · exact ⟨.NotFound,by simp [Worktree.openAndWrite,hres,bind,Except.bind]⟩
  · have hdir := look_dir hr.files h
    have hres : r.worktree.resolve true p = .ok p :=
      Worktree.resolve_arrives hn (Worktree.parent_dir (by simp [hdir])) (by simp [hdir])
    exact ⟨.IsADirectory,by simp [Worktree.openAndWrite,hres,hdir,bind,Except.bind]⟩

theorem removeDirAll_fails (h : t.noDir p = true) : Fails (Synced t) (rmdirAll p) := by
  refine Fails.io fun r hr => ?_
  rcases Bool.or_eq_true_iff.mp h with h | h
  · obtain ⟨hnone,hres | hres⟩ := resolve_absent hr.files false hn h
    · exact ⟨.NotFound,by simp [Worktree.removeDirAll,hres,hnone,bind,Except.bind]⟩
    · exact ⟨.NotFound,by simp [Worktree.removeDirAll,hres,bind,Except.bind]⟩
  · obtain ⟨a,ha,hmode⟩ := (Option.any_eq_true _ _).mp h
    obtain ⟨f,hf,rfl⟩ := look_file hr.files ha
    have hres : r.worktree.resolve false p = .ok p :=
      Worktree.resolve_arrives hn (Worktree.parent_dir (by simp [hf])) (by simp)
    have hlink : f.mode ≠ .LINK := of_decide_eq_true hmode
    exact ⟨.NotADirectory,by simp [Worktree.removeDirAll,hres,hf,hlink,bind,Except.bind]⟩

omit hn in
theorem look_isSome {r : Repo} (hr : Synced t r) (h : t.look p ≠ none) : ∃ m, r.worktree.look p = some m := by
  rw [← hr.files,ne_eq,Worktree.shape_eq_none] at h
  exact Option.ne_none_iff_exists'.mp h

theorem mkdir_fails (h : t.look p ≠ none) : Fails (Synced t) (mkdir p) := by
  refine Fails.io fun r hr => ?_
  obtain ⟨m,hm⟩ := look_isSome hr h
  exact ⟨_,Worktree.createDir_exists hn hm⟩

theorem symlinkMetadata_fails (h : t.absent p = true) {r : Repo} (hr : Synced t r) :
    r.worktree.symlinkMetadata p = .error .NotFound := by
  obtain ⟨hnone,hres | hres⟩ := resolve_absent hr.files false hn h
  · simp [Worktree.symlinkMetadata,Worktree.metadataWith,hres,hnone,bind,Except.bind]
  · simp [Worktree.symlinkMetadata,Worktree.metadataWith,hres,bind,Except.bind]

/-- Where something stands no file is made, nor any directory above it. -/
theorem touchAndWrite_fails (env : Env) (h : t.look p ≠ none) (b : Bytes) : Fails (Synced t) (touchAndWrite env p b) := by
  have hmkdir : Holds (Synced t) (Libbit.io (·.createDirAll p.parent)) := by
    intro r hr
    obtain ⟨m,hm⟩ := look_isSome hr h
    have hparent : r.worktree.look p.parent = some none := by
      by_cases hp : p = []
      · simp [hp,BitPath.parent]
      · exact Worktree.parent_dir (by simp [hm]) hp
    rw [io_of_ok (Worktree.createDirAll_exists (hn.mono p.parent_prefix) hparent)]
    exact hr
  refine Fails.after hmkdir fun _ => Fails.after (Holds.nextStamp stableClock_synced env) fun stamp => Fails.io fun r hr => ?_
  obtain ⟨m,hm⟩ := look_isSome hr h
  have hres : r.worktree.resolve false p = .ok p :=
    Worktree.resolve_arrives hn (Worktree.parent_dir (by simp [hm])) (by simp)
  exact ⟨.AlreadyExists,by simp [Worktree.createNew,hres,hm,bind,Except.bind]⟩

end Calls

section Index
variable {t : Tree} (ht : t.WellFormed)
include ht

theorem Synced.findEntry {r : Repo} (hr : Synced t r) {p : BitPath} (h : t.blob? p = none) :
    r.index.findEntry (p,.NONE) = none := by
  have hview := ((BitIndexInner.describes_iff ht).mp hr.index).2 (p,.NONE)
  have hnone : BitIndexInner.treeView t (p,.NONE) = none := by
    cases hl : t.look p with
    | none => simp [BitIndexInner.treeView,hl]
    | some m =>
      cases m with
      | none => simp [BitIndexInner.treeView,hl]
      | some a => simp [Tree.blob?,hl] at h
  rw [hnone] at hview
  simpa [BitIndexInner.view] using hview

theorem removeEntry_synced {k : BitPath × MergeStage} (hk : k.2 = .NONE) (h : t.blob? k.1 = none) :
    Holds (Synced t) (modifyIndex (·.removeEntry k)) := by
  refine Keeps.modify fun r hr => ?_
  have hfind := hr.findEntry ht h
  rw [← hk] at hfind
  have hsame : r.index.removeEntry k = r.index := by simp [BitIndexInner.removeEntry,hfind]
  simpa only [hsame] using hr

theorem removeDirectory_synced {p : BitPath} (h : t.isDir p = false) :
    Holds (Synced t) (modifyIndex (·.removeDirectory p)) := by
  refine Keeps.modify fun r hr => ?_
  have hp : p ≠ [] := by
    rintro rfl
    simp [Tree.isDir] at h
  have hsame : r.index.removeDirectory p = r.index := by
    refine BitIndexInner.removeDirectory_of_clear fun e he hs hpre => ⟨hp,?_⟩
    obtain ⟨a,ha,-⟩ := hr.index.file ht he
    by_contra hne
    have hdir : t.look p = some none := Forest.look_prefix (by simp [ha]) hpre (Ne.symm hne)
    simp [Tree.isDir,hdir] at h
  simpa only [hsame] using hr

theorem Synced.added {r : Repo} (hr : Synced t r) {e : BitIndexEntry} {a : BlobMode × Bytes}
    (hlook : t.look e.path = some (some a)) (hmode : e.mode = .blob a.1) (hoid : e.oid = .blob a.2) (hs : e.stage = .NONE) :
    Synced t {r with index := r.index.addedEntry e} :=
  ⟨Describes.addedEntry ht hr.index hlook hmode hoid hs,hr.cache.addedEntry e,hr.files⟩

/-- An entry that is completed from the disk, where the tree has its blob. -/
theorem addEntry_synced {e : BitIndexEntry} (hn : e.path.Normal) (hstat : e.stat = .unknown) (h : t.hasEntry e = true) :
    Holds (Synced t) (addEntry e) := by
  have hfilled : e.isFilled = false := by simp [BitIndexEntry.isFilled,hstat,Stat.unknown]
  rcases Bool.or_eq_true_iff.mp h with h | h
  · have hfail : Fails (Synced t) e.fill := by
      intro r hr
      refine ⟨.Io .NotFound,r,?_,hr,trivial⟩
      simp only [BitIndexEntry.fill,hfilled,Bool.false_eq_true,if_false]
      refine bind_of_error (bind_of_error ?_)
      simp [ioGet,symlinkMetadata_fails hn h hr]
    exact (hfail.bind _).holds
  · obtain ⟨a,ha,hoid⟩ := (Option.any_eq_true _ _).mp h
    have hoid : e.oid = .blob a.2 := by simpa using hoid
    intro r hr
    obtain ⟨f,hf,rfl⟩ := look_file hr.files ha
    have hfill : e.fill r = .ok {f.toEntry e.path with oid := e.oid} r := by
      simp only [BitIndexEntry.fill,hfilled,Bool.false_eq_true,if_false]
      exact bind_of_ok (fromRelativePath_ok.mpr ⟨some f,Worktree.symlinkMetadata_eq hn hf,rfl,rfl⟩)
    rw [addEntry_of_fill (by simp [hoid,Oid.isKnown]) hfill]
    exact hr.added ht (Tree.blob?_eq_some.mp ha) rfl hoid rfl

/-- What stands at a path goes into the index under the hash of its contents. -/
theorem addEntryFromPath_synced {p : BitPath} (hn : p.Normal) {a : BlobMode × Bytes} (ha : t.blob? p = some a) :
    Holds (Synced t) (addEntryFromPath p) := by
  intro r hr
  obtain ⟨f,hf,rfl⟩ := look_file hr.files ha
  have hmeta : r.worktree.symlinkMetadata p = .ok (some f) := Worktree.symlinkMetadata_eq hn hf
  have hfrom : fromRelativePath p r = .ok (f.toEntry p) r := fromRelativePath_ok.mpr ⟨some f,hmeta,rfl,rfl⟩
  have hfill : (f.toEntry p).fill r = .ok (f.toEntry p) r := by
    unfold BitIndexEntry.fill
    split
    · rfl
    · exact bind_of_ok hfrom
  have hwrite (idx : BitIndexInner) :
      (f.toEntry p).write {r with index := idx} = .ok (.blob f.contents) {r with index := idx} :=
    bind_of_ok (readBlobFromWorktree_ok.mpr ⟨f,hmeta,rfl,rfl⟩)
  have hrun : addEntryFromPath p r = .ok () {r with index := r.index.addedEntry {f.toEntry p with oid := .blob f.contents}} :=
    (bind_of_ok hfrom).trans (addEntry_run hfill hwrite)
  rw [hrun]
  exact hr.added ht (Tree.blob?_eq_some.mp ha) rfl rfl rfl

end Index

section Rewrite
variable {t : Tree} {p : BitPath} {r : Repo}

/-- The file of the tree is taken away and put back with other stat data. -/
theorem shape_replaced {w : Worktree} {a : BlobMode × Bytes} (hw : ∀ q, w.shape q = t.look q) (ha : t.blob? p = some a)
    {f : FileNode} (hf : f.blob = a) (q : BitPath) : ((w.unlink p).place p f).shape q = t.look q := by
  have hlook : t.look p = some (some a) := Tree.blob?_eq_some.mp ha
  have hp : p ≠ [] := by
    rintro rfl
    simp at hlook
  obtain ⟨g,hg,-⟩ := look_file hw ha
  have hparent : (w.unlink p).look p.parent = some none := by
    rw [Worktree.look_unlink hp,if_neg]
    · exact Worktree.parent_dir (by simp [hg]) hp
    · intro hpre
      obtain ⟨d,n,rfl⟩ := BitPath.eq_parent_append hp
      simpa [BitPath.parent] using hpre.length_le
  by_cases hq : p <+: q
  · obtain ⟨s,rfl⟩ := hq
    cases s with
    | nil => simp [Worktree.shape,Worktree.look_place hparent hp,hf,hlook]
    | cons n s =>
      rw [Forest.look_append_of_ne_dir (by simp [hlook])]
      simp [Worktree.shape,Worktree.look_place hparent hp]
  · rw [← hw]
    simp [Worktree.shape,Worktree.look_place hparent hp,Worktree.look_unlink hp,hq]

/-- Writing what the file starts with leaves it as it is. -/
theorem openAndWrite_synced (hn : p.Normal) {a : BlobMode × Bytes} (ha : t.blob? p = some a) (hlink : a.1 ≠ .LINK) {b : Bytes}
    (hb : b <+: a.2) (mtime : ℕ) : Holds (Synced t) (io (·.openAndWrite p b mtime)) := by
  intro r hr
  obtain ⟨f,hf,rfl⟩ := look_file hr.files ha
  have hres : r.worktree.resolve true p = .ok p :=
    Worktree.resolve_arrives hn (Worktree.parent_dir (by simp [hf])) (by simpa [hf,FileNode.blob] using hlink)
  have hopen : r.worktree.openAndWrite p b mtime = .ok ((r.worktree.unlink p).place p
      {f with contents := b++f.contents.drop b.length, mtime := mtime}) := by
    simp [Worktree.openAndWrite,hres,hf,bind,Except.bind]
  have hsame : b++f.contents.drop b.length = f.contents := by
    obtain ⟨s,hs⟩ := hb
    have hs : b++s = f.contents := hs
    rw [← hs]
    simp
  rw [io_of_ok hopen]
  exact ⟨hr.index,hr.cache,shape_replaced hr.files ha (by simp [FileNode.blob,hsame])⟩

/-- A regular file is removed and written again with the contents it had. -/
theorem updateBlob_synced (env : Env) (ht : t.WellFormed) {e : BitIndexEntry} (hn : e.path.Normal) (hstat : e.stat = .unknown)
    {b : Bytes} (hoid : e.oid = .blob b) (ha : t.blob? e.path = some (.REG,b)) : Holds (Synced t) (updateBlob env e) := by
  intro r hr
  obtain ⟨f,hf,hfb⟩ := look_file hr.files ha
  have hp : e.path ≠ [] := by
    intro hnil
    simp [hnil] at hf
  have hnot : ¬e.path <+: e.path.parent := by
    intro hpre
    obtain ⟨d,n,hd⟩ := BitPath.eq_parent_append hp
    rw [hd,BitPath.parent_append] at hpre
    simpa using hpre.length_le
  have hparent : (r.worktree.unlink e.path).look e.path.parent = some none := by
    rw [Worktree.look_unlink hp,if_neg hnot]
    exact Worktree.parent_dir (by simp [hf]) hp
  have hgone : (r.worktree.unlink e.path).look e.path = none := by simp [Worktree.look_unlink hp]
  have hread (s : Repo) : e.readToBytes s = .ok b s := by simp [BitIndexEntry.readToBytes,hoid]
  set w := (r.worktree.unlink e.path).place e.path ⟨.REG,b,(env.stamp r.clock).1,(env.stamp r.clock).2⟩ with hw
  have hwrite : writeToDisk env e {r with worktree := r.worktree.unlink e.path} =
      .ok () {r with worktree := w, clock := r.clock+1} :=
    (bind_of_ok (hread _)).trans (touchAndWrite_run (Worktree.createDirAll_exists (hn.mono e.path.parent_prefix) hparent)
      (Worktree.createNew_eq hn hparent hgone _))
  have hrun : updateBlob env e r = addEntry e {r with worktree := w, clock := r.clock+1} :=
    (bind_of_ok (io_of_ok (Worktree.removeFile_eq hn hf))).trans (bind_of_ok hwrite)
  rw [hrun]
  have hentry : t.hasEntry e = true := by simp [Tree.hasEntry,ha,hoid]
  exact addEntry_synced ht hn hstat hentry _ ⟨hr.index,hr.cache,shape_replaced hr.files ha rfl⟩

end Rewrite
end Libbit
