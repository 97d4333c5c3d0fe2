import Libbit.Lib.Eff
import Libbit.DiffSpec
import Libbit.Repo

/-! Entries that go into the index. An entry takes the place of whatever stood at its path and
above it; the entry of a file that did not change is only refreshed. -/
namespace Libbit

open Lib

namespace BitIndexInner
variable {idx : BitIndexInner}

/-- What `add_entry` makes of the index once the entry is complete. -/
def addedEntry (idx : BitIndexInner) (e : BitIndexEntry) : BitIndexInner :=
  ((idx.removeConflicted e.path).removeCollisions e.path).insertEntry e

theorem Valid.addedEntry (h : idx.Valid) {e : BitIndexEntry} (hne : e.path ≠ []) (hn : e.path.Normal) :
    (idx.addedEntry e).Valid :=
  Valid.insertEntry (h.of_sublist ((removeCollisions_sublist _).trans (removeConflicted_sublist _))) hne hn

/-- An entry at a path below which there is nothing. -/
theorem findEntry_addedEntry {e : BitIndexEntry} (hs : e.stage = .NONE) (hp : e.path ≠ [])
    (hclear : ∀ x ∈ idx.entries, x.stage = .NONE → e.path <+: x.path → x.path = e.path) (k : BitPath × MergeStage) :
    (idx.addedEntry e).findEntry k =
      if k.1 = e.path then (if k.2 = .NONE then some e else none)
      else if k.2 = .NONE ∧ k.1 ≠ [] ∧ k.1 <+: e.path then none else idx.findEntry k := by
  have hsub : ((idx.removeConflicted e.path).removeFileDirCollisions e.path).entries.Sublist idx.entries :=
    (removeFileDirCollisions_sublist e.path).trans (removeConflicted_sublist e.path)
  have hdir : (idx.removeConflicted e.path).removeCollisions e.path =
      (idx.removeConflicted e.path).removeFileDirCollisions e.path :=
    removeDirFileCollisions_of_clear fun x hx hxs hxp => ⟨hp,hclear x (hsub.subset hx) hxs hxp⟩
  obtain ⟨q,s⟩ := k
  have hkey : ((q,s) = e.key) ↔ q = e.path ∧ s = .NONE := by simp [BitIndexEntry.key,hs]
  simp only [BitIndexInner.addedEntry,hdir,findEntry_insertEntry,findEntry_removeFileDirCollisions hp,
    findEntry_removeConflicted,hkey]
  by_cases hq : q = e.path
  · subst hq
    by_cases hstage : s = .NONE <;> simp [hstage]
  · by_cases hpre : s = .NONE ∧ q ≠ [] ∧ q <+: e.path <;> simp [hq,hpre]

/-- At its own path an entry leaves nothing but itself. -/
theorem findEntry_addedEntry_self {e : BitIndexEntry} (hs : e.stage = .NONE) (s : MergeStage) :
    (idx.addedEntry e).findEntry (e.path,s) = if s = .NONE then some e else none := by
  have hkey : ((e.path,s) = e.key) ↔ s = .NONE := by simp [BitIndexEntry.key,hs]
  have hremove (idx' : BitIndexInner) (k : BitPath × MergeStage) (h : idx'.findEntry (e.path,s) = none) :
      (idx'.removeEntry k).findEntry (e.path,s) = none := by
    rw [findEntry_removeEntry,h,ite_self]
  simp only [BitIndexInner.addedEntry,findEntry_insertEntry,hkey]
  by_cases hstage : s = .NONE
  · rw [if_pos hstage,if_pos hstage]
  · have hclear : (idx.removeConflicted e.path).findEntry (e.path,s) = none := by
      rw [findEntry_removeConflicted,if_pos ⟨rfl,hstage⟩]
    rw [if_neg hstage,if_neg hstage,removeCollisions_keeps hremove e.path hclear]

/-- What stands neither above nor below the path of an entry stays when the entry comes. -/
theorem findEntry_addedEntry_of_apart {e : BitIndexEntry} (hp : e.path ≠ []) {k : BitPath × MergeStage}
    (habove : ¬k.1 <+: e.path) (hbelow : ¬e.path <+: k.1) : (idx.addedEntry e).findEntry k = idx.findEntry k := by
  have hne : k.1 ≠ e.path := fun h => habove (h ▸ List.prefix_refl _)
  have hkey : k ≠ e.key := fun h => hne (congrArg Prod.fst h)
  have hdir (idx' : BitIndexInner) : (idx'.removeDirectory e.path).findEntry k = idx'.findEntry k := by
    rw [findEntry_removeDirectory',if_neg]
    intro hmem
    obtain ⟨x,hx,rfl⟩ := List.mem_map.mp hmem
    exact hbelow (mem_subentries hx).2.2.1
  have hcollisions (idx' : BitIndexInner) : (idx'.removeDirFileCollisions e.path).findEntry k = idx'.findEntry k := by
    simp only [removeDirFileCollisions]
    split
    · exact hdir idx'
    · rfl
  rw [BitIndexInner.addedEntry,findEntry_insertEntry,if_neg hkey,removeCollisions,hcollisions,
    findEntry_removeFileDirCollisions hp,if_neg (fun h => habove h.2.2),findEntry_removeConflicted,
    if_neg (fun h => hne h.1)]

/-- Away from its own path an entry only takes others away. -/
theorem findEntry_of_addedEntry {e x : BitIndexEntry} {k : BitPath × MergeStage} (hne : k.1 ≠ e.path)
    (h : (idx.addedEntry e).findEntry k = some x) : idx.findEntry k = some x := by
  have hremove (idx' : BitIndexInner) (k' : BitPath × MergeStage)
      (hk : ∀ x, idx'.findEntry k = some x → idx.findEntry k = some x) (x : BitIndexEntry)
      (hx : (idx'.removeEntry k').findEntry k = some x) : idx.findEntry k = some x := by
    rw [findEntry_removeEntry] at hx
    split at hx
    · cases hx
    · exact hk x hx
  have hkey : k ≠ e.key := fun h => hne (congrArg Prod.fst h)
  rw [BitIndexInner.addedEntry,findEntry_insertEntry,if_neg hkey] at h
  exact removeCollisions_keeps hremove e.path (removeConflicted_keeps hremove e.path fun _ => id) x h

theorem view_addedEntry {e : BitIndexEntry} (hs : e.stage = .NONE) (hp : e.path ≠ [])
    (hclear : ∀ x ∈ idx.entries, x.stage = .NONE → e.path <+: x.path → x.path = e.path) (k : BitPath × MergeStage) :
    (idx.addedEntry e).view k =
      if k.1 = e.path then (if k.2 = .NONE then some (e.mode,e.oid) else none)
      else if k.2 = .NONE ∧ k.1 ≠ [] ∧ k.1 <+: e.path then none else idx.view k := by
  simp only [view,findEntry_addedEntry hs hp hclear]
  split
  · split <;> rfl
  · split <;> rfl

end BitIndexInner

section Add

theorem ioGet_ok {α : Type} {f : Worktree → IoResult α} {r r' : Repo} {a : α} :
    ioGet f r = .ok a r' ↔ f r.worktree = .ok a ∧ r' = r := by
  simp only [ioGet,run_getBind]
  cases f r.worktree <;> simp [eq_comm]

theorem ioGet_error {α : Type} {f : Worktree → IoResult α} {r r' : Repo} {e : BitError}
    (h : ioGet f r = .error e r') : r' = r := by
  simp only [ioGet,run_getBind] at h
  cases hf : f r.worktree with
  | ok a => simp [hf] at h
  | error e => simp_all

theorem io_of_ok {f : Worktree → IoResult Worktree} {r : Repo} {w : Worktree} (h : f r.worktree = .ok w) :
    io f r = .ok () {r with worktree := w} := by
  simp only [io,run_getBind,h]
  rfl

theorem io_of_error {f : Worktree → IoResult Worktree} {r : Repo} {e : IoError} (h : f r.worktree = .error e) :
    io f r = .error (.Io e) r := by
  simp only [io,run_getBind,h]
  rfl

theorem touchAndWrite_run {env : Env} {p : BitPath} {b : Bytes} {r : Repo} {w w' : Worktree}
    (hdir : r.worktree.createDirAll p.parent = .ok w)
    (hnew : w.createNew p ⟨.REG,b,(env.stamp r.clock).1,(env.stamp r.clock).2⟩ = .ok w') :
    touchAndWrite env p b r = .ok () {r with worktree := w', clock := r.clock+1} := by
  have hstamp : nextStamp env {r with worktree := w} = .ok (env.stamp r.clock) {r with worktree := w, clock := r.clock+1} :=
    rfl
  have hcreate : io (·.createNew p ⟨.REG,b,(env.stamp r.clock).1,(env.stamp r.clock).2⟩)
      {r with worktree := w, clock := r.clock+1} = .ok () {r with worktree := w', clock := r.clock+1} := io_of_ok hnew
  exact (bind_of_ok (io_of_ok hdir)).trans ((bind_of_ok hstamp).trans hcreate)

/-- The entry that stands for what the disk has at a path. -/
def diskEntry (p : BitPath) : Option FileNode → BitIndexEntry
  | some f => f.toEntry p
  | none => ⟨p,.TREE,.UNKNOWN,.NONE,.unknown⟩

theorem fromRelativePath_ok {p : BitPath} {r r' : Repo} {e : BitIndexEntry} :
    fromRelativePath p r = .ok e r' ↔ ∃ m, r.worktree.symlinkMetadata p = .ok m ∧ e = diskEntry p m ∧ r' = r := by
  simp only [fromRelativePath,bind_ok,ioGet_ok]
  constructor
  · rintro ⟨m,_,⟨hm,rfl⟩,h⟩
    refine ⟨m,hm,?_⟩
    cases m <;> simp_all [diskEntry,eq_comm]
  · rintro ⟨m,hm,rfl,rfl⟩
    refine ⟨m,_,⟨hm,rfl⟩,?_⟩
    cases m <;> rfl

/-- An entry that goes into the index is first completed from the disk. -/
theorem fill_ok {e e' : BitIndexEntry} {r r' : Repo} (h : e.fill r = .ok e' r') : r' = r ∧
    (e' = e ∨ ∃ m, r.worktree.symlinkMetadata e.path = .ok m ∧ e' = {diskEntry e.path m with oid := e.oid}) := by
  unfold BitIndexEntry.fill at h
  split at h
  · obtain ⟨rfl,rfl⟩ : e = e' ∧ r = r' := by simpa using h
    exact ⟨rfl,.inl rfl⟩
  · obtain ⟨x,t,hx,hr⟩ := bind_ok.mp h
    obtain ⟨m,hm,rfl,rfl⟩ := fromRelativePath_ok.mp hx
    obtain ⟨rfl,rfl⟩ : _ = e' ∧ t = r' := by simpa using hr
    exact ⟨rfl,.inr ⟨m,hm,rfl⟩⟩

theorem write_known {e : BitIndexEntry} (h : e.oid.isKnown) (r : Repo) : e.write r = .ok e.oid r := by
  simp [BitIndexEntry.write,h]

/-- The index gets the entry as it was completed, with the id under which its blob is written. -/
theorem addEntry_run {e e' : BitIndexEntry} {oid : Oid} {r : Repo} (hfill : e.fill r = .ok e' r)
    (hwrite : ∀ idx, e'.write {r with index := idx} = .ok oid {r with index := idx}) :
    addEntry e r = .ok () {r with index := r.index.addedEntry {e' with oid := oid}} :=
  (bind_of_ok hfill).trans ((bind_of_ok rfl).trans ((bind_of_ok rfl).trans (bind_of_ok (hwrite _))))

theorem addEntry_of_fill {e e' : BitIndexEntry} {r : Repo} (hk : e'.oid.isKnown) (hfill : e.fill r = .ok e' r) :
    addEntry e r = .ok () {r with index := r.index.addedEntry e'} :=
  addEntry_run hfill fun _ => write_known hk _

/-- The entry of a file that has been read. -/
def FileNode.hashed (f : FileNode) (p : BitPath) : BitIndexEntry := {f.toEntry p with oid := .blob f.contents}

section File
variable {r : Repo} {p : BitPath} {f : FileNode} (hn : p.Normal) (hf : r.worktree.look p = some (some f))
include hn hf

theorem readBlob_file : readBlobFromWorktree p r = .ok f.contents r := by
  rw [readBlobFromWorktree,bind_of_ok (ioGet_ok.mpr ⟨Worktree.symlinkMetadata_eq hn hf,rfl⟩)]
  rfl

theorem fill_file (oid : Oid) :
    ({f.toEntry p with oid := oid} : BitIndexEntry).fill r = .ok {f.toEntry p with oid := oid} r := by
  have hread : fromRelativePath p r = .ok (f.toEntry p) r :=
    fromRelativePath_ok.mpr ⟨some f,Worktree.symlinkMetadata_eq hn hf,rfl,rfl⟩
  unfold BitIndexEntry.fill
  split
  · rfl
  · exact (bind_of_ok hread).trans rfl

/-- A file of the worktree goes into the index with its mode and its blob. -/
theorem addEntry_file : addEntry (f.toEntry p) r = .ok () {r with index := r.index.addedEntry (f.hashed p)} := by
  have hwrite (idx : BitIndexInner) :
      (f.toEntry p).write {r with index := idx} = .ok (.blob f.contents) {r with index := idx} :=
    (bind_of_ok (readBlob_file (r := {r with index := idx}) hn hf)).trans rfl
  exact addEntry_run (fill_file hn hf .UNKNOWN) hwrite

theorem addEntry_hashed : addEntry (f.hashed p) r = .ok () {r with index := r.index.addedEntry (f.hashed p)} :=
  addEntry_of_fill rfl (fill_file hn hf (.blob f.contents))

theorem hash_file : hashWorktreeEntry (f.toEntry p) r = .ok (.blob f.contents) r :=
  (bind_of_ok (readBlob_file hn hf)).trans rfl

end File

theorem addEntry_ok {e : BitIndexEntry} {r r' : Repo} (hk : e.oid.isKnown) (h : addEntry e r = .ok () r') :
    ∃ e', e.fill r = .ok e' r ∧ r' = {r with index := r.index.addedEntry e'} := by
  obtain ⟨e',t,hfill,hadd⟩ := bind_ok.mp h
  obtain ⟨rfl,hcases⟩ := fill_ok hfill
  have hk' : e'.oid.isKnown := by
    rcases hcases with rfl | ⟨m,-,rfl⟩ <;> exact hk
  have hsame := h.symm.trans (addEntry_of_fill hk' hfill)
  exact ⟨e',hfill,by simpa using hsame⟩

end Add

section Changes

theorem readBlobFromWorktree_ok {p : BitPath} {r r' : Repo} {b : Bytes} :
    readBlobFromWorktree p r = .ok b r' ↔
      ∃ f, r.worktree.symlinkMetadata p = .ok (some f) ∧ b = f.contents ∧ r' = r := by
  simp only [readBlobFromWorktree,bind_ok,ioGet_ok]
  constructor
  · rintro ⟨m,_,⟨hm,rfl⟩,h⟩
    cases m with
    | none => simp at h
    | some f =>
      obtain ⟨rfl,rfl⟩ : f.contents = b ∧ _ := by simpa using h
      exact ⟨f,hm,rfl,rfl⟩
  · rintro ⟨f,hf,rfl,rfl⟩
    exact ⟨some f,_,⟨hf,rfl⟩,rfl⟩

theorem hasChangesInner_maybe {mtime : Option ℕ} {o n : BitIndexEntry} (h : hasChangesInner mtime o n = .Maybe) :
    n.oid = .UNKNOWN ∧ o.mode = n.mode := by
  unfold hasChangesInner at h
  split at h
  · simp at h
  split at h
  · simp at h
  rename_i hk
  refine ⟨by simpa [Oid.isKnown] using hk,?_⟩
  by_contra hm
  simp only [ne_eq,hm,not_false_eq_true,if_true] at h
  split at h
  · simp at h
  split at h
  · simp at h
  split at h <;> simp at h

/-- Whether an entry changed is found out without a trace, unless the hash had to tell and told
that it did not: then the entry of the index is refreshed. -/
theorem hasChanges_ok {o n : BitIndexEntry} {r r' : Repo} {b : Bool} (h : hasChanges o n r = .ok b r') :
    (r' = r ∧ (b = false ↔ hasChangesInner r.indexMtime o n = .No)) ∨
    (b = false ∧ o.mode = n.mode ∧ ∃ f e', r.worktree.symlinkMetadata n.path = .ok (some f) ∧ o.oid = .blob f.contents ∧
      ({n with oid := o.oid} : BitIndexEntry).fill r = .ok e' r ∧ r' = {r with index := r.index.addedEntry e'}) := by
  simp only [hasChanges,run_getBind] at h
  cases hc : hasChangesInner r.indexMtime o n with
  | Yes =>
    obtain ⟨rfl,rfl⟩ : b = true ∧ r = r' := by simpa [hc,eq_comm] using h
    simp
  | No =>
    obtain ⟨rfl,rfl⟩ : b = false ∧ r = r' := by simpa [hc,eq_comm] using h
    simp
  | Maybe =>
    obtain ⟨hun,hmode⟩ := hasChangesInner_maybe hc
    simp only [hc] at h
    obtain ⟨oid,t,hhash,hrest⟩ := bind_ok.mp h
    have hread : ∃ f, r.worktree.symlinkMetadata n.path = .ok (some f) ∧ oid = .blob f.contents ∧ t = r := by
      simp only [hashWorktreeEntry,hun,Oid.isKnown,ne_eq,not_true_eq_false,decide_false,Bool.false_eq_true,if_false] at hhash
      obtain ⟨c,t',hc',hpure⟩ := bind_ok.mp hhash
      obtain ⟨f,hf,rfl,rfl⟩ := readBlobFromWorktree_ok.mp hc'
      obtain ⟨rfl,rfl⟩ : Oid.blob f.contents = oid ∧ t' = t := by simpa using hpure
      exact ⟨f,hf,rfl,rfl⟩
    obtain ⟨f,hf,rfl,rfl⟩ := hread
    by_cases hoid : o.oid = .blob f.contents
    · right
      simp only [hoid,ne_eq,not_true_eq_false,if_false] at hrest
      obtain ⟨_,t',hadd,hpure⟩ := bind_ok.mp hrest
      obtain ⟨rfl,rfl⟩ : b = false ∧ r' = t' := by simpa [eq_comm] using hpure
      obtain ⟨e',hfill,hr'⟩ := addEntry_ok (by simp [Oid.isKnown]) hadd
      exact ⟨rfl,hmode,f,e',hf,hoid,hoid ▸ hfill,hr'⟩
    · left
      obtain ⟨rfl,rfl⟩ : b = true ∧ r' = t := by simpa [hoid,eq_comm] using hrest
      simp

section Answer
variable {r : Repo} {o n : BitIndexEntry}

theorem hasChanges_yes (h : hasChangesInner r.indexMtime o n = .Yes) : hasChanges o n r = .ok true r := by
  rw [hasChanges,run_getBind,h]
  rfl

theorem hasChanges_no (h : hasChangesInner r.indexMtime o n = .No) : hasChanges o n r = .ok false r := by
  rw [hasChanges,run_getBind,h]
  rfl

variable {p : BitPath} {f : FileNode} (hn : p.Normal) (hf : r.worktree.look p = some (some f))
  (h : hasChangesInner r.indexMtime o (f.toEntry p) = .Maybe)
include hn hf h

theorem hasChanges_maybe : hasChanges o (f.toEntry p) r =
    if o.oid ≠ .blob f.contents then .ok true r
    else .ok false {r with index := r.index.addedEntry (f.hashed p)} := by
  rw [hasChanges,run_getBind,h]
  change (hashWorktreeEntry (f.toEntry p) >>= fun oid =>
    if o.oid ≠ oid then pure true else addEntry {f.toEntry p with oid := oid} >>= fun _ => pure false) r = _
  rw [bind_of_ok (hash_file hn hf)]
  by_cases hoid : o.oid = .blob f.contents
  · rw [if_neg (not_not_intro hoid),if_neg (not_not_intro hoid)]
    exact (bind_of_ok (addEntry_hashed hn hf)).trans rfl
  · rw [if_pos hoid,if_pos hoid]
    rfl

end Answer

end Changes

section Worktree

/-- An entry that the worktree iterator made of a file. -/
def Vouched (w : Worktree) (we : BitIndexEntry) : Prop :=
  ∃ f, w.look we.path = some (some f) ∧ we = f.toEntry we.path

theorem vouched_of_listing {w : Worktree} (hw : w.WellFormed) {we : BitIndexEntry} (h : we ∈ w.listing)
    (hb : we.isTree = false) : Vouched w we := by
  obtain ⟨⟨p,x⟩,hx,rfl⟩ := List.mem_map.mp h
  cases x with
  | inr s => simp [Worktree.entryOfItem,BitIndexEntry.isTree,BitIndexEntry.ofTreeEntry,FileMode.isTree] at hb
  | inl f =>
    have hlook : (w.sort entryLt).look p = some (some f) := (Forest.mem_entries_leaf (hw.distinct.sort entryLt)).mp hx
    rw [Forest.look_sort entryLt hw.distinct] at hlook
    exact ⟨f,hlook,rfl⟩

theorem vouched_of_iter {w : Worktree} (hw : w.WellFormed) {gitignore : Option Bytes → BitPath → Bool → Bool}
    {idx : BitIndexInner} {we : BitIndexEntry} (h : we ∈ worktreeTreeIter gitignore idx w) (hb : we.isTree = false) :
    Vouched w we := by
  rcases List.mem_cons.mp (List.mem_of_mem_filter h) with rfl | h
  · simp [BitIndexEntry.isTree,BitIndexEntry.ofTreeEntry,FileMode.isTree] at hb
  · exact vouched_of_listing hw h hb

variable {t : Tree}

/-- A file that the index holds as the tree has it is refreshed, whatever stat data it gets. -/
theorem Describes.addedEntry {idx : BitIndexInner} (ht : t.WellFormed) (h : idx.Describes t) {e : BitIndexEntry}
    {a : BlobMode × Bytes} (hlook : t.look e.path = some (some a)) (hmode : e.mode = .blob a.1) (hoid : e.oid = .blob a.2)
    (hs : e.stage = .NONE) : (idx.addedEntry e).Describes t := by
  obtain ⟨hvalid,hview⟩ := (BitIndexInner.describes_iff ht).mp h
  have hne : e.path ≠ [] := by
    intro hnil
    simp [hnil] at hlook
  refine (BitIndexInner.describes_iff ht).mpr ⟨hvalid.addedEntry hne (ht.normal (by simp [hlook])),fun k => ?_⟩
  have hclear (x : BitIndexEntry) (hx : x ∈ idx.entries) (hxs : x.stage = .NONE) (hpre : e.path <+: x.path) :
      x.path = e.path := by
    obtain ⟨b,hb,-⟩ := h.file ht hx
    obtain ⟨q,hq⟩ := hpre
    cases q with
    | nil => simpa using hq.symm
    | cons n q =>
      rw [← hq,Forest.look_append_of_ne_dir (by simp [hlook])] at hb
      simp at hb
  rw [BitIndexInner.view_addedEntry hs hne hclear]
  obtain ⟨q,s⟩ := k
  by_cases hq : q = e.path
  · subst hq
    by_cases hstage : s = .NONE <;> simp [BitIndexInner.treeView,hstage,hlook,hmode,hoid]
  · simp only [hq,if_false,hview]
    split
    · rename_i hpre
      have hdir : t.look q = some none := Forest.look_prefix (by simp [hlook]) hpre.2.2 hq
      simp [BitIndexInner.treeView,hdir]
    · rfl

theorem Vouched.symlinkMetadata {w : Worktree} (hw : w.WellFormed) {we : BitIndexEntry} {f : FileNode}
    (h : w.look we.path = some (some f)) : w.symlinkMetadata we.path = .ok (some f) :=
  Worktree.symlinkMetadata_eq (hw.normal (by simp [h])) h

/-- Completing the entry of a file in the worktree changes nothing that matters. -/
theorem Vouched.fill {r : Repo} (hw : r.worktree.WellFormed) {we e' : BitIndexEntry} (hv : Vouched r.worktree we)
    {oid : Oid} (h : ({we with oid := oid} : BitIndexEntry).fill r = .ok e' r) :
    e'.path = we.path ∧ e'.mode = we.mode ∧ e'.oid = oid ∧ e'.stage = .NONE := by
  obtain ⟨f,hf,hwe⟩ := hv
  have hstage : we.stage = .NONE := by rw [hwe]; rfl
  obtain ⟨-,rfl | ⟨m,hm,rfl⟩⟩ := fill_ok h
  · exact ⟨rfl,rfl,rfl,hstage⟩
  · obtain rfl : m = some f := by
      have hmeta := Vouched.symlinkMetadata hw hf
      simpa using hm.symm.trans hmeta
    exact ⟨rfl,by rw [hwe]; rfl,rfl,rfl⟩

/-- The index may be refreshed, but goes on describing the tree; all else is as it was. -/
def Refreshed (t : Tree) (r r' : Repo) : Prop := ∃ idx, r' = {r with index := idx} ∧ idx.Describes t

theorem Refreshed.refl {r : Repo} (h : r.index.Describes t) : Refreshed t r r := ⟨r.index,rfl,h⟩

theorem Refreshed.trans {r r' r'' : Repo} (h : Refreshed t r r') (h' : Refreshed t r' r'') : Refreshed t r r'' := by
  obtain ⟨idx,rfl,-⟩ := h
  obtain ⟨idx',rfl,hidx'⟩ := h'
  exact ⟨idx',rfl,hidx'⟩

theorem isWorktreeEntryModified_refreshed (ht : t.WellFormed) {r r' : Repo} {we : BitIndexEntry} {b : Bool}
    (hd : r.index.Describes t) (hw : r.worktree.WellFormed) (hv : Vouched r.worktree we)
    (h : isWorktreeEntryModified we r = .ok b r') : Refreshed t r r' := by
  simp only [isWorktreeEntryModified,run_getBind] at h
  cases ho : r.index.findEntry we.key with
  | none =>
    obtain ⟨-,rfl⟩ : true = b ∧ r = r' := by simpa [ho] using h
    exact .refl hd
  | some o =>
    simp only [ho] at h
    rcases hasChanges_ok h with ⟨rfl,-⟩ | ⟨-,hmode,f,e',hf,hoid,hfill,rfl⟩
    · exact .refl hd
    · obtain ⟨hpath,hmode',hoid',hstage⟩ := Vouched.fill hw hv hfill
      obtain ⟨hmem,hkey⟩ := BitIndexInner.findEntry_some ho
      have hopath : o.path = we.path := congrArg Prod.fst hkey
      obtain ⟨a,hlook,hfile⟩ := hd.file ht hmem
      refine ⟨_,rfl,Describes.addedEntry ht hd (a := a) ?_ ?_ ?_ hstage⟩
      · rw [hpath,← hopath,hlook]
      · rw [hmode',← hmode,hfile.2.1]
      · rw [hoid',hfile.2.2.1]

end Worktree

end Libbit
