import Libbit.Frame
import Libbit.Refresh

/-! What the passes of a migration leave alone (`checkout.rs`): a file goes only where it is told to, and nothing is written
over a file that is there. -/
namespace Libbit

open Lib

namespace Worktree
variable {w w' : Worktree} {p q : BitPath} {f : FileNode}

/-! ### Calls that make something -/

theorem look_modify_of_free {d : BitPath} {n : Name} {g : Worktree → Worktree} {x : Option (Option FileNode)}
    (hg : w.look d = some none → (w.modify g d).look q = if d++[n] <+: q then x else w.look q) (hfree : w.look (d++[n]) = none)
    (hf : w.look q = some (some f)) : (w.modify g d).look q = some (some f) := by
  by_cases hd : w.look d = some none
  · rw [hg hd,if_neg,hf]
    intro hpre
    by_cases hself : d++[n] = q
    · rw [hself,hf] at hfree
      cases hfree
    · have hdir : w.look (d++[n]) = some none := Forest.look_prefix (by simp [hf]) hpre hself
      rw [hfree] at hdir
      cases hdir
  · have hnone : w.sub? d = none := by
      by_contra hsub
      obtain ⟨s,hs⟩ := Option.ne_none_iff_exists'.mp hsub
      exact hd (Forest.look_eq_dir.mpr ⟨s,hs⟩)
    rw [Forest.modify_of_sub?_none hnone,hf]

theorem look_place_of_free (hfree : w.look p = none) (g : FileNode) (hf : w.look q = some (some f)) :
    (w.place p g).look q = some (some f) := by
  obtain ⟨d,n,rfl⟩ := BitPath.eq_parent_append (p := p) (by rintro rfl; simp at hfree)
  rw [place,BitPath.parent_append,BitPath.fileName_append]
  exact look_modify_of_free (fun hd => Forest.look_modify_leaf hd n g q) hfree hf

theorem look_placeDir_of_free (hfree : w.look p = none) (hf : w.look q = some (some f)) :
    (w.placeDir p).look q = some (some f) := by
  obtain ⟨d,n,rfl⟩ := BitPath.eq_parent_append (p := p) (by rintro rfl; simp at hfree)
  rw [placeDir,BitPath.parent_append,BitPath.fileName_append]
  exact look_modify_of_free (fun hd => Forest.look_modify_node hd n .nil q) hfree hf

section Creation
variable (hf : w.look q = some (some f))
include hf

theorem createDir_keeps (h : w.createDir p = .ok w') : w'.look q = some (some f) := by
  unfold createDir at h
  cases hp : w.resolve false p with
  | error e => simp [hp,bind,Except.bind] at h
  | ok p' =>
    cases hlook : w.look p' with
    | some x => simp [hp,hlook,bind,Except.bind] at h
    | none =>
      obtain rfl : w.placeDir p' = w' := by simpa [hp,hlook,bind,Except.bind] using h
      exact look_placeDir_of_free hlook hf

theorem createNew_keeps {g : FileNode} (h : w.createNew p g = .ok w') : w'.look q = some (some f) := by
  unfold createNew at h
  cases hp : w.resolve false p with
  | error e => simp [hp,bind,Except.bind] at h
  | ok p' =>
    cases hlook : w.look p' with
    | some x => simp [hp,hlook,bind,Except.bind] at h
    | none =>
      obtain rfl : w.place p' g = w' := by simpa [hp,hlook,bind,Except.bind] using h
      exact look_place_of_free hlook g hf

theorem symlink_keeps {target : Bytes} {mtime inode : ℕ} (h : w.symlink target p mtime inode = .ok w') :
    w'.look q = some (some f) := by
  unfold symlink at h
  split at h
  · cases h
  · exact createNew_keeps hf h

theorem createDirAll_keeps (h : w.createDirAll p = .ok w') : w'.look q = some (some f) := by
  induction p using List.reverseRecOn generalizing w' with
  | nil =>
    obtain rfl : w = w' := by simpa [createDirAll,createDirAllRev] using h
    exact hf
  | append_singleton d n ih =>
    rw [createDirAll_append] at h
    split at h
    · rename_i hmade
      exact createDir_keeps hf (h ▸ hmade)
    · cases hd : w.createDirAll d with
      | error e => simp [hd,bind,Except.bind] at h
      | ok v =>
        have hv := ih hd
        simp only [hd,bind,Except.bind] at h
        split at h
        · rename_i hmade
          exact createDir_keeps hv (h ▸ hmade)
        · split at h
          · exact Except.ok.inj h ▸ hv
          · cases h
    · split at h
      · exact Except.ok.inj h ▸ hf
      · cases h

end Creation

/-! ### Calls that take something away -/

/-- No link has to be followed on the way to the path. -/
def NoLinkAbove (w : Worktree) (p : BitPath) : Prop :=
  ∀ d, d <+: p → d ≠ p → ∀ g, w.look d = some (some g) → g.mode ≠ .LINK

theorem scan_at {dir todo : BitPath} (hn : todo.Normal)
    (hl : ∀ d, d <+: todo → d ≠ todo → ∀ g, w.look (dir++d) = some (some g) → g.mode ≠ .LINK) {s : Scan}
    (h : w.scan false dir todo = .ok s) : s = .at (dir++todo) := by
  induction todo generalizing dir with
  | nil => simpa [scan,eq_comm] using h
  | cons n rest ih =>
    rw [scan_cons (hn n List.mem_cons_self)] at h
    cases hlook : w.look (dir++[n]) with
    | none =>
      simp only [hlook] at h
      split at h
      · rename_i hrest
        rw [hrest]
        exact (Except.ok.inj h).symm
      · cases h
    | some x =>
      cases x with
      | none =>
        simp only [hlook] at h
        have hrec := @ih (dir++[n]) (fun m hm => hn m (List.mem_cons_of_mem _ hm))
          (fun d hd hne g hg => hl (n::d) (by simpa [List.cons_prefix_cons] using hd) (by simpa using hne) g (by simpa using hg)) h
        simpa using hrec
      | some g =>
        simp only [hlook] at h
        split at h
        · rename_i hlink
          have hrest : rest ≠ [] := by simpa using hlink.2
          exact absurd hlink.1 (hl [n] ⟨rest,rfl⟩ (by simpa using hrest.symm) g hlook)
        · split at h
          · rename_i hrest
            rw [hrest]
            exact (Except.ok.inj h).symm
          · cases h

/-- Where no link is on the way a path names its own place or none. -/
theorem resolve_at {p' : BitPath} (hn : p.Normal) (hl : w.NoLinkAbove p) (h : w.resolve false p = .ok p') : p' = p := by
  unfold resolve resolveFrom at h
  cases hs : w.scan false [] p with
  | error e => simp [hs] at h
  | ok s =>
    obtain rfl : s = .at p := @scan_at w [] p hn hl s hs
    simpa [hs,eq_comm] using h

/-- What is left after a call that takes something away: nothing is new, and the file `f` is still at `q`. -/
structure Spares (w₀ : Worktree) (q : BitPath) (f : FileNode) (w : Worktree) : Prop where
  old : ∀ d g, w.look d = some (some g) → w₀.look d = some (some g)
  file : w.look q = some (some f)

namespace Spares
variable {w₀ : Worktree} (h : Spares w₀ q f w) (hn : p.Normal) (hl : w₀.NoLinkAbove p)
include h

theorem noLinkAbove (hl : w₀.NoLinkAbove p) : w.NoLinkAbove p := fun d hd hne g hg => hl d hd hne g (h.old d g hg)

theorem unlink (hp : ¬p <+: q) : Spares w₀ q f (w.unlink p) := by
  have hne : p ≠ [] := fun he => hp (he ▸ List.nil_prefix)
  refine ⟨fun d g hd => ?_,?_⟩
  · rw [look_unlink hne] at hd
    split at hd
    · cases hd
    · exact h.old d g hd
  · rw [look_unlink hne,if_neg hp,h.file]

include hn hl

theorem removeDirAll (hp : ¬p <+: q) (hw : w.removeDirAll p = .ok w') : Spares w₀ q f w' := by
  have hne : p ≠ [] := fun he => hp (he ▸ List.nil_prefix)
  unfold Worktree.removeDirAll at hw
  cases hr : w.resolve false p with
  | error e => simp [hr,bind,Except.bind] at hw
  | ok p' =>
    obtain rfl := resolve_at hn (h.noLinkAbove hl) hr
    cases hlook : w.look p' with
    | none => simp [hr,hlook,bind,Except.bind] at hw
    | some x =>
      cases x with
      | none =>
        obtain rfl : w.unlink p' = w' := by simpa [hr,hlook,hne,bind,Except.bind] using hw
        exact h.unlink hp
      | some g =>
        by_cases hlink : g.mode = .LINK
        · obtain rfl : w.unlink p' = w' := by simpa [hr,hlook,hlink,bind,Except.bind] using hw
          exact h.unlink hp
        · simp [hr,hlook,hlink,bind,Except.bind] at hw

theorem removeFile (hp : p ≠ q) (hw : w.removeFile p = .ok w') : Spares w₀ q f w' := by
  unfold Worktree.removeFile at hw
  cases hr : w.resolve false p with
  | error e => simp [hr,bind,Except.bind] at hw
  | ok p' =>
    obtain rfl := resolve_at hn (h.noLinkAbove hl) hr
    cases hlook : w.look p' with
    | none => simp [hr,hlook,bind,Except.bind] at hw
    | some x =>
      cases x with
      | none => simp [hr,hlook,bind,Except.bind] at hw
      | some g =>
        obtain rfl : w.unlink p' = w' := by simpa [hr,hlook,bind,Except.bind] using hw
        refine h.unlink fun hpre => ?_
        have hdir : w.look p' = some none := Forest.look_prefix (by simp [h.file]) hpre hp
        rw [hlook] at hdir
        cases hdir

/-- A directory that is removed because it is empty does not hold the file. -/
theorem removeDir (hw : w.removeDir p = .ok w') : Spares w₀ q f w' := by
  unfold Worktree.removeDir at hw
  cases hr : w.resolve false p with
  | error e => simp [hr,bind,Except.bind] at hw
  | ok p' =>
    obtain rfl := resolve_at hn (h.noLinkAbove hl) hr
    cases hlook : w.look p' with
    | none => simp [hr,hlook,bind,Except.bind] at hw
    | some x =>
      cases x with
      | some g => simp [hr,hlook,bind,Except.bind] at hw
      | none =>
        by_cases hempty : p' ≠ [] ∧ w.sub? p' = some .nil
        · obtain rfl : w.unlink p' = w' := by simpa [hr,hlook,hempty,bind,Except.bind] using hw
          refine h.unlink fun hpre => ?_
          obtain ⟨t,rfl⟩ := hpre
          have hfile := h.file
          rw [Forest.look_of_sub? hempty.2] at hfile
          cases t with
          | nil => simp at hfile
          | cons n t => simp [Forest.look] at hfile
        · simp only [hr,hlook,bind,Except.bind,if_neg hempty] at hw
          cases hw

end Spares

end Worktree

/-! ### The passes -/

section Passes
variable {P : Repo → Prop} {w : Worktree} {q : BitPath} {f : FileNode} {e : TreeEntry}

theorem io_holds {g : Worktree → IoResult Worktree}
    (h : ∀ r w', P r → g r.worktree = .ok w' → P {r with worktree := w'}) : Holds P (io g) := by
  intro r hr
  cases hg : g r.worktree with
  | error x =>
    rw [io_of_error hg]
    exact ⟨hr,trivial⟩
  | ok w' =>
    rw [io_of_ok hg]
    exact h r w' hr hg

section Removal
variable (hn : e.path.Normal) (hl : w.NoLinkAbove e.path)
include hn hl

theorem applyRmrf_holds (hq : ¬e.path <+: q) : Holds (fun r => w.Spares q f r.worktree) (applyRmrf e) := by
  refine Keeps.seq ?_ (Holds.modifyIndex (fun _ _ h => h) _)
  refine Keeps.getBind fun _ _ => Keeps.ite (fun _ => ?_) fun _ => Keeps.pure _
  exact io_holds fun _ _ hr h => hr.removeDirAll hn hl hq h

theorem applyRm_holds (hq : e.path ≠ q) : Holds (fun r => w.Spares q f r.worktree) (applyRm e) := by
  have hn' : e.path.parent.Normal := hn.mono e.path.parent_prefix
  have hl' : w.NoLinkAbove e.path.parent := fun d hd hne => hl d (hd.trans e.path.parent_prefix) fun he => by
    refine hne (hd.eq_of_length_le ?_)
    rw [he]
    exact e.path.parent_prefix.length_le
  refine Keeps.seq ?_ (Holds.modifyIndex (fun _ _ h => h) _)
  refine Keeps.getBind fun _ _ => Keeps.ite (fun _ => ?_) fun _ => Keeps.pure _
  refine (io_holds fun _ _ hr h => hr.removeFile hn hl hq h).seq ?_
  refine (Holds.ioGet _).bind fun _ => Keeps.ite (fun _ => ?_) fun _ => Keeps.pure _
  exact io_holds fun _ _ hr h => hr.removeDir hn' hl' h

end Removal

section Creation

theorem applyMkdir_holds (e : TreeEntry) : Holds (fun r => r.worktree.look q = some (some f)) (applyMkdir e) :=
  io_holds fun _ _ hr h => Worktree.createDirAll_keeps hr h

theorem makeFile_holds (e : TreeEntry) (bytes : Bytes) (stamp : ℕ × ℕ) :
    Holds (fun r => r.worktree.look q = some (some f)) (makeFile e bytes stamp) := by
  unfold makeFile
  split
  · exact io_holds fun _ _ hr h => Worktree.symlink_keeps hr h
  · exact io_holds fun _ _ hr h => Worktree.createNew_keeps hr h
  · exact Keeps.throw trivial

theorem applyCreate_holds (env : Env) (e : TreeEntry) :
    Holds (fun r => r.worktree.look q = some (some f)) (applyCreate env e) := by
  refine (Holds.readToBytes _).bind fun bytes => ?_
  refine (io_holds fun _ _ hr h => Worktree.createDirAll_keeps hr h).seq ?_
  refine (Holds.nextStamp (fun _ _ h => h) env).bind fun stamp => ?_
  refine (makeFile_holds e bytes stamp).seq ?_
  exact (Holds.fromRelativePath _).bind fun _ => Holds.addEntry (fun _ _ h => h) _

end Creation

/-- A migration that does not mean the file `q` of `w`, nor a directory above it, and has no link on the way to what it removes. -/
structure Migration.Misses (m : Migration) (w : Worktree) (q : BitPath) : Prop where
  rmrfs : ∀ e ∈ m.rmrfs, e.path.Normal ∧ w.NoLinkAbove e.path ∧ ¬e.path <+: q
  rms : ∀ e ∈ m.rms, e.path.Normal ∧ w.NoLinkAbove e.path ∧ e.path ≠ q

/-- However the passes end, the file is still there. -/
theorem applyMigration_ends (env : Env) {m : Migration} {r : Repo} (hm : m.Misses r.worktree q)
    (hf : r.worktree.look q = some (some f)) : Ends (fun _ s => s.worktree.look q = some (some f))
      (fun s => s.worktree.look q = some (some f)) (applyMigration env m r) := by
  have hrmrfs : Holds (fun s => r.worktree.Spares q f s.worktree) (m.rmrfs.forM applyRmrf) :=
    Keeps.forM fun e he => applyRmrf_holds (hm.rmrfs e he).1 (hm.rmrfs e he).2.1 (hm.rmrfs e he).2.2
  have hrms : Holds (fun s => r.worktree.Spares q f s.worktree) (m.rms.forM applyRm) :=
    Keeps.forM fun e he => applyRm_holds (hm.rms e he).1 (hm.rms e he).2.1 (hm.rms e he).2.2
  have hcreation : Holds (fun s => s.worktree.look q = some (some f)) (do
      m.mkdirs.forM applyMkdir
      m.creates.forM (applyCreate env)) :=
    (Keeps.forM fun e _ => applyMkdir_holds e).seq (Keeps.forM fun e _ => applyCreate_holds env e)
  have hstart : r.worktree.Spares q f r.worktree := ⟨fun _ _ h => h,hf⟩
  unfold applyMigration
  refine Ends.bind ((Ends.of_keeps hrmrfs hstart).mono (fun _ _ h => h) fun _ h => h.file) fun _ s hs => ?_
  refine Ends.bind ((Ends.of_keeps hrms hs).mono (fun _ _ h => h) fun _ h => h.file) fun _ s hs => ?_
  exact Ends.of_keeps hcreation hs.file

end Passes

end Libbit
