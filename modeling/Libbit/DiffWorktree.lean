import Libbit.AddAll

/-! The difference between the index and the worktree, path by path. The walk yields the files in the order in which the
index keeps its paths, so the merge join misses none and lists none twice. -/
namespace Libbit

open Lib

/-! ### The walk -/

theorem pathCmpExplicit_append (pre a b : Bytes) (x y : Bool) :
    pathCmpExplicit (pre++a) x (pre++b) y = pathCmpExplicit a x b y := by
  have hlt (u v : Bytes) : pre++u < pre++v ↔ u < v := by
    induction pre with
    | nil => rfl
    | cons k pre ih => exact List.cons_lt_cons_self.trans ih
  have hcmp (u v : Bytes) : cmp (pre++u) (pre++v) = cmp u v := by simp only [cmp,cmpUsing,hlt]
  have hmin : min (pre++a).length (pre++b).length = pre.length+min a.length b.length := by
    simp only [List.length_append]
    omega
  have htake (u : Bytes) (k : ℕ) : (pre++u).take (pre.length+k) = pre++u.take k := List.take_length_add_append k
  have hget (u : Bytes) (k : ℕ) : (pre++u)[pre.length+k]? = u[k]? := by
    rw [List.getElem?_append_right (Nat.le_add_right _ _),Nat.add_sub_cancel_left]
  simp only [pathCmpExplicit,hmin,htake,hget,hcmp]

/-- The order of the walk: it compares the absolute paths of two children of a directory. -/
def childLt (dir : Bytes) (x y : Name × Bool) : Bool := pathCmpExplicit (dir++SLASH::x.1) x.2 (dir++SLASH::y.1) y.2 = .lt

/-- The directory that they share does not matter. -/
theorem childLt_eq (dir : Bytes) : childLt dir = entryLt := by
  funext x y
  have hcmp := pathCmpExplicit_append (dir++[SLASH]) x.1 y.1 x.2 y.2
  simp only [List.append_assoc,List.singleton_append] at hcmp
  rw [childLt,entryLt,hcmp]

/-- `jwalk` from a directory: the children of each directory are sorted by their absolute paths. -/
def Worktree.walk (dir : Bytes) : Worktree → Worktree
  | .nil => .nil
  | .leaf n f rest => Forest.insertLeaf (childLt dir) n f (walk dir rest)
  | .node n sub rest => Forest.insertNode (childLt dir) n (walk (dir++SLASH::n) sub) (walk dir rest)

theorem Worktree.walk_eq (dir : Bytes) (w : Worktree) : w.walk dir = w.sort entryLt := by
  induction w generalizing dir with
  | nil => rfl
  | leaf n f rest ih => rw [walk,ih,childLt_eq,Forest.sort]
  | node n sub rest ihs ihr => rw [walk,ihs,ihr,childLt_eq,Forest.sort]

/-! ### The answer of change detection -/

section Answer
variable {r : Repo} {o n : BitIndexEntry}

def HasChanges (r : Repo) (o n : BitIndexEntry) : Prop := ∃ r', hasChanges o n r = .ok true r'

theorem hasChanges_iff (hw : r.worktree.WellFormed) (hn : Vouched r.worktree n) :
    HasChanges r o n ↔ verdict r.indexMtime r.worktree (o,n) = .Yes := by
  rw [HasChanges,hasChanges_run hw hn]
  cases verdict r.indexMtime r.worktree (o,n) <;> simp

/-- Entries that are refreshed on the way do not change the answer. -/
theorem hasChanges_refreshed (hw : r.worktree.WellFormed) (hn : Vouched r.worktree n) (idx : BitIndexInner) :
    HasChanges {r with index := idx} o n ↔ HasChanges r o n :=
  (hasChanges_iff (r := {r with index := idx}) hw hn).trans (hasChanges_iff hw hn).symm

end Answer

/-! ### The difference -/

/-- Every path is listed at most once: as new if it is that of a file that is neither tracked nor ignored, as deleted if it
is that of an entry without a file, and as modified if the entry and the file differ by change detection. -/
structure WorkspaceStatus.Exact (st : WorkspaceStatus) (env : Env) (r : Repo) : Prop where
  once : (st.new.map BitIndexEntry.path++(st.modified.map fun x => x.1.path)++st.deleted.map BitIndexEntry.path).Nodup
  new_iff : ∀ n, n ∈ st.new ↔ Vouched r.worktree n ∧ (∀ o ∈ r.index.entries, o.path ≠ n.path) ∧
    env.gitignore r.worktree.gitignoreContents n.path false = false
  deleted_iff : ∀ o, o ∈ st.deleted ↔ o ∈ r.index.entries ∧ ∀ f, r.worktree.look o.path ≠ some (some f)
  modified_iff : ∀ o n, (o,n) ∈ st.modified ↔ o ∈ r.index.entries ∧ Vouched r.worktree n ∧ o.path = n.path ∧
    HasChanges r o n

section Exact
variable {env : Env} {r : Repo} {o n : BitIndexEntry} {d c : List BitIndexEntry} {m : List (BitIndexEntry × BitIndexEntry)}

/-- Without conflicts no two entries share a path. -/
theorem BitIndexInner.Valid.paths_strict {idx : BitIndexInner} (h : idx.Valid)
    (hstage : ∀ e ∈ idx.entries, e.stage = .NONE) : idx.entries.Pairwise fun e e' => e.path.asBytes < e'.path.asBytes := by
  refine h.sorted.imp_of_mem fun he he' hlt => ?_
  rcases Prod.Lex.lt_iff.mp hlt with hlt | ⟨-,hlt⟩
  · exact hlt
  · simp only [BitIndexEntry.key,ofLex_toLex,hstage _ he,hstage _ he'] at hlt
    exact absurd hlt (lt_irrefl _)

theorem isIgnored_of_tracked (env : Env) (ho : o ∈ r.index.entries) (hpath : o.path = n.path) :
    isIgnored env.gitignore r.index r.worktree n = false := by
  have htracked : r.index.entries.any (fun x => x.path = n.path) = true :=
    List.any_eq_true.mpr ⟨o,ho,decide_eq_true hpath⟩
  rw [isIgnored,htracked]
  rfl

theorem isIgnored_of_untracked (hn : Vouched r.worktree n) (huntracked : ∀ o ∈ r.index.entries, o.path ≠ n.path) :
    isIgnored env.gitignore r.index r.worktree n = env.gitignore r.worktree.gitignoreContents n.path false := by
  have hany : r.index.entries.any (fun x => x.path = n.path) = false :=
    List.any_eq_false.mpr fun o ho h => huntracked o ho (of_decide_eq_true h)
  have hfile : n.isTree = false := by
    obtain ⟨f,-,hn⟩ := hn
    rw [hn]
    rfl
  rw [isIgnored,hany,hfile]
  rfl

namespace Joined
variable (hj : Joined env r d m c) (hv : r.index.Valid) (hw : r.worktree.WellFormed)
include hj hv hw

theorem mem_new_iff : n ∈ c ↔ Vouched r.worktree n ∧ (∀ o ∈ r.index.entries, o.path ≠ n.path) ∧
    env.gitignore r.worktree.gitignoreContents n.path false = false := by
  have hmem := hj.mem_right_iff hv.paths_sorted (Worktree.worktreeIter_sorted hw) (b := n)
  rw [hmem,Worktree.mem_worktreeIter hw]
  constructor
  · rintro ⟨⟨hn,hign⟩,hne⟩
    have huntracked : ∀ o ∈ r.index.entries, o.path ≠ n.path := fun o ho h => hne o ho (congrArg BitPath.asBytes h)
    exact ⟨hn,huntracked,(isIgnored_of_untracked hn huntracked).symm.trans hign⟩
  · rintro ⟨hn,huntracked,hign⟩
    refine ⟨⟨hn,(isIgnored_of_untracked hn huntracked).trans hign⟩,fun o ho h => ?_⟩
    exact huntracked o ho (path_of_asBytes hv hw ho hn h)

variable (hstage : ∀ e ∈ r.index.entries, e.stage = .NONE)
include hstage

theorem mem_deleted_iff : o ∈ d ↔ o ∈ r.index.entries ∧ ∀ f, r.worktree.look o.path ≠ some (some f) := by
  rw [hj.mem_left_iff (hv.paths_strict hstage) (Worktree.worktreeIter_sorted hw)]
  refine and_congr_right fun ho => ?_
  constructor
  · intro hne f hf
    -- a tracked file is not ignored, so the walk yields it
    have hn : Vouched r.worktree (f.toEntry o.path) := Worktree.vouched_file hf
    have hmem := (Worktree.mem_worktreeIter hw).mpr ⟨hn,isIgnored_of_tracked env ho rfl⟩
    exact hne _ hmem rfl
  · intro hfile n hn hkey
    obtain ⟨hvouched,-⟩ := (Worktree.mem_worktreeIter hw).mp hn
    have hpath := path_of_asBytes hv hw ho hvouched hkey.symm
    obtain ⟨f,hf,-⟩ := hvouched
    exact hfile f (hpath ▸ hf)

theorem mem_paired_iff : (o,n) ∈ m ↔ o ∈ r.index.entries ∧ Vouched r.worktree n ∧ o.path = n.path := by
  rw [hj.mem_both_iff (hv.paths_strict hstage) (Worktree.worktreeIter_sorted hw)]
  refine and_congr_right fun ho => ?_
  constructor
  · rintro ⟨hn,hkey⟩
    obtain ⟨hvouched,-⟩ := (Worktree.mem_worktreeIter hw).mp hn
    exact ⟨hvouched,path_of_asBytes hv hw ho hvouched hkey⟩
  · rintro ⟨hn,hpath⟩
    exact ⟨(Worktree.mem_worktreeIter hw).mpr ⟨hn,isIgnored_of_tracked env ho hpath⟩,congrArg BitPath.asBytes hpath⟩

theorem once : (c.map BitIndexEntry.path++(m.map fun x => x.1.path)++d.map BitIndexEntry.path).Nodup := by
  have hkeys := hj.nodup_keys (hv.paths_strict hstage) (Worktree.worktreeIter_sorted hw)
  refine List.Nodup.of_map BitPath.asBytes ?_
  rw [List.map_append,List.map_append,List.map_map,List.map_map,List.map_map]
  exact hkeys

end Joined

/-- A file gave way to a directory, another one grew, and a third one is there next to one that is ignored. -/
def unstagedRepo : Repo :=
  {Repo.init with
    index := ⟨[⟨[[97]],.blob .REG,.blob [1],.NONE,.unknown⟩,⟨[[98]],.blob .REG,.blob [2],.NONE,⟨5,2,1⟩⟩,sampleEntry],none⟩
    indexMtime := some 7
    worktree := .node [97] (.leaf [120] (sampleFile .LINK 6 3) .nil) (.leaf [98] (sampleFile .REG 6 3)
      (.leaf [102] (sampleFile .REG 5 1) (.leaf [105] (sampleFile .REG 6 3) .nil)))}

def ignoringEnv : Env := {Env.plain with gitignore := fun _ p _ => p = [[105]]}

example : diffWorktree ignoringEnv unstagedRepo = .ok ⟨[(sampleFile .LINK 6 3).toEntry [[97],[120]]],
    [(⟨[[98]],.blob .REG,.blob [2],.NONE,⟨5,2,1⟩⟩,(sampleFile .REG 6 3).toEntry [[98]])],
    [⟨[[97]],.blob .REG,.blob [1],.NONE,.unknown⟩]⟩ unstagedRepo := by rfl

end Exact

end Libbit
