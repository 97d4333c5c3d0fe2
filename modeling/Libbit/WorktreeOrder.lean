import Libbit.Refresh
import Libbit.NameOrder

/-! The files of the worktree in the order of the walk: the order of the bytes of their paths. -/
namespace Libbit

open Lib

namespace Worktree
variable {w : Worktree} {gitignore : Option Bytes → BitPath → Bool → Bool} {idx : BitIndexInner} {n : BitIndexEntry}

/-- What the walk yields besides directories. -/
def fileListing (w : Worktree) : List BitIndexEntry := w.listing.filter fun e => !e.isTree

theorem paths_of_entries (f : Worktree) (pre : BitPath) :
    (((f.entries pre).map entryOfItem).filter fun e => !e.isTree).map BitIndexEntry.path =
      (Tree.flatten pre (f.map fun x => (x.mode,x.contents))).map Prod.fst := by
  have hfile (p : BitPath) (x : FileNode) : (entryOfItem (p,.inl x)).isTree = false := rfl
  have hdir (p : BitPath) (s : Worktree) : (entryOfItem (p,.inr s)).isTree = true := rfl
  induction f generalizing pre with
  | nil => rfl
  | leaf n a rest ih =>
    rw [Forest.entries,List.map_cons,List.filter_cons_of_pos (by simp [hfile]),List.map_cons,ih]
    rfl
  | node n sub rest ihs ihr =>
    rw [Forest.entries,List.map_cons,List.filter_cons_of_neg (by simp [hdir]),List.map_append,List.filter_append,
      List.map_append,ihs,ihr,Forest.map,Tree.flatten,List.map_append]

theorem fileListing_sorted (hw : w.WellFormed) : w.fileListing.Pairwise fun e e' => e.path.asBytes < e'.path.asBytes := by
  have hnames : w.AllNames FreeName := hw.names.imp fun _ hn => hn.2.2.2
  have hsorted := (Tree.ordered_sort (hnames.map fun x => (x.mode,x.contents)) (hw.distinct.map _)).flatten_sorted []
  rw [← Forest.map_sort] at hsorted
  have hpaths : (w.fileListing.map BitIndexEntry.path).Pairwise fun p q => p.asBytes < q.asBytes := by
    rw [fileListing,listing,paths_of_entries]
    exact List.pairwise_map.mpr hsorted
  rwa [List.pairwise_map] at hpaths

theorem mem_fileListing (hw : w.WellFormed) : n ∈ w.fileListing ↔ Vouched w n := by
  rw [fileListing,List.mem_filter]
  constructor
  · rintro ⟨hmem,hfile⟩
    exact vouched_of_listing hw hmem (by simpa using hfile)
  · rintro ⟨f,hlook,hn⟩
    have hlook' : (w.sort entryLt).look n.path = some (some f) := by rw [Forest.look_sort entryLt hw.distinct,hlook]
    refine ⟨List.mem_map.mpr ⟨(n.path,.inl f),?_,hn.symm⟩,by rw [hn]; rfl⟩
    exact (Forest.mem_entries_leaf (hw.distinct.sort entryLt)).mpr hlook'

theorem worktreeIter_eq : worktreeIter gitignore idx w = w.fileListing.filter fun e => !isIgnored gitignore idx w e := by
  have hroot : (BitIndexEntry.ofTreeEntry ⟨.TREE,[],.UNKNOWN⟩).isTree = true := rfl
  rw [worktreeIter,worktreeTreeIter,List.filter_comm,List.filter_cons_of_neg (by simp [hroot]),fileListing]

theorem worktreeIter_sorted (hw : w.WellFormed) :
    (worktreeIter gitignore idx w).Pairwise fun e e' => e.path.asBytes < e'.path.asBytes := by
  rw [worktreeIter_eq]
  exact (fileListing_sorted hw).filter _

theorem worktreeIter_nodup (hw : w.WellFormed) : (worktreeIter gitignore idx w).Nodup :=
  (worktreeIter_sorted hw).imp fun hlt => ne_of_apply_ne (fun e => e.path.asBytes) hlt.ne

theorem mem_worktreeIter (hw : w.WellFormed) :
    n ∈ worktreeIter gitignore idx w ↔ Vouched w n ∧ isIgnored gitignore idx w n = false := by
  rw [worktreeIter_eq,List.mem_filter,mem_fileListing hw,Bool.not_eq_true']

end Worktree

end Libbit
