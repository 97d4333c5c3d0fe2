import Libbit.Lib.Forest
import Libbit.Path

/-! The objects that iterators yield (`obj.rs`, `obj/tree.rs`, `index/index_entry.rs`). Object
ids are symbolic: the id of a blob or of a tree is its contents, which is what a hash without
collisions over a complete object store amounts to. -/
namespace Libbit

inductive BlobMode
  | REG | EXEC | LINK
  deriving DecidableEq, Repr

/-- Submodules are left out: every iterator filters them. -/
inductive FileMode
  | blob (mode : BlobMode)
  | TREE
  deriving DecidableEq, Repr

def FileMode.isTree : FileMode → Bool
  | .TREE => true
  | .blob _ => false

/-- A tree object with everything below it. -/
abbrev Tree := Lib.Forest Name (BlobMode × Bytes)

inductive Oid
  | UNKNOWN
  | blob (contents : Bytes)
  | tree (entries : Tree)
  deriving DecidableEq, Repr

namespace Oid

def EMPTY_TREE : Oid := .tree .nil

def isKnown (o : Oid) : Bool := o ≠ .UNKNOWN

theorem tree_ne_blob (t : Tree) (c : Bytes) : Oid.tree t ≠ .blob c := by simp

end Oid

structure TreeEntry where
  mode : FileMode
  path : BitPath
  oid : Oid
  deriving DecidableEq, Repr

inductive MergeStage
  | NONE | BASE | OURS | THEIRS
  deriving DecidableEq, Repr

namespace MergeStage

def toFin : MergeStage → Fin 4
  | NONE => 0
  | BASE => 1
  | OURS => 2
  | THEIRS => 3

def isUnmerged (s : MergeStage) : Bool := s ≠ NONE

end MergeStage

/-- The stat data that change detection reads. -/
structure Stat where
  mtime : ℕ
  inode : ℕ
  filesize : ℕ
  deriving DecidableEq, Repr

def UNKNOWN_SIZE : ℕ := 2^32-1

/-- The stat data of an entry made from a tree entry. -/
def Stat.unknown : Stat := ⟨0,0,UNKNOWN_SIZE⟩

structure BitIndexEntry where
  path : BitPath
  mode : FileMode
  oid : Oid
  stage : MergeStage
  stat : Stat
  deriving DecidableEq, Repr

namespace BitIndexEntry

def ofTreeEntry (e : TreeEntry) : BitIndexEntry := ⟨e.path,e.mode,e.oid,.NONE,.unknown⟩

def toTreeEntry (e : BitIndexEntry) : TreeEntry := ⟨e.mode,e.path,e.oid⟩

def isTree (e : BitIndexEntry) : Bool := e.mode.isTree

def key (e : BitIndexEntry) : BitPath × MergeStage := (e.path,e.stage)

def isFilled (e : BitIndexEntry) : Bool := e.stat.inode ≠ 0 ∧ e.stat.filesize ≠ UNKNOWN_SIZE

/-- `diff_cmp` treats directories and files alike. -/
def diffCmp (e e' : BitIndexEntry) : Ordering := e.path.pathCmp e'.path

end BitIndexEntry
end Libbit
