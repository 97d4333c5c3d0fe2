import Libbit.Lib.Dag

/-! The merge-base search of `merge.rs`: commits are painted from both heads through
a time-ordered heap until only stale nodes are queued. -/
namespace Libbit

/-- `BitTime` derives its order from the epoch and then the time-zone offset. -/
abbrev BitTime := ℤ ×ₗ ℤ

/-- The commits of an object store with their parents and committer times. The level
is there because a commit is named by the hash of its contents, parents included. -/
structure CommitGraph (Oid : Type) where
  parents : Oid → List Oid
  time : Oid → BitTime
  level : Oid → ℕ
  level_parents : ∀ {c p}, p ∈ parents c → level p < level c

namespace CommitGraph
variable {Oid : Type} (g : CommitGraph Oid)

def toDag : Lib.Dag Oid := ⟨g.parents,g.level,g.level_parents⟩

/-- The order `mk_commit` enforces: no parent is newer than its child. -/
def Monotone : Prop := ∀ c, ∀ p ∈ g.parents c, g.time p ≤ g.time c

end CommitGraph

namespace MergeBase

structure NodeFlags where
  parent1 : Bool
  parent2 : Bool
  result : Bool
  stale : Bool
  deriving DecidableEq, Repr

namespace NodeFlags

def empty : NodeFlags := ⟨false,false,false,false⟩
def PARENT1 : NodeFlags := {empty with parent1 := true}
def PARENT2 : NodeFlags := {empty with parent2 := true}
def RESULT : NodeFlags := {empty with result := true}
def STALE : NodeFlags := {empty with stale := true}

def union (f h : NodeFlags) : NodeFlags :=
  ⟨f.parent1 || h.parent1,f.parent2 || h.parent2,f.result || h.result,f.stale || h.stale⟩

def both (f : NodeFlags) : Bool := f.parent1 && f.parent2

/-- The flags a popped node hands to its parents. -/
def forParents (f : NodeFlags) : NodeFlags :=
  {f with result := false, stale := f.stale || f.both}

/-- Bitwise inclusion. -/
def Le (f h : NodeFlags) : Prop := f.union h = h

end NodeFlags

structure CommitNode (Oid : Type) where
  commit : Oid
  index : ℕ
  deriving DecidableEq, Repr

structure MergeBaseCtxt (Oid : Type) where
  candidates : List Oid
  pqueue : List (CommitNode Oid)
  nodeFlags : Oid → NodeFlags
  index : ℕ

variable {Oid : Type} [DecidableEq Oid] (g : CommitGraph Oid)

/-- `Ord for CommitNode`: the newer commit is greater, then the smaller index. -/
def CommitNode.lt (x y : CommitNode Oid) : Bool :=
  g.time x.commit < g.time y.commit ∨ (g.time x.commit = g.time y.commit ∧ y.index < x.index)

/-- `BinaryHeap::pop` takes the greatest node; the order of the others does not matter. -/
def pop : List (CommitNode Oid) → Option (CommitNode Oid × List (CommitNode Oid))
  | [] => none
  | x::xs =>
    match pop xs with
    | none => some (x,[])
    | some (y,ys) => if x.lt g y then some (y,x::ys) else some (x,y::ys)

def MergeBaseCtxt.stillInteresting (s : MergeBaseCtxt Oid) : Bool :=
  s.pqueue.any fun node => !(s.nodeFlags node.commit).stale

/-- `mk_node` followed by the push, with the flags the node is queued under. -/
def MergeBaseCtxt.push (s : MergeBaseCtxt Oid) (commit : Oid) (flags : NodeFlags) : MergeBaseCtxt Oid where
  candidates := s.candidates
  pqueue := s.pqueue++[⟨commit,s.index⟩]
  nodeFlags := Function.update s.nodeFlags commit ((s.nodeFlags commit).union flags)
  index := s.index+1

/-- The body of the loop over the parents: equal flags are skipped, nothing else is. -/
def visitParent (parentFlags : NodeFlags) (s : MergeBaseCtxt Oid) (parent : Oid) : MergeBaseCtxt Oid :=
  if s.nodeFlags parent = parentFlags then s else s.push parent parentFlags

/-- A node carrying both parent flags for the first time and not stale becomes a candidate. -/
def markResult (s : MergeBaseCtxt Oid) (commit : Oid) : MergeBaseCtxt Oid :=
  let flags := s.nodeFlags commit
  if flags.both ∧ ¬(flags.result ∨ flags.stale) then
    {s with
      candidates := s.candidates++[commit]
      nodeFlags := Function.update s.nodeFlags commit (flags.union .RESULT)}
  else s

/-- One turn of the `while` loop; `none` once the loop condition fails. -/
def step (s : MergeBaseCtxt Oid) : Option (MergeBaseCtxt Oid) :=
  if s.stillInteresting then
    (pop g s.pqueue).map fun (node,rest) =>
      (g.parents node.commit).foldl (visitParent (s.nodeFlags node.commit).forParents)
        (markResult {s with pqueue := rest} node.commit)
  else none

/-- The loop under a step budget; `none` means that the budget ran out. -/
def buildLoop : ℕ → MergeBaseCtxt Oid → Option (MergeBaseCtxt Oid)
  | 0, _ => none
  | fuel+1, s =>
    match step g s with
    | none => some s
    | some s' => buildLoop fuel s'

def initial (a b : Oid) : MergeBaseCtxt Oid :=
  (MergeBaseCtxt.push ⟨[],[],fun _ => .empty,0⟩ a .PARENT1).push b .PARENT2

/-- Every pop uses up one path below `a` or `b`, so their number is budget enough. -/
def buildCandidates (a b : Oid) : Option (MergeBaseCtxt Oid) :=
  buildLoop g (g.toDag.weight a+g.toDag.weight b+1) (initial a b)

def mergeBasesAll (a b : Oid) : Option (List Oid) :=
  (buildCandidates g a b).map fun s =>
    s.candidates.filter fun node => !(s.nodeFlags node).stale

def findMergeBases (a b : Oid) : Option (List Oid) := mergeBasesAll g a b

def findMergeBase (a b : Oid) : Option (Option Oid) := (findMergeBases g a b).map List.head?

end MergeBase
end Libbit
