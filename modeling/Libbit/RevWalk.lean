import Libbit.MergeBase

/-! The walk over the history (`rev/revwalk.rs`): commits come off a heap by their time, a commit
that was excluded hands its mark on to its parents when it comes off, and the walk ends once only
marked commits are queued. The nodes of the heap and their order are those of the merge-base
search. -/
namespace Libbit

structure CommitNodeFlags where
  yielded : Bool
  enqueued : Bool
  uninteresting : Bool
  deriving DecidableEq, Repr

namespace CommitNodeFlags

def empty : CommitNodeFlags := ⟨false,false,false⟩
def YIELDED : CommitNodeFlags := {empty with yielded := true}
def ENQUEUED : CommitNodeFlags := {empty with enqueued := true}
def UNINTERESTING : CommitNodeFlags := {empty with uninteresting := true}

def insert (f h : CommitNodeFlags) : CommitNodeFlags :=
  ⟨f.yielded || h.yielded,f.enqueued || h.enqueued,f.uninteresting || h.uninteresting⟩

end CommitNodeFlags

structure RevWalk (Oid : Type) where
  flags : Oid → CommitNodeFlags
  pqueue : List (MergeBase.CommitNode Oid)
  index : ℕ

namespace RevWalk
variable {Oid : Type} [DecidableEq Oid]

def empty : RevWalk Oid := ⟨fun _ => .empty,[],0⟩

def insertFlags (w : RevWalk Oid) (commit : Oid) (flags : CommitNodeFlags) : RevWalk Oid :=
  {w with flags := Function.update w.flags commit ((w.flags commit).insert flags)}

/-- A commit is queued once; one that was seen before keeps the flags it has. -/
def enqueueCommitWithFlags (initFlags : CommitNodeFlags) (w : RevWalk Oid) (commit : Oid) : RevWalk Oid :=
  if (w.flags commit).enqueued || (w.flags commit).yielded then w
  else
    { flags := (w.insertFlags commit (initFlags.insert .ENQUEUED)).flags
      pqueue := w.pqueue++[⟨commit,w.index⟩]
      index := w.index+1 }

def enqueueCommit (w : RevWalk Oid) (commit : Oid) : RevWalk Oid := enqueueCommitWithFlags .empty w commit

/-- `RevWalkBuilder::build`: the excluded commits are queued before the roots. -/
def build (roots exclude : List Oid) : RevWalk Oid :=
  roots.foldl enqueueCommit (exclude.foldl (enqueueCommitWithFlags .UNINTERESTING) empty)

/-- `RevWalk::new`. -/
def new (roots : List Oid) : RevWalk Oid := roots.foldl enqueueCommit empty

def stillInteresting (w : RevWalk Oid) : Bool := w.pqueue.any fun node => !(w.flags node.commit).uninteresting

variable (g : CommitGraph Oid)

def markParentsUninteresting (w : RevWalk Oid) (commit : Oid) : RevWalk Oid :=
  (g.parents commit).foldl (fun w parent => w.insertFlags parent .UNINTERESTING) w

/-- One turn of the `while` loop in `next`: the commit that it returns, if any, and what is left. -/
def turn (w : RevWalk Oid) : Option (Option Oid × RevWalk Oid) :=
  if w.stillInteresting then
    (MergeBase.pop g w.pqueue).map fun (node,rest) =>
      let w := (g.parents node.commit).foldl enqueueCommit {w with pqueue := rest}
      let w := w.insertFlags node.commit .YIELDED
      if (w.flags node.commit).uninteresting then (none,w.markParentsUninteresting g node.commit)
      else (some node.commit,w)
  else none

/-- `next` until it returns nothing, under a budget of turns: the loop goes on where it returned. -/
def drain : ℕ → RevWalk Oid → Option (List Oid)
  | 0, _ => none
  | fuel+1, w =>
    match w.turn g with
    | none => some []
    | some (c,w') => (drain fuel w').map (c.toList++·)

/-- Every turn uses up one path below a commit that was queued at first. -/
def budget (starts : List Oid) : ℕ := (starts.map g.toDag.weight).sum+1

/-- The commits that a walk with exclusions yields. -/
def revList (roots exclude : List Oid) : Option (List Oid) :=
  drain g (budget g (exclude++roots)) (build roots exclude)

/-- The commits that a walk from some roots yields. -/
def walkCommits (roots : List Oid) : Option (List Oid) := drain g (budget g roots) (new roots)

end RevWalk
end Libbit
