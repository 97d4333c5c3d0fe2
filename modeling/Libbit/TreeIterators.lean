import Libbit.Iter
import Libbit.Lib.Stepper

/-! The tree iterators call by call (`iter/tree_iter.rs`, `iter/index_tree_iter.rs`, `iter/worktree_tree_iter.rs`),
each with the state that it keeps between two calls. An iterator over another one has the state of that one. -/
namespace Libbit
namespace Iterators

open Lib

inductive IterError
  | panic (message : String)
  | outOfFuel
  deriving DecidableEq, Repr

/-- The trait, for a state. -/
abbrev BitTreeIterator (σ : Type) := Stepper IterError σ BitIndexEntry

variable {σ : Type}

/-- `Option::expect` -/
def expect {α : Type} (message : String) : Option α → EStateM IterError σ α
  | some a => pure a
  | none => throw (.panic message)

/-- `Option::unwrap` -/
def unwrap {α : Type} : Option α → EStateM IterError σ α := expect "called `Option::unwrap()` on a `None` value"

/-- `assert!` and `debug_assert!`. -/
def assertThat (condition : String) (c : Prop) [Decidable c] : EStateM IterError σ Unit :=
  if c then pure () else throw (.panic ("assertion failed: "++condition))

/-! ### Trees -/

/-- The entries of a tree object, with their names. -/
def objEntries : Tree → List TreeEntry
  | .nil => []
  | .leaf n a rest => ⟨.blob a.1,[n],.blob a.2⟩::objEntries rest
  | .node n sub rest => ⟨.TREE,[n],.tree sub⟩::objEntries rest

/-- `Treeish for Oid` -/
def treeish : Oid → EStateM IterError σ Tree
  | .tree t => pure t
  | .blob _ => throw (.panic "blob is not treeish")
  | .UNKNOWN => throw (.panic "object not found")

structure TreeIter where
  /-- From the bottom to the top. Each entry has its full path. -/
  entryStack : List TreeEntry
  /-- The height of the stack before the most recent directory was pushed. -/
  previousLen : ℕ
  deriving DecidableEq, Repr

namespace TreeIter

def new (oid : Oid) : TreeIter := ⟨[⟨.TREE,[],if oid.isKnown then oid else .EMPTY_TREE⟩],0⟩

def next : EStateM IterError TreeIter (Option BitIndexEntry) := do
  let iter ← get
  match iter.entryStack.getLast? with
  | none => pure none
  | some entry =>
    let stack := iter.entryStack.dropLast
    match entry.mode with
    | .TREE =>
      if entry.oid = .UNKNOWN then do
        assertThat "self.entry_stack.is_empty()" (stack = [])
        assertThat "entry.path == BitPath::EMPTY" (entry.path = [])
        set {iter with entryStack := stack}
        pure (some (.ofTreeEntry entry))
      else do
        let tree ← treeish entry.oid
        let entries := (objEntries tree).reverse.map fun x => {x with path := entry.path++x.path}
        set (⟨stack++entries,stack.length⟩ : TreeIter)
        pure (some (.ofTreeEntry entry))
    | .blob _ => do
      assertThat "entry.oid.is_known()" entry.oid.isKnown
      set {iter with entryStack := stack}
      pure (some (.ofTreeEntry entry))

def peek : EStateM IterError TreeIter (Option BitIndexEntry) := do
  let iter ← get
  pure (iter.entryStack.getLast?.map .ofTreeEntry)

/-- The entries that `next` pushed for a directory are thrown away. -/
def stepOver : EStateM IterError TreeIter (Option BitIndexEntry) := do
  match ← next with
  | some entry =>
    if entry.isTree then modify fun iter => {iter with entryStack := iter.entryStack.take iter.previousLen}
    pure (some entry)
  | none => pure none

def iterator : BitTreeIterator TreeIter := ⟨next,peek,stepOver⟩

end TreeIter

/-! ### The index -/

structure IndexTreeIter where
  entryIter : List BitIndexEntry
  /-- The directories that have been yielded. -/
  pseudotrees : List BitPath
  peeked : Option BitIndexEntry
  deriving DecidableEq, Repr

namespace IndexTreeIter
variable (idx : BitIndexInner)

def new : IndexTreeIter := ⟨idx.entries,[],none⟩

def next : EStateM IterError IndexTreeIter (Option BitIndexEntry) := do
  let iter ← get
  if [] ∉ iter.pseudotrees then do
    set {iter with pseudotrees := iter.pseudotrees++[[]]}
    pure (some (idx.createPseudotree []))
  else match iter.peeked with
    | some peeked => do
      set {iter with peeked := none}
      pure (some peeked)
    | none =>
      match iter.entryIter with
      | [] => pure none
      | entry::rest =>
        match entry.path.parent.cumulativeComponents.find? fun p => p ∉ iter.pseudotrees with
        | some dir => do
          set {iter with pseudotrees := iter.pseudotrees++[dir]}
          pure (some (idx.createPseudotree dir))
        | none => do
          set {iter with entryIter := rest}
          pure (some entry)

def peek : EStateM IterError IndexTreeIter (Option BitIndexEntry) := do
  let iter ← get
  match iter.peeked with
  | some peeked => pure (some peeked)
  | none => do
    let peeked ← next idx
    modify fun iter => {iter with peeked := peeked}
    pure peeked

/-- Where the cache vouches for the directory its count says how many entries to pass over. -/
def stepOverTree (stepOverChildren : BitIndexEntry → EStateM IterError IndexTreeIter Unit) (entry : BitIndexEntry) :
    EStateM IterError IndexTreeIter (Option BitIndexEntry) := do
  match idx.treeCache.bind fun cache => cache.findValidChild entry.path with
  | some treeCache => modify fun iter => {iter with entryIter := iter.entryIter.drop treeCache.entryCount.toNat}
  | none => stepOverChildren entry
  pure (some entry)

def stepOverWith (stepOverChildren : BitIndexEntry → EStateM IterError IndexTreeIter Unit) :
    EStateM IterError IndexTreeIter (Option BitIndexEntry) := do
  match ← next idx with
  | some entry => if entry.isTree then stepOverTree idx stepOverChildren entry else pure (some entry)
  | none => pure none

/-- Step over a tree by stepping over each of its children. -/
def stepOverChildren : ℕ → BitIndexEntry → EStateM IterError IndexTreeIter Unit
  | 0, _ => throw .outOfFuel
  | fuel+1, entry => do
    match ← peek idx with
    | some next =>
      if next.path.startsWith entry.path then do
        let _ ← stepOverWith idx (stepOverChildren fuel)
        stepOverChildren fuel entry
      else pure ()
    | none => pure ()

def stepOver (fuel : ℕ) : EStateM IterError IndexTreeIter (Option BitIndexEntry) :=
  stepOverWith idx (stepOverChildren idx fuel)

def iterator (fuel : ℕ) : BitTreeIterator IndexTreeIter := ⟨next idx,peek idx,stepOver idx fuel⟩

end IndexTreeIter

/-! ### Subtrees -/

namespace CollectSubtree

/-- Whether we are still in the relevant subtree. -/
def inSubtree (peek : EStateM IterError σ (Option BitIndexEntry)) (tree : BitPath) : EStateM IterError σ Bool := do
  match ← peek with
  | some next => pure (next.path.startsWith tree)
  | none => pure false

/-- A method of the iterator below, as far as the subtree goes. -/
def within (peek method : EStateM IterError σ (Option BitIndexEntry)) (tree : BitPath) :
    EStateM IterError σ (Option BitIndexEntry) := do
  if ← inSubtree peek tree then do
    let entry ← method >>= unwrap
    pure (some entry)
  else pure none

/-- `CollectSubtree` of the directory at the path. -/
def iterator (tree : BitPath) (iter : BitTreeIterator σ) : BitTreeIterator σ :=
  ⟨within iter.peek iter.next tree,within iter.peek iter.peek tree,within iter.peek iter.stepOver tree⟩

end CollectSubtree

/-- `collect_over_tree_iter` finds a directory next. -/
def collectOverTreeIter (peek : EStateM IterError σ (Option BitIndexEntry)) : EStateM IterError σ BitIndexEntry := do
  let entry ← peek >>= unwrap
  assertThat "entry.mode() == FileMode::TREE" entry.isTree
  pure entry

/-- `as_consumer` -/
def asConsumer (peek : EStateM IterError σ (Option BitIndexEntry)) : EStateM IterError σ Unit := do
  let entry ← peek >>= expect "can't call `as_consumer` on empty iterator"
  assertThat "entry.mode() == FileMode::TREE" entry.isTree

/-- `Iterator::count`, for what it does to the iterator. -/
def count (next : EStateM IterError σ (Option BitIndexEntry)) : ℕ → EStateM IterError σ Unit
  | 0 => throw .outOfFuel
  | fuel+1 => do
    match ← next with
    | some _ => count next fuel
    | none => pure ()

/-! ### The worktree -/

/-- What the directory walk finds: a file, or a directory with what is in it. -/
abbrev DirEntry := BitPath × (FileNode ⊕ Worktree)

structure WorktreeTreeIter where
  jwalk : List DirEntry
  peeked : Option BitIndexEntry

namespace WorktreeTreeIter
-- The matcher that the `ignore` crate makes of the contents of the root's `.gitignore`.
variable (gitignore : Option Bytes → BitPath → Bool → Bool) (idx : BitIndexInner) (w : Worktree)

def new : WorktreeTreeIter := ⟨([],.inr w)::(w.sort entryLt).entries [],none⟩

/-- `WorktreeRawIter` passes over the entries that are ignored. -/
def rawNext : List DirEntry → Option (DirEntry × List DirEntry)
  | [] => none
  | entry::rest => if isIgnored gitignore idx w (Worktree.entryOfItem entry) then rawNext rest else some (entry,rest)

def next : EStateM IterError WorktreeTreeIter (Option BitIndexEntry) := do
  let iter ← get
  match iter.peeked with
  | some peeked => do
    set {iter with peeked := none}
    pure (some peeked)
  | none =>
    match rawNext gitignore idx w iter.jwalk with
    | some (entry,rest) => do
      set {iter with jwalk := rest}
      pure (some (Worktree.entryOfItem entry))
    | none => do
      set {iter with jwalk := []}
      pure none

def peek : EStateM IterError WorktreeTreeIter (Option BitIndexEntry) := do
  let iter ← get
  match iter.peeked with
  | some peeked => pure (some peeked)
  | none => do
    let peeked ← next gitignore idx w
    modify fun iter => {iter with peeked := peeked}
    pure peeked

/-- `self.as_consumer().iter()`, of which one entry is taken and the others are counted. -/
def stepOver (fuel : ℕ) : EStateM IterError WorktreeTreeIter (Option BitIndexEntry) := do
  asConsumer (peek gitignore idx w)
  let tree ← collectOverTreeIter (peek gitignore idx w)
  let treeEntry ← CollectSubtree.within (peek gitignore idx w) (next gitignore idx w) tree.path
  count (CollectSubtree.within (peek gitignore idx w) (next gitignore idx w) tree.path) fuel
  pure treeEntry

def iterator (fuel : ℕ) : BitTreeIterator WorktreeTreeIter :=
  ⟨next gitignore idx w,peek gitignore idx w,stepOver gitignore idx w fuel⟩

end WorktreeTreeIter

/-! ### Filters -/

namespace Filter

/-- `next` and `over` repeat the method of the iterator below until an entry passes. -/
def seek (f : BitIndexEntry → Bool) (method : EStateM IterError σ (Option BitIndexEntry)) :
    ℕ → EStateM IterError σ (Option BitIndexEntry)
  | 0 => throw .outOfFuel
  | fuel+1 => do
    match ← method with
    | some entry => if f entry then pure (some entry) else seek f method fuel
    | none => pure none

/-- `peek` moves on with `next`. -/
def peek (f : BitIndexEntry → Bool) (iter : BitTreeIterator σ) : ℕ → EStateM IterError σ (Option BitIndexEntry)
  | 0 => throw .outOfFuel
  | fuel+1 => do
    match ← iter.peek with
    | some entry => if f entry then iter.peek else do
      let _ ← iter.next
      peek f iter fuel
    | none => iter.peek

def iterator (f : BitIndexEntry → Bool) (fuel : ℕ) (iter : BitTreeIterator σ) : BitTreeIterator σ :=
  ⟨seek f iter.next fuel,peek f iter fuel,seek f iter.stepOver fuel⟩

end Filter

/-- A pathspec, which is the prefix that paths start with. -/
structure Pathspec where
  pathPrefix : BitPath
  deriving DecidableEq, Repr

namespace Pathspec

def MATCH_ALL : Pathspec := ⟨[]⟩

def matchesPath (pathspec : Pathspec) (path : BitPath) : Bool := path.startsWith pathspec.pathPrefix

def matchTreeIter (pathspec : Pathspec) (fuel : ℕ) (iter : BitTreeIterator σ) : BitTreeIterator σ :=
  Filter.iterator (fun entry => pathspec.matchesPath entry.path) fuel iter

end Pathspec
end Iterators
end Libbit
