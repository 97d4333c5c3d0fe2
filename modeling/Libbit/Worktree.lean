import Libbit.Obj

/-! The file system below the root of the worktree, as the calls of `std::fs` that the
repository makes see it: regular and executable files, symbolic links and directories. -/
namespace Libbit

structure FileNode where
  mode : BlobMode
  /-- The bytes of a file, the target of a link. -/
  contents : Bytes
  mtime : ℕ
  inode : ℕ
  deriving DecidableEq, Repr

/-- The size of a file is kept in 32 bits. -/
def FileNode.stat (f : FileNode) : Stat := ⟨f.mtime,f.inode,f.contents.length%2^32⟩

/-- The directory `.git` is not part of it. -/
abbrev Worktree := Lib.Forest Name FileNode

inductive IoError
  | NotFound | NotADirectory | IsADirectory | AlreadyExists | DirectoryNotEmpty | FilesystemLoop
  deriving DecidableEq, Repr

abbrev IoResult := Except IoError

namespace Worktree

def DOT : Name := [46]
def DOTDOT : Name := [46,46]

/-- Where the walk along a path stops: at a place (which need not exist), or at a link that
has to be followed from its directory with the components still to go. -/
inductive Scan
  | at (path : BitPath)
  | link (dir : BitPath) (target : Bytes) (rest : List Name)
  deriving DecidableEq, Repr

/-- Walk down from a directory that is reached without links. -/
def scan (w : Worktree) (follow : Bool) : BitPath → List Name → IoResult Scan
  | dir, [] => .ok (.at dir)
  | dir, n::rest =>
    if n = [] ∨ n = DOT then scan w follow dir rest
    -- nothing outside the worktree is modelled
    else if n = DOTDOT then (if dir = [] then .error .NotFound else scan w follow dir.dropLast rest)
    else match w.look (dir++[n]) with
      | none => if rest = [] then .ok (.at (dir++[n])) else .error .NotFound
      | some none => scan w follow (dir++[n]) rest
      | some (some f) =>
        if f.mode = .LINK ∧ (follow ∨ rest ≠ []) then .ok (.link dir f.contents rest)
        else if rest = [] then .ok (.at (dir++[n])) else .error .NotADirectory

/-- The system follows that many links before it reports a loop. -/
def MAXSYMLINKS : ℕ := 40

def resolveFrom (w : Worktree) (follow : Bool) : ℕ → BitPath → List Name → IoResult BitPath
  | fuel, dir, todo =>
    match scan w follow dir todo with
    | .error e => .error e
    | .ok (.at p) => .ok p
    | .ok (.link dir' target rest) =>
      match fuel with
      | 0 => .error .FilesystemLoop
      | fuel+1 =>
        if target.head? = some SLASH then .error .NotFound
        else resolveFrom w follow fuel dir' (target.splitOn SLASH++rest)

/-- The place a path names; links in the middle are followed, one at the end on demand. -/
def resolve (w : Worktree) (follow : Bool) (p : BitPath) : IoResult BitPath :=
  resolveFrom w follow MAXSYMLINKS [] p

/-- `metadata` follows links, `symlink_metadata` does not; a directory has no file node. -/
def metadataWith (w : Worktree) (follow : Bool) (p : BitPath) : IoResult (Option FileNode) := do
  match w.look (← w.resolve follow p) with
  | none => .error .NotFound
  | some m => .ok m

def metadata (w : Worktree) (p : BitPath) : IoResult (Option FileNode) := w.metadataWith true p

def symlinkMetadata (w : Worktree) (p : BitPath) : IoResult (Option FileNode) := w.metadataWith false p

def isFile (w : Worktree) (p : BitPath) : Bool :=
  match w.metadata p with
  | .ok (some _) => true
  | _ => false

def isDir (w : Worktree) (p : BitPath) : Bool :=
  match w.metadata p with
  | .ok none => true
  | _ => false

def tryExists (w : Worktree) (p : BitPath) : IoResult Bool :=
  match w.metadata p with
  | .ok _ => .ok true
  | .error .NotFound => .ok false
  | .error e => .error e

/-- Take away what stands at a place, with everything below it. -/
def unlink (w : Worktree) (p : BitPath) : Worktree := w.modify (.erase p.fileName) p.parent

def place (w : Worktree) (p : BitPath) (f : FileNode) : Worktree := w.modify (.leaf p.fileName f) p.parent

def placeDir (w : Worktree) (p : BitPath) : Worktree := w.modify (.node p.fileName .nil) p.parent

def removeFile (w : Worktree) (p : BitPath) : IoResult Worktree := do
  let p ← w.resolve false p
  match w.look p with
  | none => .error .NotFound
  | some none => .error .IsADirectory
  | some (some _) => .ok (w.unlink p)

/-- A link is only unlinked; a directory goes with all that is in it. -/
def removeDirAll (w : Worktree) (p : BitPath) : IoResult Worktree := do
  let p ← w.resolve false p
  match w.look p with
  | none => .error .NotFound
  | some none => .ok (if p = [] then .nil else w.unlink p)
  | some (some f) => if f.mode = .LINK then .ok (w.unlink p) else .error .NotADirectory

/-- Whether `read_dir` yields nothing; the root always holds the directory `.git`. -/
def readDirIsEmpty (w : Worktree) (p : BitPath) : IoResult Bool := do
  let p ← w.resolve true p
  match w.look p with
  | none => .error .NotFound
  | some (some _) => .error .NotADirectory
  | some none => .ok (p ≠ [] ∧ w.sub? p = some .nil)

def removeDir (w : Worktree) (p : BitPath) : IoResult Worktree := do
  let p ← w.resolve false p
  match w.look p with
  | none => .error .NotFound
  | some (some _) => .error .NotADirectory
  | some none => if p ≠ [] ∧ w.sub? p = some .nil then .ok (w.unlink p) else .error .DirectoryNotEmpty

def createDir (w : Worktree) (p : BitPath) : IoResult Worktree := do
  let p ← w.resolve false p
  match w.look p with
  | none => .ok (w.placeDir p)
  | some _ => .error .AlreadyExists

/-- `create_dir_all`, by recursion on the components from the last one up. -/
def createDirAllRev (w : Worktree) : List Name → IoResult Worktree
  | [] => .ok w
  | n::rev =>
    match w.createDir (n::rev).reverse with
    | .ok w' => .ok w'
    | .error .NotFound => do
      let w' ← createDirAllRev w rev
      match w'.createDir (n::rev).reverse with
      | .ok w'' => .ok w''
      | .error e => if w'.isDir (n::rev).reverse then .ok w' else .error e
    | .error e => if w.isDir (n::rev).reverse then .ok w else .error e

def createDirAll (w : Worktree) (p : BitPath) : IoResult Worktree := w.createDirAllRev p.reverse

/-- `open` with `create_new`: a link at the end is in the way like anything else. -/
def createNew (w : Worktree) (p : BitPath) (f : FileNode) : IoResult Worktree := do
  let p ← w.resolve false p
  match w.look p with
  | none => .ok (w.place p f)
  | some _ => .error .AlreadyExists

/-- An empty target is refused. -/
def symlink (w : Worktree) (target : Bytes) (p : BitPath) (mtime inode : ℕ) : IoResult Worktree :=
  if target = [] then .error .NotFound else w.createNew p ⟨.LINK,target,mtime,inode⟩

/-- `open` for writing an existing file, then `write_all`: what lay beyond the new bytes
stays, for the file is not truncated. -/
def openAndWrite (w : Worktree) (p : BitPath) (bytes : Bytes) (mtime : ℕ) : IoResult Worktree := do
  let p ← w.resolve true p
  match w.look p with
  | none => .error .NotFound
  | some none => .error .IsADirectory
  | some (some f) =>
    .ok ((w.unlink p).place p {f with contents := bytes++f.contents.drop bytes.length, mtime := mtime})

/-- `rename` to a place where nothing stands. -/
def rename (w : Worktree) (p q : BitPath) : IoResult Worktree := do
  let p ← w.resolve false p
  let q ← w.resolve false q
  match w.look p, w.look q with
  | none, _ => .error .NotFound
  | _, some _ => .error .AlreadyExists
  | some (some f), none => .ok ((w.unlink p).place q f)
  | some none, none =>
    match w.sub? p with
    | none => .error .NotFound
    | some s => .ok ((w.unlink p).modify (.node q.fileName s) q.parent)

end Worktree
end Libbit
