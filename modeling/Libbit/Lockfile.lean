import Libbit.Path
import Libbit.Lib.BufWriter
import Libbit.Lib.Eff

/-! Lock files (`lockfile.rs`): a file is replaced by writing `<path>.lock` and renaming it. The file system holds the
guarded path and the lock file; what was written reaches a file under whatever name the file has by then. -/
namespace Libbit
namespace LockFile

open Lib

abbrev WriteOp := BufWriter.Op Byte

/-- The capacity of `BufWriter::new`. -/
def DEFAULT_BUF_SIZE : ℕ := 8192

structure File where
  content : Bytes
  readonly : Bool
  deriving DecidableEq

/-- The path of the file that the writer has open. -/
inductive Link
  | lockfile | guarded | removed
  deriving DecidableEq

structure Fs where
  guarded : Option File
  lockfile : Option File
  link : Link
  /-- What the guarded path held after each step so far: another process that reads it finds one of these. -/
  seen : List (Option Bytes)
  deriving DecidableEq

inductive Error
  | alreadyExists | notFound | deserialize
  /-- what the closure returned -/
  | closure
  | panic (message : String)
  deriving DecidableEq

abbrev Io := EStateM Error Fs

namespace Fs

/-- What a reader of the guarded path finds. -/
def read (fs : Fs) : Option Bytes := fs.guarded.map File.content

def initial (old : Option File) : Fs := ⟨old,none,.removed,[old.map File.content]⟩

def step (f : Fs → Fs) (fs : Fs) : Fs :=
  let fs := f fs
  { fs with seen := fs.seen++[fs.read] }

def File.append (bytes : Bytes) (file : File) : File := { file with content := file.content++bytes }

/-- A write to the open file. -/
def append (bytes : Bytes) (fs : Fs) : Fs :=
  match fs.link with
  | .lockfile => { fs with lockfile := fs.lockfile.map (File.append bytes) }
  | .guarded => { fs with guarded := fs.guarded.map (File.append bytes) }
  | .removed => fs

def setReadonly (readonly : Bool) (fs : Fs) : Fs :=
  { fs with guarded := fs.guarded.map fun file => { file with readonly := readonly } }

end Fs

structure Lockfile where
  /-- what the guarded file held -/
  file : Option Bytes
  /-- what the `BufWriter` of the lock file holds -/
  lockfile : Bytes
  /-- `SET_READONLY` -/
  flags : Bool
  committed : Bool
  rolledBack : Bool
  deriving DecidableEq

namespace Lockfile

def openLock (flags : Bool) : Io Lockfile := fun fs =>
  if fs.lockfile.isSome then .error .alreadyExists fs
  else .ok ⟨fs.read,[],flags,false,false⟩
    (fs.step fun fs => { fs with lockfile := some ⟨[],false⟩, link := .lockfile })

/-- `write_all` and `flush`. -/
def write (l : Lockfile) (op : WriteOp) : Io Lockfile := fun fs =>
  let (out,held) := BufWriter.call DEFAULT_BUF_SIZE l.lockfile op
  .ok { l with lockfile := held } (out.foldl (fun fs bytes => fs.step (Fs.append bytes)) fs)

def rollback (l : Lockfile) : Lockfile := { l with rolledBack := true }

/-- `std::fs::rename`. -/
def rename : Io Unit := fun fs =>
  match fs.lockfile with
  | none => .error .notFound fs
  | some file => .ok () (fs.step fun fs => { fs with guarded := some file, lockfile := none, link := .guarded })

def commit (l : Lockfile) : Io Lockfile :=
  -- a commit after a rollback is ignored
  if l.rolledBack then pure l
  else do
    modify fun fs => if l.flags ∧ fs.guarded.isSome then fs.step (Fs.setReadonly false) else fs
    rename
    modify fun fs => if l.flags then fs.step (Fs.setReadonly true) else fs
    pure { l with committed := true }

def cleanup : Io Unit := fun fs =>
  match fs.lockfile with
  | none => .error (.panic "failed to remove lockfile") fs
  | some _ => .ok () (fs.step fun fs => { fs with lockfile := none, link := .removed })

/-- The fields are dropped last, and with them what the `BufWriter` still holds is written. -/
def drop (l : Lockfile) : Io Unit :=
  if l.rolledBack ∧ l.committed then throw (.panic "assertion failed: !rolled_back || !committed")
  else do
    if l.rolledBack ∨ ¬l.committed then cleanup
    let _ ← l.write .flush
    pure ()

/-- What a closure does with a lock file. -/
inductive Use
  | io (op : WriteOp)
  | rollback
  deriving DecidableEq

def use (l : Lockfile) : Use → Io Lockfile
  | .io op => l.write op
  | .rollback => pure l.rollback

/-- Commit and drop; an error of the commit is returned after the drop. -/
def commitAndDrop (l : Lockfile) : Io Unit := fun fs =>
  match l.commit fs with
  | .ok l fs => l.drop fs
  | .error e fs => match l.drop fs with
    | .ok _ fs => .error e fs
    | .error e fs => .error e fs

/-- The closure does `uses` and returns `Ok` or `Err`. -/
def withMut (flags : Bool) (uses : List Use) (ok : Bool) : Io Unit := do
  let l ← openLock flags
  let l ← uses.foldlM use l
  if ok then l.commitAndDrop
  else do
    l.rollback.drop
    throw .closure

end Lockfile

structure Filelock (T : Type) where
  data : T
  lockfile : Lockfile
  dirty : Bool
  rolledBack : Bool

namespace Filelock
variable {T : Type}

/-- What is done with a `Filelock`. -/
inductive Access (T : Type)
  | deref
  | derefMut (f : T → T)
  | rollback

/-- The data must not be accessed after a rollback. -/
def access (l : Filelock T) : Access T → Option (Filelock T)
  | .deref => if l.rolledBack then none else some l
  | .derefMut f => if l.rolledBack then none else some { l with data := f l.data, dirty := true }
  | .rollback => some { l with rolledBack := true, lockfile := l.lockfile.rollback }

/-- All accesses, or those before the one that panics. -/
def accesses (l : Filelock T) : List (Access T) → Filelock T × Bool
  | [] => (l,false)
  | a::as => match l.access a with
    | none => (l,true)
    | some l => l.accesses as

section Serialize
variable (serialize : T → List WriteOp × Bool) (deserialize : Bytes → Option T) (default : T)

def lockWithFlags (flags : Bool) : Io (Filelock T) := do
  let lockfile ← Lockfile.openLock flags
  match lockfile.file with
  | none => pure ⟨default,lockfile,false,false⟩
  | some content => match deserialize content with
    | some data => pure ⟨data,lockfile,false,false⟩
    | none => do
      lockfile.drop
      throw .deserialize

/-- The data is written only here. `serialize` says what it writes and whether it fails after that. -/
def drop (l : Filelock T) : Io Unit :=
  if l.rolledBack ∨ ¬l.dirty then l.lockfile.drop
  else do
    let lockfile ← (serialize l.data).1.foldlM Lockfile.write l.lockfile
    if (serialize l.data).2 then lockfile.commitAndDrop
    else do
      lockfile.drop
      throw (.panic "failed to write data (in Filelock)")

/-- From the lock to the drop. -/
def session (flags : Bool) (as : List (Access T)) : Io Unit := do
  let l ← lockWithFlags deserialize default flags
  let done := l.accesses as
  done.1.drop serialize
  if done.2 then throw (.panic "assertion failed: !rolled_back")

end Serialize
end Filelock
end LockFile
end Libbit
