import Libbit.Lib.Eff
import Libbit.Reflog

/-! References and the store that keeps them as files (`refs.rs`, `refs/refdb.rs`, and what `repo.rs`, `rev.rs` and
`signature.rs` make of them). -/
namespace Libbit
namespace Refs

open Lib
open CommitFormat (BitSignature)

abbrev Text := List Char

/-- The components of a path. -/
abbrev Path := List Text

/-- `Path::components`: a `.` counts only at the start. -/
def components (s : Text) : Path :=
  match s.splitOn '/' with
  | [] => []
  | first::rest => (if first = [] then [] else [first])++rest.filter fun n => n ≠ [] ∧ n ≠ ['.']

/-- The file that the text names. -/
def location (s : Text) : Path := (components s).filter (· ≠ ['.'])

/-- `Path::starts_with`. -/
def startsWith (s base : Text) : Bool := (components base).isPrefixOf (components s)

/-- `Path::join`. -/
def join (base s : Text) : Text := if base = [] then s else base++ '/'::s

def REFS_HEADS : Text := "refs/heads".toList
def REFS_TAGS : Text := "refs/tags".toList
def REFS_REMOTES : Text := "refs/remotes".toList
def REFS_STASH : Text := "refs/stash".toList

/-! ### References (`refs.rs`) -/

inductive SymbolicRefKind
  | Head | Remote | Branch | Tag | Stash | Unknown
  deriving DecidableEq

structure SymbolicRef where
  path : Text
  deriving DecidableEq

inductive BitRef
  | Direct (oid : Oid)
  | Symbolic (sym : SymbolicRef)
  deriving DecidableEq

namespace SymbolicRef

def HEAD : SymbolicRef := ⟨"HEAD".toList⟩

/-- `calculate_kind`. -/
def kind (sym : SymbolicRef) : SymbolicRefKind :=
  if sym.path = HEAD.path then .Head
  else if startsWith sym.path REFS_HEADS then .Branch
  else if startsWith sym.path REFS_REMOTES then .Remote
  else if startsWith sym.path REFS_TAGS then .Tag
  else if sym.path = REFS_STASH then .Stash
  else .Unknown

def SYMBOLIC_REF_PREFIX : Text := "ref: ".toList

/-- The prefix is optional, as a revision has none; `@` stands for `HEAD`. -/
def fromStr (s : Text) : SymbolicRef :=
  let r := trimEnd (if SYMBOLIC_REF_PREFIX.isPrefixOf s then s.drop SYMBOLIC_REF_PREFIX.length else s)
  if r = ['@'] then HEAD else ⟨r⟩

end SymbolicRef

namespace BitRef

def HEAD : BitRef := .Symbolic SymbolicRef.HEAD

def display : BitRef → Text
  | .Direct oid => Packfile.Oid.toHex oid
  | .Symbolic sym => sym.path

def serialize : BitRef → Text
  | .Direct oid => Packfile.Oid.toHex oid
  | .Symbolic sym => SymbolicRef.SYMBOLIC_REF_PREFIX++sym.path

/-- A text that reads as an oid is no path. -/
def fromStr (s : Text) : BitRef :=
  match Packfile.Oid.fromStr s with
  | .ok oid => .Direct oid
  | .error _ => .Symbolic (SymbolicRef.fromStr s)

end BitRef

/-! ### Causes of an update -/

inductive RefUpdateCommitKind
  | Amend | Initial | Normal
  deriving DecidableEq

inductive MergeStrategy
  | FastForward | Recursive
  deriving DecidableEq

inductive RefUpdateCause
  | NewBranch (source : BitRef)
  | Commit (subject : Text) (kind : RefUpdateCommitKind)
  | Checkout (source target : BitRef)
  | Reset (target : BitRef)
  | Merge (theirs : BitRef) (strategy : MergeStrategy)
  | Fetch (target : BitRef)
  deriving DecidableEq

def RefUpdateCause.display : RefUpdateCause → Text
  | .NewBranch source => "branch: Created from ".toList++source.display
  | .Commit subject .Normal => "commit: ".toList++subject
  | .Commit subject .Amend => "commit (amend): ".toList++subject
  | .Commit subject .Initial => "commit (initial): ".toList++subject
  | .Checkout source target =>
    "checkout: moving from `".toList++source.display++"` to `".toList++target.display++"`".toList
  | .Reset target => "reset: moving to `".toList++target.display++"`".toList
  | .Merge theirs .FastForward => "merge `".toList++theirs.display++"`: fast-forward".toList
  | .Merge theirs .Recursive => "merge `".toList++theirs.display++"`: recursive".toList
  | .Fetch _ => "fetch".toList

/-! ### Files -/

inductive ObjectError
  | ObjectNotFound | ExpectedCommit | other | panic
  deriving DecidableEq

inductive Error
  | nonExistentSymRef (sym : SymbolicRef)
  | object (e : ObjectError)
  | message (text : String)
  | notADirectory
  | alreadyExists (lock : Path)
  | invalidUtf8
  | reflog (e : ParseError)
  | panic (message : String)
  /-- the recursion does not end -/
  | stackOverflow
  deriving DecidableEq

/-- The call returns the error; it does not panic. -/
def Error.returned : Error → Bool
  | .object e => e ≠ .panic
  | .reflog (.panic _) => false
  | .reflog .unwrap => false
  | .panic _ => false
  | .stackOverflow => false
  | _ => true

inductive Content
  | utf8 (text : Text)
  | other (bytes : Bytes)
  deriving DecidableEq

/-- The files of the bit directory. -/
structure Fs where
  files : Path → Option Content
  names : List Path
  mem_names : ∀ p, (files p).isSome → p ∈ names
  /-- directories; others exist because a file is in them -/
  dirs : List Path

namespace Fs

def write (fs : Fs) (p : Path) (content : Content) : Fs where
  files := Function.update fs.files p (some content)
  names := p::fs.names
  mem_names q hq := by
    by_cases h : q = p
    · exact h ▸ List.mem_cons_self
    · rw [Function.update_of_ne h] at hq
      exact List.mem_cons_of_mem p (fs.mem_names q hq)
  dirs := fs.dirs

@[simp] theorem write_files (fs : Fs) (p : Path) (content : Content) :
    (fs.write p content).files = Function.update fs.files p (some content) := rfl

def isDir (fs : Fs) (p : Path) : Bool :=
  p = [] ∨ p ∈ fs.dirs ∨ ∃ q ∈ fs.names, (fs.files q).isSome ∧ q ≠ p ∧ p <+: q

/-- A file stands where the path needs a directory. -/
def blocked (fs : Fs) (p : Path) : Bool := ∃ q ∈ p.inits, q ≠ p ∧ (fs.files q).isSome

def tryExists (fs : Fs) (s : Text) : Except Error Bool :=
  if fs.blocked (location s) then .error .notADirectory
  else .ok ((fs.files (location s)).isSome || fs.isDir (location s))

/-- `Path::with_extension("lock")` on the last component. -/
def withLockExtension (name : Text) : Text :=
  let stem := (name.reverse.dropWhile (· ≠ '.')).reverse.dropLast
  (if stem = [] then name else stem)++".lock".toList

def lockPath (p : Path) : Path := p.dropLast++(p.getLast?.map withLockExtension).toList

/-- Whether `Lockfile::open` gets the lock; nothing is left of it when it is dropped. -/
def openLock (fs : Fs) (s : Text) : Except Error Unit :=
  if fs.blocked (location s) then .error .notADirectory
  else if fs.files (location s) = none ∧ fs.isDir (location s) then
    .error (.panic "cannot create lock on symlinks or directories")
  else if (fs.files (lockPath (location s))).isSome ∨ fs.isDir (lockPath (location s)) then
    .error (.alreadyExists (lockPath (location s)))
  else .ok ()

/-- The files while the lock of a file is held. -/
def withLock (fs : Fs) (s : Text) : Fs := fs.write (lockPath (location s)) (.utf8 [])

end Fs

/-! ### The store (`refs/refdb.rs`) -/

/-- What the operations find outside the store. -/
structure Env where
  ensureObjIsCommit : Oid → Except ObjectError Unit
  name : Option Text
  email : Option Text
  now : CommitFormat.BitTime
  /-- the offset of a time zone is less than a day -/
  now_offset : now.offset.offset.natAbs < 24*60
  stackDepth : ℕ

abbrev Io := EStateM Error Fs

/-- An operation that leaves every file as it is. -/
def reads {α : Type} (f : Fs → Except Error α) : Io α := fun fs => ended fs (f fs)

def MISSING_IDENTITY_MSG : String :=
"Author identity unknown

*** Please tell me who you are.

Run

  bit config --global user.email \"you@example.com\"
  bit config --global user.name \"Your Name\"

to set your account's default identity.
Omit --global to set the identity only in this repository."

def userSignature (env : Env) : Except Error BitSignature :=
  match env.name, env.email with
  | some name, some email => .ok ⟨name,email,env.now⟩
  | _, _ => .error (.message MISSING_IDENTITY_MSG)

/-- Kinds are calculated; an unknown one is refused. -/
def newValid (path : Text) : Except Error SymbolicRef :=
  if (SymbolicRef.mk path).kind = .Unknown then .error (.message ("invalid symbolic ref `"++String.ofList path++"`"))
  else .ok ⟨path⟩

def PREFIXES : List Text := [[],REFS_HEADS,REFS_TAGS,REFS_REMOTES]

/-- Tries to expand the symbolic reference, `master` to `refs/heads/master`. -/
def expandSymref (sym : SymbolicRef) (fs : Fs) : Except Error SymbolicRef :=
  go PREFIXES
where
  go : List Text → Except Error SymbolicRef
    | [] => .error (.nonExistentSymRef sym)
    | base::bases => do
      if ← fs.tryExists (join base sym.path) then newValid (join base sym.path) else go bases

def validate (env : Env) (reference : BitRef) (fs : Fs) : Except Error BitRef :=
  match reference with
  | .Direct oid => do
    (env.ensureObjIsCommit oid).mapError .object
    .ok reference
  | .Symbolic sym => (expandSymref sym fs).map .Symbolic

def read (env : Env) (sym : SymbolicRef) (fs : Fs) : Except Error BitRef := do
  let expanded ← expandSymref sym fs
  fs.openLock expanded.path
  match fs.files (location expanded.path) with
  | none => .error (.panic ("ref `"++String.ofList sym.path++"` does not exist"))
  | some (.other _) => .error .invalidUtf8
  | some (.utf8 text) => validate env (BitRef.fromStr text) (fs.withLock expanded.path)

/-- One layer. -/
def partiallyResolve (env : Env) (reference : BitRef) (fs : Fs) : Except Error BitRef :=
  match reference with
  | .Direct _ => validate env reference fs
  | .Symbolic sym => read env sym fs

/-- A symbolic reference that does not exist is what it resolves to. -/
def catchNonExistent : Except Error BitRef → Except Error BitRef
  | .error (.nonExistentSymRef sym) => .ok (.Symbolic sym)
  | r => r

def resolveIn (env : Env) (fs : Fs) : ℕ → BitRef → Except Error BitRef
  | 0, _ => .error .stackOverflow
  | depth+1, reference =>
    match partiallyResolve env reference fs with
    | .ok (.Symbolic sym) => resolveIn env fs depth (.Symbolic sym)
    | r => catchNonExistent r

def resolve (env : Env) (reference : BitRef) (fs : Fs) : Except Error BitRef := resolveIn env fs env.stackDepth reference

def fullyResolve (env : Env) (reference : BitRef) (fs : Fs) : Except Error Oid := do
  match ← resolve env reference fs with
  | .Direct oid => .ok oid
  | .Symbolic _ => .error (.message ("failed to resolve reference `"++String.ofList reference.display++"`"))

def readHead (env : Env) (fs : Fs) : Except Error BitRef := catchNonExistent (read env SymbolicRef.HEAD fs)

def joinLog (path : Text) : Text := join "logs".toList path

/-- A reflog that is locked. -/
structure Filelock where
  path : Path
  data : BitReflog
  deriving DecidableEq

def readReflog (sym : SymbolicRef) (fs : Fs) : Except Error Filelock := do
  let expanded ← expandSymref sym fs
  let path := joinLog expanded.path
  fs.openLock path
  match fs.files (location path) with
  | none => .ok ⟨location path,.default⟩
  | some (.other _) => .error .invalidUtf8
  | some (.utf8 text) => do
    let data ← (BitReflog.fromStr text).mapError .reflog
    .ok ⟨location path,data⟩

/-- The lock writes the whole log when it is dropped. -/
def log (sym : SymbolicRef) (newOid : Oid) (committer : BitSignature) (msg : Text) : Io Unit := do
  let lock ← reads (readReflog sym)
  modify fun fs => fs.write lock.path (.utf8 (lock.data.append newOid committer msg).serialize)

def setRefUnvalidated (sym : SymbolicRef) (target : BitRef) : Io Unit := do
  reads fun fs => fs.openLock sym.path
  modify fun fs => fs.write (location sym.path) (.utf8 target.serialize)

def setRef (env : Env) (sym : SymbolicRef) (target : BitRef) : Io Unit := do
  let validated ← reads (validate env target)
  setRefUnvalidated sym validated

/-- Point `sym` at `target`, and log it: also in the log of `HEAD`, if `HEAD` points at `sym`. -/
def update (env : Env) (sym : SymbolicRef) (target : BitRef) (cause : RefUpdateCause) : Io Unit := do
  setRef env sym target
  let newOid ← reads (fullyResolve env target)
  let committer ← reads fun _ => userSignature env
  let head ← reads (readHead env)
  if head = .Symbolic sym then log SymbolicRef.HEAD newOid committer cause.display
  log sym newOid committer cause.display

/-- `rev@{n}`, of a revision that is a reference (`rev.rs`). -/
def resolveReflogRev (env : Env) (r : BitRef) (n : ℕ) (fs : Fs) : Except Error BitRef := do
  match ← (if r = BitRef.HEAD then readHead env fs else validate env r fs) with
  | .Direct _ => .error (.message "can't use reflog revision syntax on a direct reference")
  | .Symbolic sym =>
    let lock ← readReflog sym fs
    match lock.data.get n with
    | some entry => .ok (.Direct entry.newOid)
    | none => .error (.message ("index `"++toString n++"` is out of range in reflog with `"++toString lock.data.len++
      "` entries"))

end Refs
end Libbit
