import Libbit.Transport

/-! Remotes (`remote.rs`): which refs a refspec maps where, and the fetch of a client (`transport.rs`). What the server makes of
the wants and haves is a parameter, and so is the walk over the local commits. -/
namespace Libbit
namespace Refs

open Lib

def DEFAULT_REMOTE : Text := "origin".toList

/-- Both sides are without their `*`. -/
structure Refspec where
  src : Text
  dst : Text
  forced : Bool
  glob : Bool
  deriving DecidableEq

namespace Refspec

def defaultFetchForRemote (remoteName : Text) : Refspec :=
  ⟨"refs/heads/".toList,"refs/remotes/".toList++remoteName++['/'],true,true⟩

def reverse (r : Refspec) : Refspec := ⟨r.dst,r.src,r.forced,r.glob⟩

/-- The suffix behind the side that has a `*` is kept. -/
def matchRef (r : Refspec) (source : SymbolicRef) : Option SymbolicRef :=
  if r.glob then
    if r.src.isPrefixOf source.path then some ⟨r.dst++source.path.drop r.src.length⟩ else none
  else if source.path = r.src then some ⟨r.dst⟩
  else none

def reverseMatchRef (r : Refspec) (dst : SymbolicRef) : Option SymbolicRef := r.reverse.matchRef dst

/-- The text without a `*` at its end, and whether there was one. -/
def stripGlob (s : Text) : Text × Bool := if s.getLast? = some '*' then (s.dropLast,true) else (s,false)

/-- `&s[0..1]`, which must be one character. -/
def firstByte : Text → Except Error Char
  | [] => .error (.panic "byte index 1 is out of bounds")
  | c::_ => if c.utf8Size = 1 then .ok c else .error (.panic "byte index 1 is not a char boundary")

/-- The two sides of the colon. -/
def sides (forced : Bool) (s : Text) : Except Error Refspec :=
  match splitOnce [':'] s with
  | none => .error (.message "missing `:` in refspec")
  | some (src,dst) =>
    if (stripGlob src).2 = (stripGlob dst).2 then .ok ⟨(stripGlob src).1,(stripGlob dst).1,forced,(stripGlob src).2⟩
    else .error (.message "only one side of refspec is globbed")

def fromStr (s : Text) : Except Error Refspec := do
  if (← firstByte s) = '+' then sides true s.tail else sides false s

def display (r : Refspec) : Text :=
  (if r.forced then ['+'] else [])++if r.glob then r.src++['*',':']++r.dst++['*'] else r.src++[':']++r.dst

end Refspec

/-! ### Fetching -/

inductive Capability
  | MultiAckDetailed
  | SideBand64k
  | OfsDelta
  | Symref (source target : SymbolicRef)
  /-- one that no part of a fetch asks for -/
  | other (text : Text)
  deriving DecidableEq

inductive FetchStatus
  | EmptyRemote | UpToDate | NotUpToDate
  deriving DecidableEq

structure FetchSummary where
  /-- The branch that the HEAD of the remote points at. -/
  headSymref : Option SymbolicRef
  status : FetchStatus
  deriving DecidableEq

def FetchSummary.EMPTY_REMOTE : FetchSummary := ⟨none,.EmptyRemote⟩

/-- What a fetch meets outside of the files: the local history, and a server that sends a pack for some wants and haves, or
breaks off. The pack decides which objects there are from then on. -/
structure Peer where
  revwalk : List Oid → Except Error (List Oid)
  recvPack : List Oid → List (List Oid) → Except Error (Oid → Except ObjectError Unit)

/-- What there is of a repository in a fetch. -/
structure Site where
  env : Env
  fs : Fs

abbrev Net := EStateM Error Site

def onFs {α : Type} (m : Env → Io α) : Net α := fun s =>
  match m s.env s.fs with
  | .ok a fs => .ok a {s with fs := fs}
  | .error e fs => .error e {s with fs := fs}

def tryFullyResolveRef (env : Env) (reference : BitRef) (fs : Fs) : Except Error (Option Oid) := do
  match ← resolve env reference fs with
  | .Direct oid => .ok (some oid)
  | .Symbolic _ => .ok none

def updateRefForFetch (env : Env) (sym : SymbolicRef) (target : BitRef) : Io Unit := do
  let oid ← reads (fullyResolve env target)
  update env sym (.Direct oid) (.Fetch target)

/-- The oids that are wanted, and the local ones there are in their place. -/
def wantedAndTips (env : Env) (fs : Fs) : List (SymbolicRef × Oid) → Except Error (List Oid × List Oid)
  | [] => .ok ([],[])
  | (remote,remoteOid)::mapping => do
    let localOid ← tryFullyResolveRef env (.Symbolic remote) fs
    let (wanted,tips) ← wantedAndTips env fs mapping
    .ok (if localOid = some remoteOid then wanted else remoteOid::wanted,localOid.toList++tips)

/-- Nothing is sent if nothing is wanted. -/
def negotiatePacks (peer : Peer) (mapping : List (SymbolicRef × Oid)) : Net FetchStatus := do
  let (wanted,tips) ← onFs fun env => reads fun fs => wantedAndTips env fs mapping
  if wanted = [] then pure .UpToDate
  else do
    let walk ← onFs fun _ => reads fun _ => peer.revwalk tips
    let objects ← onFs fun _ => reads fun _ => peer.recvPack wanted (Transport.haveBatches walk)
    modify fun s => {s with env := {s.env with ensureObjIsCommit := objects}}
    pure .NotUpToDate

/-- The refs that the refspec maps, with their new places. -/
def remoteMapping (fetch : Refspec) (refs : List (SymbolicRef × Oid)) : List (SymbolicRef × Oid) :=
  refs.filterMap fun x => (fetch.matchRef x.1).map (·,x.2)

/-- `ProtocolTransport::fetch`, once the refs are read. The maps are lists here, in whatever order they are gone through. -/
def fetch (peer : Peer) (spec : Refspec) (refs : List (SymbolicRef × Oid)) (capabilities : List Capability) : Net FetchSummary := do
  if refs = [] then pure .EMPTY_REMOTE
  else if .MultiAckDetailed ∉ capabilities then throw (.message "require `multi_ack_detailed` capability")
  else if .SideBand64k ∉ capabilities then throw (.message "require `side-band-64k` capability")
  else if .OfsDelta ∉ capabilities then throw (.message "require `ofs-delta` capability")
  else do
    let mapping := remoteMapping spec refs
    let status ← negotiatePacks peer mapping
    mapping.forM fun x => onFs fun env => updateRefForFetch env x.1 (.Direct x.2)
    let headSymref := capabilities.findSome? fun
      | .Symref head sym => if head = SymbolicRef.HEAD then some sym else none
      | _ => none
    pure ⟨headSymref,status⟩

end Refs
end Libbit
