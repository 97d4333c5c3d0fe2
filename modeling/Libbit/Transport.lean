import Libbit.Lib.Utf8
import Libbit.Protocol
import Libbit.Refs

/-! The two ends of a fetch: the client (`transport.rs`, `protocol.rs`) and the server (`upload_pack.rs`). What
`parse_display` makes of a capability is a parameter, but for the three that the client sends. -/
namespace Libbit
namespace Transport

open Lib Lib.Reader
open Protocol (writePacket writeMessage recvMessage recvPacket)
open Refs (Text SymbolicRef BitRef Env Fs)

abbrev Oid := IndexFile.Oid

inductive Error
  | packet (e : IndexFile.Error)
  | oid (e : Packfile.BitError)
  | refs (e : Refs.Error)
  | message (text : String)
  | invalidUtf8
  /-- the client does not stop reading -/
  | outOfFuel
  deriving DecidableEq

abbrev Stream := Reader Byte Error

def receive {α : Type} (p : IndexFile.Parser α) : Stream α := fun bs => (p.run bs).mapError .packet

/-- What one end made of what it read. -/
def answer {α : Type} (r : Except Error α) : Stream α := fun bs => r.map fun a => (a,bs)

def fromUtf8 (packet : Bytes) : Except Error Text :=
  match decodeUtf8 packet with
  | some s => .ok s
  | none => .error .invalidUtf8

def parseOid (s : Text) : Except Error Oid := (Packfile.Oid.fromStr s).mapError .oid

/-! ### Wants and haves of the client -/

def CAPABILITIES_WANTED : List Text :=
  ["multi_ack_detailed".toList,"ofs-delta".toList,"side-band-64k".toList]

/-- The first line carries the capabilities. -/
def wantLine (i : ℕ) (oid : Oid) : Bytes :=
  if i = 0 then
    encodeUtf8 ("want ".toList++(Packfile.Oid.toHex oid++(' '::([' '].intercalate CAPABILITIES_WANTED++['\n']))))
  else encodeUtf8 ("want ".toList++(Packfile.Oid.toHex oid++['\n']))

def haveLine (oid : Oid) : Bytes := encodeUtf8 ("have ".toList++(Packfile.Oid.toHex oid++['\n']))

def writeWants (debug : Bool) (wanted : List Oid) : Except IndexFile.Error Bytes :=
  writeMessage debug (wanted.mapIdx wantLine)

def writeHaves (debug : Bool) (batch : List Oid) : Except IndexFile.Error Bytes := writeMessage debug (batch.map haveLine)

def MULTI_ACK_BATCH_SIZE : ℕ := 32

/-- The next commits of the walk, at most `n`, and the walk after them unless it ended. -/
def nextBatch : ℕ → List Oid → List Oid × Option (List Oid)
  | 0, walk => ([],some walk)
  | _+1, [] => ([],none)
  | n+1, commit::walk => let r := nextBatch n walk; (commit::r.1,r.2)

/-- A flush ends every batch, also an empty one at the end of the walk. -/
def batches : ℕ → List Oid → List (List Oid)
  | 0, _ => []
  | fuel+1, walk =>
    match nextBatch MULTI_ACK_BATCH_SIZE walk with
    | (batch,none) => [batch]
    | (batch,some walk) => batch::batches fuel walk

/-- Every round but the last takes a commit at least. -/
def haveBatches (commits : List Oid) : List (List Oid) := batches (commits.length+1) commits

/-! ### Wants and haves on the server -/

def parseCmdLine (cmd : Text) (packet : Bytes) : Except Error Oid := do
  let s ← fromUtf8 packet
  match splitOnce [' '] s with
  | none => .error (.message ("bad `"++String.ofList cmd++"` line"))
  | some (c,oid) =>
    ensure (.message "Condition failed: `c == cmd`") (c = cmd)
    parseOid oid

def recvWanted : Stream (List Oid) := do
  let packets ← receive recvMessage
  answer (packets.mapM (parseCmdLine "want".toList))

def recvHas : Stream (List Oid) := do
  let packets ← receive recvMessage
  answer (packets.mapM (parseCmdLine "have".toList))

/-! ### Reference discovery on the server -/

/-- `strip_prefix` and the text of the path. -/
def pathText (p : Refs.Path) : Text := ['/'].intercalate p

/-- The files below `refs`, each once. -/
def refFiles (fs : Fs) : List Refs.Path := fs.names.dedup.filter fun p => (fs.files p).isSome ∧ ["refs".toList] <+: p

/-- `HEAD` and all files below `refs`, which has to exist; `assert!` keeps duplicates out. -/
def lsRefs (fs : Fs) : Except Error (List SymbolicRef) := do
  ensure (.message "No such file or directory")
    ((fs.files ["refs".toList]).isSome ∨ fs.isDir ["refs".toList])
  let syms ← (refFiles fs).mapM fun p => (Refs.newValid (pathText p)).mapError .refs
  ensure (.refs (.panic "inserted duplicate ref")) (SymbolicRef.HEAD::syms).Nodup
  pure (SymbolicRef.HEAD::syms)

def tryFullyResolveRef (env : Env) (sym : SymbolicRef) (fs : Fs) : Except Error (Option Oid) := do
  match ← (Refs.resolve env (.Symbolic sym) fs).mapError .refs with
  | .Direct oid => .ok (some oid)
  | .Symbolic _ => .ok none

def CAPABILITIES : List Text := []

/-- The null character. -/
def NUL : Char := Char.ofNat 0

def refLine (i : ℕ) (oid : Oid) (sym : SymbolicRef) : Text :=
  if i = 0 then Packfile.Oid.toHex oid++(' '::(sym.path++(NUL::([' '].intercalate CAPABILITIES++['\n']))))
  else Packfile.Oid.toHex oid++(' '::(sym.path++['\n']))

/-- The lines of the references from the number `i` on. -/
def refPackets (env : Env) (debug : Bool) (fs : Fs) : ℕ → List SymbolicRef → Except Error Bytes
  | _, [] => .ok []
  | i, sym::syms => do
    match ← tryFullyResolveRef env sym fs with
    | none => refPackets env debug fs (i+1) syms
    | some oid =>
      let packet ← (writePacket debug (encodeUtf8 (refLine i oid sym))).mapError .packet
      let packets ← refPackets env debug fs (i+1) syms
      pure (packet++packets)

/-- The references are sorted by the bytes of their paths. -/
def sortedRefs (syms : List SymbolicRef) : List SymbolicRef :=
  syms.mergeSort fun a b => encodeUtf8 a.path ≤ encodeUtf8 b.path

def writeRefDiscovery (env : Env) (debug : Bool) (fs : Fs) : Except Error Bytes := do
  let refs ← lsRefs fs
  let packets ← refPackets env debug fs 0 (sortedRefs refs)
  pure (packets++Protocol.writeFlushPacket)

/-! ### Reference discovery of the client -/

abbrev RefMap := SymbolicRef → Option Oid

def parseRefLine (s : Text) : Except Error (Oid × SymbolicRef) :=
  match splitOnce [' '] s with
  | none => .error (.message "malformed ref line")
  | some (oid,sym) => do
    let oid ← parseOid oid
    pure (oid,SymbolicRef.fromStr sym)

/-- The lines after the first one. The fuel is the number of rounds. -/
def parseRefLines : ℕ → RefMap → Stream RefMap
  | 0, _ => throw .outOfFuel
  | n+1, mapping => do
    let packet ← receive recvPacket
    if packet = [] then pure mapping
    else
      let (oid,sym) ← answer (fromUtf8 packet >>= parseRefLine)
      parseRefLines n (Function.update mapping sym (some oid))

section
variable {κ : Type} (capability : Text → Option κ)

def parseCapabilities (s : Text) : Except Error (List κ) :=
  (splitAsciiWhitespace (trimEnd s)).mapM fun c =>
    match capability c with
    | some c => .ok c
    | none => .error (.message ("unknown capability `"++String.ofList c++"`"))

/-- The first line has the capabilities behind a null character. -/
def parseFirstLine (s : Text) : Except Error ((Oid × SymbolicRef) × List κ) :=
  match splitOnce [NUL] s with
  | none => .error (.message "malformed first line")
  | some (refLine,capabilities) => do
    let capabilities ← parseCapabilities capability capabilities
    let line ← parseRefLine refLine
    pure (line,capabilities)

/-- The fuel is enough, as every packet has four bytes at least. -/
def parseRefDiscoveryAndCapabilities : Stream (RefMap × List κ) := do
  let packet ← receive recvPacket
  if packet = [] then pure (fun _ => none,[])
  else
    let ((oid,sym),capabilities) ← answer (fromUtf8 packet >>= parseFirstLine capability)
    let rest ← get
    let mapping ← parseRefLines (rest.length+1) (Function.update (fun _ => none) sym (some oid))
    pure (mapping,capabilities)

end

end Transport
end Libbit
