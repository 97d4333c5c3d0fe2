import Libbit.Odb
import Libbit.PackIndexing
import Libbit.Lib.Utf8

/-! The objects of a repository (`odb.rs`, `cache.rs` and what `obj.rs` and `repo.rs` do with them). A packed and a loose store
are asked in this order. SHA-1, zlib and what becomes of an object once its bytes are there are parameters. -/
namespace Libbit
namespace Packfile

open Lib

inductive ObjError
  | bit (e : BitError)
  | packBackendWrite
  | expectedCommit (oid : Oid) (objType : BitObjType)
  /-- from the file system or from a stream that breaks off -/
  | io
  | panic (message : String)
  deriving DecidableEq

namespace ObjError

def isNotFoundErr : ObjError → Bool
  | .bit (.objectNotFound _) => true
  | .bit (.pack (.objectNotFoundInPackIndex _ _)) => true
  | _ => false

def isFatal (e : ObjError) : Bool := !(e.isNotFoundErr || e = .packBackendWrite)

end ObjError

inductive BitId
  | Full (oid : Oid)
  | Partial (p : PartialOid)

def BitId.display : BitId → List Char
  | .Full oid => oid.toHex
  | .Partial p => p.text

/-! ### Streams -/

/-- What a decoder still yields. -/
structure Stream where
  bytes : Bytes
  /-- It fails after that. -/
  broken : Bool
  deriving DecidableEq

/-- `flate2`: what was encoded is decoded. -/
structure Zlib where
  encode : Bytes → Bytes
  decode : Bytes → Stream
  decode_encode : ∀ bytes, decode (encode bytes) = ⟨bytes,false⟩

abbrev ReadStream := StateT Stream (Except ObjError)

namespace ReadStream

def readUntil (sep : Byte) : ReadStream Bytes := fun s =>
  if s.broken && !s.bytes.contains sep then .error .io
  else .ok ((Reader.splitAfter sep s.bytes).1,{s with bytes := (Reader.splitAfter sep s.bytes).2})

/-- `&buf[..i - 1]` -/
def before (sep : Byte) : ReadStream Bytes := do
  let buf ← readUntil sep
  if buf = [] then throw (.panic "attempt to subtract with overflow") else pure buf.dropLast

/-- Text that is no number, not even UTF-8, fails an `unwrap`. -/
def readAsciiNum (sep : Byte) : ReadStream ℤ := do
  match IndexFile.parseI64 (← before sep) with
  | some i => pure i
  | none => throw (.panic "called Result::unwrap() on an Err value")

end ReadStream

/-! ### Objects -/

/-- Bytes that are no text fail an `unwrap` first. -/
def BitObjType.fromStr (s : Bytes) : Except ObjError BitObjType :=
  match [BitObjType.Commit,.Tree,.Tag,.Blob].find? fun ty => ty.display = s with
  | some ty => .ok ty
  | none => match decodeUtf8 s with
    | some s => .error (.bit (.message ("unknown bit object type `"++String.ofList s++"`")))
    | none => .error (.panic "called Result::unwrap() on an Err value")

/-- The cast of the size makes a negative one large. -/
def readObjHeader : ReadStream BitObjHeader := do
  let objType ← StateT.lift (BitObjType.fromStr (← ReadStream.before 0x20))
  let size ← ReadStream.readAsciiNum 0x00
  pure ⟨objType,(size%2^64).toNat⟩

namespace BitPackObjRaw

/-- The object with its header of type and size. -/
def serializeWithHeaders (obj : BitPackObjRaw) : Bytes :=
  obj.objType.display++[0x20]++decimal obj.bytes.length++[0]++obj.bytes

end BitPackObjRaw

structure BitRawObj where
  oid : Oid
  objType : BitObjType
  size : ℕ
  stream : Stream
  deriving DecidableEq

namespace BitRawObj

def fromStream (oid : Oid) (stream : Stream) : Except ObjError BitRawObj := do
  let (header,stream) ← readObjHeader.run stream
  pure ⟨oid,header.objType,header.size,stream⟩

def fromRawPackObj (oid : Oid) (raw : BitPackObjRaw) : BitRawObj := ⟨oid,raw.objType,raw.bytes.length,⟨raw.bytes,false⟩⟩

end BitRawObj

/-! ### What the stores share -/

section Expand
variable {σ : Type} (prefixCandidates : PartialOid → EStateM ObjError σ (List Oid))

def expandPrefix (p : PartialOid) : EStateM ObjError σ Oid := do
  match ← prefixCandidates p with
  | [] => throw (.bit (.objectNotFound p.text))
  | [oid] => pure oid
  | candidates => throw (.bit (.ambiguousPrefix p.text candidates))

def expandId : BitId → EStateM ObjError σ Oid
  | .Full oid => pure oid
  | .Partial p => expandPrefix prefixCandidates p

end Expand

/-! ### Loose objects -/

/-- The files of the loose objects. -/
structure LooseFiles where
  /-- in the order of their paths -/
  files : List (Oid × Bytes)
  sorted : (files.map Prod.fst).Pairwise (· < ·)
  ignored : Oid → Bool

theorem sorted_fst_insertSorted {oid : Oid} {file : Bytes} {files : List (Oid × Bytes)}
    (h : (files.map Prod.fst).Pairwise (· < ·)) : ((insertSorted oid file files).map Prod.fst).Pairwise (· < ·) :=
  List.pairwise_map.mpr (sorted_insertSorted (List.pairwise_map.mp h))

namespace LooseFiles

/-- What the directories list. -/
def dirs (db : LooseFiles) : BitLooseObjDb := ⟨db.files.map Prod.fst,db.sorted,db.ignored⟩

/-- The file at `obj_path`. -/
def file? (db : LooseFiles) (oid : Oid) : Option Bytes := (db.files.find? fun x => x.1 = oid).map Prod.snd

def create (oid : Oid) (file : Bytes) : LooseFiles → LooseFiles
  | ⟨files,sorted,ignored⟩ => ⟨insertSorted oid file files,sorted_fst_insertSorted sorted,ignored⟩

section Backend
variable (sha1 : Bytes → Oid) (zlib : Zlib)

def prefixCandidates (p : PartialOid) : EStateM ObjError LooseFiles (List Oid) := do
  match (← get).dirs.prefixCandidates p with
  | .ok oids => pure oids
  | .error e => throw (.bit e)

/-- The file of an object. -/
def locateObj (id : BitId) : EStateM ObjError LooseFiles Bytes := do
  let oid ← expandId prefixCandidates id
  match (← get).file? oid with
  | some file => pure file
  | none => throw (.bit (.objectNotFound oid.toHex))

def readStream (id : BitId) : EStateM ObjError LooseFiles Stream := zlib.decode <$> locateObj id

def readRaw (id : BitId) : EStateM ObjError LooseFiles BitRawObj := do
  let oid ← expandId prefixCandidates id
  match BitRawObj.fromStream oid (← readStream zlib (.Full oid)) with
  | .ok raw => pure raw
  | .error e => throw e

def readHeader (id : BitId) : EStateM ObjError LooseFiles BitObjHeader := do
  match readObjHeader.run (← readStream zlib id) with
  | .ok (header,_) => pure header
  | .error e => throw e

/-- A file that is there is only compared, and only in a debug build. The lock of a new one may not be had. -/
def write (debug locked : Bool) (obj : BitPackObjRaw) : EStateM ObjError LooseFiles Oid := do
  let bytes := obj.serializeWithHeaders
  let oid := sha1 bytes
  match (← get).file? oid with
  | some file =>
    let buf := zlib.decode file
    if debug ∧ buf.broken then throw .io
    else if debug ∧ buf.bytes ≠ bytes then throw (.panic "same hash, different contents :O")
    else pure oid
  | none =>
    if locked then throw .io
    else do
      modify (create oid (zlib.encode bytes))
      pure oid

def objExists (id : BitId) : EStateM ObjError LooseFiles Bool := fun db =>
  match locateObj id db with
  | .ok _ db => .ok true db
  | .error e db => if e.isNotFoundErr then .ok false db else .error e db

end Backend
end LooseFiles

/-! ### Packed objects -/

namespace Packs

def ofRead {α : Type} (m : Read α) : EStateM ObjError Pack α := EStateM.adaptExcept (fun e => .bit (.pack e)) m

/-- The macro `process`: the packs are asked in their order, up to one that has an answer or a fatal error. -/
def process {α : Type} (m : EStateM ObjError Pack α) (notFound : ObjError) : EStateM ObjError (List Pack) α
  | [] => .error notFound []
  | pack::packs => match m pack with
    | .ok a pack => .ok a (pack::packs)
    | .error e pack =>
      if e.isFatal then .error e (pack::packs)
      else match process m notFound packs with
        | .ok a packs => .ok a (pack::packs)
        | .error e packs => .error e (pack::packs)

/-- `any`, where an error counts as no. -/
def anyPack (m : EStateM ObjError Pack Bool) : EStateM ObjError (List Pack) Bool
  | [] => .ok false []
  | pack::packs => match m pack with
    | .ok true pack => .ok true (pack::packs)
    | .ok false pack | .error _ pack => match anyPack m packs with
      | .ok b packs => .ok b (pack::packs)
      | .error e packs => .error e (pack::packs)

variable (inflater : IndexFile.Parser Bytes)

def prefixCandidates (p : PartialOid) : EStateM ObjError (List Pack) (List Oid) := EStateM.adaptExcept .bit (packCandidates p)

def readRaw (id : BitId) : EStateM ObjError (List Pack) BitRawObj := do
  let oid ← expandId prefixCandidates id
  let raw ← process (ofRead (Pack.readObjRaw inflater oid)) (.bit (.objectNotFound oid.toHex))
  pure (.fromRawPackObj oid raw)

def readHeader (id : BitId) : EStateM ObjError (List Pack) BitObjHeader := do
  let oid ← expandId prefixCandidates id
  process (ofRead (Pack.readObjHeader oid)) (.bit (.objectNotFound id.display))

def write (_obj : BitPackObjRaw) : EStateM ObjError (List Pack) Oid := throw .packBackendWrite

def objExists (id : BitId) : EStateM ObjError (List Pack) Bool := do
  let oid ← expandId prefixCandidates id
  anyPack fun pack => match ofRead (Pack.objOffset oid) pack with
    | .ok _ pack => .ok true pack
    | .error e pack => if e.isNotFoundErr then .ok false pack else .error e pack

end Packs

/-! ### The database -/

structure ObjDb where
  packs : List Pack
  loose : LooseFiles

namespace ObjDb

def onPacks {α : Type} (m : EStateM ObjError (List Pack) α) : EStateM ObjError ObjDb α := fun db =>
  match m db.packs with
  | .ok a packs => .ok a {db with packs := packs}
  | .error e packs => .error e {db with packs := packs}

def onLoose {α : Type} (m : EStateM ObjError LooseFiles α) : EStateM ObjError ObjDb α := fun db =>
  match m db.loose with
  | .ok a loose => .ok a {db with loose := loose}
  | .error e loose => .error e {db with loose := loose}

/-- The macro `backend_method`. -/
def backendMethod {α : Type} (packed : EStateM ObjError (List Pack) α) (loose : EStateM ObjError LooseFiles α) :
    EStateM ObjError ObjDb α := fun db =>
  match onPacks packed db with
  | .ok a db => .ok a db
  | .error e db => if e.isFatal then .error e db else onLoose loose db

variable (sha1 : Bytes → Oid) (zlib : Zlib) (inflater : IndexFile.Parser Bytes)

def prefixCandidates (p : PartialOid) : EStateM ObjError ObjDb (List Oid) := do
  let packed ← onPacks (Packs.prefixCandidates p)
  let loose ← onLoose (LooseFiles.prefixCandidates p)
  pure (packed++loose)

def readRaw (id : BitId) : EStateM ObjError ObjDb BitRawObj :=
  backendMethod (Packs.readRaw inflater id) (LooseFiles.readRaw zlib id)

def readHeader (id : BitId) : EStateM ObjError ObjDb BitObjHeader :=
  backendMethod (Packs.readHeader id) (LooseFiles.readHeader zlib id)

def write (debug locked : Bool) (obj : BitPackObjRaw) : EStateM ObjError ObjDb Oid :=
  backendMethod (Packs.write obj) (LooseFiles.write sha1 zlib debug locked obj)

/-- An error of either store counts as no. -/
def objExists (id : BitId) : EStateM ObjError ObjDb Bool := fun db =>
  match onPacks (Packs.objExists id) db with
  | .ok true db => .ok true db
  | .ok false db | .error _ db => match onLoose (LooseFiles.objExists id) db with
    | .ok b db => .ok b db
    | .error _ db => .ok false db

end ObjDb

/-! ### The repository -/

/-- `Oid::EMPTY_TREE`, the hash of a tree without entries. -/
def EMPTY_TREE : Oid :=
  ⟨[0x4b,0x82,0x5d,0xc6,0x42,0xcb,0x6e,0xb9,0xa0,0x60,0xe5,0x4b,0xf8,0xd6,0x92,0x88,0xfb,0xee,0x49,0x04],rfl⟩

/-- The store of a repository, and the objects that were read from it. -/
structure ObjRepo (κ : Type) where
  odb : ObjDb
  objCache : Oid → Option κ

namespace ObjRepo
variable {κ α : Type}

def onOdb (m : EStateM ObjError ObjDb α) : EStateM ObjError (ObjRepo κ) α := fun r =>
  match m r.odb with
  | .ok a odb => .ok a {r with odb := odb}
  | .error e odb => .error e {r with odb := odb}

variable (zlib : Zlib) (inflater : IndexFile.Parser Bytes) (emptyTree : κ) (fromRaw : BitRawObj → Except ObjError κ)

/-- `BitObjCache::get_or_insert_with` -/
def getOrInsertWith (oid : Oid) (f : EStateM ObjError (ObjRepo κ) κ) : EStateM ObjError (ObjRepo κ) κ := do
  match (← get).objCache oid with
  | some obj => pure obj
  | none => do
    let obj ← f
    modify fun r => {r with objCache := Function.update r.objCache oid (some obj)}
    pure obj

/-- The empty tree is there even if no store has it. -/
def readObj (id : BitId) : EStateM ObjError (ObjRepo κ) κ := do
  let oid ← onOdb (expandId ObjDb.prefixCandidates id)
  if oid = EMPTY_TREE then pure emptyTree
  else getOrInsertWith oid do
    match fromRaw (← onOdb (ObjDb.readRaw zlib inflater (.Full oid))) with
    | .ok obj => pure obj
    | .error e => throw e

def ensureObjExists (id : BitId) : EStateM ObjError (ObjRepo κ) Unit := do
  if ← onOdb (ObjDb.objExists id) then pure () else throw (.bit (.objectNotFound id.display))

def ensureObjIsCommit (id : BitId) : EStateM ObjError (ObjRepo κ) Unit := do
  let oid ← onOdb (expandId ObjDb.prefixCandidates id)
  ensureObjExists (.Full oid)
  let header ← onOdb (ObjDb.readHeader zlib (.Full oid))
  if header.objType = .Commit then pure () else throw (.expectedCommit oid header.objType)

end ObjRepo
end Packfile
end Libbit
