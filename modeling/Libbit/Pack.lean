import Libbit.Delta

/-! Packs (`pack.rs`) and the indexer that reads one from its start to its end (`pack/indexer.rs`). What
inflates a stream, the SHA-1 and the CRC are parameters. The recursion along the bases of a delta has a fuel;
a chain as long as the pack never ends. -/
namespace Libbit
namespace Packfile

open Lib Lib.Reader
open IndexFile (Parser assertThat readU32 writeU32 readOid)

inductive BitObjType
  | Commit | Tree | Blob | Tag
  deriving DecidableEq, Repr

def BitObjType.display : BitObjType → Bytes
  | .Commit => [0x63,0x6f,0x6d,0x6d,0x69,0x74]
  | .Tree => [0x74,0x72,0x65,0x65]
  | .Tag => [0x74,0x61,0x67]
  | .Blob => [0x62,0x6c,0x6f,0x62]

structure BitObjHeader where
  objType : BitObjType
  size : ℕ
  deriving DecidableEq, Repr

structure BitPackObjRaw where
  objType : BitObjType
  bytes : Bytes
  deriving DecidableEq, Repr

namespace BitPackObjRaw

def oid (sha1 : Bytes → Oid) (raw : BitPackObjRaw) : Oid :=
  sha1 (raw.objType.display++[0x20]++decimal raw.bytes.length++[0]++raw.bytes)

def expandWithDelta (raw : BitPackObjRaw) (delta : Delta) : Except IndexFile.Error BitPackObjRaw := do
  let bytes ← delta.expand raw.bytes
  pure ⟨raw.objType,bytes⟩

def expandWithDeltaBytes (raw : BitPackObjRaw) (deltaBytes : Bytes) : Except IndexFile.Error BitPackObjRaw := do
  let delta ← Delta.deserialize deltaBytes
  raw.expandWithDelta delta

end BitPackObjRaw

/-- The bytes of a delta are inflated. -/
inductive BitPackObjRawDeltified
  | Raw (raw : BitPackObjRaw)
  | Ofs (offset : ℕ) (delta : Bytes)
  | Ref (oid : Oid) (delta : Bytes)
  deriving DecidableEq

/-- The delta of an object that is not stored whole. -/
def BitPackObjRawDeltified.delta? : BitPackObjRawDeltified → Option Bytes
  | .Raw _ => none
  | .Ofs _ delta => some delta
  | .Ref _ delta => some delta

inductive BitPackObjType
  | Commit | Tree | Blob | Tag | OfsDelta | RefDelta
  deriving DecidableEq, Repr

def BitPackObjType.toU8 : BitPackObjType → ℕ
  | .Commit => 1
  | .Tree => 2
  | .Blob => 3
  | .Tag => 4
  | .OfsDelta => 6
  | .RefDelta => 7

def BitPackObjType.tryFromU8 (ty : ℕ) : Parser BitPackObjType :=
  orFail (.bail "invalid bit pack object type") ([.Commit,.Tree,.Blob,.Tag,.OfsDelta,.RefDelta].find? fun t => t.toU8 = ty)

def BitPackObjType.whole? : BitPackObjType → Option BitObjType
  | .Commit => some .Commit
  | .Tree => some .Tree
  | .Blob => some .Blob
  | .Tag => some .Tag
  | .OfsDelta => none
  | .RefDelta => none

/-- `BitObjType::from` -/
def BitPackObjType.toObjType (ty : BitPackObjType) : Parser BitObjType :=
  orFail (.panic "found delta object type") ty.whole?

structure BitPackObjHeader where
  objType : BitPackObjType
  size : ℕ
  deriving DecidableEq, Repr

def PACK_SIGNATURE : Bytes := [0x50,0x41,0x43,0x4b]

/-- The number of objects. -/
def parsePackHeader : Parser UInt32 := do
  let sig ← readExact .unexpectedEof 4
  require (.bail "invalid packfile signature") (sig = PACK_SIGNATURE)
  let version ← readU32
  require (.bail ("invalid packfile version `"++toString version++"`")) (version = 2)
  readU32

def readPackObjHeader : Parser BitPackObjHeader := do
  let (ty,size) ← readLeVarintWithShift 3
  let objType ← BitPackObjType.tryFromU8 ty
  pure ⟨objType,size⟩

section Inflate
variable (zlib : Parser Bytes)

def inflate (size : ℕ) : Parser Bytes := do
  assertThat "capacity overflow" (size < 2^63)
  let output ← zlib
  assertThat "output.len() as u64 == size" (output.length = size)
  pure output

def readPackObj : Parser BitPackObjRawDeltified := do
  let header ← readPackObjHeader
  match header.objType with
  | .OfsDelta =>
    let offset ← readOffset
    let delta ← inflate zlib header.size
    pure (.Ofs offset delta)
  | .RefDelta =>
    let oid ← readOid
    let delta ← inflate zlib header.size
    pure (.Ref oid delta)
  | _ =>
    let objType ← header.objType.toObjType
    let bytes ← inflate zlib header.size
    pure (.Raw ⟨objType,bytes⟩)

end Inflate

/-! ### Random access -/

structure Pack where
  file : Bytes
  /-- What follows the position in the file. -/
  reader : Bytes
  idxReader : PackIndexReader
  packObjCache : ℕ → Option BitPackObjRaw

abbrev Read := EStateM Error Pack

namespace Pack

def new (pack idx : Bytes) : Except Error Pack := do
  match parsePackHeader.run pack with
  | .ok (_,reader) =>
    let idxReader ← PackIndexReader.new idx
    pure ⟨pack,reader,idxReader,fun _ => none⟩
  | .error e => throw (.other e)

def seek (offset : ℕ) : Read Unit := modify fun p => { p with reader := p.file.drop offset }

def parse {α : Type} (parser : Parser α) : Read α := do
  let p ← get
  match parser.run p.reader with
  | .ok (a,rest) =>
    set { p with reader := rest }
    pure a
  | .error e => throw (.other e)

def idx {α : Type} (m : PackIndexReader.Lookup α) : Read α := fun p =>
  match m p.idxReader with
  | .ok a r => .ok a { p with idxReader := r }
  | .error e r => .error e { p with idxReader := r }

def liftExcept {α : Type} : Except IndexFile.Error α → Read α
  | .ok a => pure a
  | .error e => throw (.other e)

/-- A subtraction of `u64`s. -/
def sub (a b : ℕ) : Except IndexFile.Error ℕ :=
  if b ≤ a then .ok (a-b) else .error (.panic "attempt to subtract with overflow")

def objCrcOffset (oid : Oid) : Read (UInt32 × ℕ) := idx (PackIndexReader.findOidCrcOffset oid)

def objOffset (oid : Oid) : Read ℕ := do
  let crcOffset ← objCrcOffset oid
  pure crcOffset.2

section Objects
variable (zlib : Parser Bytes)

def readObjFromOffsetRaw (offset : ℕ) : Read BitPackObjRawDeltified := do
  seek offset
  parse (readPackObj zlib)

/-- `expand_raw_obj`, with what reads the object at an offset. -/
def expandRawObj (readObjRawAt : ℕ → Read BitPackObjRaw) (rawKind : BitPackObjRawDeltified) (baseOffset : ℕ) :
    Read BitPackObjRaw :=
  match rawKind with
  | .Raw raw => pure raw
  | .Ofs offset delta => do
    let offset ← liftExcept (sub baseOffset offset)
    let base ← readObjRawAt offset
    liftExcept (base.expandWithDeltaBytes delta)
  | .Ref baseOid delta => do
    let offset ← objOffset baseOid
    let base ← readObjRawAt offset
    liftExcept (base.expandWithDeltaBytes delta)

/-- No chain of bases is longer than the fuel. -/
def readObjRawAt : ℕ → ℕ → Read BitPackObjRaw
  | 0, _ => throw (.other .outOfFuel)
  | fuel+1, offset => do
    let p ← get
    match p.packObjCache offset with
    | some raw => pure raw
    | none =>
      let raw ← readObjFromOffsetRaw zlib offset
      let expanded ← expandRawObj (readObjRawAt fuel) raw offset
      modify fun p => { p with packObjCache := Function.update p.packObjCache offset (some expanded) }
      pure expanded

def readObjRaw (oid : Oid) : Read BitPackObjRaw := do
  let offset ← objOffset oid
  let p ← get
  readObjRawAt zlib p.file.length offset

end Objects

def readHeaderFromOffset (offset : ℕ) : Read BitPackObjHeader := do
  seek offset
  parse readPackObjHeader

def readObjHeaderAt : ℕ → ℕ → Read BitObjHeader
  | 0, _ => throw (.other .outOfFuel)
  | fuel+1, offset => do
    let header ← readHeaderFromOffset offset
    match header.objType with
    | .OfsDelta =>
      let ofs ← parse readOffset
      let base ← liftExcept (sub offset ofs)
      let baseHeader ← readObjHeaderAt fuel base
      pure ⟨baseHeader.objType,header.size⟩
    | .RefDelta =>
      let oid ← parse readOid
      let base ← objOffset oid
      let baseHeader ← readObjHeaderAt fuel base
      pure ⟨baseHeader.objType,header.size⟩
    | _ =>
      let objType ← parse header.objType.toObjType
      pure ⟨objType,header.size⟩

def readObjHeader (oid : Oid) : Read BitObjHeader := do
  let offset ← objOffset oid
  let p ← get
  readObjHeaderAt p.file.length offset

end Pack

/-! ### Indexing a pack -/

structure PackIndex where
  fanout : Byte → UInt32
  oids : List Oid
  crcs : List UInt32
  offsets : List UInt32
  packHash : Oid

/-- What is hashed. -/
def PackIndex.body (p : PackIndex) : Bytes :=
  writeU32 PACK_IDX_MAGIC++writeU32 2++((List.finRange FANOUT_ENTRYC).flatMap fun b => writeU32 (p.fanout b))++
    p.oids.flatMap IndexFile.Oid.bytes++p.crcs.flatMap writeU32++p.offsets.flatMap writeU32++p.packHash.bytes

def PackIndex.serialize (sha1 : Bytes → Oid) (p : PackIndex) : Bytes := p.body++(sha1 p.body).bytes

/-- The numbers of entries come from the last cell of the fanout. -/
def PackIndex.parse : Parser PackIndex := do
  parseHeader
  let fanout ← readFanout
  let n := (fanout 255).toNat
  let oids ← times readOid n
  assertThat "oids.is_sorted()" (oids.Pairwise (· ≤ ·))
  let crcs ← times readU32 n
  let offsets ← times readU32 n
  let packHash ← readOid
  pure ⟨fanout,oids,crcs,offsets,packHash⟩

/-- What was read up to the hash is hashed. -/
def PackIndex.deserialize (sha1 : Bytes → Oid) (reader : Bytes) : Except IndexFile.Error PackIndex := do
  let (index,rest) ← parse.run reader
  let hash := sha1 (reader.take (reader.length-rest.length))
  let (idxHash,rest) ← readOid.run rest
  ensure (.bail "Condition failed: `idx_hash == hash`") (idxHash = hash)
  ensure (.panic "todo parse level 5 fanout for large indexes") (rest = [])
  pure index

/-- `BTreeMap::insert` -/
def insertSorted {α : Type} (oid : Oid) (a : α) : List (Oid × α) → List (Oid × α)
  | [] => [(oid,a)]
  | (o,b)::l => if oid < o then (oid,a)::(o,b)::l else if o < oid then (o,b)::insertSorted oid a l else (oid,a)::l

structure PackIndexer where
  /-- What the reader of the pack has hashed. -/
  hashed : Bytes
  reader : Bytes
  objectc : UInt32
  rawObjects : ℕ → Option BitPackObjRaw
  oidToOffset : Oid → Option ℕ
  sorted : List (Oid × ℕ × UInt32)

abbrev Index := EStateM IndexFile.Error PackIndexer

namespace PackIndexer
variable (sha1 : Bytes → Oid) (crc32 : Bytes → UInt32) (zlib : Parser Bytes)

def new (reader : Bytes) : Except IndexFile.Error PackIndexer := do
  let (objectc,rest) ← parsePackHeader.run reader
  pure ⟨reader.take (reader.length-rest.length),rest,objectc,fun _ => none,fun _ => none,[]⟩

def bytesHashed (p : PackIndexer) : ℕ := p.hashed.length

/-- The object, and the CRC of what was read of it. -/
def readPackObjWithCrc : Index (UInt32 × BitPackObjRawDeltified) := do
  let p ← get
  match (readPackObj zlib).run p.reader with
  | .ok (raw,rest) =>
    let consumed := p.reader.take (p.reader.length-rest.length)
    set { p with hashed := p.hashed++consumed, reader := rest }
    pure (crc32 consumed,raw)
  | .error e => throw e

/-- `map[&key]` -/
def entry {κ α : Type} (map : κ → Option α) (key : κ) : Except IndexFile.Error α :=
  match map key with
  | some a => .ok a
  | none => .error (.panic "no entry found for key")

def expandDeltas (p : PackIndexer) (obj : BitPackObjRawDeltified) (baseOffset : ℕ) :
    Except IndexFile.Error BitPackObjRaw :=
  match obj with
  | .Raw raw => .ok raw
  | .Ofs offset delta => do
    let offset ← Pack.sub baseOffset offset
    let base ← entry p.rawObjects offset
    base.expandWithDeltaBytes delta
  | .Ref baseOid delta => do
    let offset ← entry p.oidToOffset baseOid
    let base ← entry p.rawObjects offset
    base.expandWithDeltaBytes delta

/-- One round of the loop of `index_pack`. -/
def indexObject : Index Unit := do
  let p ← get
  let offset := p.bytesHashed
  let (crc,deltified) ← readPackObjWithCrc crc32 zlib
  match p.expandDeltas deltified offset with
  | .error e => throw e
  | .ok raw =>
    let oid := raw.oid sha1
    modify fun p =>
      { p with
        oidToOffset := Function.update p.oidToOffset oid (some offset)
        rawObjects := Function.update p.rawObjects offset (some raw)
        sorted := insertSorted oid (offset,crc) p.sorted }

def indexObjects : ℕ → Index Unit
  | 0 => pure ()
  | n+1 => do
    indexObject sha1 crc32 zlib
    indexObjects n

/-- What follows the last object: the hash, and nothing else. -/
def readTrailer (p : PackIndexer) : Parser Oid := do
  let packHash := sha1 p.hashed
  let expectedHash ← readOid
  let rest ← get
  assertThat "reader.is_at_eof()?" (rest = [])
  require (.bail "corrupted packfile") (expectedHash = packHash)
  pure packHash

def finish (p : PackIndexer) : Except IndexFile.Error PackIndex := do
  let (packHash,_) ← (p.readTrailer sha1).run p.reader
  ensure (.panic "todo ext layer") (∀ x ∈ p.sorted, x.2.1 < MAX_OFFSET)
  let oids := p.sorted.map Prod.fst
  pure ⟨fun b => UInt32.ofNat (buildFanout oids b),oids,p.sorted.map fun x => x.2.2,
    p.sorted.map fun x => UInt32.ofNat x.2.1,packHash⟩

def indexPack (reader : Bytes) : Except IndexFile.Error PackIndex := do
  let indexer ← new reader
  let indexer ← endState (indexObjects sha1 crc32 zlib indexer.objectc.toNat indexer)
  indexer.finish sha1

end PackIndexer

end Packfile
end Libbit
