import Libbit.IndexFile
import Libbit.Lib.Search
import Libbit.Lib.Eff

/-! The reader of a pack index of version 2 (`pack.rs`). Every read comes after a seek, so that the position in
the file is left out. A debug assertion that fails is a panic. -/
namespace Libbit
namespace Packfile

open Lib Lib.Reader
open IndexFile (Parser readU32 writeU32 readOid OID_SIZE)

abbrev Oid := IndexFile.Oid

/-- `oid[0]`. -/
def Oid.first (o : Oid) : Byte := o.bytes.headD 0

instance : LinearOrder Oid := LinearOrder.lift' IndexFile.Oid.bytes fun a b h => by
  cases a
  cases b
  congr

inductive Error
  | objectNotFoundInPackIndex (oid : Oid) (index : ℕ)
  | other (e : IndexFile.Error)
  deriving DecidableEq, Repr

def Error.panic (message : String) : Error := .other (.panic message)

def PACK_IDX_MAGIC : UInt32 := 0xff744f63
def FANOUT_ENTRYC : ℕ := 256
def FANOUT_ENTRY_SIZE : ℕ := 4
def FANOUT_SIZE : ℕ := FANOUT_ENTRYC*FANOUT_ENTRY_SIZE
def PACK_IDX_HEADER_SIZE : ℕ := 8
def CRC_SIZE : ℕ := 4
def OFFSET_SIZE : ℕ := 4
def EXT_OFFSET_SIZE : ℕ := 8
def MAX_OFFSET : ℕ := 0x7fffffff

def readU64 : Parser UInt64 := do
  let buf ← readExact .unexpectedEof 8
  pure (UInt64.ofNat (ofBigEndian buf))

def writeU64 (u : UInt64) : Bytes := bigEndian 8 u.toNat

/-- How many oids have each first byte, then how many have that one or a smaller one. -/
def buildFanout (oids : List Oid) : Byte → ℕ :=
  let fanout := oids.foldl (fun fanout oid => Function.update fanout oid.first (fanout oid.first+1)) fun _ => 0
  (List.range (FANOUT_ENTRYC-1)).foldl (fun fanout i =>
    Function.update fanout (Fin.ofNat 256 (i+1)) (fanout (Fin.ofNat 256 (i+1))+fanout (Fin.ofNat 256 i))) fanout

inductive Layer
  | Oid | Crc | Ofs | Ext
  deriving DecidableEq, Repr

def Layer.toUsize : Layer → ℕ
  | .Oid => 0
  | .Crc => 1
  | .Ofs => 2
  | .Ext => 3

structure PackIndexReader where
  reader : Bytes
  fanout : Byte → UInt32
  oidCache : ℕ → Option (List Oid)
  crcOffsetCache : Oid → Option (UInt32 × ℕ)
  /-- number of oids -/
  n : ℕ

def parseHeader : Parser Unit := do
  let magic ← readU32
  require (.bail "invalid pack index signature") (magic = PACK_IDX_MAGIC)
  let version ← readU32
  require (.bail "expected version 2") (version = 2)

def readFanout : Parser (Byte → UInt32) := do
  let fanout ← times readU32 FANOUT_ENTRYC
  pure fun b => fanout.getD b.val 0

namespace PackIndexReader

def new (reader : Bytes) : Except Error PackIndexReader :=
  match (do parseHeader; readFanout).run reader with
  | .ok (fanout,_) => .ok ⟨reader,fanout,fun _ => none,fun _ => none,(fanout 255).toNat⟩
  | .error e => .error (.other e)

abbrev Lookup := EStateM Error PackIndexReader

def assertThat (condition : String) (c : Prop) [Decidable c] : Lookup Unit :=
  if c then pure () else throw (.panic ("assertion failed: "++condition))

/-- Seek and read. -/
def readAt {α : Type} (offset : ℕ) (p : Parser α) : Lookup α := do
  let r ← get
  match p.run (r.reader.drop offset) with
  | .ok (a,_) => pure a
  | .error e => throw (.other e)

def SIZE : List ℕ := [OID_SIZE,CRC_SIZE,OFFSET_SIZE,EXT_OFFSET_SIZE]

/-- The number of bytes before the entry. -/
def offsetOf (layer : Layer) (index : ℕ) : Lookup ℕ := do
  assertThat "layer < Layer::Ext" (layer.toUsize < Layer.Ext.toUsize)
  let r ← get
  let base := PACK_IDX_HEADER_SIZE+FANOUT_SIZE+((List.range layer.toUsize).map fun layer => SIZE.getD layer 0*r.n).sum
  pure (base+index*SIZE.getD layer.toUsize 0)

def readFrom {α : Type} (p : Parser α) (layer : Layer) (index : ℕ) : Lookup α := do
  let offset ← offsetOf layer index
  readAt offset p

/-- The answer of the search in oids whose first one has the index `low`. -/
def search (oid : Oid) (low : ℕ) (oids : List Oid) : Lookup ℕ :=
  match binarySearch oids oid with
  | .ok idx => pure (low+idx)
  | .error idx => throw (.objectNotFoundInPackIndex oid (low+idx))

/-- The position of the first oid with the first byte of `oid`. -/
def low (r : PackIndexReader) (oid : Oid) : ℕ := if oid.first = 0 then 0 else (r.fanout (oid.first-1)).toNat

/-- `read_vec((high - low) as usize).unwrap()`. -/
def readBucket (low high : ℕ) : Lookup (List Oid) := do
  if high < low then throw (.panic "attempt to subtract with overflow")
  let r ← get
  match (times readOid (high-low)).run (r.reader.drop (PACK_IDX_HEADER_SIZE+FANOUT_SIZE+low*OID_SIZE)) with
  | .ok (oids,_) => pure oids
  | .error _ => throw (.panic "called Result::unwrap() on an Err value")

def findOidIndex (oid : Oid) : Lookup ℕ := do
  let r ← get
  let low := r.low oid
  let high := (r.fanout oid.first).toNat
  match r.oidCache low with
  | some oids => search oid low oids
  | none =>
    let oids ← readBucket low high
    modify fun r => { r with oidCache := Function.update r.oidCache low (some oids) }
    search oid low oids

def findOidCrcOffsetInner (oid : Oid) : Lookup (UInt32 × ℕ) := do
  let index ← findOidIndex oid
  let there ← readFrom readOid .Oid index
  assertThat "oid == self.read_from(Layer::Oid, index)?" (oid = there)
  let crc ← readFrom readU32 .Crc index
  let offset ← readFrom readU32 .Ofs index
  if offset.toNat > MAX_OFFSET then
    let offset ← readFrom readU64 .Ext (offset.toNat &&& MAX_OFFSET)
    pure (crc,offset.toNat)
  else pure (crc,offset.toNat)

def findOidCrcOffset (oid : Oid) : Lookup (UInt32 × ℕ) := do
  let r ← get
  match r.crcOffsetCache oid with
  | some crcOffset => pure crcOffset
  | none =>
    let crcOffset ← findOidCrcOffsetInner oid
    modify fun r => { r with crcOffsetCache := Function.update r.crcOffsetCache oid (some crcOffset) }
    pure crcOffset

/-- What one call says on a reader that was just opened. -/
def lookup (file : Bytes) (oid : Oid) : Except Error (UInt32 × ℕ) := do
  let r ← new file
  outcome (findOidCrcOffset oid r)

/-- What each of the calls on one reader says. -/
def answers : List Oid → PackIndexReader → List (Except Error (UInt32 × ℕ))
  | [], _ => []
  | oid::oids, r => let x := findOidCrcOffset oid r; outcome x::answers oids (final x)

def lookups (file : Bytes) (oids : List Oid) : Except Error (List (Except Error (UInt32 × ℕ))) := do
  let r ← new file
  pure (answers oids r)

end PackIndexReader
end Packfile
end Libbit
