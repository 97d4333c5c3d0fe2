import Libbit.ProtocolSpec
import Libbit.Pack
import Libbit.Lib.BufWriter
import Libbit.Lib.Eff

/-! The reception of a pack (`protocol.rs`, `pack/writer.rs`). What the object database makes of the new pack is a
parameter, and so are the hashes and `zlib`. -/
namespace Libbit
namespace Protocol

open Lib Lib.Reader
open IndexFile (Error Parser isUtf8)
open Packfile (PackIndex PackIndexer)

def SIDEBAND_DATA : Byte := 1

def SIDEBAND_PROGRESS : Byte := 2

def SIDEBAND_ERROR : Byte := 3

def ACK : Bytes := [0x41,0x43,0x4B]

def NAK : Bytes := [0x4E,0x41,0x4B]

/-- The capacity of `BufWriter::new`. -/
def DEFAULT_BUF_SIZE : ℕ := 8192

/-- The files in the directory of the packs that are written here. -/
inductive PackPath
  | tmp | tmpIdx
  | pack (packHash : Packfile.Oid)
  | idx (packHash : Packfile.Oid)
  deriving DecidableEq

abbrev PackDir := PackPath → Option Bytes

structure Reception where
  /-- what is left to read -/
  stream : Bytes
  packObjectsDir : PackDir
  /-- what the `BufWriter` of the pack holds -/
  held : Bytes
  stderr : Bytes

abbrev Recv := EStateM Error Reception

def recv : Recv Bytes := fun s =>
  match recvPacket.run s.stream with
  | .ok (packet,stream) => .ok packet { s with stream }
  | .error e => .error e s

def readFile (path : PackPath) : Recv Bytes := do
  let s ← get
  match s.packObjectsDir path with
  | some bytes => pure bytes
  | none => throw (.bail "No such file or directory (os error 2)")

def setFile (path : PackPath) (content : Option Bytes) : Recv Unit :=
  modify fun s => { s with packObjectsDir := Function.update s.packObjectsDir path content }

/-- `std::fs::rename` -/
def renameFile (old new : PackPath) : Recv Unit := do
  let bytes ← readFile old
  setFile old none
  setFile new (some bytes)

/-! ### The writer -/

namespace PackWriter

def new : Recv Unit := do
  setFile .tmp (some [])
  modify fun s => { s with held := [] }

/-- `write_all` and `flush`. -/
def call (op : BufWriter.Op Byte) : Recv Unit := do
  let s ← get
  let (out,held) := BufWriter.call DEFAULT_BUF_SIZE s.held op
  let bytes ← readFile .tmp
  setFile .tmp (some (bytes++out.flatten))
  modify fun s => { s with held }

end PackWriter

/-! ### The packets -/

def eprint (s : Bytes) : Recv Unit := modify fun r => { r with stderr := r.stderr++s }

/-- What is left of the negotiation. The fuel is the number of rounds. -/
def skipAcks : ℕ → Bytes → Recv Bytes
  | 0, _ => throw .outOfFuel
  | n+1, packet =>
    if isUtf8 packet ∧ (ACK <+: packet ∨ NAK <+: packet) then do
      let packet ← recv
      skipAcks n packet
    else pure packet

def recvSideband (sideband : Byte) (data : Bytes) : Recv Unit :=
  if sideband = SIDEBAND_DATA then PackWriter.call (.write data)
  else if sideband = SIDEBAND_PROGRESS then if isUtf8 data then eprint data else throw .invalidUtf8
  else if sideband = SIDEBAND_ERROR then throw (.panic "not yet implemented")
  else throw (.bail ("invalid sideband byte `"++String.ofList (Nat.toDigits 16 sideband.val)++"`"))

/-- The packets up to an empty one. -/
def recvSidebands : ℕ → Bytes → Recv Unit
  | 0, _ => throw .outOfFuel
  | _+1, [] => pure ()
  | n+1, sideband::data => do
    recvSideband sideband data
    let packet ← recv
    recvSidebands n packet

section Index
variable (sha1 : Bytes → Packfile.Oid) (crc32 : Bytes → UInt32) (zlib : Parser Bytes)

def writePackIndex : Recv PackIndex := do
  let pack ← readFile .tmp
  match PackIndexer.indexPack sha1 crc32 zlib pack with
  | .error e => throw e
  | .ok packIndex =>
    setFile .tmpIdx (some (packIndex.serialize sha1))
    pure packIndex

def refresh (refreshOdb : PackDir → Except Error Unit) : Recv Unit := fun s => ended s (refreshOdb s.packObjectsDir)

/-- What is done with the pack when it is there. -/
def installPack (refreshOdb : PackDir → Except Error Unit) : Recv Unit := do
  let packIndex ← writePackIndex sha1 crc32 zlib
  renameFile .tmp (.pack packIndex.packHash)
  renameFile .tmpIdx (.idx packIndex.packHash)
  refresh refreshOdb

/-- Every round reads four bytes at least. -/
def recvPack (refreshOdb : PackDir → Except Error Unit) : Recv Unit := do
  let fuel := (← get).stream.length+1
  PackWriter.new
  let packet ← recv
  let packet ← skipAcks fuel packet
  recvSidebands fuel packet
  PackWriter.call .flush
  installPack sha1 crc32 zlib refreshOdb

end Index

end Protocol
end Libbit
