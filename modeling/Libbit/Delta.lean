import Libbit.PackIndex

/-! The numbers of a pack (`io.rs`) and deltas (`delta.rs`). A shift or a sum that does not fit 64 bits is a
panic, as are the slices out of range. -/
namespace Libbit
namespace Packfile

open Lib Lib.Reader
open IndexFile (Parser assertThat)

def readU8 : Parser Byte
  | [] => .error .unexpectedEof
  | b::bs => .ok (b,bs)

/-- The highest bit says that the number goes on. -/
def continues (b : Byte) : Prop := 0x80 ≤ b.val

instance (b : Byte) : Decidable (continues b) := inferInstanceAs (Decidable (_ ≤ _))

def low7 (b : Byte) : ℕ := b.val%0x80

/-- The loop of `read_offset` on the `offset` so far. -/
def readOffsetFrom (offset : ℕ) : Parser ℕ
  | [] => if offset+1 < 2^64 then .error .unexpectedEof else .error (.panic "attempt to add with overflow")
  | b::bs =>
    if offset+1 < 2^64 then
      let offset := (offset+1)*2^7%2^64+low7 b
      if continues b then readOffsetFrom offset bs else .ok (offset,bs)
    else .error (.panic "attempt to add with overflow")

def readOffset : Parser ℕ := do
  let byte ← readU8
  if continues byte then readOffsetFrom (low7 byte) else pure (low7 byte)

/-- The loop of `read_le_varint_with_shift` on the `n` so far. -/
def readVarintFrom (n shift : ℕ) : Parser ℕ
  | [] => .error .unexpectedEof
  | b::bs =>
    if shift < 64 then
      let n := n ||| low7 b*2^shift%2^64
      if continues b then readVarintFrom n (shift+7) bs else .ok (n,bs)
    else .error (.panic "attempt to shift left with overflow")

/-- The first `initShift` bits after the highest are a number of their own. -/
def readLeVarintWithShift (initShift : ℕ) : Parser (ℕ × ℕ) := do
  assertThat "init_shift < 8" (initShift < 8)
  let byte ← readU8
  let antiShift := 7-initShift
  let k := byte.val/2^antiShift%2^initShift
  let n := byte.val%2^antiShift
  if continues byte then (fun n => (k,n)) <$> readVarintFrom n antiShift else pure (k,n)

def readSize : Parser ℕ := Prod.snd <$> readLeVarintWithShift 0

/-- Bit `i` of the header says whether the byte `i` is there. -/
def readLePacked (header : Byte) : Parser ℕ := do
  assertThat "header & 1 << 7 != 0" (continues header)
  (List.range 7).foldlM (fun value i =>
    if header.val.testBit i then do
      let byte ← readU8
      pure (value ||| byte.val*2^(i*8))
    else pure value) 0

inductive DeltaOp
  | Copy (offset size : ℕ)
  | Insert (bytes : Bytes)
  deriving DecidableEq, Repr

structure Delta where
  sourceSize : ℕ
  targetSize : ℕ
  ops : List DeltaOp
  deriving DecidableEq, Repr

/-- As many bytes as there are, up to `n`. -/
def readUpTo (n : ℕ) : Parser Bytes := fun bs => .ok (bs.take n,bs.drop n)

def DeltaOp.deserialize : Parser DeltaOp := do
  let byte ← readU8
  if continues byte then
    let n ← readLePacked byte
    assertThat "n & 0xFF << 56 == 0" (n &&& (0xFF*2^56) = 0)
    let offset := n%2^32
    let size := n/2^32
    pure (.Copy offset (if size = 0 then 0x10000 else size))
  else
    assertThat "byte != 0" (byte ≠ 0)
    let bytes ← readUpTo (byte.val%0x80)
    pure (.Insert bytes)

/-- Each instruction takes a byte at least. -/
def readDeltaOps : ℕ → Parser (List DeltaOp)
  | _, [] => .ok ([],[])
  | 0, _ => .error .outOfFuel
  | fuel+1, bs => (do
    let op ← DeltaOp.deserialize
    let ops ← readDeltaOps fuel
    pure (op::ops)) bs

namespace Delta

def parser : Parser Delta := do
  let sourceSize ← readSize
  let targetSize ← readSize
  let bs ← get
  let ops ← readDeltaOps bs.length
  pure ⟨sourceSize,targetSize,ops⟩

def deserialize (bytes : Bytes) : Except IndexFile.Error Delta := (parser.run bytes).map Prod.fst

/-- `&bytes[offset..offset + size]` -/
def slice (bytes : Bytes) : DeltaOp → Except IndexFile.Error Bytes
  | .Copy offset size =>
    if offset+size ≤ bytes.length then .ok ((bytes.drop offset).take size)
    else .error (.panic ("range end index "++toString (offset+size)++" out of range for slice of length "++
      toString bytes.length))
  | .Insert slice => .ok slice

def expand (d : Delta) (bytes : Bytes) : Except IndexFile.Error Bytes := do
  ensure (.bail ("expected source size to be `"++toString d.sourceSize++"`, but given source with size `"++
    toString bytes.length++"`")) (d.sourceSize = bytes.length)
  ensure (.panic "capacity overflow") (d.targetSize < 2^63)
  let slices ← d.ops.mapM (slice bytes)
  let expanded := slices.flatten
  ensure (.bail ("expected target size to be `"++toString d.targetSize++
    "`, but got expanded target with size `"++toString expanded.length++"`")) (d.targetSize = expanded.length)
  pure expanded

end Delta

end Packfile
end Libbit
