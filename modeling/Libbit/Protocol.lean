import Libbit.IndexFile
import Libbit.Lib.Radix

/-! Packets (`protocol.rs`). What is written is a list of bytes; `debug` says whether debug assertions are
compiled in. -/
namespace Libbit
namespace Protocol

open Lib Lib.Reader
open IndexFile (Error Parser isUtf8)

def U16_MAX : ℕ := 2^16-1

/-- `{:04x}` -/
def lengthHeader (n : ℕ) : Bytes := (Radix.text 16 n).leftpad 4 0x30

def DONE : Bytes := [0x64,0x6F,0x6E,0x65]

/-! ### Reading -/

def readContentsWithParsedLen (n : ℕ) : Parser Bytes :=
  -- a flush packet
  if n = 0 then pure []
  else do
    require (.panic "attempt to subtract with overflow") (4 ≤ n)
    readExact .unexpectedEof (n-4)

def readContents (length : Bytes) : Parser Bytes := do
  require .invalidUtf8 (isUtf8 length)
  let n ← orFail (.bail "invalid digit found in string") ((Radix.parse 16 length).filter (· < 2^64))
  readContentsWithParsedLen n

def recvPacket : Parser Bytes := do
  let length ← readExact .unexpectedEof 4
  readContents length

/-- Packets up to an empty one or to `done`. The fuel is the number of rounds. -/
def recvPackets : ℕ → Parser (List Bytes)
  | 0 => throw .outOfFuel
  | n+1 => do
    let packet ← recvPacket
    if packet = [] ∨ packet = DONE then pure []
    else
      let packets ← recvPackets n
      pure (packet::packets)

/-- Every round reads four bytes at least. -/
def recvMessage : Parser (List Bytes) := do
  let stream ← get
  recvPackets (stream.length+1)

/-! ### Writing -/

def writePacket (debug : Bool) (bytes : Bytes) : Except Error Bytes := do
  ensure (.panic "assertion failed: bytes.len() < u16::MAX as usize") (bytes.length < U16_MAX)
  let length := lengthHeader (4+bytes.length)
  ensure (.panic "assertion failed: length.len() == 4") (debug = true → length.length = 4)
  pure (length++bytes)

def writeFlushPacket : Bytes := [0x30,0x30,0x30,0x30]

def writePackets (debug : Bool) (packets : List Bytes) : Except Error Bytes := do
  let written ← packets.mapM (writePacket debug)
  pure written.flatten

/-- Packets, then a flush. -/
def writeMessage (debug : Bool) (packets : List Bytes) : Except Error Bytes := do
  let written ← writePackets debug packets
  pure (written++writeFlushPacket)

end Protocol
end Libbit
