import Libbit.IndexFile
import Libbit.Lib.Radix

/-! Tree objects on disk (`obj/tree.rs`). Here the path of an entry is the bytes of one name. An index out of
bounds, an `unwrap` that fails and a debug assertion that fails are panics. -/
namespace Libbit
namespace TreeFormat

open Lib Lib.Reader
open IndexFile (Error Parser readOid dropLastByte)

/-! ### Names -/

/-- U+FFFD -/
def REPLACEMENT : Bytes := [0xEF,0xBF,0xBD]

/-- What the first byte of a character says: how many bytes follow, and from where to where the next one goes. -/
def utf8Start (b : Byte) : Option (ℕ × ℕ × ℕ) :=
  if b.val < 0x80 then some (0,0,0)
  else if 0xC2 ≤ b.val ∧ b.val ≤ 0xDF then some (1,0x80,0xBF)
  else if b.val = 0xE0 then some (2,0xA0,0xBF)
  else if b.val = 0xED then some (2,0x80,0x9F)
  else if 0xE1 ≤ b.val ∧ b.val ≤ 0xEF then some (2,0x80,0xBF)
  else if b.val = 0xF0 then some (3,0x90,0xBF)
  else if 0xF1 ≤ b.val ∧ b.val ≤ 0xF3 then some (3,0x80,0xBF)
  else if b.val = 0xF4 then some (3,0x80,0x8F)
  else none

/-- What `display` writes of a path. The bytes `seen` begin a character that lacks `n` more, the next one from
`lo` to `hi`; what turns out to be no character is replaced. -/
def displayFrom : ℕ → ℕ → ℕ → Bytes → Bytes → Bytes
  | 0, _, _, seen, [] => seen
  | _+1, _, _, _, [] => REPLACEMENT
  | n, lo, hi, seen, b::bs =>
    if n ≠ 0 ∧ lo ≤ b.val ∧ b.val ≤ hi then displayFrom (n-1) 0x80 0xBF (seen++[b]) bs
    else (if n = 0 then seen else REPLACEMENT)++
      match utf8Start b with
      | some (n,lo,hi) => displayFrom n lo hi [b] bs
      | none => REPLACEMENT++displayFrom 0 0 0 [] bs

def display (path : Bytes) : Bytes := displayFrom 0 0 0 [] path

/-! ### Entries -/

structure TreeEntry where
  mode : IndexFile.FileMode
  path : Bytes
  oid : IndexFile.Oid
  deriving DecidableEq, Repr

namespace TreeEntry

def isTree (e : TreeEntry) : Bool := e.mode = .TREE

/-- `entry_cmp` -/
def cmp (e e' : TreeEntry) : Ordering := pathCmpExplicit e.path e.isTree e'.path e'.isTree

/-- The mode is not padded. -/
def serialize (e : TreeEntry) : Bytes :=
  Radix.text 8 e.mode.asU32.toNat++(0x20::(display e.path++(0x00::e.oid.bytes)))

def deserialize : Parser TreeEntry := do
  let buf ← readUntil 0x20
  let mode ← dropLastByte buf
  let mode ← orFail (.panic "called Result::unwrap() on an Err value") ((Radix.parse 8 mode).filter (· < 2^32))
  let mode ← IndexFile.FileMode.new (UInt32.ofNat mode)
  -- the slice of an empty read would end before it starts
  let buf ← readUntil 0x00
  let path ← orFail (.panic "slice index starts after its end") (if buf = [] then none else some buf.dropLast)
  let oid ← readOid
  pure ⟨mode,path,oid⟩

end TreeEntry

/-! ### Trees -/

/-- Every round reads a byte at least. -/
def Tree.readEntries (r : Bytes) (size : ℕ) : Except Error (List TreeEntry) := do
  let (entries,_) ← (toEnd TreeEntry.deserialize .outOfFuel (size+1)).run (r.take size)
  pure entries

/-- The entries of the set from the first to the last. -/
structure MutableTree where
  entries : List TreeEntry
  deriving DecidableEq, Repr

namespace MutableTree

/-- Of entries that are the same the last one stays. -/
def dedupSorted : List TreeEntry → List TreeEntry
  | e::e'::es => if e = e' then dedupSorted (e'::es) else e::dedupSorted (e'::es)
  | es => es

/-- `BTreeSet::from_iter`: a stable sort, then one pass. -/
def fromIter (es : List TreeEntry) : MutableTree := ⟨dedupSorted (es.mergeSort fun e e' => e.cmp e' ≠ .gt)⟩

/-- `BTreeSet::insert`: the entry that compares equal stays. -/
def insertEntry (e : TreeEntry) : List TreeEntry → List TreeEntry
  | [] => [e]
  | x::xs =>
    match e.cmp x with
    | .lt => e::x::xs
    | .eq => x::xs
    | .gt => x::insertEntry e xs

def insert (t : MutableTree) (e : TreeEntry) : MutableTree := ⟨insertEntry e t.entries⟩

def serialize (t : MutableTree) : Bytes := t.entries.flatMap TreeEntry.serialize

def deserializeSized (r : Bytes) (size : ℕ) : Except Error MutableTree := do
  let (v,_) ← (toEnd TreeEntry.deserialize .outOfFuel (size+1)).run (r.take size)
  let tree := v.foldl insert ⟨[]⟩
  ensure (.panic "assertion failed: tree.entries.iter().cloned().collect::<Vec<_>>() == v") (tree.entries = v)
  pure tree

end MutableTree
end TreeFormat
end Libbit
