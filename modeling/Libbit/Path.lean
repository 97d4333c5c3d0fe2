import Libbit.Lib.Codec

/-! Paths relative to the root of the worktree (`path.rs`). A path is the list of its
components; `as_bytes` joins them with slashes, and the orders are those of the bytes. -/
namespace Libbit

abbrev Byte := Fin 256
abbrev Bytes := List Byte
abbrev Name := List Byte
abbrev BitPath := List Name

instance instLawfulBEqBitPath : LawfulBEq BitPath := inferInstance

def SLASH : Byte := 47

namespace BitPath

def EMPTY : BitPath := []

def asBytes : BitPath → Bytes
  | [] => []
  | [n] => n
  | n::m::p => n++SLASH::asBytes (m::p)

/-- `Path::starts_with` compares whole components. -/
def startsWith (p base : BitPath) : Bool := base.isPrefixOf p

def parent (p : BitPath) : BitPath := p.dropLast

def fileName (p : BitPath) : Name := p.getLastD []

/-- foo/bar/baz -> [foo, foo/bar, foo/bar/baz]; the empty path yields itself once. -/
def cumulativeComponents (p : BitPath) : List BitPath := if p = [] then [[]] else p.inits.tail

/-- `Ord for BitPath`, which is `path_cmp`: the order of the bytes, shorter first. -/
def pathCmp (p q : BitPath) : Ordering := cmp p.asBytes q.asBytes

/-- The components of a text, as `Path::components` splits it. -/
def ofBytes (b : Bytes) : BitPath := (b.splitOn SLASH).filter fun n => n ≠ [] ∧ n ≠ [46]

end BitPath

/-- Compare the bytes of two names as far as both go, then the byte that follows: at the
end of a name that is a slash for a directory and a null byte for a file. -/
def pathCmpExplicit (a : Bytes) (aIsDir : Bool) (b : Bytes) (bIsDir : Bool) : Ordering :=
  let minLen := min a.length b.length
  (cmp (a.take minLen) (b.take minLen)).then
    (cmp ((a[minLen]?).getD (if aIsDir then SLASH else 0)) ((b[minLen]?).getD (if bIsDir then SLASH else 0)))

/-- The sibling order that git gives the entries of a directory. -/
def entryLt (x y : Name × Bool) : Bool := pathCmpExplicit x.1 x.2 y.1 y.2 = .lt

end Libbit
