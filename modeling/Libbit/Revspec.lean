import Libbit.Refs

/-! The parser of revisions (`rev.rs`). What `expand_prefix` finds in the object store is a parameter; `debug` says
whether debug assertions are compiled in. -/
namespace Libbit
namespace Rev

open Lib
open Refs (Text BitRef SymbolicRef)

abbrev Oid := IndexFile.Oid

inductive Error
  | message (text : String)
  /-- `usize::from_str` -/
  | parseInt
  | panic (message : String)
  | outOfFuel
  deriving DecidableEq, Repr

/-- Partial oids and ranges are never made by the parser. -/
inductive ParsedRevspec
  | Ref (reference : BitRef)
  | Parent (rev : ParsedRevspec) (n : ℕ)
  | Ancestor (rev : ParsedRevspec) (n : ℕ)
  | Reflog (rev : ParsedRevspec) (n : ℕ)
  deriving DecidableEq

def REV_SEPS : Text := ['@','~','^','{','}']

/-! ### Pieces of the text -/

/-- `split_at(1)`, and the slice of one byte. -/
def splitAt1 : Text → Except Error (Char × Text)
  | [] => .error (.panic "byte index 1 is out of bounds")
  | c::src => if c.utf8Size = 1 then .ok (c,src) else .error (.panic "byte index 1 is not a char boundary")

/-- What is before the next separator, and the rest from it on. -/
def next (src : Text) : Text × Text := src.span (· ∉ REV_SEPS)

/-- A sign is allowed. -/
def usizeFromStr (s : Text) : Option ℕ :=
  (parseNat (if s.head? = some '+' then s.tail else s)).filter (· < 2^64)

def expect (s : Char) (src : Text) : Except Error Text := do
  let (c,rest) ← splitAt1 src
  if c = s then .ok rest
  else .error (.message ("expected `"++String.ofList [s]++"`, found `"++String.ofList [c]++"`"))

def expectNum (src : Text) : Except Error (ℕ × Text) :=
  match usizeFromStr (next src).1 with
  | some n => .ok (n,(next src).2)
  | none => .error .parseInt

/-- The text up to the next separator is gone also when it is no number. -/
def acceptNum (src : Text) : Option ℕ × Text := (usizeFromStr (next src).1,(next src).2)

/-! ### The parser -/

section
variable (debug : Bool) (expandPrefix : Packfile.PartialOid → Option Oid)

/-- `BitRef::from_str`, with the assertion of `SymbolicRef::new`. -/
def refFromStr (s : Text) : Except Error BitRef :=
  match BitRef.fromStr s with
  | .Direct oid => .ok (.Direct oid)
  | .Symbolic sym =>
    if debug = true ∧ sym.path.head? = some '/' then .error (.panic "assertion failed: path.is_relative()")
    else .ok (.Symbolic sym)

/-- The oid with this prefix, or else the reference of this name. -/
def baseRef (s : Text) : Except Error BitRef :=
  match (Packfile.PartialOid.fromStr s).toOption.bind expandPrefix with
  | some oid => .ok (.Direct oid)
  | none => refFromStr debug s

/-- `@` is a separator and a base. -/
def parseBase (src : Text) : Except Error (ParsedRevspec × Text) := do
  let (c,rest) ← splitAt1 src
  let (s,src) := if c = '@' then (['@'],rest) else next src
  let reference ← baseRef debug expandPrefix s
  pure (.Ref reference,src)

/-- The fuel is the number of rounds. -/
def parseSuffixes : ℕ → ParsedRevspec → Text → Except Error ParsedRevspec
  | _, rev, [] => .ok rev
  | 0, _, _::_ => .error .outOfFuel
  | fuel+1, rev, d::ds => do
    let (c,src) ← splitAt1 (d::ds)
    if c = '^' then
      let (n,src) := acceptNum src
      parseSuffixes fuel (.Parent rev (n.getD 1)) src
    else if c = '~' then
      let (n,src) := acceptNum src
      parseSuffixes fuel (.Ancestor rev (n.getD 1)) src
    else if c = '@' then
      let src ← expect '{' src
      let (n,src) ← expectNum src
      let src ← expect '}' src
      parseSuffixes fuel (.Reflog rev n) src
    else .error (.message ("unexpected token `"++String.ofList [c]++"`, while parsing revspec"))

/-- Every round takes a character at least. -/
def parse (src : Text) : Except Error ParsedRevspec := do
  let (rev,rest) ← parseBase debug expandPrefix src
  parseSuffixes rest.length rev rest

end

end Rev
end Libbit
