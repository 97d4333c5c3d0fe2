import Libbit.Pack
import Libbit.Lib.Hex
import Libbit.Lib.Text

/-! The object database (`odb.rs`): how a short object id is expanded, in the packs and among the loose objects. -/
namespace Libbit
namespace Packfile

open Lib
open IndexFile (OID_SIZE)

inductive BitError
  | objectNotFound (text : List Char)
  | ambiguousPrefix (text : List Char) (candidates : List Oid)
  | message (text : String)
  /-- from the crates that decode hexadecimal text -/
  | hex
  | pack (e : Error)
  deriving DecidableEq, Repr

/-! ### Ids as texts (`obj_id.rs`, `hash.rs`) -/

def Oid.toHex (o : Oid) : List Char := Lib.toHex o.bytes

/-- The first 20 bytes. -/
def readOidFrom (bytes : Bytes) : Except BitError Oid :=
  match IndexFile.readOid.run bytes with
  | .ok (o,_) => .ok o
  | .error e => .error (.pack (.other e))

def Oid.fromStr (s : List Char) : Except BitError Oid :=
  let s := trimEnd s
  if utf8Len s ≠ 40 then .error (.message "creating SHA1 with invalid hex string (incorrect length)")
  else match fromHex s with
    | some bytes => readOidFrom bytes
    | none => .error .hex

def isAsciiHexdigit (c : Char) : Prop := (hexValue c).isSome

instance (c : Char) : Decidable (isAsciiHexdigit c) := inferInstanceAs (Decidable ((hexValue c).isSome = true))

/-- The text is what the first `len` of the 40 bytes hold. -/
structure PartialOid where
  text : List Char
  digits : ∀ c ∈ text, isAsciiHexdigit c
  long : 4 ≤ utf8Len text
  short : utf8Len text < 40

namespace PartialOid

def fromStr (s : List Char) : Except BitError PartialOid :=
  if utf8Len s = 40 then .error (.message "attempted to create partial oid from full oid")
  else if hshort : utf8Len s < 40 then
    if hlong : 4 ≤ utf8Len s then
      if hdigits : ∀ c ∈ s, isAsciiHexdigit c then .ok ⟨s,hdigits,hlong,hshort⟩
      else .error (.message ("invalid partial hash `"++String.ofList s++
        "`. partial hashes should only contain ascii hex digits"))
    else .error (.message "bit hash prefix must be at least 4 hex characters")
  else .error (.message "attempted to create partial oid with an invalid hex string (too long)")

def len (p : PartialOid) : ℕ := utf8Len p.text

/-- Every byte that is not given is `b"0"`. -/
def bytes (p : PartialOid) : List Char := p.text++List.replicate (40-p.len) '0'

/-- The oid with zeroes for the missing digits. -/
def intoOid (p : PartialOid) : Except BitError Oid :=
  match fromHex p.bytes with
  | some bytes => readOidFrom bytes
  | none => .error .hex

/-- The directory and the start of the file name. -/
def split (p : PartialOid) : List Char × List Char := (p.bytes.take 2,(p.bytes.take p.len).drop 2)

end PartialOid

def Oid.hasPrefix (o : Oid) (p : PartialOid) : Except BitError Bool := do
  let prefixBytes ← p.intoOid
  let n := p.len/2
  -- the digit after the last whole byte, if there is one
  let mask := if p.len%2 = 0 then 0x00 else 0xf0
  pure (decide (prefixBytes.bytes.take n = o.bytes.take n ∧
    (prefixBytes.bytes.getD n 0).val = (o.bytes.getD n 0).val &&& mask))

/-! ### Packs -/

section Errors
variable {α : Type}

def call (m : Read α) : EStateM BitError Pack α := fun s =>
  match m s with
  | .ok a s' => .ok a s'
  | .error e s' => .error (.pack e) s'

def lift : Except BitError α → EStateM BitError Pack α
  | .ok a => pure a
  | .error e => throw e

end Errors

/-- The oids from `index` on, of which `n` are left, up to the first one without the prefix. -/
def Pack.oidsWithPrefix (p : PartialOid) : ℕ → ℕ → EStateM BitError Pack (List Oid)
  | 0, _ => pure []
  | n+1, index => do
    let oid ← call (idx (PackIndexReader.readFrom IndexFile.readOid .Oid index))
    let matched ← lift (Oid.hasPrefix oid p)
    if matched then
      let oids ← oidsWithPrefix p n (index+1)
      pure (oid::oids)
    else pure []

/-- A zero-extended prefix that is an oid of the pack is taken for the only match. -/
def Pack.prefixMatches (p : PartialOid) : EStateM BitError Pack (List Oid) := do
  let extended ← lift p.intoOid
  fun s => match objOffset extended s with
    | .ok _ s' => .ok [extended] s'
    | .error (.objectNotFoundInPackIndex _ idx) s' => oidsWithPrefix p (s'.idxReader.n-idx) idx s'
    | .error e s' => .error (.pack e) s'

/-- The packs are asked one after another, in the order of the map. -/
def packCandidates (p : PartialOid) : EStateM BitError (List Pack) (List Oid)
  | [] => .ok [] []
  | pack::packs => match pack.prefixMatches p with
    | .error e pack => .error e (pack::packs)
    | .ok oids pack => match packCandidates p packs with
      | .error e packs => .error e (pack::packs)
      | .ok more packs => .ok (oids++more) (pack::packs)

/-! ### Loose objects -/

/-- The directory and the file of a loose object. -/
def objPath (oid : Oid) : List Char × List Char := (oid.toHex.take 2,oid.toHex.drop 2)

structure BitLooseObjDb where
  /-- in the order of their paths -/
  objs : List Oid
  sorted : objs.Pairwise (· < ·)
  /-- Directories are walked with the ignore files of the worktree in force. -/
  ignored : Oid → Bool

namespace BitLooseObjDb

/-- The file names that a walk of the directory yields. -/
def dirIter (db : BitLooseObjDb) (dir : List Char) : List (List Char) :=
  (db.objs.filter fun oid => (objPath oid).1 = dir ∧ ¬db.ignored oid).map fun oid => (objPath oid).2

def prefixCandidates (db : BitLooseObjDb) (p : PartialOid) : Except BitError (List Oid) :=
  let (dir,filePrefix) := p.split
  if ¬∃ oid ∈ db.objs, (objPath oid).1 = dir then .ok []
  else ((db.dirIter dir).filter fun filename => filePrefix.isPrefixOf filename).mapM fun filename =>
    Oid.fromStr (dir++filename)

end BitLooseObjDb

/-! ### The database -/

structure BitObjDb where
  packs : List Pack
  loose : BitLooseObjDb

namespace BitObjDb

def prefixCandidates (p : PartialOid) : EStateM BitError BitObjDb (List Oid) := fun db =>
  match packCandidates p db.packs with
  | .error e packs => .error e { db with packs := packs }
  | .ok acc packs => match db.loose.prefixCandidates p with
    | .error e => .error e { db with packs := packs }
    | .ok oids => .ok (acc++oids) { db with packs := packs }

def expandPrefix (p : PartialOid) : EStateM BitError BitObjDb Oid := do
  let candidates ← prefixCandidates p
  match candidates with
  | [] => throw (.objectNotFound p.text)
  | [oid] => pure oid
  | _ => throw (.ambiguousPrefix p.text candidates)

end BitObjDb
end Packfile
end Libbit
