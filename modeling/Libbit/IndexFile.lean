import Libbit.Lib.Codec
import Libbit.Obj

/-! The index file (`index/index_inner.rs`, `index/index_entry.rs`, `index/tree_cache.rs`,
`index/reuc.rs`, with the readers and writers of `io.rs`). Here a path is its bytes and an entry has all
the fields that the file has. The SHA-1 of the file is a parameter. -/
namespace Libbit
namespace IndexFile

open Lib Lib.Reader

inductive Error
  | unexpectedEof
  | invalidUtf8
  | bail (message : String)
  | panic (message : String)
  | outOfFuel
  deriving DecidableEq, Repr

abbrev Parser := Reader Byte Error

/-- `assert!` and `debug_assert!`. -/
def assertThat (condition : String) (c : Prop) [Decidable c] : Parser Unit :=
  require (.panic ("assertion failed: "++condition)) c

/-! ### Numbers, strings -/

def OID_SIZE : ℕ := 20

structure Oid where
  bytes : Bytes
  length_bytes : bytes.length = OID_SIZE
  deriving DecidableEq, Repr

def Oid.UNKNOWN : Oid := ⟨List.replicate OID_SIZE 0,rfl⟩

def readU16 : Parser UInt16 := do
  let buf ← readExact .unexpectedEof 2
  pure (UInt16.ofNat (ofBigEndian buf))

def readU32 : Parser UInt32 := do
  let buf ← readExact .unexpectedEof 4
  pure (UInt32.ofNat (ofBigEndian buf))

def writeU16 (u : UInt16) : Bytes := bigEndian 2 u.toNat

def writeU32 (u : UInt32) : Bytes := bigEndian 4 u.toNat

structure Timespec where
  sec : UInt32
  nano : UInt32
  deriving DecidableEq, Repr

def readTimespec : Parser Timespec := do
  let sec ← readU32
  let nano ← readU32
  pure ⟨sec,nano⟩

def writeTimespec (t : Timespec) : Bytes := writeU32 t.sec++writeU32 t.nano

def readOid : Parser Oid := do
  let buf ← readExact .unexpectedEof OID_SIZE
  if h : buf.length = OID_SIZE then pure ⟨buf,h⟩ else throw .unexpectedEof

/-- `&buf[..buf.len() - 1]`, where the subtraction is checked. -/
def dropLastByte (buf : Bytes) : Parser Bytes :=
  orFail (.panic "attempt to subtract with overflow") (if buf = [] then none else some buf.dropLast)

/-- `n` bytes that continue a character are due, the next one from `lo` to `hi`. -/
def utf8From : ℕ → ℕ → ℕ → Bytes → Bool
  | 0, _, _, [] => true
  | _+1, _, _, [] => false
  | 0, _, _, b::bs =>
    if b.val < 0x80 then utf8From 0 0 0 bs
    else if 0xC2 ≤ b.val ∧ b.val ≤ 0xDF then utf8From 1 0x80 0xBF bs
    else if b.val = 0xE0 then utf8From 2 0xA0 0xBF bs
    else if b.val = 0xED then utf8From 2 0x80 0x9F bs
    else if 0xE1 ≤ b.val ∧ b.val ≤ 0xEF then utf8From 2 0x80 0xBF bs
    else if b.val = 0xF0 then utf8From 3 0x90 0xBF bs
    else if 0xF1 ≤ b.val ∧ b.val ≤ 0xF3 then utf8From 3 0x80 0xBF bs
    else if b.val = 0xF4 then utf8From 3 0x80 0x8F bs
    else false
  | n+1, lo, hi, b::bs => lo ≤ b.val && b.val ≤ hi && utf8From n 0x80 0xBF bs

/-- Whether `from_utf8` accepts the bytes. -/
def isUtf8 (bs : Bytes) : Bool := utf8From 0 0 0 bs

/-- `read_to_string` of what was read up to the null byte. -/
def readNullTerminatedPath : Parser Bytes := do
  let buf ← readUntil 0
  let path ← dropLastByte buf
  require .invalidUtf8 (isUtf8 path)
  pure path

/-- The first `n` bytes are taken unseen. -/
def readNullTerminatedPathSkipN (n : ℕ) : Parser Bytes := do
  let buf ← readExact .unexpectedEof n
  let tail ← readUntil 0
  dropLastByte (buf++tail)

/-- `str::parse::<i64>`. -/
def parseI64 (s : Bytes) : Option ℤ := (parseInt? s).filter fun i => -2^63 ≤ i ∧ i < 2^63

/-- Text that is no number, not even UTF-8, fails an `unwrap`. -/
def readAsciiNum (sep : Byte) : Parser ℤ := do
  let buf ← readUntil sep
  let s ← dropLastByte buf
  orFail (.panic "called Result::unwrap() on an Err value") (parseI64 s)

def writeAsciiNum (i : ℤ) (sep : Byte) : Bytes := decimalInt i++[sep]

/-- The cast of an `i64` to a `usize`. -/
def asUsize (i : ℤ) : ℕ := (i%2^64).toNat

/-! ### Entries -/

inductive FileMode
  | REG | EXEC | LINK | TREE | GITLINK
  deriving DecidableEq, Repr

def FileMode.asU32 : FileMode → UInt32
  | REG => 0o100644
  | EXEC => 0o100755
  | LINK => 0o120000
  | TREE => 0o40000
  | GITLINK => 0o160000

def FileMode.new (u : UInt32) : Parser FileMode :=
  orFail (.panic ("invalid filemode `"++String.ofList ((Nat.toDigits 8 u.toNat).leftpad 6 '0')++"`"))
    ([.REG,.EXEC,.LINK,.TREE,.GITLINK].find? fun m => m.asU32 = u)

/-- 1 bit assume-valid, 1 bit extended, 2 bits stage, 12 bits length of the path. -/
structure BitIndexEntryFlags where
  bits : UInt16
  deriving DecidableEq, Repr

namespace BitIndexEntryFlags

def extended (f : BitIndexEntryFlags) : Bool := f.bits &&& ((1 : UInt16) <<< 14) != 0

def stage (f : BitIndexEntryFlags) : MergeStage :=
  match ((f.bits &&& 0x3000) >>> 12).toNat with
  | 0 => .NONE
  | 1 => .BASE
  | 2 => .OURS
  | _ => .THEIRS

def pathLen (f : BitIndexEntryFlags) : ℕ := (f.bits &&& 0x0FFF).toNat

end BitIndexEntryFlags

structure BitIndexEntryExtendedFlags where
  bits : UInt16
  deriving DecidableEq, Repr

/-- The bottom 13 bits are unused and must be 0; one of them is looked at. -/
def BitIndexEntryExtendedFlags.new (flags : UInt16) : Parser BitIndexEntryExtendedFlags := do
  assertThat "flags & 0x1000 == 0" (flags &&& 0x1000 = 0)
  pure ⟨flags⟩

structure BitIndexEntry where
  ctime : Timespec
  mtime : Timespec
  device : UInt32
  inode : UInt32
  mode : FileMode
  uid : UInt32
  gid : UInt32
  filesize : UInt32
  oid : Oid
  flags : BitIndexEntryFlags
  extendedFlags : BitIndexEntryExtendedFlags
  path : Bytes
  deriving DecidableEq, Repr

def isRelative (path : Bytes) : Prop := path.head? ≠ some SLASH

instance (path : Bytes) : Decidable (isRelative path) := inferInstanceAs (Decidable (_ ≠ _))

def ENTRY_SIZE_WITHOUT_FILEPATH : ℕ := 8+8+4+4+4+4+4+4+OID_SIZE+2

/-- From 1 to 8 bytes: the null byte that ends the path counts as padding. -/
def paddingLenForFilepath (filepathLen : ℕ) (isExtended : Bool) : ℕ :=
  let entrySize := ENTRY_SIZE_WITHOUT_FILEPATH+filepathLen+if isExtended then 2 else 0
  (entrySize+8)/8*8-entrySize

namespace BitIndexEntry

def key (e : BitIndexEntry) : Bytes × MergeStage := (e.path,e.flags.stage)

def paddingLen (e : BitIndexEntry) : ℕ := paddingLenForFilepath e.path.length e.flags.extended

def written (e : BitIndexEntry) : Bytes :=
  writeTimespec e.ctime++(writeTimespec e.mtime++(writeU32 e.device++(writeU32 e.inode++
    (writeU32 e.mode.asU32++(writeU32 e.uid++(writeU32 e.gid++(writeU32 e.filesize++
    (e.oid.bytes++(writeU16 e.flags.bits++
    ((if e.flags.extended then writeU16 e.extendedFlags.bits else [])++
    (e.path++List.replicate e.paddingLen 0)))))))))))

def serialize (e : BitIndexEntry) : Except Error Bytes :=
  if isRelative e.path then .ok e.written else .error (.panic "assertion failed: self.path.is_relative()")

def deserialize : Parser BitIndexEntry := do
  let ctime ← readTimespec
  let mtime ← readTimespec
  let device ← readU32
  let inode ← readU32
  let mode ← readU32 >>= FileMode.new
  let uid ← readU32
  let gid ← readU32
  let filesize ← readU32
  let oid ← readOid
  let flags ← BitIndexEntryFlags.mk <$> readU16
  let extendedFlags ← (if flags.extended then readU16 else pure 0) >>= BitIndexEntryExtendedFlags.new
  let path ← readNullTerminatedPathSkipN flags.pathLen
  assertThat "path.is_relative()" (isRelative path)
  -- the length that stands for a long path is tested for 0xff, not 0xfff
  assertThat "flags.path_len() as usize == path.len() || path.len() > 0xfff && flags.path_len() == 0xff"
    (flags.pathLen = path.length ∨ 0xfff < path.length ∧ flags.pathLen = 0xff)
  let entry : BitIndexEntry :=
    ⟨ctime,mtime,device,inode,mode,uid,gid,filesize,oid,flags,extendedFlags,path⟩
  -- the null byte that ends the path is read already
  let padding ← readExact .unexpectedEof (entry.paddingLen-1)
  assertThat "u64::from_be_bytes(padding) == 0" (∀ b ∈ padding, b = 0)
  pure entry

end BitIndexEntry

/-- The order of the map: the bytes of the path, then the stage. -/
def keyLt (k k' : Bytes × MergeStage) : Prop := toLex (k.1,k.2.toFin) < toLex (k'.1,k'.2.toFin)

instance (k k' : Bytes × MergeStage) : Decidable (keyLt k k') := inferInstanceAs (Decidable (_ < _))

/-- Put an entry in its place, over the one that has its key. -/
def insertSorted (e : BitIndexEntry) : List BitIndexEntry → List BitIndexEntry
  | [] => [e]
  | x::xs =>
    if keyLt x.key e.key then x::insertSorted e xs
    else if keyLt e.key x.key then e::x::xs
    else e::xs

theorem mem_insertSorted {e x : BitIndexEntry} {l : List BitIndexEntry} (h : x ∈ insertSorted e l) : x = e ∨ x ∈ l := by
  induction l with
  | nil => simpa [insertSorted] using h
  | cons y l ih =>
    unfold insertSorted at h
    split_ifs at h
    · rcases List.mem_cons.mp h with rfl | h
      · exact .inr List.mem_cons_self
      · exact (ih h).imp_right (List.mem_cons_of_mem y)
    · exact List.mem_cons.mp h
    · exact (List.mem_cons.mp h).imp_right (List.mem_cons_of_mem y)

theorem keyLt_trans {k k' k'' : Bytes × MergeStage} (h : keyLt k k') (h' : keyLt k' k'') : keyLt k k'' :=
  lt_trans (α := Bytes ×ₗ Fin 4) h h'

theorem toFin_injective : Function.Injective MergeStage.toFin := by
  intro s s' h
  cases s <;> cases s' <;> first | rfl | simp [MergeStage.toFin] at h

theorem key_eq_of_not_lt {k k' : Bytes × MergeStage} (h : ¬keyLt k k') (h' : ¬keyLt k' k) : k = k' := by
  have heq : toLex (k.1,k.2.toFin) = toLex (k'.1,k'.2.toFin) := le_antisymm (not_lt.mp h') (not_lt.mp h)
  obtain ⟨hp,hs⟩ : k.1 = k'.1 ∧ k.2.toFin = k'.2.toFin := by simpa using heq
  exact Prod.ext hp (toFin_injective hs)

theorem insertSorted_pairwise (e : BitIndexEntry) {l : List BitIndexEntry} (h : l.Pairwise fun x y => keyLt x.key y.key) :
    (insertSorted e l).Pairwise fun x y => keyLt x.key y.key := by
  induction l with
  | nil => simp [insertSorted]
  | cons y l ih =>
    obtain ⟨hy,hl⟩ := List.pairwise_cons.mp h
    unfold insertSorted
    split_ifs with hlt hgt
    · refine List.pairwise_cons.mpr ⟨fun x hx => ?_,ih hl⟩
      rcases mem_insertSorted hx with rfl | hx
      · exact hlt
      · exact hy x hx
    · refine List.pairwise_cons.mpr ⟨fun x hx => ?_,h⟩
      rcases List.mem_cons.mp hx with rfl | hx
      · exact hgt
      · exact keyLt_trans hgt (hy x hx)
    · refine List.pairwise_cons.mpr ⟨fun x hx => ?_,hl⟩
      rw [← key_eq_of_not_lt hlt hgt]
      exact hy x hx

/-- The map from keys to entries. An entry stands under its own key. -/
structure BitIndexEntries where
  values : List BitIndexEntry
  sorted : values.Pairwise fun x y => keyLt x.key y.key
  deriving DecidableEq, Repr

namespace BitIndexEntries

def empty : BitIndexEntries := ⟨[],List.Pairwise.nil⟩

def insert (m : BitIndexEntries) (e : BitIndexEntry) : BitIndexEntries :=
  ⟨insertSorted e m.values,insertSorted_pairwise e m.sorted⟩

def fromIter (es : List BitIndexEntry) : BitIndexEntries := es.foldl insert empty

end BitIndexEntries

/-! ### The tree cache -/

/-- Some nodes of the cache, each with the tree, the number of files and the children. -/
inductive TreeCaches
  | nil
  | cons (path : Bytes) (treeOid : Oid) (entryCount : ℤ) (children rest : TreeCaches)
  deriving DecidableEq, Repr

structure BitTreeCache where
  path : Bytes
  treeOid : Oid
  /-- The files below this directory; -1 marks the node invalid. -/
  entryCount : ℤ
  children : TreeCaches
  deriving DecidableEq, Repr

namespace TreeCaches

def len : TreeCaches → ℕ
  | nil => 0
  | cons _ _ _ _ rest => rest.len+1

/-- Put a node under its path. In the place of one that has that path already. -/
def insert (c : BitTreeCache) : TreeCaches → TreeCaches
  | nil => cons c.path c.treeOid c.entryCount c.children nil
  | cons path oid count children rest =>
    if path = c.path then cons c.path c.treeOid c.entryCount c.children rest
    else cons path oid count children (insert c rest)

/-- Collect nodes into the ordered map. -/
def collectInto (m : TreeCaches) : TreeCaches → TreeCaches
  | nil => m
  | cons path oid count children rest => collectInto (m.insert ⟨path,oid,count,children⟩) rest

def serialize : TreeCaches → Bytes
  | nil => []
  | cons path oid count children rest =>
    (path++[0])++(writeAsciiNum count 0x20++(writeAsciiNum children.len 0x0a++
      ((if 0 ≤ count then oid.bytes else [])++serialize children)))++serialize rest

end TreeCaches

namespace BitTreeCache

def serialize (c : BitTreeCache) : Bytes :=
  (c.path++[0])++(writeAsciiNum c.entryCount 0x20++(writeAsciiNum c.children.len 0x0a++
    ((if 0 ≤ c.entryCount then c.treeOid.bytes else [])++c.children.serialize)))

/-- The oid only exists when the count is valid. -/
def readTreeOid (entryCount : ℤ) : Parser Oid := if 0 ≤ entryCount then readOid else pure .UNKNOWN

/-- `deserialize_inner`, given how some nodes in a row are read. -/
def readNode (readNodes : ℕ → Parser TreeCaches) : Parser BitTreeCache := do
  let path ← readNullTerminatedPath
  let entryCount ← readAsciiNum 0x20
  let childrenCount ← asUsize <$> readAsciiNum 0x0a
  let oid ← readTreeOid entryCount
  let children ← readNodes childrenCount
  pure ⟨path,oid,entryCount,TreeCaches.collectInto .nil children⟩

/-- Nodes in a row. A node is at least one byte long, which bounds the recursion. -/
def readNodes : ℕ → ℕ → Parser TreeCaches
  | _, 0 => pure .nil
  | 0, _+1 => throw .outOfFuel
  | fuel+1, n+1 => do
    let c ← readNode (readNodes fuel)
    let rest ← readNodes fuel n
    pure (.cons c.path c.treeOid c.entryCount c.children rest)

def deserialize (data : Bytes) : Except Error BitTreeCache := do
  let (cache,rest) ← (readNode (readNodes data.length)).run data
  ensure (.panic "assertion failed: reader.is_at_eof()?") (rest = [])
  pure cache

end BitTreeCache

/-! ### The file -/

structure BitReuc where
  data : Bytes
  deriving DecidableEq, Repr

structure BitIndexInner where
  entries : BitIndexEntries
  treeCache : Option BitTreeCache
  reuc : Option BitReuc
  deriving DecidableEq, Repr

/-- DIRC -/
def BIT_INDEX_HEADER_SIG : Bytes := [0x44,0x49,0x52,0x43]

/-- TREE -/
def BIT_INDEX_TREECACHE_SIG : Bytes := [0x54,0x52,0x45,0x45]

/-- REUC -/
def BIT_INDEX_REUC_SIG : Bytes := [0x52,0x45,0x55,0x43]

def BIT_INDEX_VERSION : UInt32 := 2

structure BitIndexHeader where
  signature : Bytes
  version : UInt32
  entryc : UInt32
  deriving DecidableEq, Repr

def BitIndexHeader.serialize (h : BitIndexHeader) : Bytes := h.signature++(writeU32 h.version++writeU32 h.entryc)

structure BitIndexExtension where
  signature : Bytes
  size : UInt32
  data : Bytes
  deriving DecidableEq, Repr

def BitIndexExtension.serialize (ext : BitIndexExtension) : Bytes := ext.signature++(writeU32 ext.size++ext.data)

def writeWithSize (buf : Bytes) : Bytes := writeU32 (UInt32.ofNat buf.length)++buf

def writeExtension (signature : Bytes) : Option Bytes → Bytes
  | some data => signature++writeWithSize data
  | none => []

namespace BitIndexInner

def parseHeader : Parser BitIndexHeader := do
  let signature ← readExact .unexpectedEof 4
  assertThat "signature == BIT_INDEX_HEADER_SIG" (signature = BIT_INDEX_HEADER_SIG)
  let version ← readU32
  require (.bail ("Only index formats v2 and v3 are supported (found version `"++toString version.toNat++"`)"))
    (version = 2 ∨ version = 3)
  let entryc ← readU32
  pure ⟨signature,version,entryc⟩

/-- The slices of the buffer; one that goes past its end panics. -/
def parseExtension : Parser BitIndexExtension := do
  let signature ← readExact (.panic "range end index out of range for slice") 4
  let size ← readExact (.panic "range end index out of range for slice") 4
  let size := UInt32.ofNat (ofBigEndian size)
  let data ← readExact (.panic "range end index out of range for slice") size.toNat
  pure ⟨signature,size,data⟩

/-- `insert` of a map by signature: a later extension takes the place of an earlier one. -/
def insertExtension (extensions : List BitIndexExtension) (ext : BitIndexExtension) : List BitIndexExtension :=
  ext::extensions.filter fun x => x.signature ≠ ext.signature

/-- The extensions by signature, as long as more than the hash is left. -/
def parseExtensions : ℕ → List BitIndexExtension → Parser (List BitIndexExtension)
  | fuel, extensions => do
    let buf ← get
    if buf.length ≤ OID_SIZE then pure extensions
    else match fuel with
      | 0 => throw .outOfFuel
      | fuel+1 => do
        let ext ← parseExtension
        parseExtensions fuel (insertExtension extensions ext)

def findExtension (extensions : List BitIndexExtension) (signature : Bytes) : Option BitIndexExtension :=
  extensions.find? fun x => x.signature = signature

section
variable (sha1 : Bytes → Oid)

def serialize (x : BitIndexInner) : Except Error Bytes := do
  let header : BitIndexHeader := ⟨BIT_INDEX_HEADER_SIG,BIT_INDEX_VERSION,UInt32.ofNat x.entries.values.length⟩
  let entries ← x.entries.values.mapM BitIndexEntry.serialize
  let tree := writeExtension BIT_INDEX_TREECACHE_SIG (x.treeCache.map BitTreeCache.serialize)
  let reuc := writeExtension BIT_INDEX_REUC_SIG (x.reuc.map BitReuc.data)
  let written := header.serialize++(entries.flatten++(tree++reuc))
  pure (written++(sha1 written).bytes)

def deserialize (buf : Bytes) : Except Error BitIndexInner := do
  let (header,r) ← parseHeader.run buf
  let (entries,remainder) ← (times BitIndexEntry.deserialize header.entryc.toNat).run r
  let entries := BitIndexEntries.fromIter entries
  ensure (.panic "assertion failed: r.read_to_end(&mut remainder)? >= OID_SIZE") (OID_SIZE ≤ remainder.length)
  let (extensions,_) ← (parseExtensions remainder.length []).run remainder
  let treeCache ← (findExtension extensions BIT_INDEX_TREECACHE_SIG).mapM fun ext => BitTreeCache.deserialize ext.data
  let reuc := (findExtension extensions BIT_INDEX_REUC_SIG).map fun ext => (⟨ext.data⟩ : BitReuc)
  ensure (.panic "unhandled index extension (its fine to ignore in practice as no extension is mandantory but its good to know)")
    (∀ x ∈ extensions, x.signature = BIT_INDEX_TREECACHE_SIG ∨ x.signature = BIT_INDEX_REUC_SIG)
  let bytes := buf.take (buf.length-OID_SIZE)
  ensure (.bail "corrupted index (bad hash)") ((sha1 bytes).bytes = buf.drop (buf.length-OID_SIZE))
  pure ⟨entries,treeCache,reuc⟩

end

end BitIndexInner

end IndexFile
end Libbit
