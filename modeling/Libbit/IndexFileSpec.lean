import Libbit.IndexFile

/-! What is written to the index file is read back. An index survives exactly if no path is too long
for the twelve bits of its length and the counts and sizes fit the fields that hold them. -/
namespace Libbit
namespace IndexFile
open Lib Lib.Reader

theorem length_writeU16 (u : UInt16) : (writeU16 u).length = 2 := length_bigEndian 2 _

theorem length_writeU32 (u : UInt32) : (writeU32 u).length = 4 := length_bigEndian 4 _

theorem ofBigEndian_writeU16 (u : UInt16) : UInt16.ofNat (ofBigEndian (writeU16 u)) = u := by
  have hu : u.toNat < 256^2 := u.toNat_lt
  rw [writeU16,ofBigEndian_bigEndian,Nat.mod_eq_of_lt hu,UInt16.ofNat_toNat]

theorem ofBigEndian_writeU32 (u : UInt32) : UInt32.ofNat (ofBigEndian (writeU32 u)) = u := by
  have hu : u.toNat < 256^4 := u.toNat_lt
  rw [writeU32,ofBigEndian_bigEndian,Nat.mod_eq_of_lt hu,UInt32.ofNat_toNat]

theorem readU16_decodes (u : UInt16) : Decodes readU16 (writeU16 u) u := by
  refine (Decodes.readExact (length_writeU16 u)).bindPure ?_
  rw [ofBigEndian_writeU16]
  exact Decodes.pure u

theorem readU32_decodes (u : UInt32) : Decodes readU32 (writeU32 u) u := by
  refine (Decodes.readExact (length_writeU32 u)).bindPure ?_
  rw [ofBigEndian_writeU32]
  exact Decodes.pure u

theorem readTimespec_decodes (t : Timespec) : Decodes readTimespec (writeTimespec t) t :=
  (readU32_decodes t.sec).bind ((readU32_decodes t.nano).bindPure (Decodes.pure t))

theorem readOid_decodes (o : Oid) : Decodes readOid o.bytes o := by
  refine (Decodes.readExact o.length_bytes).bindPure ?_
  rw [dif_pos o.length_bytes]
  exact Decodes.pure o

theorem FileMode.new_decodes (m : FileMode) : Decodes (FileMode.new m.asU32) [] m :=
  Decodes.orFail (by cases m <;> rfl)

theorem dropLastByte_decodes (bs : Bytes) (b : Byte) : Decodes (dropLastByte (bs++[b])) [] bs :=
  Decodes.orFail (by simp)

theorem readNullTerminatedPath_runs {path : Bytes} (h0 : 0 ∉ path) :
    Runs readNullTerminatedPath (path++[0]) (if isUtf8 path then .ok path else .error .invalidUtf8) := by
  refine (Decodes.readUntil h0).bindPure <| (dropLastByte_decodes path 0).andThen ?_
  by_cases hu : isUtf8 path
  · rw [if_pos hu]
    exact (Decodes.require hu).andThen (Decodes.pure path)
  · rw [if_neg hu]
    exact Fails.bind (Fails.require hu) _ []

theorem readNullTerminatedPathSkipN_decodes {path : Bytes} {n : ℕ} (hn : n ≤ path.length) (h0 : 0 ∉ path) :
    Decodes (readNullTerminatedPathSkipN n) (path++[0]) path := by
  have htake : (path.take n).length = n := List.length_take_of_le hn
  have hdrop : 0 ∉ path.drop n := fun h => h0 (List.mem_of_mem_drop h)
  have hpath : path++[0] = path.take n++(path.drop n++[0]) := by rw [← List.append_assoc,List.take_append_drop]
  have hlast : Decodes (dropLastByte (path.take n++(path.drop n++[0]))) [] path := by
    rw [← hpath]
    exact dropLastByte_decodes path 0
  rw [hpath]
  exact (Decodes.readExact htake).bind ((Decodes.readUntil hdrop).bindPure hlast)

theorem readAsciiNum_decodes {sep : Byte} (hsep : sep.val < 43) {i : ℤ} (hi : -2^63 ≤ i ∧ i < 2^63) :
    Decodes (readAsciiNum sep) (writeAsciiNum i sep) i := by
  refine (Decodes.readUntil (notMem_decimalInt hsep i)).bindPure <| (dropLastByte_decodes _ sep).andThen <| Decodes.orFail ?_
  rw [parseI64,parseInt?_decimalInt,Option.filter_some,if_pos (by simpa using hi)]

theorem paddingLen_pos (n : ℕ) (ext : Bool) : 0 < paddingLenForFilepath n ext := by
  simp only [paddingLenForFilepath]
  omega

/-- What the program promises of every entry of an index. -/
structure BitIndexEntry.WellFormed (e : BitIndexEntry) : Prop where
  relative : isRelative e.path
  nulFree : 0 ∉ e.path
  pathLen : e.flags.pathLen = min 0xFFF e.path.length
  unused : e.extendedFlags.bits &&& 0x1FFF = 0
  plain : e.flags.extended = false → e.extendedFlags.bits = 0

namespace BitIndexEntry
variable {e : BitIndexEntry}

theorem serialize_eq (h : isRelative e.path) : e.serialize = .ok e.written := if_pos h

theorem extendedFlags_decodes (h : e.WellFormed) :
    Decodes ((if e.flags.extended then readU16 else pure 0) >>= BitIndexEntryExtendedFlags.new)
      (if e.flags.extended then writeU16 e.extendedFlags.bits else []) e.extendedFlags := by
  have hbit : e.extendedFlags.bits &&& 0x1000 = 0 := by
    have hmask : (0x1000 : UInt16) = 0x1FFF &&& 0x1000 := rfl
    rw [hmask,← UInt16.and_assoc,h.unused,UInt16.zero_and]
  have hnew : Decodes (BitIndexEntryExtendedFlags.new e.extendedFlags.bits) [] e.extendedFlags :=
    (Decodes.require hbit).andThen (Decodes.pure _)
  cases hext : e.flags.extended with
  | true => exact (readU16_decodes _).bindPure hnew
  | false =>
    rw [h.plain hext] at hnew
    exact (Decodes.pure (0 : UInt16)).andThen hnew

/-- The null byte that ends the path is the first byte of the padding. -/
theorem path_padding (e : BitIndexEntry) :
    e.path++List.replicate e.paddingLen 0 = (e.path++[0])++List.replicate (e.paddingLen-1) 0 := by
  obtain ⟨k,hk⟩ : ∃ k, e.paddingLen = k+1 := Nat.exists_eq_add_one.mpr (paddingLen_pos _ _)
  rw [hk,List.replicate_succ,List.append_cons,Nat.add_sub_cancel]

/-- The assertion that a long path does not pass. -/
def pathLenPanic : Error :=
  .panic ("assertion failed: "++"flags.path_len() as usize == path.len() || path.len() > 0xfff && flags.path_len() == 0xff")

theorem pathLen_assertion_iff (h : e.WellFormed) :
    (e.flags.pathLen = e.path.length ∨ 0xfff < e.path.length ∧ e.flags.pathLen = 0xff) ↔ e.path.length ≤ 0xFFF := by
  rw [h.pathLen]
  omega

/-- An entry is read back as it was if its path is short enough for the length to be in the flags. -/
theorem deserialize_runs (h : e.WellFormed) :
    Runs deserialize e.written (if e.path.length ≤ 0xFFF then .ok e else .error pathLenPanic) := by
  have hle : e.flags.pathLen ≤ e.path.length := h.pathLen.trans_le (min_le_right _ _)
  have hflags : Decodes (BitIndexEntryFlags.mk <$> readU16) (writeU16 e.flags.bits) e.flags := by
    rw [map_eq_pure_bind]
    exact (readU16_decodes _).bindPure (Decodes.pure _)
  unfold deserialize written
  refine (readTimespec_decodes _).bind <| (readTimespec_decodes _).bind <| (readU32_decodes _).bind <|
    (readU32_decodes _).bind <| Decodes.bind ((readU32_decodes _).bindPure (FileMode.new_decodes _)) <|
    (readU32_decodes _).bind <| (readU32_decodes _).bind <| (readU32_decodes _).bind <|
    (readOid_decodes _).bind <| hflags.bind <| (extendedFlags_decodes h).bind ?_
  rw [path_padding]
  refine (readNullTerminatedPathSkipN_decodes hle h.nulFree).bind <| (Decodes.require h.relative).andThen ?_
  by_cases hlen : e.path.length ≤ 0xFFF
  · rw [if_pos hlen]
    exact (Decodes.require ((pathLen_assertion_iff h).mpr hlen)).andThen <|
      (Decodes.readExact List.length_replicate).bindPure <|
      (Decodes.require fun b hb => List.eq_of_mem_replicate hb).andThen (Decodes.pure e)
  · rw [if_neg hlen]
    exact Fails.bind (Fails.require fun hh => hlen ((pathLen_assertion_iff h).mp hh)) _ _

end BitIndexEntry

namespace TreeCaches

def paths : TreeCaches → List Bytes
  | nil => []
  | cons path _ _ _ rest => path::rest.paths

def append : TreeCaches → TreeCaches → TreeCaches
  | nil, m => m
  | cons path oid count children rest, m => cons path oid count children (rest.append m)

/-- The names of the nodes and of all below them. -/
def names : TreeCaches → List Bytes
  | nil => []
  | cons path _ _ children rest => path::(children.names++rest.names)

def Utf8 (cs : TreeCaches) : Prop := ∀ n ∈ cs.names, isUtf8 n

instance (cs : TreeCaches) : Decidable cs.Utf8 := inferInstanceAs (Decidable (∀ n ∈ cs.names, isUtf8 n))

/-- What the program promises of the nodes: names that end at a null byte, no name twice among
siblings, no tree where the count is negative. -/
def WellFormed : TreeCaches → Prop
  | nil => True
  | cons path oid count children rest =>
    0 ∉ path ∧ (-2^63 ≤ count ∧ count < 2^63) ∧ (count < 0 → oid = .UNKNOWN) ∧
      children.paths.Nodup ∧ children.WellFormed ∧ rest.WellFormed

/-- The bytes that the nodes take in the file. -/
def extent : TreeCaches → ℕ
  | nil => 0
  | cons path _ count children rest =>
    (path.length+1+((decimalInt count).length+1)+((decimalInt children.len).length+1)+
      (if 0 ≤ count then OID_SIZE else 0)+children.extent)+rest.extent

variable {m cs : TreeCaches} {c : BitTreeCache}

theorem length_serialize (cs : TreeCaches) : cs.serialize.length = cs.extent := by
  induction cs with
  | nil => rfl
  | cons path oid count children rest hc hr =>
    by_cases h : 0 ≤ count <;> simp [serialize,extent,writeAsciiNum,h,hc,hr,oid.length_bytes] <;> omega

theorem len_le_extent (cs : TreeCaches) : cs.len ≤ cs.extent := by
  induction cs with
  | nil => rfl
  | cons path oid count children rest hc hr =>
    simp only [len,extent]
    omega

@[simp] theorem append_nil (m : TreeCaches) : m.append nil = m := by
  induction m <;> simp_all [append]

theorem append_assoc (a b d : TreeCaches) : (a.append b).append d = a.append (b.append d) := by
  induction a <;> simp_all [append]

theorem paths_append (m cs : TreeCaches) : (m.append cs).paths = m.paths++cs.paths := by
  induction m <;> simp_all [append,paths]

/-- A new name goes to the end. -/
theorem insert_of_notMem (h : c.path ∉ m.paths) :
    m.insert c = m.append (cons c.path c.treeOid c.entryCount c.children nil) := by
  induction m with
  | nil => rfl
  | cons path oid count children rest _ ih =>
    obtain ⟨hne,hrest⟩ : c.path ≠ path ∧ c.path ∉ rest.paths := by simpa [paths] using h
    rw [insert,if_neg hne.symm,ih hrest]
    rfl

theorem collectInto_eq_append (h : (m.paths++cs.paths).Nodup) : collectInto m cs = m.append cs := by
  induction cs generalizing m with
  | nil => simp [collectInto]
  | cons path oid count children rest _ ih =>
    have hnot : path ∉ m.paths := fun hm => List.disjoint_of_nodup_append h hm List.mem_cons_self
    rw [collectInto,insert_of_notMem hnot,ih,append_assoc]
    · rfl
    · rw [paths_append,List.append_assoc]
      exact h

end TreeCaches

namespace BitTreeCache

/-- The node by itself. -/
def toCaches (c : BitTreeCache) : TreeCaches := .cons c.path c.treeOid c.entryCount c.children .nil

def WellFormed (c : BitTreeCache) : Prop := c.toCaches.WellFormed

def extent (c : BitTreeCache) : ℕ := c.toCaches.extent

theorem serialize_toCaches (c : BitTreeCache) : c.toCaches.serialize = c.serialize := by
  simp [toCaches,serialize,TreeCaches.serialize]

theorem length_serialize (c : BitTreeCache) : c.serialize.length = c.extent := by
  rw [← serialize_toCaches,TreeCaches.length_serialize,extent]

theorem asUsize_natCast {n : ℕ} (h : n < 2^63) : asUsize n = n := by
  unfold asUsize
  omega

def Utf8 (c : BitTreeCache) : Prop := c.toCaches.Utf8

instance (c : BitTreeCache) : Decidable c.Utf8 := inferInstanceAs (Decidable c.toCaches.Utf8)

theorem utf8_iff {c : BitTreeCache} : c.Utf8 ↔ isUtf8 c.path ∧ c.children.Utf8 := by
  simp [Utf8,toCaches,TreeCaches.Utf8,TreeCaches.names]

theorem utf8_cons {path : Bytes} {oid : Oid} {count : ℤ} {children rest : TreeCaches} :
    (TreeCaches.cons path oid count children rest).Utf8 ↔ Utf8 ⟨path,oid,count,children⟩ ∧ rest.Utf8 := by
  rw [utf8_iff]
  simp [TreeCaches.Utf8,TreeCaches.names,or_imp,forall_and,and_assoc]

/-- A node is read back as it was, up to a name that is no UTF-8. -/
theorem readNode_runs {readNodes : ℕ → Parser TreeCaches} {c : BitTreeCache} (h : c.WellFormed)
    (hlen : c.children.len < 2^63)
    (hc : Runs (readNodes c.children.len) c.children.serialize (if c.children.Utf8 then .ok c.children else .error .invalidUtf8)) :
    Runs (readNode readNodes) c.serialize (if c.Utf8 then .ok c else .error .invalidUtf8) := by
  obtain ⟨h0,hcount,hinv,hnodup,-,-⟩ := h
  have hpath := readNullTerminatedPath_runs h0
  by_cases hu : isUtf8 c.path
  · rw [if_pos hu] at hpath
    have hcollect : TreeCaches.collectInto .nil c.children = c.children :=
      TreeCaches.collectInto_eq_append (by simpa [TreeCaches.paths] using hnodup)
    have hchildren : Decodes (asUsize <$> readAsciiNum 0x0a) (writeAsciiNum c.children.len 0x0a) c.children.len := by
      rw [map_eq_pure_bind]
      refine (readAsciiNum_decodes (by decide) ⟨by omega,by omega⟩).bindPure ?_
      rw [asUsize_natCast hlen]
      exact Decodes.pure _
    have hoid : Decodes (readTreeOid c.entryCount) (if 0 ≤ c.entryCount then c.treeOid.bytes else []) c.treeOid := by
      unfold readTreeOid
      split
      · exact readOid_decodes _
      · rw [hinv (by omega)]
        exact Decodes.pure _
    refine Decodes.bind hpath <| (readAsciiNum_decodes (by decide) hcount).bind <| hchildren.bind <| hoid.bind ?_
    by_cases hcu : c.children.Utf8
    · rw [if_pos hcu] at hc
      rw [if_pos (utf8_iff.mpr ⟨hu,hcu⟩)]
      refine Decodes.bindPure hc ?_
      rw [hcollect]
      exact Decodes.pure c
    · rw [if_neg hcu] at hc
      rw [if_neg fun hh => hcu (utf8_iff.mp hh).2,← List.append_nil c.children.serialize]
      exact Fails.bind hc _ []
  · rw [if_neg hu] at hpath
    rw [if_neg fun hh => hu (utf8_iff.mp hh).1]
    exact Fails.bind hpath _ _

/-- Nodes in a row are read back as they were, with fuel for every byte of them. -/
theorem readNodes_runs {cs : TreeCaches} (h : cs.WellFormed) (hsmall : cs.extent < 2^63) {fuel : ℕ} (hf : cs.extent ≤ fuel) :
    Runs (readNodes fuel cs.len) cs.serialize (if cs.Utf8 then .ok cs else .error .invalidUtf8) := by
  induction cs generalizing fuel with
  | nil =>
    rw [TreeCaches.len]
    unfold readNodes
    exact Decodes.pure _
  | cons path oid count children rest hc hr =>
    simp only [TreeCaches.extent] at hsmall hf
    obtain ⟨fuel,rfl⟩ : ∃ k, fuel = k+1 := Nat.exists_eq_add_one.mpr (by omega)
    obtain ⟨h0,hcount,hinv,hnodup,hchildren,hrest⟩ := h
    have hlen := TreeCaches.len_le_extent children
    have hnode := @readNode_runs (readNodes fuel) ⟨path,oid,count,children⟩
      ⟨h0,hcount,hinv,hnodup,hchildren,trivial⟩ (by simp only; omega) (hc hchildren (by omega) (by omega))
    have hrest := hr hrest (by omega) (show rest.extent ≤ fuel by omega)
    simp only [utf8_cons]
    by_cases hu : Utf8 ⟨path,oid,count,children⟩
    · rw [if_pos hu] at hnode
      refine Decodes.bind hnode ?_
      by_cases hru : rest.Utf8
      · rw [if_pos hru] at hrest
        rw [if_pos ⟨hu,hru⟩]
        exact Decodes.bindPure hrest (Decodes.pure _)
      · rw [if_neg hru] at hrest
        rw [if_neg fun hh => hru hh.2,← List.append_nil rest.serialize]
        exact Fails.bind hrest _ []
    · rw [if_neg hu] at hnode
      rw [if_neg fun hh => hu hh.1]
      exact Fails.bind hnode _ _

/-- The record of a cache is read back exactly if its names are UTF-8. -/
theorem deserialize_serialize {c : BitTreeCache} (h : c.WellFormed) (hsmall : c.extent < 2^63) :
    deserialize c.serialize = if c.Utf8 then .ok c else .error .invalidUtf8 := by
  have hlen : c.children.len ≤ c.children.extent := TreeCaches.len_le_extent _
  have hextent : c.children.extent ≤ c.extent := by
    simp only [extent,toCaches,TreeCaches.extent]
    omega
  have hc := readNodes_runs h.2.2.2.2.1 (by omega) (show c.children.extent ≤ c.serialize.length by rw [length_serialize]; exact hextent)
  have hrun := readNode_runs h (by omega) hc []
  rw [List.append_nil] at hrun
  unfold deserialize
  rw [hrun]
  split <;> rfl

theorem deserialize_eq_ok {data : Bytes} {c : BitTreeCache} :
    deserialize data = .ok c ↔ (readNode (readNodes data.length)).run data = .ok (c,[]) := by
  simp only [deserialize,except_bind_eq_ok,ensure_eq_ok,Prod.exists]
  constructor
  · rintro ⟨c',rest,h,-,rfl,hc⟩
    cases hc
    exact h
  · exact fun h => ⟨c,[],h,(),rfl,rfl⟩

end BitTreeCache

/-! ### The map of entries -/

theorem insertSorted_of_forall_lt {e : BitIndexEntry} {l : List BitIndexEntry} (h : ∀ x ∈ l, keyLt x.key e.key) :
    insertSorted e l = l++[e] := by
  induction l with
  | nil => rfl
  | cons x l ih =>
    rw [insertSorted,if_pos (h x List.mem_cons_self),ih fun y hy => h y (List.mem_cons_of_mem x hy)]
    rfl

theorem length_insertSorted_le (e : BitIndexEntry) (l : List BitIndexEntry) : (insertSorted e l).length ≤ l.length+1 := by
  induction l with
  | nil => rfl
  | cons x l ih =>
    unfold insertSorted
    split_ifs <;> simp
    exact ih

theorem length_foldl_insert_le (es : List BitIndexEntry) (m : BitIndexEntries) :
    (es.foldl BitIndexEntries.insert m).values.length ≤ m.values.length+es.length := by
  induction es generalizing m with
  | nil => rfl
  | cons x es ih =>
    have hx : (m.insert x).values.length ≤ m.values.length+1 := length_insertSorted_le x m.values
    refine (ih (m.insert x)).trans ?_
    rw [List.length_cons]
    omega

theorem foldl_insert_values {es : List BitIndexEntry} {m : BitIndexEntries}
    (h : (m.values++es).Pairwise fun x y => keyLt x.key y.key) :
    (es.foldl BitIndexEntries.insert m).values = m.values++es := by
  induction es generalizing m with
  | nil => simp
  | cons x es ih =>
    have hlt : ∀ y ∈ m.values, keyLt y.key x.key := fun y hy =>
      (List.pairwise_append.mp h).2.2 y hy x List.mem_cons_self
    have hinsert : (m.insert x).values = m.values++[x] := insertSorted_of_forall_lt hlt
    rw [List.foldl_cons,ih,hinsert,List.append_assoc]
    · rfl
    · rw [hinsert,List.append_assoc]
      exact h

/-- Entries that come in order make the map that has them in this order. -/
theorem BitIndexEntries.fromIter_values (m : BitIndexEntries) : fromIter m.values = m := by
  have h : (fromIter m.values).values = m.values := foldl_insert_values m.sorted
  cases hm : fromIter m.values
  cases m
  simp_all

/-! ### Extensions, the file -/

namespace BitIndexInner

theorem parseHeader_decodes {version : UInt32} (hv : version = 2 ∨ version = 3) (n : UInt32) :
    Decodes parseHeader (BitIndexHeader.serialize ⟨BIT_INDEX_HEADER_SIG,version,n⟩) ⟨BIT_INDEX_HEADER_SIG,version,n⟩ := by
  have hsig : BIT_INDEX_HEADER_SIG.length = 4 := rfl
  exact (Decodes.readExact hsig).bind <| (Decodes.require rfl).andThen <| (readU32_decodes version).bind <|
    (Decodes.require hv).andThen <| (readU32_decodes n).bindPure (Decodes.pure _)

/-- The signature has four bytes and the size is that of the data. -/
def Framed (ext : BitIndexExtension) : Prop := ext.signature.length = 4 ∧ ext.data.length = ext.size.toNat

theorem parseExtension_decodes {ext : BitIndexExtension} (h : Framed ext) : Decodes parseExtension ext.serialize ext := by
  refine (Decodes.readExact h.1).bind <| (Decodes.readExact (length_writeU32 ext.size)).bind ?_
  rw [ofBigEndian_writeU32]
  exact (Decodes.readExact h.2).bindPure (Decodes.pure ext)

theorem parseExtensions_of_le {buf : Bytes} (h : buf.length ≤ OID_SIZE) (fuel : ℕ) (m : List BitIndexExtension) :
    (parseExtensions fuel m).run buf = .ok (m,buf) := by
  unfold parseExtensions
  exact congrFun (if_pos h) buf

theorem parseExtensions_of_lt {buf : Bytes} (h : OID_SIZE < buf.length) (fuel : ℕ) (m : List BitIndexExtension) :
    (parseExtensions (fuel+1) m).run buf =
      (parseExtension >>= fun ext => parseExtensions fuel (insertExtension m ext)).run buf := by
  conv_lhs => unfold parseExtensions
  exact congrFun (if_neg (Nat.not_le.mpr h)) buf

theorem parseExtensions_serialize {exts : List BitIndexExtension} (h : ∀ ext ∈ exts, Framed ext) {hash : Bytes}
    (hh : hash.length = OID_SIZE) {fuel : ℕ} (hf : exts.length ≤ fuel) (m : List BitIndexExtension) :
    (parseExtensions fuel m).run (exts.flatMap BitIndexExtension.serialize++hash) = .ok (exts.foldl insertExtension m,hash) := by
  induction exts generalizing fuel m with
  | nil => exact parseExtensions_of_le hh.le fuel m
  | cons ext exts ih =>
    obtain ⟨fuel,rfl⟩ : ∃ k, fuel = k+1 := Nat.exists_eq_add_one.mpr (by rw [List.length_cons] at hf; omega)
    obtain ⟨hext,hexts⟩ := List.forall_mem_cons.mp h
    have hlt : OID_SIZE < (ext.serialize++(exts.flatMap BitIndexExtension.serialize++hash)).length := by
      simp only [List.length_append,BitIndexExtension.serialize,hext.1,hh]
      omega
    rw [List.flatMap_cons,List.append_assoc,parseExtensions_of_lt hlt,StateT.run_bind,parseExtension_decodes hext]
    exact ih hexts (by simpa using hf) _

/-- The extensions of an index. -/
def extensions (x : BitIndexInner) : List BitIndexExtension :=
  (x.treeCache.map fun c => (⟨BIT_INDEX_TREECACHE_SIG,UInt32.ofNat c.serialize.length,c.serialize⟩ : BitIndexExtension)).toList++
    (x.reuc.map fun r => (⟨BIT_INDEX_REUC_SIG,UInt32.ofNat r.data.length,r.data⟩ : BitIndexExtension)).toList

theorem writeExtension_eq (x : BitIndexInner) :
    writeExtension BIT_INDEX_TREECACHE_SIG (x.treeCache.map BitTreeCache.serialize)++
      writeExtension BIT_INDEX_REUC_SIG (x.reuc.map BitReuc.data) = x.extensions.flatMap BitIndexExtension.serialize := by
  unfold extensions
  cases x.treeCache <;> cases x.reuc <;> simp [writeExtension,writeWithSize,BitIndexExtension.serialize]

/-- The fields for counts and sizes can hold them. -/
structure Sized (x : BitIndexInner) : Prop where
  entries : x.entries.values.length < 2^32
  treeCache : ∀ c, x.treeCache = some c → c.extent < 2^32
  reuc : ∀ r, x.reuc = some r → r.data.length < 2^32

/-- No path is too long for the twelve bits in the flags. -/
def ShortPaths (x : BitIndexInner) : Prop := ∀ e ∈ x.entries.values, e.path.length ≤ 0xFFF

instance (x : BitIndexInner) : Decidable x.ShortPaths := inferInstanceAs (Decidable (∀ e ∈ _, _))

def Utf8 (x : BitIndexInner) : Prop := ∀ c, x.treeCache = some c → c.Utf8

structure WellFormed (x : BitIndexInner) : Prop where
  entries : ∀ e ∈ x.entries.values, e.WellFormed
  treeCache : ∀ c, x.treeCache = some c → c.WellFormed

variable {x : BitIndexInner}

theorem framed_extensions (h : x.Sized) : ∀ ext ∈ x.extensions, Framed ext := by
  intro ext hext
  rcases List.mem_append.mp hext with hext | hext
  · obtain ⟨c,hc,rfl⟩ := Option.map_eq_some_iff.mp (Option.mem_toList.mp hext)
    refine ⟨rfl,?_⟩
    rw [UInt32.toNat_ofNat_of_lt']
    exact (BitTreeCache.length_serialize c).trans_lt (h.treeCache c hc)
  · obtain ⟨r,hr,rfl⟩ := Option.map_eq_some_iff.mp (Option.mem_toList.mp hext)
    refine ⟨rfl,?_⟩
    rw [UInt32.toNat_ofNat_of_lt']
    exact h.reuc r hr

/-- The file of an index, but for the hash at its end. -/
def body (version : UInt32) (x : BitIndexInner) : Bytes :=
  BitIndexHeader.serialize ⟨BIT_INDEX_HEADER_SIG,version,UInt32.ofNat x.entries.values.length⟩++
    (x.entries.values.flatMap BitIndexEntry.written++x.extensions.flatMap BitIndexExtension.serialize)

def layout (sha1 : Bytes → Oid) (version : UInt32) (x : BitIndexInner) : Bytes :=
  body version x++(sha1 (body version x)).bytes

theorem mapM_serialize {es : List BitIndexEntry} (h : ∀ e ∈ es, isRelative e.path) :
    es.mapM BitIndexEntry.serialize = .ok (es.map BitIndexEntry.written) := by
  induction es with
  | nil => rfl
  | cons e es ih =>
    obtain ⟨he,hes⟩ := List.forall_mem_cons.mp h
    rw [List.mapM_cons,BitIndexEntry.serialize_eq he,ih hes]
    rfl

theorem serialize_eq (sha1 : Bytes → Oid) (h : ∀ e ∈ x.entries.values, isRelative e.path) :
    x.serialize sha1 = .ok (layout sha1 BIT_INDEX_VERSION x) := by
  simp only [serialize,mapM_serialize h,writeExtension_eq]
  rfl

theorem find_extensions (x : BitIndexInner) :
    findExtension (x.extensions.foldl insertExtension []) BIT_INDEX_TREECACHE_SIG =
        x.treeCache.map (fun c => ⟨BIT_INDEX_TREECACHE_SIG,UInt32.ofNat c.serialize.length,c.serialize⟩) ∧
      findExtension (x.extensions.foldl insertExtension []) BIT_INDEX_REUC_SIG =
        x.reuc.map (fun r => ⟨BIT_INDEX_REUC_SIG,UInt32.ofNat r.data.length,r.data⟩) ∧
      ∀ ext ∈ x.extensions.foldl insertExtension [],
        ext.signature = BIT_INDEX_TREECACHE_SIG ∨ ext.signature = BIT_INDEX_REUC_SIG := by
  have hne : BIT_INDEX_TREECACHE_SIG ≠ BIT_INDEX_REUC_SIG := by decide
  unfold extensions
  cases x.treeCache <;> cases x.reuc <;> simp [findExtension,insertExtension,hne,hne.symm]

theorem length_extensions_le (x : BitIndexInner) : x.extensions.length ≤ 2 := by
  unfold extensions
  cases x.treeCache <;> cases x.reuc <;> simp

/-- The last twenty bytes and what they are the hash of. -/
theorem take_drop_hash (bytes : Bytes) (o : Oid) :
    (bytes++o.bytes).take ((bytes++o.bytes).length-OID_SIZE) = bytes ∧
      (bytes++o.bytes).drop ((bytes++o.bytes).length-OID_SIZE) = o.bytes := by
  have h : (bytes++o.bytes).length-OID_SIZE = bytes.length := by simp [o.length_bytes]
  rw [h]
  exact ⟨List.take_left,List.drop_left⟩

/-- What a successful read of a file went through. -/
theorem deserialize_eq_ok {sha1 : Bytes → Oid} {buf : Bytes} :
    deserialize sha1 buf = .ok x ↔ ∃ header r entries remainder exts rest,
      parseHeader.run buf = .ok (header,r) ∧
      (times BitIndexEntry.deserialize header.entryc.toNat).run r = .ok (entries,remainder) ∧
      OID_SIZE ≤ remainder.length ∧ (parseExtensions remainder.length []).run remainder = .ok (exts,rest) ∧
      (findExtension exts BIT_INDEX_TREECACHE_SIG).mapM (fun ext => BitTreeCache.deserialize ext.data) = .ok x.treeCache ∧
      (∀ ext ∈ exts, ext.signature = BIT_INDEX_TREECACHE_SIG ∨ ext.signature = BIT_INDEX_REUC_SIG) ∧
      (sha1 (buf.take (buf.length-OID_SIZE))).bytes = buf.drop (buf.length-OID_SIZE) ∧
      BitIndexEntries.fromIter entries = x.entries ∧
      (findExtension exts BIT_INDEX_REUC_SIG).map (fun ext => ⟨ext.data⟩) = x.reuc := by
  simp only [deserialize,except_bind_eq_ok,ensure_eq_ok,Prod.exists]
  constructor
  · rintro ⟨header,r,hheader,entries,remainder,hentries,-,hle,exts,rest,hexts,cache,hcache,-,hother,-,hhash,hx⟩
    cases hx
    exact ⟨header,r,entries,remainder,exts,rest,hheader,hentries,hle,hexts,hcache,hother,hhash,rfl,rfl⟩
  · rintro ⟨header,r,entries,remainder,exts,rest,hheader,hentries,hle,hexts,hcache,hother,hhash,hes,hreuc⟩
    refine ⟨header,r,hheader,entries,remainder,hentries,(),hle,exts,rest,hexts,x.treeCache,hcache,(),hother,(),hhash,?_⟩
    rw [hes,hreuc]
    rfl

theorem mapM_deserialize (hw : x.WellFormed) (hs : x.Sized) {o : Option BitTreeCache} :
    (x.treeCache.map (fun c => (⟨BIT_INDEX_TREECACHE_SIG,UInt32.ofNat c.serialize.length,c.serialize⟩ : BitIndexExtension))).mapM
      (fun ext => BitTreeCache.deserialize ext.data) = .ok o ↔ x.Utf8 ∧ o = x.treeCache := by
  unfold Utf8
  cases hc : x.treeCache with
  | none => simp [Option.mapM,Pure.pure,Except.pure,eq_comm]
  | some c =>
    have hsmall := hs.treeCache c hc
    simp only [Option.map_some,Option.mapM_some,BitTreeCache.deserialize_serialize (hw.treeCache c hc) (by omega : c.extent < 2^63)]
    by_cases hu : c.Utf8 <;> simp [hu,Functor.map,Except.map,eq_comm]

/-- What the file of an index is read as, in either version: the index, if every path is short and every
name of the cache UTF-8, and nothing otherwise. -/
theorem deserialize_layout (sha1 : Bytes → Oid) {version : UInt32} (hv : version = 2 ∨ version = 3)
    (hw : x.WellFormed) (hs : x.Sized) {y : BitIndexInner} :
    deserialize sha1 (layout sha1 version x) = .ok y ↔ (x.ShortPaths ∧ x.Utf8) ∧ y = x := by
  obtain ⟨htake,hdrop⟩ := take_drop_hash (body version x) (sha1 (body version x))
  obtain ⟨htree,hreuc,hother⟩ := find_extensions x
  generalize hhash : (sha1 (body version x)).bytes = hash at htake hdrop
  generalize hexts : x.extensions.flatMap BitIndexExtension.serialize++hash = exts
  have hlen : hash.length = OID_SIZE := hhash ▸ (sha1 (body version x)).length_bytes
  have hle : OID_SIZE ≤ exts.length := by
    rw [← hexts,List.length_append,hlen]
    omega
  have hfuel : x.extensions.length ≤ exts.length := (length_extensions_le x).trans (le_trans (by decide) hle)
  have hbuf : layout sha1 version x =
      BitIndexHeader.serialize ⟨BIT_INDEX_HEADER_SIG,version,UInt32.ofNat x.entries.values.length⟩++
        (x.entries.values.flatMap BitIndexEntry.written++exts) := by
    rw [layout,hhash,← hexts]
    simp only [body,List.append_assoc]
  -- what each of the three readers does on its part of the file
  have hheader := (parseHeader_decodes hv (UInt32.ofNat x.entries.values.length)).run
    (x.entries.values.flatMap BitIndexEntry.written++exts)
  rw [← hbuf] at hheader
  have hentries : (times BitIndexEntry.deserialize (UInt32.ofNat x.entries.values.length).toNat).run
      (x.entries.values.flatMap BitIndexEntry.written++exts) =
      (if x.ShortPaths then .ok x.entries.values else .error BitIndexEntry.pathLenPanic : Except Error _).map fun a => (a,exts) := by
    rw [UInt32.toNat_ofNat_of_lt' hs.entries]
    exact Runs.times (fun e he => BitIndexEntry.deserialize_runs (hw.entries e he)) exts
  have hparse : (parseExtensions exts.length []).run exts = .ok (x.extensions.foldl insertExtension [],hash) := by
    rw [← hexts] at hfuel ⊢
    exact parseExtensions_serialize (framed_extensions hs) hlen hfuel []
  have hsum : (sha1 ((layout sha1 version x).take ((layout sha1 version x).length-OID_SIZE))).bytes =
      (layout sha1 version x).drop ((layout sha1 version x).length-OID_SIZE) := by
    rw [layout,hhash,htake,hdrop,hhash]
  rw [deserialize_eq_ok]
  constructor
  · rintro ⟨header,r,entries,remainder,found,rest,h₁,h₂,-,h₃,h₄,-,-,hes,hr⟩
    obtain ⟨rfl,rfl⟩ : _ ∧ _ := by simpa using hheader.symm.trans h₁
    rw [hentries] at h₂
    by_cases hshort : x.ShortPaths
    · rw [if_pos hshort] at h₂
      obtain ⟨rfl,rfl⟩ : _ ∧ _ := by simpa [Except.map] using h₂
      obtain ⟨rfl,rfl⟩ : _ ∧ _ := by simpa using hparse.symm.trans h₃
      rw [htree] at h₄
      rw [hreuc] at hr
      obtain ⟨hu,hc⟩ := (mapM_deserialize hw hs).mp h₄
      have hreucs : y.reuc = x.reuc := by
        rw [← hr]
        cases x.reuc <;> rfl
      rw [BitIndexEntries.fromIter_values] at hes
      refine ⟨⟨hshort,hu⟩,?_⟩
      calc y = ⟨y.entries,y.treeCache,y.reuc⟩ := rfl
        _ = x := by rw [← hes,hc,hreucs]
    · rw [if_neg hshort] at h₂
      cases h₂
  · rintro ⟨⟨hshort,hu⟩,rfl⟩
    rw [if_pos hshort] at hentries
    refine ⟨_,_,y.entries.values,exts,y.extensions.foldl insertExtension [],hash,hheader,hentries,hle,hparse,?_,hother,hsum,
      BitIndexEntries.fromIter_values _,?_⟩
    · rw [htree]
      exact (mapM_deserialize hw hs).mpr ⟨hu,rfl⟩
    · rw [hreuc]
      cases y.reuc <;> rfl

end BitIndexInner

/-! ### What was read fits the file -/

theorem dropLastByte_eq_ok {buf s bs rest : Bytes} (h : (dropLastByte buf).run bs = .ok (s,rest)) :
    s.length+1 = buf.length ∧ rest = bs := by
  obtain ⟨hs,hrest⟩ := orFail_eq_ok h
  split at hs
  · cases hs
  · rename_i hne
    cases hs
    have hpos := List.length_pos_iff.mpr hne
    exact ⟨by rw [List.length_dropLast]; omega,hrest⟩

theorem readNullTerminatedPath_length {bs path rest : Bytes} (h : readNullTerminatedPath.run bs = .ok (path,rest)) :
    path.length+1+rest.length = bs.length := by
  obtain ⟨buf,r,hbuf,h⟩ := bind_eq_ok h
  obtain ⟨s,r',hs,h⟩ := bind_eq_ok h
  obtain ⟨u,r'',hu,h⟩ := bind_eq_ok h
  obtain ⟨rfl,rfl⟩ := pure_eq_ok h
  obtain ⟨-,rfl⟩ := require_eq_ok hu
  obtain ⟨hlen,rfl⟩ := dropLastByte_eq_ok hs
  rw [readUntil_eq_ok hbuf,List.length_append,hlen]

theorem readAsciiNum_length {sep : Byte} {bs rest : Bytes} {i : ℤ} (h : (readAsciiNum sep).run bs = .ok (i,rest)) :
    (decimalInt i).length+1+rest.length ≤ bs.length ∧ -2^63 ≤ i ∧ i < 2^63 := by
  obtain ⟨buf,r,hbuf,h⟩ := bind_eq_ok h
  obtain ⟨s,r',hs,h⟩ := bind_eq_ok h
  obtain ⟨hi,rfl⟩ := orFail_eq_ok h
  obtain ⟨hlen,rfl⟩ := dropLastByte_eq_ok hs
  obtain ⟨hparse,hrange⟩ := Option.filter_eq_some_iff.mp hi
  have hle := length_decimalInt_of_parse hparse
  refine ⟨?_,by simpa using hrange⟩
  rw [readUntil_eq_ok hbuf,List.length_append]
  omega

theorem readTreeOid_length {count : ℤ} {bs rest : Bytes} {oid : Oid} (h : (BitTreeCache.readTreeOid count).run bs = .ok (oid,rest)) :
    (if 0 ≤ count then OID_SIZE else 0)+rest.length = bs.length := by
  unfold BitTreeCache.readTreeOid at h
  split at h
  · rename_i hc
    obtain ⟨buf,r,hbuf,hr⟩ := bind_eq_ok h
    obtain ⟨rfl,hlen⟩ := readExact_eq_ok.mp hbuf
    rw [dif_pos hlen] at hr
    obtain ⟨-,rfl⟩ := pure_eq_ok hr
    rw [if_pos hc,List.length_append,hlen]
  · rename_i hc
    obtain ⟨-,rfl⟩ := pure_eq_ok h
    rw [if_neg hc,Nat.zero_add]

namespace TreeCaches
variable {m : TreeCaches} {c : BitTreeCache}

theorem extent_cons (path : Bytes) (oid : Oid) (count : ℤ) (children rest : TreeCaches) :
    (cons path oid count children rest).extent = BitTreeCache.extent ⟨path,oid,count,children⟩+rest.extent := rfl

theorem insert_le (m : TreeCaches) (c : BitTreeCache) :
    (m.insert c).len ≤ m.len+1 ∧ (m.insert c).extent ≤ m.extent+c.extent := by
  induction m with
  | nil => exact ⟨le_rfl,by simp [insert,extent,BitTreeCache.extent,BitTreeCache.toCaches]⟩
  | cons path oid count children rest _ ih =>
    unfold insert
    split
    · refine ⟨by simp [len],?_⟩
      rw [extent_cons,extent_cons]
      change c.extent+_ ≤ _
      omega
    · simp only [len,extent_cons]
      omega

theorem collectInto_le (cs m : TreeCaches) :
    (collectInto m cs).len ≤ m.len+cs.len ∧ (collectInto m cs).extent ≤ m.extent+cs.extent := by
  induction cs generalizing m with
  | nil => exact ⟨le_rfl,le_rfl⟩
  | cons path oid count children rest _ ih =>
    have hinsert := insert_le m ⟨path,oid,count,children⟩
    have hrest := ih (m.insert ⟨path,oid,count,children⟩)
    simp only [collectInto,len,extent_cons]
    omega

end TreeCaches

namespace BitTreeCache

/-- The number of children is not negative if so many children were read. -/
theorem length_decimal_asUsize {i : ℤ} (hi : -2^63 ≤ i ∧ i < 2^63) {n : ℕ} (hn : asUsize i = n) (hsmall : n < 2^63) :
    (decimalInt i).length = (decimalInt n).length := by
  have hin : i = n := by
    unfold asUsize at hn
    omega
  rw [hin]

/-- A node takes at least as many bytes as are written for it. -/
theorem readNode_extent {readNodes : ℕ → Parser TreeCaches} {k : ℕ}
    (hnodes : ∀ n bs cs rest, bs.length < k → (readNodes n).run bs = .ok (cs,rest) → cs.len = n ∧ cs.extent+rest.length ≤ bs.length)
    {bs rest : Bytes} {c : BitTreeCache} (hk : bs.length ≤ k) (hsmall : bs.length < 2^63)
    (h : (readNode readNodes).run bs = .ok (c,rest)) : c.extent+rest.length ≤ bs.length := by
  obtain ⟨path,r₁,hpath,h⟩ := bind_eq_ok h
  obtain ⟨count,r₂,hcount,h⟩ := bind_eq_ok h
  obtain ⟨n,r₃,hn,h⟩ := bind_eq_ok h
  obtain ⟨oid,r₄,hoid,h⟩ := bind_eq_ok h
  obtain ⟨cs,r₅,hcs,h⟩ := bind_eq_ok h
  obtain ⟨rfl,rfl⟩ := pure_eq_ok h
  rw [map_eq_pure_bind] at hn
  obtain ⟨i,r,hi,hn⟩ := bind_eq_ok hn
  obtain ⟨rfl,rfl⟩ := pure_eq_ok hn
  have hlpath := readNullTerminatedPath_length hpath
  have hlcount := (readAsciiNum_length hcount).1
  obtain ⟨hli,hrange⟩ := readAsciiNum_length hi
  have hloid := readTreeOid_length hoid
  obtain ⟨hlen,hext⟩ := hnodes _ _ _ _ (by omega) hcs
  have hcslen := TreeCaches.len_le_extent cs
  rw [length_decimal_asUsize hrange hlen.symm (by omega)] at hli
  obtain ⟨hcollen,hcolext⟩ := TreeCaches.collectInto_le cs .nil
  have hmono : (decimalInt (TreeCaches.collectInto .nil cs).len).length ≤ (decimalInt cs.len).length :=
    length_decimal_mono (by simpa [TreeCaches.len] using hcollen)
  simp only [TreeCaches.extent] at hcolext
  simp only [extent,toCaches,TreeCaches.extent]
  omega

theorem readNodes_extent {fuel n : ℕ} {bs rest : Bytes} {cs : TreeCaches} (hsmall : bs.length < 2^63)
    (h : (readNodes fuel n).run bs = .ok (cs,rest)) : cs.len = n ∧ cs.extent+rest.length ≤ bs.length := by
  induction fuel generalizing n bs rest cs with
  | zero =>
    cases n with
    | zero =>
      unfold readNodes at h
      obtain ⟨rfl,rfl⟩ := pure_eq_ok h
      exact ⟨rfl,by simp [TreeCaches.extent]⟩
    | succ n => cases h
  | succ fuel ih =>
    cases n with
    | zero =>
      unfold readNodes at h
      obtain ⟨rfl,rfl⟩ := pure_eq_ok h
      exact ⟨rfl,by simp [TreeCaches.extent]⟩
    | succ n =>
      obtain ⟨c,r,hc,h⟩ := bind_eq_ok h
      obtain ⟨cs',r',hcs,h⟩ := bind_eq_ok h
      obtain ⟨rfl,rfl⟩ := pure_eq_ok h
      have hnode := readNode_extent (fun n bs cs rest hbs hr => ih (hbs.trans hsmall) hr) le_rfl hsmall hc
      obtain ⟨hlen,hext⟩ := ih (by omega) hcs
      refine ⟨by rw [TreeCaches.len,hlen],?_⟩
      change c.extent+cs'.extent+_ ≤ _
      omega

theorem extent_of_deserialize {data : Bytes} {c : BitTreeCache} (hsmall : data.length < 2^63) (h : deserialize data = .ok c) :
    c.extent ≤ data.length := by
  have hnode := readNode_extent (fun _ _ _ _ hbs hr => readNodes_extent (hbs.trans hsmall) hr) le_rfl hsmall
    (deserialize_eq_ok.mp h)
  simpa using hnode

end BitTreeCache

namespace BitIndexInner
variable {x : BitIndexInner}

theorem parseExtension_yields : Yields parseExtension fun ext => ext.data.length < 2^32 := by
  refine .bind fun _ => .bind fun size => ?_
  intro bs ext rest h
  obtain ⟨data,r,hdata,h⟩ := bind_eq_ok h
  obtain ⟨rfl,-⟩ := pure_eq_ok h
  obtain ⟨-,hlen⟩ := readExact_eq_ok.mp hdata
  exact hlen.trans_lt (UInt32.toNat_lt _)

theorem parseExtensions_zero {buf : Bytes} (h : OID_SIZE < buf.length) (m : List BitIndexExtension) :
    (parseExtensions 0 m).run buf = .error .outOfFuel := by
  unfold parseExtensions
  exact congrFun (if_neg (Nat.not_le.mpr h)) buf

theorem parseExtensions_yields (fuel : ℕ) {m : List BitIndexExtension} (hm : ∀ ext ∈ m, ext.data.length < 2^32) :
    Yields (parseExtensions fuel m) fun exts => ∀ ext ∈ exts, ext.data.length < 2^32 := by
  induction fuel generalizing m with
  | zero =>
    intro bs exts rest h
    rcases Nat.lt_or_ge OID_SIZE bs.length with hlt | hle
    · rw [parseExtensions_zero hlt] at h
      cases h
    · rw [parseExtensions_of_le hle] at h
      cases h
      exact hm
  | succ fuel ih =>
    intro bs exts rest h
    rcases Nat.lt_or_ge OID_SIZE bs.length with hlt | hle
    · rw [parseExtensions_of_lt hlt] at h
      obtain ⟨ext,r,hext,h⟩ := bind_eq_ok h
      refine ih ?_ r exts rest h
      intro y hy
      rcases List.mem_cons.mp hy with rfl | hy
      · exact parseExtension_yields _ _ _ hext
      · exact hm y (List.mem_of_mem_filter hy)
    · rw [parseExtensions_of_le hle] at h
      cases h
      exact hm

/-- Whatever was read fits the fields for counts and sizes. -/
theorem sized_of_deserialize {sha1 : Bytes → Oid} {buf : Bytes} (h : deserialize sha1 buf = .ok x) : x.Sized := by
  obtain ⟨header,r,entries,remainder,exts,rest,-,hentries,-,hexts,hcache,-,-,hes,hreuc⟩ := deserialize_eq_ok.mp h
  have hlen := Yields.times (Q := fun _ => True) (fun _ _ _ _ => trivial) _ _ _ _ hentries
  have hsize := parseExtensions_yields _ (by simp) _ _ _ hexts
  have hfind : ∀ sig ext, findExtension exts sig = some ext → ext.data.length < 2^32 := fun sig ext hf =>
    hsize ext (List.mem_of_find?_eq_some hf)
  refine ⟨?_,fun c hc => ?_,fun r hr => ?_⟩
  · have hle : x.entries.values.length ≤ entries.length := by
      rw [← hes]
      exact (length_foldl_insert_le entries .empty).trans (by simp [BitIndexEntries.empty])
    rw [hlen.1] at hle
    exact hle.trans_lt header.entryc.toNat_lt
  · rw [hc] at hcache
    obtain ⟨ext,hf,hd⟩ := mapM_eq_ok_some hcache
    have hlt := hfind _ _ hf
    exact (BitTreeCache.extent_of_deserialize (by omega) hd).trans_lt hlt
  · rw [hr] at hreuc
    obtain ⟨ext,hf,rfl⟩ := Option.map_eq_some_iff.mp hreuc
    exact hfind _ _ hf

theorem serialize_bind_deserialize (sha1 : Bytes → Oid) (hw : x.WellFormed) :
    (x.serialize sha1 >>= deserialize sha1) = deserialize sha1 (layout sha1 BIT_INDEX_VERSION x) := by
  rw [serialize_eq sha1 fun e he => (hw.entries e he).relative]
  rfl

/-- The defect: a path of 4096 bytes or more does not pass the assertion about its length. The sizes are
cut to 32 bits. -/
theorem deserialize_serialize_iff (sha1 : Bytes → Oid) (hw : x.WellFormed) (hu : x.Utf8) :
    (x.serialize sha1 >>= deserialize sha1) = .ok x ↔ x.ShortPaths ∧ x.Sized := by
  rw [serialize_bind_deserialize sha1 hw]
  constructor
  · intro h
    have hs := sized_of_deserialize h
    exact ⟨((deserialize_layout sha1 (.inl rfl) hw hs).mp h).1.1,hs⟩
  · exact fun ⟨hshort,hs⟩ => (deserialize_layout sha1 (.inl rfl) hw hs).mpr ⟨⟨hshort,hu⟩,rfl⟩

/-- An entry that is in conflict and marked to be skipped, below a directory the cache has no tree for. -/
def conflictIndex : BitIndexInner :=
  ⟨.fromIter [⟨⟨1,2⟩,⟨3,4⟩,5,6,.EXEC,7,8,9,.UNKNOWN,⟨0x6003⟩,⟨0x4000⟩,[97,47,98]⟩],
    some ⟨[],.UNKNOWN,1,.cons [97] .UNKNOWN (-1) .nil .nil⟩,some ⟨[1,2,3]⟩⟩

theorem deserialize_serialize_iff_conflict :
    (conflictIndex.serialize (fun _ => .UNKNOWN) >>= deserialize fun _ => .UNKNOWN) = .ok conflictIndex ↔
      conflictIndex.ShortPaths ∧ conflictIndex.Sized := by
  refine deserialize_serialize_iff _ ⟨fun e he => ?_,fun c hc => ?_⟩ fun c hc => ?_
  · obtain rfl := List.mem_singleton.mp he
    constructor <;> decide
  · cases hc
    exact ⟨by decide,by decide,by decide,by decide,⟨by decide,by decide,by decide,by decide,trivial,trivial⟩,trivial⟩
  · cases hc
    decide

/-- A file that a path of 4096 bytes is tracked for. -/
def longPathIndex : BitIndexInner :=
  ⟨⟨[⟨⟨0,0⟩,⟨0,0⟩,0,0,.REG,0,0,0,.UNKNOWN,⟨0xFFF⟩,⟨0⟩,List.replicate 4096 97⟩],List.pairwise_singleton _ _⟩,none,none⟩

theorem deserialize_serialize_longPath : (longPathIndex.WellFormed ∧ longPathIndex.Utf8) ∧
    ∀ sha1 : Bytes → Oid, (longPathIndex.serialize sha1 >>= deserialize sha1) ≠ .ok longPathIndex := by
  have hw : longPathIndex.WellFormed := by
    refine ⟨fun e he => ?_,fun c hc => nomatch hc⟩
    obtain rfl := List.mem_singleton.mp he
    refine ⟨by simp [isRelative,SLASH],fun h => absurd (List.eq_of_mem_replicate h) (by decide),?_,rfl,fun _ => rfl⟩
    rw [List.length_replicate]
    rfl
  refine ⟨⟨hw,fun c hc => nomatch hc⟩,fun sha1 h => ?_⟩
  rw [serialize_bind_deserialize sha1 hw] at h
  have hlen := ((deserialize_layout sha1 (.inl rfl) hw (sized_of_deserialize h)).mp h).1.1 _ List.mem_cons_self
  rw [List.length_replicate] at hlen
  omega

end BitIndexInner
end IndexFile
end Libbit
