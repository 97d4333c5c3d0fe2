import Libbit.IndexFileSpec

/-! The format of index files in versions 2 and 3, said of the bytes: records of entries in the order of
their keys, the extensions TREE and REUC in this order, and the hash of all that. A file that has the
format is written back as it was exactly if its version is 2, no path is too long for its length to
be in the flags, and the cache names directories in UTF-8 only. -/
namespace Libbit
namespace IndexFile
namespace Format

open Lib Lib.Reader

/-- The file mode in four bytes: 100644, 100755, 120000, 160000, or 40000 for a directory. -/
def modeBytes : FileMode → Bytes
  | .REG => [0,0,0x81,0xA4]
  | .EXEC => [0,0,0x81,0xED]
  | .LINK => [0,0,0xA0,0]
  | .GITLINK => [0,0,0xE0,0]
  | .TREE => [0,0,0x40,0]

/-- The times, device, inode, mode, owner, size and object of an entry, 60 bytes. -/
def statBytes (e : BitIndexEntry) : Bytes :=
  writeU32 e.ctime.sec++writeU32 e.ctime.nano++writeU32 e.mtime.sec++writeU32 e.mtime.nano++
    writeU32 e.device++writeU32 e.inode++modeBytes e.mode++writeU32 e.uid++writeU32 e.gid++
    writeU32 e.filesize++e.oid.bytes

/-- Bit 14 of the flags announces sixteen more. -/
def IsExtended (e : BitIndexEntry) : Prop := e.flags.bits.toNat/2^14%2 = 1

instance (e : BitIndexEntry) : Decidable (IsExtended e) := inferInstanceAs (Decidable (_ = _))

/-- The bytes of an entry. The path ends with one to eight null bytes, up to a multiple of eight. -/
structure EntryRecord (version : UInt32) (e : BitIndexEntry) (bytes : Bytes) : Prop where
  relative : e.path.head? ≠ some SLASH
  nulFree : 0 ∉ e.path
  /-- The low twelve bits of the flags are the length of the path, or all set for a longer one. -/
  pathLen : e.flags.bits.toNat%2^12 = if e.path.length < 0xFFF then e.path.length else 0xFFF
  extended : IsExtended e → version = 3 ∧ e.extendedFlags.bits.toNat%2^13 = 0
  plain : ¬IsExtended e → e.extendedFlags.bits = 0
  aligned : bytes.length%8 = 0
  text : ∃ pad ∈ Finset.Icc 1 8, bytes = statBytes e++writeU16 e.flags.bits++
    (if IsExtended e then writeU16 e.extendedFlags.bits else [])++e.path++List.replicate pad 0

/-- The bytes of nodes of the tree cache in a row, each before its children. A count that is negative
has no object after it. -/
inductive CacheRecords : TreeCaches → Bytes → Prop
  | nil : CacheRecords .nil []
  | valid {name : Bytes} {oid : Oid} {count : ℕ} {children rest : TreeCaches} {bytes bytes' : Bytes}
      (nulFree : 0 ∉ name) (range : count < 2^63) (nodup : children.paths.Nodup)
      (hchildren : CacheRecords children bytes) (hrest : CacheRecords rest bytes') :
      CacheRecords (.cons name oid count children rest)
        (name++[0]++decimal count++[0x20]++decimal children.len++[0x0a]++oid.bytes++bytes++bytes')
  | invalid {name : Bytes} {count : ℕ} {children rest : TreeCaches} {bytes bytes' : Bytes}
      (nulFree : 0 ∉ name) (negative : 0 < count) (range : count ≤ 2^63) (nodup : children.paths.Nodup)
      (hchildren : CacheRecords children bytes) (hrest : CacheRecords rest bytes') :
      CacheRecords (.cons name .UNKNOWN (-count) children rest)
        (name++[0]++[0x2d]++decimal count++[0x20]++decimal children.len++[0x0a]++bytes++bytes')

/-- An extension that may be missing: the signature, the size, the data. -/
inductive Extension (signature : Bytes) : Option Bytes → Bytes → Prop
  | absent : Extension signature none []
  | present {data : Bytes} (size : data.length < 2^32) :
      Extension signature (some data) (signature++bigEndian 4 data.length++data)

/-- The bytes are a file of the version with these entries, this cache and this REUC extension. -/
structure GitIndex (sha1 : Bytes → Oid) (version : UInt32) (x : BitIndexInner) (bytes : Bytes) : Prop where
  supported : version = 2 ∨ version = 3
  count : x.entries.values.length < 2^32
  text : ∃ (records : List Bytes) (cache : Option Bytes) (tree reuc body : Bytes),
    List.Forall₂ (EntryRecord version) x.entries.values records ∧
    Option.Rel (fun c data => CacheRecords (BitTreeCache.toCaches c) data) x.treeCache cache ∧
    Extension BIT_INDEX_TREECACHE_SIG cache tree ∧
    Extension BIT_INDEX_REUC_SIG (x.reuc.map BitReuc.data) reuc ∧
    body = [0x44,0x49,0x52,0x43]++writeU32 version++bigEndian 4 x.entries.values.length++records.flatten++tree++reuc ∧
    bytes = body++(sha1 body).bytes

/-! ### The flags as numbers -/

theorem pathLen_eq (f : BitIndexEntryFlags) : f.pathLen = f.bits.toNat%2^12 := by
  rw [BitIndexEntryFlags.pathLen,UInt16.toNat_and]
  exact Nat.and_two_pow_sub_one_eq_mod _ 12

theorem extended_iff (e : BitIndexEntry) : e.flags.extended = true ↔ IsExtended e := by
  have hbit : e.flags.bits &&& ((1 : UInt16) <<< 14) = 0 ↔ e.flags.bits.toNat &&& 2^14 = 0 := by
    rw [← UInt16.toNat_inj,UInt16.toNat_and]
    rfl
  rw [BitIndexEntryFlags.extended,bne_iff_ne,ne_eq,hbit,IsExtended,Nat.and_two_pow,
    Nat.testBit_eq_decide_div_mod_eq]
  by_cases h : e.flags.bits.toNat/2^14%2 = 1 <;> simp

theorem unused_eq {u : UInt16} (h : u.toNat%2^13 = 0) : u &&& 0x1FFF = 0 := by
  rw [← UInt16.toNat_inj,UInt16.toNat_and]
  exact (Nat.and_two_pow_sub_one_eq_mod _ 13).trans h

theorem writeU32_asU32 (m : FileMode) : writeU32 m.asU32 = modeBytes m := by cases m <;> rfl

theorem length_statBytes (e : BitIndexEntry) : (statBytes e).length = 60 := by
  simp only [statBytes,List.length_append,length_writeU32,← writeU32_asU32,e.oid.length_bytes,OID_SIZE]

theorem EntryRecord.wellFormed {version : UInt32} {e : BitIndexEntry} {bytes : Bytes} (h : EntryRecord version e bytes) :
    e.WellFormed where
  relative := h.relative
  nulFree := h.nulFree
  pathLen := by
    rw [pathLen_eq,h.pathLen]
    split <;> omega
  unused := by
    by_cases hext : IsExtended e
    · exact unused_eq (h.extended hext).2
    · rw [h.plain hext]
      rfl
  plain := fun hext => h.plain fun hh => by simp [(extended_iff e).mpr hh] at hext

/-- The padding that is written is the one that the format asks for. -/
theorem EntryRecord.written {version : UInt32} {e : BitIndexEntry} {bytes : Bytes} (h : EntryRecord version e bytes) :
    e.written = bytes := by
  obtain ⟨pad,hpad,htext⟩ := h.text
  obtain ⟨hpos,hle⟩ := Finset.mem_Icc.mp hpad
  have haligned := h.aligned
  have hwritten : e.written = statBytes e++writeU16 e.flags.bits++
      (if IsExtended e then writeU16 e.extendedFlags.bits else [])++e.path++List.replicate e.paddingLen 0 := by
    simp only [BitIndexEntry.written,statBytes,writeTimespec,writeU32_asU32,List.append_assoc,extended_iff]
  have hlen : e.paddingLen = pad := by
    rw [htext] at haligned
    simp only [List.length_append,length_statBytes,length_writeU16,List.length_replicate] at haligned
    unfold BitIndexEntry.paddingLen paddingLenForFilepath ENTRY_SIZE_WITHOUT_FILEPATH OID_SIZE
    simp only [extended_iff]
    by_cases hext : IsExtended e
    · simp only [hext,if_true,length_writeU16] at haligned ⊢
      omega
    · simp only [hext,if_false,List.length_nil] at haligned ⊢
      omega
  rw [hwritten,htext,hlen]

theorem CacheRecords.wellFormed {cs : TreeCaches} {bytes : Bytes} (h : CacheRecords cs bytes) :
    cs.WellFormed ∧ cs.serialize = bytes := by
  induction h with
  | nil => exact ⟨trivial,rfl⟩
  | valid h0 hrange hnodup _ _ hc hr =>
    refine ⟨⟨h0,⟨by omega,by omega⟩,fun h => absurd h (by omega),hnodup,hc.1,hr.1⟩,?_⟩
    rw [TreeCaches.serialize,hc.2,hr.2,if_pos (Int.natCast_nonneg _)]
    simp only [writeAsciiNum,decimalInt,List.append_assoc]
  | @invalid name count children rest bytes bytes' h0 hneg hrange hnodup _ _ hc hr =>
    obtain ⟨k,rfl⟩ : ∃ k, count = k+1 := Nat.exists_eq_add_one.mpr hneg
    refine ⟨⟨h0,⟨by omega,by omega⟩,fun _ => rfl,hnodup,hc.1,hr.1⟩,?_⟩
    rw [TreeCaches.serialize,hc.2,hr.2,if_neg (by omega)]
    have hcount : decimalInt (-((k+1 : ℕ) : ℤ)) = 45::decimal (k+1) := rfl
    simp only [writeAsciiNum,hcount,List.append_assoc]
    rfl

theorem Extension.writeExtension {signature : Bytes} {o : Option Bytes} {bytes : Bytes} (h : Extension signature o bytes) :
    IndexFile.writeExtension signature o = bytes ∧ ∀ data, o = some data → data.length < 2^32 := by
  cases h with
  | absent => exact ⟨rfl,nofun⟩
  | @present data size =>
    refine ⟨?_,fun d hd => Option.some.inj hd ▸ size⟩
    rw [IndexFile.writeExtension,writeWithSize,writeU32,UInt32.toNat_ofNat_of_lt' size,List.append_assoc]

theorem writeU32_injective : Function.Injective writeU32 := fun u v h => by
  rw [← ofBigEndian_writeU32 u,h,ofBigEndian_writeU32]

variable {sha1 : Bytes → Oid} {version : UInt32} {x : BitIndexInner} {bytes : Bytes}

theorem flatMap_written {es : List BitIndexEntry} {records : List Bytes} (h : List.Forall₂ (EntryRecord version) es records) :
    (∀ e ∈ es, e.WellFormed) ∧ es.flatMap BitIndexEntry.written = records.flatten := by
  induction h with
  | nil => exact ⟨by simp,rfl⟩
  | cons hr _ ih =>
    refine ⟨List.forall_mem_cons.mpr ⟨hr.wellFormed,ih.1⟩,?_⟩
    rw [List.flatMap_cons,List.flatten_cons,hr.written,ih.2]

theorem map_serialize {o : Option BitTreeCache} {cache : Option Bytes}
    (h : Option.Rel (fun c data => CacheRecords (BitTreeCache.toCaches c) data) o cache) :
    (∀ c, o = some c → c.WellFormed) ∧ o.map BitTreeCache.serialize = cache := by
  cases h with
  | none => exact ⟨nofun,rfl⟩
  | some hr =>
    refine ⟨fun d hd => Option.some.inj hd ▸ hr.wellFormed.1,?_⟩
    rw [Option.map_some,← BitTreeCache.serialize_toCaches,hr.wellFormed.2]

theorem GitIndex.wellFormed (h : GitIndex sha1 version x bytes) :
    x.WellFormed ∧ x.Sized ∧ BitIndexInner.layout sha1 version x = bytes := by
  obtain ⟨records,cache,tree,reuc,body,hrecords,hcache,htree,hreuc,hbody,hbytes⟩ := h.text
  obtain ⟨hentries,hwritten⟩ := flatMap_written hrecords
  obtain ⟨hcaches,rfl⟩ := map_serialize hcache
  obtain ⟨rfl,htreelen⟩ := htree.writeExtension
  obtain ⟨rfl,hreuclen⟩ := hreuc.writeExtension
  have hcount : writeU32 (UInt32.ofNat x.entries.values.length) = bigEndian 4 x.entries.values.length := by
    rw [writeU32,UInt32.toNat_ofNat_of_lt' h.count]
  have hbodyeq : BitIndexInner.body version x = body := by
    rw [BitIndexInner.body,← BitIndexInner.writeExtension_eq,hwritten,hbody,BitIndexHeader.serialize,hcount]
    simp only [List.append_assoc]
    rfl
  refine ⟨⟨hentries,hcaches⟩,⟨h.count,fun c hc => ?_,fun r hr => ?_⟩,by rw [BitIndexInner.layout,hbodyeq,hbytes]⟩
  · rw [← BitTreeCache.length_serialize]
    exact htreelen _ (by rw [hc,Option.map_some])
  · exact hreuclen _ (by rw [hr,Option.map_some])

/-- The version is in the second four bytes. -/
theorem layout_injective {version' : UInt32} (h : BitIndexInner.layout sha1 version x = BitIndexInner.layout sha1 version' x) :
    version = version' := by
  simp only [BitIndexInner.layout,BitIndexInner.body,BitIndexHeader.serialize,List.append_assoc] at h
  exact writeU32_injective (List.append_inj (List.append_cancel_left h) rfl).1

/-- A file that was written back as it was. -/
theorem GitIndex.of_reencode (h : GitIndex sha1 version x bytes)
    (hr : (BitIndexInner.deserialize sha1 bytes >>= BitIndexInner.serialize sha1) = .ok bytes) :
    version = 2 ∧ x.ShortPaths ∧ x.Utf8 := by
  obtain ⟨hw,hs,hlayout⟩ := h.wellFormed
  obtain ⟨y,hy,hyb⟩ := except_bind_eq_ok.mp hr
  rw [← hlayout] at hy
  obtain ⟨⟨hshort,hu⟩,rfl⟩ := (BitIndexInner.deserialize_layout sha1 h.supported hw hs).mp hy
  rw [BitIndexInner.serialize_eq sha1 fun e he => (hw.entries e he).relative,← hlayout] at hyb
  exact ⟨(layout_injective (Except.ok.inj hyb)).symm,hshort,hu⟩

/-- Every file is written as version 2, also one of version 3 whose entries have extended flags. -/
theorem reencode_iff (h : GitIndex sha1 version x bytes) :
    (BitIndexInner.deserialize sha1 bytes >>= BitIndexInner.serialize sha1) = .ok bytes ↔
      version = 2 ∧ x.ShortPaths ∧ x.Utf8 := by
  refine ⟨h.of_reencode,?_⟩
  rintro ⟨rfl,hshort,hu⟩
  obtain ⟨hw,hs,hlayout⟩ := h.wellFormed
  refine except_bind_eq_ok.mpr ⟨x,?_,?_⟩
  · rw [← hlayout]
    exact (BitIndexInner.deserialize_layout sha1 h.supported hw hs).mpr ⟨⟨hshort,hu⟩,rfl⟩
  · rw [BitIndexInner.serialize_eq sha1 fun e he => (hw.entries e he).relative,← hlayout]
    rfl

/-- The index of one file `a`. -/
def oneFile (flags extendedFlags : UInt16) (cache : Option BitTreeCache) : BitIndexInner :=
  ⟨⟨[⟨⟨0,0⟩,⟨0,0⟩,0,0,.REG,0,0,0,.UNKNOWN,⟨flags⟩,⟨extendedFlags⟩,[97]⟩],List.pairwise_singleton _ _⟩,cache,none⟩

def statRecord : Bytes := List.replicate 24 0++[0,0,0x81,0xA4]++List.replicate 32 0

/-- The file in version 2, with a tree cache that was invalidated. -/
def invalidCache : BitTreeCache := ⟨[],.UNKNOWN,-1,.nil⟩

def cachedBody : Bytes :=
  [0x44,0x49,0x52,0x43,0,0,0,2,0,0,0,1]++(statRecord++[0,1,97,0])++
    ([0x54,0x52,0x45,0x45,0,0,0,6]++[0,0x2d,0x31,0x20,0x30,0x0a])

theorem reencode_iff_cached :
    (BitIndexInner.deserialize (fun _ => .UNKNOWN) (cachedBody++Oid.UNKNOWN.bytes) >>= BitIndexInner.serialize fun _ => .UNKNOWN) =
        .ok (cachedBody++Oid.UNKNOWN.bytes) ↔
      (2 : UInt32) = 2 ∧ (oneFile 1 0 (some invalidCache)).ShortPaths ∧ (oneFile 1 0 (some invalidCache)).Utf8 := by
  have hrecord : EntryRecord 2 ⟨⟨0,0⟩,⟨0,0⟩,0,0,.REG,0,0,0,.UNKNOWN,⟨1⟩,⟨0⟩,[97]⟩ (statRecord++[0,1,97,0]) :=
    ⟨by decide,by decide,by decide,by decide,by decide,by decide,1,by decide,by decide⟩
  have hcache : CacheRecords invalidCache.toCaches [0,0x2d,0x31,0x20,0x30,0x0a] :=
    @CacheRecords.invalid [] 1 .nil .nil [] [] (by decide) (by decide) (by decide) (by decide) .nil .nil
  have htree : Extension BIT_INDEX_TREECACHE_SIG (some [0,0x2d,0x31,0x20,0x30,0x0a])
      ([0x54,0x52,0x45,0x45,0,0,0,6]++[0,0x2d,0x31,0x20,0x30,0x0a]) := .present (by decide)
  exact reencode_iff ⟨.inl rfl,by decide,_,_,_,_,cachedBody,.cons hrecord .nil,.some hcache,htree,.absent,by decide,rfl⟩

/-- The file in version 3, marked to be left out of the worktree. -/
def skippedBody : Bytes :=
  [0x44,0x49,0x52,0x43,0,0,0,3,0,0,0,1]++(statRecord++[0x40,1,0x40,0,97,0,0,0,0,0,0,0])

theorem reencode_skipped : ¬∃ sha1 : Bytes → Oid,
    GitIndex sha1 3 (oneFile 0x4001 0x4000 none) (skippedBody++(sha1 skippedBody).bytes) →
      (BitIndexInner.deserialize sha1 (skippedBody++(sha1 skippedBody).bytes) >>= BitIndexInner.serialize sha1) =
        .ok (skippedBody++(sha1 skippedBody).bytes) := by
  rintro ⟨sha1,hsame⟩
  have hrecord : EntryRecord 3 ⟨⟨0,0⟩,⟨0,0⟩,0,0,.REG,0,0,0,.UNKNOWN,⟨0x4001⟩,⟨0x4000⟩,[97]⟩
      (statRecord++[0x40,1,0x40,0,97,0,0,0,0,0,0,0]) :=
    ⟨by decide,by decide,by decide,by decide,by decide,by decide,7,by decide,by decide⟩
  have h : GitIndex sha1 3 (oneFile 0x4001 0x4000 none) (skippedBody++(sha1 skippedBody).bytes) :=
    ⟨.inr rfl,by decide,_,_,_,_,skippedBody,.cons hrecord .nil,.none,.absent,.absent,by decide,rfl⟩
  exact absurd (h.of_reencode (hsame h)).1 (by decide)

end Format
end IndexFile
end Libbit
