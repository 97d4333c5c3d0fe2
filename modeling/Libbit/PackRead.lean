import Libbit.PackSpec

/-! Reading the objects of a pack and their headers through an index. -/
namespace Libbit
namespace Packfile

open Lib Lib.Reader
open IndexFile (Parser readU32 writeU32 readOid readU32_decodes readOid_decodes)

namespace IndexTable

/-- The offset that the index has for the oid. -/
def names (t : IndexTable) (oid : Oid) (offset : ℕ) (_ : BitPackObjRaw) : Prop :=
  ∃ row ∈ t.rows, row.oid = oid ∧ t.recorded row = offset

/-- The offset that a lookup returns, one of 31 bits. -/
def finds (t : IndexTable) (oid : Oid) (offset : ℕ) (_ : BitPackObjRaw) : Prop :=
  ∃ row ∈ t.rows, row.oid = oid ∧ row.offset.toNat ≤ MAX_OFFSET ∧ row.offset.toNat = offset

variable {t : IndexTable} {oid : Oid} {offset : ℕ} {obj : BitPackObjRaw}

theorem finds_unique (t : IndexTable) (oid : Oid) (o o' : ℕ) (b b' : BitPackObjRaw) (h : t.finds oid o b)
    (h' : t.finds oid o' b') : o = o' := by
  obtain ⟨row,hrow,hoid,-,rfl⟩ := h
  obtain ⟨row',hrow',hoid',-,rfl⟩ := h'
  rw [row_ext hrow hrow' (hoid.trans hoid'.symm)]

/-- Two oids that are there and whose buckets start together have the same bucket. -/
theorem first_eq_of_start_eq {a b : Oid} (ha : a ∈ t.oids) (hb : b ∈ t.oids) (h : t.start a = t.start b) :
    a.first = b.first := by
  have hlt {a b : Oid} (ha : a ∈ t.oids) (h : t.start a = t.start b) : ¬a.first < b.first := by
    intro hlt
    have hone : 0 < t.oids.countP (·.first = a.first) := List.countP_pos_iff.mpr ⟨a,ha,by simp⟩
    have hle := upTo_le_below t.oids hlt
    rw [upTo_eq] at hle
    simp only [start] at h
    omega
  exact le_antisymm (not_lt.mp (hlt hb h.symm)) (not_lt.mp (hlt ha h))

/-- As long as only oids are asked for that are there, every lookup searches the right bucket. -/
theorem kept_of_mem {seen : List Oid} (hseen : ∀ o ∈ seen, o ∈ t.oids) (h : oid ∈ t.oids) :
    (t.kept (seen++[oid]) (t.start oid)).map Oid.first = some oid.first := by
  obtain ⟨first,hfirst,hstart⟩ := t.exists_kept seen oid
  have hmem : first ∈ seen++[oid] := List.mem_of_find?_eq_some hfirst
  have hfirst' : first ∈ t.oids := by
    rcases List.mem_append.mp hmem with hs | hs
    · exact hseen first hs
    · exact List.mem_singleton.mp hs ▸ h
  rw [hfirst,Option.map_some,first_eq_of_start_eq hfirst' h hstart]

end IndexTable

/-- A pack with an index. -/
structure TabledPack (zlib : Parser Bytes) extends PackFile zlib where
  table : IndexTable

namespace TabledPack
variable {zlib : Parser Bytes} {P : TabledPack zlib} {s : Pack} {row : Row} {offset n fuel : ℕ} {obj : BitPackObjRaw}

def opened (P : TabledPack zlib) : Pack :=
  ⟨P.bytes,P.entries.flatMap Entry.text++P.trailer,P.table.opened,fun _ => none⟩

theorem new_bytes (P : TabledPack zlib) : Pack.new P.bytes P.table.bytes = .ok P.opened := by
  have hrun := P.header_decodes.run (P.entries.flatMap Entry.text++P.trailer)
  rw [← List.append_assoc] at hrun
  rw [Pack.new,PackFile.bytes,hrun]
  exact congrArg (fun x => x >>= fun idxReader => Except.ok (Pack.mk _ _ idxReader _)) P.table.new_bytes

/-- An object is at the offset, and if it is a delta the offset of its base is one of `S`. -/
inductive BaseIn (P : TabledPack zlib) (S : ℕ → Prop) (offset : ℕ) : Prop
  | whole {obj : BitPackObjRaw} (hat : P.At offset (.Raw obj)) : BaseIn P S offset
  | ofs {dist : ℕ} {delta : Bytes} (hat : P.At offset (.Ofs dist delta)) (hle : dist ≤ offset) (hbase : S (offset-dist)) :
      BaseIn P S offset
  | ref {delta : Bytes} {row : Row} (hat : P.At offset (.Ref row.oid delta)) (hrow : row ∈ P.table.rows)
      (hbase : S (P.table.recorded row)) : BaseIn P S offset

/-- No base lies outside of `S`. -/
def Closed (P : TabledPack zlib) (S : ℕ → Prop) : Prop := ∀ offset, S offset → P.BaseIn S offset

/-- Whatever the index lists is in `S`. -/
def Lists (P : TabledPack zlib) (S : ℕ → Prop) : Prop := ∀ row ∈ P.table.rows, S (P.table.recorded row)

/-- What every read keeps. -/
structure Sound (P : TabledPack zlib) (s : Pack) : Prop where
  file : s.file = P.bytes
  index : ∃ seen, (∀ o ∈ seen, o ∈ P.table.oids) ∧ P.table.Served seen s.idxReader
  cache : ∀ offset obj, s.packObjCache offset = some obj → ∃ n, P.Expands P.table.finds n offset obj

theorem sound_opened (P : TabledPack zlib) : P.Sound P.opened :=
  ⟨rfl,⟨[],fun _ h => (nomatch h),P.table.served_opened⟩,fun _ _ h => (nomatch h)⟩

namespace Sound
open Pack

theorem moved (h : P.Sound s) (rest : Bytes) : P.Sound { s with reader := rest } := ⟨h.file,h.index,h.cache⟩

/-- The pack after a lookup. -/
def asked (s : Pack) (oid : Oid) : Pack :=
  { s with idxReader := final (PackIndexReader.findOidCrcOffset oid s.idxReader) }

theorem objOffset_ended (oid : Oid) (s : Pack) : objOffset oid s =
    ended (asked s oid) ((outcome (PackIndexReader.findOidCrcOffset oid s.idxReader)).map Prod.snd) := by
  simp only [objOffset,objCrcOffset,idx,asked,Bind.bind,EStateM.bind]
  cases PackIndexReader.findOidCrcOffset oid s.idxReader <;> rfl

theorem sound_asked (h : P.Sound s) (hrow : row ∈ P.table.rows) : P.Sound (asked s row.oid) := by
  obtain ⟨seen,hseen,hserved⟩ := h.index
  refine ⟨h.file,⟨seen++[row.oid],fun o ho => ?_,(hserved.step row.oid).2⟩,h.cache⟩
  rcases List.mem_append.mp ho with ho | ho
  · exact hseen o ho
  · exact List.mem_singleton.mp ho ▸ List.mem_map_of_mem hrow

theorem objOffset_eq (h : P.Sound s) (hrow : row ∈ P.table.rows) :
    objOffset row.oid s = ended (asked s row.oid) ((IndexTable.readRow row).map Prod.snd) := by
  obtain ⟨seen,hseen,hserved⟩ := h.index
  have hoids : row.oid ∈ P.table.oids := List.mem_map_of_mem hrow
  have hsaid : outcome (PackIndexReader.findOidCrcOffset row.oid s.idxReader) = IndexTable.readRow row := by
    rw [(hserved.step row.oid).1,IndexTable.saidIn,if_pos (IndexTable.kept_of_mem hseen hoids),
      IndexTable.said_of_mem hrow rfl]
  rw [← hsaid]
  exact objOffset_ended row.oid s

theorem objOffset_ok (h : P.Sound s) (hrow : row ∈ P.table.rows) (hsmall : row.offset.toNat ≤ MAX_OFFSET) :
    objOffset row.oid s = .ok row.offset.toNat (asked s row.oid) := by
  rw [h.objOffset_eq hrow,IndexTable.readRow,if_pos hsmall]
  rfl

theorem objOffset_large (h : P.Sound s) (hrow : row ∈ P.table.rows) (hlarge : ¬row.offset.toNat ≤ MAX_OFFSET) :
    ∃ e, objOffset row.oid s = .error e (asked s row.oid) := by
  rw [h.objOffset_eq hrow,IndexTable.readRow,if_neg hlarge]
  exact ⟨_,rfl⟩

theorem readObjFromOffsetRaw_ok {raw : BitPackObjRawDeltified} (h : P.Sound s) (hat : P.At offset raw) :
    ∃ rest, readObjFromOffsetRaw zlib offset s = .ok raw { s with reader := rest } := by
  obtain ⟨rest,hrun⟩ := PackFile.run_at hat
  refine ⟨rest,?_⟩
  have hparse : parse (readPackObj zlib) { s with reader := s.file.drop offset } = .ok raw { s with reader := rest } := by
    simp only [parse,run_getBind,h.file,hrun]
    rfl
  exact hparse

/-- The rest of the work, after the stored object was read. -/
def expandAndKeep (zlib : Parser Bytes) (fuel offset : ℕ) (raw : BitPackObjRawDeltified) : Read BitPackObjRaw := do
  let expanded ← expandRawObj (readObjRawAt zlib fuel) raw offset
  modify fun p => { p with packObjCache := Function.update p.packObjCache offset (some expanded) }
  pure expanded

theorem readObjRawAt_cached (hcache : s.packObjCache offset = some obj) :
    readObjRawAt zlib (fuel+1) offset s = .ok obj s := by
  rw [readObjRawAt,run_getBind]
  simp only [hcache]
  rfl

theorem readObjRawAt_read {raw : BitPackObjRawDeltified} (h : P.Sound s) (fuel : ℕ) (hat : P.At offset raw)
    (hcache : s.packObjCache offset = none) :
    ∃ rest, readObjRawAt zlib (fuel+1) offset s = expandAndKeep zlib fuel offset raw { s with reader := rest } := by
  obtain ⟨rest,hread⟩ := h.readObjFromOffsetRaw_ok hat
  refine ⟨rest,?_⟩
  rw [readObjRawAt,run_getBind]
  simp only [hcache]
  exact bind_of_ok hread

theorem keep (h : P.Sound s) (hobj : P.Expands P.table.finds n offset obj) :
    P.Sound { s with packObjCache := Function.update s.packObjCache offset (some obj) } := by
  refine ⟨h.file,h.index,fun offset' obj' hget => ?_⟩
  by_cases ho : offset' = offset
  · subst ho
    obtain rfl : obj = obj' := by simpa using hget
    exact ⟨n,hobj⟩
  · exact h.cache offset' obj' (by simpa [ho] using hget)

theorem liftExcept_ok {α : Type} {x : Except IndexFile.Error α} {a : α} (h : x = .ok a) (s : Pack) :
    liftExcept x s = .ok a s := by
  subst h
  rfl

theorem sub_ok {a b : ℕ} (h : b ≤ a) : sub a b = .ok (a-b) := if_pos h

/-- What is in the cache is what would be read. -/
theorem readObjRawAt_step {raw : BitPackObjRawDeltified} (h : P.Sound s) (hat : P.At offset raw)
    (hobj : P.Expands P.table.finds n offset obj)
    (hwork : ∀ s, P.Sound s → ∃ s', expandRawObj (readObjRawAt zlib fuel) raw offset s = .ok obj s' ∧ P.Sound s') :
    ∃ s', readObjRawAt zlib (fuel+1) offset s = .ok obj s' ∧ P.Sound s' := by
  cases hcache : s.packObjCache offset with
  | some obj' =>
    obtain ⟨m,hobj'⟩ := h.cache offset obj' hcache
    obtain ⟨-,rfl⟩ := hobj.unique P.table.finds_unique hobj'
    exact ⟨s,readObjRawAt_cached hcache,h⟩
  | none =>
    obtain ⟨rest,hread⟩ := h.readObjRawAt_read fuel hat hcache
    obtain ⟨s',hexpand,h'⟩ := hwork _ (h.moved rest)
    exact ⟨_,hread.trans (bind_of_ok hexpand),h'.keep hobj⟩

/-- An object is read if all offsets that are looked up on the way have 31 bits. -/
theorem readObjRawAt_ok (hobj : P.Expands P.table.finds n offset obj) (h : P.Sound s) (hfuel : n < fuel) :
    ∃ s', readObjRawAt zlib fuel offset s = .ok obj s' ∧ P.Sound s' := by
  induction hobj generalizing s fuel with
  | @whole offset obj hat =>
    obtain ⟨fuel,rfl⟩ : ∃ k, fuel = k+1 := ⟨fuel-1,by omega⟩
    exact h.readObjRawAt_step hat (.whole hat) fun s hs => ⟨s,rfl,hs⟩
  | ofs hat hle hbase hexpand ih =>
    obtain ⟨fuel,rfl⟩ : ∃ k, fuel = k+1 := ⟨fuel-1,by omega⟩
    refine h.readObjRawAt_step hat (.ofs hat hle hbase hexpand) fun s hs => ?_
    obtain ⟨s',hread,h'⟩ := ih hs (Nat.lt_of_succ_lt_succ hfuel)
    exact ⟨s',(bind_of_ok (liftExcept_ok (sub_ok hle) s)).trans <| (bind_of_ok hread).trans (liftExcept_ok hexpand s'),h'⟩
  | ref hat hname hbase hexpand ih =>
    obtain ⟨fuel,rfl⟩ : ∃ k, fuel = k+1 := ⟨fuel-1,by omega⟩
    refine h.readObjRawAt_step hat (.ref hat hname hbase hexpand) fun s hs => ?_
    obtain ⟨row,hrow,rfl,hsmall,rfl⟩ := hname
    obtain ⟨s',hread,h'⟩ := ih (hs.sound_asked hrow) (Nat.lt_of_succ_lt_succ hfuel)
    exact ⟨s',(bind_of_ok (hs.objOffset_ok hrow hsmall)).trans <|
      (bind_of_ok hread).trans (liftExcept_ok hexpand s'),h'⟩

/-- Reading ends in a sound state, with an object that was expanded through offsets of 31 bits if with any. -/
abbrev Fine (P : TabledPack zlib) (offset : ℕ) : EStateM.Result Error Pack BitPackObjRaw → Prop :=
  Ends (fun obj s => P.Sound s ∧ ∃ n, P.Expands P.table.finds n offset obj) P.Sound

theorem fine_step {raw : BitPackObjRawDeltified} (h : P.Sound s) (hat : P.At offset raw)
    (hwork : ∀ s, P.Sound s → Fine P offset (expandRawObj (readObjRawAt zlib fuel) raw offset s)) :
    Fine P offset (readObjRawAt zlib (fuel+1) offset s) := by
  cases hcache : s.packObjCache offset with
  | some obj =>
    rw [readObjRawAt_cached hcache]
    exact ⟨h,h.cache offset obj hcache⟩
  | none =>
    obtain ⟨rest,hread⟩ := h.readObjRawAt_read fuel hat hcache
    rw [hread]
    refine Ends.bind (hwork _ (h.moved rest)) fun obj s' hobj => ?_
    obtain ⟨h',n,hobj⟩ := hobj
    exact ⟨h'.keep hobj,n,hobj⟩

theorem fine_expand {base : BitPackObjRaw} {delta : Bytes} (h : P.Sound s)
    (hobj : ∀ obj, base.expandWithDeltaBytes delta = .ok obj → P.Expands P.table.finds n offset obj) :
    Fine P offset (liftExcept (base.expandWithDeltaBytes delta) s) := by
  cases hx : base.expandWithDeltaBytes delta with
  | error e => exact h
  | ok obj => exact ⟨h,n,hobj obj hx⟩

theorem readObjRawAt_fine {S : ℕ → Prop} (hS : P.Closed S) (hoffset : S offset) (h : P.Sound s) (fuel : ℕ) :
    Fine P offset (readObjRawAt zlib fuel offset s) := by
  induction fuel generalizing offset s with
  | zero => exact h
  | succ fuel ih =>
    cases hS offset hoffset with
    | whole hat => exact h.fine_step hat fun s hs => ⟨hs,0,.whole hat⟩
    | ofs hat hle hbase =>
      refine h.fine_step hat fun s hs => ?_
      rw [expandRawObj,bind_of_ok (liftExcept_ok (sub_ok hle) s)]
      refine Ends.bind (ih hbase hs) fun base s' hbase => ?_
      obtain ⟨h',n,hbase⟩ := hbase
      exact h'.fine_expand fun obj hx => .ofs hat hle hbase hx
    | @ref _ row hat hrow hbase =>
      refine h.fine_step hat fun s hs => ?_
      by_cases hsmall : row.offset.toNat ≤ MAX_OFFSET
      · rw [IndexTable.recorded,if_pos hsmall] at hbase
        rw [expandRawObj,bind_of_ok (hs.objOffset_ok hrow hsmall)]
        refine Ends.bind (ih hbase (hs.sound_asked hrow)) fun base s' hbase => ?_
        obtain ⟨h',n,hbase⟩ := hbase
        exact h'.fine_expand fun obj hx => .ref hat ⟨row,hrow,rfl,hsmall,rfl⟩ hbase hx
      · obtain ⟨e,he⟩ := hs.objOffset_large hrow hsmall
        rw [expandRawObj,bind_of_error he]
        exact hs.sound_asked hrow

/-! Headers -/

/-- The size in the header of a stored object: of a delta, its own. -/
def storedSize : BitPackObjRawDeltified → ℕ
  | .Raw obj => obj.bytes.length
  | .Ofs _ delta => delta.length
  | .Ref _ delta => delta.length

theorem parse_ok {α : Type} {parser : Parser α} {a : α} {rest : Bytes} (h : parser.run s.reader = .ok (a,rest)) :
    parse parser s = .ok a { s with reader := rest } := by
  simp only [parse,run_getBind,h]
  rfl

theorem objType_expand {base obj : BitPackObjRaw} {delta : Bytes} (h : base.expandWithDeltaBytes delta = .ok obj) :
    obj.objType = base.objType := by
  obtain ⟨d,-,h⟩ := except_bind_eq_ok.mp h
  obtain ⟨bytes,-,h⟩ := except_bind_eq_ok.mp h
  cases h
  rfl

/-- The header of an object at the offset; what follows it is next. -/
theorem readHeaderFromOffset_ok {ty : BitPackObjType} {size : ℕ} {head tail : Bytes} (h : P.Sound s)
    (hdrop : P.bytes.drop offset = head++tail) (hhead : HeaderText ty.toU8 size head) :
    readHeaderFromOffset offset s = .ok ⟨ty,size⟩ { s with reader := tail } := by
  have hrun : readPackObjHeader.run (s.file.drop offset) = .ok (⟨ty,size⟩,tail) := by
    rw [h.file,hdrop]
    exact hhead.decodes.run tail
  exact parse_ok (s := { s with reader := s.file.drop offset }) hrun

theorem readObjHeaderAt_whole (h : P.Sound s) (hat : P.At offset (.Raw obj)) (fuel : ℕ) :
    ∃ s', P.Sound s' ∧ readObjHeaderAt (fuel+1) offset s = .ok ⟨obj.objType,obj.bytes.length⟩ s' := by
  obtain ⟨text,rest,hstored,hdrop⟩ := PackFile.drop_at hat
  cases hstored with
  | @whole ty _ _ head body hty hhead _ =>
    rw [List.append_assoc] at hdrop
    refine ⟨{ s with reader := body++rest },h.moved _,(bind_of_ok (h.readHeaderFromOffset_ok hdrop hhead)).trans ?_⟩
    cases ty <;> cases hty <;> rfl

theorem readObjHeaderAt_ofs {dist : ℕ} {delta : Bytes} (h : P.Sound s) (hat : P.At offset (.Ofs dist delta))
    (hle : dist ≤ offset) (fuel : ℕ) :
    ∃ s', P.Sound s' ∧ readObjHeaderAt (fuel+1) offset s =
      (readObjHeaderAt fuel (offset-dist) >>= fun base => pure ⟨base.objType,delta.length⟩) s' := by
  obtain ⟨text,rest,hstored,hdrop⟩ := PackFile.drop_at hat
  cases hstored with
  | @ofs _ _ head distText body hhead hdist _ =>
    rw [List.append_assoc,List.append_assoc] at hdrop
    exact ⟨{ s with reader := body++rest },h.moved _,(bind_of_ok (h.readHeaderFromOffset_ok hdrop hhead)).trans <|
      (bind_of_ok (parse_ok (hdist.decodes.run _))).trans (bind_of_ok (liftExcept_ok (sub_ok hle) _))⟩

theorem readObjHeaderAt_ref {oid : Oid} {delta : Bytes} (h : P.Sound s) (hat : P.At offset (.Ref oid delta)) (fuel : ℕ) :
    ∃ s', P.Sound s' ∧ readObjHeaderAt (fuel+1) offset s =
      (objOffset oid >>= fun offset => readObjHeaderAt fuel offset >>= fun base => pure ⟨base.objType,delta.length⟩) s' := by
  obtain ⟨text,rest,hstored,hdrop⟩ := PackFile.drop_at hat
  cases hstored with
  | @ref _ _ head body hhead _ =>
    rw [List.append_assoc,List.append_assoc] at hdrop
    exact ⟨{ s with reader := body++rest },h.moved _,(bind_of_ok (h.readHeaderFromOffset_ok hdrop hhead)).trans
      (bind_of_ok (parse_ok ((readOid_decodes _).run _)))⟩

/-- The header is read without a look at the deltas: the type is that of the object, the size that of what is stored. -/
theorem readObjHeaderAt_ok (hobj : P.Expands P.table.finds n offset obj) {raw : BitPackObjRawDeltified}
    (hat : P.At offset raw) (h : P.Sound s) (hfuel : n < fuel) :
    ∃ s', readObjHeaderAt fuel offset s = .ok ⟨obj.objType,storedSize raw⟩ s' ∧ P.Sound s' := by
  induction hobj generalizing s fuel raw with
  | @whole offset obj hat' =>
    cases PackFile.at_unique hat hat'
    obtain ⟨fuel,rfl⟩ : ∃ k, fuel = k+1 := ⟨fuel-1,by omega⟩
    obtain ⟨s',h',hread⟩ := h.readObjHeaderAt_whole hat fuel
    exact ⟨s',hread,h'⟩
  | ofs hat' hle hbase hexpand ih =>
    cases PackFile.at_unique hat hat'
    obtain ⟨fuel,rfl⟩ : ∃ k, fuel = k+1 := ⟨fuel-1,by omega⟩
    obtain ⟨raw',hat''⟩ := hbase.exists_at
    obtain ⟨s₁,h₁,hread⟩ := h.readObjHeaderAt_ofs hat hle fuel
    obtain ⟨s',hbaseRead,h'⟩ := ih hat'' h₁ (Nat.lt_of_succ_lt_succ hfuel)
    rw [objType_expand hexpand]
    exact ⟨s',hread.trans (bind_of_ok hbaseRead),h'⟩
  | ref hat' hname hbase hexpand ih =>
    cases PackFile.at_unique hat hat'
    obtain ⟨fuel,rfl⟩ : ∃ k, fuel = k+1 := ⟨fuel-1,by omega⟩
    obtain ⟨raw',hat''⟩ := hbase.exists_at
    obtain ⟨row,hrow,rfl,hsmall,rfl⟩ := hname
    obtain ⟨s₁,h₁,hread⟩ := h.readObjHeaderAt_ref hat fuel
    obtain ⟨s',hbaseRead,h'⟩ := ih hat'' (h₁.sound_asked hrow) (Nat.lt_of_succ_lt_succ hfuel)
    rw [objType_expand hexpand]
    exact ⟨s',hread.trans <| (bind_of_ok (h₁.objOffset_ok hrow hsmall)).trans (bind_of_ok hbaseRead),h'⟩

theorem readObjHeaderAt_ends {S : ℕ → Prop} (hS : P.Closed S) (hoffset : S offset) (h : P.Sound s) (fuel : ℕ) :
    Ends (fun _ => P.Sound) P.Sound (readObjHeaderAt fuel offset s) := by
  induction fuel generalizing offset s with
  | zero => exact h
  | succ fuel ih =>
    cases hS offset hoffset with
    | whole hat =>
      obtain ⟨s',h',hread⟩ := h.readObjHeaderAt_whole hat fuel
      rw [hread]
      exact h'
    | ofs hat hle hbase =>
      obtain ⟨s₁,h₁,hread⟩ := h.readObjHeaderAt_ofs hat hle fuel
      rw [hread]
      exact (ih hbase h₁).bind fun _ _ h' => h'
    | @ref _ row hat hrow hbase =>
      obtain ⟨s₁,h₁,hread⟩ := h.readObjHeaderAt_ref hat fuel
      rw [hread]
      by_cases hsmall : row.offset.toNat ≤ MAX_OFFSET
      · rw [IndexTable.recorded,if_pos hsmall] at hbase
        rw [bind_of_ok (h₁.objOffset_ok hrow hsmall)]
        exact (ih hbase (h₁.sound_asked hrow)).bind fun _ _ h' => h'
      · obtain ⟨e,he⟩ := h₁.objOffset_large hrow hsmall
        rw [bind_of_error he]
        exact h₁.sound_asked hrow

theorem readObjRaw_fine {S : ℕ → Prop} (hS : P.Closed S) (hlists : P.Lists S) (h : P.Sound s) (hrow : row ∈ P.table.rows) :
    Ends (fun obj s => P.Sound s ∧ row.offset.toNat ≤ MAX_OFFSET ∧ ∃ n, P.Expands P.table.finds n row.offset.toNat obj) P.Sound
      (readObjRaw zlib row.oid s) := by
  by_cases hsmall : row.offset.toNat ≤ MAX_OFFSET
  · have hoffset := hlists row hrow
    rw [IndexTable.recorded,if_pos hsmall] at hoffset
    rw [readObjRaw,bind_of_ok (h.objOffset_ok hrow hsmall),run_getBind]
    have hfine := readObjRawAt_fine hS hoffset (h.sound_asked hrow) (asked s row.oid).file.length
    cases hr : readObjRawAt zlib (asked s row.oid).file.length row.offset.toNat (asked s row.oid) with
    | error e s' =>
      rw [hr] at hfine
      exact hfine
    | ok obj s' =>
      rw [hr] at hfine
      exact ⟨hfine.1,hsmall,hfine.2⟩
  · obtain ⟨e,he⟩ := h.objOffset_large hrow hsmall
    rw [readObjRaw,bind_of_error he]
    exact h.sound_asked hrow

theorem readObjHeader_ends {S : ℕ → Prop} (hS : P.Closed S) (hlists : P.Lists S) (h : P.Sound s)
    (hrow : row ∈ P.table.rows) :
    Ends (fun _ => P.Sound) P.Sound (readObjHeader row.oid s) := by
  by_cases hsmall : row.offset.toNat ≤ MAX_OFFSET
  · have hoffset := hlists row hrow
    rw [IndexTable.recorded,if_pos hsmall] at hoffset
    rw [readObjHeader,bind_of_ok (h.objOffset_ok hrow hsmall),run_getBind]
    exact readObjHeaderAt_ends hS hoffset (h.sound_asked hrow) _
  · obtain ⟨e,he⟩ := h.objOffset_large hrow hsmall
    rw [readObjHeader,bind_of_error he]
    exact h.sound_asked hrow

section Small
variable (h : P.Sound s) (hrow : row ∈ P.table.rows) (hsmall : row.offset.toNat ≤ MAX_OFFSET)
  (hobj : P.Expands P.table.finds n row.offset.toNat obj)
include h hrow hsmall hobj

theorem readObjRaw_ok : outcome (readObjRaw zlib row.oid s) = .ok obj := by
  have hasked := h.sound_asked hrow
  obtain ⟨s',hread,-⟩ := hasked.readObjRawAt_ok hobj (hasked.file ▸ hobj.chain_lt P.table.finds_unique)
  rw [readObjRaw,bind_of_ok (h.objOffset_ok hrow hsmall),run_getBind,hread]
  rfl

theorem readObjHeader_ok {raw : BitPackObjRawDeltified} (hat : P.At row.offset.toNat raw) :
    outcome (readObjHeader row.oid s) = .ok ⟨obj.objType,storedSize raw⟩ := by
  have hasked := h.sound_asked hrow
  obtain ⟨s',hread,-⟩ := hasked.readObjHeaderAt_ok hobj hat (hasked.file ▸ hobj.chain_lt P.table.finds_unique)
  rw [readObjHeader,bind_of_ok (h.objOffset_ok hrow hsmall),run_getBind,hread]
  rfl

end Small

end Sound

/-- One of the oids of the index, and whether its header or the object is read. -/
abbrev Call (P : TabledPack zlib) := Bool × {row // row ∈ P.table.rows}

def call (P : TabledPack zlib) (s : Pack) (c : Call P) : Pack :=
  if c.1 then final (Pack.readObjHeader c.2.val.oid s) else final (Pack.readObjRaw zlib c.2.val.oid s)

/-- The pack after some reads. -/
def after (P : TabledPack zlib) (calls : List (Call P)) : Pack := calls.foldl P.call P.opened

section Runs
variable {S : ℕ → Prop} (hS : P.Closed S) (hlists : P.Lists S)
include hS hlists

theorem sound_call (h : P.Sound s) (c : Call P) : P.Sound (P.call s c) := by
  obtain ⟨header,row,hrow⟩ := c
  rw [call]
  split
  · exact (Sound.readObjHeader_ends hS hlists h hrow).final fun _ _ h' => h'
  · exact (Sound.readObjRaw_fine hS hlists h hrow).final fun _ _ h' => h'.1

theorem sound_after (calls : List (Call P)) : P.Sound (P.after calls) := by
  rw [after]
  induction calls using List.reverseRecOn with
  | nil => exact P.sound_opened
  | append_singleton calls c ih =>
    rw [List.foldl_append]
    exact sound_call hS hlists ih c

end Runs

theorem targetSize_of_expand {base : BitPackObjRaw} {delta : Bytes} {d : Delta} (h : base.expandWithDeltaBytes delta = .ok obj)
    (hd : Delta.deserialize delta = .ok d) : d.targetSize = obj.bytes.length := by
  obtain ⟨d',hd',h⟩ := except_bind_eq_ok.mp h
  rw [hd] at hd'
  cases hd'
  obtain ⟨bytes,hbytes,h⟩ := except_bind_eq_ok.mp h
  cases h
  obtain ⟨-,-,h⟩ := except_bind_eq_ok.mp hbytes
  obtain ⟨-,-,h⟩ := except_bind_eq_ok.mp h
  obtain ⟨slices,-,h⟩ := except_bind_eq_ok.mp h
  obtain ⟨u,hsize,h⟩ := except_bind_eq_ok.mp h
  cases h
  exact ensure_eq_ok.mp hsize

theorem exists_delta {base : BitPackObjRaw} {delta : Bytes} (h : base.expandWithDeltaBytes delta = .ok obj) :
    ∃ d, Delta.deserialize delta = .ok d := by
  obtain ⟨d,hd,-⟩ := except_bind_eq_ok.mp h
  exact ⟨d,hd⟩

/-- The size that is stored is the size of the object only if the delta says so. -/
theorem storedSize_eq_iff {names : Oid → ℕ → BitPackObjRaw → Prop} (hobj : P.Expands names n offset obj)
    {raw : BitPackObjRawDeltified} (hat : P.At offset raw) :
    Sound.storedSize raw = obj.bytes.length ↔
      ∀ delta d, raw.delta? = some delta → Delta.deserialize delta = .ok d → d.targetSize = delta.length := by
  have hdelta {base : BitPackObjRaw} {delta : Bytes} (hexpand : base.expandWithDeltaBytes delta = .ok obj) :
      delta.length = obj.bytes.length ↔
        ∀ delta' d, some delta = some delta' → Delta.deserialize delta' = .ok d → d.targetSize = delta'.length := by
    constructor
    · rintro hlen delta' d heq hd
      cases heq
      rw [targetSize_of_expand hexpand hd,hlen]
    · intro hall
      obtain ⟨d,hd⟩ := exists_delta hexpand
      rw [← hall delta d rfl hd,targetSize_of_expand hexpand hd]
  cases hobj with
  | whole hat' =>
    cases PackFile.at_unique hat hat'
    exact iff_of_true rfl fun _ _ h => (nomatch h)
  | ofs hat' _ _ hexpand =>
    cases PackFile.at_unique hat hat'
    exact hdelta hexpand
  | ref hat' _ _ hexpand =>
    cases PackFile.at_unique hat hat'
    exact hdelta hexpand

end TabledPack

/-- A pack with an index in which the offset of each oid is that of an object. -/
structure IndexedPack (zlib : Parser Bytes) extends TabledPack zlib where
  indexed : ∀ row ∈ table.rows, ∃ n obj, toPackFile.Expands table.names n (table.recorded row) obj

namespace IndexedPack
open TabledPack
variable {zlib : Parser Bytes} {P : IndexedPack zlib}

/-- The offsets of the objects. -/
def Whole (P : IndexedPack zlib) (offset : ℕ) : Prop := ∃ n obj, P.Expands P.table.names n offset obj

theorem closed_whole (P : IndexedPack zlib) : P.Closed P.Whole := by
  rintro offset ⟨n,obj,hobj⟩
  cases hobj with
  | whole hat => exact .whole hat
  | ofs hat hle hbase => exact .ofs hat hle ⟨_,_,hbase⟩
  | ref hat hname hbase =>
    obtain ⟨row,hrow,rfl,rfl⟩ := hname
    exact .ref hat hrow ⟨_,_,hbase⟩

/-- No offset that is looked up on the way to the object is in the extended layer. -/
def Reachable (P : IndexedPack zlib) (row : Row) : Prop :=
  row.offset.toNat ≤ MAX_OFFSET ∧ ∃ n obj, P.Expands P.table.finds n row.offset.toNat obj

/-- The object is stored whole, or as a delta that is as long as the object that it says it makes. -/
def SizeKept (P : IndexedPack zlib) (row : Row) : Prop :=
  ∀ raw delta d, P.At (P.table.recorded row) raw → raw.delta? = some delta → Delta.deserialize delta = .ok d →
    d.targetSize = delta.length

/-- The header says the type and the size of the object exactly if the object is reached through offsets of 31 bits
and the size that is stored is its own. -/
theorem header_agrees_iff (P : IndexedPack zlib) (calls : List (Call P.toTabledPack)) (row : {row // row ∈ P.table.rows}) :
    (∃ obj, outcome (Pack.readObjRaw zlib row.val.oid (P.after calls)) = .ok obj ∧
      outcome (Pack.readObjHeader row.val.oid (P.after calls)) = .ok ⟨obj.objType,obj.bytes.length⟩) ↔
    P.Reachable row.val ∧ P.SizeKept row.val := by
  obtain ⟨row,hrow⟩ := row
  have h := sound_after P.closed_whole P.indexed calls
  constructor
  · rintro ⟨obj,hraw,hheader⟩
    have hfine := Sound.readObjRaw_fine P.closed_whole P.indexed h hrow
    cases hr : Pack.readObjRaw zlib row.oid (P.after calls) with
    | error e s' =>
      rw [hr] at hraw
      cases hraw
    | ok obj' s' =>
      rw [hr] at hraw hfine
      cases hraw
      obtain ⟨-,hsmall,n,hobj⟩ := hfine
      refine ⟨⟨hsmall,n,obj,hobj⟩,fun raw delta d hat hdelta hd => ?_⟩
      rw [IndexTable.recorded,if_pos hsmall] at hat
      rw [h.readObjHeader_ok hrow hsmall hobj hat] at hheader
      exact (storedSize_eq_iff hobj hat).mp (congrArg BitObjHeader.size (Except.ok.inj hheader)) delta d hdelta hd
  · rintro ⟨⟨hsmall,n,obj,hobj⟩,hkept⟩
    obtain ⟨raw,hat⟩ := hobj.exists_at
    refine ⟨obj,h.readObjRaw_ok hrow hsmall hobj,(h.readObjHeader_ok hrow hsmall hobj hat).trans ?_⟩
    have hrecorded : P.table.recorded row = row.offset.toNat := if_pos hsmall
    rw [(storedSize_eq_iff hobj hat).mpr fun delta d => hkept raw delta d (hrecorded ▸ hat)]

end IndexedPack

/-! A pack with a blob and a delta of it. -/

/-- What inflates a stream of one block that is stored as it is. -/
def storedBlock : Parser Bytes := do
  let head ← readExact .unexpectedEof 3
  require (.bail "corrupt deflate stream") (head = [0x78,0x01,0x01])
  let len ← readExact .unexpectedEof 4
  let data ← readExact .unexpectedEof ((len.getD 0 0).val+256*(len.getD 1 0).val)
  let _ ← readExact .unexpectedEof 4
  pure data

theorem storedBlock_decodes {len data check : Bytes} (hlen : len.length = 4)
    (hdata : data.length = (len.getD 0 0).val+256*(len.getD 1 0).val) (hcheck : check.length = 4) :
    Decodes storedBlock ([0x78,0x01,0x01]++(len++(data++check))) data :=
  Decodes.bind (Decodes.readExact rfl) <| (Decodes.require rfl).andThen <| (Decodes.readExact hlen).bind <|
    (Decodes.readExact hdata).bind <| (Decodes.readExact hcheck).bindPure <| Decodes.pure data

def wholeEntry : Entry :=
  ⟨.Raw ⟨.Blob,[0x61]⟩,[0x31]++([0x78,0x01,0x01]++([0x01,0x00,0xfe,0xff]++([0x61]++[0x00,0x62,0x00,0x62])))⟩

/-- The delta inserts the byte `b`. -/
def deltaEntry : Entry :=
  ⟨.Ofs 13 [0x01,0x01,0x01,0x62],[0x64]++([0x0d]++([0x78,0x01,0x01]++
    ([0x04,0x00,0xfb,0xff]++([0x01,0x01,0x01,0x62]++[0x00,0x6f,0x00,0x66]))))⟩

def wholeRow : Row :=
  ⟨⟨[0x2e,0x65,0xef,0xe2,0xa1,0x45,0xdd,0xa7,0xee,0x51,0xd1,0x74,0x12,0x99,0xf8,0x48,0xe5,0xbf,0x75,0x2e],rfl⟩,
    0x52d28e10,12⟩

def deltaRow : Row :=
  ⟨⟨[0x63,0xd8,0xdb,0xd4,0x0c,0x23,0x54,0x2e,0x74,0x06,0x59,0xa7,0x16,0x8a,0x0c,0xe3,0x13,0x8e,0xa7,0x48],rfl⟩,
    0x4ec81975,25⟩

def deltaPackFile : PackFile storedBlock where
  entries := [wholeEntry,deltaEntry]
  trailer := [0x3d,0xdc,0x87,0x0a,0x4e,0xcb,0x0c,0x59,0x04,0x47,0x5f,0x51,0xb6,0xf5,0xc5,0xaf,0x83,0x11,0xf1,0xd9]
  stored := by
    intro e he
    rcases List.mem_pair.mp he with rfl | rfl
    · exact @Stored.whole _ .Blob _ _ _ _ rfl ⟨⟨1,[],rfl,rfl,by decide⟩,by decide⟩ (storedBlock_decodes rfl rfl rfl)
    · exact .ofs ⟨⟨4,[],rfl,rfl,by decide⟩,by decide⟩ ⟨⟨13,[],rfl,rfl⟩,by decide⟩ (storedBlock_decodes rfl rfl rfl)
  few := by decide

theorem wholeEntry_at : deltaPackFile.At 12 (.Raw ⟨.Blob,[0x61]⟩) := ⟨[],wholeEntry,[deltaEntry],rfl,rfl,rfl⟩

theorem deltaEntry_at : deltaPackFile.At 25 (.Ofs 13 [0x01,0x01,0x01,0x62]) := ⟨[wholeEntry],deltaEntry,[],rfl,rfl,rfl⟩

theorem deltaEntry_expands (names : Oid → ℕ → BitPackObjRaw → Prop) : deltaPackFile.Expands names 1 25 ⟨.Blob,[0x62]⟩ :=
  .ofs deltaEntry_at (by decide) (.whole wholeEntry_at) (by decide)

def deltaPack : IndexedPack storedBlock where
  toPackFile := deltaPackFile
  table :=
    ⟨[wholeRow,deltaRow],[],deltaPackFile.trailer++
      [0xe4,0x00,0xae,0x83,0x0e,0x96,0x07,0x9e,0xea,0xe0,0x98,0x77,0xa1,0xd8,0x2c,0x81,0x06,0x3e,0x96,0xbc],
      by decide,by decide,by decide⟩
  indexed := by
    intro row hrow
    rcases List.mem_pair.mp hrow with rfl | rfl
    · exact ⟨0,_,.whole wholeEntry_at⟩
    · exact ⟨1,_,deltaEntry_expands _⟩

/-- The header says the length of the delta. -/
theorem header_of_delta : outcome (Pack.readObjRaw storedBlock deltaRow.oid (deltaPack.after [])) = .ok ⟨.Blob,[0x62]⟩ ∧
    outcome (Pack.readObjHeader deltaRow.oid (deltaPack.after [])) ≠ .ok ⟨.Blob,1⟩ := by
  have h := TabledPack.sound_after deltaPack.closed_whole deltaPack.indexed []
  have hrow : deltaRow ∈ deltaPack.table.rows := List.mem_cons_of_mem _ List.mem_cons_self
  have hsmall : deltaRow.offset.toNat ≤ MAX_OFFSET := by decide
  have hobj : deltaPack.Expands deltaPack.table.finds 1 25 ⟨.Blob,[0x62]⟩ := deltaEntry_expands _
  refine ⟨h.readObjRaw_ok hrow hsmall hobj,?_⟩
  rw [h.readObjHeader_ok hrow hsmall hobj deltaEntry_at]
  decide

end Packfile
end Libbit
