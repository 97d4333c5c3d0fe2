import Libbit.Objects
import Libbit.IndexFileSpec
import Libbit.OdbSpec

/-! The object stores as one map from hashes to objects: whatever is asked in whatever order, the answers are those of the
map, and a write adds to it and takes nothing away. -/
namespace Libbit
namespace Packfile

open Lib

/-- What is stored under each hash. -/
abbrev Contents := Oid → Option BitPackObjRaw

def BitPackObjRaw.header (obj : BitPackObjRaw) : BitObjHeader := ⟨obj.objType,obj.bytes.length⟩

/-! ### The header of a loose object -/

section Header
variable {obj : BitPackObjRaw}

theorem run_bind_of_ok {α β : Type} {m : ReadStream α} {f : α → ReadStream β} {s t : Stream} {a : α}
    (h : m.run s = .ok (a,t)) : (m >>= f).run s = (f a).run t := by
  rw [StateT.run_bind,h]
  rfl

theorem before_eq {sep : Byte} {s : Bytes} (h : sep ∉ s) (rest : Bytes) :
    (ReadStream.before sep).run ⟨s++[sep]++rest,false⟩ = .ok (s,⟨rest,false⟩) := by
  have hsplit : Reader.splitAfter sep (s++[sep]++rest) = (s++[sep],rest) := by
    rw [List.append_assoc]
    exact Reader.splitAfter_of_notMem h rest
  have hread : (ReadStream.readUntil sep).run ⟨s++[sep]++rest,false⟩ = .ok (s++[sep],⟨rest,false⟩) := by
    have hintact : ¬((false && !(s++[sep]++rest).contains sep) = true) := by simp
    rw [StateT.run,ReadStream.readUntil,if_neg hintact,hsplit]
  have hne : s++[sep] ≠ [] := by simp
  rw [ReadStream.before,run_bind_of_ok hread,if_neg hne,List.dropLast_concat]
  rfl

theorem fromStr_display (ty : BitObjType) : BitObjType.fromStr ty.display = .ok ty := by cases ty <;> rfl

theorem space_notMem_display (ty : BitObjType) : (0x20 : Byte) ∉ ty.display := by cases ty <;> decide

/-- The size is less than that of the address space. -/
theorem readObjHeader_serialized (h : obj.bytes.length < 2^63) :
    readObjHeader.run ⟨obj.serializeWithHeaders,false⟩ = .ok (obj.header,⟨obj.bytes,false⟩) := by
  have htype := before_eq (space_notMem_display obj.objType) (decimal obj.bytes.length++[0]++obj.bytes)
  have hdecimal : (0 : Byte) ∉ decimal obj.bytes.length := fun hmem => absurd (digit_of_mem_decimal hmem).1 (by decide)
  have hsize := before_eq hdecimal obj.bytes
  have hparse : IndexFile.parseI64 (decimal obj.bytes.length) = some (obj.bytes.length : ℤ) := by
    have hint : parseInt? (decimal obj.bytes.length) = some (obj.bytes.length : ℤ) := parseInt?_decimalInt (obj.bytes.length : ℤ)
    rw [IndexFile.parseI64,hint,Option.filter_some,if_pos]
    simp only [Bool.decide_and,Bool.and_eq_true,decide_eq_true_eq]
    omega
  have hcast : ((obj.bytes.length : ℤ)%2^64).toNat = obj.bytes.length := by omega
  have htext : obj.serializeWithHeaders =
      obj.objType.display++[0x20]++(decimal obj.bytes.length++[0]++obj.bytes) := by
    simp [BitPackObjRaw.serializeWithHeaders,List.append_assoc]
  have hnum : (ReadStream.readAsciiNum 0x00).run ⟨decimal obj.bytes.length++[0]++obj.bytes,false⟩ =
      .ok ((obj.bytes.length : ℤ),⟨obj.bytes,false⟩) := by
    rw [ReadStream.readAsciiNum,run_bind_of_ok hsize,hparse]
    rfl
  have hlift : (StateT.lift (BitObjType.fromStr obj.objType.display) : ReadStream BitObjType).run
      ⟨decimal obj.bytes.length++[0]++obj.bytes,false⟩ =
      .ok (obj.objType,⟨decimal obj.bytes.length++[0]++obj.bytes,false⟩) := by
    rw [fromStr_display]
    rfl
  rw [readObjHeader,htext,run_bind_of_ok htype,run_bind_of_ok hlift,run_bind_of_ok hnum,hcast]
  rfl

theorem fromStream_serialized (h : obj.bytes.length < 2^63) (oid : Oid) :
    BitRawObj.fromStream oid ⟨obj.serializeWithHeaders,false⟩ = .ok (.fromRawPackObj oid obj) := by
  rw [BitRawObj.fromStream,readObjHeader_serialized h]
  rfl

end Header

/-! ### Loose objects -/

namespace Contents

/-- Every object is stored under its hash. -/
def Addressed (sha1 : Bytes → Oid) (m : Contents) : Prop :=
  ∀ oid obj, m oid = some obj → obj.oid sha1 = oid ∧ obj.bytes.length < 2^63

/-- What is read of the object with a hash. -/
def answer {α : Type} (m : Contents) (oid : Oid) (f : BitPackObjRaw → α) : Except ObjError α :=
  (m oid).elim (.error (.bit (.objectNotFound oid.toHex))) fun obj => .ok (f obj)

def insert (sha1 : Bytes → Oid) (m : Contents) (obj : BitPackObjRaw) : Contents := Function.update m (obj.oid sha1) (some obj)

/-- No other object with the hash of this one is there. -/
def Free (sha1 : Bytes → Oid) (m : Contents) (obj : BitPackObjRaw) : Prop := ∀ x, m (obj.oid sha1) = some x → x = obj

variable {sha1 : Bytes → Oid} {m : Contents} {obj : BitPackObjRaw}

theorem insert_self : m.insert sha1 obj (obj.oid sha1) = some obj := Function.update_self ..

theorem insert_of_some (h : m (obj.oid sha1) = some obj) : m.insert sha1 obj = m := by
  rw [insert,← h,Function.update_eq_self]

theorem Addressed.insert (h : m.Addressed sha1) (hsize : obj.bytes.length < 2^63) : (m.insert sha1 obj).Addressed sha1 := by
  intro oid x hx
  by_cases ho : oid = obj.oid sha1
  · subst ho
    obtain rfl : obj = x := Option.some.inj (insert_self.symm.trans hx)
    exact ⟨rfl,hsize⟩
  · rw [Contents.insert,Function.update_of_ne ho] at hx
    exact h oid x hx

/-- Nothing that is there is replaced. -/
theorem Free.keeps (h : m.Free sha1 obj) {oid : Oid} {x : BitPackObjRaw} (hx : m oid = some x) : m.insert sha1 obj oid = some x := by
  by_cases ho : oid = obj.oid sha1
  · subst ho
    rw [insert_self,h x hx]
  · rw [insert,Function.update_of_ne ho,hx]

end Contents

namespace LooseFiles
variable {sha1 : Bytes → Oid} {zlib : Zlib} {db : LooseFiles} {l : Contents} {oid : Oid} {obj : BitPackObjRaw}

theorem file?_eq_some {file : Bytes} : db.file? oid = some file ↔ (oid,file) ∈ db.files := by
  have hnodup : (db.files.map Prod.fst).Nodup := db.sorted.imp fun h => ne_of_lt h
  simp only [file?,Option.map_eq_some_iff]
  constructor
  · rintro ⟨x,hx,rfl⟩
    obtain rfl : x.1 = oid := by simpa using List.find?_some hx
    exact List.mem_of_find?_eq_some hx
  · intro hmem
    cases hfind : db.files.find? fun x => x.1 = oid with
    | none =>
      have hnone := List.find?_eq_none.mp hfind _ hmem
      simp at hnone
    | some x =>
      have hx : x.1 = oid := by simpa using List.find?_some hfind
      exact ⟨x,rfl,congrArg Prod.snd (List.inj_on_of_nodup_map hnodup (List.mem_of_find?_eq_some hfind) hmem hx)⟩

theorem file?_create (file : Bytes) (db : LooseFiles) (o : Oid) :
    (db.create oid file).file? o = if o = oid then some file else db.file? o := by
  obtain ⟨files,sorted,ignored⟩ := db
  refine Option.ext fun f => ?_
  have hmem : (o,f) ∈ insertSorted oid file files ↔ (o,f) = (oid,file) ∨ (o,f) ∈ files ∧ o ≠ oid :=
    mem_insertSorted (List.pairwise_map.mp sorted) (o,f)
  rw [create,file?_eq_some,hmem]
  by_cases ho : o = oid
  · subst ho
    simp [eq_comm]
  · rw [if_neg ho,file?_eq_some]
    simp [ho]

/-- Every file is that of an object. -/
structure Holds (zlib : Zlib) (db : LooseFiles) (l : Contents) : Prop where
  file : ∀ oid obj, l oid = some obj → ∃ file, db.file? oid = some file ∧ zlib.decode file = ⟨obj.serializeWithHeaders,false⟩
  only : ∀ oid, l oid = none → db.file? oid = none

theorem locateObj_none (h : db.file? oid = none) :
    locateObj (.Full oid) db = .error (.bit (.objectNotFound oid.toHex)) db := by
  unfold locateObj expandId
  simp only [pure_bind,run_getBind,h]
  rfl

theorem locateObj_some {file : Bytes} (h : db.file? oid = some file) : locateObj (.Full oid) db = .ok file db := by
  unfold locateObj expandId
  simp only [pure_bind,run_getBind,h]
  rfl

theorem readStream_none (h : db.file? oid = none) :
    readStream zlib (.Full oid) db = .error (.bit (.objectNotFound oid.toHex)) db := by
  rw [readStream,map_eq_pure_bind,bind_of_error (locateObj_none h)]

theorem readStream_some {file : Bytes} (h : db.file? oid = some file) :
    readStream zlib (.Full oid) db = .ok (zlib.decode file) db := by
  rw [readStream,map_eq_pure_bind,bind_of_ok (locateObj_some h)]
  rfl

section Reads
variable (h : db.Holds zlib l)
include h

theorem Holds.objExists (oid : Oid) : objExists (.Full oid) db = .ok (l oid).isSome db := by
  cases hl : l oid with
  | none => simp only [LooseFiles.objExists,locateObj_none (h.only oid hl),ObjError.isNotFoundErr,if_true,Option.isSome_none]
  | some obj =>
    obtain ⟨file,hfile,-⟩ := h.file oid obj hl
    simp only [LooseFiles.objExists,locateObj_some hfile,Option.isSome_some]

variable (hl : l.Addressed sha1)
include hl

theorem Holds.readRaw (oid : Oid) : readRaw zlib (.Full oid) db = ended db (l.answer oid (.fromRawPackObj oid)) := by
  unfold LooseFiles.readRaw expandId
  rw [pure_bind]
  cases hobj : l oid with
  | none =>
    rw [bind_of_error (readStream_none (h.only oid hobj)),Contents.answer,hobj]
    rfl
  | some obj =>
    obtain ⟨file,hfile,hdecode⟩ := h.file oid obj hobj
    rw [bind_of_ok (readStream_some hfile),hdecode,fromStream_serialized (hl oid obj hobj).2,Contents.answer,hobj]
    rfl

theorem Holds.readHeader (oid : Oid) : readHeader zlib (.Full oid) db = ended db (l.answer oid BitPackObjRaw.header) := by
  unfold LooseFiles.readHeader
  cases hobj : l oid with
  | none =>
    rw [bind_of_error (readStream_none (h.only oid hobj)),Contents.answer,hobj]
    rfl
  | some obj =>
    obtain ⟨file,hfile,hdecode⟩ := h.file oid obj hobj
    rw [bind_of_ok (readStream_some hfile),hdecode,readObjHeader_serialized (hl oid obj hobj).2,Contents.answer,hobj]
    rfl

end Reads

/-- The file of a new object. -/
theorem Holds.create (h : db.Holds zlib l) : (db.create (obj.oid sha1) (zlib.encode obj.serializeWithHeaders)).Holds zlib (l.insert sha1 obj) where
  file oid x hx := by
    rw [file?_create]
    by_cases ho : oid = obj.oid sha1
    · subst ho
      obtain rfl : obj = x := Option.some.inj (Contents.insert_self.symm.trans hx)
      exact ⟨_,if_pos rfl,zlib.decode_encode _⟩
    · rw [if_neg ho]
      rw [Contents.insert,Function.update_of_ne ho] at hx
      exact h.file oid x hx
  only oid hx := by
    have ho : oid ≠ obj.oid sha1 := by
      rintro rfl
      rw [Contents.insert_self] at hx
      cases hx
    rw [Contents.insert,Function.update_of_ne ho] at hx
    rw [file?_create,if_neg ho,h.only oid hx]

/-- A write makes a file unless there is one; only a lock keeps it from that. -/
theorem Holds.write (h : db.Holds zlib l) (hfree : l.Free sha1 obj) (debug locked : Bool) :
    (∃ db', db'.Holds zlib (l.insert sha1 obj) ∧ write sha1 zlib debug locked obj db = .ok (obj.oid sha1) db') ∨
      locked = true ∧ write sha1 zlib debug locked obj db = .error .io db := by
  have hoid : sha1 obj.serializeWithHeaders = obj.oid sha1 := rfl
  unfold LooseFiles.write
  simp only [run_getBind,hoid]
  cases hobj : l (obj.oid sha1) with
  | none =>
    rw [h.only _ hobj]
    cases locked with
    | false => exact .inl ⟨_,h.create,rfl⟩
    | true => exact .inr ⟨rfl,rfl⟩
  | some x =>
    obtain rfl : x = obj := hfree x hobj
    obtain ⟨file,hfile,hdecode⟩ := h.file _ x hobj
    have hsame : l.insert sha1 x = l := Contents.insert_of_some hobj
    refine .inl ⟨db,hsame.symm ▸ h,?_⟩
    simp [hfile,hdecode]

end LooseFiles

/-! ### Packed objects and the database -/

/-- The operation gives what is there, or says that there is nothing, and what comes after is as good. -/
def Answers {σ α : Type} (inv : σ → Prop) : Option α → EStateM.Result ObjError σ α → Prop
  | some a, .ok b s => b = a ∧ inv s
  | none, .error e s => e.isNotFoundErr ∧ inv s
  | some _, .error _ _ => False
  | none, .ok _ _ => False

/-- As long as `inv` holds of the packs they hold these objects and find all of them. -/
structure PacksHold (inflater : IndexFile.Parser Bytes) (inv : List Pack → Prop) (held : Contents) : Prop where
  readRaw : ∀ packs, inv packs → ∀ oid,
    Answers inv ((held oid).map (.fromRawPackObj oid)) (Packs.readRaw inflater (.Full oid) packs)
  readHeader : ∀ packs, inv packs → ∀ oid, Answers inv ((held oid).map BitPackObjRaw.header) (Packs.readHeader (.Full oid) packs)
  objExists : ∀ packs, inv packs → ∀ oid, Answers inv (some (held oid).isSome) (Packs.objExists (.Full oid) packs)

/-- A repository into which nothing was fetched yet. -/
theorem packsHold_nil (inflater : IndexFile.Parser Bytes) : PacksHold inflater (· = []) fun _ => none where
  readRaw packs hp oid := by subst hp; exact ⟨rfl,rfl⟩
  readHeader packs hp oid := by subst hp; exact ⟨rfl,rfl⟩
  objExists packs hp oid := by subst hp; exact ⟨rfl,rfl⟩

namespace ObjDb
variable {sha1 : Bytes → Oid} {zlib : Zlib} {inflater : IndexFile.Parser Bytes} {inv : List Pack → Prop} {held m : Contents}
  {db : ObjDb} {obj : BitPackObjRaw}

/-- The objects of both stores, in which no hash stands for two. -/
structure Holds (sha1 : Bytes → Oid) (zlib : Zlib) (inv : List Pack → Prop) (held : Contents) (db : ObjDb) (m : Contents) :
    Prop where
  packs : inv db.packs
  loose : ∃ l : Contents, db.loose.Holds zlib l ∧ (∀ oid, m oid = (held oid).or (l oid)) ∧
    ∀ oid obj, l oid = some obj → m oid = some obj
  addressed : m.Addressed sha1

/-- The packs are asked first. -/
theorem backendMethod_eq {α : Type} {f : BitPackObjRaw → α} {l : Contents} {oid : Oid} {packed : EStateM ObjError (List Pack) α}
    {loose : EStateM ObjError LooseFiles α} (hpacked : Answers inv ((held oid).map f) (packed db.packs))
    (hloose : loose db.loose = ended db.loose (l.answer oid f)) (hm : m oid = (held oid).or (l oid)) :
    ∃ packs, inv packs ∧ backendMethod packed loose db = ended {db with packs := packs} (m.answer oid f) := by
  unfold backendMethod onPacks
  cases hh : held oid with
  | some obj =>
    rw [hh] at hpacked
    cases hrun : packed db.packs with
    | ok a packs =>
      rw [hrun] at hpacked
      obtain ⟨rfl,hinv⟩ := hpacked
      refine ⟨packs,hinv,?_⟩
      rw [Contents.answer,hm,hh]
      rfl
    | error e packs =>
      rw [hrun] at hpacked
      exact hpacked.elim
  | none =>
    rw [hh] at hpacked
    cases hrun : packed db.packs with
    | ok a packs =>
      rw [hrun] at hpacked
      exact hpacked.elim
    | error e packs =>
      rw [hrun] at hpacked
      obtain ⟨hnot,hinv⟩ := hpacked
      have hfatal : e.isFatal = false := by simp [ObjError.isFatal,hnot]
      have hsame : m.answer oid f = l.answer oid f := by rw [Contents.answer,hm,hh,Option.none_or,Contents.answer]
      refine ⟨packs,hinv,?_⟩
      simp only [hfatal,onLoose,hloose,hsame]
      cases l.answer oid f <;> rfl

section Reads
variable (hpacks : PacksHold inflater inv held) (h : db.Holds sha1 zlib inv held m)
include hpacks h

theorem Holds.readRaw (oid : Oid) : ∃ db' : ObjDb, db'.Holds sha1 zlib inv held m ∧
    readRaw zlib inflater (.Full oid) db = ended db' (m.answer oid (.fromRawPackObj oid)) := by
  obtain ⟨l,hl,hm,hsub⟩ := h.loose
  have haddr : l.Addressed sha1 := fun o x hx => h.addressed o x (hsub o x hx)
  obtain ⟨packs,hinv,hrun⟩ := backendMethod_eq (hpacks.readRaw db.packs h.packs oid) (hl.readRaw haddr oid) (hm oid)
  exact ⟨{db with packs := packs},⟨hinv,h.loose,h.addressed⟩,hrun⟩

theorem Holds.readHeader (oid : Oid) : ∃ db' : ObjDb, db'.Holds sha1 zlib inv held m ∧
    readHeader zlib (.Full oid) db = ended db' (m.answer oid BitPackObjRaw.header) := by
  obtain ⟨l,hl,hm,hsub⟩ := h.loose
  have haddr : l.Addressed sha1 := fun o x hx => h.addressed o x (hsub o x hx)
  obtain ⟨packs,hinv,hrun⟩ := backendMethod_eq (hpacks.readHeader db.packs h.packs oid) (hl.readHeader haddr oid) (hm oid)
  exact ⟨{db with packs := packs},⟨hinv,h.loose,h.addressed⟩,hrun⟩

theorem Holds.objExists (oid : Oid) : ∃ db' : ObjDb, db'.Holds sha1 zlib inv held m ∧
    objExists (.Full oid) db = .ok (m oid).isSome db' := by
  obtain ⟨l,hl,hm,hsub⟩ := h.loose
  have hpacked := hpacks.objExists db.packs h.packs oid
  cases hrun : Packs.objExists (.Full oid) db.packs with
  | error e packs =>
    rw [hrun] at hpacked
    exact hpacked.elim
  | ok b packs =>
    rw [hrun] at hpacked
    obtain ⟨rfl,hinv⟩ := hpacked
    refine ⟨{db with packs := packs},⟨hinv,h.loose,h.addressed⟩,?_⟩
    have hexists := hl.objExists oid
    unfold ObjDb.objExists onPacks
    rw [hrun,hm oid]
    cases hh : held oid with
    | some obj => rfl
    | none => simp [onLoose,hexists]

end Reads

/-- A write adds the object, unless a lock keeps it from that. -/
theorem Holds.write (h : db.Holds sha1 zlib inv held m) (hfree : m.Free sha1 obj) (hsize : obj.bytes.length < 2^63)
    (debug locked : Bool) :
    (∃ db' : ObjDb, db'.Holds sha1 zlib inv held (m.insert sha1 obj) ∧
      write sha1 zlib debug locked obj db = .ok (obj.oid sha1) db') ∨
      locked = true ∧ write sha1 zlib debug locked obj db = .error .io db := by
  obtain ⟨l,hl,hm,hsub⟩ := h.loose
  have hrun : ObjDb.write sha1 zlib debug locked obj db = onLoose (LooseFiles.write sha1 zlib debug locked obj) db := rfl
  rw [hrun]
  have hlfree : l.Free sha1 obj := fun x hx => hfree x (hsub _ x hx)
  rcases hl.write hlfree debug locked with ⟨loose,hloose,hwrite⟩ | ⟨hlocked,hwrite⟩
  · refine .inl ⟨{db with loose := loose},⟨h.packs,⟨l.insert sha1 obj,hloose,fun oid => ?_,fun oid x hx => ?_⟩,
      h.addressed.insert hsize⟩,by simp only [onLoose,hwrite]⟩
    · by_cases ho : oid = obj.oid sha1
      · subst ho
        rw [Contents.insert_self,Contents.insert_self]
        cases hh : held (obj.oid sha1) with
        | none => rfl
        | some x =>
          have hx : m (obj.oid sha1) = some x := by rw [hm,hh,Option.some_or]
          rw [hfree x hx,Option.some_or]
      · rw [Contents.insert,Contents.insert,Function.update_of_ne ho,Function.update_of_ne ho,hm]
    · by_cases ho : oid = obj.oid sha1
      · subst ho
        rw [Contents.insert_self] at hx ⊢
        exact hx
      · rw [Contents.insert,Function.update_of_ne ho] at hx ⊢
        exact hsub oid x hx
  · exact .inr ⟨hlocked,by simp only [onLoose,hwrite]⟩

end ObjDb

/-! ### Runs -/

/-- What is asked of the objects of a repository; the flag says that a lock is held by somebody else. -/
inductive ObjOp
  | Write (obj : BitPackObjRaw) (locked : Bool)
  | ReadRaw (oid : Oid)
  | ReadHeader (oid : Oid)
  | Exists (oid : Oid)
  | ReadObj (oid : Oid)

inductive ObjAnswer (κ : Type)
  | Oid (oid : Oid)
  | Raw (raw : BitRawObj)
  | Header (header : BitObjHeader)
  | Exists (b : Bool)
  | Obj (obj : κ)

section Runs
variable {κ : Type} (sha1 : Bytes → Oid) (zlib : Zlib) (inflater : IndexFile.Parser Bytes) (emptyTree : κ)
  (fromRaw : BitRawObj → Except ObjError κ) (debug : Bool)

def ObjOp.exec : ObjOp → EStateM ObjError (ObjRepo κ) (ObjAnswer κ)
  | .Write obj locked => .Oid <$> ObjRepo.onOdb (ObjDb.write sha1 zlib debug locked obj)
  | .ReadRaw oid => .Raw <$> ObjRepo.onOdb (ObjDb.readRaw zlib inflater (.Full oid))
  | .ReadHeader oid => .Header <$> ObjRepo.onOdb (ObjDb.readHeader zlib (.Full oid))
  | .Exists oid => .Exists <$> ObjRepo.onOdb (ObjDb.objExists (.Full oid))
  | .ReadObj oid => .Obj <$> ObjRepo.readObj zlib inflater emptyTree fromRaw (.Full oid)

/-- A run with the answers, and the repository after it. -/
def runOps (r : ObjRepo κ) : List ObjOp → List (ObjOp × Except ObjError (ObjAnswer κ)) × ObjRepo κ
  | [] => ([],r)
  | op::ops =>
    let x := op.exec sha1 zlib inflater emptyTree fromRaw debug r
    let run := runOps (final x) ops
    ((op,outcome x)::run.1,run.2)

/-- What a map from hashes to objects answers, and the map after that. -/
def Served (m : Contents) : ObjOp → Except ObjError (ObjAnswer κ) → Contents → Prop
  | .Write obj locked, x, m' =>
    x = .ok (.Oid (obj.oid sha1)) ∧ m' = m.insert sha1 obj ∨ locked = true ∧ x = .error .io ∧ m' = m
  | .ReadRaw oid, x, m' => x = m.answer oid (fun obj => .Raw (.fromRawPackObj oid obj)) ∧ m' = m
  | .ReadHeader oid, x, m' => x = m.answer oid (fun obj => .Header obj.header) ∧ m' = m
  | .Exists oid, x, m' => x = .ok (.Exists (m oid).isSome) ∧ m' = m
  | .ReadObj oid, x, m' => x = (if oid = EMPTY_TREE then .ok (.Obj emptyTree) else do
      let raw ← m.answer oid (.fromRawPackObj oid)
      let obj ← fromRaw raw
      pure (.Obj obj)) ∧ m' = m

inductive ServedAll : Contents → List (ObjOp × Except ObjError (ObjAnswer κ)) → Contents → Prop
  | nil (m : Contents) : ServedAll m [] m
  | cons {m m' m'' : Contents} {op : ObjOp} {x : Except ObjError (ObjAnswer κ)} {run : List (ObjOp × Except ObjError (ObjAnswer κ))}
      (hop : Served sha1 emptyTree fromRaw m op x m') (hrun : ServedAll m' run m'') : ServedAll m ((op,x)::run) m''

/-- The objects that are written fit into the memory, and their hashes tell them apart from each other and from what is there. -/
def CollisionFree (m : Contents) (ops : List ObjOp) : Prop :=
  ∀ obj locked, .Write obj locked ∈ ops → obj.bytes.length < 2^63 ∧ m.Free sha1 obj ∧
    ∀ obj' locked', .Write obj' locked' ∈ ops → obj'.oid sha1 = obj.oid sha1 → obj' = obj

/-- The store holds the map, and so does the cache in part. -/
structure ObjRepo.Holds (inv : List Pack → Prop) (held : Contents) (r : ObjRepo κ) (m : Contents) : Prop where
  odb : r.odb.Holds sha1 zlib inv held m
  cache : ∀ oid k, r.objCache oid = some k → ∃ obj, m oid = some obj ∧ fromRaw (.fromRawPackObj oid obj) = .ok k

end Runs

section Refinement
variable {κ : Type} {sha1 : Bytes → Oid} {zlib : Zlib} {inflater : IndexFile.Parser Bytes} {emptyTree : κ}
  {fromRaw : BitRawObj → Except ObjError κ} {debug : Bool} {inv : List Pack → Prop} {held m : Contents} {r : ObjRepo κ}

theorem map_ended {σ α β : Type} {f : α → β} {op : EStateM ObjError σ α} {x : Except ObjError α} {s s' : σ}
    (h : op s = ended s' x) : (f <$> op) s = ended s' (f <$> x) := by
  rw [map_eq_pure_bind]
  simp only [Bind.bind,EStateM.bind,h]
  cases x <;> rfl

theorem onOdb_ended {α β : Type} {f : α → β} {op : EStateM ObjError ObjDb α} {x : Except ObjError α} {odb : ObjDb}
    (h : op r.odb = ended odb x) : (f <$> ObjRepo.onOdb op) r = ended {r with odb := odb} (f <$> x) := by
  refine map_ended ?_
  rw [ObjRepo.onOdb,h]
  cases x <;> rfl

theorem Contents.map_answer {α β : Type} (f : α → β) (g : BitPackObjRaw → α) (m : Contents) (oid : Oid) :
    f <$> m.answer oid g = m.answer oid fun obj => f (g obj) := by
  unfold Contents.answer
  cases m oid <;> rfl

section Cache
variable {oid : Oid} {f : EStateM ObjError (ObjRepo κ) κ} {r' : ObjRepo κ} {k : κ}

theorem getOrInsertWith_hit (h : r.objCache oid = some k) : ObjRepo.getOrInsertWith oid f r = .ok k r := by
  simp only [ObjRepo.getOrInsertWith,run_getBind,h,run_pure]

theorem getOrInsertWith_ok (r' : ObjRepo κ) (h : r.objCache oid = none) (hf : f r = .ok k r') : ObjRepo.getOrInsertWith oid f r =
    .ok k {r' with objCache := Function.update r'.objCache oid (some k)} := by
  simp only [ObjRepo.getOrInsertWith,run_getBind,h]
  exact bind_of_ok hf

theorem getOrInsertWith_error {e : ObjError} (h : r.objCache oid = none) (hf : f r = .error e r') :
    ObjRepo.getOrInsertWith oid f r = .error e r' := by
  simp only [ObjRepo.getOrInsertWith,run_getBind,h]
  exact bind_of_error hf

end Cache

section Step
variable (hpacks : PacksHold inflater inv held) (h : r.Holds sha1 zlib fromRaw inv held m)
include h

theorem write_served {obj : BitPackObjRaw} (hsize : obj.bytes.length < 2^63) (hfree : m.Free sha1 obj) (locked : Bool) :
    let x := (ObjOp.Write obj locked).exec sha1 zlib inflater emptyTree fromRaw debug r
    ∃ m', Served sha1 emptyTree fromRaw m (.Write obj locked) (outcome x) m' ∧ (final x).Holds sha1 zlib fromRaw inv held m' := by
  rcases h.odb.write hfree hsize debug locked with ⟨odb,hodb,hrun⟩ | ⟨hlocked,hrun⟩
  · have hexec := onOdb_ended (f := (ObjAnswer.Oid : Oid → ObjAnswer κ)) (r := r) (x := .ok (obj.oid sha1)) hrun
    simp only [ObjOp.exec,hexec,outcome_ended,final_ended]
    refine ⟨m.insert sha1 obj,.inl ⟨rfl,rfl⟩,hodb,fun oid k hk => ?_⟩
    obtain ⟨x,hx,hraw⟩ := h.cache oid k hk
    exact ⟨x,hfree.keeps hx,hraw⟩
  · have hrun : ObjDb.write sha1 zlib debug locked obj r.odb = ended r.odb (.error .io) := hrun
    simp only [ObjOp.exec,onOdb_ended hrun,outcome_ended,final_ended]
    exact ⟨m,.inr ⟨hlocked,rfl,rfl⟩,h⟩

include hpacks

variable (emptyTree) in
/-- An object comes from the cache or from the store, and it is the same. -/
theorem readObj_run (oid : Oid) : ∃ r' : ObjRepo κ, r'.Holds sha1 zlib fromRaw inv held m ∧
    ObjRepo.readObj zlib inflater emptyTree fromRaw (.Full oid) r = ended r' (if oid = EMPTY_TREE then .ok emptyTree
      else m.answer oid (.fromRawPackObj oid) >>= fromRaw) := by
  have hexpand : (ObjRepo.onOdb (expandId ObjDb.prefixCandidates (.Full oid)) : EStateM ObjError (ObjRepo κ) Oid) r = .ok oid r := rfl
  rw [ObjRepo.readObj,bind_of_ok hexpand]
  by_cases hempty : oid = EMPTY_TREE
  · rw [if_pos hempty,if_pos hempty]
    exact ⟨r,h,rfl⟩
  rw [if_neg hempty,if_neg hempty]
  cases hcache : r.objCache oid with
  | some k =>
    obtain ⟨obj,hobj,hraw⟩ := h.cache oid k hcache
    refine ⟨r,h,?_⟩
    rw [getOrInsertWith_hit hcache,Contents.answer,hobj]
    exact congrArg (ended r) hraw.symm
  | none =>
    obtain ⟨odb,hodb,hread⟩ := h.odb.readRaw hpacks oid
    have hsame : ({r with odb := odb} : ObjRepo κ).Holds sha1 zlib fromRaw inv held m := ⟨hodb,h.cache⟩
    cases hobj : m oid with
    | none =>
      rw [Contents.answer,hobj] at hread
      refine ⟨{r with odb := odb},hsame,?_⟩
      rw [Contents.answer,hobj]
      refine getOrInsertWith_error hcache (bind_of_error ?_)
      rw [ObjRepo.onOdb,hread]
      rfl
    | some obj =>
      rw [Contents.answer,hobj] at hread
      have hstore : ObjRepo.onOdb (ObjDb.readRaw zlib inflater (.Full oid)) r =
          .ok (.fromRawPackObj oid obj) {r with odb := odb} := by
        rw [ObjRepo.onOdb,hread]
        rfl
      rw [Contents.answer,hobj]
      change ∃ r' : ObjRepo κ, _ ∧ _ = ended r' (fromRaw (.fromRawPackObj oid obj))
      cases hraw : fromRaw (.fromRawPackObj oid obj) with
      | error e =>
        refine ⟨{r with odb := odb},hsame,getOrInsertWith_error hcache ?_⟩
        rw [bind_of_ok hstore,hraw]
        rfl
      | ok k =>
        refine ⟨{r with odb := odb, objCache := Function.update r.objCache oid (some k)},⟨hodb,fun o k' hk => ?_⟩,?_⟩
        · by_cases ho : o = oid
          · subst ho
            obtain rfl : k = k' := by simpa using hk
            exact ⟨obj,hobj,hraw⟩
          · exact h.cache o k' (by simpa [Function.update_of_ne ho] using hk)
        · refine getOrInsertWith_ok {r with odb := odb} hcache ((bind_of_ok hstore).trans ?_)
          rw [hraw]
          rfl

theorem readObj_served (oid : Oid) :
    let x := (ObjOp.ReadObj oid).exec sha1 zlib inflater emptyTree fromRaw debug r
    ∃ m', Served sha1 emptyTree fromRaw m (.ReadObj oid) (outcome x) m' ∧ (final x).Holds sha1 zlib fromRaw inv held m' := by
  obtain ⟨r',hr',hrun⟩ := readObj_run emptyTree hpacks h oid
  have hexec := map_ended (f := (ObjAnswer.Obj : κ → ObjAnswer κ)) hrun
  simp only [ObjOp.exec,hexec,outcome_ended,final_ended]
  refine ⟨m,⟨?_,rfl⟩,hr'⟩
  by_cases hempty : oid = EMPTY_TREE
  · rw [if_pos hempty,if_pos hempty]
    rfl
  · rw [if_neg hempty,if_neg hempty]
    cases m.answer oid (BitRawObj.fromRawPackObj oid) with
    | error e => rfl
    | ok raw =>
      change _ <$> fromRaw raw = (fromRaw raw >>= _)
      cases fromRaw raw <;> rfl

variable (emptyTree debug) in
/-- One operation, as the map answers it. -/
theorem exec_served (op : ObjOp) (hfree : ∀ obj locked, op = .Write obj locked → obj.bytes.length < 2^63 ∧ m.Free sha1 obj) :
    let x := op.exec sha1 zlib inflater emptyTree fromRaw debug r
    ∃ m', Served sha1 emptyTree fromRaw m op (outcome x) m' ∧ (final x).Holds sha1 zlib fromRaw inv held m' := by
  cases op with
  | Write obj locked => exact write_served h (hfree obj locked rfl).1 (hfree obj locked rfl).2 locked
  | ReadRaw oid =>
    obtain ⟨odb,hodb,hrun⟩ := h.odb.readRaw hpacks oid
    simp only [ObjOp.exec,onOdb_ended hrun,outcome_ended,final_ended]
    exact ⟨m,⟨Contents.map_answer _ _ _ _,rfl⟩,hodb,h.cache⟩
  | ReadHeader oid =>
    obtain ⟨odb,hodb,hrun⟩ := h.odb.readHeader hpacks oid
    simp only [ObjOp.exec,onOdb_ended hrun,outcome_ended,final_ended]
    exact ⟨m,⟨Contents.map_answer _ _ _ _,rfl⟩,hodb,h.cache⟩
  | Exists oid =>
    obtain ⟨odb,hodb,hrun⟩ := h.odb.objExists hpacks oid
    have hexec := onOdb_ended (f := (ObjAnswer.Exists : Bool → ObjAnswer κ)) (r := r) (x := .ok (m oid).isSome) hrun
    simp only [ObjOp.exec,hexec,outcome_ended,final_ended]
    exact ⟨m,⟨rfl,rfl⟩,hodb,h.cache⟩
  | ReadObj oid => exact readObj_served hpacks h oid

end Step

theorem CollisionFree.step {op : ObjOp} {ops : List ObjOp} {x : Except ObjError (ObjAnswer κ)} {m' : Contents}
    (hfree : CollisionFree sha1 m (op::ops)) (hop : Served sha1 emptyTree fromRaw m op x m') : CollisionFree sha1 m' ops := by
  intro obj locked hmem
  obtain ⟨hsize,hm,hothers⟩ := hfree obj locked (List.mem_cons_of_mem _ hmem)
  refine ⟨hsize,?_,fun obj' locked' hmem' => hothers obj' locked' (List.mem_cons_of_mem _ hmem')⟩
  cases op with
  | Write y locked' =>
    rcases hop with ⟨-,rfl⟩ | ⟨-,-,rfl⟩
    · intro z hz
      by_cases ho : obj.oid sha1 = y.oid sha1
      · rw [ho,Contents.insert_self] at hz
        obtain rfl : y = z := Option.some.inj hz
        exact hothers y locked' List.mem_cons_self ho.symm
      · rw [Contents.insert,Function.update_of_ne ho] at hz
        exact hm z hz
    · exact hm
  | ReadRaw oid => exact hop.2 ▸ hm
  | ReadHeader oid => exact hop.2 ▸ hm
  | Exists oid => exact hop.2 ▸ hm
  | ReadObj oid => exact hop.2 ▸ hm

variable (emptyTree debug) in
theorem exists_servedAll (hpacks : PacksHold inflater inv held) (h : r.Holds sha1 zlib fromRaw inv held m) {ops : List ObjOp}
    (hfree : CollisionFree sha1 m ops) : ∃ m',
    ServedAll sha1 emptyTree fromRaw m (runOps sha1 zlib inflater emptyTree fromRaw debug r ops).1 m' ∧
      (runOps sha1 zlib inflater emptyTree fromRaw debug r ops).2.Holds sha1 zlib fromRaw inv held m' := by
  induction ops generalizing r m with
  | nil => exact ⟨m,.nil m,h⟩
  | cons op ops ih =>
    have hop : ∀ obj locked, op = .Write obj locked → obj.bytes.length < 2^63 ∧ m.Free sha1 obj := by
      rintro obj locked rfl
      obtain ⟨hsize,hm,-⟩ := hfree obj locked List.mem_cons_self
      exact ⟨hsize,hm⟩
    obtain ⟨m₁,hserved,hholds⟩ := exec_served emptyTree debug hpacks h op hop
    obtain ⟨m₂,hall,hend⟩ := ih hholds (hfree.step hserved)
    exact ⟨m₂,.cons hserved hall,hend⟩

/-! ### Nothing is lost -/

variable {ops : List ObjOp} {run : List (ObjOp × Except ObjError (ObjAnswer κ))} {m' : Contents} {oid : Oid}
  {obj : BitPackObjRaw}

theorem runOps_ops (ops : List ObjOp) : (runOps sha1 zlib inflater emptyTree fromRaw debug r ops).1.map Prod.fst = ops := by
  induction ops generalizing r with
  | nil => rfl
  | cons op ops ih => exact congrArg (op::·) ih

theorem ServedAll.keeps (h : ServedAll sha1 emptyTree fromRaw m run m') (hfree : CollisionFree sha1 m (run.map Prod.fst))
    (hobj : m oid = some obj) : m' oid = some obj := by
  induction h with
  | nil m => exact hobj
  | @cons m₁ m₂ m₃ op x run hop hrun ih =>
    refine ih (hfree.step hop) ?_
    cases op with
    | Write y locked =>
      rcases hop with ⟨-,rfl⟩ | ⟨-,-,rfl⟩
      · exact (hfree y locked List.mem_cons_self).2.1.keeps hobj
      · exact hobj
    | ReadRaw oid => exact hop.2 ▸ hobj
    | ReadHeader oid => exact hop.2 ▸ hobj
    | Exists oid => exact hop.2 ▸ hobj
    | ReadObj oid => exact hop.2 ▸ hobj

theorem ServedAll.written {locked : Bool} {a : ObjAnswer κ} (h : ServedAll sha1 emptyTree fromRaw m run m')
    (hfree : CollisionFree sha1 m (run.map Prod.fst)) (hw : (.Write obj locked,.ok a) ∈ run) :
    a = .Oid (obj.oid sha1) ∧ m' (obj.oid sha1) = some obj := by
  induction h with
  | nil m => cases hw
  | @cons m₁ m₂ m₃ op x run hop hrun ih =>
    have hrest := hfree.step hop
    rcases List.mem_cons.mp hw with heq | hw
    · obtain ⟨rfl,rfl⟩ := Prod.mk.inj heq
      rcases hop with ⟨hx,rfl⟩ | ⟨-,hx,-⟩
      · exact ⟨Except.ok.inj hx,hrun.keeps hrest Contents.insert_self⟩
      · cases hx
    · exact ih hrest hw

end Refinement

/-! ### Two blobs -/

/-- Nothing is compressed. -/
def Zlib.stored : Zlib := ⟨id,fun bytes => ⟨bytes,false⟩,fun _ => rfl⟩

def freshObjects : ObjRepo BitRawObj := ⟨⟨[],⟨[],List.Pairwise.nil,fun _ => false⟩⟩,fun _ => none⟩

/-- The first write finds the lock held. -/
def blobOps : List ObjOp :=
  [.Write blobA true,.Write blobA false,.ReadObj (blobA.oid lateSha1),.Write blobB false,.ReadObj (blobA.oid lateSha1),
    .Exists (blobB.oid lateSha1),.Write blobA false]

theorem holds_fresh : freshObjects.Holds lateSha1 .stored .ok (· = []) (fun _ => none) fun _ => none where
  odb := ⟨rfl,⟨fun _ => none,⟨by simp,fun _ _ => rfl⟩,fun _ => rfl,by simp⟩,by simp [Contents.Addressed]⟩
  cache _ _ h := by cases h

theorem collisionFree_blobs : CollisionFree lateSha1 (fun _ => none) blobOps := by
  have hblobs {obj : BitPackObjRaw} {locked : Bool} (h : .Write obj locked ∈ blobOps) : obj = blobA ∨ obj = blobB := by
    simp only [blobOps,List.mem_cons,List.not_mem_nil,or_false,ObjOp.Write.injEq,reduceCtorEq,false_or] at h
    tauto
  have hne : blobA.oid lateSha1 ≠ blobB.oid lateSha1 := by decide
  intro obj locked h
  refine ⟨?_,by simp [Contents.Free],fun obj' locked' h' heq => ?_⟩
  · rcases hblobs h with rfl | rfl <;> decide
  · rcases hblobs h with rfl | rfl <;> rcases hblobs h' with rfl | rfl
    · rfl
    · exact absurd heq.symm hne
    · exact absurd heq hne
    · rfl

def emptyTreeObj : BitRawObj := .fromRawPackObj EMPTY_TREE ⟨.Tree,[]⟩

end Packfile
end Libbit
