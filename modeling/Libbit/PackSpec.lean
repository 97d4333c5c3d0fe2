import Libbit.Pack
import Libbit.PackIndexSpec

/-! The format of a pack, and what is read of a well-formed one. -/
namespace Libbit
namespace Packfile

open Lib Lib.Reader
open IndexFile (Parser assertThat readU32 writeU32 readOid OID_SIZE readU32_decodes readOid_decodes length_writeU32)

/-! ### Numbers -/

/-- Groups of seven bits, with the highest bit set on all but the last. -/
def groupsText : List (Fin 128) → Bytes
  | [] => []
  | [g] => [Fin.ofNat 256 g.val]
  | g::gs => Fin.ofNat 256 (0x80+g.val)::groupsText gs

/-- The lowest group comes first. -/
def groupsValue (shift : ℕ) : List (Fin 128) → ℕ
  | [] => 0
  | g::gs => g.val*2^shift+groupsValue (shift+7) gs

/-- How the type and the size of an object are written: four bits of the size, then groups. -/
structure HeaderText (ty size : ℕ) (text : Bytes) : Prop where
  exists_groups : ∃ (low : Fin 16) (gs : List (Fin 128)),
    text = Fin.ofNat 256 ((if gs = [] then 0 else 0x80)+ty*16+low.val)::groupsText gs ∧
      size = low.val+groupsValue 4 gs ∧ gs.length ≤ 9
  small : size < 2^63

/-- The highest group comes first, and one is added for each that follows. -/
def offsetValue (offset : ℕ) : List (Fin 128) → ℕ
  | [] => offset
  | g::gs => offsetValue ((offset+1)*2^7+g.val) gs

/-- How the distance to the base of a delta is written. -/
structure OffsetText (offset : ℕ) (text : Bytes) : Prop where
  exists_groups : ∃ (g : Fin 128) (gs : List (Fin 128)), text = groupsText (g::gs) ∧ offset = offsetValue g.val gs
  small : offset < 2^64

theorem low7_last (g : Fin 128) : low7 (Fin.ofNat 256 g.val) = g.val := by
  have hval : (Fin.ofNat 256 g.val).val = g.val := Nat.mod_eq_of_lt (by omega)
  rw [low7,hval,Nat.mod_eq_of_lt g.isLt]

theorem not_continues_last (g : Fin 128) : ¬continues (Fin.ofNat 256 g.val) := by
  have hval : (Fin.ofNat 256 g.val).val = g.val := Nat.mod_eq_of_lt (by omega)
  rw [continues,hval]
  omega

theorem low7_more (g : Fin 128) : low7 (Fin.ofNat 256 (0x80+g.val)) = g.val := by
  have hval : (Fin.ofNat 256 (0x80+g.val)).val = 0x80+g.val := Nat.mod_eq_of_lt (by omega)
  rw [low7,hval]
  omega

theorem continues_more (g : Fin 128) : continues (Fin.ofNat 256 (0x80+g.val)) := by
  have hval : (Fin.ofNat 256 (0x80+g.val)).val = 0x80+g.val := Nat.mod_eq_of_lt (by omega)
  rw [continues,hval]
  omega

theorem groupsText_cons (g g' : Fin 128) (gs : List (Fin 128)) :
    groupsText (g::g'::gs) = Fin.ofNat 256 (0x80+g.val)::groupsText (g'::gs) := rfl

/-- The bits of a number that is below the next group are kept. What goes past 64 bits is lost. -/
theorem or_group {n shift : ℕ} (hn : n < 2^shift) (hshift : shift < 64) (g : Fin 128) :
    n ||| g.val*2^shift%2^64 = (n+g.val*2^shift)%2^64 := by
  have hword : 2^64 = 2^(64-shift)*2^shift := by rw [← pow_add,Nat.sub_add_cancel hshift.le]
  have hkept : g.val*2^shift%2^64 = g.val%2^(64-shift)*2^shift := by rw [hword,Nat.mul_mod_mul_right]
  have hsum : n+g.val%2^(64-shift)*2^shift < 2^64 := by
    have hg : (g.val%2^(64-shift)+1)*2^shift ≤ 2^(64-shift)*2^shift :=
      Nat.mul_le_mul_right _ (Nat.mod_lt _ (Nat.two_pow_pos _))
    rw [← hword,Nat.add_mul,Nat.one_mul] at hg
    omega
  calc n ||| g.val*2^shift%2^64
    _ = n+g.val%2^(64-shift)*2^shift := by
      rw [hkept,Nat.lor_comm,Nat.mul_comm,← Nat.two_pow_add_eq_or_of_lt hn,Nat.add_comm]
    _ = (n+g.val%2^(64-shift)*2^shift)%2^64 := (Nat.mod_eq_of_lt hsum).symm
    _ = (n+g.val*2^shift)%2^64 := by rw [← hkept,Nat.add_mod_mod]

theorem readVarintFrom_decodes {gs : List (Fin 128)} {n shift : ℕ} (hne : gs ≠ []) (hn : n < 2^shift)
    (hshift : shift+7*(gs.length-1) < 64) :
    Decodes (readVarintFrom n shift) (groupsText gs) ((n+groupsValue shift gs)%2^64) := by
  intro rest
  induction gs generalizing n shift with
  | nil => exact absurd rfl hne
  | cons g gs ih =>
    have hor := or_group hn (by omega) g
    cases gs with
    | nil =>
      simp only [groupsText,List.cons_append,List.nil_append,StateT.run,readVarintFrom]
      rw [if_pos (by omega),low7_last,if_neg (not_continues_last g),hor]
      rfl
    | cons g' gs =>
      simp only [List.length_cons] at hshift
      have hnext : n+g.val*2^shift < 2^(shift+7) := by
        have hg : g.val*2^shift ≤ 127*2^shift := Nat.mul_le_mul_right _ (by omega)
        rw [pow_add]
        omega
      have hword : 2^(shift+7) ≤ 2^64 := Nat.pow_le_pow_right (by omega) (by omega)
      rw [Nat.mod_eq_of_lt (hnext.trans_le hword)] at hor
      have hrest := ih (by simp) hnext (by simp only [List.length_cons]; omega)
      rw [groupsText_cons]
      simp only [List.cons_append,StateT.run,readVarintFrom]
      rw [if_pos (by omega),low7_more,if_pos (continues_more g),hor]
      refine hrest.trans ?_
      simp only [groupsValue,Nat.add_assoc]

theorem le_offsetValue (offset : ℕ) (gs : List (Fin 128)) : offset ≤ offsetValue offset gs := by
  induction gs generalizing offset with
  | nil => rfl
  | cons g gs ih => exact le_trans (by omega) (ih ((offset+1)*2^7+g.val))

theorem readOffsetFrom_decodes {gs : List (Fin 128)} {offset : ℕ} (hne : gs ≠ []) (hsmall : offsetValue offset gs < 2^64) :
    Decodes (readOffsetFrom offset) (groupsText gs) (offsetValue offset gs) := by
  intro rest
  induction gs generalizing offset with
  | nil => exact absurd rfl hne
  | cons g gs ih =>
    rw [offsetValue] at hsmall ⊢
    have hle := le_offsetValue ((offset+1)*2^7+g.val) gs
    have hmod : (offset+1)*2^7%2^64 = (offset+1)*2^7 := Nat.mod_eq_of_lt (by omega)
    cases gs with
    | nil =>
      simp only [groupsText,List.cons_append,List.nil_append,StateT.run,readOffsetFrom]
      rw [if_pos (by omega),low7_last,if_neg (not_continues_last g),hmod]
      rfl
    | cons g' gs =>
      rw [groupsText_cons]
      simp only [List.cons_append,StateT.run,readOffsetFrom]
      rw [if_pos (by omega),low7_more,if_pos (continues_more g),hmod]
      exact ih (by simp) hsmall

theorem readU8_decodes (b : Byte) : Decodes readU8 [b] b := fun _ => rfl

theorem OffsetText.decodes {offset : ℕ} {text : Bytes} (h : OffsetText offset text) : Decodes readOffset text offset := by
  obtain ⟨g,gs,rfl,rfl⟩ := h.exists_groups
  cases gs with
  | nil =>
    refine (readU8_decodes _).bindPure ?_
    rw [if_neg (not_continues_last g),low7_last]
    exact Decodes.pure _
  | cons g' gs =>
    rw [groupsText_cons]
    refine Decodes.bind (readU8_decodes _) ?_
    rw [if_pos (continues_more g),low7_more]
    exact readOffsetFrom_decodes (by simp) h.small

/-- The type and the size. -/
theorem HeaderText.varint_decodes {ty size : ℕ} (hty : ty < 8) {text : Bytes} (h : HeaderText ty size text) :
    Decodes (readLeVarintWithShift 3) text (ty,size) := by
  obtain ⟨low,gs,rfl,hsize,hlen⟩ := h.exists_groups
  have hsmall := h.small
  refine (Decodes.require (by decide)).andThen ?_
  have hval (c : ℕ) (hc : c+ty*16+low.val < 256) : (Fin.ofNat 256 (c+ty*16+low.val)).val = c+ty*16+low.val :=
    Nat.mod_eq_of_lt hc
  cases gs with
  | nil =>
    have hbyte := hval 0 (by omega)
    rw [if_pos rfl]
    refine (readU8_decodes _).bindPure ?_
    rw [hbyte,if_neg (by rw [continues,hbyte]; omega)]
    have hk : (0+ty*16+low.val)/2^(7-3)%2^3 = ty := by omega
    have hn : (0+ty*16+low.val)%2^(7-3) = size := by
      rw [hsize,groupsValue]
      omega
    rw [hk,hn]
    exact Decodes.pure _
  | cons g gs =>
    have hbyte := hval 0x80 (by omega)
    rw [if_neg (by simp : g::gs ≠ [])]
    refine Decodes.bind (readU8_decodes _) ?_
    rw [hbyte,if_pos (by rw [continues,hbyte]; omega)]
    have hk : (0x80+ty*16+low.val)/2^(7-3)%2^3 = ty := by omega
    have hn : (0x80+ty*16+low.val)%2^(7-3) = low.val := by omega
    rw [hk,hn,map_eq_pure_bind]
    have hmore : Decodes (readVarintFrom low.val 4) (groupsText (g::gs)) ((low.val+groupsValue 4 (g::gs))%2^64) :=
      readVarintFrom_decodes (by simp) low.isLt (by simp only [List.length_cons] at hlen ⊢; omega)
    rw [← hsize,Nat.mod_eq_of_lt (by omega)] at hmore
    exact hmore.bindPure (Decodes.pure _)

theorem HeaderText.decodes {ty : BitPackObjType} {size : ℕ} {text : Bytes} (h : HeaderText ty.toU8 size text) :
    Decodes readPackObjHeader text ⟨ty,size⟩ := by
  refine (h.varint_decodes (by cases ty <;> decide)).bindPure ?_
  refine (Decodes.orFail ?_).andThen (Decodes.pure _)
  cases ty <;> rfl

/-! ### Objects -/

/-- How an object is stored: whole, or as a delta with the distance or the oid of its base. -/
inductive Stored (zlib : Parser Bytes) : BitPackObjRawDeltified → Bytes → Prop
  | whole {ty : BitPackObjType} {objType : BitObjType} {bytes head body : Bytes} (hty : ty.whole? = some objType)
      (hhead : HeaderText ty.toU8 bytes.length head) (hbody : Decodes zlib body bytes) :
      Stored zlib (.Raw ⟨objType,bytes⟩) (head++body)
  | ofs {offset : ℕ} {delta head dist body : Bytes} (hhead : HeaderText BitPackObjType.OfsDelta.toU8 delta.length head)
      (hdist : OffsetText offset dist) (hbody : Decodes zlib body delta) : Stored zlib (.Ofs offset delta) (head++(dist++body))
  | ref {oid : Oid} {delta head body : Bytes} (hhead : HeaderText BitPackObjType.RefDelta.toU8 delta.length head)
      (hbody : Decodes zlib body delta) : Stored zlib (.Ref oid delta) (head++(oid.bytes++body))

theorem inflate_decodes {zlib : Parser Bytes} {body bytes : Bytes} (hbody : Decodes zlib body bytes) (h : bytes.length < 2^63) :
    Decodes (inflate zlib bytes.length) body bytes :=
  (Decodes.require h).andThen <| hbody.bindPure <| (Decodes.require rfl).andThen <| Decodes.pure bytes

theorem Stored.decodes {zlib : Parser Bytes} {raw : BitPackObjRawDeltified} {text : Bytes} (h : Stored zlib raw text) :
    Decodes (readPackObj zlib) text raw := by
  cases h with
  | ofs hhead hdist hbody =>
    exact hhead.decodes.bind <| hdist.decodes.bind <| (inflate_decodes hbody hhead.small).bindPure <| Decodes.pure _
  | ref hhead hbody =>
    exact hhead.decodes.bind <| (readOid_decodes _).bind <| (inflate_decodes hbody hhead.small).bindPure <| Decodes.pure _
  | @whole ty objType bytes _ _ hty hhead hbody =>
    have hrest : Decodes (do
        let objType ← ty.toObjType
        let bytes ← inflate zlib bytes.length
        pure (BitPackObjRawDeltified.Raw ⟨objType,bytes⟩)) _ (.Raw ⟨objType,bytes⟩) :=
      (Decodes.orFail hty).andThen <| (inflate_decodes hbody hhead.small).bindPure <| Decodes.pure _
    refine hhead.decodes.bind ?_
    cases ty <;> first | exact hrest | cases hty

theorem HeaderText.ne_nil {ty size : ℕ} {text : Bytes} (h : HeaderText ty size text) : text ≠ [] := by
  obtain ⟨low,gs,rfl,-,-⟩ := h.exists_groups
  simp

theorem Stored.ne_nil {zlib : Parser Bytes} {raw : BitPackObjRawDeltified} {text : Bytes} (h : Stored zlib raw text) :
    text ≠ [] := by
  cases h with
  | whole _ hhead => simp [hhead.ne_nil]
  | ofs hhead => simp [hhead.ne_nil]
  | ref hhead => simp [hhead.ne_nil]

/-- An object, as it is stored. -/
structure Entry where
  raw : BitPackObjRawDeltified
  text : Bytes

/-- A well-formed pack. -/
structure PackFile (zlib : Parser Bytes) where
  entries : List Entry
  trailer : Bytes
  stored : ∀ e ∈ entries, Stored zlib e.raw e.text
  few : entries.length < 2^32

namespace PackFile
variable {zlib : Parser Bytes} {p : PackFile zlib} {offset n : ℕ} {raw : BitPackObjRawDeltified} {obj : BitPackObjRaw}

def header (p : PackFile zlib) : Bytes := PACK_SIGNATURE++writeU32 2++writeU32 (UInt32.ofNat p.entries.length)

/-- The file. -/
def bytes (p : PackFile zlib) : Bytes := p.header++p.entries.flatMap Entry.text++p.trailer

theorem header_decodes (p : PackFile zlib) : Decodes parsePackHeader p.header (UInt32.ofNat p.entries.length) := by
  rw [header,List.append_assoc]
  exact Decodes.bind (Decodes.readExact rfl) <| (Decodes.require rfl).andThen <| (readU32_decodes 2).bind <|
    (Decodes.require rfl).andThen <| readU32_decodes _

/-- An object starts at the offset. -/
def At (p : PackFile zlib) (offset : ℕ) (raw : BitPackObjRawDeltified) : Prop :=
  ∃ before e after, p.entries = before++e::after ∧ offset = (p.header++before.flatMap Entry.text).length ∧ e.raw = raw

theorem drop_at (h : p.At offset raw) : ∃ text rest, Stored zlib raw text ∧ p.bytes.drop offset = text++rest := by
  obtain ⟨before,e,after,hentries,rfl,rfl⟩ := h
  refine ⟨e.text,after.flatMap Entry.text++p.trailer,p.stored e (by simp [hentries]),?_⟩
  have hbytes : p.bytes = p.header++before.flatMap Entry.text++(e.text++(after.flatMap Entry.text++p.trailer)) := by
    rw [bytes,hentries]
    simp
  rw [hbytes,List.drop_left]

theorem run_at (h : p.At offset raw) : ∃ rest, (readPackObj zlib).run (p.bytes.drop offset) = .ok (raw,rest) := by
  obtain ⟨text,rest,hstored,hdrop⟩ := drop_at h
  exact ⟨rest,hdrop ▸ hstored.decodes.run rest⟩

theorem at_unique {raw' : BitPackObjRawDeltified} (h : p.At offset raw) (h' : p.At offset raw') : raw = raw' := by
  obtain ⟨rest,hrun⟩ := run_at h
  obtain ⟨rest',hrun'⟩ := run_at h'
  rw [hrun] at hrun'
  cases hrun'
  rfl

theorem lt_of_at (h : p.At offset raw) : offset < p.bytes.length := by
  obtain ⟨text,rest,hstored,hdrop⟩ := drop_at h
  by_contra hle
  rw [List.drop_eq_nil_of_le (not_lt.mp hle)] at hdrop
  exact hstored.ne_nil (List.append_eq_nil_iff.mp hdrop.symm).1

/-- The object at an offset, from the bases of its deltas. An oid names the objects at the offsets where it may be
looked for. -/
inductive Expands (p : PackFile zlib) (names : Oid → ℕ → BitPackObjRaw → Prop) : ℕ → ℕ → BitPackObjRaw → Prop
  | whole {offset : ℕ} {obj : BitPackObjRaw} (hat : p.At offset (.Raw obj)) : Expands p names 0 offset obj
  | ofs {n offset dist : ℕ} {delta : Bytes} {base obj : BitPackObjRaw} (hat : p.At offset (.Ofs dist delta))
      (hle : dist ≤ offset) (hbase : Expands p names n (offset-dist) base)
      (hobj : base.expandWithDeltaBytes delta = .ok obj) : Expands p names (n+1) offset obj
  | ref {n offset offset' : ℕ} {oid : Oid} {delta : Bytes} {base obj : BitPackObjRaw} (hat : p.At offset (.Ref oid delta))
      (hname : names oid offset' base) (hbase : Expands p names n offset' base)
      (hobj : base.expandWithDeltaBytes delta = .ok obj) : Expands p names (n+1) offset obj

variable {names : Oid → ℕ → BitPackObjRaw → Prop}

theorem Expands.exists_at (h : p.Expands names n offset obj) : ∃ raw, p.At offset raw := by
  cases h with
  | whole hat => exact ⟨_,hat⟩
  | ofs hat => exact ⟨_,hat⟩
  | ref hat => exact ⟨_,hat⟩

theorem Expands.lt (h : p.Expands names n offset obj) : offset < p.bytes.length := by
  obtain ⟨raw,hat⟩ := h.exists_at
  exact lt_of_at hat

theorem Expands.mono {names' : Oid → ℕ → BitPackObjRaw → Prop} (hn : ∀ oid offset obj, names oid offset obj → names' oid offset obj)
    (h : p.Expands names n offset obj) : p.Expands names' n offset obj := by
  induction h with
  | whole hat => exact .whole hat
  | ofs hat hle _ hobj ih => exact .ofs hat hle ih hobj
  | ref hat hname _ hobj ih => exact .ref hat (hn _ _ _ hname) ih hobj

/-- What is at an offset decides how an object comes about there: from itself, or by one delta from bases that the delta
says where to find. -/
theorem Expands.twice {m : ℕ} {obj' : BitPackObjRaw} (h : p.Expands names n offset obj) (h' : p.Expands names m offset obj') :
    (n = 0 ∧ m = 0 ∧ obj = obj') ∨ ∃ k l base base' delta start start', n = k+1 ∧ m = l+1 ∧
      p.Expands names k start base ∧ p.Expands names l start' base' ∧
      (start = start' ∨ ∃ oid, names oid start base ∧ names oid start' base') ∧
      base.expandWithDeltaBytes delta = .ok obj ∧ base'.expandWithDeltaBytes delta = .ok obj' := by
  cases h with
  | whole hat =>
    cases h' with
    | whole hat' =>
      cases at_unique hat hat'
      exact Or.inl ⟨rfl,rfl,rfl⟩
    | ofs hat' => cases at_unique hat hat'
    | ref hat' => cases at_unique hat hat'
  | ofs hat _ hbase hobj =>
    cases h' with
    | whole hat' => cases at_unique hat hat'
    | ofs hat' _ hbase' hobj' =>
      cases at_unique hat hat'
      exact Or.inr ⟨_,_,_,_,_,_,_,rfl,rfl,hbase,hbase',Or.inl rfl,hobj,hobj'⟩
    | ref hat' => cases at_unique hat hat'
  | ref hat hname hbase hobj =>
    cases h' with
    | whole hat' => cases at_unique hat hat'
    | ofs hat' => cases at_unique hat hat'
    | ref hat' hname' hbase' hobj' =>
      cases at_unique hat hat'
      exact Or.inr ⟨_,_,_,_,_,_,_,rfl,rfl,hbase,hbase',Or.inr ⟨_,hname,hname'⟩,hobj,hobj'⟩

/-- If what an oid names is one object, there is one object at an offset. -/
theorem Expands.obj_unique (hdet : ∀ oid k l o o' b b', p.Expands names k o b → p.Expands names l o' b' → names oid o b →
      names oid o' b' → b = b') {m : ℕ} {obj' : BitPackObjRaw} (h : p.Expands names n offset obj)
    (h' : p.Expands names m offset obj') : obj = obj' := by
  induction n generalizing offset obj m obj' with
  | zero =>
    rcases h.twice h' with ⟨-,-,hobj⟩ | ⟨k,-,-,-,-,-,-,hk,-⟩
    · exact hobj
    · exact absurd hk (Nat.succ_ne_zero k).symm
  | succ n ih =>
    rcases h.twice h' with ⟨hn,-⟩ | ⟨k,l,base,base',delta,start,start',hk,-,hbase,hbase',hstart,hobj,hobj'⟩
    · exact absurd hn (Nat.succ_ne_zero n)
    · obtain rfl : n = k := Nat.succ.inj hk
      obtain rfl : base = base' := by
        rcases hstart with rfl | ⟨oid,hname,hname'⟩
        · exact ih hbase hbase'
        · exact hdet oid _ _ _ _ _ _ hbase hbase' hname hname'
      exact Except.ok.inj (hobj.symm.trans hobj')

/-- If an oid names one offset there is one way to the object. -/
theorem Expands.unique (hdet : ∀ oid o o' b b', names oid o b → names oid o' b' → o = o') {m : ℕ} {obj' : BitPackObjRaw}
    (h : p.Expands names n offset obj) (h' : p.Expands names m offset obj') : n = m ∧ obj = obj' := by
  induction n generalizing offset obj m obj' with
  | zero =>
    rcases h.twice h' with ⟨-,hm,hobj⟩ | ⟨k,-,-,-,-,-,-,hk,-⟩
    · exact ⟨hm.symm,hobj⟩
    · exact absurd hk (Nat.succ_ne_zero k).symm
  | succ n ih =>
    rcases h.twice h' with ⟨hn,-⟩ | ⟨k,l,base,base',delta,start,start',hk,hl,hbase,hbase',hstart,hobj,hobj'⟩
    · exact absurd hn (Nat.succ_ne_zero n)
    · obtain rfl : n = k := Nat.succ.inj hk
      obtain rfl : start = start' := hstart.elim id fun ⟨oid,hname,hname'⟩ => hdet oid _ _ _ _ hname hname'
      obtain ⟨rfl,rfl⟩ := ih hbase hbase'
      exact ⟨hl.symm,Except.ok.inj (hobj.symm.trans hobj')⟩

/-- Every length up to `n` occurs on the way. -/
theorem Expands.exists_shorter (h : p.Expands names n offset obj) {k : ℕ} (hk : k ≤ n) :
    ∃ offset obj, p.Expands names k offset obj := by
  induction h with
  | whole hat =>
    obtain rfl : k = 0 := by omega
    exact ⟨_,_,.whole hat⟩
  | @ofs n _ _ _ _ _ hat hle hbase hobj ih =>
    rcases Nat.lt_or_eq_of_le hk with hlt | rfl
    · exact ih (by omega)
    · exact ⟨_,_,.ofs hat hle hbase hobj⟩
  | @ref n _ _ _ _ _ _ hat hname hbase hobj ih =>
    rcases Nat.lt_or_eq_of_le hk with hlt | rfl
    · exact ih (by omega)
    · exact ⟨_,_,.ref hat hname hbase hobj⟩

/-- The chain visits no offset twice. -/
theorem Expands.chain_lt (hdet : ∀ oid o o' b b', names oid o b → names oid o' b' → o = o')
    (h : p.Expands names n offset obj) : n < p.bytes.length := by
  have hall (k : Fin (n+1)) : ∃ offset, ∃ obj, p.Expands names k offset obj := h.exists_shorter (by omega)
  choose at' hat using hall
  have hlt (k : Fin (n+1)) : at' k < p.bytes.length := by
    obtain ⟨_,hk⟩ := hat k
    exact hk.lt
  have hinj : Function.Injective fun k => (⟨at' k,hlt k⟩ : Fin p.bytes.length) := by
    intro k l hkl
    obtain ⟨_,hk⟩ := hat k
    obtain ⟨_,hl⟩ := hat l
    have heq : at' k = at' l := congrArg Fin.val hkl
    rw [heq] at hk
    exact Fin.ext (hk.unique hdet hl).1
  simpa using Fintype.card_le_of_injective _ hinj

end PackFile

end Packfile
end Libbit
