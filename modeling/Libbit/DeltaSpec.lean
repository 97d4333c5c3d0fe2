import Libbit.PackSpec

/-! How git writes a delta, and what is read of bytes that nobody has checked. A length that a `Vec` or a slice
can have is below `2^63`. -/
namespace Libbit
namespace Packfile

open Lib Lib.Reader
open IndexFile (Parser assertThat)

/-! ### The text of a delta -/

/-- The numerals of a group of seven bits share this one instance. -/
instance instNeZeroGroup : NeZero 128 := ⟨by decide⟩

/-- A number in groups of seven bits. -/
def SizeField (n : ℕ) (text : Bytes) : Prop :=
  ∃ gs : List (Fin 128), gs ≠ [] ∧ text = groupsText gs ∧ n = groupsValue 0 gs

/-- As git writes it, with no group that says nothing at the end. -/
def SizeText (n : ℕ) (text : Bytes) : Prop :=
  ∃ (gs : List (Fin 128)) (last : Fin 128), (gs ≠ [] → last ≠ 0) ∧ text = groupsText (gs++[last]) ∧
    n = groupsValue 0 (gs++[last])

def littleEndian : Bytes → ℕ
  | [] => 0
  | b::bs => b.val+256*littleEndian bs

/-- Bit `i` of the header says that the operand `i` is written. It may be left out if it is zero. -/
inductive Operands (header : ℕ) : ℕ → Bytes → Bytes → Prop
  | nil {i : ℕ} : Operands header i [] []
  | written {i : ℕ} {b : Byte} {bs text : Bytes} (hbit : header.testBit i) (hrest : Operands header (i+1) bs text) :
      Operands header i (b::bs) (b::text)
  | omitted {i : ℕ} {bs text : Bytes} (hbit : ¬header.testBit i) (hrest : Operands header (i+1) bs text) :
      Operands header i (0::bs) text

inductive OpText : DeltaOp → Bytes → Prop
  /-- Four bytes of the offset and three of the size, where no size is 64 KiB. -/
  | copy {header : Byte} {offset size text : Bytes} (hheader : continues header) (hoffset : offset.length = 4)
      (hsize : size.length = 3) (htext : Operands header.val 0 (offset++size) text) :
      OpText (.Copy (littleEndian offset) (if littleEndian size = 0 then 0x10000 else littleEndian size)) (header::text)
  | insert {bytes : Bytes} (hpos : 0 < bytes.length) (hlen : bytes.length < 0x80) :
      OpText (.Insert bytes) (Fin.ofNat 256 bytes.length::bytes)

inductive OpsText : List DeltaOp → Bytes → Prop
  | nil : OpsText [] []
  | cons {op : DeltaOp} {ops : List DeltaOp} {text rest : Bytes} (htext : OpText op text) (hrest : OpsText ops rest) :
      OpsText (op::ops) (text++rest)

structure DeltaText (source target : ℕ) (ops : List DeltaOp) (text : Bytes) : Prop where
  exists_parts : ∃ sourceText targetText opsText, SizeText source sourceText ∧ SizeText target targetText ∧
    OpsText ops opsText ∧ text = sourceText++(targetText++opsText)

/-! ### Sizes -/

@[simp] theorem readU8_nil : readU8.run [] = .error .unexpectedEof := rfl
@[simp] theorem readU8_cons (b : Byte) (bs : Bytes) : readU8.run (b::bs) = .ok (b,bs) := rfl

@[simp] theorem readSize_nil : readSize.run [] = .error .unexpectedEof := rfl

/-- The first byte of a number is read by itself. -/
theorem readLeVarintWithShift_cons {initShift : ℕ} (h : initShift < 8) (b : Byte) (bs : Bytes) :
    (readLeVarintWithShift initShift).run (b::bs) =
      if continues b then readVarintFrom (b.val%2^(7-initShift)) (7-initShift) bs >>= fun r =>
        .ok ((b.val/2^(7-initShift)%2^initShift,r.1),r.2)
      else .ok ((b.val/2^(7-initShift)%2^initShift,b.val%2^(7-initShift)),bs) := by
  have hrun : (readLeVarintWithShift initShift).run (b::bs) =
      (if continues b then (fun n => (b.val/2^(7-initShift)%2^initShift,n)) <$>
          readVarintFrom (b.val%2^(7-initShift)) (7-initShift)
        else pure (b.val/2^(7-initShift)%2^initShift,b.val%2^(7-initShift)) : Parser (ℕ × ℕ)).run bs := by
    simp [readLeVarintWithShift,assertThat,require,h]
    rfl
  rw [hrun]
  by_cases hb : continues b
  · rw [if_pos hb,if_pos hb,StateT.run_map]
    change _ <$> readVarintFrom (b.val%2^(7-initShift)) (7-initShift) bs = _
    cases readVarintFrom (b.val%2^(7-initShift)) (7-initShift) bs <;> rfl
  · rw [if_neg hb,if_neg hb]
    rfl

theorem readSize_cons (b : Byte) (bs : Bytes) : readSize.run (b::bs) =
    if continues b then readVarintFrom (low7 b) 7 bs else .ok (low7 b,bs) := by
  rw [readSize,StateT.run_map,readLeVarintWithShift_cons (by decide)]
  by_cases hb : continues b
  · rw [if_pos hb,if_pos hb]
    change _ <$> (readVarintFrom (low7 b) 7 bs >>= _) = _
    cases readVarintFrom (low7 b) 7 bs <;> rfl
  · rw [if_neg hb,if_neg hb]
    rfl

theorem SizeField.decodes {gs : List (Fin 128)} (hne : gs ≠ []) (hlen : gs.length ≤ 10) :
    Decodes readSize (groupsText gs) (groupsValue 0 gs%2^64) := by
  intro rest
  cases gs with
  | nil => exact absurd rfl hne
  | cons g gs =>
    cases gs with
    | nil =>
      have hsmall : groupsValue 0 [g] = g.val := by simp [groupsValue]
      rw [groupsText,List.singleton_append,readSize_cons,if_neg (not_continues_last g),low7_last,hsmall,
        Nat.mod_eq_of_lt (by omega)]
      rfl
    | cons g' gs =>
      rw [groupsText_cons,List.cons_append,readSize_cons,if_pos (continues_more g),low7_more]
      simp only [List.length_cons] at hlen
      have hlow : g.val < 2^7 := g.isLt
      have hrest := readVarintFrom_decodes (List.cons_ne_nil g' gs) hlow (by simp only [List.length_cons]; omega) rest
      rw [groupsValue,pow_zero,Nat.mul_one]
      exact hrest

/-! ### Instructions -/

theorem two_pow_byte (i : ℕ) : 2^((i+1)*8) = 256*2^(i*8) := by
  rw [Nat.add_mul,pow_add,Nat.mul_comm]
  norm_num

theorem littleEndian_lt (bs : Bytes) : littleEndian bs < 2^(bs.length*8) := by
  induction bs with
  | nil => decide
  | cons b bs ih =>
    have hb := b.isLt
    rw [littleEndian,List.length_cons,two_pow_byte]
    omega

theorem littleEndian_append (bs cs : Bytes) : littleEndian (bs++cs) = littleEndian bs+2^(bs.length*8)*littleEndian cs := by
  induction bs with
  | nil => simp [littleEndian]
  | cons b bs ih =>
    rw [List.cons_append,littleEndian,littleEndian,ih,List.length_cons,Nat.add_mul,pow_add]
    ring

/-- One round of the loop of `read_le_packed`. -/
def readOperand (header : Byte) (value i : ℕ) : Parser ℕ :=
  if header.val.testBit i then do
    let byte ← readU8
    pure (value ||| byte.val*2^(i*8))
  else pure value

theorem readLePacked_eq (header : Byte) : readLePacked header =
    (do assertThat "header & 1 << 7 != 0" (continues header); (List.range' 0 7).foldlM (readOperand header) 0) := rfl

theorem readOperand_written {header : Byte} {value i : ℕ} (hvalue : value < 2^(i*8)) (hbit : header.val.testBit i) (b : Byte) :
    Decodes (readOperand header value i) [b] (value+b.val*2^(i*8)) := by
  unfold readOperand
  rw [if_pos hbit,Nat.add_comm,Nat.mul_comm b.val,Nat.two_pow_add_eq_or_of_lt hvalue,Nat.mul_comm _ b.val,Nat.lor_comm]
  exact (readU8_decodes b).bindPure (Decodes.pure _)

theorem readOperand_omitted {header : Byte} {i : ℕ} (hbit : ¬header.val.testBit i) (value : ℕ) :
    Decodes (readOperand header value i) [] value := by
  unfold readOperand
  rw [if_neg hbit]
  exact Decodes.pure value

/-- The bytes before `i` are those of the value so far. -/
theorem Operands.decodes {header : Byte} {i : ℕ} {bs text : Bytes} (h : Operands header.val i bs text) {value : ℕ}
    (hvalue : value < 2^(i*8)) :
    Decodes ((List.range' i bs.length).foldlM (readOperand header) value) text (value+littleEndian bs*2^(i*8)) := by
  induction h generalizing value with
  | nil =>
    rw [littleEndian,Nat.zero_mul]
    exact Decodes.pure value
  | @written i b bs text hbit hrest ih =>
    have hpow := two_pow_byte i
    have hnext : value+b.val*2^(i*8) < 2^((i+1)*8) := by
      have hb : b.val*2^(i*8) ≤ 255*2^(i*8) := Nat.mul_le_mul_right _ (by omega)
      omega
    have hsum : value+littleEndian (b::bs)*2^(i*8) = value+b.val*2^(i*8)+littleEndian bs*2^((i+1)*8) := by
      rw [littleEndian,hpow]
      ring
    rw [List.length_cons,List.range'_succ,List.foldlM_cons,hsum]
    exact (readOperand_written hvalue hbit b).bind (ih hnext)
  | @omitted i bs text hbit hrest ih =>
    have hpow := two_pow_byte i
    have hsum : value+littleEndian (0::bs)*2^(i*8) = value+littleEndian bs*2^((i+1)*8) := by
      rw [littleEndian,hpow]
      simp only [Fin.val_zero]
      ring
    rw [List.length_cons,List.range'_succ,List.foldlM_cons,hsum]
    exact (readOperand_omitted hbit value).andThen (ih (by omega))

/-- The highest byte of what `read_le_packed` returns. -/
theorem and_highest {n : ℕ} (h : n < 2^56) : n &&& (0xFF*2^56) = 0 := by
  apply Nat.eq_of_testBit_eq
  intro j
  rw [Nat.testBit_and,Nat.zero_testBit,Nat.testBit_mul_two_pow]
  by_cases hj : 56 ≤ j
  · rw [Nat.testBit_lt_two_pow (h.trans_le (Nat.pow_le_pow_right (by omega) hj)),Bool.false_and]
  · rw [decide_eq_false hj,Bool.false_and,Bool.and_false]

theorem OpText.decodes {op : DeltaOp} {text : Bytes} (h : OpText op text) : Decodes DeltaOp.deserialize text op := by
  cases h with
  | @copy header offset size text hheader hoffset hsize htext =>
    have hlen : (offset++size).length = 7 := by rw [List.length_append,hoffset,hsize]
    have hoffset_lt : littleEndian offset < 2^32 := by simpa [hoffset] using littleEndian_lt offset
    have hsize_lt : littleEndian size < 2^24 := by simpa [hsize] using littleEndian_lt size
    have hn : littleEndian (offset++size) = littleEndian offset+2^32*littleEndian size := by
      rw [littleEndian_append,hoffset]
    have hpacked : Decodes (readLePacked header) text (littleEndian (offset++size)) := by
      have hloop := htext.decodes (Nat.two_pow_pos (0*8))
      rw [hlen,Nat.zero_add,Nat.zero_mul,pow_zero,Nat.mul_one] at hloop
      rw [readLePacked_eq]
      exact (Decodes.require hheader).andThen hloop
    have hbyte : Decodes readU8 [header] header := readU8_decodes header
    refine hbyte.bind ?_
    rw [if_pos hheader]
    refine hpacked.bindPure ((Decodes.require ?_).andThen ?_)
    · exact and_highest (by omega)
    · have hlow : littleEndian (offset++size)%2^32 = littleEndian offset := by omega
      have hhigh : littleEndian (offset++size)/2^32 = littleEndian size := by omega
      rw [hlow,hhigh]
      exact Decodes.pure _
  | @insert bytes hpos hlen =>
    have hval : (Fin.ofNat 256 bytes.length).val = bytes.length := Nat.mod_eq_of_lt (by omega)
    have hbyte : Decodes readU8 [Fin.ofNat 256 bytes.length] _ := readU8_decodes _
    refine hbyte.bind ?_
    rw [if_neg (by rw [continues,hval]; omega)]
    refine (Decodes.require ?_).andThen ?_
    · rw [ne_eq,Fin.ext_iff,hval]
      exact Nat.ne_of_gt hpos
    · rw [hval,Nat.mod_eq_of_lt hlen]
      refine Decodes.bindPure (fun rest => ?_) (Decodes.pure _)
      simp [readUpTo,StateT.run,Except.map]

theorem OpText.ne_nil {op : DeltaOp} {text : Bytes} (h : OpText op text) : text ≠ [] := by
  cases h <;> simp

/-- The instructions that are written come first in what is read. -/
theorem OpsText.readDeltaOps {ops : List DeltaOp} {text : Bytes} (h : OpsText ops text) (fuel : ℕ) (rest : Bytes)
    (hfuel : (text++rest).length ≤ fuel) : ∃ fuel', rest.length ≤ fuel' ∧ (readDeltaOps fuel).run (text++rest) =
      (readDeltaOps fuel').run rest >>= fun r => .ok (ops++r.1,r.2) := by
  induction h generalizing fuel with
  | nil =>
    refine ⟨fuel,hfuel,?_⟩
    rw [List.nil_append]
    cases (Packfile.readDeltaOps fuel).run rest <;> rfl
  | @cons op ops text rest' htext _ ih =>
    obtain ⟨b,bs,rfl⟩ := List.exists_cons_of_ne_nil htext.ne_nil
    cases fuel with
    | zero => simp at hfuel
    | succ fuel =>
      obtain ⟨fuel',hfuel',hrun⟩ := ih fuel (by simp only [List.length_append,List.length_cons] at hfuel ⊢; omega)
      have hround : (Packfile.readDeltaOps (fuel+1)).run (b::bs++rest'++rest) =
          (do let op ← DeltaOp.deserialize; let ops ← Packfile.readDeltaOps fuel; pure (op::ops) : Parser _).run
            (b::bs++(rest'++rest)) := by
        rw [List.append_assoc]
        rfl
      refine ⟨fuel',hfuel',?_⟩
      rw [hround,StateT.run_bind,htext.decodes.run]
      change (Packfile.readDeltaOps fuel).run (rest'++rest) >>= _ = _
      rw [hrun]
      cases (Packfile.readDeltaOps fuel').run rest <;> rfl

theorem OpsText.readDeltaOps_eq {ops : List DeltaOp} {text : Bytes} (h : OpsText ops text) :
    (Packfile.readDeltaOps text.length).run text = .ok (ops,[]) := by
  obtain ⟨fuel',-,hrun⟩ := h.readDeltaOps text.length [] (by simp)
  rw [List.append_nil] at hrun
  rw [hrun]
  cases fuel' <;> simp [Packfile.readDeltaOps,StateT.run,bind,Except.bind]

theorem groupsValue_append (shift : ℕ) (gs : List (Fin 128)) (g : Fin 128) :
    groupsValue shift (gs++[g]) = groupsValue shift gs+g.val*2^(shift+7*gs.length) := by
  induction gs generalizing shift with
  | nil => simp [groupsValue]
  | cons g' gs ih =>
    have hshift : shift+7+7*gs.length = shift+7*(g'::gs).length := by
      rw [List.length_cons]
      ring
    rw [List.cons_append,groupsValue,groupsValue,ih,hshift,Nat.add_assoc]

theorem SizeText.decodes {n : ℕ} {text : Bytes} (h : SizeText n text) (hn : n < 2^64) : Decodes readSize text n := by
  obtain ⟨gs,last,hlast,rfl,rfl⟩ := h
  have hlen : (gs++[last]).length ≤ 10 := by
    by_contra hlong
    have hne : gs ≠ [] := by
      rintro rfl
      simp at hlong
    have hpos : 1 ≤ last.val := Nat.one_le_iff_ne_zero.mpr fun h0 => hlast hne (Fin.ext h0)
    rw [List.length_append,List.length_singleton] at hlong
    have hle : 2^64 ≤ groupsValue 0 (gs++[last]) :=
      calc 2^64 ≤ 2^(0+7*gs.length) := Nat.pow_le_pow_right (by omega) (by omega)
        _ ≤ last.val*2^(0+7*gs.length) := Nat.le_mul_of_pos_left _ hpos
        _ ≤ groupsValue 0 (gs++[last]) := by rw [groupsValue_append]; exact Nat.le_add_left _ _
    omega
  have hread := SizeField.decodes (List.concat_ne_nil last gs) hlen
  rw [Nat.mod_eq_of_lt hn] at hread
  exact hread

/-! ### What is read of the text of a delta -/

theorem Delta.deserialize_eq (bytes : Bytes) : Delta.deserialize bytes = (do
    let (sourceSize,bytes) ← readSize.run bytes
    let (targetSize,bytes) ← readSize.run bytes
    let (ops,_) ← (readDeltaOps bytes.length).run bytes
    pure ⟨sourceSize,targetSize,ops⟩) := by
  unfold Delta.deserialize Delta.parser
  rw [StateT.run_bind]
  cases readSize.run bytes with
  | error e => rfl
  | ok r =>
    obtain ⟨sourceSize,rest⟩ := r
    change Except.map Prod.fst (readSize.run rest >>= _) = (readSize.run rest >>= _)
    cases readSize.run rest with
    | error e => rfl
    | ok r =>
      obtain ⟨targetSize,rest⟩ := r
      change Except.map Prod.fst ((readDeltaOps rest.length).run rest >>= _) = ((readDeltaOps rest.length).run rest >>= _)
      cases (readDeltaOps rest.length).run rest <;> rfl

theorem DeltaText.deserialize {source target : ℕ} {ops : List DeltaOp} {text : Bytes} (h : DeltaText source target ops text)
    (hsource : source < 2^64) (htarget : target < 2^64) : Delta.deserialize text = .ok ⟨source,target,ops⟩ := by
  obtain ⟨sourceText,targetText,opsText,hs,ht,hops,rfl⟩ := h.exists_parts
  rw [Delta.deserialize_eq,(hs.decodes hsource).run]
  change (readSize.run (targetText++opsText) >>= _) = _
  rw [(ht.decodes htarget).run]
  change ((readDeltaOps opsText.length).run opsText >>= _) = _
  rw [hops.readDeltaOps_eq]
  rfl

namespace DeltaOp

/-- What the instruction adds to the target. -/
def selected (base : Bytes) : DeltaOp → Bytes
  | .Copy offset size => (base.drop offset).take size
  | .Insert bytes => bytes

def Within (base : Bytes) : DeltaOp → Prop
  | .Copy offset size => offset+size ≤ base.length
  | .Insert _ => True

instance (base : Bytes) (op : DeltaOp) : Decidable (op.Within base) := by
  cases op
  · exact inferInstanceAs (Decidable (_ ≤ _))
  · exact inferInstanceAs (Decidable True)

/-- The instructions of git for a base. -/
def Encodable (base : Bytes) : DeltaOp → Prop
  | .Copy offset size => offset < 2^32 ∧ 1 ≤ size ∧ size < 2^24 ∧ offset+size ≤ base.length
  | .Insert bytes => 1 ≤ bytes.length ∧ bytes.length ≤ 127

theorem Encodable.within {base : Bytes} {op : DeltaOp} (h : op.Encodable base) : op.Within base := by
  cases op with
  | Copy offset size => exact h.2.2.2
  | Insert bytes => trivial

theorem slice_within {base : Bytes} {op : DeltaOp} (h : op.Within base) : Delta.slice base op = .ok (op.selected base) := by
  cases op with
  | Copy offset size => exact if_pos h
  | Insert bytes => rfl

theorem slice_outside {base : Bytes} {op : DeltaOp} (h : ¬op.Within base) : ∃ m, Delta.slice base op = .error (.panic m) := by
  cases op with
  | Copy offset size => exact ⟨_,if_neg h⟩
  | Insert bytes => exact absurd trivial h

end DeltaOp

/-- What the instructions make of the base. -/
def target (base : Bytes) (ops : List DeltaOp) : Bytes := ops.flatMap (DeltaOp.selected base)

theorem mapM_slice {base : Bytes} {ops : List DeltaOp} (h : ∀ op ∈ ops, op.Within base) :
    ops.mapM (Delta.slice base) = .ok (ops.map (DeltaOp.selected base)) := by
  induction ops with
  | nil => rfl
  | cons op ops ih =>
    rw [List.mapM_cons,DeltaOp.slice_within (h op List.mem_cons_self),ih fun o ho => h o (List.mem_cons_of_mem op ho)]
    rfl

theorem Delta.expand_ok {base : Bytes} {d : Delta} (hsource : d.sourceSize = base.length)
    (hsmall : d.targetSize < 2^63) (hwithin : ∀ op ∈ d.ops, op.Within base) :
    d.expand base = if d.targetSize = (target base d.ops).length then .ok (target base d.ops)
      else .error (.bail ("expected target size to be `"++toString d.targetSize++
        "`, but got expanded target with size `"++toString (target base d.ops).length++"`")) := by
  have hflatten : (d.ops.map (DeltaOp.selected base)).flatten = target base d.ops := List.flatMap_def.symm
  rw [Delta.expand,ensure,if_pos hsource,ensure,if_pos hsmall,mapM_slice hwithin]
  change (ensure _ (d.targetSize = (d.ops.map (DeltaOp.selected base)).flatten.length) >>= fun _ => pure _) = _
  rw [hflatten,ensure]
  by_cases hsize : d.targetSize = (target base d.ops).length
  · rw [if_pos hsize,if_pos hsize]
    rfl
  · rw [if_neg hsize,if_neg hsize]
    rfl

theorem expand_overflow {base : Bytes} {d : Delta} (hsource : d.sourceSize = base.length) (hlarge : ¬d.targetSize < 2^63) :
    d.expand base = .error (.panic "capacity overflow") := by
  rw [Delta.expand,ensure,if_pos hsource,ensure,if_neg hlarge]
  rfl

theorem OpsText.replicate {op : DeltaOp} {text : Bytes} (h : OpText op text) (n : ℕ) :
    OpsText (List.replicate n op) ((List.replicate n text).flatten) := by
  induction n with
  | zero => exact .nil
  | succ n ih => exact .cons h ih

theorem length_target_replicate (base : Bytes) (n : ℕ) :
    (target base (List.replicate n (.Copy 0 base.length))).length = n*base.length := by
  induction n with
  | zero => simp [target]
  | succ n ih =>
    rw [target] at ih ⊢
    rw [List.replicate_succ,List.flatMap_cons,List.length_append,ih,DeltaOp.selected,List.drop_zero,List.take_length]
    ring

end Packfile
end Libbit
