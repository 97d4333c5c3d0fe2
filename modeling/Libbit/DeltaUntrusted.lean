import Libbit.DeltaSpec

/-! What becomes of any bytes that are given as a delta: which of them make the decoder panic, and what is read of
the others. -/
namespace Libbit
namespace Packfile

open Lib Lib.Reader
open IndexFile (Parser assertThat)

/-- The error is one that the code returns. -/
def Returned : IndexFile.Error → Prop
  | .panic _ => False
  | .outOfFuel => False
  | _ => True

/-- Ten bytes go on, and there is one more. -/
def Overlong (bs : Bytes) : Prop := ∃ ten b rest, bs = ten++b::rest ∧ ten.length = 10 ∧ ∀ c ∈ ten, continues c

/-- Nothing, or an instruction that promises more bytes than there are. -/
inductive LastInsert : List DeltaOp → Bytes → Prop
  | none : LastInsert [] []
  | short {n : ℕ} {bytes : Bytes} (hlen : bytes.length < n) (hn : n < 0x80) :
      LastInsert [.Insert bytes] (Fin.ofNat 256 n::bytes)

/-- Two sizes come first. -/
structure Sizes (source target : ℕ) (delta rest : Bytes) : Prop where
  exists_fields : ∃ s t, SizeField source s ∧ SizeField target t ∧ delta = s++(t++rest)

/-- All of the delta is read. -/
structure Reads (delta : Bytes) (source target : ℕ) (ops : List DeltaOp) : Prop where
  exists_parts : ∃ whole wholeText last lastText, Sizes source target delta (wholeText++lastText) ∧
    OpsText whole wholeText ∧ LastInsert last lastText ∧ ops = whole++last

/-- The delta does no harm to the base. -/
structure Safe (base delta : Bytes) : Prop where
  source : ¬Overlong delta
  target : ∀ n text rest, SizeField n text → delta = text++rest → ¬Overlong rest
  reserved : ∀ source target ops text rest, OpsText ops text → ¬Sizes source target delta (text++0::rest)
  applies : ∀ source target ops, Reads delta source target ops → source%2^64 = base.length →
    target%2^64 < 2^63 ∧ (∀ op ∈ ops, op.Within base) ∧
      ((Packfile.target base ops).length = target%2^64 → source < 2^64 ∧ target < 2^64)

/-- What the expansion of a delta should come to. -/
def ExpandsSafely (raw : BitPackObjRaw) (delta : Bytes) : Prop :=
  match raw.expandWithDeltaBytes delta with
  | .ok obj => ∃ rest, Sizes raw.bytes.length obj.bytes.length delta rest
  | .error e => Returned e

/-! ### Sizes -/

theorem exists_group {b : Byte} : (continues b ∧ ∃ g : Fin 128, b = Fin.ofNat 256 (0x80+g.val)) ∨
    (¬continues b ∧ ∃ g : Fin 128, b = Fin.ofNat 256 g.val) := by
  have hb := b.isLt
  by_cases h : continues b
  · refine .inl ⟨h,⟨b.val-0x80,by omega⟩,Fin.ext ?_⟩
    have hle : 0x80 ≤ b.val := h
    rw [Fin.val_ofNat]
    simp only
    omega
  · refine .inr ⟨h,⟨b.val,not_le.mp h⟩,Fin.ext ?_⟩
    rw [Fin.val_ofNat]
    simp only
    omega

theorem groupsText_inj {gs gs' : List (Fin 128)} {rest rest' : Bytes} (hne : gs ≠ []) (hne' : gs' ≠ [])
    (h : groupsText gs++rest = groupsText gs'++rest') : gs = gs' ∧ rest = rest' := by
  induction gs generalizing gs' with
  | nil => exact absurd rfl hne
  | cons g gs ih =>
    obtain ⟨g',gs',rfl⟩ := List.exists_cons_of_ne_nil hne'
    cases gs with
    | nil =>
      cases gs' with
      | nil =>
        simp only [groupsText,List.cons_append,List.nil_append,List.cons.injEq] at h
        have hg := congrArg low7 h.1
        rw [low7_last,low7_last] at hg
        exact ⟨by rw [Fin.ext hg],h.2⟩
      | cons h' gs' =>
        rw [groupsText_cons,groupsText,List.cons_append,List.cons_append,List.cons.injEq] at h
        exact absurd (h.1 ▸ continues_more g') (not_continues_last g)
    | cons k gs =>
      cases gs' with
      | nil =>
        rw [groupsText_cons,groupsText,List.cons_append,List.cons_append,List.cons.injEq] at h
        exact absurd (h.1.symm ▸ continues_more g) (not_continues_last g')
      | cons k' gs' =>
        rw [groupsText_cons,groupsText_cons,List.cons_append,List.cons_append,List.cons.injEq] at h
        have hg := congrArg low7 h.1
        rw [low7_more,low7_more] at hg
        obtain ⟨hgs,hrest⟩ := ih (List.cons_ne_nil k gs) (List.cons_ne_nil k' gs') h.2
        exact ⟨by rw [Fin.ext hg,hgs],hrest⟩

/-- A number is found in one way only. -/
theorem SizeField.unique {n n' : ℕ} {text text' rest rest' : Bytes} (h : SizeField n text) (h' : SizeField n' text')
    (heq : text++rest = text'++rest') : n = n' ∧ rest = rest' := by
  obtain ⟨gs,hne,rfl,rfl⟩ := h
  obtain ⟨gs',hne',rfl,rfl⟩ := h'
  obtain ⟨rfl,hrest⟩ := groupsText_inj hne hne' heq
  exact ⟨rfl,hrest⟩

theorem Sizes.unique {source target source' target' : ℕ} {delta rest rest' : Bytes} (h : Sizes source target delta rest)
    (h' : Sizes source' target' delta rest') : source = source' ∧ target = target' := by
  obtain ⟨s,t,hs,ht,rfl⟩ := h.exists_fields
  obtain ⟨s',t',hs',ht',heq⟩ := h'.exists_fields
  obtain ⟨hsource,heq⟩ := hs.unique hs' heq
  exact ⟨hsource,(ht.unique ht' heq).1⟩

theorem groupsText_append (gs : List (Fin 128)) (g : Fin 128) (gs' : List (Fin 128)) :
    groupsText (gs++g::gs') = gs.map (fun g => Fin.ofNat 256 (0x80+g.val))++groupsText (g::gs') := by
  induction gs with
  | nil => rfl
  | cons h gs ih =>
    rw [List.map_cons,List.cons_append,List.cons_append,← ih]
    cases gs <;> rfl

theorem overlong_groupsText {gs : List (Fin 128)} (h : 10 < gs.length) (rest : Bytes) : Overlong (groupsText gs++rest) := by
  obtain ⟨g,gs',hdrop⟩ := List.exists_cons_of_ne_nil (List.ne_nil_of_length_pos (by simpa using h) : gs.drop 10 ≠ [])
  obtain ⟨b,bs,hcons⟩ : ∃ b bs, groupsText (g::gs') = b::bs := by cases gs' <;> exact ⟨_,_,rfl⟩
  refine ⟨(gs.take 10).map fun g => Fin.ofNat 256 (0x80+g.val),b,bs++rest,?_,by simp [h.le],?_⟩
  · rw [← List.take_append_drop 10 gs,hdrop,groupsText_append,hcons,← hdrop,List.take_append_drop,List.append_assoc]
    rfl
  · intro c hc
    obtain ⟨g,-,rfl⟩ := List.mem_map.mp hc
    exact continues_more g

/-- `m` more bytes of the number fit 64 bits. -/
theorem readVarintFrom_overlong {m n shift : ℕ} (hshift : 64 ≤ shift+7*m) {more rest : Bytes} (hlen : more.length = m)
    (hmore : ∀ c ∈ more, continues c) (b : Byte) :
    readVarintFrom n shift (more++b::rest) = .error (.panic "attempt to shift left with overflow") := by
  induction more generalizing m n shift with
  | nil =>
    rw [List.length_nil] at hlen
    rw [List.nil_append,readVarintFrom,if_neg (by omega)]
  | cons c more ih =>
    rw [List.length_cons] at hlen
    rw [List.cons_append,readVarintFrom,if_pos (hmore c List.mem_cons_self)]
    rcases Nat.lt_or_ge shift 64 with hword | hword
    · rw [if_pos hword]
      exact ih (m := m-1) (by omega) (by omega) fun d hd => hmore d (List.mem_cons_of_mem c hd)
    · rw [if_neg (not_lt.mpr hword)]

theorem Overlong.panics {bs : Bytes} (h : Overlong bs) :
    readSize.run bs = .error (.panic "attempt to shift left with overflow") := by
  obtain ⟨ten,b,rest,rfl,hlen,hten⟩ := h
  obtain ⟨c,nine,rfl⟩ := List.exists_cons_of_length_eq_add_one hlen
  rw [List.cons_append,readSize_cons,if_pos (hten c List.mem_cons_self)]
  exact readVarintFrom_overlong (m := 9) (by norm_num) (by simpa using hlen) (fun d hd => hten d (List.mem_cons_of_mem c hd)) b

theorem readVarintFrom_cases (m n shift : ℕ) (hshift : shift+7*m ≤ 70) (bs : Bytes) :
    (∃ gs rest, gs ≠ [] ∧ gs.length ≤ m ∧ bs = groupsText gs++rest) ∨ readVarintFrom n shift bs = .error .unexpectedEof ∨
      ∃ more b rest, bs = more++b::rest ∧ more.length = m ∧ ∀ c ∈ more, continues c := by
  induction bs generalizing m n shift with
  | nil => exact .inr (.inl rfl)
  | cons b bs ih =>
    cases m with
    | zero => exact .inr (.inr ⟨[],b,bs,rfl,rfl,fun _ h => (nomatch h)⟩)
    | succ m =>
      rcases exists_group (b := b) with ⟨hb,g,rfl⟩ | ⟨hb,g,rfl⟩
      · rcases ih m (n ||| g.val*2^shift%2^64) (shift+7) (by omega) with
          ⟨gs,rest,hne,hlen,rfl⟩ | heof | ⟨more,c,rest,rfl,hlen,hmore⟩
        · obtain ⟨g',gs,rfl⟩ := List.exists_cons_of_ne_nil hne
          exact .inl ⟨g::g'::gs,rest,List.cons_ne_nil _ _,Nat.succ_le_succ hlen,rfl⟩
        · refine .inr (.inl ?_)
          rw [readVarintFrom,if_pos (by omega),if_pos hb,low7_more]
          exact heof
        · exact .inr (.inr ⟨_::more,c,rest,rfl,congrArg Nat.succ hlen,List.forall_mem_cons.mpr ⟨hb,hmore⟩⟩)
      · exact .inl ⟨[g],bs,List.cons_ne_nil _ _,Nat.succ_le_succ (Nat.zero_le m),rfl⟩

/-- A size is there, or the delta ends before, or it is too long. -/
theorem readSize_cases (bs : Bytes) : (∃ n text rest, SizeField n text ∧ bs = text++rest ∧
    readSize.run bs = .ok (n%2^64,rest)) ∨ readSize.run bs = .error .unexpectedEof ∨ Overlong bs := by
  have hfound {gs : List (Fin 128)} {rest : Bytes} (hne : gs ≠ []) (hlen : gs.length ≤ 10) (hbs : bs = groupsText gs++rest) :
      ∃ n text rest, SizeField n text ∧ bs = text++rest ∧ readSize.run bs = .ok (n%2^64,rest) :=
    ⟨_,_,rest,⟨gs,hne,rfl,rfl⟩,hbs,hbs ▸ (SizeField.decodes hne hlen).run rest⟩
  cases bs with
  | nil => exact .inr (.inl rfl)
  | cons b bs =>
    rcases exists_group (b := b) with ⟨hb,g,rfl⟩ | ⟨hb,g,rfl⟩
    · rcases readVarintFrom_cases 9 g.val 7 (by norm_num) bs with
        ⟨gs,rest,hne,hlen,rfl⟩ | heof | ⟨more,c,rest,rfl,hlen,hmore⟩
      · obtain ⟨g',gs,rfl⟩ := List.exists_cons_of_ne_nil hne
        exact .inl (hfound (List.cons_ne_nil g (g'::gs)) (Nat.succ_le_succ hlen) rfl)
      · refine .inr (.inl ?_)
        rw [readSize_cons,if_pos hb,low7_more]
        exact heof
      · exact .inr (.inr ⟨_::more,c,rest,rfl,congrArg Nat.succ hlen,List.forall_mem_cons.mpr ⟨hb,hmore⟩⟩)
    · exact .inl (hfound (List.cons_ne_nil g []) (Nat.succ_le_succ (Nat.zero_le 9)) rfl)

/-- What is read of a size that is there. -/
theorem SizeField.run {n : ℕ} {text rest : Bytes} (h : SizeField n text) (hlong : ¬Overlong (text++rest)) :
    readSize.run (text++rest) = .ok (n%2^64,rest) := by
  obtain ⟨gs,hne,rfl,rfl⟩ := h
  exact (SizeField.decodes hne (not_lt.mp fun hlen => hlong (overlong_groupsText hlen rest))).run rest

/-! ### Instructions -/

theorem operands_cases (header : Byte) (n i value : ℕ) (bs : Bytes) :
    (∃ operands text rest, operands.length = n ∧ Operands header.val i operands text ∧ bs = text++rest) ∨
      ((List.range' i n).foldlM (readOperand header) value).run bs = .error .unexpectedEof := by
  induction n generalizing i value bs with
  | zero => exact .inl ⟨[],[],bs,rfl,.nil,rfl⟩
  | succ n ih =>
    rw [List.range'_succ,List.foldlM_cons]
    by_cases hbit : header.val.testBit i
    · cases bs with
      | nil =>
        refine .inr ?_
        unfold readOperand
        rw [if_pos hbit]
        rfl
      | cons b bs =>
        rcases ih (i+1) (value ||| b.val*2^(i*8)) bs with ⟨operands,text,rest,hlen,htext,rfl⟩ | heof
        · exact .inl ⟨b::operands,b::text,rest,congrArg Nat.succ hlen,.written hbit htext,rfl⟩
        · refine .inr ?_
          rw [StateT.run_bind]
          unfold readOperand
          rw [if_pos hbit]
          exact heof
    · rcases ih (i+1) value bs with ⟨operands,text,rest,hlen,htext,rfl⟩ | heof
      · exact .inl ⟨0::operands,text,rest,congrArg Nat.succ hlen,.omitted hbit htext,rfl⟩
      · refine .inr ?_
        rw [StateT.run_bind]
        unfold readOperand
        rw [if_neg hbit]
        exact heof

theorem deserialize_copy {b : Byte} (hb : continues b) (bs : Bytes) :
    (∃ op text rest, OpText op text ∧ b::bs = text++rest) ∨ DeltaOp.deserialize.run (b::bs) = .error .unexpectedEof := by
  rcases operands_cases b 7 0 0 bs with ⟨operands,text,rest,hlen,htext,rfl⟩ | heof
  · rw [← List.take_append_drop 4 operands] at htext
    exact .inl ⟨_,b::text,rest,.copy hb (by simp [hlen]) (by simp [hlen]) htext,rfl⟩
  · refine .inr ?_
    have hpacked : (readLePacked b).run bs = .error .unexpectedEof := by
      rw [readLePacked_eq,StateT.run_bind]
      unfold assertThat require
      rw [if_pos hb]
      exact heof
    unfold DeltaOp.deserialize
    rw [StateT.run_bind,readU8_cons]
    change StateT.run (if continues b then _ else _ : Parser DeltaOp) bs = _
    rw [if_pos hb,StateT.run_bind,hpacked]
    rfl

theorem deserialize_reserved (bs : Bytes) :
    DeltaOp.deserialize.run (0::bs) = .error (.panic ("assertion failed: "++"byte != 0")) := rfl

theorem deserialize_short {n : ℕ} {bytes : Bytes} (hlen : bytes.length < n) (hn : n < 0x80) :
    DeltaOp.deserialize.run (Fin.ofNat 256 n::bytes) = .ok (.Insert bytes,[]) := by
  have hval : (Fin.ofNat 256 n).val = n := Nat.mod_eq_of_lt (by omega)
  have hne : Fin.ofNat 256 n ≠ 0 := fun h0 => by
    rw [Fin.ext_iff,hval] at h0
    exact Nat.ne_of_gt (Nat.zero_lt_of_lt hlen) h0
  unfold DeltaOp.deserialize
  rw [StateT.run_bind,readU8_cons]
  change StateT.run (if continues (Fin.ofNat 256 n) then _ else _ : Parser DeltaOp) bytes = _
  rw [if_neg (by rw [continues,hval]; omega),StateT.run_bind]
  unfold assertThat require
  rw [if_pos hne]
  change Except.ok (DeltaOp.Insert (bytes.take ((Fin.ofNat 256 n).val%0x80)),bytes.drop ((Fin.ofNat 256 n).val%0x80)) = _
  rw [hval,Nat.mod_eq_of_lt hn,List.take_of_length_le hlen.le,List.drop_eq_nil_of_le hlen.le]

theorem deserialize_cases (b : Byte) (bs : Bytes) : (∃ op text rest, OpText op text ∧ b::bs = text++rest) ∨
    (∃ ops, LastInsert ops (b::bs)) ∨ DeltaOp.deserialize.run (b::bs) = .error .unexpectedEof ∨ b = 0 := by
  by_cases hb : continues b
  · rcases deserialize_copy hb bs with hop | heof
    · exact .inl hop
    · exact .inr (.inr (.inl heof))
  · have hsmall : b.val < 0x80 := not_le.mp hb
    have hb' : b = Fin.ofNat 256 b.val := (Fin.cast_val_eq_self b).symm
    rcases Nat.eq_zero_or_pos b.val with h0 | hpos
    · exact .inr (.inr (.inr (Fin.ext h0)))
    · rcases Nat.lt_or_ge bs.length b.val with hlen | hlen
      · refine .inr (.inl ⟨[.Insert bs],?_⟩)
        rw [hb']
        exact .short hlen hsmall
      · have htake : (bs.take b.val).length = b.val := by simp [hlen]
        have htext : OpText (.Insert (bs.take b.val)) (b::bs.take b.val) := by
          have hop : OpText (.Insert (bs.take b.val)) (Fin.ofNat 256 (bs.take b.val).length::bs.take b.val) :=
            .insert (by omega) (by omega)
          rw [htake,← hb'] at hop
          exact hop
        exact .inl ⟨_,_,bs.drop b.val,htext,by rw [List.cons_append,List.take_append_drop]⟩

/-- All the instructions are read, or the last has an operand too few, or the reserved one comes up. -/
theorem readDeltaOps_cases {fuel : ℕ} {bs : Bytes} (hfuel : bs.length ≤ fuel) :
    (∃ whole wholeText last lastText, OpsText whole wholeText ∧ LastInsert last lastText ∧ bs = wholeText++lastText) ∨
      (readDeltaOps fuel).run bs = .error .unexpectedEof ∨ ∃ ops text rest, OpsText ops text ∧ bs = text++0::rest := by
  induction fuel generalizing bs with
  | zero =>
    obtain rfl := List.eq_nil_of_length_eq_zero (Nat.le_zero.mp hfuel)
    exact .inl ⟨[],[],[],[],.nil,.none,rfl⟩
  | succ fuel ih =>
    cases bs with
    | nil => exact .inl ⟨[],[],[],[],.nil,.none,rfl⟩
    | cons b bs =>
      have hround : (readDeltaOps (fuel+1)).run (b::bs) =
          (do let op ← DeltaOp.deserialize; let ops ← readDeltaOps fuel; pure (op::ops) : Parser _).run (b::bs) := rfl
      rcases deserialize_cases b bs with ⟨op,text,rest,htext,heq⟩ | ⟨ops,hlast⟩ | heof | rfl
      · have hlen : rest.length ≤ fuel := by
          have htotal := congrArg List.length heq
          have hpos := List.length_pos_iff.mpr htext.ne_nil
          rw [List.length_append,List.length_cons] at htotal
          rw [List.length_cons] at hfuel
          omega
        rcases ih hlen with ⟨whole,wholeText,last,lastText,hwhole,hlast,rfl⟩ | heof | ⟨ops,text',rest',hops,rfl⟩
        · exact .inl ⟨op::whole,text++wholeText,last,lastText,.cons htext hwhole,hlast,by rw [heq,List.append_assoc]⟩
        · refine .inr (.inl ?_)
          rw [hround,heq,StateT.run_bind,htext.decodes.run]
          change (readDeltaOps fuel).run rest >>= _ = _
          rw [heof]
          rfl
        · exact .inr (.inr ⟨op::ops,text++text',rest',.cons htext hops,by rw [heq,List.append_assoc]⟩)
      · exact .inl ⟨[],[],ops,b::bs,.nil,hlast,rfl⟩
      · refine .inr (.inl ?_)
        rw [hround,StateT.run_bind,heof]
        rfl
      · exact .inr (.inr ⟨[],[],bs,.nil,rfl⟩)

theorem LastInsert.readDeltaOps {ops : List DeltaOp} {text : Bytes} (h : LastInsert ops text) {fuel : ℕ}
    (hfuel : text.length ≤ fuel) : (readDeltaOps fuel).run text = .ok (ops,[]) := by
  cases h with
  | none => cases fuel <;> rfl
  | @short n bytes hlen hn =>
    cases fuel with
    | zero => cases hfuel
    | succ fuel =>
      change (do let op ← DeltaOp.deserialize; let ops ← Packfile.readDeltaOps fuel; pure (op::ops) : Parser _).run
        (Fin.ofNat 256 n::bytes) = _
      rw [StateT.run_bind,deserialize_short hlen hn]
      change (Packfile.readDeltaOps fuel).run [] >>= _ = _
      cases fuel <;> rfl

theorem Reads.exists_run {delta : Bytes} {source target : ℕ} {ops : List DeltaOp} (h : Reads delta source target ops) :
    ∃ rest, Sizes source target delta rest ∧ (readDeltaOps rest.length).run rest = .ok (ops,[]) := by
  obtain ⟨whole,wholeText,last,lastText,hsizes,hwhole,hlast,rfl⟩ := h.exists_parts
  refine ⟨_,hsizes,?_⟩
  obtain ⟨fuel',hfuel',hrun⟩ := hwhole.readDeltaOps _ lastText le_rfl
  rw [hrun,hlast.readDeltaOps hfuel']
  rfl

theorem OpsText.reserved {ops : List DeltaOp} {text : Bytes} (h : OpsText ops text) (rest : Bytes) :
    (Packfile.readDeltaOps (text++0::rest).length).run (text++0::rest) =
      .error (.panic ("assertion failed: "++"byte != 0")) := by
  obtain ⟨fuel',hfuel',hrun⟩ := h.readDeltaOps _ (0::rest) le_rfl
  cases fuel' with
  | zero => cases hfuel'
  | succ fuel' =>
    rw [hrun]
    change ((DeltaOp.deserialize >>= _ : Parser _).run (0::rest)) >>= _ = _
    rw [StateT.run_bind,deserialize_reserved]
    rfl

/-! ### The whole delta -/

/-- The sizes of the delta are read, and the instructions are left. -/
theorem Sizes.deserialize {source target : ℕ} {delta rest : Bytes} (h : Sizes source target delta rest)
    (hsource : ¬Overlong delta) (htarget : ∀ n text rest, SizeField n text → delta = text++rest → ¬Overlong rest) :
    Delta.deserialize delta =
      (readDeltaOps rest.length).run rest >>= fun r => .ok ⟨source%2^64,target%2^64,r.1⟩ := by
  obtain ⟨s,t,hs,ht,rfl⟩ := h.exists_fields
  rw [Delta.deserialize_eq,hs.run hsource]
  change readSize.run (t++rest) >>= _ = _
  rw [ht.run (htarget _ _ _ hs rfl)]
  rfl

theorem expandWithDeltaBytes_of_error {delta : Bytes} {e : IndexFile.Error} (h : Delta.deserialize delta = .error e)
    (raw : BitPackObjRaw) : raw.expandWithDeltaBytes delta = .error e := by
  rw [BitPackObjRaw.expandWithDeltaBytes,h]
  rfl

theorem expandWithDeltaBytes_of_ok {delta : Bytes} {d : Delta} (h : Delta.deserialize delta = .ok d) (raw : BitPackObjRaw) :
    raw.expandWithDeltaBytes delta = d.expand raw.bytes >>= fun bytes => .ok ⟨raw.objType,bytes⟩ := by
  rw [BitPackObjRaw.expandWithDeltaBytes,h]
  rfl

section ExpandsSafely
variable {raw : BitPackObjRaw} {delta : Bytes} {message : String}

theorem not_safely_of_panic (h : raw.expandWithDeltaBytes delta = .error (.panic message)) : ¬ExpandsSafely raw delta := by
  rw [ExpandsSafely,h]
  exact id

theorem safely_of_error {e : IndexFile.Error} (h : raw.expandWithDeltaBytes delta = .error e) (he : Returned e) :
    ExpandsSafely raw delta := by
  rw [ExpandsSafely,h]
  exact he

theorem safely_of_eof (h : Delta.deserialize delta = .error .unexpectedEof) : ExpandsSafely raw delta :=
  safely_of_error (expandWithDeltaBytes_of_error h raw) trivial

theorem mapM_slice_outside {base : Bytes} {ops : List DeltaOp} (h : ¬∀ op ∈ ops, op.Within base) :
    ∃ m, ops.mapM (Delta.slice base) = .error (.panic m) := by
  induction ops with
  | nil => exact absurd (fun _ h => (nomatch h)) h
  | cons op ops ih =>
    rw [List.mapM_cons]
    by_cases hop : op.Within base
    · obtain ⟨m,hm⟩ := ih fun hall => h (List.forall_mem_cons.mpr ⟨hop,hall⟩)
      rw [DeltaOp.slice_within hop,hm]
      exact ⟨m,rfl⟩
    · obtain ⟨m,hm⟩ := DeltaOp.slice_outside hop
      rw [hm]
      exact ⟨m,rfl⟩

theorem expand_outside {base : Bytes} {d : Delta} (hsource : d.sourceSize = base.length) (hsmall : d.targetSize < 2^63)
    (h : ¬∀ op ∈ d.ops, op.Within base) : ∃ m, d.expand base = .error (.panic m) := by
  obtain ⟨m,hm⟩ := mapM_slice_outside h
  rw [Delta.expand,ensure,if_pos hsource,ensure,if_pos hsmall,hm]
  exact ⟨m,rfl⟩

/-- Whatever the delta reads as is no harm. -/
theorem ExpandsSafely.applies (h : ExpandsSafely raw delta) {source target : ℕ} {ops : List DeltaOp}
    (hd : Delta.deserialize delta = .ok ⟨source%2^64,target%2^64,ops⟩) (hsizes : ∃ rest, Sizes source target delta rest)
    (hsource : source%2^64 = raw.bytes.length) : target%2^64 < 2^63 ∧ (∀ op ∈ ops, op.Within raw.bytes) ∧
      ((Packfile.target raw.bytes ops).length = target%2^64 → source < 2^64 ∧ target < 2^64) := by
  have hexpand := expandWithDeltaBytes_of_ok hd raw
  have hsmall : target%2^64 < 2^63 := by
    by_contra hlarge
    rw [expand_overflow hsource hlarge] at hexpand
    exact not_safely_of_panic hexpand h
  have hwithin : ∀ op ∈ ops, op.Within raw.bytes := by
    by_contra houtside
    obtain ⟨m,hm⟩ := expand_outside (d := ⟨source%2^64,target%2^64,ops⟩) hsource hsmall houtside
    rw [hm] at hexpand
    exact not_safely_of_panic hexpand h
  refine ⟨hsmall,hwithin,fun hlen => ?_⟩
  rw [Delta.expand_ok hsource hsmall hwithin,if_pos hlen.symm] at hexpand
  rw [ExpandsSafely,hexpand] at h
  obtain ⟨rest,hrest⟩ := h
  obtain ⟨rest',hrest'⟩ := hsizes
  obtain ⟨hsource',htarget'⟩ := hrest'.unique hrest
  change target = (Packfile.target raw.bytes ops).length at htarget'
  omega

theorem ExpandsSafely.safe (h : ExpandsSafely raw delta) : Safe raw.bytes delta := by
  have hsource : ¬Overlong delta := by
    intro hlong
    have hd : Delta.deserialize delta = .error (.panic "attempt to shift left with overflow") := by
      rw [Delta.deserialize_eq,hlong.panics]
      rfl
    exact not_safely_of_panic (expandWithDeltaBytes_of_error hd raw) h
  have htarget : ∀ n text rest, SizeField n text → delta = text++rest → ¬Overlong rest := by
    rintro n text rest hfield rfl hlong
    have hd : Delta.deserialize (text++rest) = .error (.panic "attempt to shift left with overflow") := by
      rw [Delta.deserialize_eq,hfield.run hsource]
      change readSize.run rest >>= _ = _
      rw [hlong.panics]
      rfl
    exact not_safely_of_panic (expandWithDeltaBytes_of_error hd raw) h
  refine ⟨hsource,htarget,fun source target ops text rest hops hsizes => ?_,fun source target ops hreads hlen => ?_⟩
  · have hd : Delta.deserialize delta = .error (.panic ("assertion failed: "++"byte != 0")) := by
      rw [hsizes.deserialize hsource htarget,hops.reserved]
      rfl
    exact not_safely_of_panic (expandWithDeltaBytes_of_error hd raw) h
  · obtain ⟨rest,hsizes,hrun⟩ := hreads.exists_run
    have hd := hsizes.deserialize hsource htarget
    rw [hrun] at hd
    exact h.applies hd ⟨rest,hsizes⟩ hlen

/-- The source has another size, or the delta is applied. -/
theorem Safe.expand (h : Safe raw.bytes delta) {source target : ℕ} {ops : List DeltaOp} (hreads : Reads delta source target ops) :
    ExpandsSafely raw delta := by
  obtain ⟨rest,hsizes,hrun⟩ := hreads.exists_run
  have hd := hsizes.deserialize h.source h.target
  rw [hrun] at hd
  have hexpand := expandWithDeltaBytes_of_ok hd raw
  by_cases hlen : source%2^64 = raw.bytes.length
  · obtain ⟨hsmall,hwithin,hfit⟩ := h.applies source target ops hreads hlen
    rw [Delta.expand_ok hlen hsmall hwithin] at hexpand
    by_cases htotal : target%2^64 = (Packfile.target raw.bytes ops).length
    · obtain ⟨hsource_lt,htarget_lt⟩ := hfit htotal.symm
      rw [if_pos htotal] at hexpand
      rw [Nat.mod_eq_of_lt hsource_lt] at hlen
      rw [Nat.mod_eq_of_lt htarget_lt] at htotal
      rw [ExpandsSafely,hexpand]
      refine ⟨rest,?_⟩
      rw [← hlen]
      change Sizes source (Packfile.target raw.bytes ops).length delta rest
      rw [← htotal]
      exact hsizes
    · rw [if_neg htotal] at hexpand
      exact safely_of_error hexpand trivial
  · rw [Delta.expand,ensure,if_neg hlen] at hexpand
    exact safely_of_error hexpand trivial

theorem Safe.expandsSafely (h : Safe raw.bytes delta) : ExpandsSafely raw delta := by
  rcases readSize_cases delta with ⟨source,s,rest,hs,rfl,hrun⟩ | heof | hlong
  · rcases readSize_cases rest with ⟨target,t,rest,ht,rfl,hrun'⟩ | heof | hlong
    · have hsizes : Sizes source target (s++(t++rest)) rest := ⟨s,t,hs,ht,rfl⟩
      rcases readDeltaOps_cases (le_refl rest.length) with
        ⟨whole,wholeText,last,lastText,hwhole,hlast,rfl⟩ | heof | ⟨ops,text,rest,hops,rfl⟩
      · exact h.expand ⟨whole,wholeText,last,lastText,hsizes,hwhole,hlast,rfl⟩
      · refine safely_of_eof ?_
        rw [hsizes.deserialize h.source h.target,heof]
        rfl
      · exact absurd hsizes (h.reserved source target ops text rest hops)
    · refine safely_of_eof ?_
      rw [Delta.deserialize_eq,hrun]
      change readSize.run rest >>= _ = _
      rw [heof]
      rfl
    · exact absurd hlong (h.target source s rest hs rfl)
  · refine safely_of_eof ?_
    rw [Delta.deserialize_eq,heof]
    rfl
  · exact absurd hlong h.source

end ExpandsSafely

end Packfile
end Libbit
