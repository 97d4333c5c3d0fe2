import Libbit.Protocol
import Libbit.IndexFileSpec

/-! What is written as packets is read as packets. A header has four digits, so that a packet may have less than
65536 bytes with its header. -/
namespace Libbit
namespace Protocol

open Lib Lib.Reader
open IndexFile (Error Parser isUtf8 utf8From)

variable {debug : Bool} {p stop : Bytes} {payloads : List Bytes}

/-! ### Headers -/

theorem isUtf8_of_ascii {bs : Bytes} (h : ∀ b ∈ bs, b.val < 0x80) : isUtf8 bs := by
  have hfrom : ∀ lo hi, utf8From 0 lo hi bs := by
    induction bs with
    | nil => exact fun _ _ => rfl
    | cons b bs ih =>
      intro lo hi
      rw [utf8From,if_pos (h b List.mem_cons_self)]
      exact ih (fun x hx => h x (List.mem_cons_of_mem b hx)) 0 0
  exact hfrom 0 0

theorem ascii_lengthHeader {n : ℕ} : ∀ b ∈ lengthHeader n, b.val < 0x80 := by
  intro b hb
  have hall : ∀ d < 16, (Radix.digitByte d).val < 0x80 := by decide
  rcases List.mem_append.mp hb with hb | hb
  · rw [List.eq_of_mem_replicate hb]
    decide
  · obtain ⟨d,hd,rfl⟩ := Radix.exists_of_mem_text (by decide) hb
    exact hall d hd

theorem length_lengthHeader {n : ℕ} : (lengthHeader n).length = 4 ↔ n < 2^16 := by
  have htext : (Radix.text 16 n).length ≤ 4 ↔ n < 16^4 := by
    rw [Radix.text,List.length_map]
    exact Nat.length_toDigits_le_iff (by decide) (by decide)
  rw [lengthHeader,List.length_leftpad]
  omega

theorem parse_lengthHeader {n : ℕ} (h : n < 2^16) :
    (Radix.parse 16 (lengthHeader n)).filter (· < 2^64) = some n := by
  have hparse : Radix.parse 16 (lengthHeader n) = some n := Radix.parse_padded (by decide) (by decide) _ n
  rw [hparse]
  exact Option.filter_some_pos (decide_eq_true (h.trans (by decide)))

/-! ### One packet -/

def packetText (p : Bytes) : Bytes := lengthHeader (4+p.length)++p

theorem packet_decodes (h : 4+p.length < 2^16) : Decodes recvPacket (packetText p) p := by
  refine (Decodes.readExact (length_lengthHeader.mpr h)).bind ?_
  refine (Decodes.require (isUtf8_of_ascii ascii_lengthHeader)).andThen <| (Decodes.orFail (parse_lengthHeader h)).andThen ?_
  rw [readContentsWithParsedLen,if_neg (by omega)]
  exact (Decodes.require (by omega)).andThen (Decodes.readExact (by omega))

theorem flush_decodes : Decodes recvPacket writeFlushPacket [] := by
  have hparse : (Radix.parse 16 writeFlushPacket).filter (· < 2^64) = some 0 := by decide
  refine (Decodes.readExact (show writeFlushPacket.length = 4 from rfl)).bindPure ?_
  exact (Decodes.require rfl).andThen <| (Decodes.orFail hparse).andThen (Decodes.pure [])

theorem writePacket_eq_ok {bytes : Bytes} :
    writePacket debug p = .ok bytes ↔ p.length < U16_MAX ∧ (debug = true → 4+p.length < 2^16) ∧ bytes = packetText p := by
  simp only [writePacket,except_bind_eq_ok,ensure_eq_ok,length_lengthHeader]
  constructor
  · rintro ⟨-,hlen,-,hheader,h⟩
    exact ⟨hlen,hheader,(Except.ok.inj h).symm⟩
  · rintro ⟨hlen,hheader,rfl⟩
    exact ⟨(),hlen,(),hheader,rfl⟩

/-- Five digits: the reader takes the first four for a header, and the fifth for the first byte of a packet
of 4092. -/
theorem large_packet (hlen : p.length < U16_MAX) (hlarge : 2^16 ≤ 4+p.length) (rest : Bytes) :
    ∃ d ∈ ([0x30,0x31,0x32] : Bytes), ∃ mid,
      recvPacket.run (packetText p++rest) = .ok ((d::(p++rest)).take 4092,mid) ∧ ((d::(p++rest)).take 4092).length = 4092 := by
  obtain ⟨d,hd,hheader⟩ : ∃ d ∈ ([0x30,0x31,0x32] : Bytes), lengthHeader (4+p.length) = [0x31,0x30,0x30,0x30]++[d] := by
    rw [U16_MAX] at hlen
    obtain h | h | h : 4+p.length = 65536 ∨ 4+p.length = 65537 ∨ 4+p.length = 65538 := by omega
    · exact ⟨0x30,by decide,by rw [h]; decide +kernel⟩
    · exact ⟨0x31,by decide,by rw [h]; decide +kernel⟩
    · exact ⟨0x32,by decide,by rw [h]; decide +kernel⟩
  have hlong : 4092 ≤ (d::(p++rest)).length := by
    rw [List.length_cons,List.length_append]
    omega
  have hsplit : packetText p++rest = [0x31,0x30,0x30,0x30]++((d::(p++rest)).take 4092++(d::(p++rest)).drop 4092) := by
    rw [List.take_append_drop,packetText,hheader]
    simp
  have hparse : (Radix.parse 16 [0x31,0x30,0x30,0x30]).filter (· < 2^64) = some 4096 := by decide
  have hread : Decodes recvPacket ([0x31,0x30,0x30,0x30]++(d::(p++rest)).take 4092) ((d::(p++rest)).take 4092) := by
    refine (Decodes.readExact (show ([0x31,0x30,0x30,0x30] : Bytes).length = 4 from rfl)).bind ?_
    refine (Decodes.require rfl).andThen <| (Decodes.orFail hparse).andThen ?_
    exact (Decodes.require (by decide)).andThen (Decodes.readExact (List.length_take_of_le hlong))
  refine ⟨d,hd,(d::(p++rest)).drop 4092,?_,List.length_take_of_le hlong⟩
  rw [hsplit,← List.append_assoc]
  exact hread.run _

/-! ### Messages -/

def Payload (p : Bytes) : Prop := p ≠ [] ∧ p ≠ DONE

theorem recvPackets_cons {c mid s : Bytes} {n : ℕ} (hc : Payload c) (h : recvPacket.run s = .ok (c,mid)) :
    (recvPackets (n+1)).run s = ((recvPackets n).run mid).map fun r => (c::r.1,r.2) := by
  rw [recvPackets,StateT.run_bind,h]
  change (if c = [] ∨ c = DONE then _ else _ : Parser (List Bytes)).run mid = _
  rw [if_neg (not_or.mpr hc),StateT.run_bind]
  cases (recvPackets n).run mid <;> rfl

theorem recvPackets_stop {c mid s : Bytes} {n : ℕ} (hc : c = [] ∨ c = DONE) (h : recvPacket.run s = .ok (c,mid)) :
    (recvPackets (n+1)).run s = .ok ([],mid) := by
  rw [recvPackets,StateT.run_bind,h]
  change (if c = [] ∨ c = DONE then _ else _ : Parser (List Bytes)).run mid = _
  rw [if_pos hc]
  rfl

theorem recvPackets_append (h : ∀ p ∈ payloads, Payload p ∧ 4+p.length < 2^16) (n : ℕ) (s : Bytes) :
    (recvPackets (payloads.length+n)).run (payloads.flatMap packetText++s) =
      ((recvPackets n).run s).map fun r => (payloads++r.1,r.2) := by
  induction payloads with
  | nil =>
    rw [List.length_nil,Nat.zero_add]
    cases hr : (recvPackets n).run s <;> simp [hr,Except.map]
  | cons p payloads ih =>
    obtain ⟨hp,hlen⟩ := h p List.mem_cons_self
    have hrun := (packet_decodes hlen).run (payloads.flatMap packetText++s)
    rw [List.flatMap_cons,List.append_assoc,List.length_cons,Nat.add_right_comm,recvPackets_cons hp hrun,
      ih fun q hq => h q (List.mem_cons_of_mem p hq)]
    cases (recvPackets n).run s <;> rfl

theorem packetText_ne_nil (p : Bytes) : packetText p ≠ [] := by
  rw [packetText,lengthHeader,List.leftpad]
  simp [Radix.text_ne_nil]

/-- Packets of the right sizes and what ends them are read to the last byte. -/
theorem recvMessage_decodes (h : ∀ p ∈ payloads, Payload p ∧ 4+p.length < 2^16) {c : Bytes} (hc : c = [] ∨ c = DONE)
    (hstop : Decodes recvPacket stop c) : Decodes recvMessage (payloads.flatMap packetText++stop) payloads := by
  intro rest
  obtain ⟨k,hk⟩ := Nat.exists_eq_add_of_le (length_le_flatMap fun p (_ : p ∈ payloads) => packetText_ne_nil p)
  have hfuel : (payloads.flatMap packetText++(stop++rest)).length+1 = payloads.length+((k+(stop++rest).length)+1) := by
    rw [List.length_append,hk]
    omega
  rw [List.append_assoc]
  change (recvPackets ((payloads.flatMap packetText++(stop++rest)).length+1)).run _ = _
  rw [hfuel,recvPackets_append h,recvPackets_stop hc (hstop.run rest)]
  exact congrArg (fun l => Except.ok (l,rest)) (List.append_nil payloads)

theorem writePackets_eq_ok {bytes : Bytes} : writePackets debug payloads = .ok bytes ↔
    (∀ p ∈ payloads, p.length < U16_MAX ∧ (debug = true → 4+p.length < 2^16)) ∧ bytes = payloads.flatMap packetText := by
  induction payloads generalizing bytes with
  | nil =>
    simp only [List.not_mem_nil,false_implies,implies_true,true_and,List.flatMap_nil]
    exact ⟨fun h => (Except.ok.inj h).symm,fun h => congrArg Except.ok h.symm⟩
  | cons p payloads ih =>
    have hcons : writePackets debug (p::payloads) = .ok bytes ↔
        ∃ text, writePacket debug p = .ok text ∧ ∃ more, writePackets debug payloads = .ok more ∧ text++more = bytes := by
      simp only [writePackets,List.mapM_cons,except_bind_eq_ok]
      constructor
      · rintro ⟨_,⟨text,htext,texts,htexts,h⟩,h'⟩
        cases h
        exact ⟨text,htext,_,⟨texts,htexts,rfl⟩,Except.ok.inj h'⟩
      · rintro ⟨text,htext,_,⟨texts,htexts,h⟩,h'⟩
        cases h
        exact ⟨_,⟨text,htext,texts,htexts,rfl⟩,congrArg Except.ok h'⟩
    simp only [hcons,writePacket_eq_ok,ih,List.forall_mem_cons,List.flatMap_cons]
    constructor
    · rintro ⟨_,⟨hlen,hdebug,rfl⟩,_,⟨hall,rfl⟩,rfl⟩
      exact ⟨⟨⟨hlen,hdebug⟩,hall⟩,rfl⟩
    · rintro ⟨⟨⟨hlen,hdebug⟩,hall⟩,rfl⟩
      exact ⟨_,⟨hlen,hdebug,rfl⟩,_,⟨hall,rfl⟩,rfl⟩

theorem writeMessage_eq_ok {bytes : Bytes} : writeMessage debug payloads = .ok bytes ↔
    (∀ p ∈ payloads, p.length < U16_MAX ∧ (debug = true → 4+p.length < 2^16)) ∧
      bytes = payloads.flatMap packetText++writeFlushPacket := by
  simp only [writeMessage,except_bind_eq_ok,writePackets_eq_ok]
  constructor
  · rintro ⟨_,⟨hall,rfl⟩,h⟩
    exact ⟨hall,(Except.ok.inj h).symm⟩
  · rintro ⟨hall,rfl⟩
    exact ⟨_,⟨hall,rfl⟩,rfl⟩

/-- The stream gives the payloads back, and no more than the stream is read. -/
def Lossless (debug : Bool) (payloads : List Bytes) : Prop :=
  ∃ bytes, writeMessage debug payloads = .ok bytes ∧ ∀ rest, recvMessage.run (bytes++rest) = .ok (payloads,rest)

/-- A payload that is admitted may be too long for its header: what is read in its place is shorter. -/
theorem not_lossless {good more : List Bytes} (hgood : ∀ q ∈ good, Payload q ∧ 4+q.length < 2^16) (hlen : p.length < U16_MAX)
    (hlarge : 2^16 ≤ 4+p.length) : ¬Lossless debug (good++p::more) := by
  rintro ⟨bytes,hwrite,hread⟩
  obtain ⟨-,rfl⟩ := writeMessage_eq_ok.mp hwrite
  have hstream : (good++p::more).flatMap packetText++writeFlushPacket++[] =
      good.flatMap packetText++(packetText p++(more.flatMap packetText++writeFlushPacket)) := by
    simp only [List.flatMap_append,List.flatMap_cons,List.append_assoc,List.append_nil]
  have hall := hread []
  rw [hstream] at hall
  change (recvPackets (List.length _+1)).run _ = _ at hall
  obtain ⟨k,hk⟩ := Nat.exists_eq_add_of_le (length_le_flatMap fun q (_ : q ∈ good) => packetText_ne_nil q)
  obtain ⟨d,-,mid,hc,hlen'⟩ := large_packet hlen hlarge (more.flatMap packetText++writeFlushPacket)
  generalize (d::(p++(more.flatMap packetText++writeFlushPacket))).take 4092 = c at hc hlen'
  have hpayload : Payload c := ⟨fun h => by simp [h] at hlen',fun h => by simp [h,DONE] at hlen'⟩
  have hfuel : (good.flatMap packetText++(packetText p++(more.flatMap packetText++writeFlushPacket))).length+1 =
      good.length+((k+(packetText p++(more.flatMap packetText++writeFlushPacket)).length)+1) := by
    rw [List.length_append,hk]
    omega
  rw [hfuel,recvPackets_append hgood,recvPackets_cons hpayload hc] at hall
  cases hrest : (recvPackets (k+(packetText p++(more.flatMap packetText++writeFlushPacket)).length)).run mid with
  | error e =>
    rw [hrest] at hall
    cases hall
  | ok r =>
    rw [hrest] at hall
    have heq : good++c::r.1 = good++p::more := congrArg Prod.fst (Except.ok.inj hall)
    have hcp : c = p := (List.cons.inj (List.append_cancel_left heq)).1
    rw [hcp] at hlen'
    omega

/-- The defect: the writer admits payloads of less than 65535 bytes, and the header counts four bytes more. -/
theorem lossless_iff (debug : Bool) (payloads : List Bytes)
    (h : ∀ p ∈ payloads, p ≠ [] ∧ p.length < U16_MAX ∧ p ≠ DONE) :
    Lossless debug payloads ↔ ∀ p ∈ payloads, p.length < 65532 := by
  constructor
  · intro hlossless
    by_contra hlarge
    obtain ⟨q,hq⟩ : ∃ q, payloads.find? (fun p => 65532 ≤ p.length) = some q := by
      refine Option.isSome_iff_exists.mp (List.find?_isSome.mpr ?_)
      simpa using hlarge
    obtain ⟨hqlarge,good,more,rfl,hgood⟩ := List.find?_eq_some_iff_append.mp hq
    have hqlen : 65532 ≤ q.length := of_decide_eq_true hqlarge
    refine not_lossless (fun x hx => ?_) (h q (by simp)).2.1 (by omega) hlossless
    obtain ⟨hne,-,hdone⟩ := h x (List.mem_append_left _ hx)
    have hxlen : x.length < 65532 := by simpa using hgood x hx
    exact ⟨⟨hne,hdone⟩,by omega⟩
  · intro hsmall
    have hfits : ∀ p ∈ payloads, 4+p.length < 2^16 := fun p hp => by have := hsmall p hp; omega
    refine ⟨_,writeMessage_eq_ok.mpr ⟨fun p hp => ⟨(h p hp).2.1,fun _ => hfits p hp⟩,rfl⟩,fun rest => ?_⟩
    exact (recvMessage_decodes (fun p hp => ⟨⟨(h p hp).1,(h p hp).2.2⟩,hfits p hp⟩) (.inl rfl) flush_decodes).run rest

def zeros (n : ℕ) : Bytes := List.replicate n 0

theorem length_zeros (n : ℕ) : (zeros n).length = n := List.length_replicate

theorem zeros_admitted {n : ℕ} (h : 4 < n) (h' : n < U16_MAX) : zeros n ≠ [] ∧ (zeros n).length < U16_MAX ∧ zeros n ≠ DONE := by
  refine ⟨fun heq => ?_,(length_zeros n).trans_lt h',fun heq => ?_⟩
  · have hlen := length_zeros n
    rw [heq,List.length_nil] at hlen
    omega
  · have hlen := length_zeros n
    rw [heq,show DONE.length = 4 from rfl] at hlen
    omega

/-- The longest payload that a header can count. -/
theorem lossless_longest : Lossless true [zeros 65531] ↔ ∀ p ∈ [zeros 65531], p.length < 65532 :=
  lossless_iff true [zeros 65531] (List.forall_mem_singleton.mpr (zeros_admitted (by decide) (by decide)))

/-- The shortest payload that is admitted and does not come back, with or without debug assertions. -/
theorem lossless_tooLong : (∀ p ∈ [zeros 65532], p ≠ [] ∧ p.length < U16_MAX ∧ p ≠ DONE) ∧
    ¬∃ debug, Lossless debug [zeros 65532] := by
  have hadmitted := zeros_admitted (show 4 < 65532 by decide) (by decide)
  refine ⟨List.forall_mem_singleton.mpr hadmitted,?_⟩
  rintro ⟨debug,h⟩
  have hlarge : 2^16 ≤ 4+(zeros 65532).length := by
    rw [length_zeros]
    decide
  have hnot : ¬Lossless debug ([]++zeros 65532::[]) :=
    not_lossless (fun _ hq => absurd hq List.not_mem_nil) hadmitted.2.1 hlarge
  exact hnot h

end Protocol
end Libbit
