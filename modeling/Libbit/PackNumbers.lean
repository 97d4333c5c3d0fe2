import Libbit.DeltaUntrusted
import Libbit.Lib.Numeration

/-! The two ways to write a number in a pack: the distance to the base of a delta has one text only, and a size
is read back from the text that git writes. -/
namespace Libbit
namespace Packfile

open Lib Lib.Reader
open IndexFile (Parser assertThat)

/-! ### Distances -/

/-- All bytes but the last go on. -/
structure Terminated (text : Bytes) : Prop where
  exists_last : ∃ before last, text = before++[last] ∧ (∀ b ∈ before, continues b) ∧ ¬continues last

def digits (text : Bytes) : List (Fin 128) := text.map fun b => Fin.ofNat 128 b.val

/-- The number that a text stands for, of any size. -/
def offsetOf (text : Bytes) : ℕ := Numeration.value (digits text)-1

/-- The bytes that come before, with `ofs` left to write. -/
def gitOffsetBefore (ofs : ℕ) (text : Bytes) : Bytes :=
  if ofs = 0 then text else gitOffsetBefore ((ofs-1)/2^7) (Fin.ofNat 256 (0x80+(ofs-1)%0x80)::text)
termination_by ofs
decreasing_by omega

/-- What git writes, from the last byte on. -/
def gitOffset (ofs : ℕ) : Bytes := gitOffsetBefore (ofs/2^7) [Fin.ofNat 256 (ofs%0x80)]

theorem ofNat_low7 (b : Byte) : Fin.ofNat 128 b.val = ⟨low7 b,Nat.mod_lt _ (by norm_num)⟩ := rfl

@[simp] theorem digits_groupsText (gs : List (Fin 128)) : digits (groupsText gs) = gs := by
  induction gs with
  | nil => rfl
  | cons g gs ih =>
    cases gs with
    | nil =>
      rw [groupsText,digits,List.map_singleton,ofNat_low7]
      simp only [low7_last]
    | cons g' gs =>
      rw [groupsText_cons,digits,List.map_cons,ofNat_low7,← digits,ih]
      simp only [low7_more]

theorem terminated_groupsText {gs : List (Fin 128)} (hne : gs ≠ []) : Terminated (groupsText gs) := by
  obtain ⟨before,g,rfl⟩ := List.eq_nil_or_concat' gs |>.resolve_left hne
  refine ⟨before.map fun g => Fin.ofNat 256 (0x80+g.val),Fin.ofNat 256 g.val,?_,?_,not_continues_last g⟩
  · exact groupsText_append before g []
  · intro b hb
    obtain ⟨g',-,rfl⟩ := List.mem_map.mp hb
    exact continues_more g'

theorem Terminated.groups {text : Bytes} (h : Terminated text) : digits text ≠ [] ∧ text = groupsText (digits text) := by
  obtain ⟨before,last,rfl,hbefore,hlast⟩ := h.exists_last
  refine ⟨by simp [digits],?_⟩
  clear h
  induction before with
  | nil =>
    rcases exists_group (b := last) with ⟨hmore,-⟩ | ⟨-,g,rfl⟩
    · exact absurd hmore hlast
    · exact congrArg groupsText (digits_groupsText [g]).symm
  | cons b before ih =>
    have hrest := ih fun c hc => hbefore c (List.mem_cons_of_mem b hc)
    rcases exists_group (b := b) with ⟨-,g,rfl⟩ | ⟨hstop,-⟩
    · obtain ⟨g',gs,hgs⟩ := List.exists_cons_of_ne_nil (by simp [digits] : digits (before++[last]) ≠ [])
      have hg : Fin.ofNat 128 (Fin.ofNat 256 (0x80+g.val) : Byte).val = g := by
        rw [ofNat_low7]
        simp only [low7_more]
      rw [List.cons_append,digits,List.map_cons,← digits,hg,hgs,groupsText_cons,← hgs,← hrest]
    · exact absurd (hbefore b List.mem_cons_self) hstop

theorem offsetValue_add_one (offset : ℕ) (gs : List (Fin 128)) :
    offsetValue offset gs+1 = gs.foldl (fun n d => n*128+d.val+1) (offset+1) := by
  induction gs generalizing offset with
  | nil => rfl
  | cons g gs ih =>
    rw [offsetValue,ih,List.foldl_cons]
    norm_num

theorem offsetOf_add_one {text : Bytes} (h : digits text ≠ []) : offsetOf text+1 = Numeration.value (digits text) := by
  have hlen : 0 < (digits text).length := List.length_pos_of_ne_nil h
  have hpos : Numeration.value ([] : List (Fin 128)) < Numeration.value (digits text) := Numeration.value_lt_of_length_lt hlen
  rw [Numeration.value_nil] at hpos
  rw [offsetOf]
  omega

/-- What is read of a distance that fits. -/
theorem Terminated.decodes {text : Bytes} (h : Terminated text) (hsmall : offsetOf text < 2^64) :
    Decodes readOffset text (offsetOf text) := by
  obtain ⟨hne,htext⟩ := h.groups
  obtain ⟨g,gs,hgs⟩ := List.exists_cons_of_ne_nil hne
  refine OffsetText.decodes ⟨⟨g,gs,hgs ▸ htext,?_⟩,hsmall⟩
  have hvalue := offsetValue_add_one g.val gs
  have hoffset := offsetOf_add_one hne
  rw [hgs,Numeration.value,List.foldl_cons,Nat.zero_mul,Nat.zero_add] at hoffset
  omega

theorem Terminated.run {text : Bytes} (h : Terminated text) (hsmall : offsetOf text < 2^64) :
    readOffset.run text = .ok (offsetOf text,[]) := by
  have hrun := h.decodes hsmall []
  rwa [List.append_nil] at hrun

theorem Terminated.eq_of_offsetOf {text text' : Bytes} (h : Terminated text) (h' : Terminated text')
    (heq : offsetOf text = offsetOf text') : text = text' := by
  obtain ⟨hne,htext⟩ := h.groups
  obtain ⟨hne',htext'⟩ := h'.groups
  have hvalue : Numeration.value (digits text) = Numeration.value (digits text') := by
    rw [← offsetOf_add_one hne,← offsetOf_add_one hne',heq]
  rw [htext,htext',Numeration.value_injective hvalue]

theorem gitOffsetBefore_groups (ofs : ℕ) (g : Fin 128) (gs : List (Fin 128)) : ∃ ds : List (Fin 128),
    gitOffsetBefore ofs (groupsText (g::gs)) = groupsText (ds++g::gs) ∧ Numeration.value ds = ofs := by
  induction ofs using Nat.strongRecOn generalizing g gs with
  | _ ofs ih =>
    rw [gitOffsetBefore]
    rcases Nat.eq_zero_or_pos ofs with rfl | hpos
    · exact ⟨[],if_pos rfl,rfl⟩
    · have hd : (ofs-1)%0x80 < 128 := Nat.mod_lt _ (by norm_num)
      obtain ⟨ds,htext,hvalue⟩ := ih ((ofs-1)/2^7) (by omega) ⟨(ofs-1)%0x80,hd⟩ (g::gs)
      refine ⟨ds++[⟨(ofs-1)%0x80,hd⟩],?_,?_⟩
      · rw [if_neg (by omega),List.append_assoc,List.singleton_append]
        exact htext
      · rw [Numeration.value_append,hvalue]
        change (ofs-1)/2^7*128+(ofs-1)%0x80+1 = ofs
        omega

theorem gitOffset_spec (n : ℕ) : Terminated (gitOffset n) ∧ offsetOf (gitOffset n) = n := by
  have hd : n%0x80 < 128 := Nat.mod_lt _ (by norm_num)
  obtain ⟨ds,htext,hvalue⟩ := gitOffsetBefore_groups (n/2^7) ⟨n%0x80,hd⟩ []
  have hgit : gitOffset n = groupsText (ds++[⟨n%0x80,hd⟩]) := htext
  refine ⟨hgit ▸ terminated_groupsText (by simp),?_⟩
  rw [offsetOf,hgit,digits_groupsText,Numeration.value_append,hvalue]
  change n/2^7*128+n%0x80+1-1 = n
  omega

theorem offsetOf_lt_of_length_lt {text text' : Bytes} (h : Terminated text) (hlen : text.length < text'.length) :
    offsetOf text < offsetOf text' := by
  have hlt : Numeration.value (digits text) < Numeration.value (digits text') :=
    Numeration.value_lt_of_length_lt (by simpa [digits] using hlen)
  have hvalue := offsetOf_add_one h.groups.1
  rw [offsetOf] at hvalue ⊢
  rw [offsetOf]
  omega

/-- A distance below `2^64` has one text, which is the one that git writes. -/
theorem readOffset_bijective :
    (∀ text rest, Terminated text → offsetOf text < 2^64 → readOffset.run (text++rest) = .ok (offsetOf text,rest)) ∧
    Set.BijOn readOffset.run {text | Terminated text ∧ offsetOf text < 2^64} {read | ∃ n < 2^64, read = .ok (n,[])} ∧
    (∀ n < 2^64, ∀ text, Terminated text → offsetOf text < 2^64 →
      (readOffset.run text = .ok (n,[]) ↔ text = gitOffset n)) ∧
    (∀ n, Terminated (gitOffset n) ∧ offsetOf (gitOffset n) = n) ∧
    ∀ text text' n n', Terminated text → Terminated text' → offsetOf text' < 2^64 → text.length < text'.length →
      readOffset.run text = .ok (n,[]) → readOffset.run text' = .ok (n',[]) → n < n' := by
  have hvalue {text : Bytes} (h : Terminated text) (hsmall : offsetOf text < 2^64) {n : ℕ}
      (hrun : readOffset.run text = .ok (n,[])) : offsetOf text = n := by
    rw [h.run hsmall] at hrun
    cases hrun
    rfl
  refine ⟨fun text rest h hsmall => h.decodes hsmall rest,⟨?_,?_,?_⟩,?_,gitOffset_spec,?_⟩
  · intro text ⟨h,hsmall⟩
    exact ⟨offsetOf text,hsmall,h.run hsmall⟩
  · intro text ⟨h,hsmall⟩ text' ⟨h',hsmall'⟩ heq
    apply h.eq_of_offsetOf h'
    exact hvalue h hsmall (heq.trans (h'.run hsmall'))
  · rintro _ ⟨n,hn,rfl⟩
    obtain ⟨h,hn'⟩ := gitOffset_spec n
    have hsmall : offsetOf (gitOffset n) < 2^64 := hn'.trans_lt hn
    exact ⟨gitOffset n,⟨h,hsmall⟩,by rw [h.run hsmall,hn']⟩
  · intro n hn text h hsmall
    obtain ⟨hgit,hn'⟩ := gitOffset_spec n
    constructor
    · intro hrun
      apply h.eq_of_offsetOf hgit
      rw [hvalue h hsmall hrun,hn']
    · rintro rfl
      rw [h.run hsmall,hn']
  · intro text text' n n' h h' hsmall' hlen hrun hrun'
    have hlt := offsetOf_lt_of_length_lt h hlen
    rw [hvalue h (hlt.trans hsmall') hrun,hvalue h' hsmall' hrun'] at hlt
    exact hlt

/-! ### Sizes -/

/-- What git writes of a size that comes after the `s` bits of `k`. -/
def gitVarint (s k n : ℕ) : Bytes :=
  let rest := n/2^(7-s)
  Fin.ofNat 256 ((if rest = 0 then 0 else 0x80)+k*2^(7-s)+n%2^(7-s))::
    groupsText ((Nat.digits 128 rest).map fun d => Fin.ofNat 128 d)

/-- So many bytes go on that nothing of the next one fits 64 bits. -/
def TooLong (s : ℕ) (bs : Bytes) : Prop :=
  ∃ more b rest, bs = more++b::rest ∧ more.length = 10+s/7 ∧ ∀ c ∈ more, continues c

/-- What is to hold of the reader on the bytes. -/
structure InvertsVarint (s : ℕ) (bs : Bytes) : Prop where
  inverts : ∀ k n rest, k < 2^s → n < 2^64 → bs = gitVarint s k n++rest →
    (readLeVarintWithShift s).run bs = .ok ((k,n),rest)
  returns : ∀ e, (readLeVarintWithShift s).run bs = .error e → Returned e

theorem groupsValue_map (shift : ℕ) {ds : List ℕ} (hds : ∀ d ∈ ds, d < 128) :
    groupsValue shift (ds.map fun d => Fin.ofNat 128 d) = Nat.ofDigits 128 ds*2^shift := by
  induction ds generalizing shift with
  | nil => simp [groupsValue]
  | cons d ds ih =>
    have hd : (Fin.ofNat 128 d).val = d := Nat.mod_eq_of_lt (hds d List.mem_cons_self)
    have hrest := ih (shift+7) fun c hc => hds c (List.mem_cons_of_mem d hc)
    rw [List.map_cons,groupsValue,hd,hrest,Nat.ofDigits_cons,pow_add]
    push_cast
    ring

/-- The groups of a number, and how far the last of them is shifted. -/
theorem digits_fit {a q : ℕ} (hq : q ≠ 0) (hsmall : q*2^a < 2^64) : a+7*((Nat.digits 128 q).length-1) < 64 := by
  have hne : Nat.digits 128 q ≠ [] := Nat.digits_ne_nil_iff_ne_zero.mpr hq
  obtain ⟨m,hm⟩ := Nat.exists_eq_add_one.mpr (List.length_pos_of_ne_nil hne)
  have hle := Nat.base_pow_length_digits_le 128 q (by norm_num) hq
  rw [hm,pow_succ,Nat.mul_comm] at hle
  have hlow : 128^m ≤ q := Nat.le_of_mul_le_mul_left hle (by norm_num)
  have hpow : 2^(a+7*m) < 2^64 := by
    calc 2^(a+7*m)
      _ = 128^m*2^a := by
        rw [pow_add,pow_mul,Nat.mul_comm]
        norm_num
      _ ≤ q*2^a := Nat.mul_le_mul_right _ hlow
      _ < 2^64 := hsmall
  rw [hm,Nat.add_sub_cancel]
  exact (Nat.pow_lt_pow_iff_right (by norm_num)).mp hpow

/-- What is in the first byte. -/
theorem first_byte {s k r e : ℕ} (hs : s < 8) (hk : k < 2^s) (hr : r < 2^(7-s)) (he : e ≤ 1) :
    let b : Byte := Fin.ofNat 256 (e*0x80+k*2^(7-s)+r)
    (continues b ↔ e = 1) ∧ b.val/2^(7-s)%2^s = k ∧ b.val%2^(7-s) = r := by
  have hseven : 2^s*2^(7-s) = 0x80 := by
    rw [← pow_add,Nat.add_sub_cancel' (by omega)]
    norm_num
  have hlow : k*2^(7-s)+r < 0x80 := by
    have hle : (k+1)*2^(7-s) ≤ 2^s*2^(7-s) := Nat.mul_le_mul_right _ hk
    rw [hseven,Nat.add_mul,Nat.one_mul] at hle
    omega
  have hval : (Fin.ofNat 256 (e*0x80+k*2^(7-s)+r) : Byte).val = e*0x80+k*2^(7-s)+r :=
    Nat.mod_eq_of_lt (by omega)
  have hsplit : e*0x80+k*2^(7-s)+r = (e*2^s+k)*2^(7-s)+r := by
    rw [← hseven,Nat.add_mul,Nat.mul_assoc]
  refine ⟨?_,?_,?_⟩
  · rw [continues,hval]
    omega
  · rw [hval,hsplit,Nat.mul_comm,Nat.mul_add_div (Nat.two_pow_pos _),Nat.div_eq_of_lt hr,Nat.add_zero,Nat.mul_add_mod_self_right,
      Nat.mod_eq_of_lt hk]
  · rw [hval,hsplit,Nat.mul_add_mod_self_right,Nat.mod_eq_of_lt hr]

theorem gitVarint_decodes {s k n : ℕ} (hs : s < 8) (hk : k < 2^s) (hn : n < 2^64) :
    Decodes (readLeVarintWithShift s) (gitVarint s k n) (k,n) := by
  intro rest
  have hr : n%2^(7-s) < 2^(7-s) := Nat.mod_lt _ (Nat.two_pow_pos _)
  have hsum : n%2^(7-s)+n/2^(7-s)*2^(7-s) = n := by rw [Nat.mul_comm,Nat.mod_add_div]
  rcases eq_or_ne (n/2^(7-s)) 0 with hq | hq
  · obtain ⟨hlast,hkbits,hnbits⟩ := first_byte (e := 0) hs hk hr (Nat.zero_le 1)
    have htext : gitVarint s k n = [Fin.ofNat 256 (0*0x80+k*2^(7-s)+n%2^(7-s))] := by
      simp only [gitVarint,hq,Nat.digits_zero,List.map_nil,groupsText,if_pos,Nat.zero_mul]
    rw [hq,Nat.zero_mul,Nat.add_zero] at hsum
    rw [htext,List.singleton_append,readLeVarintWithShift_cons hs,if_neg (by rw [hlast]; norm_num),hkbits,hnbits,hsum]
    rfl
  · obtain ⟨hmore,hkbits,hnbits⟩ := first_byte (e := 1) hs hk hr le_rfl
    have htext : gitVarint s k n = Fin.ofNat 256 (1*0x80+k*2^(7-s)+n%2^(7-s))::
        groupsText ((Nat.digits 128 (n/2^(7-s))).map fun d => Fin.ofNat 128 d) := by
      simp only [gitVarint,if_neg hq,Nat.one_mul]
    have hne : (Nat.digits 128 (n/2^(7-s))).map (fun d => Fin.ofNat 128 d) ≠ [] := by
      simpa [Nat.digits_ne_nil_iff_ne_zero] using hq
    have hfit := digits_fit (a := 7-s) hq (by omega)
    have hread : readVarintFrom (n%2^(7-s)) (7-s) _ = .ok (_,rest) :=
      readVarintFrom_decodes hne hr (by rw [List.length_map]; exact hfit) rest
    rw [groupsValue_map _ fun d hd => Nat.digits_lt_base (by norm_num) hd,Nat.ofDigits_digits,hsum,Nat.mod_eq_of_lt hn] at hread
    rw [htext,List.cons_append,readLeVarintWithShift_cons hs,if_pos (hmore.mpr rfl),hkbits,hnbits,hread]
    rfl

theorem TooLong.panics {s : ℕ} (hs : s < 8) {bs : Bytes} (h : TooLong s bs) :
    (readLeVarintWithShift s).run bs = .error (.panic "attempt to shift left with overflow") := by
  obtain ⟨more,b,rest,rfl,hlen,hmore⟩ := h
  obtain ⟨c,more,rfl⟩ := List.exists_cons_of_length_pos (by omega : 0 < more.length)
  rw [List.length_cons] at hlen
  have hpanic : readVarintFrom (c.val%2^(7-s)) (7-s) (more++b::rest) = .error (.panic "attempt to shift left with overflow") :=
    readVarintFrom_overlong (m := 9+s/7) (by omega) (by omega) (fun d hd => hmore d (List.mem_cons_of_mem c hd)) b
  rw [List.cons_append,readLeVarintWithShift_cons hs,if_pos (hmore c List.mem_cons_self),hpanic]
  rfl

theorem readVarintFrom_returned {m n shift : ℕ} {bs : Bytes} {e : IndexFile.Error} (hn : n < 2^shift)
    (hshift : shift+7*m ≤ 70) (herr : readVarintFrom n shift bs = .error e) :
    Returned e ∨ ∃ more b rest, bs = more++b::rest ∧ more.length = m ∧ ∀ c ∈ more, continues c := by
  rcases readVarintFrom_cases m n shift hshift bs with ⟨gs,rest,hne,hlen,rfl⟩ | heof | hlong
  · have hgs : 0 < gs.length := List.length_pos_of_ne_nil hne
    have hread : readVarintFrom n shift (groupsText gs++rest) = .ok (_,rest) :=
      readVarintFrom_decodes hne hn (by omega) rest
    rw [hread] at herr
    cases herr
  · rw [heof] at herr
    cases herr
    exact .inl trivial
  · exact .inr hlong

theorem returned_of_not_tooLong {s : ℕ} (hs : s < 8) {bs : Bytes} (h : ¬TooLong s bs) {e : IndexFile.Error}
    (herr : (readLeVarintWithShift s).run bs = .error e) : Returned e := by
  cases bs with
  | nil =>
    have heof : (readLeVarintWithShift s).run [] = .error .unexpectedEof := by
      simp [readLeVarintWithShift,assertThat,require,hs]
      rfl
    rw [heof] at herr
    cases herr
    trivial
  | cons b bs =>
    rw [readLeVarintWithShift_cons hs] at herr
    by_cases hb : continues b
    · rw [if_pos hb,except_bind_eq_error] at herr
      rcases herr with herr | ⟨r,-,herr⟩
      · rcases readVarintFrom_returned (m := 9+s/7) (Nat.mod_lt _ (Nat.two_pow_pos _)) (by omega) herr with
          hret | ⟨more,c,rest,rfl,hlen,hmore⟩
        · exact hret
        · refine absurd ⟨b::more,c,rest,rfl,?_,List.forall_mem_cons.mpr ⟨hb,hmore⟩⟩ h
          rw [List.length_cons,hlen]
          omega
      · cases herr
    · rw [if_neg hb] at herr
      cases herr

/-- A size that git wrote is always read back. Of other bytes, those that go on for too long are a panic. -/
theorem readLeVarintWithShift_inverts_iff {s : ℕ} (hs : s < 8) (bs : Bytes) : InvertsVarint s bs ↔ ¬TooLong s bs := by
  constructor
  · intro h hlong
    exact h.returns _ (hlong.panics hs)
  · intro h
    refine ⟨?_,fun e herr => returned_of_not_tooLong hs h herr⟩
    rintro k n rest hk hn rfl
    exact gitVarint_decodes hs hk hn rest

/-- The header of an object of the pack. -/
theorem readLeVarintWithShift_inverts_header : InvertsVarint 3 [0x95,0x0a] :=
  (readLeVarintWithShift_inverts_iff (by decide) _).mpr <| by
    rintro ⟨more,b,rest,htext,hlen,-⟩
    have hbytes := congrArg List.length htext
    rw [List.length_append,hlen,List.length_cons] at hbytes
    exact absurd hbytes (by simp only [List.length_cons,List.length_nil]; omega)

theorem eleven_bytes_panic : ¬∀ s < 8, ∀ bs, InvertsVarint s bs := by
  intro h
  exact (h 0 (by decide) (List.replicate 10 0x80++[0])).returns (.panic "attempt to shift left with overflow") rfl

end Packfile
end Libbit
