import Libbit.Odb
import Libbit.PackRead

/-! What a short id expands to, in terms of the places that hold objects and show them. -/
namespace Libbit
namespace Packfile

open Lib

/-! ### Short ids -/

theorem utf8Len_of_digits {s : List Char} (h : ∀ c ∈ s, isAsciiHexdigit c) : utf8Len s = s.length := by
  have hone : ∀ c ∈ s, c.utf8Size = 1 := by
    intro c hc
    obtain ⟨n,hn⟩ := Option.isSome_iff_exists.mp (h c hc)
    exact utf8Size_of_hexValue hn
  rw [utf8Len,List.map_congr_left hone,List.map_const',List.sum_replicate,smul_eq_mul,Nat.mul_one]

theorem readOidFrom_bytes (o : Oid) : readOidFrom o.bytes = .ok o := by
  have hrun : IndexFile.readOid.run o.bytes = .ok (o,[]) := by
    simpa using (IndexFile.readOid_decodes o).run []
  rw [readOidFrom,hrun]

theorem Oid.length_toHex (o : Oid) : o.toHex.length = 40 := by
  rw [Oid.toHex,Lib.length_toHex,o.length_bytes]
  rfl

theorem trimEnd_toHex (o : Oid) : trimEnd o.toHex = o.toHex := by
  rw [trimEnd,List.rdropWhile_eq_self_iff]
  intro hne
  obtain ⟨n,hn,hlast⟩ := exists_of_mem_toHex (List.getLast_mem hne)
  have hall : ∀ n < 16, isWhitespace (Nat.digitChar n) = false := by decide
  rw [hlast,hall n hn]
  exact Bool.false_ne_true

theorem Oid.digits_toHex (o : Oid) : ∀ c ∈ o.toHex, isAsciiHexdigit c := by
  intro c hc
  obtain ⟨n,hn,rfl⟩ := exists_of_mem_toHex hc
  rw [isAsciiHexdigit,hexValue_digitChar hn,Option.isSome_some]

theorem Oid.fromStr_toHex (o : Oid) : Oid.fromStr o.toHex = .ok o := by
  have hlen : utf8Len o.toHex = 40 := (utf8Len_of_digits o.digits_toHex).trans o.length_toHex
  have hbytes : fromHex o.toHex = some o.bytes := fromHex_toHex o.bytes
  rw [Oid.fromStr,trimEnd_toHex,if_neg (not_not.mpr hlen),hbytes]
  exact readOidFrom_bytes o

namespace PartialOid

/-- The digits in lower case. -/
def lower (p : PartialOid) : List Char := p.text.map Char.toLower

/-- The oid starts with the digits. -/
def Starts (p : PartialOid) (o : Oid) : Prop := p.lower <+: o.toHex

instance (p : PartialOid) (o : Oid) : Decidable (p.Starts o) := inferInstanceAs (Decidable (p.lower <+: o.toHex))

variable {p : PartialOid} {o a b c : Oid}

theorem len_eq (p : PartialOid) : p.len = p.text.length := utf8Len_of_digits p.digits

theorem length_lower (p : PartialOid) : p.lower.length = p.len := by rw [lower,List.length_map,len_eq]

theorem fromStr_eq_ok {s : List Char} :
    fromStr s = .ok p ↔ p.text = s ∧ (∀ c ∈ s, isAsciiHexdigit c) ∧ 4 ≤ s.length ∧ s.length < 40 := by
  constructor
  · intro h
    unfold fromStr at h
    split_ifs at h with hfull hshort hlong hdigits
    cases h
    rw [utf8Len_of_digits hdigits] at hshort hlong
    exact ⟨rfl,hdigits,hlong,hshort⟩
  · rintro ⟨rfl,hdigits,hlong,hshort⟩
    rw [← utf8Len_of_digits hdigits] at hlong hshort
    rw [fromStr,if_neg hshort.ne,dif_pos hshort,dif_pos hlong,dif_pos hdigits]

theorem digits_bytes (p : PartialOid) : ∀ c ∈ p.bytes, isAsciiHexdigit c := by
  intro c hc
  rcases List.mem_append.mp hc with hc | hc
  · exact p.digits c hc
  · rw [List.eq_of_mem_replicate hc]
    decide

theorem length_bytes (p : PartialOid) : p.bytes.length = 40 := by
  have hlt : p.len < 40 := p.short
  rw [bytes,List.length_append,List.length_replicate,← p.len_eq]
  omega

/-- The oid with zeroes for the missing digits. -/
def extended (p : PartialOid) : Oid :=
  match p.intoOid with
  | .ok o => o
  | .error _ => .UNKNOWN

theorem exists_extended (p : PartialOid) : ∃ o, p.intoOid = .ok o ∧ o.toHex = p.lower++List.replicate (40-p.len) '0' := by
  have hlen := p.length_bytes
  obtain ⟨bs,hbs⟩ := exists_fromHex p.digits_bytes (by rw [hlen])
  have htext := fromHex_eq_some.mp hbs
  have hsize : bs.length = 20 := by
    have hlens := congrArg List.length htext
    rw [Lib.length_toHex,List.length_map,hlen] at hlens
    omega
  refine ⟨⟨bs,hsize⟩,?_,?_⟩
  · rw [intoOid,hbs]
    exact readOidFrom_bytes ⟨bs,hsize⟩
  · refine htext.trans ?_
    rw [bytes,List.map_append,List.map_replicate]
    rfl

theorem intoOid_eq (p : PartialOid) : p.intoOid = .ok p.extended := by
  obtain ⟨o,ho,-⟩ := p.exists_extended
  rw [extended,ho]

theorem toHex_extended (p : PartialOid) : p.extended.toHex = p.lower++List.replicate (40-p.len) '0' := by
  obtain ⟨o,ho,htext⟩ := p.exists_extended
  rw [extended,ho]
  exact htext

theorem starts_extended (p : PartialOid) : p.Starts p.extended := by
  rw [Starts,toHex_extended]
  exact List.prefix_append _ _

theorem starts_between (ha : p.Starts a) (hc : p.Starts c) (hab : a ≤ b) (hbc : b ≤ c) : p.Starts b :=
  isPrefix_of_between ha hc (toHex_strictMono.monotone hab) (toHex_strictMono.monotone hbc)

theorem replicate_le {x : Char} {l : List Char} (h : ∀ c ∈ l, x ≤ c) : List.replicate l.length x ≤ l := by
  induction l with
  | nil => exact le_rfl
  | cons c l ih =>
    rw [List.length_cons,List.replicate_succ,← not_lt,List.cons_lt_cons_iff,not_or]
    exact ⟨not_lt.mpr (h c List.mem_cons_self),
      fun hlt => absurd hlt.2 (not_lt.mpr (ih fun c hc => h c (List.mem_cons_of_mem _ hc)))⟩

/-- No oid with the prefix comes before the zero-extended one. -/
theorem extended_le (h : p.Starts o) : p.extended ≤ o := by
  obtain ⟨rest,hrest⟩ := h
  have hlen : rest.length = 40-p.len := by
    have hlens := congrArg List.length hrest
    rw [List.length_append,p.length_lower,o.length_toHex] at hlens
    omega
  have hzero : ∀ c ∈ rest, '0' ≤ c := by
    intro c hc
    have hdigit : c ∈ o.toHex := hrest ▸ List.mem_append_right _ hc
    obtain ⟨n,hn,rfl⟩ := exists_of_mem_toHex hdigit
    have hall : ∀ n < 16, '0' ≤ Nat.digitChar n := by decide
    exact hall n hn
  have hle := replicate_le hzero
  rw [hlen] at hle
  refine toHex_strictMono.le_iff_le.mp ?_
  change p.extended.toHex ≤ o.toHex
  rw [toHex_extended,← hrest]
  rcases hle.eq_or_lt with heq | hlt
  · rw [heq]
  · exact (List.append_left_lt hlt).le

theorem starts_iff : p.Starts o ↔ o.toHex.take p.len = p.extended.toHex.take p.len := by
  have hext : p.extended.toHex.take p.len = p.lower := by
    rw [toHex_extended,← p.length_lower,List.take_left']
    rfl
  rw [hext,Starts,List.prefix_iff_eq_take,p.length_lower]
  exact eq_comm

/-- The digits of the zero-extended oid from the last one that is given on. -/
theorem getElem?_extended {i : ℕ} (hi : p.len ≤ i) (h40 : i < 40) : p.extended.toHex[i]? = some '0' := by
  rw [toHex_extended,List.getElem?_append_right (by rw [p.length_lower]; exact hi),p.length_lower,
    List.getElem?_replicate,if_pos (by omega)]

theorem digitChar_eq_zero {n : ℕ} (hn : n < 16) (h : some (Nat.digitChar n) = some '0') : n = 0 :=
  digitChar_inj hn (by decide) (Option.some.inj h)

theorem hasPrefix_eq (p : PartialOid) (o : Oid) : Oid.hasPrefix o p = .ok (decide (p.Starts o)) := by
  have hshort : p.len < 40 := p.short
  obtain ⟨e,he⟩ : ∃ e, p.extended.bytes[p.len/2]? = some e :=
    ⟨_,List.getElem?_eq_getElem (by rw [p.extended.length_bytes]; exact show p.len/2 < 20 by omega)⟩
  obtain ⟨b,hb⟩ : ∃ b, o.bytes[p.len/2]? = some b :=
    ⟨_,List.getElem?_eq_getElem (by rw [o.length_bytes]; exact show p.len/2 < 20 by omega)⟩
  have he16 := e.isLt
  have hb16 := b.isLt
  obtain ⟨hehigh,helow⟩ := getElem?_toHex he
  obtain ⟨hbhigh,hblow⟩ := getElem?_toHex hb
  have hzero : e.val%16 = 0 :=
    digitChar_eq_zero (by omega) (helow.symm.trans (getElem?_extended (by omega) (by omega)))
  rw [Oid.hasPrefix,intoOid_eq]
  refine congrArg Except.ok (decide_eq_decide.mpr ?_)
  rw [List.getD_eq_getElem?_getD,List.getD_eq_getElem?_getD,he,hb,starts_iff]
  simp only [Option.getD_some]
  rcases Nat.mod_two_eq_zero_or_one p.len with heven | hodd
  · -- whole bytes only, and the byte after them is zero
    have hlen : p.len = 2*(p.len/2) := by omega
    have hnext : e.val/16 = 0 :=
      digitChar_eq_zero (by omega) (hehigh.symm.trans (getElem?_extended (by omega) (by omega)))
    rw [if_pos heven,Nat.and_zero,hlen,Oid.toHex,Oid.toHex,take_toHex,take_toHex,toHex_injective.eq_iff,← hlen,eq_comm]
    exact and_iff_left (by omega)
  · have hlen : p.len = 2*(p.len/2)+1 := by omega
    have hmask : ∀ b : Byte, b.val &&& 0xf0 = b.val/16*16 := by decide +kernel
    have hdigit : Nat.digitChar (b.val/16) = Nat.digitChar (e.val/16) ↔ e.val = b.val/16*16 := by
      constructor
      · intro h
        have := digitChar_inj (by omega) (by omega) h
        omega
      · intro h
        rw [show e.val/16 = b.val/16 by omega]
    rw [if_neg (by omega),hmask b,hlen,Oid.toHex,Oid.toHex,List.take_add_one,List.take_add_one,hehigh,hbhigh,
      take_toHex,take_toHex,← hdigit,Option.toList_some,Option.toList_some,List.append_singleton_inj,← hlen,
      toHex_injective.eq_iff,eq_comm]

/-- Of oids in order those before the zero-extended one do not have the prefix, then come all that have it. -/
theorem exists_run {os : List Oid} (hs : os.Pairwise (· ≤ ·)) : ∃ before run after, os = before++(run++after) ∧
    (∀ o ∈ before, o < p.extended) ∧ (∀ o ∈ run++after, p.extended ≤ o) ∧ (∀ o ∈ run, p.Starts o) ∧
      ∀ o ∈ after, ¬p.Starts o := by
  let rest := os.dropWhile fun o => o < p.extended
  have hrest : ∀ o ∈ rest, p.extended ≤ o := by
    intro o ho
    obtain ⟨a,as,has⟩ := List.exists_cons_of_ne_nil (List.ne_nil_of_mem ho)
    have hsorted : rest.Pairwise (· ≤ ·) := hs.sublist (List.dropWhile_sublist _)
    have hfirst : p.extended ≤ a := by
      have hhead := List.head?_dropWhile_not (fun o => decide (o < p.extended)) os
      rw [show os.dropWhile (fun o => decide (o < p.extended)) = a::as from has] at hhead
      simpa using hhead
    rw [has] at ho hsorted
    rcases List.mem_cons.mp ho with rfl | ho
    · exact hfirst
    · exact hfirst.trans ((List.pairwise_cons.mp hsorted).1 o ho)
  refine ⟨os.takeWhile fun o => o < p.extended,rest.takeWhile fun o => p.Starts o,rest.dropWhile fun o => p.Starts o,?_,
    fun o ho => by simpa using List.mem_takeWhile_imp ho,?_,fun o ho => by simpa using List.mem_takeWhile_imp ho,?_⟩
  · rw [List.takeWhile_append_dropWhile]
    exact List.takeWhile_append_dropWhile.symm
  · rwa [List.takeWhile_append_dropWhile]
  · -- what comes after an oid without the prefix lies too far from the zero-extended one to have it
    intro o ho hstarts
    obtain ⟨a,as,has⟩ := List.exists_cons_of_ne_nil (List.ne_nil_of_mem ho)
    have hsorted : (rest.dropWhile fun o => decide (p.Starts o)).Pairwise (· ≤ ·) :=
      (hs.sublist (List.dropWhile_sublist _)).sublist (List.dropWhile_sublist _)
    have hnot : ¬p.Starts a := by
      have hhead := List.head?_dropWhile_not (fun o => decide (p.Starts o)) rest
      rw [has] at hhead
      simpa using hhead
    have ha : p.extended ≤ a := hrest a ((List.dropWhile_sublist _).subset (has ▸ List.mem_cons_self))
    have hao : a ≤ o := by
      rw [has] at ho hsorted
      rcases List.mem_cons.mp ho with rfl | ho
      · exact le_rfl
      · exact (List.pairwise_cons.mp hsorted).1 o ho
    exact hnot (starts_between p.starts_extended hstarts ha hao)

/-- The test of a prefix compares texts, and of oids in order those that pass follow one another, from the first that is not
before the zero-extended prefix. -/
structure TestsText (p : PartialOid) (text : List Char) : Prop where
  test : ∀ o, Oid.hasPrefix o p = .ok (decide (text.map Char.toLower <+: o.toHex))
  run : ∃ e, p.intoOid = .ok e ∧ ∀ os : List Oid, os.Pairwise (· ≤ ·) → ∃ before run after, os = before++(run++after) ∧
    (∀ o ∈ before, o < e) ∧ (∀ o ∈ run++after, e ≤ o) ∧ ∀ o ∈ os, Oid.hasPrefix o p = .ok true ↔ o ∈ run

theorem hasPrefix_tests_text (s : List Char) (p : PartialOid) (h : fromStr s = .ok p) : p.TestsText s := by
  obtain ⟨rfl,-⟩ := fromStr_eq_ok.mp h
  have hpass (o : Oid) : Oid.hasPrefix o p = .ok true ↔ p.Starts o := by
    rw [hasPrefix_eq,Except.ok.injEq,decide_eq_true_iff]
  refine ⟨hasPrefix_eq p,p.extended,intoOid_eq p,fun os hs => ?_⟩
  obtain ⟨before,run,after,heq,hbefore,hge,hrun,hafter⟩ := exists_run (p := p) hs
  refine ⟨before,run,after,heq,hbefore,hge,fun o ho => (hpass o).trans ⟨fun hstarts => ?_,hrun o⟩⟩
  rw [heq] at ho
  rcases List.mem_append.mp ho with ho | ho
  · exact absurd (extended_le hstarts) (not_le.mpr (hbefore o ho))
  · exact (List.mem_append.mp ho).resolve_right fun ho => hafter o ho hstarts

/-- An odd number of digits in both cases. -/
def oddText : List Char := ['3','f','E','b','c']

theorem digits_oddText : ∀ c ∈ oddText, isAsciiHexdigit c := by
  have hall : oddText.all (fun c => decide (isAsciiHexdigit c)) = true := by decide
  exact fun c hc => of_decide_eq_true (List.all_eq_true.mp hall c hc)

theorem hasPrefix_tests_text_odd : TestsText ⟨oddText,digits_oddText,by decide,by decide⟩ oddText :=
  hasPrefix_tests_text oddText _ (fromStr_eq_ok.mpr ⟨rfl,digits_oddText,by decide,by decide⟩)

theorem first_eq (h : p.Starts o) : o.first = p.extended.first := by
  have hlong : 4 ≤ p.len := p.long
  have htwo : o.toHex.take 2 = p.extended.toHex.take 2 := by
    have htake := congrArg (List.take 2) (starts_iff.mp h)
    rwa [List.take_take,List.take_take,Nat.min_eq_left (by omega)] at htake
  have hbytes : o.bytes.take 1 = p.extended.bytes.take 1 := by
    rw [Oid.toHex,Oid.toHex,show 2 = 2*1 from rfl,take_toHex,take_toHex] at htwo
    exact toHex_injective htwo
  have hhead (o : Oid) : o.first = (o.bytes.take 1).headD 0 := by
    rw [Oid.first]
    cases o.bytes <;> rfl
  rw [hhead,hhead,hbytes]

end PartialOid

/-! ### What a pack shows -/

/-- A pack, with what its index holds and the lookups that were made in it before. -/
structure ServedPack where
  pack : Pack
  table : IndexTable
  seen : List Oid
  served : table.Served seen pack.idxReader

namespace ServedPack
variable {P : ServedPack} {p : PartialOid} {o : Oid}

/-- The bucket that is searched for the zero-extended oid is its own one. -/
def Searched (P : ServedPack) (p : PartialOid) : Prop :=
  (P.table.kept (P.seen++[p.extended]) (P.table.start p.extended)).map Oid.first = some p.extended.first

instance (P : ServedPack) (p : PartialOid) : Decidable (P.Searched p) := inferInstanceAs (Decidable (_ = _))

/-- The zero-extended oid is found, with an offset in the extended layer. -/
def Panics (P : ServedPack) (p : PartialOid) : Prop :=
  P.Searched p ∧ ∃ row ∈ P.table.rows, row.oid = p.extended ∧ ¬row.offset.toNat ≤ MAX_OFFSET

/-- Of the oids with the prefix, the ones that a search shows. -/
def Shows (P : ServedPack) (p : PartialOid) (o : Oid) : Prop :=
  o ∈ P.table.oids ∧ p.Starts o ∧
    if P.Searched p then p.extended ∈ P.table.oids → o = p.extended
    else ∀ x ∈ P.table.oids, x.first = o.first → x ≤ o → p.Starts x

instance (P : ServedPack) (p : PartialOid) (o : Oid) : Decidable (P.Shows p o) := inferInstanceAs (Decidable (_ ∧ _ ∧ _))

theorem oidsWithPrefix_eq (P : ServedPack) (p : PartialOid) {s : Pack} (hs : P.table.Reads s.idxReader) {n index : ℕ}
    (hn : index+n = P.table.rows.length) :
    Pack.oidsWithPrefix p n index s = .ok ((P.table.oids.drop index).takeWhile fun oid => p.Starts oid) s := by
  induction n generalizing index with
  | zero =>
    rw [List.drop_of_length_le (by rw [P.table.length_oids]; omega)]
    rfl
  | succ n ih =>
    have hlt : index < P.table.rows.length := by omega
    have hread := PackIndexReader.readFrom_oid hs (List.getElem?_eq_getElem hlt)
    have hcall : call (Pack.idx (PackIndexReader.readFrom IndexFile.readOid .Oid index)) s = .ok P.table.rows[index].oid s := by
      rw [call,Pack.idx,hread]
    have hdrop : P.table.oids.drop index = P.table.rows[index].oid::P.table.oids.drop (index+1) := by
      rw [IndexTable.oids,← List.map_drop,← List.map_drop,List.drop_eq_getElem_cons hlt,List.map_cons]
    rw [Pack.oidsWithPrefix,bind_of_ok hcall,PartialOid.hasPrefix_eq,hdrop,List.takeWhile_cons]
    by_cases hstarts : p.Starts P.table.rows[index].oid
    · rw [decide_eq_true hstarts]
      exact (bind_of_ok rfl).trans (bind_of_ok (ih (by omega)))
    · rw [decide_eq_false hstarts]
      exact bind_of_ok rfl

open TabledPack.Sound (asked objOffset_ended)

theorem prefixMatches_run (P : ServedPack) (p : PartialOid) : Pack.prefixMatches p P.pack =
    match Pack.objOffset p.extended P.pack with
    | .ok _ s' => .ok [p.extended] s'
    | .error (.objectNotFoundInPackIndex _ idx) s' => Pack.oidsWithPrefix p (s'.idxReader.n-idx) idx s'
    | .error e s' => .error (.pack e) s' := by
  have hlift : lift p.intoOid P.pack = .ok p.extended P.pack := by
    rw [PartialOid.intoOid_eq]
    rfl
  exact bind_of_ok hlift

/-- What the lookup of the zero-extended oid says. -/
theorem objOffset_eq (P : ServedPack) (p : PartialOid) : Pack.objOffset p.extended P.pack = ended (asked P.pack p.extended)
    ((if P.Searched p then P.table.said p.extended
      else IndexTable.notFound p.extended (P.table.start p.extended)).map Prod.snd) := by
  rw [objOffset_ended,(P.served.step p.extended).1]
  rfl

/-- The scan after a lookup that found nothing. -/
theorem prefixMatches_notFound {idx : ℕ} (hidx : idx ≤ P.table.rows.length)
    (h : Pack.objOffset p.extended P.pack = .error (.objectNotFoundInPackIndex p.extended idx) (asked P.pack p.extended)) :
    ∃ s', Pack.prefixMatches p P.pack = .ok ((P.table.oids.drop idx).takeWhile fun oid => p.Starts oid) s' := by
  have hreads : P.table.Reads (asked P.pack p.extended).idxReader := (P.served.step p.extended).2.toReads
  refine ⟨asked P.pack p.extended,?_⟩
  rw [prefixMatches_run,h]
  exact P.oidsWithPrefix_eq p hreads (by rw [hreads.n]; omega)

theorem mem_scan {idx : ℕ} : o ∈ (P.table.oids.drop idx).takeWhile (fun oid => p.Starts oid) ↔
    o ∈ P.table.oids.drop idx ∧ ∀ x ∈ P.table.oids.drop idx, x ≤ o → p.Starts x := by
  have hs : (P.table.oids.drop idx).Pairwise (· < ·) := P.table.sorted.drop
  rw [mem_takeWhile_iff hs]
  simp only [decide_eq_true_eq]

theorem nodup_scan (P : ServedPack) (p : PartialOid) (idx : ℕ) :
    ((P.table.oids.drop idx).takeWhile fun oid => p.Starts oid).Nodup :=
  ((P.table.sorted.imp fun h => h.ne).sublist (List.drop_sublist _ _)).sublist (List.takeWhile_sublist _)

theorem prefixMatches_panics (h : P.Panics p) : ∃ e s', Pack.prefixMatches p P.pack = .error (.pack e) s' := by
  obtain ⟨hsearch,row,hrow,hoid,hlarge⟩ := h
  have hoffset := P.objOffset_eq p
  rw [if_pos hsearch,IndexTable.said_of_mem hrow hoid,IndexTable.readRow,if_neg hlarge] at hoffset
  refine ⟨.panic "assertion failed: layer < Layer::Ext",asked P.pack p.extended,?_⟩
  rw [prefixMatches_run,hoffset]
  rfl

theorem prefixMatches_ok (h : ¬P.Panics p) :
    ∃ oids s', Pack.prefixMatches p P.pack = .ok oids s' ∧ oids.Nodup ∧ ∀ o, o ∈ oids ↔ P.Shows p o := by
  have hoffset := P.objOffset_eq p
  have hs : P.table.oids.Pairwise (· < ·) := P.table.sorted
  by_cases hsearch : P.Searched p
  · rw [if_pos hsearch] at hoffset
    by_cases hmem : p.extended ∈ P.table.oids
    · obtain ⟨row,hrow,hoid⟩ := List.mem_map.mp hmem
      have hsmall : row.offset.toNat ≤ MAX_OFFSET := by
        by_contra hlarge
        exact h ⟨hsearch,row,hrow,hoid,hlarge⟩
      rw [IndexTable.said_of_mem hrow hoid,IndexTable.readRow,if_pos hsmall] at hoffset
      refine ⟨[p.extended],asked P.pack p.extended,?_,List.nodup_singleton _,fun o => ?_⟩
      · rw [prefixMatches_run,hoffset]
        rfl
      · rw [List.mem_singleton,Shows,if_pos hsearch]
        constructor
        · rintro rfl
          exact ⟨hmem,p.starts_extended,fun _ => rfl⟩
        · rintro ⟨-,-,hone⟩
          exact hone hmem
    · rw [IndexTable.said_of_notMem hmem] at hoffset
      obtain ⟨s',hs'⟩ := P.prefixMatches_notFound (by rw [← P.table.length_oids]; exact List.countP_le_length) hoffset
      refine ⟨_,s',hs',P.nodup_scan p _,fun o => ?_⟩
      have hdrop (x : Oid) : x ∈ P.table.oids.drop (rank P.table.oids p.extended) ↔ x ∈ P.table.oids ∧ p.extended ≤ x :=
        mem_drop_countP (f := id) (hs.imp fun h => h.le) p.extended
      simp only [mem_scan,hdrop,Shows,if_pos hsearch]
      constructor
      · rintro ⟨⟨ho,hle⟩,hall⟩
        exact ⟨ho,hall o ⟨ho,hle⟩ le_rfl,fun hext => absurd hext hmem⟩
      · rintro ⟨ho,hstarts,-⟩
        exact ⟨⟨ho,PartialOid.extended_le hstarts⟩,
          fun x hx hxo => PartialOid.starts_between p.starts_extended hstarts hx.2 hxo⟩
  · rw [if_neg hsearch] at hoffset
    obtain ⟨s',hs'⟩ := P.prefixMatches_notFound
      ((P.table.start_le_upTo p.extended).trans ((Packfile.upTo_le _ _).trans P.table.length_oids.le)) hoffset
    refine ⟨_,s',hs',P.nodup_scan p _,fun o => ?_⟩
    have hdrop (x : Oid) : x ∈ P.table.oids.drop (P.table.start p.extended) ↔
        x ∈ P.table.oids ∧ p.extended.first ≤ x.first :=
      mem_drop_countP (f := Oid.first) (hs.imp fun h => Oid.first_mono h.le) p.extended.first
    simp only [mem_scan,hdrop,Shows,if_neg hsearch]
    constructor
    · rintro ⟨⟨ho,hle⟩,hall⟩
      have hstarts := hall o ⟨ho,hle⟩ le_rfl
      refine ⟨ho,hstarts,fun x hx hfirst hxo => hall x ⟨hx,?_⟩ hxo⟩
      rw [hfirst,PartialOid.first_eq hstarts]
    · rintro ⟨ho,hstarts,hall⟩
      have hfirst := PartialOid.first_eq hstarts
      refine ⟨⟨ho,hfirst.ge⟩,fun x hx hxo => hall x hx.1 ?_ hxo⟩
      exact le_antisymm (Oid.first_mono hxo) (hfirst.le.trans hx.2)

end ServedPack
/-! ### What the loose objects show -/

namespace BitLooseObjDb
variable {p : PartialOid} {o : Oid}

def Shows (db : BitLooseObjDb) (p : PartialOid) (o : Oid) : Prop :=
  o ∈ db.objs ∧ p.Starts o ∧ p.text = p.lower ∧ ¬db.ignored o

instance (db : BitLooseObjDb) (p : PartialOid) (o : Oid) : Decidable (db.Shows p o) :=
  inferInstanceAs (Decidable (_ ∧ _ ∧ _ ∧ _))

theorem split_eq (p : PartialOid) : p.split = (p.text.take 2,p.text.drop 2) := by
  have htext : p.bytes.take p.len = p.text := by
    rw [PartialOid.bytes,p.len_eq]
    exact List.take_left
  have hlong : 2 ≤ p.text.length := by
    have h4 : 4 ≤ p.len := p.long
    rw [p.len_eq] at h4
    omega
  rw [PartialOid.split,htext,PartialOid.bytes,List.take_append_of_le_length hlong]

/-- The text as it was typed begins the text of an oid only if it is in lower case. -/
theorem text_prefix_iff : p.text <+: o.toHex ↔ p.Starts o ∧ p.text = p.lower := by
  constructor
  · intro h
    have hmap := h.map Char.toLower
    have hhex : o.toHex.map Char.toLower = o.toHex := toLower_toHex o.bytes
    rw [hhex] at hmap
    have htake := List.prefix_iff_eq_take.mp hmap
    rw [List.length_map] at htake
    exact ⟨hmap,(List.prefix_iff_eq_take.mp h).trans htake.symm⟩
  · rintro ⟨hstarts,htext⟩
    rw [htext]
    exact hstarts

theorem objPath_iff : (objPath o).1 = p.split.1 ∧ p.split.2 <+: (objPath o).2 ↔ p.text <+: o.toHex := by
  simp only [split_eq,objPath]
  constructor
  · rintro ⟨hdir,hfile⟩
    have happend := (List.prefix_append_right_inj (o.toHex.take 2)).mpr hfile
    rw [List.take_append_drop,hdir,List.take_append_drop] at happend
    exact happend
  · intro h
    obtain ⟨rest,hrest⟩ := h
    have hlong : 2 ≤ p.text.length := by
      have h4 : 4 ≤ p.len := p.long
      rw [p.len_eq] at h4
      omega
    rw [← hrest,List.take_append_of_le_length hlong,List.drop_append_of_le_length hlong]
    exact ⟨rfl,List.prefix_append _ _⟩

theorem prefixCandidates_eq (db : BitLooseObjDb) (p : PartialOid) :
    db.prefixCandidates p = .ok (db.objs.filter fun o => db.Shows p o) := by
  have hshows : ∀ o ∈ db.objs, db.Shows p o ↔
      ((objPath o).1 = p.split.1 ∧ ¬db.ignored o) ∧ p.split.2 <+: (objPath o).2 := by
    intro o ho
    rw [and_right_comm,objPath_iff,text_prefix_iff,Shows,and_iff_right ho,and_assoc]
  have hrun : db.prefixCandidates p = if ¬∃ o ∈ db.objs, (objPath o).1 = p.split.1 then .ok []
      else ((db.dirIter p.split.1).filter fun filename => p.split.2.isPrefixOf filename).mapM fun filename =>
        Oid.fromStr (p.split.1++filename) := rfl
  rw [hrun]
  by_cases hdir : ∃ o ∈ db.objs, (objPath o).1 = p.split.1
  · rw [if_neg (not_not.mpr hdir),dirIter,List.filter_map,List.filter_filter]
    have hsame : (db.objs.filter fun o => ((fun filename => p.split.2.isPrefixOf filename) ∘ fun o => (objPath o).2) o &&
        decide ((objPath o).1 = p.split.1 ∧ ¬db.ignored o)) = db.objs.filter fun o => db.Shows p o := by
      refine List.filter_congr fun o ho => ?_
      rw [Bool.eq_iff_iff,Bool.and_eq_true,decide_eq_true_eq,decide_eq_true_eq,Function.comp,List.isPrefixOf_iff_prefix,
        hshows o ho,and_comm]
    rw [hsame]
    refine mapM_map_ok fun o ho => ?_
    obtain ⟨ho,hshow⟩ := List.mem_filter.mp ho
    have hpath := ((hshows o ho).mp (of_decide_eq_true hshow)).1.1
    rw [← hpath]
    rw [show (objPath o).1++(objPath o).2 = o.toHex from List.take_append_drop 2 o.toHex,Oid.fromStr_toHex]
  · rw [if_pos hdir]
    refine congrArg Except.ok (List.filter_eq_nil_iff.mpr fun o ho hshow => ?_).symm
    exact hdir ⟨o,ho,((hshows o ho).mp (of_decide_eq_true hshow)).1.1⟩

end BitLooseObjDb
/-! ### The whole store -/

/-- The packs in the order in which they are asked, whatever they were asked before, and the loose objects. -/
structure Store where
  packs : List ServedPack
  loose : BitLooseObjDb

namespace Store
variable {s : Store} {p : PartialOid} {o o' : Oid}

def db (s : Store) : BitObjDb := ⟨s.packs.map ServedPack.pack,s.loose⟩

def expandPrefix (s : Store) (p : PartialOid) : Except BitError Oid := outcome (BitObjDb.expandPrefix p s.db)

/-- Some place holds the object, and its oid starts with the digits. -/
def Matching (s : Store) (p : PartialOid) (o : Oid) : Prop :=
  ((∃ P ∈ s.packs, o ∈ P.table.oids) ∨ o ∈ s.loose.objs) ∧ p.Starts o

def Several (s : Store) (p : PartialOid) : Prop := ∃ o o', s.Matching p o ∧ s.Matching p o' ∧ o ≠ o'

def Only (s : Store) (p : PartialOid) (o : Oid) : Prop := s.Matching p o ∧ ∀ o', s.Matching p o' → o' = o

/-- In how many places a search shows the oid. -/
def showing (s : Store) (p : PartialOid) (o : Oid) : ℕ :=
  s.packs.countP (fun P => P.Shows p o)+if s.loose.Shows p o then 1 else 0

theorem matching_of_showing (h : s.showing p o ≠ 0) : s.Matching p o := by
  by_cases hpack : ∃ P ∈ s.packs, P.Shows p o
  · obtain ⟨P,hP,ho,hstarts,-⟩ := hpack
    exact ⟨Or.inl ⟨P,hP,ho⟩,hstarts⟩
  · have hzero : s.packs.countP (fun P => P.Shows p o) = 0 := by
      rw [List.countP_eq_zero]
      intro P hP hshow
      exact hpack ⟨P,hP,of_decide_eq_true hshow⟩
    rw [showing,hzero,Nat.zero_add] at h
    obtain ⟨ho,hstarts,-⟩ : s.loose.Shows p o := by
      by_contra hno
      exact h (if_neg hno)
    exact ⟨Or.inr ho,hstarts⟩

/-! #### Candidates -/

theorem packCandidates_ok {packs : List ServedPack} (h : ∀ P ∈ packs, ¬P.Panics p) :
    ∃ oids rest, packCandidates p (packs.map ServedPack.pack) = .ok oids rest ∧
      ∀ o, oids.count o = packs.countP fun P => P.Shows p o := by
  induction packs with
  | nil => exact ⟨[],[],rfl,fun o => rfl⟩
  | cons P packs ih =>
    obtain ⟨oids,pack,hrun,hnodup,hshows⟩ := ServedPack.prefixMatches_ok (h P List.mem_cons_self)
    obtain ⟨more,rest,hrest,hcount⟩ := ih fun Q hQ => h Q (List.mem_cons_of_mem P hQ)
    refine ⟨oids++more,pack::rest,?_,fun o => ?_⟩
    · simp only [List.map_cons,packCandidates,hrun,hrest]
    · rw [List.count_append,hcount,hnodup.count,List.countP_cons,Nat.add_comm]
      simp only [hshows,decide_eq_true_eq]

theorem packCandidates_panics {packs : List ServedPack} (h : ∃ P ∈ packs, P.Panics p) :
    ∃ e rest, packCandidates p (packs.map ServedPack.pack) = .error (.pack e) rest := by
  induction packs with
  | nil => obtain ⟨P,hP,-⟩ := h; cases hP
  | cons P packs ih =>
    by_cases hP : P.Panics p
    · obtain ⟨e,pack,hrun⟩ := ServedPack.prefixMatches_panics hP
      exact ⟨e,pack::packs.map ServedPack.pack,by simp only [List.map_cons,packCandidates,hrun]⟩
    · obtain ⟨oids,pack,hrun,-⟩ := ServedPack.prefixMatches_ok hP
      obtain ⟨e,rest,hrest⟩ := ih <| by
        obtain ⟨Q,hQ,hpanics⟩ := h
        rcases List.mem_cons.mp hQ with rfl | hQ
        · exact absurd hpanics hP
        · exact ⟨Q,hQ,hpanics⟩
      exact ⟨e,pack::rest,by simp only [List.map_cons,packCandidates,hrun,hrest]⟩

/-- What is made of the candidates. -/
def pick (p : PartialOid) : List Oid → Except BitError Oid
  | [] => .error (.objectNotFound p.text)
  | [oid] => .ok oid
  | candidates => .error (.ambiguousPrefix p.text candidates)

theorem expandPrefix_pick (h : ∀ P ∈ s.packs, ¬P.Panics p) :
    ∃ c, s.expandPrefix p = pick p c ∧ ∀ o, c.count o = s.showing p o := by
  obtain ⟨oids,rest,hrun,hcount⟩ := packCandidates_ok h
  have hloose := s.loose.prefixCandidates_eq p
  refine ⟨oids++s.loose.objs.filter fun o => s.loose.Shows p o,?_,fun o => ?_⟩
  · have hcandidates : BitObjDb.prefixCandidates p s.db =
        .ok (oids++s.loose.objs.filter fun o => s.loose.Shows p o) { s.db with packs := rest } := by
      simp only [BitObjDb.prefixCandidates,db,hrun,hloose]
    rw [expandPrefix,BitObjDb.expandPrefix,bind_of_ok hcandidates]
    match oids++s.loose.objs.filter fun o => s.loose.Shows p o with
    | [] => rfl
    | [_] => rfl
    | _::_::_ => rfl
  · have hnodup : (s.loose.objs.filter fun o => s.loose.Shows p o).Nodup :=
      (s.loose.sorted.imp fun h => h.ne).filter _
    rw [List.count_append,hcount,hnodup.count,showing]
    refine congrArg _ (if_congr ?_ rfl rfl)
    rw [List.mem_filter,decide_eq_true_eq]
    exact and_iff_right_of_imp And.left

theorem expandPrefix_panics (h : ∃ P ∈ s.packs, P.Panics p) : ∃ e, s.expandPrefix p = .error (.pack e) := by
  obtain ⟨e,rest,hrun⟩ := packCandidates_panics h
  refine ⟨e,?_⟩
  have hcandidates : BitObjDb.prefixCandidates p s.db = .error (.pack e) { s.db with packs := rest } := by
    simp only [BitObjDb.prefixCandidates,db,hrun]
  rw [expandPrefix,BitObjDb.expandPrefix,bind_of_error hcandidates]
  rfl

/-! #### The answer -/

/-- A short id that only one object matches is expanded to that object; of the other ones it is said whether none or
several match. -/
def ExpandsRight (s : Store) (p : PartialOid) : Prop :=
  (∀ o, s.expandPrefix p = .ok o ↔ s.Only p o) ∧
  ((∃ candidates, s.expandPrefix p = .error (.ambiguousPrefix p.text candidates)) ↔ s.Several p) ∧
  (s.expandPrefix p = .error (.objectNotFound p.text) ↔ ∀ o, ¬s.Matching p o)

theorem cases_of_matching (h : s.Matching p o) : s.Only p o ∨ s.Several p := by
  by_cases hall : ∀ o', s.Matching p o' → o' = o
  · exact Or.inl ⟨h,hall⟩
  · obtain ⟨o',ho',hne⟩ : ∃ o', s.Matching p o' ∧ o' ≠ o := by simpa using hall
    exact Or.inr ⟨o',o,ho',h,hne⟩

/-- Of the three cases one is at hand, and the answers to them differ. -/
theorem expandsRight_iff : s.ExpandsRight p ↔ (∀ o, s.Only p o → s.expandPrefix p = .ok o) ∧
    (s.Several p → ∃ candidates, s.expandPrefix p = .error (.ambiguousPrefix p.text candidates)) ∧
    ((∀ o, ¬s.Matching p o) → s.expandPrefix p = .error (.objectNotFound p.text)) := by
  constructor
  · rintro ⟨hok,hambiguous,hnone⟩
    exact ⟨fun o => (hok o).mpr,hambiguous.mpr,hnone.mpr⟩
  · rintro ⟨hok,hambiguous,hnone⟩
    have htell : (∃ o, s.Only p o ∧ s.expandPrefix p = .ok o) ∨
        (s.Several p ∧ ∃ candidates, s.expandPrefix p = .error (.ambiguousPrefix p.text candidates)) ∨
        ((∀ o, ¬s.Matching p o) ∧ s.expandPrefix p = .error (.objectNotFound p.text)) := by
      by_cases hmatch : ∃ o, s.Matching p o
      · obtain ⟨o,ho⟩ := hmatch
        rcases cases_of_matching ho with honly | hseveral
        · exact Or.inl ⟨o,honly,hok o honly⟩
        · exact Or.inr (Or.inl ⟨hseveral,hambiguous hseveral⟩)
      · have hno := not_exists.mp hmatch
        exact Or.inr (Or.inr ⟨hno,hnone hno⟩)
    refine ⟨fun o => ⟨fun hrun => ?_,hok o⟩,⟨fun ⟨c,hrun⟩ => ?_,hambiguous⟩,⟨fun hrun => ?_,hnone⟩⟩
    · rcases htell with ⟨o',honly,hrun'⟩ | ⟨-,c,hrun'⟩ | ⟨-,hrun'⟩
      · rw [hrun] at hrun'
        cases hrun'
        exact honly
      · rw [hrun] at hrun'
        cases hrun'
      · rw [hrun] at hrun'
        cases hrun'
    · rcases htell with ⟨o',-,hrun'⟩ | ⟨hseveral,-⟩ | ⟨-,hrun'⟩
      · rw [hrun] at hrun'
        cases hrun'
      · exact hseveral
      · rw [hrun] at hrun'
        cases hrun'
    · rcases htell with ⟨o',-,hrun'⟩ | ⟨-,c,hrun'⟩ | ⟨hno,-⟩
      · rw [hrun] at hrun'
        cases hrun'
      · rw [hrun] at hrun'
        cases hrun'
      · exact hno

theorem pick_eq_ok {c : List Oid} (h : ∀ x ∈ c, x = o) : pick p c = .ok o ↔ c.count o = 1 := by
  obtain ⟨n,rfl⟩ : ∃ n, c = List.replicate n o := ⟨c.length,List.eq_replicate_of_mem h⟩
  rw [List.count_replicate_self]
  match n with
  | 0 => simp [pick]
  | 1 => simp [pick]
  | n+2 => simp [pick,List.replicate_succ]

theorem pick_eq_ambiguous {c : List Oid} :
    (∃ candidates, pick p c = .error (.ambiguousPrefix p.text candidates)) ↔ 2 ≤ c.length := by
  match c with
  | [] => simp [pick]
  | [_] => simp [pick]
  | _::_::_ => simp [pick]

/-- Short ids are expanded right exactly if no pack holds the zero-extended one at an offset in the extended layer, the
only match is shown in one place, and of several matches two are shown or one in two places. -/
theorem expandPrefix_right_iff (s : Store) (p : PartialOid) : s.ExpandsRight p ↔ (∀ P ∈ s.packs, ¬P.Panics p) ∧
    (∀ o, s.Only p o → s.showing p o = 1) ∧
    (s.Several p → (∃ a b, s.showing p a ≠ 0 ∧ s.showing p b ≠ 0 ∧ a ≠ b) ∨ ∃ a, 2 ≤ s.showing p a) := by
  rw [expandsRight_iff]
  by_cases hpanics : ∃ P ∈ s.packs, P.Panics p
  · -- the panic is no answer, but the zero-extended oid is a match
    obtain ⟨e,hrun⟩ := expandPrefix_panics hpanics
    obtain ⟨P,hP,hpanic⟩ := hpanics
    refine iff_of_false ?_ fun h => h.1 P hP hpanic
    rintro ⟨hok,hambiguous,-⟩
    obtain ⟨-,row,hrow,hoid,-⟩ := hpanic
    have hmatch : s.Matching p p.extended := ⟨Or.inl ⟨P,hP,hoid ▸ List.mem_map_of_mem hrow⟩,p.starts_extended⟩
    rcases cases_of_matching hmatch with honly | hseveral
    · rw [hok _ honly] at hrun
      cases hrun
    · obtain ⟨c,hc⟩ := hambiguous hseveral
      rw [hc] at hrun
      cases hrun
  · have hcalm : ∀ P ∈ s.packs, ¬P.Panics p := fun P hP hpanic => hpanics ⟨P,hP,hpanic⟩
    obtain ⟨c,hrun,hcount⟩ := expandPrefix_pick hcalm
    have hmem (o : Oid) : o ∈ c ↔ s.showing p o ≠ 0 := by
      rw [← hcount,← List.count_pos_iff,Nat.pos_iff_ne_zero]
    have honly (o : Oid) (h : s.Only p o) : s.expandPrefix p = .ok o ↔ s.showing p o = 1 := by
      rw [hrun,← hcount]
      exact pick_eq_ok fun x hx => h.2 x (matching_of_showing ((hmem x).mp hx))
    have hseveral : (∃ candidates, s.expandPrefix p = .error (.ambiguousPrefix p.text candidates)) ↔
        (∃ a b, s.showing p a ≠ 0 ∧ s.showing p b ≠ 0 ∧ a ≠ b) ∨ ∃ a, 2 ≤ s.showing p a := by
      rw [hrun,pick_eq_ambiguous,two_le_length_iff]
      simp only [hmem,hcount,exists_and_left]
    have hnone (h : ∀ o, ¬s.Matching p o) : s.expandPrefix p = .error (.objectNotFound p.text) := by
      have hempty : c = [] := List.eq_nil_iff_forall_not_mem.mpr fun o ho =>
        h o (matching_of_showing ((hmem o).mp ho))
      rw [hrun,hempty]
      rfl
    rw [hseveral]
    constructor
    · rintro ⟨hok,hamb,-⟩
      exact ⟨hcalm,fun o ho => (honly o ho).mp (hok o ho),hamb⟩
    · rintro ⟨-,hok,hamb⟩
      exact ⟨fun o ho => (honly o ho).mpr (hok o ho),hamb,hnone⟩

/-- A pack that was just opened. -/
def freshPack (t : IndexTable) : ServedPack := ⟨⟨[],[],t.opened,fun _ => none⟩,t,[],t.served_opened⟩

/-- One object, in a pack and loose. -/
def twiceStored : Store :=
  ⟨[freshPack IndexTable.oneTable],⟨[IndexTable.oneOid],List.pairwise_singleton _ _,fun _ => false⟩⟩

def shortOid : PartialOid where
  text := ['0','1','0','0']
  digits := by
    have hzero : isAsciiHexdigit '0' := by decide
    have hone : isAsciiHexdigit '1' := by decide
    simp [hzero,hone]
  long := by decide
  short := by decide

theorem extended_shortOid : shortOid.extended = IndexTable.oneOid := by decide +kernel

theorem starts_oneOid : shortOid.Starts IndexTable.oneOid := extended_shortOid ▸ shortOid.starts_extended

theorem showing_twice : twiceStored.showing shortOid IndexTable.oneOid = 2 := by
  have hpack : (freshPack IndexTable.oneTable).Shows shortOid IndexTable.oneOid := by
    refine ⟨List.mem_singleton_self _,starts_oneOid,?_⟩
    split
    · exact fun _ => extended_shortOid.symm
    · exact fun x hx _ _ => List.mem_singleton.mp hx ▸ starts_oneOid
  have hloose : twiceStored.loose.Shows shortOid IndexTable.oneOid :=
    ⟨List.mem_singleton_self _,starts_oneOid,by decide,by decide⟩
  rw [showing,if_pos hloose,twiceStored,List.countP_singleton,if_pos (decide_eq_true hpack)]

theorem expandPrefix_twice : ¬twiceStored.ExpandsRight shortOid := by
  intro h
  have hall : ∀ o, twiceStored.Matching shortOid o → o = IndexTable.oneOid := by
    rintro o ⟨⟨P,hP,ho⟩ | ho,-⟩
    · rw [List.mem_singleton.mp hP] at ho
      exact List.mem_singleton.mp ho
    · exact List.mem_singleton.mp ho
  have hrun := (h.1 IndexTable.oneOid).mpr ⟨⟨Or.inr (List.mem_singleton_self _),starts_oneOid⟩,hall⟩
  have hcalm : ∀ P ∈ twiceStored.packs, ¬P.Panics shortOid := by
    rintro P hP ⟨-,row,hrow,-,hlarge⟩
    rw [List.mem_singleton.mp hP] at hrow
    rw [List.mem_singleton.mp hrow] at hlarge
    exact hlarge (by decide)
  obtain ⟨c,hpick,hcount⟩ := expandPrefix_pick hcalm
  have hmem : ∀ x ∈ c, x = IndexTable.oneOid := by
    intro x hx
    refine hall x (matching_of_showing ?_)
    rw [← hcount]
    exact (List.count_pos_iff.mpr hx).ne'
  -- it is shown in both places
  rw [hpick,pick_eq_ok hmem,hcount,showing_twice] at hrun
  cases hrun

end Store
end Packfile
end Libbit
