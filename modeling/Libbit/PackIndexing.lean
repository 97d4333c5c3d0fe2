import Libbit.PackRead

/-! Indexing a well-formed pack, and reading it back through the index that was made. -/
namespace Libbit
namespace Packfile

open Lib Lib.Reader
open IndexFile (Parser readU32 writeU32 readOid readU32_decodes readOid_decodes)

section Insert
variable {α : Type} {l : List (Oid × α)} {oid : Oid} {a : α}

theorem mem_insertSorted (hs : l.Pairwise fun x y => x.1 < y.1) (x : Oid × α) :
    x ∈ insertSorted oid a l ↔ x = (oid,a) ∨ x ∈ l ∧ x.1 ≠ oid := by
  induction l with
  | nil => simp [insertSorted]
  | cons y l ih =>
    obtain ⟨hy,hs'⟩ := List.pairwise_cons.mp hs
    obtain ⟨o,b⟩ := y
    have habove (h : oid ≤ o) : ∀ z ∈ l, z.1 ≠ oid := fun z hz => (h.trans_lt (hy z hz)).ne'
    rw [insertSorted]
    rcases lt_trichotomy oid o with hlt | rfl | hgt
    · rw [if_pos hlt,List.mem_cons]
      refine or_congr_right ⟨fun hx => ⟨hx,?_⟩,And.left⟩
      rcases List.mem_cons.mp hx with rfl | hx
      · exact hlt.ne'
      · exact habove hlt.le x hx
    · rw [if_neg (lt_irrefl _),if_neg (lt_irrefl _),List.mem_cons]
      refine or_congr_right ⟨fun hx => ⟨List.mem_cons_of_mem _ hx,habove le_rfl x hx⟩,?_⟩
      rintro ⟨hx,hne⟩
      rcases List.mem_cons.mp hx with rfl | hx
      · exact absurd rfl hne
      · exact hx
    · rw [if_neg hgt.not_gt,if_pos hgt,List.mem_cons,ih hs',List.mem_cons]
      constructor
      · rintro (rfl | rfl | ⟨hx,hne⟩)
        · exact .inr ⟨.inl rfl,hgt.ne⟩
        · exact .inl rfl
        · exact .inr ⟨.inr hx,hne⟩
      · rintro (rfl | ⟨rfl | hx,hne⟩)
        · exact .inr (.inl rfl)
        · exact .inl rfl
        · exact .inr (.inr ⟨hx,hne⟩)

theorem sorted_insertSorted (hs : l.Pairwise fun x y => x.1 < y.1) :
    (insertSorted oid a l).Pairwise fun x y => x.1 < y.1 := by
  induction l with
  | nil => simp [insertSorted]
  | cons y l ih =>
    obtain ⟨hy,hs'⟩ := List.pairwise_cons.mp hs
    obtain ⟨o,b⟩ := y
    rw [insertSorted]
    rcases lt_trichotomy oid o with hlt | rfl | hgt
    · rw [if_pos hlt]
      refine List.pairwise_cons.mpr ⟨fun z hz => ?_,hs⟩
      rcases List.mem_cons.mp hz with rfl | hz
      · exact hlt
      · exact hlt.trans (hy z hz)
    · rw [if_neg (lt_irrefl _),if_neg (lt_irrefl _)]
      exact List.pairwise_cons.mpr ⟨hy,hs'⟩
    · rw [if_neg hgt.not_gt,if_pos hgt]
      refine List.pairwise_cons.mpr ⟨fun z hz => ?_,ih hs'⟩
      rcases (mem_insertSorted hs' z).mp hz with rfl | ⟨hz,-⟩
      · exact hgt
      · exact hy z hz

theorem length_insertSorted_le (oid : Oid) (a : α) (l : List (Oid × α)) : (insertSorted oid a l).length ≤ l.length+1 := by
  induction l with
  | nil => simp [insertSorted]
  | cons y l ih =>
    rw [insertSorted]
    split
    · simp
    · split
      · simpa using ih
      · simp

end Insert

/-- The base of a delta is an object with that hash. -/
def named (sha1 : Bytes → Oid) (oid : Oid) (_ : ℕ) (base : BitPackObjRaw) : Prop := base.oid sha1 = oid

/-- A well-formed pack below two gigabytes in which every delta has its base, on the objects of which the hash is
injective. -/
structure SelfContained (sha1 : Bytes → Oid) (zlib : Parser Bytes) extends PackFile zlib where
  trailer_eq : trailer = (sha1 (toPackFile.header++entries.flatMap Entry.text)).bytes
  size : toPackFile.bytes.length < 2^31-1
  complete : ∀ offset raw, toPackFile.At offset raw → ∃ n obj, toPackFile.Expands (named sha1) n offset obj
  injective : ∀ m n offset offset' a b, toPackFile.Expands (named sha1) m offset a →
    toPackFile.Expands (named sha1) n offset' b → a.oid sha1 = b.oid sha1 → a = b

namespace SelfContained
variable {sha1 : Bytes → Oid} {zlib : Parser Bytes} {p : SelfContained sha1 zlib} {offset offset' : ℕ} {oid : Oid}
  {obj obj' : BitPackObjRaw} {raw : BitPackObjRawDeltified} {delta : Bytes}

/-- The object at an offset. -/
def Holds (p : SelfContained sha1 zlib) (offset : ℕ) (obj : BitPackObjRaw) : Prop := ∃ n, p.Expands (named sha1) n offset obj

theorem holds_unique (h : p.Holds offset obj) (h' : p.Holds offset obj') : obj = obj' := by
  obtain ⟨n,h⟩ := h
  obtain ⟨m,h'⟩ := h'
  exact h.obj_unique (fun _ _ _ _ _ _ _ hb hb' hname hname' => p.injective _ _ _ _ _ _ hb hb' (hname.trans hname'.symm)) h'

/-- A delta is not its own base. -/
theorem dist_ne_zero (hat : p.At offset (.Ofs 0 delta)) : ¬p.Holds offset obj := by
  rintro ⟨n,h⟩
  induction n generalizing obj with
  | zero =>
    cases h with
    | whole hat' => cases PackFile.at_unique hat hat'
  | succ n ih =>
    cases h with
    | ofs hat' _ hbase =>
      cases PackFile.at_unique hat hat'
      exact ih hbase
    | ref hat' => cases PackFile.at_unique hat hat'

/-! ### What the indexer has seen -/

/-- Of the objects before the limit, the one at the offset is the last with the oid. -/
def LastBefore (p : SelfContained sha1 zlib) (limit : ℕ) (oid : Oid) (offset : ℕ) : Prop :=
  offset < limit ∧ (∃ obj, p.Holds offset obj ∧ obj.oid sha1 = oid) ∧
    ∀ offset' obj, offset < offset' → offset' < limit → p.Holds offset' obj → obj.oid sha1 ≠ oid

/-- The first entries were read. -/
structure Done (p : SelfContained sha1 zlib) (before after : List Entry) (s : PackIndexer) : Prop where
  entries : p.entries = before++after
  hashed : s.hashed = p.header++before.flatMap Entry.text
  reader : s.reader = after.flatMap Entry.text++p.trailer
  raw : ∀ offset obj, s.rawObjects offset = some obj ↔ offset < s.hashed.length ∧ p.Holds offset obj
  oids : ∀ oid offset, s.oidToOffset oid = some offset ↔ p.LastBefore s.hashed.length oid offset
  ordered : s.sorted.Pairwise fun x y => x.1 < y.1
  sorted : ∀ oid offset, (∃ crc, (oid,offset,crc) ∈ s.sorted) ↔ s.oidToOffset oid = some offset
  few : s.sorted.length ≤ before.length

/-- What lies before the end of an entry lies before its start, or is it. -/
theorem at_before {before after : List Entry} {e : Entry} (hentries : p.entries = before++e::after) (hat : p.At offset raw)
    (hlt : offset < (p.header++(before++[e]).flatMap Entry.text).length) :
    offset < (p.header++before.flatMap Entry.text).length ∨ offset = (p.header++before.flatMap Entry.text).length := by
  obtain ⟨before',e',after',hentries',rfl,-⟩ := hat
  have hne : e'.text ≠ [] := (p.stored e' (by simp [hentries'])).ne_nil
  rw [hentries] at hentries'
  rcases List.append_eq_append_iff.mp hentries' with ⟨c,rfl,hc⟩ | ⟨c,rfl,hc⟩
  · cases c with
    | nil => simp
    | cons x c =>
      obtain ⟨rfl,-⟩ : e = x ∧ after = c++e'::after' := by simpa using hc
      simp only [List.length_append,List.flatMap_append,List.flatMap_cons,List.flatMap_nil,List.length_nil] at hlt
      omega
  · cases c with
    | nil => simp
    | cons x c =>
      obtain ⟨rfl,-⟩ : e' = x ∧ after' = c++e::after := by simpa using hc
      have hpos : 0 < e'.text.length := List.length_pos_iff.mpr hne
      simp only [List.length_append,List.flatMap_append,List.flatMap_cons]
      omega

variable {before after : List Entry} {e : Entry} {s : PackIndexer}

theorem at_next (hentries : p.entries = before++e::after) :
    p.At (p.header++before.flatMap Entry.text).length e.raw := ⟨before,e,after,hentries,rfl,rfl⟩

/-- The base of the delta was seen. -/
def BaseSeen (p : SelfContained sha1 zlib) (limit : ℕ) (raw : BitPackObjRawDeltified) : Prop :=
  ∀ oid delta, raw = .Ref oid delta → ∃ offset base, offset < limit ∧ p.Holds offset base ∧ base.oid sha1 = oid

namespace Done
open PackIndexer

/-- A seen oid has a last object. -/
theorem exists_lastBefore {limit : ℕ} (hlt : offset < limit) (h : p.Holds offset obj) (hoid : obj.oid sha1 = oid) :
    ∃ offset', p.LastBefore limit oid offset' := by
  classical
  let P (o : ℕ) : Prop := o < limit ∧ ∃ obj, p.Holds o obj ∧ obj.oid sha1 = oid
  have hP : P offset := ⟨hlt,obj,h,hoid⟩
  obtain ⟨hlt',hobj⟩ : P (Nat.findGreatest P limit) := Nat.findGreatest_spec hlt.le hP
  refine ⟨_,hlt',hobj,fun o' obj' hgt hlt'' hobj' hoid' => ?_⟩
  have hle : o' ≤ Nat.findGreatest P limit := Nat.le_findGreatest hlt''.le ⟨hlt'',obj',hobj',hoid'⟩
  omega

theorem entry_ok {κ α : Type} {map : κ → Option α} {key : κ} {a : α} (h : map key = some a) : entry map key = .ok a := by
  rw [entry,h]

theorem expandDeltas_ok (h : p.Done before (e::after) s) (hobj : p.Holds s.hashed.length obj)
    (hseen : p.BaseSeen s.hashed.length e.raw) : s.expandDeltas e.raw s.hashed.length = .ok obj := by
  have hat : p.At s.hashed.length e.raw := h.hashed ▸ at_next h.entries
  cases hraw : e.raw with
  | Raw obj' =>
    rw [hraw] at hat
    rw [expandDeltas,holds_unique hobj ⟨0,.whole hat⟩]
  | Ofs dist delta =>
    rw [hraw] at hat
    have hne : dist ≠ 0 := by
      rintro rfl
      exact dist_ne_zero hat hobj
    obtain ⟨n,hobj⟩ := hobj
    cases hobj with
    | whole hat' => cases PackFile.at_unique hat hat'
    | ref hat' => cases PackFile.at_unique hat hat'
    | @ofs n _ _ _ base _ hat' hle hbase hexpand =>
      cases PackFile.at_unique hat hat'
      have hseen : s.rawObjects (s.hashed.length-dist) = some base := (h.raw _ _).mpr ⟨by omega,n,hbase⟩
      rw [expandDeltas,Pack.sub,if_pos hle]
      exact except_bind_eq_ok.mpr ⟨_,rfl,except_bind_eq_ok.mpr ⟨base,entry_ok hseen,hexpand⟩⟩
  | Ref oid delta =>
    obtain ⟨offset',base',hlt,hbase',hoid⟩ := hseen oid delta hraw
    obtain ⟨o,hlast⟩ := exists_lastBefore hlt hbase' hoid
    obtain ⟨base'',hbase'',hoid''⟩ := hlast.2.1
    rw [hraw] at hat
    obtain ⟨n,hobj⟩ := hobj
    cases hobj with
    | whole hat' => cases PackFile.at_unique hat hat'
    | ofs hat' => cases PackFile.at_unique hat hat'
    | @ref n _ o' _ _ base _ hat' hname hbase hexpand =>
      cases PackFile.at_unique hat hat'
      obtain ⟨m,hbaseExpands⟩ := hbase''
      obtain rfl : base'' = base := p.injective _ _ _ _ _ _ hbaseExpands hbase (hoid''.trans hname.symm)
      have hread : s.rawObjects o = some base'' := (h.raw _ _).mpr ⟨hlast.1,m,hbaseExpands⟩
      rw [expandDeltas]
      exact except_bind_eq_ok.mpr ⟨o,entry_ok ((h.oids oid o).mpr hlast),
        except_bind_eq_ok.mpr ⟨base'',entry_ok hread,hexpand⟩⟩

theorem expandDeltas_error (h : p.Done before (e::after) s) (hseen : ¬p.BaseSeen s.hashed.length e.raw) :
    ∃ err, s.expandDeltas e.raw s.hashed.length = .error err := by
  obtain ⟨oid,delta,hraw,hnone⟩ : ∃ oid delta, e.raw = .Ref oid delta ∧
      ∀ offset base, offset < s.hashed.length → p.Holds offset base → base.oid sha1 ≠ oid := by
    simp only [BaseSeen] at hseen
    push Not at hseen
    exact hseen
  have hunseen : s.oidToOffset oid = none := by
    by_contra hsome
    obtain ⟨o,ho⟩ := Option.ne_none_iff_exists'.mp hsome
    obtain ⟨hlt,⟨base,hbase,hoid⟩,-⟩ := (h.oids oid o).mp ho
    exact hnone o base hlt hbase hoid
  rw [hraw,expandDeltas,entry,hunseen]
  exact ⟨_,rfl⟩

/-- Where the next entry ends. -/
def next (before : List Entry) (e : Entry) (p : SelfContained sha1 zlib) : ℕ :=
  (p.header++(before++[e]).flatMap Entry.text).length

theorem length_next (h : p.Done before (e::after) s) : next before e p = s.hashed.length+e.text.length := by
  rw [next,h.hashed]
  simp only [List.flatMap_append,List.flatMap_cons,List.flatMap_nil,List.append_nil,List.length_append]
  omega

theorem lt_next (h : p.Done before (e::after) s) : s.hashed.length < next before e p := by
  have hpos : 0 < e.text.length := List.length_pos_iff.mpr (p.stored e (by simp [h.entries])).ne_nil
  rw [h.length_next]
  omega

/-- Up to the end of the next entry there is one object more. -/
theorem lt_next_iff (h : p.Done before (e::after) s) (hobj : p.Holds offset obj) :
    offset < next before e p ↔ offset < s.hashed.length ∨ offset = s.hashed.length := by
  constructor
  · obtain ⟨n,hobj⟩ := hobj
    obtain ⟨raw,hat⟩ := hobj.exists_at
    rw [h.hashed]
    exact at_before h.entries hat
  · rintro (hlt | rfl)
    · exact hlt.trans h.lt_next
    · exact h.lt_next

theorem lastBefore_next (h : p.Done before (e::after) s) (hobj : p.Holds s.hashed.length obj) :
    p.LastBefore (next before e p) oid offset ↔
      if obj.oid sha1 = oid then offset = s.hashed.length else p.LastBefore s.hashed.length oid offset := by
  constructor
  · rintro ⟨hlt,⟨obj',hobj',hoid'⟩,hlast⟩
    split
    · rename_i hoid
      rcases (h.lt_next_iff hobj').mp hlt with hlt | heq
      · exact absurd hoid (hlast _ obj hlt h.lt_next hobj)
      · exact heq
    · rename_i hoid
      rcases (h.lt_next_iff hobj').mp hlt with hlt | rfl
      · exact ⟨hlt,⟨obj',hobj',hoid'⟩,fun o a hgt hlt' => hlast o a hgt (hlt'.trans h.lt_next)⟩
      · exact absurd (holds_unique hobj hobj' ▸ hoid') hoid
  · split
    · rename_i hoid
      rintro rfl
      refine ⟨h.lt_next,⟨obj,hobj,hoid⟩,fun o a hgt hlt ha => ?_⟩
      rcases (h.lt_next_iff ha).mp hlt with hlt | rfl <;> omega
    · rename_i hoid
      rintro ⟨hlt,hex,hlast⟩
      refine ⟨hlt.trans h.lt_next,hex,fun o a hgt hlt' ha => ?_⟩
      rcases (h.lt_next_iff ha).mp hlt' with hlt' | rfl
      · exact hlast o a hgt hlt' ha
      · exact holds_unique hobj ha ▸ hoid

theorem readPackObjWithCrc_ok (h : p.Done before (e::after) s) (crc32 : Bytes → UInt32) :
    readPackObjWithCrc crc32 zlib s = .ok (crc32 e.text,e.raw)
      { s with hashed := s.hashed++e.text, reader := after.flatMap Entry.text++p.trailer } := by
  have hreader : s.reader = e.text++(after.flatMap Entry.text++p.trailer) := by
    rw [h.reader,List.flatMap_cons,List.append_assoc]
  have hrun := (p.stored e (by simp [h.entries])).decodes.run (after.flatMap Entry.text++p.trailer)
  have htake : (e.text++(after.flatMap Entry.text++p.trailer)).take
      ((e.text++(after.flatMap Entry.text++p.trailer)).length-(after.flatMap Entry.text++p.trailer).length) = e.text := by
    rw [List.length_append,Nat.add_sub_cancel,List.take_left]
  simp only [readPackObjWithCrc,run_getBind]
  rw [hreader,hrun]
  simp only [htake]
  rfl

/-- The indexer with one more object. -/
def added (sha1 : Bytes → Oid) (s : PackIndexer) (e : Entry) (rest : Bytes) (crc : UInt32) (obj : BitPackObjRaw) : PackIndexer :=
  { s with
    hashed := s.hashed++e.text
    reader := rest
    oidToOffset := Function.update s.oidToOffset (obj.oid sha1) (some s.hashed.length)
    rawObjects := Function.update s.rawObjects s.hashed.length (some obj)
    sorted := insertSorted (obj.oid sha1) (s.hashed.length,crc) s.sorted }

theorem done_added (h : p.Done before (e::after) s) (hobj : p.Holds s.hashed.length obj) (crc : UInt32) :
    p.Done (before++[e]) after (added sha1 s e (after.flatMap Entry.text++p.trailer) crc obj) := by
  have hlength : (s.hashed++e.text).length = next before e p := by rw [List.length_append,h.length_next]
  have hoids (oid : Oid) (offset : ℕ) : Function.update s.oidToOffset (obj.oid sha1) (some s.hashed.length) oid = some offset ↔
      p.LastBefore (next before e p) oid offset := by
    rw [h.lastBefore_next hobj,Function.update_apply]
    by_cases hoid : obj.oid sha1 = oid
    · rw [if_pos hoid.symm,if_pos hoid,Option.some.injEq,eq_comm]
    · rw [if_neg (Ne.symm hoid),if_neg hoid]
      exact h.oids oid offset
  refine ⟨?_,?_,rfl,fun offset obj' => ?_,fun oid offset => ?_,sorted_insertSorted h.ordered,fun oid offset => ?_,?_⟩
  · rw [h.entries]
    simp
  · rw [added,h.hashed]
    simp
  · simp only [added]
    rw [hlength,Function.update_apply]
    split
    · rename_i heq
      subst heq
      rw [Option.some.injEq]
      exact ⟨fun heq => heq ▸ ⟨h.lt_next,hobj⟩,fun hh => holds_unique hobj hh.2⟩
    · rename_i hne
      rw [h.raw]
      refine and_congr_left fun hh => ?_
      rw [h.lt_next_iff hh]
      exact (or_iff_left hne).symm
  · simp only [added]
    rw [hlength]
    exact hoids oid offset
  · simp only [added]
    rw [hoids,h.lastBefore_next hobj,← h.oids,← h.sorted]
    simp only [mem_insertSorted h.ordered,Prod.mk.injEq]
    constructor
    · rintro ⟨c,⟨rfl,rfl,-⟩ | ⟨hc,hne⟩⟩
      · rw [if_pos rfl]
      · rw [if_neg (Ne.symm hne)]
        exact ⟨c,hc⟩
    · split
      · rename_i hoid
        rintro rfl
        exact ⟨crc,.inl ⟨hoid.symm,rfl,rfl⟩⟩
      · rename_i hoid
        rintro ⟨c,hc⟩
        exact ⟨c,.inr ⟨hc,Ne.symm hoid⟩⟩
  · rw [List.length_append]
    exact (length_insertSorted_le _ _ _).trans (Nat.add_le_add_right h.few 1)

/-- One more object. -/
theorem step_ok (h : p.Done before (e::after) s) (crc32 : Bytes → UInt32) (hseen : p.BaseSeen s.hashed.length e.raw) :
    ∃ s', indexObject sha1 crc32 zlib s = .ok () s' ∧ p.Done (before++[e]) after s' := by
  obtain ⟨n,obj,hobj⟩ := p.complete _ _ (h.hashed ▸ at_next h.entries)
  have hexpand := h.expandDeltas_ok ⟨n,hobj⟩ hseen
  refine ⟨added sha1 s e (after.flatMap Entry.text++p.trailer) (crc32 e.text) obj,?_,h.done_added ⟨n,hobj⟩ _⟩
  rw [indexObject,run_getBind]
  refine (bind_of_ok (h.readPackObjWithCrc_ok crc32)).trans ?_
  simp only [bytesHashed,hexpand]
  rfl

theorem step_error (h : p.Done before (e::after) s) (crc32 : Bytes → UInt32) (hseen : ¬p.BaseSeen s.hashed.length e.raw) :
    ∃ err s', indexObject sha1 crc32 zlib s = .error err s' := by
  obtain ⟨err,herr⟩ := h.expandDeltas_error hseen
  refine ⟨err,{ s with hashed := s.hashed++e.text, reader := after.flatMap Entry.text++p.trailer },?_⟩
  rw [indexObject,run_getBind]
  refine (bind_of_ok (h.readPackObjWithCrc_ok crc32)).trans ?_
  simp only [bytesHashed,herr]
  rfl

end Done

/-! ### Whole runs -/

/-- Every delta with the oid of its base comes after an object with that oid. -/
def BasesFirst (p : SelfContained sha1 zlib) : Prop :=
  ∀ offset oid delta, p.At offset (.Ref oid delta) → ∃ offset' base, offset' < offset ∧ p.Holds offset' base ∧
    base.oid sha1 = oid

namespace Done
open PackIndexer

theorem run_ok (hfirst : p.BasesFirst) (crc32 : Bytes → UInt32) (h : p.Done before after s) :
    ∃ s', indexObjects sha1 crc32 zlib after.length s = .ok () s' ∧ p.Done (before++after) [] s' := by
  induction after generalizing before s with
  | nil => exact ⟨s,rfl,by simpa using h⟩
  | cons e after ih =>
    have hseen : p.BaseSeen s.hashed.length e.raw := fun oid delta hraw =>
      hfirst _ oid delta (hraw ▸ h.hashed ▸ at_next h.entries)
    obtain ⟨s₁,hstep,h₁⟩ := h.step_ok crc32 hseen
    obtain ⟨s',hrest,h'⟩ := ih h₁
    exact ⟨s',(bind_of_ok hstep).trans hrest,by simpa using h'⟩

theorem seen_of_run (crc32 : Bytes → UInt32) {s' : PackIndexer} (h : p.Done before after s)
    (hok : indexObjects sha1 crc32 zlib after.length s = .ok () s') {b a : List Entry} (hafter : after = b++e::a) :
    p.BaseSeen (p.header++(before++b).flatMap Entry.text).length e.raw := by
  induction after generalizing before s b with
  | nil => simp at hafter
  | cons e' after ih =>
    have hseen : p.BaseSeen s.hashed.length e'.raw := by
      by_contra hnot
      obtain ⟨err,s₁,herr⟩ := h.step_error crc32 hnot
      rw [List.length_cons,indexObjects,bind_of_error herr] at hok
      cases hok
    cases b with
    | nil =>
      obtain ⟨rfl,-⟩ : e' = e ∧ after = a := by simpa using hafter
      rw [List.append_nil,← h.hashed]
      exact hseen
    | cons x b =>
      obtain ⟨rfl,hrest⟩ : e' = x ∧ after = b++e::a := by simpa using hafter
      obtain ⟨s₁,hstep,h₁⟩ := h.step_ok crc32 hseen
      rw [List.length_cons,indexObjects,bind_of_ok hstep] at hok
      simpa using ih h₁ hok hrest

end Done

/-- The indexer at the first object. -/
theorem done_new (p : SelfContained sha1 zlib) :
    ∃ s, PackIndexer.new p.bytes = .ok s ∧ s.objectc.toNat = p.entries.length ∧ p.Done [] p.entries s := by
  have hrun := p.header_decodes.run (p.entries.flatMap Entry.text++p.trailer)
  rw [← List.append_assoc] at hrun
  have htake : p.bytes.take (p.bytes.length-(p.entries.flatMap Entry.text++p.trailer).length) = p.header := by
    rw [PackFile.bytes,List.append_assoc,List.length_append,Nat.add_sub_cancel,List.take_left]
  have hnone (offset : ℕ) (obj : BitPackObjRaw) (hlt : offset < p.header.length) : ¬p.Holds offset obj := by
    rintro ⟨n,hobj⟩
    obtain ⟨raw,before,e,after,-,rfl,-⟩ := hobj.exists_at
    rw [List.length_append] at hlt
    omega
  refine ⟨⟨p.header,p.entries.flatMap Entry.text++p.trailer,UInt32.ofNat p.entries.length,fun _ => none,fun _ => none,[]⟩,
    ?_,UInt32.toNat_ofNat_of_lt' p.few,rfl,by simp,rfl,fun offset obj => ?_,fun oid offset => ?_,.nil,by simp,by simp⟩
  · rw [PackIndexer.new,PackFile.bytes,hrun]
    rw [PackFile.bytes] at htake
    exact congrArg (fun b => Except.ok (PackIndexer.mk b _ _ _ _ _)) htake
  · simp only [reduceCtorEq,false_iff,not_and]
    exact hnone offset obj
  · simp only [reduceCtorEq,false_iff]
    rintro ⟨hlt,⟨obj,hobj,-⟩,-⟩
    exact hnone offset obj hlt hobj

/-- The last object with the oid. -/
def LastCopy (p : SelfContained sha1 zlib) (oid : Oid) (offset : ℕ) (_ : BitPackObjRaw) : Prop :=
  (∃ obj, p.Holds offset obj ∧ obj.oid sha1 = oid) ∧
    ∀ offset' obj, offset < offset' → p.Holds offset' obj → obj.oid sha1 ≠ oid

/-- Every object has a chain of bases that ends if each base is looked for at the last object with its oid. -/
def ChainsEnd (p : SelfContained sha1 zlib) : Prop :=
  ∀ oid offset obj, p.LastCopy oid offset obj → ∃ n obj, p.Expands p.LastCopy n offset obj

theorem lt_of_holds (h : p.Holds offset obj) : offset < (p.header++p.entries.flatMap Entry.text).length := by
  obtain ⟨n,hobj⟩ := h
  obtain ⟨raw,before,e,after,hentries,rfl,-⟩ := hobj.exists_at
  have hpos : 0 < e.text.length := List.length_pos_iff.mpr (p.stored e (by simp [hentries])).ne_nil
  rw [hentries]
  simp only [List.length_append,List.flatMap_append,List.flatMap_cons]
  omega

theorem lastBefore_iff : p.LastBefore (p.header++p.entries.flatMap Entry.text).length oid offset ↔ p.LastCopy oid offset obj := by
  constructor
  · rintro ⟨-,hex,hlast⟩
    exact ⟨hex,fun o a hgt ha => hlast o a hgt (lt_of_holds ha) ha⟩
  · rintro ⟨⟨a,ha,hoid⟩,hlast⟩
    exact ⟨lt_of_holds ha,⟨a,ha,hoid⟩,fun o b hgt _ hb => hlast o b hgt hb⟩

theorem holds_of_lastCopy {n : ℕ} (h : p.Expands p.LastCopy n offset obj) : p.Holds offset obj := by
  induction h with
  | whole hat => exact ⟨0,.whole hat⟩
  | ofs hat hle _ hobj ih =>
    obtain ⟨n,hbase⟩ := ih
    exact ⟨n+1,.ofs hat hle hbase hobj⟩
  | ref hat hname _ hobj ih =>
    obtain ⟨n,hbase⟩ := ih
    obtain ⟨⟨base,hholds,hoid⟩,-⟩ := hname
    obtain rfl := holds_unique hholds ⟨n,hbase⟩
    exact ⟨n+1,.ref hat hoid hbase hobj⟩

/-- In a pack that holds no object twice every chain ends. -/
theorem chainsEnd_of_distinct (h : ∀ offset offset' a b, p.Holds offset a → p.Holds offset' b → a.oid sha1 = b.oid sha1 →
    offset = offset') : p.ChainsEnd := by
  rintro oid offset _ ⟨⟨obj,⟨n,hobj⟩,-⟩,-⟩
  refine ⟨n,obj,?_⟩
  clear oid
  induction hobj with
  | whole hat => exact .whole hat
  | ofs hat hle _ hexpand ih => exact .ofs hat hle ih hexpand
  | ref hat hname hbase hexpand ih =>
    refine .ref hat ⟨⟨_,⟨_,hbase⟩,hname⟩,fun o a hgt ha hoid => ?_⟩ ih hexpand
    exact hgt.ne (h _ _ _ _ ⟨_,hbase⟩ ha (hname.trans hoid.symm))

namespace Done
open PackIndexer

/-- The index of what was seen. -/
def indexOf (sha1 : Bytes → Oid) (s : PackIndexer) : PackIndex :=
  ⟨fun b => UInt32.ofNat (buildFanout (s.sorted.map Prod.fst) b),s.sorted.map Prod.fst,s.sorted.map fun x => x.2.2,
    s.sorted.map fun x => UInt32.ofNat x.2.1,sha1 s.hashed⟩

variable (h : p.Done p.entries [] s)
include h

theorem lastCopy_iff (obj : BitPackObjRaw) : (∃ crc, (oid,offset,crc) ∈ s.sorted) ↔ p.LastCopy oid offset obj := by
  rw [h.sorted,h.oids,h.hashed,lastBefore_iff]

theorem offset_lt {crc : UInt32} (hx : (oid,offset,crc) ∈ s.sorted) : offset < MAX_OFFSET := by
  obtain ⟨⟨obj,hobj,-⟩,-⟩ := (h.lastCopy_iff ⟨.Blob,[]⟩).mp ⟨crc,hx⟩
  have hlt := lt_of_holds hobj
  have hsize := p.size
  rw [PackFile.bytes,List.length_append] at hsize
  rw [MAX_OFFSET]
  omega

theorem finish_ok : s.finish sha1 = .ok (indexOf sha1 s) := by
  have hreader : s.reader = (sha1 s.hashed).bytes++[] := by
    rw [h.reader,p.trailer_eq,h.hashed,List.flatMap_nil,List.nil_append,List.append_nil]
  have hassert : Decodes (do
      require (.panic "assertion failed: reader.is_at_eof()?") (([] : Bytes) = [])
      require (.bail "corrupted packfile") (sha1 s.hashed = sha1 s.hashed)
      pure (sha1 s.hashed) : Parser Oid) [] (sha1 s.hashed) :=
    (Decodes.require rfl).andThen <| (Decodes.require rfl).andThen <| Decodes.pure _
  have htrailer : (s.readTrailer sha1).run s.reader = .ok (sha1 s.hashed,[]) := by
    rw [hreader,readTrailer,StateT.run_bind,(readOid_decodes (sha1 s.hashed)).run []]
    exact hassert []
  rw [finish,htrailer]
  exact except_bind_eq_ok.mpr ⟨_,rfl,except_bind_eq_ok.mpr ⟨(),ensure_eq_ok.mpr fun x hx => h.offset_lt hx,rfl⟩⟩

def rowOf (x : Oid × ℕ × UInt32) : Row := ⟨x.1,x.2.2,UInt32.ofNat x.2.1⟩

theorem toNat_offset {x : Oid × ℕ × UInt32} (hx : x ∈ s.sorted) : (rowOf x).offset.toNat = x.2.1 := by
  obtain ⟨oid,offset,crc⟩ := x
  have hlt := h.offset_lt hx
  rw [MAX_OFFSET] at hlt
  exact UInt32.toNat_ofNat_of_lt' (by simp only [UInt32.size]; omega)

theorem small_offset {x : Oid × ℕ × UInt32} (hx : x ∈ s.sorted) : (rowOf x).offset.toNat ≤ MAX_OFFSET := by
  rw [h.toNat_offset hx]
  exact (h.offset_lt hx).le

/-- The pack with the index that was made. -/
def tabled : TabledPack zlib where
  toPackFile := p.toPackFile
  table :=
    { rows := s.sorted.map rowOf
      ext := []
      trailer := (sha1 s.hashed).bytes++(sha1 (indexOf sha1 s).body).bytes
      sorted := by
        rw [List.map_map,List.pairwise_map]
        exact h.ordered
      small := by
        rw [List.length_map]
        exact h.few.trans_lt p.few
      large := by
        intro row hrow hlarge
        obtain ⟨x,hx,rfl⟩ := List.mem_map.mp hrow
        exact absurd hlarge (not_lt.mpr (h.small_offset hx)) }

theorem oids_eq : h.tabled.table.oids = (indexOf sha1 s).oids := by
  rw [IndexTable.oids,tabled,List.map_map]
  rfl

theorem exists_row (hmem : oid ∈ (indexOf sha1 s).oids) : ∃ row ∈ h.tabled.table.rows, row.oid = oid := by
  rw [← h.oids_eq] at hmem
  exact List.mem_map.mp hmem

theorem serialize_eq : (indexOf sha1 s).serialize sha1 = h.tabled.table.bytes := by
  have hcrcs : h.tabled.table.rows.map Row.crc = (indexOf sha1 s).crcs := by
    rw [tabled,List.map_map]
    rfl
  have hoffsets : h.tabled.table.rows.map Row.offset = (indexOf sha1 s).offsets := by
    rw [tabled,List.map_map]
    rfl
  have hfanout : h.tabled.table.fanout = (indexOf sha1 s).fanout := by
    funext b
    rw [IndexTable.fanout,h.oids_eq]
    rfl
  rw [IndexTable.bytes,IndexTable.header,IndexTable.layers,hcrcs,hoffsets,hfanout,h.oids_eq,PackIndex.serialize]
  have hext : h.tabled.table.ext.flatMap writeU64 = [] := rfl
  have htrailer : h.tabled.table.trailer = (indexOf sha1 s).packHash.bytes++(sha1 (indexOf sha1 s).body).bytes := rfl
  rw [hext,htrailer,PackIndex.body]
  simp only [List.append_assoc,List.nil_append]
  rfl

theorem finds_iff (obj : BitPackObjRaw) : h.tabled.table.finds oid offset obj ↔ p.LastCopy oid offset obj := by
  rw [← h.lastCopy_iff]
  constructor
  · rintro ⟨row,hrow,rfl,-,rfl⟩
    obtain ⟨x,hx,rfl⟩ := List.mem_map.mp hrow
    rw [h.toNat_offset hx]
    exact ⟨x.2.2,hx⟩
  · rintro ⟨crc,hx⟩
    exact ⟨rowOf (oid,offset,crc),List.mem_map_of_mem hx,rfl,h.small_offset hx,h.toNat_offset hx⟩

/-- Every object starts at one of these. -/
def Start (p : SelfContained sha1 zlib) (offset : ℕ) : Prop := ∃ obj, p.Holds offset obj

theorem mem_oids_iff : oid ∈ (indexOf sha1 s).oids ↔ ∃ offset obj, p.Holds offset obj ∧ obj.oid sha1 = oid := by
  constructor
  · intro hmem
    obtain ⟨⟨o,offset,crc⟩,hx,rfl⟩ := List.mem_map.mp hmem
    obtain ⟨⟨obj,hobj,hoid⟩,-⟩ := (h.lastCopy_iff ⟨.Blob,[]⟩).mp ⟨crc,hx⟩
    exact ⟨offset,obj,hobj,hoid⟩
  · rintro ⟨offset,obj,hobj,hoid⟩
    obtain ⟨o,hlast⟩ := exists_lastBefore (lt_of_holds hobj) hobj hoid
    obtain ⟨crc,hx⟩ := (h.lastCopy_iff obj).mpr (lastBefore_iff.mp hlast)
    exact List.mem_map.mpr ⟨_,hx,rfl⟩

theorem recorded_eq {row : Row} (hrow : row ∈ h.tabled.table.rows) : h.tabled.table.recorded row = row.offset.toNat := by
  obtain ⟨x,hx,rfl⟩ := List.mem_map.mp hrow
  exact if_pos (h.small_offset hx)

theorem lists_start : h.tabled.Lists (Start p) := by
  intro row hrow
  rw [h.recorded_eq hrow]
  obtain ⟨x,hx,rfl⟩ := List.mem_map.mp hrow
  obtain ⟨oid,offset,crc⟩ := x
  obtain ⟨⟨obj,hobj,-⟩,-⟩ := (h.lastCopy_iff ⟨.Blob,[]⟩).mp ⟨crc,hx⟩
  rw [h.toNat_offset hx]
  exact ⟨obj,hobj⟩

theorem closed_start : h.tabled.Closed (Start p) := by
  rintro offset ⟨obj,n,hobj⟩
  cases hobj with
  | whole hat => exact .whole hat
  | ofs hat hle hbase => exact .ofs hat hle ⟨_,_,hbase⟩
  | @ref n _ o oid _ base _ hat hname hbase =>
    obtain ⟨row,hrow,rfl⟩ : ∃ row ∈ h.tabled.table.rows, row.oid = oid := by
      have hmem : oid ∈ h.tabled.table.oids := by
        rw [h.oids_eq,h.mem_oids_iff]
        exact ⟨o,base,⟨_,hbase⟩,hname⟩
      exact List.mem_map.mp hmem
    exact .ref hat hrow (h.lists_start row hrow)

end Done

/-- What is read of an object through the index, after other objects were read. -/
def readBack (p : SelfContained sha1 zlib) (index : PackIndex) (prior : List Oid) (oid : Oid) : Except Error BitPackObjRaw := do
  let pack ← Pack.new p.bytes (index.serialize sha1)
  outcome (Pack.readObjRaw zlib oid (prior.foldl (fun pack oid => final (Pack.readObjRaw zlib oid pack)) pack))

/-- The indexer lists the oids of the objects, and each is read back as the object with that hash. -/
def Agrees (p : SelfContained sha1 zlib) (crc32 : Bytes → UInt32) : Prop :=
  ∃ index, PackIndexer.indexPack sha1 crc32 zlib p.bytes = .ok index ∧
    (∀ oid, oid ∈ index.oids ↔ ∃ offset obj, p.Holds offset obj ∧ obj.oid sha1 = oid) ∧
    ∀ prior oid, (∀ o ∈ prior, o ∈ index.oids) → oid ∈ index.oids →
      ∃ obj, p.readBack index prior oid = .ok obj ∧ obj.oid sha1 = oid

theorem indexPack_eq (p : SelfContained sha1 zlib) (crc32 : Bytes → UInt32) :
    ∃ s, p.Done [] p.entries s ∧ PackIndexer.indexPack sha1 crc32 zlib p.bytes =
      endState (PackIndexer.indexObjects sha1 crc32 zlib p.entries.length s) >>= fun s => s.finish sha1 := by
  obtain ⟨s,hnew,hcount,hdone⟩ := p.done_new
  refine ⟨s,hdone,?_⟩
  rw [PackIndexer.indexPack,hnew,← hcount]
  rfl

theorem indexPack_ok (hfirst : p.BasesFirst) (crc32 : Bytes → UInt32) :
    ∃ s, p.Done p.entries [] s ∧ PackIndexer.indexPack sha1 crc32 zlib p.bytes = .ok (Done.indexOf sha1 s) := by
  obtain ⟨s,hdone,hindex⟩ := p.indexPack_eq crc32
  obtain ⟨s',hrun,hdone'⟩ := hdone.run_ok hfirst crc32
  refine ⟨s',hdone',?_⟩
  rw [hindex,hrun]
  exact hdone'.finish_ok

theorem basesFirst_of_ok {crc32 : Bytes → UInt32} {index : PackIndex}
    (hok : PackIndexer.indexPack sha1 crc32 zlib p.bytes = .ok index) : p.BasesFirst := by
  obtain ⟨s,hdone,hindex⟩ := p.indexPack_eq crc32
  rw [hindex] at hok
  cases hrun : PackIndexer.indexObjects sha1 crc32 zlib p.entries.length s with
  | error e s' =>
    rw [hrun] at hok
    cases hok
  | ok u s' =>
    rintro offset oid delta ⟨b,e,a,hentries,rfl,hraw⟩
    exact hdone.seen_of_run crc32 hrun hentries oid delta hraw

theorem readBack_eq {s : PackIndexer} (h : p.Done p.entries [] s) (prior : List Oid) (oid : Oid) :
    p.readBack (Done.indexOf sha1 s) prior oid = outcome (Pack.readObjRaw zlib oid
      (prior.foldl (fun pack oid => final (Pack.readObjRaw zlib oid pack)) h.tabled.opened)) := by
  have hnew : Pack.new p.bytes ((Done.indexOf sha1 s).serialize sha1) = .ok h.tabled.opened := by
    rw [h.serialize_eq]
    exact h.tabled.new_bytes
  rw [readBack,hnew]
  rfl

theorem sound_reads {s : PackIndexer} (h : p.Done p.entries [] s) {prior : List Oid}
    (hprior : ∀ o ∈ prior, o ∈ (Done.indexOf sha1 s).oids) :
    h.tabled.Sound (prior.foldl (fun pack oid => final (Pack.readObjRaw zlib oid pack)) h.tabled.opened) := by
  induction prior using List.reverseRecOn with
  | nil => exact h.tabled.sound_opened
  | append_singleton prior o ih =>
    have hsound := ih fun x hx => hprior x (List.mem_append_left _ hx)
    obtain ⟨row,hrow,rfl⟩ := h.exists_row (hprior o (by simp))
    rw [List.foldl_append]
    exact (TabledPack.Sound.readObjRaw_fine h.closed_start h.lists_start hsound hrow).final fun _ _ h' => h'.1

/-- Indexing a pack and reading it back agree exactly if every delta with the oid of its base comes after an object with
that oid, and the chains of bases end at the objects that are listed. -/
theorem agrees_iff (p : SelfContained sha1 zlib) (crc32 : Bytes → UInt32) : p.Agrees crc32 ↔ p.BasesFirst ∧ p.ChainsEnd := by
  constructor
  · rintro ⟨index,hindex,-,hread⟩
    have hfirst := basesFirst_of_ok hindex
    refine ⟨hfirst,fun oid offset obj hlast => ?_⟩
    obtain ⟨s,h,hindex'⟩ := indexPack_ok hfirst crc32
    rw [hindex] at hindex'
    cases hindex'
    obtain ⟨row,hrow,rfl,hsmall,rfl⟩ := (h.finds_iff obj).mpr hlast
    have hmem : row.oid ∈ (Done.indexOf sha1 s).oids := h.oids_eq ▸ List.mem_map_of_mem hrow
    obtain ⟨obj',hobj',-⟩ := hread [] row.oid (by simp) hmem
    rw [readBack_eq h] at hobj'
    have hfine := TabledPack.Sound.readObjRaw_fine h.closed_start h.lists_start h.tabled.sound_opened hrow
    cases hr : Pack.readObjRaw zlib row.oid h.tabled.opened with
    | error e s' =>
      rw [List.foldl_nil,hr] at hobj'
      cases hobj'
    | ok obj'' s' =>
      rw [hr] at hfine
      obtain ⟨-,-,n,hexpands⟩ := hfine
      exact ⟨n,obj'',hexpands.mono fun o k b hfinds => (h.finds_iff b).mp hfinds⟩
  · rintro ⟨hfirst,hchains⟩
    obtain ⟨s,h,hindex⟩ := indexPack_ok hfirst crc32
    refine ⟨_,hindex,fun oid => h.mem_oids_iff,fun prior oid hprior hmem => ?_⟩
    obtain ⟨row,hrow,rfl⟩ := h.exists_row hmem
    obtain ⟨⟨oid,offset,crc⟩,hx,rfl⟩ := List.mem_map.mp hrow
    have hlast (obj : BitPackObjRaw) : p.LastCopy oid offset obj := (h.lastCopy_iff obj).mp ⟨crc,hx⟩
    obtain ⟨n,obj,hexpands⟩ := hchains oid offset _ (hlast ⟨.Blob,[]⟩)
    obtain ⟨⟨obj',hholds,hoid⟩,-⟩ := hlast obj
    obtain rfl := holds_unique hholds (holds_of_lastCopy hexpands)
    refine ⟨obj',?_,hoid⟩
    rw [readBack_eq h]
    refine (sound_reads h hprior).readObjRaw_ok hrow (h.small_offset hx) (n := n) ?_
    rw [h.toNat_offset hx]
    exact hexpands.mono fun o k b hlast' => (h.finds_iff b).mpr hlast'

end SelfContained

/-! A pack in which a delta comes before its base. -/

/-- The delta of `deltaEntry`, with the oid of its base. -/
def refEntry : Entry :=
  ⟨.Ref wholeRow.oid [0x01,0x01,0x01,0x62],[0x74]++(wholeRow.oid.bytes++([0x78,0x01,0x01]++
    ([0x04,0x00,0xfb,0xff]++([0x01,0x01,0x01,0x62]++[0x00,0x6f,0x00,0x66]))))⟩

def lateBody : Bytes :=
  PACK_SIGNATURE++writeU32 2++writeU32 2++[refEntry,wholeEntry].flatMap Entry.text

def blobA : BitPackObjRaw := ⟨.Blob,[0x61]⟩

def blobB : BitPackObjRaw := ⟨.Blob,[0x62]⟩

/-- The SHA-1 of the two blobs and of the pack. -/
def lateSha1 (bytes : Bytes) : Oid :=
  if bytes = [0x62,0x6c,0x6f,0x62,0x20,0x31,0x00,0x61] then wholeRow.oid
  else if bytes = [0x62,0x6c,0x6f,0x62,0x20,0x31,0x00,0x62] then deltaRow.oid
  else if bytes = lateBody then
    ⟨[0xf3,0xe4,0x70,0x4d,0x82,0x5c,0x47,0xd6,0xbf,0xf3,0xb2,0x69,0x73,0x52,0xd9,0xaa,0x42,0x0b,0x3e,0x25],rfl⟩
  else .UNKNOWN

def lateFile : PackFile storedBlock where
  entries := [refEntry,wholeEntry]
  trailer := (lateSha1 lateBody).bytes
  stored := by
    intro e he
    rcases List.mem_pair.mp he with rfl | rfl
    · exact .ref ⟨⟨4,[],rfl,rfl,by decide⟩,by decide⟩ (storedBlock_decodes rfl rfl rfl)
    · exact @Stored.whole _ .Blob _ _ _ _ rfl ⟨⟨1,[],rfl,rfl,by decide⟩,by decide⟩ (storedBlock_decodes rfl rfl rfl)
  few := by decide

theorem lateFile_at {offset : ℕ} {raw : BitPackObjRawDeltified} :
    lateFile.At offset raw ↔ offset = 12 ∧ raw = refEntry.raw ∨ offset = 48 ∧ raw = wholeEntry.raw := by
  constructor
  · rintro ⟨before,e,after,hentries,rfl,rfl⟩
    rcases before with _ | ⟨x,_ | ⟨y,before⟩⟩
    · cases hentries
      exact .inl ⟨rfl,rfl⟩
    · cases hentries
      exact .inr ⟨rfl,rfl⟩
    · exact absurd (congrArg List.length hentries) (by simp [lateFile])
  · rintro (⟨rfl,rfl⟩ | ⟨rfl,rfl⟩)
    · exact ⟨[],refEntry,[wholeEntry],rfl,rfl,rfl⟩
    · exact ⟨[refEntry],wholeEntry,[],rfl,rfl,rfl⟩

theorem oid_blobA : blobA.oid lateSha1 = wholeRow.oid := by decide

theorem oid_blobB : blobB.oid lateSha1 = deltaRow.oid := by decide

theorem late_expands {n offset : ℕ} {obj : BitPackObjRaw} (h : lateFile.Expands (named lateSha1) n offset obj) :
    obj = blobA ∨ obj = blobB := by
  induction h with
  | whole hat =>
    rcases lateFile_at.mp hat with ⟨-,heq⟩ | ⟨-,heq⟩
    · cases heq
    · cases heq
      exact .inl rfl
  | ofs hat =>
    rcases lateFile_at.mp hat with ⟨-,heq⟩ | ⟨-,heq⟩
    · cases heq
    · cases heq
  | ref hat hname _ hobj ih =>
    rcases lateFile_at.mp hat with ⟨-,heq⟩ | ⟨-,heq⟩
    · cases heq
      rcases ih with rfl | rfl
      · exact .inr (Except.ok.inj (hobj.symm.trans (by decide)))
      · exact absurd (oid_blobB.symm.trans hname) (by decide)
    · cases heq

/-- The delta comes first. -/
def latePack : SelfContained lateSha1 storedBlock where
  toPackFile := lateFile
  trailer_eq := rfl
  size := by decide
  complete := by
    intro offset raw hat
    have hwhole : lateFile.Expands (named lateSha1) 0 48 blobA := .whole (lateFile_at.mpr (.inr ⟨rfl,rfl⟩))
    rcases lateFile_at.mp hat with ⟨rfl,rfl⟩ | ⟨rfl,rfl⟩
    · exact ⟨1,blobB,.ref hat oid_blobA hwhole (by decide)⟩
    · exact ⟨0,blobA,hwhole⟩
  injective := by
    intro m n offset offset' a b ha hb h
    rcases late_expands ha with rfl | rfl <;> rcases late_expands hb with rfl | rfl
    · rfl
    · exact absurd (oid_blobA.symm.trans (h.trans oid_blobB)) (by decide)
    · exact absurd (oid_blobB.symm.trans (h.trans oid_blobA)) (by decide)
    · rfl

theorem indexPack_late : ¬∃ crc32 : Bytes → UInt32, latePack.Agrees crc32 := by
  rintro ⟨crc32,index,hindex,-⟩
  obtain ⟨offset,base,hlt,⟨n,hbase⟩,-⟩ :=
    SelfContained.basesFirst_of_ok hindex 12 wholeRow.oid [0x01,0x01,0x01,0x62] (lateFile_at.mpr (.inl ⟨rfl,rfl⟩))
  obtain ⟨raw,hat⟩ := hbase.exists_at
  rcases lateFile_at.mp hat with ⟨rfl,-⟩ | ⟨rfl,-⟩
  · omega
  · omega

end Packfile
end Libbit
