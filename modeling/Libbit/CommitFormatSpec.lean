import Libbit.CommitFormat
import Libbit.OdbSpec

/-! What becomes of a commit that is written and read back (`obj/commit.rs`). -/
namespace Libbit
namespace CommitFormat

open Lib

/-! ### Messages -/

section Message
variable {s subject message : List Char}

theorem splitOnce_subject (h : splitOnce ['\n','\n'] s = some (subject,message)) : splitOnce ['\n','\n'] subject = none := by
  induction s generalizing subject with
  | nil => simp [splitOnce] at h
  | cons c s ih =>
    rw [splitOnce] at h
    split at h
    · cases h
      rfl
    · rename_i hpre
      obtain ⟨⟨a,b⟩,hsplit,heq⟩ := Option.map_eq_some_iff.mp h
      cases heq
      have hs := splitOnce_eq_some hsplit
      have hnot : ¬['\n','\n'].isPrefixOf (c::a) = true := by
        intro ha
        obtain ⟨t,ht⟩ := List.isPrefixOf_iff_prefix.mp ha
        refine hpre (List.isPrefixOf_iff_prefix.mpr ⟨t++['\n','\n']++b,?_⟩)
        rw [hs,← List.append_assoc,← List.append_assoc,ht]
        simp
      rw [splitOnce,if_neg hnot,ih hsplit]
      rfl

theorem CommitMessage.fromStr_display (s : List Char) : fromStr (fromStr s).display = fromStr s := by
  unfold fromStr
  cases hs : splitOnce ['\n','\n'] s with
  | none => simp [display,hs]
  | some parts =>
    obtain ⟨subject,message⟩ := parts
    simp only [display]
    by_cases hmessage : message = []
    · rw [if_pos hmessage,List.append_nil,splitOnce_subject hs,hmessage]
    · have htext := splitOnce_eq_some hs
      rw [if_neg hmessage,show subject++ '\n':: '\n'::message = s by simp [htext],hs]

/-- A text that is not longer is split in the same way only if it is the same text. -/
theorem CommitMessage.fromStr_eq_iff {t : List Char} (m : List Char) (ht : t.length ≤ (fromStr m).display.length) :
    fromStr t = fromStr m ↔ t = (fromStr m).display := by
  refine ⟨fun h => ?_,fun h => h ▸ fromStr_display m⟩
  rw [← h] at ht ⊢
  unfold fromStr at ht ⊢
  cases hs : splitOnce ['\n','\n'] t with
  | none => simp [display]
  | some parts =>
    obtain ⟨subject,message⟩ := parts
    have htext := splitOnce_eq_some hs
    simp only [hs,display] at ht ⊢
    by_cases hmessage : message = []
    · rw [if_pos hmessage,htext] at ht
      simp at ht
    · simp [htext,hmessage]

end Message

/-! ### Headers -/

section Header
variable {b : CommitBuilder} {field value : List Char} {ls : List (List Char)}

/-- No line continues what came before. -/
def Unindented (ls : List (List Char)) : Prop := ∀ l ∈ ls.head?, l.head? ≠ some ' '

theorem takeContinuation_eq_nil (h : Unindented ls) : takeContinuation ls = ([],ls) := by
  unfold takeContinuation
  split
  · exact absurd rfl (h _ rfl)
  · rfl

theorem takeContinuation_indented (ps : List (List Char)) (h : Unindented ls) :
    takeContinuation (ps.map (fun p => stripCr (' '::p))++ls) = (ps.flatMap fun p => '\n'::stripCr p,ls) := by
  induction ps with
  | nil => exact takeContinuation_eq_nil h
  | cons p ps ih =>
    have hline : stripCr (' '::p) = ' '::stripCr p := stripCr_append [] (by decide) p
    rw [List.map_cons,hline,List.cons_append,takeContinuation,ih]
    rfl

theorem lines_header {p rest : List Char} {ps : List (List Char)} (hline : '\n' ∉ field)
    (hparts : value.splitOn '\n' = p::ps) :
    lines (header field value++rest) = (field++ ' '::stripCr p)::(ps.map fun q => stripCr (' '::q))++lines rest := by
  have hmem (q) (hq : q ∈ p::ps) : '\n' ∉ q := notMem_of_mem_splitOn (hparts ▸ hq)
  have hvalue : value = joinLines (p::ps) := by
    rw [← hparts]
    exact (List.intercalate_splitOn '\n').symm
  have hpre : '\n' ∉ field++[' '] := by simp [hline]
  have htext : header field value++rest = (field++[' '])++indentLines (joinLines (p::ps))++ '\n'::rest := by
    rw [header,← hvalue,← indentLines_of_notMem hpre]
    simp
  have hfirst : stripCr (field++[' ']++p) = field++ ' '::stripCr p := by
    rw [List.append_assoc]
    exact stripCr_append field (by decide) p
  rw [htext,lines_indentLines hpre hmem,hfirst]

/-- A header that was written is read as its field with the value as it comes back. -/
theorem parseHeaders_header {rest : List Char} (hfield : ' ' ∉ field) (hline : '\n' ∉ field) (h : Unindented (lines rest)) :
    parseHeaders b (lines (header field value++rest)) =
      (b.field field (clean value) >>= fun b => parseHeaders b (lines rest)) := by
  obtain ⟨p,ps,hparts⟩ := List.exists_cons_of_ne_nil (List.splitOn_ne_nil '\n' value)
  have hclean : stripCr p++(ps.flatMap fun p => '\n'::stripCr p) = clean value := by
    rw [clean,hparts,List.map_cons,joinLines_cons,List.flatMap_map]
  rw [lines_header hline hparts,List.cons_append,parseHeaders_line (splitOnce_char hfield (stripCr p)),
    takeContinuation_indented ps h,hclean]

theorem unindented_header {rest : List Char} (hne : field ≠ []) (hfield : ' ' ∉ field) (hline : '\n' ∉ field) :
    Unindented (lines (header field value++rest)) := by
  obtain ⟨p,ps,hparts⟩ := List.exists_cons_of_ne_nil (List.splitOn_ne_nil '\n' value)
  obtain ⟨c,cs,rfl⟩ := List.exists_cons_of_ne_nil hne
  rw [lines_header hline hparts]
  have hc : c ≠ ' ' := fun h => hfield (h ▸ List.mem_cons_self)
  simpa [Unindented] using hc

theorem clean_of_notMem (hvalue : '\n' ∉ value) (hlast : value.getLast? ≠ some '\r') : clean value = value := by
  rw [clean,List.splitOn_eq_singleton hvalue,List.map_singleton,stripCr_eq_self.mpr hlast]
  simp [joinLines]

end Header

/-- Whatever comes after the text, reading the text takes the builder `b` to `b'`. -/
def Reads (b : CommitBuilder) (text : List Char) (b' : CommitBuilder) : Prop :=
  ∀ rest, Unindented (lines rest) →
    Unindented (lines (text++rest)) ∧ parseHeaders b (lines (text++rest)) = parseHeaders b' (lines rest)

namespace Reads
variable {b b' b'' : CommitBuilder} {field value text text' : List Char}

theorem nil (b : CommitBuilder) : Reads b [] b := fun _ h => ⟨h,rfl⟩

theorem append (h : Reads b text b') (h' : Reads b' text' b'') : Reads b (text++text') b'' := by
  intro rest hrest
  obtain ⟨hunindented',hread'⟩ := h' rest hrest
  obtain ⟨hunindented,hread⟩ := h (text'++rest) hunindented'
  rw [List.append_assoc]
  exact ⟨hunindented,hread.trans hread'⟩

theorem header (hname : field ≠ [] ∧ ' ' ∉ field ∧ '\n' ∉ field) (hfield : b.field field (clean value) = .ok b') :
    Reads b (header field value) b' := by
  obtain ⟨hne,hspace,hline⟩ := hname
  intro rest hrest
  refine ⟨unindented_header hne hspace hline,?_⟩
  rw [parseHeaders_header hspace hline hrest,hfield]
  rfl

theorem oid (o : Oid) : CommitBuilder.parseOid (clean (Packfile.Oid.toHex o)) = .ok o := by
  have hdigits := Packfile.Oid.digits_toHex o
  have hclean : clean (Packfile.Oid.toHex o) = Packfile.Oid.toHex o := by
    refine clean_of_notMem (fun h => ?_) fun h => ?_
    · exact absurd (hdigits '\n' h) (by decide)
    · exact absurd (hdigits '\r' (List.mem_of_getLast? h)) (by decide)
  rw [hclean,CommitBuilder.parseOid,Packfile.Oid.fromStr_toHex]
  rfl

theorem tree (o : Oid) : Reads b (CommitFormat.header "tree".toList (Packfile.Oid.toHex o)) { b with tree := some o } := by
  refine header (by decide) ?_
  rw [CommitBuilder.field,if_neg (by decide),if_pos rfl,oid]
  rfl

theorem parents (os : List Oid) :
    Reads b (os.flatMap fun o => CommitFormat.header "parent".toList (Packfile.Oid.toHex o))
      { b with parents := b.parents++os } := by
  induction os generalizing b with
  | nil =>
    rw [List.append_nil]
    exact nil b
  | cons o os ih =>
    have hfirst : Reads b (CommitFormat.header "parent".toList (Packfile.Oid.toHex o)) { b with parents := b.parents++[o] } := by
      refine header (by decide) ?_
      rw [CommitBuilder.field,if_pos rfl,oid]
      rfl
    have hall := hfirst.append ih
    rwa [List.append_assoc] at hall

theorem gpgsig (hb : b.gpgsig = none) (v : Option (List Char)) :
    Reads b (v.elim [] (CommitFormat.header "gpgsig".toList)) { b with gpgsig := v.map clean } := by
  cases v with
  | none =>
    have hsame : { b with gpgsig := (none : Option (List Char)).map clean } = b := by rw [Option.map_none,← hb]
    rw [hsame]
    exact nil b
  | some v =>
    refine header (by decide) ?_
    rw [CommitBuilder.field,if_neg (by decide),if_neg (by decide),if_neg (by decide),if_neg (by decide),if_pos rfl]
    rfl

/-- The field is written under a name that is not read. -/
theorem mergetag (v : Option MergeTag) :
    Reads b (v.elim [] fun t => CommitFormat.header "mergetab".toList t.display) b := by
  cases v with
  | none => exact nil b
  | some v =>
    refine header (by decide) ?_
    rw [CommitBuilder.field,if_neg (by decide),if_neg (by decide),if_neg (by decide),if_neg (by decide),
      if_neg (by decide),if_neg (by decide)]

end Reads

/-! ### Signatures as header values -/

section Signature
variable {s : BitSignature}

/-- Neither the name nor the email goes over several lines. -/
def BitSignature.OneLine (s : BitSignature) : Prop := '\n' ∉ s.name ∧ '\n' ∉ s.email

theorem BitSignature.notMem_display (hs : s.OneLine) : '\n' ∉ s.display := by
  have htime : '\n' ∉ s.time.time.display := fun h => absurd (BitEpochTime.mem_display h) (by decide)
  have hoffset : '\n' ∉ s.time.offset.display := fun h => absurd (BitTimeZoneOffset.mem_display h) (by decide)
  simpa [BitSignature.display,BitTime.display] using ⟨hs.1,hs.2,htime,hoffset⟩

theorem BitSignature.getLast?_display (s : BitSignature) : s.display.getLast? ≠ some '\r' := by
  intro h
  have hdisplay : s.display = (s.name++ ' ':: '<'::s.email++ '>':: ' '::s.time.time.display++[' '])++s.time.offset.display := by
    simp [BitSignature.display,BitTime.display]
  have hne : s.time.offset.display ≠ [] := List.cons_ne_nil _ _
  rw [hdisplay,List.getLast?_append_of_ne_nil _ hne] at h
  exact absurd (BitTimeZoneOffset.mem_display (List.mem_of_getLast? h)) (by decide)

theorem BitSignature.fromStr_clean (hplain : s.Plain) (hline : s.OneLine) :
    BitSignature.fromStr (clean s.display) = .ok s := by
  rw [clean_of_notMem (BitSignature.notMem_display hline) s.getLast?_display,BitSignature.fromStr_display hplain]

end Signature

/-! ### Whole commits -/

/-- The commits whose signatures the format can hold. -/
structure MutableCommit.Plain (c : MutableCommit) : Prop where
  author : c.author.Plain ∧ c.author.OneLine
  committer : c.committer.Plain ∧ c.committer.OneLine

/-- What comes back of a commit: line ends lose their carriage returns, the message loses the line feed at its end, and
the merge tag is gone. -/
def MutableCommit.readBack (c : MutableCommit) : MutableCommit :=
  { c with
    gpgsig := c.gpgsig.map clean
    mergetag := none
    message := .fromStr (joinLines (lines c.message.display)) }

theorem MutableCommit.deserializeSized_serialize {c : MutableCommit} (hc : c.Plain) :
    MutableCommit.deserializeSized c.serialize (utf8Len c.serialize) = .ok c.readBack := by
  have hauthor (b : CommitBuilder) : Reads b (header "author".toList c.author.display) { b with author := some c.author } := by
    refine Reads.header (by decide) ?_
    rw [CommitBuilder.field,if_neg (by decide),if_neg (by decide),if_pos rfl,
      BitSignature.fromStr_clean hc.author.1 hc.author.2]
    rfl
  have hcommitter (b : CommitBuilder) :
      Reads b (header "committer".toList c.committer.display) { b with committer := some c.committer } := by
    refine Reads.header (by decide) ?_
    rw [CommitBuilder.field,if_neg (by decide),if_neg (by decide),if_neg (by decide),if_pos rfl,
      BitSignature.fromStr_clean hc.committer.1 hc.committer.2]
    rfl
  have hblank : lines ('\n'::c.message.display) = []::lines c.message.display := lines_cons (l := []) (by simp) _
  have hunindented : Unindented (lines ('\n'::c.message.display)) := by
    rw [hblank]
    simp [Unindented]
  have hheaders := ((((((Reads.tree (b := .default) c.tree).append (Reads.parents c.parents)).append (hauthor _)).append
    (hcommitter _)).append (Reads.gpgsig rfl c.gpgsig)).append (Reads.mergetag c.mergetag)) _ hunindented
  rw [MutableCommit.deserializeSized,takeBytes_utf8Len]
  show (parseHeaders .default (lines c.serialize) >>= fun parsed => _) = _
  rw [MutableCommit.serialize,hheaders.2,hblank,parseHeaders_blank]
  rfl

/-- The lines of the message make up its text. -/
theorem CommitMessage.fromStr_joinLines_iff (m : List Char) :
    fromStr (joinLines (lines (fromStr m).display)) = fromStr m ↔
      ¬['\r','\n'] <:+: (fromStr m).display ∧ (fromStr m).display.getLast? ≠ some '\n' := by
  rw [fromStr_eq_iff m (joinLines_lines_sublist _).length_le,joinLines_lines_eq_self]

theorem MutableCommit.decode_encode_iff {c : MutableCommit} {m : List Char} (hmessage : c.message = .fromStr m) (hc : c.Plain) :
    MutableCommit.deserializeSized c.serialize (utf8Len c.serialize) = .ok c ↔
      c.mergetag = none ∧ (∀ gpgsig ∈ c.gpgsig, ¬['\r','\n'] <:+: gpgsig++['\n']) ∧
        ¬['\r','\n'] <:+: c.message.display ∧ c.message.display.getLast? ≠ some '\n' := by
  have hgpgsig : c.gpgsig.map clean = c.gpgsig ↔ ∀ gpgsig ∈ c.gpgsig, ¬['\r','\n'] <:+: gpgsig++['\n'] := by
    cases c.gpgsig with
    | none => simp
    | some v => simpa using clean_eq_self v
  have hread : c.readBack = c ↔
      c.gpgsig.map clean = c.gpgsig ∧ none = c.mergetag ∧ CommitMessage.fromStr (joinLines (lines c.message.display)) = c.message := by
    cases c
    simp only [MutableCommit.readBack,MutableCommit.mk.injEq,true_and]
    tauto
  rw [MutableCommit.deserializeSized_serialize hc,Except.ok.injEq,hread,hgpgsig,hmessage,CommitMessage.fromStr_joinLines_iff,
    eq_comm (a := none)]
  tauto

def sampleSignature : BitSignature := ⟨"a".toList,"a@b".toList,⟨0,epoch_inRange⟩,⟨-90,by decide⟩⟩

def sample (message gpgsig : List Char) (mergetag : Option MergeTag) : MutableCommit :=
  ⟨IndexFile.Oid.UNKNOWN,sampleSignature,sampleSignature,.fromStr message,[IndexFile.Oid.UNKNOWN],some gpgsig,mergetag⟩

theorem plain_sample (message gpgsig : List Char) (mergetag : Option MergeTag) : (sample message gpgsig mergetag).Plain := by
  have hsignature : sampleSignature.Plain ∧ sampleSignature.OneLine :=
    ⟨⟨by decide,by decide,by decide⟩,by decide,by decide⟩
  exact ⟨hsignature,hsignature⟩

theorem sample_reads_back :
    MutableCommit.deserializeSized (sample "fix\n\nit\r".toList "-\n-".toList none).serialize
      (utf8Len (sample "fix\n\nit\r".toList "-\n-".toList none).serialize) =
        .ok (sample "fix\n\nit\r".toList "-\n-".toList none) :=
  (MutableCommit.decode_encode_iff (m := "fix\n\nit\r".toList) rfl (plain_sample _ _ none)).mpr ⟨rfl,by decide,by decide,by decide⟩

/-- The merge tag does not come back, and neither does the line feed at the end of a message. -/
theorem sample_changes :
    (sample "fix".toList "-".toList (some ⟨"x".toList⟩)).Plain ∧
      MutableCommit.deserializeSized (sample "fix".toList "-".toList (some ⟨"x".toList⟩)).serialize
        (utf8Len (sample "fix".toList "-".toList (some ⟨"x".toList⟩)).serialize) ≠
          .ok (sample "fix".toList "-".toList (some ⟨"x".toList⟩)) ∧
    (sample "fix\n".toList "-".toList none).Plain ∧
      MutableCommit.deserializeSized (sample "fix\n".toList "-".toList none).serialize
        (utf8Len (sample "fix\n".toList "-".toList none).serialize) ≠ .ok (sample "fix\n".toList "-".toList none) := by
  refine ⟨plain_sample _ _ _,?_,plain_sample _ _ _,?_⟩
  · rw [MutableCommit.deserializeSized_serialize (plain_sample _ _ _)]
    intro h
    exact absurd (congrArg MutableCommit.mergetag (Except.ok.inj h)) (by decide)
  · rw [MutableCommit.deserializeSized_serialize (plain_sample _ _ _)]
    intro h
    exact absurd (congrArg MutableCommit.message (Except.ok.inj h)) (by decide)

end CommitFormat
end Libbit
