import Libbit.CommitFormatSpec

/-! What becomes of a commit that git wrote, when it is read and written again (`obj/commit.rs`, `signature.rs`). -/
namespace Libbit
namespace CommitFormat

open Lib

/-! ### The commits that git writes -/

/-- `-0130`: any sign with any four digits. -/
structure GitZone where
  negative : Bool
  hours : ℕ
  minutes : ℕ
  inRange : hours < 100 ∧ minutes < 100

structure GitSignature where
  name : List Char
  email : List Char
  time : BitEpochTime
  zone : GitZone
  name_plain : '<' ∉ name ∧ '>' ∉ name ∧ '\n' ∉ name
  email_plain : '<' ∉ email ∧ '>' ∉ email ∧ '\n' ∉ email

/-- A commit, header by header in git's order. The values of `mergetag` and `gpgsig` may have any number of lines. -/
structure GitCommit where
  tree : Oid
  parents : List Oid
  author : GitSignature
  committer : GitSignature
  mergetag : Option (List Char)
  gpgsig : Option (List Char)
  message : List Char

def GitZone.text (z : GitZone) : List Char := (if z.negative then '-' else '+')::(pad2 z.hours++pad2 z.minutes)

def GitSignature.text (s : GitSignature) : List Char :=
  s.name++ ' ':: '<'::s.email++ '>':: ' '::(s.time.display++ ' '::s.zone.text)

/-- The bytes of the object. -/
def GitCommit.text (g : GitCommit) : List Char :=
  header "tree".toList (Packfile.Oid.toHex g.tree)++
  g.parents.flatMap (fun parent => header "parent".toList (Packfile.Oid.toHex parent))++
  header "author".toList g.author.text++
  header "committer".toList g.committer.text++
  g.mergetag.elim [] (header "mergetag".toList)++
  g.gpgsig.elim [] (header "gpgsig".toList)++
  '\n'::g.message

/-! ### Reading one -/

theorem GitZone.parsed_lt (z : GitZone) :
    (((if z.negative then -1 else 1 : ℤˣ) : ℤ)*(z.minutes+z.hours*60)).natAbs < 2^31 := by
  have h := z.inRange
  rw [Int.natAbs_mul,Int.units_natAbs,Nat.one_mul]
  omega

/-- What the zone is read as. -/
def GitZone.parsed (z : GitZone) : BitTimeZoneOffset :=
  ⟨((if z.negative then -1 else 1 : ℤˣ) : ℤ)*(z.minutes+z.hours*60),z.parsed_lt⟩

def GitSignature.parsed (s : GitSignature) : BitSignature := ⟨s.name,s.email,⟨s.time,s.zone.parsed⟩⟩

theorem GitZone.fromStr_text (z : GitZone) : BitTimeZoneOffset.fromStr z.text = .ok z.parsed := by
  obtain ⟨h₁,h₂,hhours,hparse⟩ := pad2_of_lt z.inRange.1
  obtain ⟨m₁,m₂,hminutes,hparse'⟩ := pad2_of_lt z.inRange.2
  have htext : z.text = (if z.negative then '-' else '+')::h₁::h₂::m₁::m₂::[] := by simp [GitZone.text,hhours,hminutes]
  have hsign : parseSign z.text = .ok (if z.negative then -1 else 1) := by
    rw [htext]
    cases z.negative <;> rfl
  rw [htext] at hsign ⊢
  exact BitTimeZoneOffset.fromStr_cons hsign hparse hparse'

theorem GitZone.mem_text {z : GitZone} {c : Char} (h : c ∈ z.text) : c = '-' ∨ c = '+' ∨ c.isDigit := by
  rcases List.mem_cons.mp h with rfl | h
  · split
    · exact Or.inl rfl
    · exact Or.inr (Or.inl rfl)
  · exact Or.inr (Or.inr ((List.mem_append.mp h).elim isDigit_of_mem_pad2 isDigit_of_mem_pad2))

namespace GitSignature
variable (s : GitSignature)

theorem fromStr_text : BitSignature.fromStr s.text = .ok s.parsed :=
  BitSignature.fromStr_text ⟨s.name_plain.1,s.name_plain.2.1⟩ s.email_plain.2.1
    (BitTime.fromStr_text (List.cons_ne_nil _ _) (fun _ hc => isAsciiWhitespace_of_isDigit (GitZone.mem_text hc))
      s.zone.fromStr_text)

theorem notMem_text : '\n' ∉ s.text := by
  have htime : '\n' ∉ s.time.display := fun h => absurd (BitEpochTime.mem_display h) (by decide)
  have hzone : '\n' ∉ s.zone.text := fun h => absurd (GitZone.mem_text h) (by decide)
  simpa [GitSignature.text] using ⟨s.name_plain.2.2,s.email_plain.2.2,htime,hzone⟩

theorem clean_text : clean s.text = s.text := by
  refine clean_of_notMem s.notMem_text fun h => ?_
  have htext : s.text = (s.name++ ' ':: '<'::s.email++ '>':: ' '::s.time.display++[' '])++s.zone.text := by simp [GitSignature.text]
  have hne : s.zone.text ≠ [] := List.cons_ne_nil _ _
  rw [htext,List.getLast?_append_of_ne_nil _ hne] at h
  exact absurd (GitZone.mem_text (List.mem_of_getLast? h)) (by decide)

end GitSignature

/-- What the commit is read as. -/
def GitCommit.parsed (g : GitCommit) : MutableCommit :=
  ⟨g.tree,g.author.parsed,g.committer.parsed,.fromStr (joinLines (lines g.message)),g.parents,g.gpgsig.map clean,
    g.mergetag.map fun v => ⟨clean v⟩⟩

theorem GitCommit.deserializeSized_text (g : GitCommit) :
    MutableCommit.deserializeSized g.text (utf8Len g.text) = .ok g.parsed := by
  have hauthor (b : CommitBuilder) : Reads b (header "author".toList g.author.text) { b with author := some g.author.parsed } := by
    refine Reads.header (by decide) ?_
    rw [CommitBuilder.field,if_neg (by decide),if_neg (by decide),if_pos rfl,g.author.clean_text,g.author.fromStr_text]
    rfl
  have hcommitter (b : CommitBuilder) :
      Reads b (header "committer".toList g.committer.text) { b with committer := some g.committer.parsed } := by
    refine Reads.header (by decide) ?_
    rw [CommitBuilder.field,if_neg (by decide),if_neg (by decide),if_neg (by decide),if_pos rfl,g.committer.clean_text,
      g.committer.fromStr_text]
    rfl
  have hmergetag (b : CommitBuilder) (hb : b.mergetag = none) :
      Reads b (g.mergetag.elim [] (header "mergetag".toList)) { b with mergetag := g.mergetag.map fun v => ⟨clean v⟩ } := by
    cases g.mergetag with
    | none =>
      rw [Option.map_none,← hb]
      exact Reads.nil b
    | some v =>
      refine Reads.header (by decide) ?_
      rw [CommitBuilder.field,if_neg (by decide),if_neg (by decide),if_neg (by decide),if_neg (by decide),if_neg (by decide),
        if_pos rfl]
      rfl
  have hblank : lines ('\n'::g.message) = []::lines g.message := lines_cons (l := []) (by simp) _
  have hunindented : Unindented (lines ('\n'::g.message)) := by
    rw [hblank]
    simp [Unindented]
  have hheaders := ((((((Reads.tree (b := .default) g.tree).append (Reads.parents g.parents)).append (hauthor _)).append
    (hcommitter _)).append (hmergetag _ rfl)).append (Reads.gpgsig rfl g.gpgsig)) _ hunindented
  rw [MutableCommit.deserializeSized,takeBytes_utf8Len]
  show (parseHeaders .default (lines g.text) >>= fun parsed => _) = _
  rw [GitCommit.text,hheaders.2,hblank,parseHeaders_blank]
  rfl

/-! ### Writing it again -/

/-- The zones that `Display` writes. -/
def GitZone.Canonical (z : GitZone) : Prop := z.minutes < 60 ∧ ¬(z.negative ∧ z.hours = 0 ∧ z.minutes = 0)

theorem pad2_inj {m n : ℕ} (hm : m < 100) (hn : n < 100) (h : pad2 m = pad2 n) : m = n := by
  obtain ⟨c,d,hm₁,hm₂⟩ := pad2_of_lt hm
  obtain ⟨c',d',hn₁,hn₂⟩ := pad2_of_lt hn
  obtain ⟨rfl,rfl⟩ : c = c' ∧ d = d' := by simpa [hm₁,hn₁] using h
  exact Int.ofNat_inj.mp (Option.some.inj (hm₂.symm.trans hn₂))

theorem GitZone.display_parsed_iff (z : GitZone) : z.parsed.display = z.text ↔ z.Canonical := by
  have habs : z.parsed.offset.natAbs = z.minutes+z.hours*60 := by
    rw [GitZone.parsed,Int.natAbs_mul,Int.units_natAbs,Nat.one_mul]
    omega
  have hsign : (if 0 ≤ z.parsed.offset then '+' else '-') = (if z.negative then '-' else '+') ↔
      ¬(z.negative ∧ z.hours = 0 ∧ z.minutes = 0) := by
    have hoffset : z.parsed.offset = ((if z.negative then -1 else 1 : ℤˣ) : ℤ)*(z.minutes+z.hours*60) := rfl
    cases hneg : z.negative with
    | false =>
      have hpos : 0 ≤ z.parsed.offset := by
        rw [hoffset,hneg,if_neg (by decide),Units.val_one]
        omega
      simp [hpos]
    | true =>
      rw [hneg,if_pos rfl,Units.val_neg,Units.val_one] at hoffset
      by_cases hzero : z.hours = 0 ∧ z.minutes = 0
      · have hpos : 0 ≤ z.parsed.offset := by omega
        simp [hpos,hzero]
      · have hlt : ¬0 ≤ z.parsed.offset := by omega
        simp only [if_neg hlt]
        simpa using hzero
  have hdigits : pad2 ((z.minutes+z.hours*60)/60)++pad2 ((z.minutes+z.hours*60)%60) = pad2 z.hours++pad2 z.minutes ↔
      z.minutes < 60 := by
    obtain ⟨hhours,hminutes⟩ := z.inRange
    constructor
    · intro h
      have hlength {n : ℕ} (hn : n < 100) : (pad2 n).length = 2 := by
        obtain ⟨c,d,hcd,-⟩ := pad2_of_lt hn
        rw [hcd]
        rfl
      have hlow : (z.minutes+z.hours*60)%60 < 100 := by omega
      have hsame := (List.append_inj' h ((hlength hlow).trans (hlength hminutes).symm)).2
      have hmod := pad2_inj hlow hminutes hsame
      omega
    · intro h
      rw [show (z.minutes+z.hours*60)/60 = z.hours by omega,show (z.minutes+z.hours*60)%60 = z.minutes by omega]
  rw [BitTimeZoneOffset.display,habs,GitZone.text,List.cons.injEq,hsign,hdigits]
  exact and_comm

theorem CommitMessage.display_fromStr (s : List Char) :
    (fromStr s).display = s ∨ s = (fromStr s).display++['\n','\n'] := by
  unfold fromStr
  cases hs : splitOnce ['\n','\n'] s with
  | none => simp [display]
  | some parts =>
    obtain ⟨subject,message⟩ := parts
    have htext := splitOnce_eq_some hs
    by_cases hmessage : message = []
    · simp [display,hmessage,htext]
    · simp [display,hmessage,htext]

/-- The message is written as it was read exactly if its lines make it up. -/
theorem CommitMessage.display_joinLines_iff (m : List Char) :
    (fromStr (joinLines (lines m))).display = m ↔ ¬['\r','\n'] <:+: m ∧ m.getLast? ≠ some '\n' := by
  rw [← joinLines_lines_eq_self]
  have hsub := joinLines_lines_sublist m
  rcases display_fromStr (joinLines (lines m)) with h | h
  · rw [h]
  · refine iff_of_false (fun hm => ?_) fun hm => ?_
    · have hlength := congrArg List.length h
      rw [hm,List.length_append] at hlength
      have hle := hsub.length_le
      simp only [List.length_cons,List.length_nil] at hlength
      omega
    · have hend := ((joinLines_lines_eq_self m).mp hm).2
      rw [hm] at h
      rw [h] at hend
      simp at hend

theorem header_append_inj {field v v' r r' : List Char} (hfield : '\n' ∉ field) (hv : '\n' ∉ v) (hv' : '\n' ∉ v')
    (h : header field v++r = header field v'++r') : v = v' ∧ r = r' := by
  have hline {v : List Char} (hv : '\n' ∉ v) (r : List Char) :
      splitOnce ['\n'] (header field v++r) = some (field++ ' '::v,r) := by
    have hnone : '\n' ∉ field++ ' '::v := by simp [hfield,hv]
    have hindent := indentLines_of_notMem hnone []
    rw [List.append_nil] at hindent
    have htext : header field v++r = (field++ ' '::v)++ '\n'::r := by
      rw [header,hindent]
      simp [indentLines]
    rw [htext]
    exact splitOnce_char hnone r
  have hsplit := congrArg (splitOnce ['\n']) h
  rw [hline hv,hline hv'] at hsplit
  obtain ⟨hpre,hrest⟩ := Prod.mk.inj (Option.some.inj hsplit)
  exact ⟨(List.cons.inj (List.append_cancel_left hpre)).2,hrest⟩

theorem header_clean_sublist (field v : List Char) : (header field (clean v)).Sublist (header field v) :=
  ((((List.Sublist.refl field).append ((clean_sublist v).cons_cons ' ')).flatMap _)).append (List.Sublist.refl _)

theorem header_clean_eq_iff (field v : List Char) : header field (clean v) = header field v ↔ clean v = v := by
  refine ⟨fun h => ?_,fun h => by rw [h]⟩
  have hlength := congrArg List.length h
  have hsub := clean_sublist v
  have hle := hsub.length_le
  have hcount := hsub.count_le '\n'
  simp only [header,List.length_append,length_indentLines,List.count_append,List.length_cons,List.count_cons] at hlength
  exact hsub.eq_of_length (by omega)

/-- Two texts that lose nothing together lose nothing each. -/
theorem append_eq_of_sublist {α : Type} {a b c d : List α} (hac : a.Sublist c) (hbd : b.Sublist d) :
    a++b = c++d ↔ a = c ∧ b = d := by
  refine ⟨fun h => ?_,fun ⟨ha,hb⟩ => by rw [ha,hb]⟩
  have hlength := congrArg List.length h
  rw [List.length_append,List.length_append] at hlength
  have ha := hac.length_le
  have hb := hbd.length_le
  exact ⟨hac.eq_of_length (by omega),hbd.eq_of_length (by omega)⟩

theorem GitSignature.display_parsed (s : GitSignature) :
    s.parsed.display = s.text ↔ s.zone.Canonical := by
  rw [← GitZone.display_parsed_iff]
  simp [GitSignature.text,BitSignature.display,BitTime.display,GitSignature.parsed]

theorem prefix_header {field : List Char} (hfield : '\n' ∉ field) (v r : List Char) : field <+: header field v++r := by
  rw [header,indentLines_of_notMem hfield,List.append_assoc,List.append_assoc]
  exact List.prefix_append _ _

theorem CommitMessage.display_fromStr_sublist (s : List Char) : (fromStr s).display.Sublist s := by
  rcases display_fromStr s with h | h
  · rw [h]
  · conv_rhs => rw [h]
    exact List.sublist_append_left _ _

/-- The headers after the committer, and the message. -/
theorem GitCommit.tail_iff (g : GitCommit) :
    g.parsed.gpgsig.elim [] (header "gpgsig".toList)++
        (g.parsed.mergetag.elim [] (fun t => header "mergetab".toList t.display)++ '\n'::g.parsed.message.display) =
      g.mergetag.elim [] (header "mergetag".toList)++(g.gpgsig.elim [] (header "gpgsig".toList)++ '\n'::g.message) ↔
    g.mergetag = none ∧ (∀ gpgsig ∈ g.gpgsig, ¬['\r','\n'] <:+: gpgsig++['\n']) ∧ g.parsed.message.display = g.message := by
  have hmessage : ('\n'::g.parsed.message.display).Sublist ('\n'::g.message) :=
    ((CommitMessage.display_fromStr_sublist _).trans (joinLines_lines_sublist g.message)).cons_cons '\n'
  cases hmergetag : g.mergetag with
  | none =>
    have hparsed : g.parsed.mergetag = none := by rw [GitCommit.parsed,hmergetag,Option.map_none]
    have hgpgsig : g.parsed.gpgsig = g.gpgsig.map clean := rfl
    rw [hparsed,hgpgsig,and_iff_right rfl]
    simp only [Option.elim_none,List.nil_append]
    cases g.gpgsig with
    | none => simp
    | some v =>
      rw [Option.map_some,Option.elim_some,Option.elim_some,append_eq_of_sublist (header_clean_sublist _ v) hmessage,
        header_clean_eq_iff,clean_eq_self]
      simp
  | some v =>
    refine iff_of_false (fun h => ?_) fun h => nomatch h.1
    have hright : "mergetag".toList <+:
        header "mergetag".toList v++(g.gpgsig.elim [] (header "gpgsig".toList)++ '\n'::g.message) := prefix_header (by decide) v _
    rw [Option.elim_some] at h
    rw [← h] at hright
    have hparsed : g.parsed.mergetag = some ⟨clean v⟩ := by rw [GitCommit.parsed,hmergetag,Option.map_some]
    rw [hparsed,Option.elim_some] at hright
    cases hgpgsig : g.parsed.gpgsig with
    | none =>
      rw [hgpgsig,Option.elim_none,List.nil_append] at hright
      exact absurd (List.prefix_of_prefix_length_le (prefix_header (by decide) _ _) hright (by decide)) (by decide)
    | some w =>
      rw [hgpgsig,Option.elim_some] at hright
      exact absurd (List.prefix_of_prefix_length_le (prefix_header (by decide) _ _) hright (by decide)) (by decide)

/-- A commit of git is written as it was read exactly if it has no merge tag, the zones are the ones that `Display` writes,
no line of the signature ends in a carriage return, and the message has no carriage return before a line feed and does not
end in a line feed. -/
theorem GitCommit.commitReencode_iff (g : GitCommit) :
    (∃ c, MutableCommit.deserializeSized g.text (utf8Len g.text) = .ok c ∧ c.serialize = g.text) ↔
      g.author.zone.Canonical ∧ g.committer.zone.Canonical ∧ g.mergetag = none ∧
        (∀ gpgsig ∈ g.gpgsig, ¬['\r','\n'] <:+: gpgsig++['\n']) ∧ ¬['\r','\n'] <:+: g.message ∧ g.message.getLast? ≠ some '\n' := by
  have hread : (∃ c, MutableCommit.deserializeSized g.text (utf8Len g.text) = .ok c ∧ c.serialize = g.text) ↔
      g.parsed.serialize = g.text := by
    rw [g.deserializeSized_text]
    exact ⟨fun ⟨c,hc,h⟩ => Except.ok.inj hc ▸ h,fun h => ⟨_,rfl,h⟩⟩
  have hline (s : GitSignature) : '\n' ∉ s.parsed.display :=
    BitSignature.notMem_display ⟨s.name_plain.2.2,s.email_plain.2.2⟩
  have hleft : g.parsed.serialize = (header "tree".toList (Packfile.Oid.toHex g.tree)++
      g.parents.flatMap (fun parent => header "parent".toList (Packfile.Oid.toHex parent)))++
      (header "author".toList g.author.parsed.display++(header "committer".toList g.committer.parsed.display++
        (g.parsed.gpgsig.elim [] (header "gpgsig".toList)++
          (g.parsed.mergetag.elim [] (fun t => header "mergetab".toList t.display)++ '\n'::g.parsed.message.display)))) := by
    simp only [MutableCommit.serialize,List.append_assoc]
    rfl
  have hright : g.text = (header "tree".toList (Packfile.Oid.toHex g.tree)++
      g.parents.flatMap (fun parent => header "parent".toList (Packfile.Oid.toHex parent)))++
      (header "author".toList g.author.text++(header "committer".toList g.committer.text++
        (g.mergetag.elim [] (header "mergetag".toList)++(g.gpgsig.elim [] (header "gpgsig".toList)++ '\n'::g.message)))) := by
    simp only [GitCommit.text,List.append_assoc]
  rw [hread,hleft,hright,List.append_cancel_left_eq,← g.author.display_parsed,← g.committer.display_parsed,
    ← CommitMessage.display_joinLines_iff]
  constructor
  · intro h
    obtain ⟨hauthor,h₁⟩ := header_append_inj (by decide) (hline _) g.author.notMem_text h
    obtain ⟨hcommitter,h₂⟩ := header_append_inj (by decide) (hline _) g.committer.notMem_text h₁
    exact ⟨hauthor,hcommitter,g.tail_iff.mp h₂⟩
  · rintro ⟨hauthor,hcommitter,htail⟩
    rw [hauthor,hcommitter,g.tail_iff.mpr htail]

def gitSample (message : List Char) (mergetag : Option (List Char)) (negative : Bool) : GitCommit :=
  let signature : GitSignature :=
    ⟨"a".toList,"a@b".toList,⟨0,epoch_inRange⟩,⟨negative,0,0,by decide⟩,by decide,by decide⟩
  ⟨IndexFile.Oid.UNKNOWN,[],signature,signature,mergetag,none,message⟩

/-- A message that ends in a line feed, a merge tag and the zone `-0000` are each written differently. -/
theorem gitSample_changes :
    (¬∃ c, MutableCommit.deserializeSized (gitSample "fix\n".toList none false).text
        (utf8Len (gitSample "fix\n".toList none false).text) = .ok c ∧
      c.serialize = (gitSample "fix\n".toList none false).text) ∧
    (¬∃ c, MutableCommit.deserializeSized (gitSample "fix".toList (some "x".toList) false).text
        (utf8Len (gitSample "fix".toList (some "x".toList) false).text) = .ok c ∧
      c.serialize = (gitSample "fix".toList (some "x".toList) false).text) ∧
    ¬∃ c, MutableCommit.deserializeSized (gitSample "fix".toList none true).text
        (utf8Len (gitSample "fix".toList none true).text) = .ok c ∧
      c.serialize = (gitSample "fix".toList none true).text := by
  have hchanges {g : GitCommit} (hg : g.parsed.serialize ≠ g.text) :
      ¬∃ c, MutableCommit.deserializeSized g.text (utf8Len g.text) = .ok c ∧ c.serialize = g.text := by
    rintro ⟨c,hc,h⟩
    rw [g.deserializeSized_text] at hc
    exact hg (Except.ok.inj hc ▸ h)
  exact ⟨hchanges (by decide +kernel),hchanges (by decide +kernel),hchanges (by decide +kernel)⟩

end CommitFormat
end Libbit
