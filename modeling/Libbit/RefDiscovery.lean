import Libbit.RefsSpec
import Libbit.TransportSpec

/-! The client's map of the references that the server advertises. The capabilities stand behind the line of the
first reference, which is `HEAD`. -/
namespace Libbit
namespace Transport

open Lib Lib.Reader
open Protocol (writePacket recvPacket packetText U16_MAX packet_decodes flush_decodes large_packet writePacket_eq_ok
  packetText_ne_nil writeFlushPacket)
open Refs (Text SymbolicRef Env Fs)

variable {env : Env} {fs : Fs} {debug : Bool} {sym : SymbolicRef} {oid : Oid} {syms refs : List SymbolicRef}

/-! ### Listing -/

/-- A reference that the listing can have. -/
structure Listed (sym : SymbolicRef) : Prop where
  start : sym = SymbolicRef.HEAD ∨ ∃ t, sym.path = "refs".toList++t
  null : NUL ∉ sym.path

/-- File names have no null character. -/
def NoNul (fs : Fs) : Prop := ∀ p, (fs.files p).isSome → ∀ n ∈ p, NUL ∉ n

theorem listed_HEAD : Listed SymbolicRef.HEAD := ⟨.inl rfl,by decide⟩

theorem listed_of_file (hnul : NoNul fs) {p : Refs.Path} (hp : p ∈ refFiles fs) : Listed ⟨pathText p⟩ := by
  obtain ⟨-,hfile,rest,hrest⟩ : p ∈ fs.names.dedup ∧ (fs.files p).isSome ∧ ["refs".toList] <+: p := by
    simpa [refFiles] using hp
  have htext : pathText p = "refs".toList++rest.flatMap ('/'::·) := by
    rw [← hrest]
    exact intercalate_cons '/' "refs".toList rest
  refine ⟨.inr ⟨_,htext⟩,fun hmem => ?_⟩
  have hnames := hnul p hfile
  rw [htext,List.mem_append,List.mem_flatMap] at hmem
  rcases hmem with hmem | ⟨n,hn,hmem⟩
  · exact absurd hmem (by decide)
  · rcases List.mem_cons.mp hmem with hmem | hmem
    · exact absurd hmem (by decide)
    · exact hnames n (hrest ▸ List.mem_cons_of_mem _ hn) hmem

theorem newValid_path {path : Text} (h : Refs.newValid path = .ok sym) : sym = ⟨path⟩ := by
  unfold Refs.newValid at h
  split at h
  · cases h
  · exact (Except.ok.inj h).symm

theorem lsRefs_ok (hnul : NoNul fs) (h : lsRefs fs = .ok refs) :
    ∃ syms, refs = SymbolicRef.HEAD::syms ∧ refs.Nodup ∧ ∀ sym ∈ refs, Listed sym := by
  obtain ⟨-,-,h⟩ := except_bind_eq_ok.mp h
  obtain ⟨syms,hsyms,h⟩ := except_bind_eq_ok.mp h
  obtain ⟨_,hnodup,h⟩ := except_bind_eq_ok.mp h
  obtain rfl : SymbolicRef.HEAD::syms = refs := Except.ok.inj h
  refine ⟨syms,rfl,ensure_eq_ok.mp hnodup,List.forall_mem_cons.mpr ⟨listed_HEAD,fun sym hsym => ?_⟩⟩
  obtain ⟨p,hp,hvalid⟩ := mem_of_mapM hsyms hsym
  cases hnew : Refs.newValid (pathText p) with
  | error e =>
    rw [hnew] at hvalid
    cases hvalid
  | ok sym' =>
    rw [hnew] at hvalid
    obtain rfl : sym' = sym := Except.ok.inj hvalid
    rw [newValid_path hnew]
    exact listed_of_file hnul hp

theorem le_HEAD (h : Listed sym) : encodeUtf8 SymbolicRef.HEAD.path ≤ encodeUtf8 sym.path := by
  rcases h.start with rfl | ⟨t,ht⟩
  · exact le_rfl
  · have hlt : encodeUtf8 SymbolicRef.HEAD.path < encodeUtf8 sym.path := by
      rw [ht,encodeUtf8_append]
      have hhead : encodeUtf8 SymbolicRef.HEAD.path = [72,69,65,68] := by decide
      have hrefs : encodeUtf8 "refs".toList = [114,101,102,115] := by decide
      rw [hhead,hrefs]
      exact List.cons_lt_cons_iff.mpr (.inl (by decide))
    exact hlt.le

/-- `HEAD` comes first. -/
theorem sortedRefs_cons (h : ∀ sym ∈ syms, Listed sym) :
    sortedRefs (SymbolicRef.HEAD::syms) = SymbolicRef.HEAD::sortedRefs syms := by
  obtain ⟨before,after,hcons,hrest,hbefore⟩ := @List.mergeSort_cons SymbolicRef
    (fun a b => decide (encodeUtf8 a.path ≤ encodeUtf8 b.path))
    (fun a b c hab hbc => decide_eq_true ((of_decide_eq_true hab).trans (of_decide_eq_true hbc)))
    (fun a b => by simpa using le_total (encodeUtf8 a.path) (encodeUtf8 b.path)) SymbolicRef.HEAD syms
  have hnil : before = [] := by
    refine List.eq_nil_iff_forall_not_mem.mpr fun sym hsym => ?_
    have hmem : sym ∈ syms := (List.mergeSort_perm syms _).mem_iff.mp (hrest ▸ List.mem_append_left _ hsym)
    have hle := decide_eq_true (le_HEAD (h sym hmem))
    have hnot := hbefore sym hsym
    rw [hle] at hnot
    exact absurd hnot (by decide)
  rw [hnil] at hcons hrest
  rw [sortedRefs,hcons,sortedRefs,hrest]
  rfl

/-! ### Lines -/

/-- What the client reads a path as. -/
def trimmed (sym : SymbolicRef) : SymbolicRef := ⟨trimEnd sym.path⟩

theorem not_prefixed (h : Listed sym) (s : Text) : SymbolicRef.SYMBOLIC_REF_PREFIX.isPrefixOf (sym.path++s) = false := by
  rcases h.start with rfl | ⟨t,ht⟩
  · rfl
  · rw [ht]
    rfl

theorem trimEnd_ne_at (h : Listed sym) : trimEnd sym.path ≠ ['@'] := by
  intro hat
  have hhead : ['@'] <+: sym.path := hat ▸ List.rdropWhile_prefix isWhitespace sym.path
  rcases h.start with rfl | ⟨t,ht⟩
  · exact absurd hhead (by decide)
  · rw [ht] at hhead
    exact absurd (List.cons_prefix_cons.mp hhead).1 (by decide)

theorem fromStr_listed (h : Listed sym) {s : Text} (hs : trimEnd (sym.path++s) = trimEnd sym.path) :
    SymbolicRef.fromStr (sym.path++s) = trimmed sym := by
  rw [SymbolicRef.fromStr,not_prefixed h s]
  change (if trimEnd (sym.path++s) = ['@'] then SymbolicRef.HEAD else ⟨trimEnd (sym.path++s)⟩) = _
  rw [hs,if_neg (trimEnd_ne_at h)]
  rfl

theorem parseRefLine_eq (oid : Oid) (s : Text) :
    parseRefLine (Packfile.Oid.toHex oid++ ' '::s) = .ok (oid,SymbolicRef.fromStr s) := by
  have hhex : ' ' ∉ Packfile.Oid.toHex oid := Refs.notMem_toHex (by decide) oid
  have hoid : parseOid (Packfile.Oid.toHex oid) = .ok oid := by
    rw [parseOid,Packfile.Oid.fromStr_toHex]
    rfl
  rw [parseRefLine,splitOnce_char hhex]
  change (parseOid (Packfile.Oid.toHex oid) >>= _) = _
  rw [hoid]
  rfl

/-- The line of a reference that is not the first one. -/
def lineOf (x : SymbolicRef × Oid) : Text := Packfile.Oid.toHex x.2++(' '::(x.1.path++['\n']))

theorem refLine_of_ne {i : ℕ} (hi : i ≠ 0) (oid : Oid) (sym : SymbolicRef) : refLine i oid sym = lineOf (sym,oid) := if_neg hi

def lineBytes (x : SymbolicRef × Oid) : Bytes := encodeUtf8 (lineOf x)

def Fits (x : SymbolicRef × Oid) : Prop := 4+(lineBytes x).length < 2^16

theorem parse_line {x : SymbolicRef × Oid} (h : Listed x.1) :
    (fromUtf8 (lineBytes x) >>= parseRefLine) = .ok (x.2,trimmed x.1) := by
  rw [lineBytes,fromUtf8_encodeUtf8]
  change parseRefLine (lineOf x) = _
  rw [lineOf,parseRefLine_eq,fromStr_listed h (trimEnd_concat (by decide) _)]

theorem splitOnce_append {c : Char} {s : Text} (hs : c ∉ s) (t : Text) :
    splitOnce [c] (s++t) = (splitOnce [c] t).map fun parts => (s++parts.1,parts.2) := by
  induction s with
  | nil => exact (congrFun Option.map_id (splitOnce [c] t)).symm
  | cons d s ih =>
    obtain ⟨hd,hs⟩ : c ≠ d ∧ c ∉ s := by simpa using hs
    rw [List.cons_append,splitOnce,if_neg (by simp [hd]),ih hs,Option.map_map]
    rfl

/-- A text that starts with more than 40 characters and a blank is no line of a reference. -/
theorem parseRefLine_wrongLength {hex : Text} (hlen : utf8Len (trimEnd hex) ≠ 40) (hhex : ' ' ∉ hex) (s : Text) :
    parseRefLine (hex++ ' '::s) = .error wrongLength := by
  rw [parseRefLine,splitOnce_char hhex]
  change (parseOid hex >>= _) = _
  rw [parseOid_wrongLength hlen]
  rfl

/-- The start of a line after the digit that its header has too many. -/
def misread (d : Char) (oid : Oid) : Text := d::Packfile.Oid.toHex oid

theorem misread_ne_nil (d : Char) (oid : Oid) : encodeUtf8 (misread d oid++[' ']) ≠ [] := by
  intro hnil
  have hzero := congrArg List.length hnil
  rw [length_encodeUtf8,utf8Len_append,show utf8Len [' '] = 1 by decide,List.length_nil] at hzero
  omega

section
variable {κ : Type} (capability : Text → Option κ) {d : Char} {x : SymbolicRef × Oid}

theorem misread_props (hd : d ∈ ['0','1','2']) (oid : Oid) :
    utf8Len (trimEnd (misread d oid)) ≠ 40 ∧ ' ' ∉ misread d oid ∧ NUL ∉ misread d oid++[' '] := by
  have hdigit : d ≠ ' ' ∧ d ≠ NUL := by
    simp only [List.mem_cons,List.not_mem_nil,or_false] at hd
    rcases hd with rfl | rfl | rfl <;> decide
  have hblank := Refs.notMem_toHex (show ¬Packfile.isAsciiHexdigit ' ' by decide) oid
  have hnull := Refs.notMem_toHex (show ¬Packfile.isAsciiHexdigit NUL by decide) oid
  have htrim : trimEnd (misread d oid) = misread d oid := trimEnd_append (Packfile.trimEnd_toHex oid) ?_ [d]
  · refine ⟨?_,List.not_mem_cons_of_ne_of_not_mem hdigit.1.symm hblank,?_⟩
    · have hpos := utf8Len_pos (List.cons_ne_nil d [])
      rw [htrim,show misread d oid = [d]++Packfile.Oid.toHex oid from rfl,utf8Len_append,utf8Len_toHex]
      omega
    · simp only [misread,List.mem_append,List.mem_cons,List.not_mem_nil,or_false,not_or]
      exact ⟨⟨hdigit.2.symm,hnull⟩,by decide⟩
  · exact fun h => by simpa [h] using Packfile.Oid.length_toHex oid

theorem parseRefLine_misread (hd : d ∈ ['0','1','2']) (oid : Oid) (s : Text) :
    parseRefLine (misread d oid++[' ']++s) = .error wrongLength := by
  obtain ⟨hlen,hblank,-⟩ := misread_props hd oid
  rw [List.append_assoc]
  exact parseRefLine_wrongLength hlen hblank s

theorem parseFirstLine_misread (hd : d ∈ ['0','1','2']) (oid : Oid) (s : Text) :
    ∃ e, parseFirstLine capability (misread d oid++[' ']++s) = .error e := by
  rw [parseFirstLine,splitOnce_append (misread_props hd oid).2.2]
  cases splitOnce [NUL] s with
  | none => exact ⟨_,rfl⟩
  | some parts =>
    change ∃ e, (parseCapabilities capability parts.2 >>= fun capabilities =>
      parseRefLine (misread d oid++[' ']++parts.1) >>= fun line => pure (line,capabilities)) = _
    rw [parseRefLine_misread hd]
    cases parseCapabilities capability parts.2 with
    | error e => exact ⟨e,rfl⟩
    | ok capabilities => exact ⟨_,rfl⟩

/-- A packet that is too long is not read as a line, neither as the first one nor as another one. -/
theorem misread_error (hd : d ∈ ['0','1','2']) (oid : Oid) (more : Bytes) :
    (∃ e, (fromUtf8 (encodeUtf8 (misread d oid++[' '])++more) >>= parseRefLine) = .error e) ∧
      ∃ e, (fromUtf8 (encodeUtf8 (misread d oid++[' '])++more) >>= parseFirstLine capability) = .error e := by
  rw [fromUtf8,decodeUtf8_append]
  cases decodeUtf8 more with
  | none => exact ⟨⟨_,rfl⟩,⟨_,rfl⟩⟩
  | some s => exact ⟨⟨_,parseRefLine_misread hd oid s⟩,parseFirstLine_misread capability hd oid s⟩

/-- A line that is admitted and too long for its header. -/
theorem recvPacket_misread (hlen : (lineBytes x).length < U16_MAX) (hlarge : ¬Fits x) (rest : Bytes) :
    ∃ d ∈ ['0','1','2'], ∃ more mid, recvPacket.run (packetText (lineBytes x)++rest) =
      .ok (encodeUtf8 (misread d x.2++[' '])++more,mid) := by
  obtain ⟨b,hb,mid,hrun,-⟩ := large_packet hlen (Nat.le_of_not_lt hlarge) rest
  obtain ⟨d,hd,hdb⟩ : ∃ d ∈ ['0','1','2'], encodeUtf8 [d] = [b] := by
    simp only [List.mem_cons,List.not_mem_nil,or_false] at hb
    rcases hb with rfl | rfl | rfl
    · exact ⟨'0',by decide,by decide⟩
    · exact ⟨'1',by decide,by decide⟩
    · exact ⟨'2',by decide,by decide⟩
  have hstart : b::(lineBytes x++rest) = encodeUtf8 (misread d x.2++[' '])++(encodeUtf8 (x.1.path++['\n'])++rest) := by
    have htext : d::lineOf x = misread d x.2++[' ']++(x.1.path++['\n']) := by
      rw [lineOf,misread,List.append_assoc]
      rfl
    rw [← List.append_assoc,← encodeUtf8_append,← htext,encodeUtf8_cons,hdb]
    rfl
  have hshort : (encodeUtf8 (misread d x.2++[' '])).length ≤ 4092 := by
    have hone : utf8Len [d] ≤ 4 := by simpa [utf8Len] using d.utf8Size_le_four
    have hblank : utf8Len [' '] = 1 := by decide
    rw [length_encodeUtf8,utf8Len_append,show misread d x.2 = [d]++Packfile.Oid.toHex x.2 from rfl,utf8Len_append,
      utf8Len_toHex]
    omega
  refine ⟨d,hd,(encodeUtf8 (x.1.path++['\n'])++rest).take (4092-(encodeUtf8 (misread d x.2++[' '])).length),mid,?_⟩
  rw [hrun,hstart,List.take_append,List.take_of_length_le hshort]

end

/-! ### What the server writes -/

/-- The references that resolve, with their oids. -/
def resolvable (env : Env) (fs : Fs) (syms : List SymbolicRef) : List (SymbolicRef × Oid) :=
  syms.filterMap fun sym =>
    match tryFullyResolveRef env sym fs with
    | .ok (some oid) => some (sym,oid)
    | _ => none

theorem mem_resolvable : (sym,oid) ∈ resolvable env fs syms ↔ sym ∈ syms ∧ tryFullyResolveRef env sym fs = .ok (some oid) := by
  rw [resolvable,List.mem_filterMap]
  constructor
  · rintro ⟨s,hs,h⟩
    split at h
    · rename_i o ho
      obtain ⟨rfl,rfl⟩ := Prod.mk.inj (Option.some.inj h)
      exact ⟨hs,ho⟩
    · cases h
  · rintro ⟨hs,ho⟩
    exact ⟨sym,hs,by rw [ho]⟩

theorem resolvable_cons (sym : SymbolicRef) (syms : List SymbolicRef) : resolvable env fs (sym::syms) =
    (match tryFullyResolveRef env sym fs with
    | .ok (some oid) => [(sym,oid)]
    | _ => [])++resolvable env fs syms := by
  rw [resolvable,List.filterMap_cons]
  split <;> rename_i h <;> split at h <;> simp_all [resolvable]

def AllResolve (env : Env) (fs : Fs) (syms : List SymbolicRef) : Prop := ∀ sym ∈ syms, ∃ o, tryFullyResolveRef env sym fs = .ok o

def Admitted (debug : Bool) (bytes : Bytes) : Prop := bytes.length < U16_MAX ∧ (debug = true → 4+bytes.length < 2^16)

theorem refPackets_none {i : ℕ} (h : tryFullyResolveRef env sym fs = .ok none) :
    refPackets env debug fs i (sym::syms) = refPackets env debug fs (i+1) syms := by
  rw [refPackets,h]
  rfl

theorem refPackets_some {i : ℕ} {bytes : Bytes} (h : tryFullyResolveRef env sym fs = .ok (some oid)) :
    refPackets env debug fs i (sym::syms) = .ok bytes ↔ Admitted debug (encodeUtf8 (refLine i oid sym)) ∧
      ∃ more, refPackets env debug fs (i+1) syms = .ok more ∧ bytes = packetText (encodeUtf8 (refLine i oid sym))++more := by
  rw [refPackets,h]
  change ((writePacket debug (encodeUtf8 (refLine i oid sym))).mapError Error.packet >>= fun packet =>
    refPackets env debug fs (i+1) syms >>= fun packets => pure (packet++packets)) = .ok bytes ↔ _
  simp only [except_bind_eq_ok,mapError_eq_ok,writePacket_eq_ok]
  constructor
  · rintro ⟨_,⟨hlen,hdebug,rfl⟩,more,hmore,hbytes⟩
    exact ⟨⟨hlen,hdebug⟩,more,hmore,(Except.ok.inj hbytes).symm⟩
  · rintro ⟨⟨hlen,hdebug⟩,more,hmore,rfl⟩
    exact ⟨_,⟨hlen,hdebug,rfl⟩,more,hmore,rfl⟩

theorem refPackets_error {i : ℕ} {e : Error} (h : tryFullyResolveRef env sym fs = .error e) :
    refPackets env debug fs i (sym::syms) = .error e := by
  rw [refPackets,h]
  rfl

theorem refPackets_eq_ok {i : ℕ} (hi : i ≠ 0) {bytes : Bytes} : refPackets env debug fs i syms = .ok bytes ↔
    AllResolve env fs syms ∧ (∀ x ∈ resolvable env fs syms, Admitted debug (lineBytes x)) ∧
      bytes = (resolvable env fs syms).flatMap fun x => packetText (lineBytes x) := by
  induction syms generalizing i bytes with
  | nil =>
    rw [refPackets,Except.ok.injEq]
    simp [AllResolve,resolvable,eq_comm]
  | cons sym syms ih =>
    have hall : AllResolve env fs (sym::syms) ↔ (∃ o, tryFullyResolveRef env sym fs = .ok o) ∧ AllResolve env fs syms :=
      List.forall_mem_cons
    rw [hall,resolvable_cons]
    cases h : tryFullyResolveRef env sym fs with
    | error e => simp [refPackets_error h]
    | ok o =>
      cases o with
      | none =>
        rw [refPackets_none h,ih i.succ_ne_zero]
        simp
      | some oid =>
        rw [refPackets_some h,refLine_of_ne hi]
        simp only [ih i.succ_ne_zero,List.forall_mem_cons,List.singleton_append,List.flatMap_cons]
        constructor
        · rintro ⟨hline,_,⟨hrest,hlines,rfl⟩,rfl⟩
          exact ⟨⟨⟨_,rfl⟩,hrest⟩,⟨hline,hlines⟩,rfl⟩
        · rintro ⟨⟨-,hrest⟩,⟨hline,hlines⟩,rfl⟩
          exact ⟨hline,_,⟨hrest,hlines,rfl⟩,rfl⟩

/-! ### What the client reads -/

/-- The map after more lines. -/
def addLines (mapping : RefMap) (xs : List (SymbolicRef × Oid)) : RefMap :=
  xs.foldl (fun m x => Function.update m (trimmed x.1) (some x.2)) mapping

theorem addLines_some {mapping : RefMap} {xs : List (SymbolicRef × Oid)} (h : addLines mapping xs sym = some oid) :
    mapping sym = some oid ∨ ∃ x ∈ xs, trimmed x.1 = sym := by
  induction xs generalizing mapping with
  | nil => exact .inl h
  | cons x xs ih =>
    rcases ih h with h | ⟨y,hy,hys⟩
    · by_cases hx : sym = trimmed x.1
      · exact .inr ⟨x,List.mem_cons_self,hx.symm⟩
      · exact .inl ((Function.update_of_ne hx _ _).symm.trans h)
    · exact .inr ⟨y,List.mem_cons_of_mem x hy,hys⟩

theorem addLines_of_notMem {mapping : RefMap} {xs : List (SymbolicRef × Oid)} (h : ∀ x ∈ xs, trimmed x.1 ≠ sym) :
    addLines mapping xs sym = mapping sym := by
  induction xs generalizing mapping with
  | nil => rfl
  | cons x xs ih =>
    refine (ih fun y hy => h y (List.mem_cons_of_mem x hy)).trans ?_
    exact Function.update_of_ne (h x List.mem_cons_self).symm ..

theorem addLines_of_mem {mapping : RefMap} {xs : List (SymbolicRef × Oid)} (hnodup : (xs.map fun x => trimmed x.1).Nodup)
    {x : SymbolicRef × Oid} (hx : x ∈ xs) : addLines mapping xs (trimmed x.1) = some x.2 := by
  induction xs generalizing mapping with
  | nil => cases hx
  | cons y xs ih =>
    obtain ⟨hy,hnodup⟩ := List.nodup_cons.mp hnodup
    rcases List.mem_cons.mp hx with rfl | hx
    · change addLines (Function.update mapping (trimmed x.1) (some x.2)) xs (trimmed x.1) = _
      rw [addLines_of_notMem fun z hz hzx => hy (List.mem_map.mpr ⟨z,hz,hzx⟩),Function.update_self]
    · exact ih hnodup hx

section
variable {mapping : RefMap} {c s mid : Bytes}

theorem receive_run {α : Type} {p : IndexFile.Parser α} {a : α} (h : p.run s = .ok (a,mid)) :
    (receive p).run s = .ok (a,mid) := by
  change (p.run s).mapError _ = _
  rw [h]
  rfl

theorem parseRefLines_stop (n : ℕ) (h : recvPacket.run s = .ok ([],mid)) : (parseRefLines (n+1) mapping).run s = .ok (mapping,mid) := by
  rw [parseRefLines,StateT.run_bind,receive_run h]
  rfl

theorem parseRefLines_step (n : ℕ) (h : recvPacket.run s = .ok (c,mid)) (hne : c ≠ [])
    (hline : (fromUtf8 c >>= parseRefLine) = .ok (oid,sym)) :
    (parseRefLines (n+1) mapping).run s = (parseRefLines n (Function.update mapping sym (some oid))).run mid := by
  rw [parseRefLines,StateT.run_bind,receive_run h]
  change (if c = [] then pure mapping else answer (fromUtf8 c >>= parseRefLine) >>= fun line =>
    parseRefLines n (Function.update mapping line.2 (some line.1)) : Stream RefMap).run mid = _
  rw [if_neg hne,hline]
  rfl

theorem parseRefLines_fail {e : Error} (n : ℕ) (h : recvPacket.run s = .ok (c,mid)) (hne : c ≠ [])
    (hline : (fromUtf8 c >>= parseRefLine) = .error e) : (parseRefLines (n+1) mapping).run s = .error e := by
  rw [parseRefLines,StateT.run_bind,receive_run h]
  change (if c = [] then pure mapping else answer (fromUtf8 c >>= parseRefLine) >>= fun line =>
    parseRefLines n (Function.update mapping line.2 (some line.1)) : Stream RefMap).run mid = _
  rw [if_neg hne,hline]
  rfl

end

theorem lineBytes_ne_nil (x : SymbolicRef × Oid) : lineBytes x ≠ [] := by
  intro h
  have hlen := length_encodeUtf8 (lineOf x)
  rw [show encodeUtf8 (lineOf x) = [] from h,lineOf,utf8Len_append,utf8Len_toHex,List.length_nil] at hlen
  omega

/-- Lines that fit are all read, and the map gets all of them. -/
theorem parseRefLines_eq {xs : List (SymbolicRef × Oid)} (hlisted : ∀ x ∈ xs, Listed x.1) (hfits : ∀ x ∈ xs, Fits x)
    {fuel : ℕ} (hfuel : xs.length < fuel) (mapping : RefMap) (rest : Bytes) :
    (parseRefLines fuel mapping).run ((xs.flatMap fun x => packetText (lineBytes x))++(writeFlushPacket++rest)) =
      .ok (addLines mapping xs,rest) := by
  obtain ⟨fuel,rfl⟩ := Nat.exists_eq_succ_of_ne_zero (Nat.ne_of_gt (Nat.zero_lt_of_lt hfuel))
  induction xs generalizing fuel mapping with
  | nil => exact parseRefLines_stop fuel (flush_decodes.run rest)
  | cons x xs ih =>
    obtain ⟨fuel,rfl⟩ := Nat.exists_eq_succ_of_ne_zero (Nat.ne_of_gt (Nat.zero_lt_of_lt (Nat.lt_of_succ_lt_succ hfuel)))
    have hpacket := (packet_decodes (hfits x List.mem_cons_self)).run
      ((xs.flatMap fun x => packetText (lineBytes x))++(writeFlushPacket++rest))
    rw [List.flatMap_cons,List.append_assoc,
      parseRefLines_step _ hpacket (lineBytes_ne_nil x) (parse_line (hlisted x List.mem_cons_self))]
    exact ih (fun y hy => hlisted y (List.mem_cons_of_mem x hy)) (fun y hy => hfits y (List.mem_cons_of_mem x hy))
      _ fuel (Nat.lt_of_succ_lt_succ hfuel)

/-- A line that does not fit is not read. -/
theorem parseRefLines_error {xs : List (SymbolicRef × Oid)} {x : SymbolicRef × Oid} (more : List (SymbolicRef × Oid)) (hlisted : ∀ x ∈ xs, Listed x.1)
    (hfits : ∀ x ∈ xs, Fits x) (hlen : (lineBytes x).length < U16_MAX) (hlarge : ¬Fits x) (fuel : ℕ) (mapping : RefMap)
    (rest : Bytes) :
    ∃ e, (parseRefLines fuel mapping).run (((xs++x::more).flatMap fun x => packetText (lineBytes x))++rest) = .error e := by
  induction fuel generalizing xs mapping with
  | zero => exact ⟨_,rfl⟩
  | succ fuel ih =>
    cases xs with
    | nil =>
      rw [List.nil_append,List.flatMap_cons,List.append_assoc]
      obtain ⟨d,hd,tail,mid,hrun⟩ := recvPacket_misread hlen hlarge
        ((more.flatMap fun x => packetText (lineBytes x))++rest)
      obtain ⟨e,he⟩ := (misread_error (fun _ => (none : Option Unit)) hd x.2 tail).1
      refine ⟨e,parseRefLines_fail fuel hrun (fun hnil => ?_) he⟩
      exact misread_ne_nil d x.2 (List.append_eq_nil_iff.mp hnil).1
    | cons y xs =>
      have hpacket := (packet_decodes (hfits y List.mem_cons_self)).run
        (((xs++x::more).flatMap fun x => packetText (lineBytes x))++rest)
      rw [List.cons_append,List.flatMap_cons,List.append_assoc,
        parseRefLines_step _ hpacket (lineBytes_ne_nil y) (parse_line (hlisted y List.mem_cons_self))]
      exact ih (fun z hz => hlisted z (List.mem_cons_of_mem y hz)) (fun z hz => hfits z (List.mem_cons_of_mem y hz)) _

/-- Lines that are read all fit. -/
theorem fits_of_parseRefLines {xs : List (SymbolicRef × Oid)} (hlisted : ∀ x ∈ xs, Listed x.1)
    (hlen : ∀ x ∈ xs, (lineBytes x).length < U16_MAX) {fuel : ℕ} {mapping : RefMap} {rest : Bytes} {r : RefMap × Bytes}
    (h : (parseRefLines fuel mapping).run ((xs.flatMap fun x => packetText (lineBytes x))++rest) = .ok r) : ∀ x ∈ xs, Fits x := by
  by_contra hlarge
  obtain ⟨x,hx⟩ : ∃ x, xs.find? (fun x => 2^16 ≤ 4+(lineBytes x).length) = some x := by
    refine Option.isSome_iff_exists.mp (List.find?_isSome.mpr ?_)
    simpa [Fits] using hlarge
  obtain ⟨hxlarge,before,after,rfl,hbefore⟩ := List.find?_eq_some_iff_append.mp hx
  have hfits : ∀ y ∈ before, Fits y := fun y hy => by simpa [Fits] using hbefore y hy
  obtain ⟨e,he⟩ := parseRefLines_error after (fun y hy => hlisted y (List.mem_append_left _ hy)) hfits (hlen x (by simp))
    (Nat.not_lt.mpr (of_decide_eq_true hxlarge)) fuel mapping rest
  exact nomatch he.symm.trans h

/-! ### The whole message -/

/-- Every reference that resolves, with its oid. -/
def advertised (env : Env) (fs : Fs) (refs : List SymbolicRef) : RefMap := fun sym =>
  if sym ∈ refs then
    match tryFullyResolveRef env sym fs with
    | .ok o => o
    | .error _ => none
  else none

theorem fst_sublist (syms : List SymbolicRef) : ((resolvable env fs syms).map Prod.fst).Sublist syms := by
  induction syms with
  | nil => exact List.Sublist.slnil
  | cons sym syms ih =>
    rw [resolvable_cons]
    split
    · exact ih.cons_cons sym
    · exact ih.cons sym

/-- Lines whose paths are not trimmed make the map of what was advertised. -/
theorem addLines_resolvable (hnodup : syms.Nodup) (htrim : ∀ x ∈ resolvable env fs syms, trimmed x.1 = x.1) :
    addLines (fun _ => none) (resolvable env fs syms) = advertised env fs syms := by
  have hmap : (resolvable env fs syms).map (fun x => trimmed x.1) = (resolvable env fs syms).map Prod.fst :=
    List.map_congr_left htrim
  have hnodup' : ((resolvable env fs syms).map fun x => trimmed x.1).Nodup :=
    hmap ▸ hnodup.sublist (fst_sublist syms)
  have hother (sym : SymbolicRef) (h : ∀ oid, (sym,oid) ∉ resolvable env fs syms) :
      addLines (fun _ => none) (resolvable env fs syms) sym = none := by
    refine addLines_of_notMem fun x hx hxs => h x.2 ?_
    rw [← hxs,htrim x hx]
    exact hx
  funext sym
  unfold advertised
  by_cases hsym : sym ∈ syms
  · rw [if_pos hsym]
    cases hres : tryFullyResolveRef env sym fs with
    | error e => exact hother sym fun oid h => by simp [mem_resolvable,hres] at h
    | ok o =>
      cases o with
      | none => exact hother sym fun oid h => by simp [mem_resolvable,hres] at h
      | some oid =>
        have hmem : (sym,oid) ∈ resolvable env fs syms := mem_resolvable.mpr ⟨hsym,hres⟩
        have hget : addLines (fun _ => none) (resolvable env fs syms) (trimmed sym) = some oid := addLines_of_mem hnodup' hmem
        rwa [htrim _ hmem] at hget
  · rw [if_neg hsym]
    exact hother sym fun oid h => hsym (mem_resolvable.mp h).1

/-- The line of `HEAD` when it is the first one. -/
def headBytes (oid : Oid) : Bytes := encodeUtf8 (refLine 0 oid SymbolicRef.HEAD)

theorem length_headBytes (oid : Oid) : (headBytes oid).length = 47 := by
  have htext : refLine 0 oid SymbolicRef.HEAD = Packfile.Oid.toHex oid++[' ','H','E','A','D',NUL,'\n'] := rfl
  rw [headBytes,length_encodeUtf8,htext,utf8Len_append,utf8Len_toHex]
  decide

theorem fits_HEAD (oid : Oid) : Fits (SymbolicRef.HEAD,oid) := by
  have htext : lineOf (SymbolicRef.HEAD,oid) = Packfile.Oid.toHex oid++[' ','H','E','A','D','\n'] := rfl
  have hlen : (lineBytes (SymbolicRef.HEAD,oid)).length = 40+utf8Len [' ','H','E','A','D','\n'] := by
    rw [lineBytes,length_encodeUtf8,htext,utf8Len_append,utf8Len_toHex]
  rw [Fits,hlen]
  decide

section
variable {κ : Type} (capability : Text → Option κ) {c s mid : Bytes}

theorem parse_headBytes (oid : Oid) : (fromUtf8 (headBytes oid) >>= parseFirstLine capability) =
    .ok ((oid,SymbolicRef.HEAD),[]) := by
  have hnull : NUL ∉ Packfile.Oid.toHex oid++ ' '::SymbolicRef.HEAD.path := by
    have hhex := Refs.notMem_toHex (show ¬Packfile.isAsciiHexdigit NUL by decide) oid
    rw [List.mem_append,not_or]
    exact ⟨hhex,by decide⟩
  have htext : refLine 0 oid SymbolicRef.HEAD = (Packfile.Oid.toHex oid++ ' '::SymbolicRef.HEAD.path)++NUL::['\n'] := by
    rw [List.append_assoc]
    rfl
  have hcaps : parseCapabilities capability ['\n'] = .ok [] := rfl
  have hsym : SymbolicRef.fromStr SymbolicRef.HEAD.path = SymbolicRef.HEAD := by decide
  rw [headBytes,fromUtf8_encodeUtf8]
  change parseFirstLine capability (refLine 0 oid SymbolicRef.HEAD) = _
  rw [htext,parseFirstLine,splitOnce_char hnull]
  change (parseCapabilities capability ['\n'] >>= fun capabilities =>
    parseRefLine (Packfile.Oid.toHex oid++ ' '::SymbolicRef.HEAD.path) >>= fun line => pure (line,capabilities)) = _
  rw [hcaps,parseRefLine_eq,hsym]
  rfl

/-- A line without a null character is malformed as the first one. -/
theorem parse_lineBytes {x : SymbolicRef × Oid} (h : Listed x.1) :
    (fromUtf8 (lineBytes x) >>= parseFirstLine capability) = .error (.message "malformed first line") := by
  have hnull : NUL ∉ lineOf x := by
    have hhex := Refs.notMem_toHex (show ¬Packfile.isAsciiHexdigit NUL by decide) x.2
    have hblank : NUL ≠ ' ' ∧ NUL ≠ '\n' := by decide
    simp [lineOf,hhex,h.null,hblank]
  have hsplit : splitOnce [NUL] (lineOf x) = none := by
    rw [splitOnce_eq_none (List.cons_ne_nil NUL []),List.singleton_infix_iff]
    exact hnull
  rw [lineBytes,fromUtf8_encodeUtf8]
  change parseFirstLine capability (lineOf x) = _
  rw [parseFirstLine,hsplit]

theorem discovery_empty (h : recvPacket.run s = .ok ([],mid)) :
    (parseRefDiscoveryAndCapabilities capability).run s = .ok ((fun _ => none,[]),mid) := by
  rw [parseRefDiscoveryAndCapabilities,StateT.run_bind,receive_run h]
  rfl

/-- What follows the first packet. -/
def discover (packet : Bytes) : Stream (RefMap × List κ) :=
  if packet = [] then pure (fun _ => none,[])
  else answer (fromUtf8 packet >>= parseFirstLine capability) >>= fun first => get >>= fun rest =>
    parseRefLines (rest.length+1) (Function.update (fun _ => none) first.1.2 (some first.1.1)) >>= fun mapping =>
      pure (mapping,first.2)

theorem discovery_run (h : recvPacket.run s = .ok (c,mid)) :
    (parseRefDiscoveryAndCapabilities capability).run s = (discover capability c).run mid := by
  rw [parseRefDiscoveryAndCapabilities,StateT.run_bind,receive_run h]
  rfl

theorem discovery_first {capabilities : List κ} (h : recvPacket.run s = .ok (c,mid)) (hne : c ≠ [])
    (hline : (fromUtf8 c >>= parseFirstLine capability) = .ok ((oid,sym),capabilities)) :
    (parseRefDiscoveryAndCapabilities capability).run s =
      ((parseRefLines (mid.length+1) (Function.update (fun _ => none) sym (some oid))).run mid).map
        fun r => ((r.1,capabilities),r.2) := by
  rw [discovery_run capability h,discover,if_neg hne,hline]
  change ((parseRefLines (mid.length+1) (Function.update (fun _ => none) sym (some oid))).run mid >>= fun r =>
    Except.ok ((r.1,capabilities),r.2)) = _
  cases (parseRefLines (mid.length+1) (Function.update (fun _ => none) sym (some oid))).run mid <;> rfl

theorem discovery_error {e : Error} (h : recvPacket.run s = .ok (c,mid)) (hne : c ≠ [])
    (hline : (fromUtf8 c >>= parseFirstLine capability) = .error e) :
    (parseRefDiscoveryAndCapabilities capability).run s = .error e := by
  rw [discovery_run capability h,discover,if_neg hne,hline]
  rfl

/-- The client's map is what the server advertises, and the stream is read up to its flush packet. -/
def Agrees (env : Env) (debug : Bool) (fs : Fs) (capability : Text → Option κ) : Prop :=
  ∃ refs stream, lsRefs fs = .ok refs ∧ writeRefDiscovery env debug fs = .ok stream ∧ ∀ rest, ∃ capabilities,
    (parseRefDiscoveryAndCapabilities capability).run (stream++rest) = .ok ((advertised env fs refs,capabilities),rest)

/-- `HEAD` resolves or nothing does, no path of a reference that resolves ends in whitespace, and its line fits in
a packet. -/
structure Advertisable (env : Env) (fs : Fs) (refs : List SymbolicRef) : Prop where
  resolves : AllResolve env fs refs
  head : (∃ oid, tryFullyResolveRef env SymbolicRef.HEAD fs = .ok (some oid)) ∨ resolvable env fs refs = []
  plain : ∀ x ∈ resolvable env fs refs, trimEnd x.1.path = x.1.path
  fits : ∀ x ∈ resolvable env fs refs, Fits x

theorem write_eq_ok {stream : Bytes} (h : ∀ sym ∈ syms, Listed sym) (hls : lsRefs fs = .ok (SymbolicRef.HEAD::syms)) :
    writeRefDiscovery env debug fs = .ok stream ↔
      ∃ packets, refPackets env debug fs 0 (SymbolicRef.HEAD::sortedRefs syms) = .ok packets ∧ stream = packets++writeFlushPacket := by
  rw [writeRefDiscovery,hls]
  change (refPackets env debug fs 0 (sortedRefs (SymbolicRef.HEAD::syms)) >>= fun packets => pure (packets++writeFlushPacket)) =
    .ok stream ↔ _
  rw [sortedRefs_cons h,except_bind_eq_ok]
  exact exists_congr fun packets => and_congr_right fun _ => ⟨fun h => (Except.ok.inj h).symm,fun h => congrArg Except.ok h.symm⟩

theorem mem_sortedRefs : sym ∈ sortedRefs syms ↔ sym ∈ syms := (List.mergeSort_perm syms _).mem_iff

theorem mem_resolvable_sorted {x : SymbolicRef × Oid} :
    x ∈ resolvable env fs (sortedRefs syms) ↔ x ∈ resolvable env fs syms := by
  rw [mem_resolvable,mem_resolvable,mem_sortedRefs]

theorem allResolve_sorted : AllResolve env fs (sortedRefs syms) ↔ AllResolve env fs syms :=
  forall_congr' fun _ => imp_congr_left mem_sortedRefs

/-- A line that is missing in the header of the message, or that is too long, fails the client. -/
theorem first_error {x : SymbolicRef × Oid} (hx : Listed x.1) (hlen : (lineBytes x).length < U16_MAX) (rest : Bytes) :
    ∃ e, (parseRefDiscoveryAndCapabilities capability).run (packetText (lineBytes x)++rest) = .error e := by
  by_cases hfits : Fits x
  · exact ⟨_,discovery_error capability ((packet_decodes hfits).run rest) (lineBytes_ne_nil x) (parse_lineBytes capability hx)⟩
  · obtain ⟨d,hd,tail,mid,hrun⟩ := recvPacket_misread hlen hfits rest
    obtain ⟨e,he⟩ := (misread_error capability hd x.2 tail).2
    refine ⟨e,discovery_error capability hrun (fun hnil => ?_) he⟩
    exact misread_ne_nil d x.2 (List.append_eq_nil_iff.mp hnil).1

/-- Without `HEAD` there is no first line. -/
theorem agrees_iff_noHead (hlisted : ∀ sym ∈ SymbolicRef.HEAD::syms, Listed sym)
    (hls : lsRefs fs = .ok (SymbolicRef.HEAD::syms)) (hnodup : (SymbolicRef.HEAD::syms).Nodup)
    (hhead : tryFullyResolveRef env SymbolicRef.HEAD fs = .ok none) :
    Agrees env debug fs capability ↔ Advertisable env fs (SymbolicRef.HEAD::syms) := by
  have hsyms : ∀ sym ∈ syms, Listed sym := fun sym hsym => hlisted sym (List.mem_cons_of_mem _ hsym)
  have hcons : resolvable env fs (SymbolicRef.HEAD::syms) = resolvable env fs syms := by
    rw [resolvable_cons,hhead]
    rfl
  constructor
  · rintro ⟨refs,stream,hrefs,hwrite,hread⟩
    obtain ⟨packets,hpackets,rfl⟩ := (write_eq_ok hsyms hls).mp hwrite
    rw [refPackets_none hhead] at hpackets
    obtain ⟨hall,hadmitted,rfl⟩ := (refPackets_eq_ok (Nat.succ_ne_zero 0)).mp hpackets
    have hnil : resolvable env fs (sortedRefs syms) = [] := by
      by_contra hne
      obtain ⟨x,xs,hxs⟩ := List.exists_cons_of_ne_nil hne
      have hx : x ∈ resolvable env fs (sortedRefs syms) := hxs ▸ List.mem_cons_self
      obtain ⟨e,he⟩ := first_error capability (hsyms x.1 (mem_resolvable.mp (mem_resolvable_sorted.mp hx)).1)
        (hadmitted x hx).1 ((xs.flatMap fun x => packetText (lineBytes x))++(writeFlushPacket++[]))
      obtain ⟨capabilities,hok⟩ := hread []
      rw [hxs,List.flatMap_cons,List.append_assoc,List.append_assoc] at hok
      exact nomatch he.symm.trans hok
    have hnil' : resolvable env fs (SymbolicRef.HEAD::syms) = [] := by
      refine hcons.trans (List.eq_nil_iff_forall_not_mem.mpr fun x hx => ?_)
      exact List.not_mem_nil (hnil ▸ mem_resolvable_sorted.mpr hx)
    exact ⟨List.forall_mem_cons.mpr ⟨⟨none,hhead⟩,allResolve_sorted.mp hall⟩,.inr hnil',
      fun x hx => absurd (hnil' ▸ hx) List.not_mem_nil,fun x hx => absurd (hnil' ▸ hx) List.not_mem_nil⟩
  · intro h
    have hnil : resolvable env fs (SymbolicRef.HEAD::syms) = [] := by
      rcases h.head with ⟨oid,hoid⟩ | hnil
      · exact nomatch hhead.symm.trans hoid
      · exact hnil
    have hnil' : resolvable env fs (sortedRefs syms) = [] :=
      List.eq_nil_iff_forall_not_mem.mpr fun x hx =>
        List.not_mem_nil (hnil ▸ hcons ▸ mem_resolvable_sorted.mp hx : x ∈ ([] : List (SymbolicRef × Oid)))
    have hadv : advertised env fs (SymbolicRef.HEAD::syms) = fun _ => none := by
      rw [← addLines_resolvable hnodup fun x hx => absurd (hnil ▸ hx) List.not_mem_nil,hnil]
      rfl
    have hpackets : refPackets env debug fs 0 (SymbolicRef.HEAD::sortedRefs syms) = .ok [] := by
      rw [refPackets_none hhead,refPackets_eq_ok (Nat.succ_ne_zero 0),hnil']
      exact ⟨allResolve_sorted.mpr (List.forall_mem_cons.mp h.resolves).2,fun x hx => absurd hx List.not_mem_nil,rfl⟩
    refine ⟨_,_,hls,(write_eq_ok hsyms hls).mpr ⟨[],hpackets,rfl⟩,fun rest => ⟨[],?_⟩⟩
    rw [hadv]
    exact discovery_empty capability (flush_decodes.run rest)

/-- The packets behind the line of `HEAD`, and the flush. -/
def tailBytes (env : Env) (fs : Fs) (syms : List SymbolicRef) : Bytes :=
  ((resolvable env fs (sortedRefs syms)).flatMap fun x => packetText (lineBytes x))++writeFlushPacket

theorem tailBytes_append (env : Env) (fs : Fs) (syms : List SymbolicRef) (rest : Bytes) : tailBytes env fs syms++rest =
    ((resolvable env fs (sortedRefs syms)).flatMap fun x => packetText (lineBytes x))++(writeFlushPacket++rest) :=
  List.append_assoc ..

theorem discovery_head (env : Env) (fs : Fs) (syms : List SymbolicRef) (oid : Oid) (rest : Bytes) :
    (parseRefDiscoveryAndCapabilities capability).run (packetText (headBytes oid)++(tailBytes env fs syms++rest)) =
      ((parseRefLines ((tailBytes env fs syms++rest).length+1)
        (Function.update (fun _ => none) SymbolicRef.HEAD (some oid))).run (tailBytes env fs syms++rest)).map
          fun r => ((r.1,[]),r.2) := by
  have hfits : 4+(headBytes oid).length < 2^16 := by
    rw [length_headBytes]
    decide
  have hne : headBytes oid ≠ [] := fun h => by simpa [h] using length_headBytes oid
  exact discovery_first capability ((packet_decodes hfits).run _) hne (parse_headBytes capability oid)

theorem discovery_head_ok (hlisted : ∀ x ∈ resolvable env fs (sortedRefs syms), Listed x.1)
    (hfits : ∀ x ∈ resolvable env fs (sortedRefs syms), Fits x) (oid : Oid) (rest : Bytes) :
    (parseRefDiscoveryAndCapabilities capability).run (packetText (headBytes oid)++(tailBytes env fs syms++rest)) =
      .ok ((addLines (fun _ => none) ((SymbolicRef.HEAD,oid)::resolvable env fs (sortedRefs syms)),[]),rest) := by
  have hfuel : (resolvable env fs (sortedRefs syms)).length < (tailBytes env fs syms++rest).length+1 := by
    have hle := length_le_flatMap fun x (_ : x ∈ resolvable env fs (sortedRefs syms)) => packetText_ne_nil (lineBytes x)
    rw [tailBytes,List.length_append,List.length_append]
    omega
  have hread := parseRefLines_eq hlisted hfits hfuel (Function.update (fun _ => none) SymbolicRef.HEAD (some oid)) rest
  rw [← tailBytes_append] at hread
  rw [discovery_head,hread]
  rfl

theorem admitted_headBytes (debug : Bool) (oid : Oid) : Admitted debug (headBytes oid) := by
  rw [Admitted,length_headBytes]
  exact ⟨by decide,fun _ => by decide⟩

theorem write_head {stream : Bytes} (hsyms : ∀ sym ∈ syms, Listed sym) (hls : lsRefs fs = .ok (SymbolicRef.HEAD::syms))
    (hhead : tryFullyResolveRef env SymbolicRef.HEAD fs = .ok (some oid)) :
    writeRefDiscovery env debug fs = .ok stream ↔ AllResolve env fs syms ∧
      (∀ x ∈ resolvable env fs (sortedRefs syms), Admitted debug (lineBytes x)) ∧
      stream = packetText (headBytes oid)++tailBytes env fs syms := by
  rw [write_eq_ok hsyms hls]
  constructor
  · rintro ⟨packets,hpackets,rfl⟩
    obtain ⟨-,more,hmore,rfl⟩ := (refPackets_some hhead).mp hpackets
    obtain ⟨hall,hadmitted,rfl⟩ := (refPackets_eq_ok (Nat.succ_ne_zero 0)).mp hmore
    exact ⟨allResolve_sorted.mp hall,hadmitted,List.append_assoc ..⟩
  · rintro ⟨hall,hadmitted,rfl⟩
    refine ⟨_,(refPackets_some hhead).mpr ⟨admitted_headBytes debug oid,_,?_,rfl⟩,(List.append_assoc ..).symm⟩
    exact (refPackets_eq_ok (Nat.succ_ne_zero 0)).mpr ⟨allResolve_sorted.mpr hall,hadmitted,rfl⟩

/-- With `HEAD` every line has to fit and to be plain. -/
theorem agrees_iff_head (hlisted : ∀ sym ∈ SymbolicRef.HEAD::syms, Listed sym)
    (hls : lsRefs fs = .ok (SymbolicRef.HEAD::syms)) (hnodup : (SymbolicRef.HEAD::syms).Nodup)
    (hhead : tryFullyResolveRef env SymbolicRef.HEAD fs = .ok (some oid)) :
    Agrees env debug fs capability ↔ Advertisable env fs (SymbolicRef.HEAD::syms) := by
  have hsyms : ∀ sym ∈ syms, Listed sym := fun sym hsym => hlisted sym (List.mem_cons_of_mem _ hsym)
  have hcons : resolvable env fs (SymbolicRef.HEAD::syms) = (SymbolicRef.HEAD,oid)::resolvable env fs syms := by
    rw [resolvable_cons,hhead]
    rfl
  have hlines : ∀ x ∈ resolvable env fs (sortedRefs syms), Listed x.1 := fun x hx =>
    hsyms x.1 (mem_resolvable.mp (mem_resolvable_sorted.mp hx)).1
  constructor
  · rintro ⟨refs,stream,hrefs,hwrite,hread⟩
    obtain rfl : refs = SymbolicRef.HEAD::syms := Except.ok.inj (hrefs.symm.trans hls)
    obtain ⟨hall,hadmitted,rfl⟩ := (write_head hsyms hls hhead).mp hwrite
    obtain ⟨capabilities,hok⟩ := hread []
    rw [List.append_assoc] at hok
    have hfits : ∀ x ∈ resolvable env fs (sortedRefs syms), Fits x := by
      rw [discovery_head] at hok
      cases hlines' : (parseRefLines ((tailBytes env fs syms++[]).length+1)
          (Function.update (fun _ => none) SymbolicRef.HEAD (some oid))).run (tailBytes env fs syms++[]) with
      | error e =>
        rw [hlines'] at hok
        cases hok
      | ok r =>
        nth_rewrite 2 [tailBytes_append] at hlines'
        exact fits_of_parseRefLines hlines (fun x hx => (hadmitted x hx).1) hlines'
    rw [discovery_head_ok capability hlines hfits] at hok
    have hmap : addLines (fun _ => none) ((SymbolicRef.HEAD,oid)::resolvable env fs (sortedRefs syms)) =
        advertised env fs (SymbolicRef.HEAD::syms) := congrArg (fun r => r.1.1) (Except.ok.inj hok)
    refine ⟨List.forall_mem_cons.mpr ⟨⟨_,hhead⟩,hall⟩,.inl ⟨oid,hhead⟩,fun x hx => ?_,?_⟩
    · have hget : advertised env fs (SymbolicRef.HEAD::syms) x.1 = some x.2 := by
        obtain ⟨hmem,hres⟩ := mem_resolvable.mp hx
        rw [advertised,if_pos hmem,hres]
      rcases addLines_some (hmap ▸ hget) with hnone | ⟨y,-,hy⟩
      · cases hnone
      · rw [← hy]
        exact trimEnd_idem y.1.path
    · rw [hcons]
      exact List.forall_mem_cons.mpr ⟨fits_HEAD oid,fun x hx => hfits x (mem_resolvable_sorted.mpr hx)⟩
  · intro h
    have hmem : ∀ x ∈ resolvable env fs (sortedRefs syms), x ∈ resolvable env fs (SymbolicRef.HEAD::syms) := fun x hx =>
      hcons ▸ List.mem_cons_of_mem _ (mem_resolvable_sorted.mp hx)
    have hfits : ∀ x ∈ resolvable env fs (sortedRefs syms), Fits x := fun x hx => h.fits x (hmem x hx)
    have hstream : writeRefDiscovery env debug fs = .ok (packetText (headBytes oid)++tailBytes env fs syms) := by
      refine (write_head hsyms hls hhead).mpr ⟨(List.forall_mem_cons.mp h.resolves).2,fun x hx => ?_,rfl⟩
      have hlen : 4+(lineBytes x).length < 2^16 := hfits x hx
      exact ⟨by rw [U16_MAX]; omega,fun _ => hlen⟩
    have hsorted : resolvable env fs (SymbolicRef.HEAD::sortedRefs syms) =
        (SymbolicRef.HEAD,oid)::resolvable env fs (sortedRefs syms) := by
      rw [resolvable_cons,hhead]
      rfl
    have hperm : (SymbolicRef.HEAD::sortedRefs syms).Perm (SymbolicRef.HEAD::syms) := (List.mergeSort_perm syms _).cons _
    have hmap : addLines (fun _ => none) ((SymbolicRef.HEAD,oid)::resolvable env fs (sortedRefs syms)) =
        advertised env fs (SymbolicRef.HEAD::syms) := by
      rw [← hsorted,addLines_resolvable (hperm.nodup_iff.mpr hnodup)]
      · funext sym
        simp only [advertised,hperm.mem_iff]
      · intro x hx
        have hx' : x ∈ resolvable env fs (SymbolicRef.HEAD::syms) := by
          obtain ⟨hsym,hres⟩ := mem_resolvable.mp hx
          exact mem_resolvable.mpr ⟨hperm.mem_iff.mp hsym,hres⟩
        exact congrArg SymbolicRef.mk (h.plain x hx')
    refine ⟨_,_,hls,hstream,fun rest => ⟨[],?_⟩⟩
    rw [List.append_assoc,discovery_head_ok capability hlines hfits,hmap]

/-- The defect: the capabilities go with the first reference of the listing, also when it does not resolve and is
left out. -/
theorem discovery_agrees_iff (env : Env) (debug : Bool) (fs : Fs) (capability : Text → Option κ) (hnul : NoNul fs) :
    Agrees env debug fs capability ↔ ∃ refs, lsRefs fs = .ok refs ∧ Advertisable env fs refs := by
  cases hls : lsRefs fs with
  | error e =>
    constructor
    · rintro ⟨refs,-,hrefs,-⟩
      exact nomatch hls.symm.trans hrefs
    · rintro ⟨refs,hrefs,-⟩
      cases hrefs
  | ok refs =>
    obtain ⟨syms,rfl,hnodup,hlisted⟩ := lsRefs_ok hnul hls
    have hiff : Agrees env debug fs capability ↔ Advertisable env fs (SymbolicRef.HEAD::syms) := by
      cases hhead : tryFullyResolveRef env SymbolicRef.HEAD fs with
      | error e =>
        constructor
        · rintro ⟨refs,stream,-,hwrite,-⟩
          obtain ⟨packets,hpackets,-⟩ := (write_eq_ok (List.forall_mem_cons.mp hlisted).2 hls).mp hwrite
          exact nomatch (refPackets_error hhead).symm.trans hpackets
        · intro h
          obtain ⟨o,ho⟩ := h.resolves _ List.mem_cons_self
          exact nomatch hhead.symm.trans ho
      | ok o =>
        cases o with
        | none => exact agrees_iff_noHead capability hlisted hls hnodup hhead
        | some oid => exact agrees_iff_head capability hlisted hls hnodup hhead
    rw [hiff]
    exact ⟨fun h => ⟨_,rfl,h⟩,fun ⟨_,hrefs,h⟩ => Except.ok.inj hrefs ▸ h⟩

end

/-! ### Two stores -/

theorem noNul_of_names (h : ∀ p ∈ fs.names, ∀ n ∈ p, NUL ∉ n) : NoNul fs := fun p hp => h p (fs.mem_names p hp)

/-- `HEAD` and its branch are advertised. -/
theorem agrees_sample : NoNul Refs.sampleFs ∧ Agrees (Refs.sampleEnv none) true Refs.sampleFs fun _ => (none : Option Unit) := by
  have hnul : NoNul Refs.sampleFs := noNul_of_names (by decide)
  have hres : resolvable (Refs.sampleEnv none) Refs.sampleFs [SymbolicRef.HEAD,Refs.sampleBranch] =
      [(SymbolicRef.HEAD,IndexFile.Oid.UNKNOWN),(Refs.sampleBranch,IndexFile.Oid.UNKNOWN)] := by decide +kernel
  have hhead : tryFullyResolveRef (Refs.sampleEnv none) SymbolicRef.HEAD Refs.sampleFs = .ok (some IndexFile.Oid.UNKNOWN) := by
    decide +kernel
  have hbranch : tryFullyResolveRef (Refs.sampleEnv none) Refs.sampleBranch Refs.sampleFs = .ok (some IndexFile.Oid.UNKNOWN) := by
    decide +kernel
  refine ⟨hnul,(discovery_agrees_iff _ _ _ _ hnul).mpr ⟨[SymbolicRef.HEAD,Refs.sampleBranch],by decide +kernel,?_⟩⟩
  refine ⟨?_,.inl ⟨_,hhead⟩,?_,?_⟩
  · simp only [AllResolve,List.forall_mem_cons]
    exact ⟨⟨_,hhead⟩,⟨_,hbranch⟩,fun _ h => absurd h List.not_mem_nil⟩
  · rw [hres]
    decide
  · rw [hres]
    simp only [List.forall_mem_cons,Fits]
    exact ⟨by decide +kernel,by decide +kernel,fun _ h => absurd h List.not_mem_nil⟩

/-- A repository with a branch and a `HEAD` that points at another one, which is not born. -/
def unbornFs : Fs :=
  (Refs.Fs.empty.write ["HEAD".toList] (.utf8 "ref: refs/heads/main".toList)).withRef Refs.sampleBranch
    (.Direct IndexFile.Oid.UNKNOWN)

/-- The one line has no capabilities, and the client refuses it. -/
theorem unborn_disagrees :
    tryFullyResolveRef (Refs.sampleEnv none) SymbolicRef.HEAD unbornFs = .ok none ∧
      tryFullyResolveRef (Refs.sampleEnv none) Refs.sampleBranch unbornFs = .ok (some IndexFile.Oid.UNKNOWN) ∧
      ¬∃ debug, Agrees (Refs.sampleEnv none) debug unbornFs fun _ => (none : Option Unit) := by
  have hhead : tryFullyResolveRef (Refs.sampleEnv none) SymbolicRef.HEAD unbornFs = .ok none := by decide +kernel
  have hbranch : tryFullyResolveRef (Refs.sampleEnv none) Refs.sampleBranch unbornFs = .ok (some IndexFile.Oid.UNKNOWN) := by
    decide +kernel
  have hls : lsRefs unbornFs = .ok [SymbolicRef.HEAD,Refs.sampleBranch] := by decide +kernel
  refine ⟨hhead,hbranch,?_⟩
  rintro ⟨debug,h⟩
  obtain ⟨syms,hcons,hnodup,hlisted⟩ := lsRefs_ok (noNul_of_names (by decide)) hls
  obtain rfl : syms = [Refs.sampleBranch] := (List.cons.inj hcons).2.symm
  have hadv := (agrees_iff_noHead _ hlisted hls hnodup hhead).mp h
  rcases hadv.head with ⟨oid,hoid⟩ | hnil
  · exact nomatch hhead.symm.trans hoid
  · have hmem : (Refs.sampleBranch,IndexFile.Oid.UNKNOWN) ∈
        resolvable (Refs.sampleEnv none) unbornFs [SymbolicRef.HEAD,Refs.sampleBranch] :=
      mem_resolvable.mpr ⟨by decide,hbranch⟩
    rw [hnil] at hmem
    cases hmem

end Transport
end Libbit
