import Mathlib

/-! Texts as lists of characters, with the functions of Rust's `str` on them. -/
namespace Libbit
namespace Lib

/-- `char::is_whitespace`. -/
def isWhitespace (c : Char) : Bool :=
  c.toNat ∈ [0x9,0xA,0xB,0xC,0xD,0x20,0x85,0xA0,0x1680,0x2000,0x2001,0x2002,0x2003,0x2004,0x2005,0x2006,0x2007,0x2008,
    0x2009,0x200A,0x2028,0x2029,0x202F,0x205F,0x3000]

/-- `char::is_ascii_whitespace`. -/
def isAsciiWhitespace (c : Char) : Bool := c ∈ ['\t','\n','\x0c','\r',' ']

/-- `str::trim_end`. -/
def trimEnd (s : List Char) : List Char := s.rdropWhile isWhitespace

/-- `str::len`: the number of bytes. -/
def utf8Len (s : List Char) : ℕ := (s.map Char.utf8Size).sum

theorem utf8Len_append (s t : List Char) : utf8Len (s++t) = utf8Len s+utf8Len t := by simp [utf8Len]

theorem utf8Len_pos {s : List Char} (h : s ≠ []) : 0 < utf8Len s := by
  obtain ⟨c,s,rfl⟩ := List.exists_cons_of_ne_nil h
  exact (Nat.add_pos_left c.utf8Size_pos _)

theorem trimEnd_concat {c : Char} (hc : isWhitespace c) (s : List Char) : trimEnd (s++[c]) = trimEnd s :=
  List.rdropWhile_concat_pos _ _ _ hc

theorem trimEnd_concat_of_not {c : Char} (hc : isWhitespace c = false) (s : List Char) : trimEnd (s++[c]) = s++[c] :=
  List.rdropWhile_concat_neg _ _ _ (by simp [hc])

theorem trimEnd_append {t : List Char} (ht : trimEnd t = t) (hne : t ≠ []) (s : List Char) : trimEnd (s++t) = s++t := by
  rw [trimEnd,List.rdropWhile_eq_self_iff] at *
  intro hl
  rw [List.getLast_append_of_ne_nil hl hne]
  exact ht hne

theorem trimEnd_idem (s : List Char) : trimEnd (trimEnd s) = trimEnd s := List.rdropWhile_idempotent isWhitespace s

/-- The first `size` bytes, which may not end inside a character. -/
def takeBytes : ℕ → List Char → Option (List Char)
  | _, [] => some []
  | size, c::s =>
    if size = 0 then some []
    else if size < c.utf8Size then none
    else (takeBytes (size-c.utf8Size) s).map (c::·)

theorem takeBytes_append (s t : List Char) : takeBytes (utf8Len s) (s++t) = some s := by
  induction s with
  | nil => cases t <;> rfl
  | cons c s ih =>
    have hlen : utf8Len (c::s) = c.utf8Size+utf8Len s := rfl
    have hpos := c.utf8Size_pos
    rw [List.cons_append,takeBytes,if_neg (by omega),if_neg (by omega),hlen,Nat.add_sub_cancel_left,ih]
    rfl

theorem takeBytes_utf8Len (s : List Char) : takeBytes (utf8Len s) s = some s := by
  simpa using takeBytes_append s []

theorem utf8Len_of_takeBytes {n : ℕ} {s t : List Char} (h : takeBytes n s = some t) (hn : n ≤ utf8Len s) :
    utf8Len t = n := by
  induction s generalizing n t with
  | nil =>
    cases h
    exact (Nat.le_zero.mp hn).symm
  | cons c s ih =>
    have hlen : utf8Len (c::s) = c.utf8Size+utf8Len s := rfl
    rw [takeBytes] at h
    split at h
    · cases h
      exact Eq.symm ‹n = 0›
    · split at h
      · cases h
      · obtain ⟨t,ht,rfl⟩ := Option.map_eq_some_iff.mp h
        have hlen' : utf8Len (c::t) = c.utf8Size+utf8Len t := rfl
        have hrest := ih ht (by omega)
        omega

theorem length_le_utf8Len (s : List Char) : s.length ≤ utf8Len s := by
  induction s with
  | nil => exact le_rfl
  | cons c s ih =>
    have hlen : utf8Len (c::s) = c.utf8Size+utf8Len s := rfl
    have hpos := c.utf8Size_pos
    rw [List.length_cons]
    omega

theorem utf8Size_eq_one_iff {c : Char} : c.utf8Size = 1 ↔ c.toNat < 128 := by
  rw [Char.utf8Size_eq_one_iff,UInt32.le_iff_toNat_le]
  exact Nat.lt_succ_iff.symm

/-- There are as many bytes as characters if all of them are ASCII. -/
theorem utf8Len_eq_length_iff {s : List Char} : utf8Len s = s.length ↔ ∀ c ∈ s, c.toNat < 128 := by
  induction s with
  | nil => simp [utf8Len]
  | cons c s ih =>
    have hlen : utf8Len (c::s) = c.utf8Size+utf8Len s := rfl
    have hpos := c.utf8Size_pos
    have hle := length_le_utf8Len s
    rw [List.forall_mem_cons,← ih,← utf8Size_eq_one_iff,hlen,List.length_cons]
    omega

/-! ### Splitting -/

/-- `str::split_once`. -/
def splitOnce (sep : List Char) : List Char → Option (List Char × List Char)
  | [] => if sep = [] then some ([],[]) else none
  | c::s =>
    if sep.isPrefixOf (c::s) then some ([],(c::s).drop sep.length)
    else (splitOnce sep s).map fun parts => (c::parts.1,parts.2)

section Split
variable {sep s a b : List Char} {c : Char}

theorem splitOnce_char (h : c ∉ a) (b : List Char) : splitOnce [c] (a++c::b) = some (a,b) := by
  induction a with
  | nil => simp [splitOnce]
  | cons d a ih =>
    obtain ⟨hd,ha⟩ : c ≠ d ∧ c ∉ a := by simpa using h
    simp [splitOnce,hd,ih ha]

theorem idxOf?_append (h : c ∉ a) (b : List Char) : (a++c::b).idxOf? c = some a.length := by
  induction a with
  | nil => simp [List.idxOf?_cons]
  | cons d a ih =>
    obtain ⟨hd,ha⟩ : c ≠ d ∧ c ∉ a := by simpa using h
    simp [List.idxOf?_cons,Ne.symm hd,ih ha]

theorem splitOnce_eq_some (h : splitOnce sep s = some (a,b)) : s = a++sep++b := by
  induction s generalizing a with
  | nil =>
    rw [splitOnce] at h
    split at h
    · cases h
      simpa using ‹sep = []›.symm
    · cases h
  | cons c s ih =>
    rw [splitOnce] at h
    split at h
    · obtain ⟨rest,hrest⟩ := List.isPrefixOf_iff_prefix.mp ‹_›
      cases h
      rw [← hrest,List.drop_left,List.nil_append]
    · obtain ⟨⟨a',b'⟩,hsplit,heq⟩ := Option.map_eq_some_iff.mp h
      cases heq
      rw [ih hsplit]
      simp

theorem splitOnce_eq_none (hne : sep ≠ []) : splitOnce sep s = none ↔ ¬sep <:+: s := by
  induction s with
  | nil => simp [splitOnce,hne]
  | cons c s ih =>
    rw [splitOnce,List.infix_cons_iff,not_or,← ih]
    by_cases hpre : sep.isPrefixOf (c::s) = true
    · simp [hpre,List.isPrefixOf_iff_prefix.mp hpre]
    · have hno : ¬sep <+: c::s := fun h => hpre (List.isPrefixOf_iff_prefix.mpr h)
      simp [hpre,hno]

/-- `str::split_ascii_whitespace`. -/
def splitAsciiWhitespace (s : List Char) : List (List Char) := (s.splitOnP isAsciiWhitespace).filter (· ≠ [])

theorem splitAsciiWhitespace_pair (ha : ∀ c ∈ a, isAsciiWhitespace c = false) (hb : ∀ c ∈ b, isAsciiWhitespace c = false)
    (hane : a ≠ []) (hbne : b ≠ []) : splitAsciiWhitespace (' '::a++ ' '::b) = [a,b] := by
  have hspace : isAsciiWhitespace ' ' = true := by decide
  have hfirst : (' '::a++ ' '::b).splitOnP isAsciiWhitespace = []::(a++ ' '::b).splitOnP isAsciiWhitespace := by
    rw [List.cons_append,← List.nil_append (' '::_)]
    exact List.splitOnP_append_cons_of_forall_mem (by simp) ' ' hspace _
  rw [splitAsciiWhitespace,hfirst,List.splitOnP_append_cons_of_forall_mem ha ' ' hspace,List.splitOnP_eq_singleton hb]
  simp [hane,hbne]

end Split

/-! ### Lines -/

/-- A line without a carriage return at its end. -/
def stripCr (l : List Char) : List Char := if l.getLast? = some '\r' then l.dropLast else l

/-- `str::lines`, and `BufRead::lines`: the end of the last line is optional. -/
def lines (s : List Char) : List (List Char) :=
  let parts := s.splitOn '\n'
  parts.dropLast.map stripCr++if parts.getLast? = some [] then [] else parts.getLast?.toList

def joinLines (ls : List (List Char)) : List Char := ['\n'].intercalate ls

section Lines
variable {s l : List Char} {ls : List (List Char)}

theorem lines_cons (hl : '\n' ∉ l) (s : List Char) : lines (l++ '\n'::s) = stripCr l::lines s := by
  have hsplit : (l++ '\n'::s).splitOn '\n' = l::s.splitOn '\n' := List.splitOn_append_cons_self_of_not_mem hl s
  obtain ⟨m,ms,hms⟩ := List.exists_cons_of_ne_nil (List.splitOn_ne_nil '\n' s)
  simp only [lines,hsplit,hms]
  rw [List.dropLast_cons_cons,List.getLast?_cons_cons]
  rfl

theorem lines_nil : lines [] = [] := by simp [lines]

theorem lines_flatMap (hls : ∀ l ∈ ls, '\n' ∉ l) (s : List Char) :
    lines (ls.flatMap (·++['\n'])++s) = ls.map stripCr++lines s := by
  induction ls with
  | nil => rfl
  | cons l ls ih =>
    have hl := hls l List.mem_cons_self
    have htext : (l::ls).flatMap (·++['\n'])++s = l++ '\n'::(ls.flatMap (·++['\n'])++s) := by simp
    rw [htext,lines_cons hl,ih fun m hm => hls m (List.mem_cons_of_mem l hm)]
    rfl

theorem stripCr_eq_self : stripCr l = l ↔ l.getLast? ≠ some '\r' := by
  unfold stripCr
  by_cases h : l.getLast? = some '\r'
  · rw [if_pos h]
    refine iff_of_false (fun heq => ?_) (not_not_intro h)
    have hlen := congrArg List.length heq
    have hpos : 0 < l.length := List.length_pos_iff.mpr fun hnil => by simp [hnil] at h
    rw [List.length_dropLast] at hlen
    omega
  · rw [if_neg h]
    exact iff_of_true rfl h

theorem stripCr_append (s : List Char) {c : Char} (hc : c ≠ '\r') (l : List Char) :
    stripCr (s++c::l) = s++c::stripCr l := by
  have hlast : (s++c::l).getLast? = some '\r' ↔ l.getLast? = some '\r' := by
    rw [List.getLast?_append,List.getLast?_cons,Option.some_or]
    cases l.getLast? with
    | none => simp [hc]
    | some d => rfl
  unfold stripCr
  by_cases h : l.getLast? = some '\r'
  · have hne : l ≠ [] := fun hnil => by simp [hnil] at h
    rw [if_pos (hlast.mpr h),if_pos h,List.dropLast_append_of_ne_nil (by simp),List.dropLast_cons_of_ne_nil hne]
  · rw [if_neg (mt hlast.mp h),if_neg h]

theorem notMem_of_mem_splitOn {p : List Char} (h : p ∈ s.splitOn '\n') : '\n' ∉ p := by
  induction s generalizing p with
  | nil => simp [show p = [] by simpa using h]
  | cons c s ih =>
    rw [List.splitOn_cons_eq_if_modifyHead] at h
    split at h
    · rcases List.mem_cons.mp h with rfl | h
      · simp
      · exact ih h
    · rename_i hc
      obtain ⟨q,qs,hq⟩ := List.exists_cons_of_ne_nil (List.splitOn_ne_nil '\n' s)
      rw [hq,List.modifyHead_cons] at h
      rw [hq] at ih
      rcases List.mem_cons.mp h with rfl | h
      · have hne : '\n' ≠ c := fun heq => hc (by simpa using heq.symm)
        exact List.not_mem_cons_of_ne_of_not_mem hne (ih List.mem_cons_self)
      · exact ih (List.mem_cons_of_mem q h)

theorem notMem_stripCr (h : '\n' ∉ l) : '\n' ∉ stripCr l := by
  unfold stripCr
  split
  · exact fun hmem => h (List.mem_of_mem_dropLast hmem)
  · exact h

theorem splitOn_joinLines (hls : ∀ l ∈ ls, '\n' ∉ l) (hne : ls ≠ []) : (joinLines ls).splitOn '\n' = ls :=
  List.splitOn_intercalate '\n' hls hne

/-- The parts before the last one, as they stand before a line feed. -/
theorem forall_dropLast_iff (s : List Char) :
    (∀ p ∈ (s.splitOn '\n').dropLast, p.getLast? ≠ some '\r') ↔ ¬['\r','\n'] <:+: s := by
  induction s with
  | nil => simp
  | cons c s ih =>
    rw [List.infix_cons_iff,not_or,← ih,List.splitOn_cons_eq_if_modifyHead]
    obtain ⟨q,qs,hq⟩ := List.exists_cons_of_ne_nil (List.splitOn_ne_nil '\n' s)
    rw [hq]
    by_cases hc : c = '\n'
    · subst hc
      rw [if_pos (by decide),List.dropLast_cons_cons]
      simp
    rw [if_neg (by simpa using hc),List.modifyHead_cons]
    cases s with
    | nil =>
      obtain ⟨rfl,rfl⟩ : q = [] ∧ qs = [] := by simpa using hq.symm
      simp
    | cons d s =>
      rw [List.splitOn_cons_eq_if_modifyHead] at hq
      by_cases hd : d = '\n'
      · -- the part ends here
        subst hd
        obtain ⟨rfl,rfl⟩ : [] = q ∧ s.splitOn '\n' = qs := by simpa using hq
        obtain ⟨r,rs,hr⟩ := List.exists_cons_of_ne_nil (List.splitOn_ne_nil '\n' s)
        rw [hr,List.dropLast_cons_cons,List.dropLast_cons_cons]
        simp [eq_comm]
      · obtain ⟨r,rs,hr⟩ := List.exists_cons_of_ne_nil (List.splitOn_ne_nil '\n' s)
        obtain ⟨rfl,rfl⟩ : d::r = q ∧ rs = qs := by simpa [hd,hr] using hq
        cases rs with
        | nil => simp [Ne.symm hd]
        | cons t ts => simp [Ne.symm hd,List.getLast?_cons]

/-- The last part is empty after a line feed. -/
theorem getLast?_splitOn_iff (s : List Char) : (s.splitOn '\n').getLast? = some [] ↔ s = [] ∨ s.getLast? = some '\n' := by
  rcases List.eq_nil_or_concat s with rfl | ⟨t,c,rfl⟩
  · simp
  rw [List.concat_eq_append,List.getLast?_concat,Option.some.injEq,or_iff_right (by simp)]
  by_cases hc : c = '\n'
  · subst hc
    refine iff_of_true ?_ rfl
    rw [List.splitOn_append_cons_self]
    simp
  · refine iff_of_false ?_ hc
    induction t with
    | nil =>
      rw [List.nil_append,List.splitOn_eq_singleton (by simpa using Ne.symm hc)]
      simp
    | cons d t ih =>
      obtain ⟨q,qs,hq⟩ := List.exists_cons_of_ne_nil (List.splitOn_ne_nil '\n' (t++[c]))
      rw [List.cons_append,List.splitOn_cons_eq_if_modifyHead,hq]
      rw [hq] at ih
      split
      · rwa [List.getLast?_cons_cons]
      · rw [List.modifyHead_cons]
        cases qs with
        | nil => simp
        | cons r rs => rwa [List.getLast?_cons_cons] at ih ⊢

/-- What becomes of a value that is written over several lines and read back. -/
def clean (v : List Char) : List Char := joinLines ((v.splitOn '\n').map stripCr)

theorem map_stripCr_eq_self : ls.map stripCr = ls ↔ ∀ l ∈ ls, l.getLast? ≠ some '\r' := by
  rw [← List.map_id ls,List.map_map,List.map_inj_left,List.map_id]
  exact forall₂_congr fun l _ => stripCr_eq_self

theorem clean_eq_self (v : List Char) : clean v = v ↔ ¬['\r','\n'] <:+: v++['\n'] := by
  have hparts : (v++['\n']).splitOn '\n' = v.splitOn '\n'++[[]] := List.splitOn_append_cons_self v []
  have hiff := forall_dropLast_iff (v++['\n'])
  rw [hparts,List.dropLast_concat] at hiff
  rw [← hiff,← map_stripCr_eq_self]
  constructor
  · intro h
    have hsplit := congrArg (List.splitOn '\n') h
    rwa [clean,splitOn_joinLines] at hsplit
    · intro l hl
      obtain ⟨p,hp,rfl⟩ := List.mem_map.mp hl
      exact notMem_stripCr (notMem_of_mem_splitOn hp)
    · simp
  · intro h
    rw [clean,h]
    exact List.intercalate_splitOn '\n'

/-- A text is what its lines make up exactly if no line feed follows a carriage return and none ends the text. -/
theorem joinLines_lines_eq_self (s : List Char) :
    joinLines (lines s) = s ↔ ¬['\r','\n'] <:+: s ∧ s.getLast? ≠ some '\n' := by
  have hjoin : joinLines (s.splitOn '\n') = s := List.intercalate_splitOn '\n'
  have hstripped : ∀ l ∈ (s.splitOn '\n').dropLast.map stripCr, '\n' ∉ l := by
    intro l hl
    obtain ⟨p,hp,rfl⟩ := List.mem_map.mp hl
    exact notMem_stripCr (notMem_of_mem_splitOn (List.mem_of_mem_dropLast hp))
  rw [← forall_dropLast_iff,← map_stripCr_eq_self]
  rcases List.eq_nil_or_concat (s.splitOn '\n') with hnil | ⟨init,last,hparts⟩
  · exact absurd hnil (List.splitOn_ne_nil '\n' s)
  rw [List.concat_eq_append] at hparts
  have hlast := getLast?_splitOn_iff s
  have hmem : '\n' ∉ last := notMem_of_mem_splitOn (by rw [hparts]; simp)
  simp only [lines,hparts,List.dropLast_concat,List.getLast?_concat,Option.some.injEq,Option.toList_some] at hjoin hlast hstripped ⊢
  by_cases hempty : last = []
  · rw [if_pos hempty,List.append_nil]
    rcases hlast.mp hempty with rfl | hend
    · have hinit : init = [] := by
        have hlen := congrArg List.length hparts
        rw [List.splitOn_nil,List.length_append,List.length_singleton,List.length_singleton] at hlen
        exact List.length_eq_zero_iff.mp (by omega)
      simp [joinLines,hinit]
    · refine iff_of_false (fun h => ?_) fun h => h.2 hend
      have hne : init.map stripCr ≠ [] := by
        intro hnil
        rw [hnil] at h
        rw [← h] at hend
        cases hend
      have hsplit := congrArg (List.splitOn '\n') h
      rw [splitOn_joinLines hstripped hne,hparts] at hsplit
      simpa using congrArg List.length hsplit
  · have hend : s.getLast? ≠ some '\n' := fun h => hempty (hlast.mpr (Or.inr h))
    rw [if_neg hempty,and_iff_left hend]
    constructor
    · intro h
      have hsplit := congrArg (List.splitOn '\n') h
      rw [splitOn_joinLines ?_ (by simp),hparts] at hsplit
      · exact List.append_cancel_right hsplit
      · intro l hl
        rcases List.mem_append.mp hl with hl | hl
        · exact hstripped l hl
        · exact List.mem_singleton.mp hl ▸ hmem
    · intro h
      rw [h,hjoin]

theorem intercalate_cons (c : Char) (p : List Char) (ps : List (List Char)) :
    [c].intercalate (p::ps) = p++ps.flatMap (c::·) := by
  induction ps generalizing p with
  | nil => simp
  | cons q ps ih =>
    have hjoin : [c].intercalate (p::q::ps) = p++c::[c].intercalate (q::ps) := by simp
    rw [hjoin,ih]
    rfl

theorem joinLines_cons (p : List Char) (ps : List (List Char)) : joinLines (p::ps) = p++ps.flatMap ('\n'::·) :=
  intercalate_cons '\n' p ps

theorem stripCr_sublist (l : List Char) : (stripCr l).Sublist l := by
  unfold stripCr
  split
  · exact List.dropLast_sublist l
  · exact List.Sublist.refl l

theorem joinLines_map_stripCr_sublist (ls : List (List Char)) : (joinLines (ls.map stripCr)).Sublist (joinLines ls) := by
  cases ls with
  | nil => exact List.Sublist.refl _
  | cons p ps =>
    rw [List.map_cons,joinLines_cons,joinLines_cons]
    refine (stripCr_sublist p).append ?_
    induction ps with
    | nil => exact List.Sublist.refl _
    | cons q qs ih =>
      simp only [List.map_cons,List.flatMap_cons]
      exact ((stripCr_sublist q).cons_cons '\n').append ih

theorem joinLines_concat {ls : List (List Char)} (hne : ls ≠ []) (l : List Char) :
    joinLines (ls++[l]) = joinLines ls++ '\n'::l := by
  obtain ⟨p,ps,rfl⟩ := List.exists_cons_of_ne_nil hne
  rw [List.cons_append,joinLines_cons,joinLines_cons,List.flatMap_append,← List.append_assoc]
  simp

theorem joinLines_sublist_append (ls ms : List (List Char)) : (joinLines ls).Sublist (joinLines (ls++ms)) := by
  cases ls with
  | nil => exact List.nil_sublist _
  | cons p ps =>
    rw [List.cons_append,joinLines_cons,joinLines_cons,List.flatMap_append,← List.append_assoc]
    exact List.sublist_append_left _ _

/-- Putting the lines of a text together again can only lose some of it. -/
theorem joinLines_lines_sublist (s : List Char) : (joinLines (lines s)).Sublist s := by
  rcases List.eq_nil_or_concat (s.splitOn '\n') with hnil | ⟨init,last,hparts⟩
  · exact absurd hnil (List.splitOn_ne_nil '\n' s)
  rw [List.concat_eq_append] at hparts
  have htext : joinLines (init++[last]) = s := by
    rw [← hparts]
    exact List.intercalate_splitOn '\n'
  have hlines : lines s = init.map stripCr++if last = [] then [] else [last] := by simp [lines,hparts]
  rw [hlines]
  conv_rhs => rw [← htext]
  split
  · rw [List.append_nil]
    exact (joinLines_map_stripCr_sublist init).trans (joinLines_sublist_append init [last])
  · cases init with
    | nil => exact List.Sublist.refl _
    | cons p ps =>
      rw [joinLines_concat (by simp),joinLines_concat (by simp)]
      exact (joinLines_map_stripCr_sublist (p::ps)).append (List.Sublist.refl _)

theorem clean_sublist (v : List Char) : (clean v).Sublist v := by
  have h := joinLines_map_stripCr_sublist (v.splitOn '\n')
  rwa [show joinLines (v.splitOn '\n') = v from List.intercalate_splitOn '\n'] at h

/-- Every line feed ends a line. -/
theorem count_le_length_lines (s : List Char) : s.count '\n' ≤ (lines s).length := by
  have hparts : (s.splitOn '\n').length = s.count '\n'+1 := by
    induction s with
    | nil => simp
    | cons c s ih =>
      rw [List.splitOn_cons_eq_if_modifyHead]
      split
      · rename_i hc
        rw [List.length_cons,ih,eq_of_beq hc,List.count_cons_self]
      · rename_i hc
        rw [List.length_modifyHead,ih,List.count_cons_of_ne fun h => hc (beq_iff_eq.mpr h)]
  rw [lines,List.length_append,List.length_map,List.length_dropLast,hparts]
  omega

/-- `str::replace("\n", "\n ")`. -/
def indentLines (s : List Char) : List Char := s.flatMap fun c => if c = '\n' then ['\n',' '] else [c]

theorem length_indentLines (s : List Char) : (indentLines s).length = s.length+s.count '\n' := by
  induction s with
  | nil => rfl
  | cons c s ih =>
    have hcons : indentLines (c::s) = (if c = '\n' then ['\n',' '] else [c])++indentLines s := rfl
    rw [hcons,List.length_append,ih]
    by_cases hc : c = '\n'
    · rw [if_pos hc,hc,List.count_cons_self,List.length_cons]
      simp
      omega
    · rw [if_neg hc,List.count_cons_of_ne hc,List.length_cons]
      simp
      omega

theorem indentLines_of_notMem (h : '\n' ∉ l) (s : List Char) : indentLines (l++s) = l++indentLines s := by
  rw [indentLines,List.flatMap_append]
  have hsame : (l.flatMap fun c => if c = '\n' then ['\n',' '] else [c]) = l := by
    rw [List.flatMap_congr (g := fun c => [c]) fun c hc => if_neg fun (heq : c = '\n') => h (heq ▸ hc)]
    simp
  rw [hsame]
  rfl

/-- The lines of a text after its first one are indented. -/
theorem lines_indentLines {pre p : List Char} {ps : List (List Char)} (hpre : '\n' ∉ pre)
    (hps : ∀ q ∈ p::ps, '\n' ∉ q) (rest : List Char) :
    lines (pre++indentLines (joinLines (p::ps))++ '\n'::rest) =
      stripCr (pre++p)::(ps.map fun q => stripCr (' '::q))++lines rest := by
  induction ps generalizing pre p with
  | nil =>
    have hp := hps p List.mem_cons_self
    have hindent : indentLines p = p := by simpa [indentLines] using indentLines_of_notMem hp []
    rw [joinLines,List.intercalate_singleton,hindent]
    exact lines_cons (by simp [hpre,hp]) rest
  | cons q qs ih =>
    have hp := hps p List.mem_cons_self
    have hjoin : joinLines (p::q::qs) = p++ '\n'::joinLines (q::qs) := by simp [joinLines]
    have hindent : indentLines ('\n'::joinLines (q::qs)) = '\n'::([' ']++indentLines (joinLines (q::qs))) := rfl
    have hnext : lines ([' ']++indentLines (joinLines (q::qs))++ '\n'::rest) = _ :=
      ih (by decide) fun r hr => hps r (List.mem_cons_of_mem p hr)
    rw [hjoin,indentLines_of_notMem hp,hindent,← List.append_assoc,List.append_assoc (pre++p),List.cons_append,
      lines_cons (by simp [hpre,hp]),hnext]
    rfl

end Lines

/-! ### Numbers -/

section Numbers
variable {s : List Char} {n : ℕ}

def parseNat (s : List Char) : Option ℕ :=
  if s ≠ [] ∧ s.all Char.isDigit then some (Nat.ofDigitChars 10 s 0) else none

/-- A sign, or none, then digits. -/
def parseInt : List Char → Option ℤ
  | '-'::s => (parseNat s).map fun n : ℕ => -(n : ℤ)
  | '+'::s => (parseNat s).map fun n : ℕ => (n : ℤ)
  | s => (parseNat s).map fun n : ℕ => (n : ℤ)

def showInt : ℤ → List Char
  | .ofNat n => Nat.toDigits 10 n
  | .negSucc n => '-'::Nat.toDigits 10 (n+1)

/-- `{:02}`. -/
def pad2 (n : ℕ) : List Char := (Nat.toDigits 10 n).leftpad 2 '0'

theorem isDigit_of_mem {c : Char} (h : c ∈ Nat.toDigits 10 n) : c.isDigit :=
  Nat.isDigit_of_mem_toDigits (by decide) (by decide) h

theorem parseNat_toDigits (n : ℕ) : parseNat (Nat.toDigits 10 n) = some n := by
  rw [parseNat,if_pos ⟨Nat.toDigits_ne_nil,List.all_eq_true.mpr fun c hc => isDigit_of_mem hc⟩,Nat.ofDigitChars_ten_toDigits]

theorem parseInt_of_digits (h : parseNat s = some n) : parseInt s = some (n : ℤ) := by
  cases s with
  | nil => cases h
  | cons c s =>
    have hdigit : c.isDigit := by
      unfold parseNat at h
      split at h
      · exact List.all_eq_true.mp (And.right ‹_›) c List.mem_cons_self
      · cases h
    have hplus : c ≠ '+' := by
      rintro rfl
      exact absurd hdigit (by decide)
    have hminus : c ≠ '-' := by
      rintro rfl
      exact absurd hdigit (by decide)
    rw [parseInt.eq_3 _ (fun t ht => hminus (List.cons.inj ht).1) (fun t ht => hplus (List.cons.inj ht).1),h]
    rfl

theorem parseInt_showInt (z : ℤ) : parseInt (showInt z) = some z := by
  cases z with
  | ofNat n => exact parseInt_of_digits (parseNat_toDigits n)
  | negSucc n =>
    rw [showInt,parseInt,parseNat_toDigits]
    rfl

theorem mem_showInt {z : ℤ} {c : Char} (h : c ∈ showInt z) : c = '-' ∨ c.isDigit := by
  cases z with
  | ofNat n => exact Or.inr (isDigit_of_mem h)
  | negSucc n => exact (List.mem_cons.mp h).imp_right isDigit_of_mem

theorem showInt_ne_nil (z : ℤ) : showInt z ≠ [] := by
  cases z with
  | ofNat n => exact Nat.toDigits_ne_nil
  | negSucc n => exact List.cons_ne_nil _ _

theorem ofDigitChars_lt (h : s.all Char.isDigit) : Nat.ofDigitChars 10 s 0 < 10^s.length := by
  induction s with
  | nil => simp
  | cons c s ih =>
    obtain ⟨hc,hs⟩ := by simpa using h
    have hrest : Nat.ofDigitChars 10 s 0 < 10^s.length := ih (by simpa using hs)
    have hdigit : c.toNat- '0'.toNat ≤ 9 := by
      have hle : c.toNat ≤ '9'.toNat := (Char.isDigit_iff_toNat.mp hc).2
      exact (Nat.sub_le_sub_right hle _).trans_eq rfl
    have hvalue : Nat.ofDigitChars 10 (c::s) 0 = 10^s.length*(c.toNat- '0'.toNat)+Nat.ofDigitChars 10 s 0 := by
      rw [Nat.ofDigitChars_cons,Nat.ofDigitChars_eq_ofDigitChars_zero,Nat.mul_zero,Nat.zero_add]
    have hmul := Nat.mul_le_mul_left (10^s.length) hdigit
    rw [hvalue,List.length_cons,Nat.pow_succ]
    omega

theorem parseNat_lt (h : parseNat s = some n) : n < 10^s.length := by
  unfold parseNat at h
  split at h
  · cases h
    exact ofDigitChars_lt (And.right ‹_›)
  · cases h

theorem natAbs_parseInt_lt {z : ℤ} (h : parseInt s = some z) : z.natAbs < 10^s.length := by
  unfold parseInt at h
  have hgrow (t : List Char) (c : Char) : 10^t.length ≤ 10^(c::t).length :=
    Nat.pow_le_pow_right (by decide) (Nat.le_succ t.length)
  split at h <;> obtain ⟨n,hn,rfl⟩ := Option.map_eq_some_iff.mp h
  · simpa using (parseNat_lt hn).trans_le (hgrow _ '-')
  · simpa using (parseNat_lt hn).trans_le (hgrow _ '+')
  · simpa using parseNat_lt hn

theorem isDigit_of_mem_pad2 {c : Char} (h : c ∈ pad2 n) : c.isDigit := by
  rcases List.mem_append.mp h with h | h
  · rw [List.eq_of_mem_replicate h]
    decide
  · exact isDigit_of_mem h

/-- Two digits are enough for a number below 100. -/
theorem pad2_of_lt (hn : n < 100) : ∃ c d, pad2 n = [c,d] ∧ parseInt [c,d] = some (n : ℤ) := by
  have hlen : (pad2 n).length = 2 := by
    have hle : (Nat.toDigits 10 n).length ≤ 2 := (Nat.length_toDigits_le_iff (by decide) (by decide)).mpr hn
    rw [pad2,List.length_leftpad]
    omega
  obtain ⟨c,d,hcd⟩ := List.length_eq_two.mp hlen
  have hval : Nat.ofDigitChars 10 (pad2 n) 0 = n := by
    rw [pad2,List.leftpad,Nat.ofDigitChars_append,Nat.ofDigitChars_replicate_zero,Nat.mul_zero,Nat.ofDigitChars_ten_toDigits]
  refine ⟨c,d,hcd,parseInt_of_digits ?_⟩
  rw [← hcd,parseNat,if_pos ⟨by rw [hcd]; simp,List.all_eq_true.mpr fun c hc => isDigit_of_mem_pad2 hc⟩,hval]

end Numbers

end Lib
end Libbit
