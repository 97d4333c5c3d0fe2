import Libbit.Revspec

/-! The language of revisions, and what the parser accepts and refuses. The parser takes any text without
separators for the number of a parent or an ancestor, and it slices bytes where the text may have ended. -/
namespace Libbit
namespace Rev

open Lib
open Refs (Text BitRef SymbolicRef)

/-! ### The language -/

def Plain (w : Text) : Prop := ∀ c ∈ w, c ∉ REV_SEPS

/-- A decimal number below 2^64. -/
structure Number (w : Text) (n : ℕ) : Prop where
  nonempty : w ≠ []
  digits : ∀ c ∈ w, c.isDigit
  value : Nat.ofDigitChars 10 w 0 = n
  small : n < 2^64

inductive Suffix
  | parent (n : ℕ)
  | ancestor (n : ℕ)
  | reflog (n : ℕ)

def Suffix.wrap (rev : ParsedRevspec) : Suffix → ParsedRevspec
  | .parent n => .Parent rev n
  | .ancestor n => .Ancestor rev n
  | .reflog n => .Reflog rev n

/-- A number that is missing is 1. -/
inductive IsSuffix : Text → Suffix → Prop
  | firstParent : IsSuffix ['^'] (.parent 1)
  | parent {w : Text} {n : ℕ} (h : Number w n) : IsSuffix ('^'::w) (.parent n)
  | firstAncestor : IsSuffix ['~'] (.ancestor 1)
  | ancestor {w : Text} {n : ℕ} (h : Number w n) : IsSuffix ('~'::w) (.ancestor n)
  | reflog {w : Text} {n : ℕ} (h : Number w n) : IsSuffix ('@':: '{'::(w++['}'])) (.reflog n)

inductive Suffixes : Text → List Suffix → Prop
  | nil : Suffixes [] []
  | cons {t s : Text} {x : Suffix} {xs : List Suffix} (hx : IsSuffix t x) (hxs : Suffixes s xs) : Suffixes (t++s) (x::xs)

def IsBase (b : Text) : Prop := b = ['@'] ∨ (b ≠ [] ∧ Plain b)

/-- The text is this base with these suffixes. -/
def Derives (s b : Text) (xs : List Suffix) : Prop := IsBase b ∧ ∃ t, s = b++t ∧ Suffixes t xs

def InLanguage (s : Text) : Prop := ∃ b xs, Derives s b xs

/-- What a base stands for. -/
def reference (expandPrefix : Packfile.PartialOid → Option Oid) (b : Text) : BitRef :=
  match (Packfile.PartialOid.fromStr b).toOption.bind expandPrefix with
  | some oid => .Direct oid
  | none => BitRef.fromStr b

def meaning (expandPrefix : Packfile.PartialOid → Option Oid) (b : Text) (xs : List Suffix) : ParsedRevspec :=
  xs.foldl Suffix.wrap (.Ref (reference expandPrefix b))

/-- The call returns the error. -/
def Error.returned : Error → Prop
  | .message _ => True
  | .parseInt => True
  | .panic _ => False
  | .outOfFuel => False

/-- The parser accepts the text if and only if it is in the language, with its meaning, and it does not panic. -/
structure ParsesExactly (debug : Bool) (expandPrefix : Packfile.PartialOid → Option Oid) (s : Text) : Prop where
  accepts : ∀ rev, parse debug expandPrefix s = .ok rev ↔ ∃ b xs, Derives s b xs ∧ rev = meaning expandPrefix b xs
  returns : ∀ e, parse debug expandPrefix s = .error e → e.returned

/-! ### What the parser reads -/

/-- The end of the text, or a separator. -/
def StartsSep (s : Text) : Prop := ∀ c ∈ s.head?, c ∈ REV_SEPS

/-- The suffixes that the parser makes of a text. -/
inductive LooseRest : Text → List Suffix → Prop
  | nil : LooseRest [] []
  | parent {w s : Text} {xs : List Suffix} (hw : Plain w) (hs : StartsSep s) (hxs : LooseRest s xs) :
    LooseRest ('^'::(w++s)) (.parent ((usizeFromStr w).getD 1)::xs)
  | ancestor {w s : Text} {xs : List Suffix} (hw : Plain w) (hs : StartsSep s) (hxs : LooseRest s xs) :
    LooseRest ('~'::(w++s)) (.ancestor ((usizeFromStr w).getD 1)::xs)
  | reflog {w s : Text} {n : ℕ} {xs : List Suffix} (hw : usizeFromStr w = some n) (hxs : LooseRest s xs) :
    LooseRest ('@':: '{'::(w++ '}'::s)) (.reflog n::xs)

/-- The texts on which the parser slices a byte that is not there: at the end, or in a character of several bytes. -/
inductive Breaks : Text → Prop
  | wide {c : Char} {s : Text} (h : c.utf8Size ≠ 1) : Breaks (c::s)
  | atEnd : Breaks ['@']
  | atWide {c : Char} {s : Text} (h : c.utf8Size ≠ 1) : Breaks ('@'::c::s)
  | numberEnd {w : Text} {n : ℕ} (hw : usizeFromStr w = some n) : Breaks ('@':: '{'::w)
  | parent {w s : Text} (hw : Plain w) (hs : StartsSep s) (h : Breaks s) : Breaks ('^'::(w++s))
  | ancestor {w s : Text} (hw : Plain w) (hs : StartsSep s) (h : Breaks s) : Breaks ('~'::(w++s))
  | reflog {w s : Text} {n : ℕ} (hw : usizeFromStr w = some n) (h : Breaks s) : Breaks ('@':: '{'::(w++ '}'::s))

variable {debug : Bool} {expandPrefix : Packfile.PartialOid → Option Oid} {s t w : Text} {n fuel : ℕ}
  {rev : ParsedRevspec} {xs : List Suffix}

theorem next_append (hw : Plain w) (hs : StartsSep s) : next (w++s) = (w,s) := by
  rw [next,List.span_eq_takeWhile_dropWhile]
  have hall : ∀ c ∈ w, decide (c ∉ REV_SEPS) = true := fun c hc => decide_eq_true (hw c hc)
  rw [List.takeWhile_append_of_pos hall,List.dropWhile_append_of_pos hall]
  cases s with
  | nil => simp
  | cons c s =>
    have hc : c ∈ REV_SEPS := hs c rfl
    rw [List.takeWhile_cons_of_neg (by simpa using hc),List.dropWhile_cons_of_neg (by simpa using hc),List.append_nil]

theorem next_spec (s : Text) : s = (next s).1++(next s).2 ∧ Plain (next s).1 ∧ StartsSep (next s).2 := by
  rw [next,List.span_eq_takeWhile_dropWhile]
  refine ⟨(List.takeWhile_append_dropWhile).symm,fun c hc => ?_,fun c hc => ?_⟩
  · simpa using List.mem_takeWhile_imp hc
  · have hstop := List.head?_dropWhile_not (fun c => decide (c ∉ REV_SEPS)) s
    rw [Option.mem_def.mp hc] at hstop
    simpa using hstop

theorem startsSep_cons {c : Char} : StartsSep (c::s) ↔ c ∈ REV_SEPS := by simp [StartsSep]

theorem not_sep_of_isDigit {c : Char} (h : c.isDigit) : c ∉ REV_SEPS := by
  intro hc
  simp only [REV_SEPS,List.mem_cons,List.not_mem_nil,or_false] at hc
  rcases hc with rfl | rfl | rfl | rfl | rfl <;> exact absurd h (by decide)

theorem utf8Size_of_sep {c : Char} (h : c ∈ REV_SEPS) : c.utf8Size = 1 := by
  simp only [REV_SEPS,List.mem_cons,List.not_mem_nil,or_false] at h
  rcases h with rfl | rfl | rfl | rfl | rfl <;> decide

theorem digits_of_parseNat (h : parseNat w = some n) : ∀ c ∈ w, c.isDigit := by
  unfold parseNat at h
  split at h
  · exact List.all_eq_true.mp (And.right ‹_›)
  · cases h

theorem plain_of_usize (h : usizeFromStr w = some n) : Plain w := by
  have hparse := (Option.filter_eq_some_iff.mp h).1
  have hdigits := digits_of_parseNat hparse
  intro c hc
  by_cases hplus : w.head? = some '+'
  · rw [if_pos hplus] at hdigits
    obtain ⟨ds,rfl⟩ := List.head?_eq_some_iff.mp hplus
    rcases List.mem_cons.mp hc with rfl | hc
    · decide
    · exact not_sep_of_isDigit (hdigits c hc)
  · rw [if_neg hplus] at hdigits
    exact not_sep_of_isDigit (hdigits c hc)

theorem usize_of_number (h : Number w n) : usizeFromStr w = some n := by
  have hplus : w.head? ≠ some '+' := by
    intro hplus
    have hdigit := h.digits '+' (List.mem_of_mem_head? hplus)
    exact absurd hdigit (by decide)
  rw [usizeFromStr,if_neg hplus,parseNat,if_pos ⟨h.nonempty,List.all_eq_true.mpr h.digits⟩,h.value]
  exact Option.filter_eq_some_iff.mpr ⟨rfl,decide_eq_true h.small⟩

theorem plain_of_number (h : Number w n) : Plain w := plain_of_usize (usize_of_number h)

/-! ### One round of the parser -/

theorem round_parent (hw : Plain w) (hs : StartsSep s) : parseSuffixes (fuel+1) rev ('^'::(w++s)) =
    parseSuffixes fuel (.Parent rev ((usizeFromStr w).getD 1)) s := by
  have hround : parseSuffixes (fuel+1) rev ('^'::(w++s)) =
      parseSuffixes fuel (.Parent rev ((usizeFromStr (next (w++s)).1).getD 1)) (next (w++s)).2 := rfl
  rw [hround,next_append hw hs]

theorem round_ancestor (hw : Plain w) (hs : StartsSep s) : parseSuffixes (fuel+1) rev ('~'::(w++s)) =
    parseSuffixes fuel (.Ancestor rev ((usizeFromStr w).getD 1)) s := by
  have hround : parseSuffixes (fuel+1) rev ('~'::(w++s)) =
      parseSuffixes fuel (.Ancestor rev ((usizeFromStr (next (w++s)).1).getD 1)) (next (w++s)).2 := rfl
  rw [hround,next_append hw hs]

theorem round_wide {c : Char} (h : c.utf8Size ≠ 1) :
    parseSuffixes (fuel+1) rev (c::s) = .error (.panic "byte index 1 is not a char boundary") := by
  rw [parseSuffixes,splitAt1,if_neg h]
  rfl

/-- What follows `@`. -/
theorem round_at : parseSuffixes (fuel+1) rev ('@'::s) = (expect '{' s >>= fun s => expectNum s >>= fun r =>
    expect '}' r.2 >>= fun s => parseSuffixes fuel (.Reflog rev r.1) s) := rfl

/-- What follows `@{`. -/
theorem round_brace (hw : Plain w) (hs : StartsSep s) : parseSuffixes (fuel+1) rev ('@':: '{'::(w++s)) =
    match usizeFromStr w with
    | some n => expect '}' s >>= fun s => parseSuffixes fuel (.Reflog rev n) s
    | none => .error .parseInt := by
  have hround : parseSuffixes (fuel+1) rev ('@':: '{'::(w++s)) = (expectNum (w++s) >>= fun r =>
    expect '}' r.2 >>= fun s => parseSuffixes fuel (.Reflog rev r.1) s) := rfl
  rw [hround,expectNum,next_append hw hs]
  cases usizeFromStr w <;> rfl

theorem expect_self {c : Char} (hc : c.utf8Size = 1) (s : Text) : expect c (c::s) = .ok s := by
  rw [expect,splitAt1,if_pos hc]
  exact if_pos rfl

theorem round_reflog (hw : usizeFromStr w = some n) : parseSuffixes (fuel+1) rev ('@':: '{'::(w++ '}'::s)) =
    parseSuffixes fuel (.Reflog rev n) s := by
  rw [round_brace (plain_of_usize hw) (startsSep_cons.mpr (by decide)),hw]
  change (expect '}' ('}'::s) >>= fun s => parseSuffixes fuel (.Reflog rev n) s) = _
  rw [expect_self (by decide)]
  rfl

/-! ### The rounds -/

theorem exists_fuel {c : Char} (h : (c::s).length ≤ fuel) : ∃ k, fuel = k+1 ∧ s.length ≤ k :=
  ⟨fuel-1,by simp at h; omega,by simp at h; omega⟩

theorem loose_ok (h : LooseRest s xs) : ∀ {fuel : ℕ} {rev : ParsedRevspec}, s.length ≤ fuel →
    parseSuffixes fuel rev s = .ok (xs.foldl Suffix.wrap rev) := by
  induction h with
  | nil => intro fuel rev _; cases fuel <;> rfl
  | parent hw hs _ ih =>
    intro fuel rev hlen
    obtain ⟨fuel,rfl,hrest⟩ := exists_fuel hlen
    rw [round_parent hw hs,ih (by simp at hrest; omega)]
    rfl
  | ancestor hw hs _ ih =>
    intro fuel rev hlen
    obtain ⟨fuel,rfl,hrest⟩ := exists_fuel hlen
    rw [round_ancestor hw hs,ih (by simp at hrest; omega)]
    rfl
  | reflog hw _ ih =>
    intro fuel rev hlen
    obtain ⟨fuel,rfl,hrest⟩ := exists_fuel hlen
    rw [round_reflog hw,ih (by simp at hrest; omega)]
    rfl

theorem breaks_panics (h : Breaks s) : ∀ {fuel : ℕ} {rev : ParsedRevspec}, s.length ≤ fuel →
    ∃ m, parseSuffixes fuel rev s = .error (.panic m) := by
  induction h with
  | wide hc =>
    intro fuel rev hlen
    obtain ⟨fuel,rfl,-⟩ := exists_fuel hlen
    exact ⟨_,round_wide hc⟩
  | atEnd =>
    intro fuel rev hlen
    obtain ⟨fuel,rfl,-⟩ := exists_fuel hlen
    exact ⟨_,rfl⟩
  | atWide hc =>
    intro fuel rev hlen
    obtain ⟨fuel,rfl,-⟩ := exists_fuel hlen
    refine ⟨"byte index 1 is not a char boundary",?_⟩
    rw [round_at,expect,splitAt1,if_neg hc]
    rfl
  | @numberEnd w n hw =>
    intro fuel rev hlen
    obtain ⟨fuel,rfl,-⟩ := exists_fuel hlen
    refine ⟨"byte index 1 is out of bounds",?_⟩
    have hend : StartsSep [] := fun c hc => by cases hc
    rw [← List.append_nil w,round_brace (plain_of_usize hw) hend,hw]
    rfl
  | parent hw hs _ ih =>
    intro fuel rev hlen
    obtain ⟨fuel,rfl,hrest⟩ := exists_fuel hlen
    rw [round_parent hw hs]
    exact ih (by simp at hrest; omega)
  | ancestor hw hs _ ih =>
    intro fuel rev hlen
    obtain ⟨fuel,rfl,hrest⟩ := exists_fuel hlen
    rw [round_ancestor hw hs]
    exact ih (by simp at hrest; omega)
  | reflog hw _ ih =>
    intro fuel rev hlen
    obtain ⟨fuel,rfl,hrest⟩ := exists_fuel hlen
    rw [round_reflog hw]
    exact ih (by simp at hrest; omega)

/-- The error of the call is one that it returns. -/
def Refuses (r : Except Error ParsedRevspec) : Prop := ∃ e, r = .error e ∧ e.returned

theorem expect_cases (c : Char) (s : Text) : s = [] ∨ (∃ d t, s = d::t ∧ d.utf8Size ≠ 1) ∨ (∃ t, s = c::t) ∨
    ∃ e : Error, expect c s = .error e ∧ e.returned := by
  cases s with
  | nil => exact Or.inl rfl
  | cons d t =>
    by_cases hd : d.utf8Size = 1
    · refine Or.inr (Or.inr ?_)
      by_cases hdc : d = c
      · exact Or.inl ⟨t,hdc ▸ rfl⟩
      · refine Or.inr ⟨.message ("expected `"++String.ofList [c]++"`, found `"++String.ofList [d]++"`"),?_,trivial⟩
        rw [expect,splitAt1,if_pos hd]
        exact if_neg hdc
    · exact Or.inr (Or.inl ⟨d,t,rfl,hd⟩)

/-- What comes after `@`, where the shorter texts are known. -/
theorem at_total (ih : ∀ t : Text, t.length ≤ fuel →
      (∃ xs, LooseRest t xs) ∨ Breaks t ∨ ∀ rev, Refuses (parseSuffixes fuel rev t)) (hlen : s.length ≤ fuel) :
    (∃ xs, LooseRest ('@'::s) xs) ∨ Breaks ('@'::s) ∨ ∀ rev, Refuses (parseSuffixes (fuel+1) rev ('@'::s)) := by
  rcases expect_cases '{' s with rfl | ⟨d,t,rfl,hd⟩ | ⟨t,rfl⟩ | ⟨e,he,hret⟩
  · exact Or.inr (Or.inl Breaks.atEnd)
  · exact Or.inr (Or.inl (Breaks.atWide hd))
  · obtain ⟨htext,hplain,hsep⟩ := next_spec t
    rw [htext]
    cases hnum : usizeFromStr (next t).1 with
    | none =>
      refine Or.inr (Or.inr fun rev => ⟨.parseInt,?_,trivial⟩)
      rw [round_brace hplain hsep,hnum]
    | some n =>
      rcases expect_cases '}' (next t).2 with hend | ⟨d,u,hu,hd⟩ | ⟨u,hu⟩ | ⟨e,he,hret⟩
      · rw [hend,List.append_nil]
        exact Or.inr (Or.inl (Breaks.numberEnd hnum))
      · exact absurd (utf8Size_of_sep (hsep d (by rw [hu]; rfl))) hd
      · have hshort : u.length ≤ fuel := by
          rw [htext,hu] at hlen
          simp at hlen
          omega
        rw [hu]
        rcases ih u hshort with ⟨xs,hxs⟩ | hbreak | herr
        · exact Or.inl ⟨_,LooseRest.reflog hnum hxs⟩
        · exact Or.inr (Or.inl (Breaks.reflog hnum hbreak))
        · refine Or.inr (Or.inr fun rev => ?_)
          rw [round_reflog hnum]
          exact herr (.Reflog rev n)
      · refine Or.inr (Or.inr fun rev => ⟨e,?_,hret⟩)
        rw [round_brace hplain hsep,hnum]
        change (expect '}' (next t).2 >>= fun s => parseSuffixes fuel (.Reflog rev n) s) = _
        rw [he]
        rfl
  · refine Or.inr (Or.inr fun rev => ⟨e,?_,hret⟩)
    rw [round_at,he]
    rfl

/-- The rounds accept a text, slice a byte that is not there, or return an error. -/
theorem parseSuffixes_total (s : Text) (hlen : s.length ≤ fuel) :
    (∃ xs, LooseRest s xs) ∨ Breaks s ∨ ∀ rev, Refuses (parseSuffixes fuel rev s) := by
  induction fuel generalizing s with
  | zero =>
    obtain rfl : s = [] := List.length_eq_zero_iff.mp (Nat.le_zero.mp hlen)
    exact Or.inl ⟨[],LooseRest.nil⟩
  | succ fuel ih =>
    cases s with
    | nil => exact Or.inl ⟨[],LooseRest.nil⟩
    | cons c s =>
      have hrest : s.length ≤ fuel := Nat.le_of_succ_le_succ hlen
      obtain ⟨htext,hplain,hsep⟩ := next_spec s
      have hshort : (next s).2.length ≤ fuel := by
        rw [htext,List.length_append] at hrest
        omega
      by_cases hwide : c.utf8Size = 1
      · by_cases hparent : c = '^'
        · subst hparent
          rw [htext]
          rcases ih _ hshort with ⟨xs,hxs⟩ | hbreak | herr
          · exact Or.inl ⟨_,LooseRest.parent hplain hsep hxs⟩
          · exact Or.inr (Or.inl (Breaks.parent hplain hsep hbreak))
          · refine Or.inr (Or.inr fun rev => ?_)
            rw [round_parent hplain hsep]
            exact herr _
        · by_cases hancestor : c = '~'
          · subst hancestor
            rw [htext]
            rcases ih _ hshort with ⟨xs,hxs⟩ | hbreak | herr
            · exact Or.inl ⟨_,LooseRest.ancestor hplain hsep hxs⟩
            · exact Or.inr (Or.inl (Breaks.ancestor hplain hsep hbreak))
            · refine Or.inr (Or.inr fun rev => ?_)
              rw [round_ancestor hplain hsep]
              exact herr _
          · by_cases hat : c = '@'
            · subst hat
              exact at_total ih hrest
            · refine Or.inr (Or.inr fun rev =>
                ⟨.message ("unexpected token `"++String.ofList [c]++"`, while parsing revspec"),?_,trivial⟩)
              rw [parseSuffixes,splitAt1,if_pos hwide]
              change (if c = '^' then _ else if c = '~' then _ else if c = '@' then _ else _) = _
              rw [if_neg hparent,if_neg hancestor,if_neg hat]
      · exact Or.inr (Or.inl (Breaks.wide hwide))

/-! ### Suffixes of the language -/

theorem IsSuffix.starts {x : Suffix} (h : IsSuffix t x) (s : Text) : StartsSep (t++s) := by
  cases h <;> exact startsSep_cons.mpr (by decide)

theorem Suffixes.starts (h : Suffixes s xs) : StartsSep s := by
  cases h with
  | nil => exact fun c hc => by cases hc
  | cons hx _ => exact hx.starts _

theorem plain_nil : Plain [] := fun c hc => by cases hc

theorem Suffixes.loose (h : Suffixes s xs) : LooseRest s xs := by
  induction h with
  | nil => exact LooseRest.nil
  | cons hx hxs ih =>
    cases hx with
    | firstParent => exact LooseRest.parent plain_nil hxs.starts ih
    | parent hw =>
      have h := LooseRest.parent (plain_of_number hw) hxs.starts ih
      rwa [usize_of_number hw] at h
    | firstAncestor => exact LooseRest.ancestor plain_nil hxs.starts ih
    | ancestor hw =>
      have h := LooseRest.ancestor (plain_of_number hw) hxs.starts ih
      rwa [usize_of_number hw] at h
    | reflog hw =>
      have h := LooseRest.reflog (usize_of_number hw) ih
      simpa using h

/-! ### The base -/

/-- What the parser takes for the base, and the rest. -/
def baseOf (s : Text) : Text × Text := if s.head? = some '@' then (['@'],s.tail) else next s

theorem baseOf_append (s : Text) : (baseOf s).1++(baseOf s).2 = s := by
  unfold baseOf
  split
  · obtain ⟨t,rfl⟩ := List.head?_eq_some_iff.mp ‹_›
    rfl
  · exact (next_spec s).1.symm

theorem isBase_baseOf (h : (baseOf s).1 ≠ []) : IsBase (baseOf s).1 := by
  unfold baseOf at h ⊢
  split
  · exact Or.inl rfl
  · rw [if_neg ‹_›] at h
    exact Or.inr ⟨h,(next_spec s).2.1⟩

theorem Derives.baseOf {b : Text} (h : Derives s b xs) : b = (baseOf s).1 ∧ Suffixes (baseOf s).2 xs := by
  obtain ⟨hbase,t,rfl,hsuffixes⟩ := h
  rcases hbase with rfl | ⟨hne,hplain⟩
  · exact ⟨rfl,hsuffixes⟩
  · have hat : (b++t).head? ≠ some '@' := by
      obtain ⟨c,b,rfl⟩ := List.exists_cons_of_ne_nil hne
      intro hc
      cases hc
      exact hplain '@' List.mem_cons_self (by decide)
    rw [Rev.baseOf,if_neg hat,next_append hplain hsuffixes.starts]
    exact ⟨rfl,hsuffixes⟩

theorem derives_iff {b : Text} :
    Derives s b xs ↔ b = (baseOf s).1 ∧ (baseOf s).1 ≠ [] ∧ Suffixes (baseOf s).2 xs := by
  constructor
  · intro h
    obtain ⟨hb,hsuffixes⟩ := h.baseOf
    refine ⟨hb,?_,hsuffixes⟩
    rintro hnil
    rcases h.1 with rfl | ⟨hne,-⟩
    · cases hb.trans hnil
    · exact hne (hb.trans hnil)
  · rintro ⟨rfl,hne,hsuffixes⟩
    exact ⟨isBase_baseOf hne,_,(baseOf_append s).symm,hsuffixes⟩

/-! ### The whole parser -/

/-- `BitRef::from_str` of the base passes its assertion. -/
def Relative (debug : Bool) (expandPrefix : Packfile.PartialOid → Option Oid) (b : Text) : Prop :=
  debug = true → ∀ sym, reference expandPrefix b = .Symbolic sym → sym.path.head? ≠ some '/'

theorem baseRef_eq (b : Text) : baseRef debug expandPrefix b =
    match reference expandPrefix b with
    | .Direct oid => .ok (.Direct oid)
    | .Symbolic sym =>
      if debug = true ∧ sym.path.head? = some '/' then .error (.panic "assertion failed: path.is_relative()")
      else .ok (.Symbolic sym) := by
  rw [baseRef,reference]
  cases (Packfile.PartialOid.fromStr b).toOption.bind expandPrefix with
  | some oid => rfl
  | none =>
    change refFromStr debug b = match BitRef.fromStr b with
      | .Direct oid => _
      | .Symbolic sym => _
    rfl

theorem baseRef_ok {b : Text} (h : Relative debug expandPrefix b) :
    baseRef debug expandPrefix b = .ok (reference expandPrefix b) := by
  rw [baseRef_eq]
  cases hr : reference expandPrefix b with
  | Direct oid => rfl
  | Symbolic sym => exact if_neg fun hbad => h hbad.1 sym hr hbad.2

theorem baseRef_panics {b : Text} (h : ¬Relative debug expandPrefix b) :
    ∃ m, baseRef debug expandPrefix b = .error (.panic m) := by
  obtain ⟨hdebug,sym,hr,hpath⟩ : debug = true ∧ ∃ sym, reference expandPrefix b = .Symbolic sym ∧
      sym.path.head? = some '/' := by
    unfold Relative at h
    push Not at h
    exact h
  refine ⟨"assertion failed: path.is_relative()",?_⟩
  rw [baseRef_eq,hr]
  exact if_pos ⟨hdebug,hpath⟩

theorem parse_cons {c : Char} (hc : c.utf8Size = 1) : parse debug expandPrefix (c::s) =
    (baseRef debug expandPrefix (baseOf (c::s)).1 >>= fun r =>
      parseSuffixes (baseOf (c::s)).2.length (.Ref r) (baseOf (c::s)).2) := by
  have hbase : baseOf (c::s) = if c = '@' then (['@'],s) else next (c::s) := by simp [baseOf]
  rw [parse,parseBase,splitAt1,if_pos hc,hbase]
  change ((baseRef debug expandPrefix (if c = '@' then (['@'],s) else next (c::s)).1 >>= fun r =>
    pure (ParsedRevspec.Ref r,(if c = '@' then (['@'],s) else next (c::s)).2)) >>= _) = _
  cases baseRef debug expandPrefix (if c = '@' then (['@'],s) else next (c::s)).1 <;> rfl

/-- When the parser accepts its language and no other text, and does not panic. -/
structure Safe (debug : Bool) (expandPrefix : Packfile.PartialOid → Option Oid) (s : Text) : Prop where
  /-- There is a first byte, and it is a character. -/
  start : ∃ c t, s = c::t ∧ c.utf8Size = 1
  /-- With debug assertions the base is no absolute path. -/
  relative : Relative debug expandPrefix (baseOf s).1
  /-- No byte is sliced off that is not there. -/
  unbroken : ¬Breaks (baseOf s).2
  /-- There is a base where the rest is read to its end. -/
  base : ∀ xs, LooseRest (baseOf s).2 xs → (baseOf s).1 ≠ []
  /-- What stands for numbers where the rest is read to its end are numbers. -/
  numbers : ∀ xs, LooseRest (baseOf s).2 xs → ∃ ys, Suffixes (baseOf s).2 ys

theorem parsesExactly_iff (debug : Bool) (expandPrefix : Packfile.PartialOid → Option Oid) (s : Text) :
    ParsesExactly debug expandPrefix s ↔ Safe debug expandPrefix s := by
  constructor
  · intro h
    have hstart : ∃ c t, s = c::t ∧ c.utf8Size = 1 := by
      cases s with
      | nil => exact absurd (h.returns _ rfl) id
      | cons c t =>
        refine ⟨c,t,rfl,?_⟩
        by_contra hc
        have hpanic : parse debug expandPrefix (c::t) = .error (.panic "byte index 1 is not a char boundary") := by
          rw [parse,parseBase,splitAt1,if_neg hc]
          rfl
        exact h.returns _ hpanic
    obtain ⟨c,t,hs,hc⟩ := hstart
    have hparse := @parse_cons debug expandPrefix t c hc
    rw [← hs] at hparse
    have hrelative : Relative debug expandPrefix (baseOf s).1 := by
      by_contra hno
      obtain ⟨m,hm⟩ := baseRef_panics hno
      rw [hm] at hparse
      exact h.returns _ hparse
    rw [baseRef_ok hrelative] at hparse
    have hderives (xs : List Suffix) (hxs : LooseRest (baseOf s).2 xs) :
        (baseOf s).1 ≠ [] ∧ ∃ ys, Suffixes (baseOf s).2 ys := by
      obtain ⟨b,ys,hd,-⟩ := (h.accepts _).mp (hparse.trans (loose_ok hxs le_rfl))
      obtain ⟨-,hne,hsuffixes⟩ := derives_iff.mp hd
      exact ⟨hne,ys,hsuffixes⟩
    refine ⟨⟨c,t,hs,hc⟩,hrelative,fun hbreak => ?_,fun xs hxs => (hderives xs hxs).1,fun xs hxs => (hderives xs hxs).2⟩
    obtain ⟨m,hm⟩ := @breaks_panics _ hbreak _ (.Ref (reference expandPrefix (baseOf s).1)) le_rfl
    exact h.returns _ (hparse.trans hm)
  · intro h
    obtain ⟨c,t,hs,hc⟩ := h.start
    have hparse := @parse_cons debug expandPrefix t c hc
    rw [← hs,baseRef_ok h.relative] at hparse
    have hparse' : parse debug expandPrefix s =
        parseSuffixes (baseOf s).2.length (.Ref (reference expandPrefix (baseOf s).1)) (baseOf s).2 := hparse
    have hread {ys : List Suffix} (hys : Suffixes (baseOf s).2 ys) :
        parse debug expandPrefix s = .ok (meaning expandPrefix (baseOf s).1 ys) :=
      hparse'.trans (loose_ok hys.loose le_rfl)
    refine ⟨fun rev => ⟨fun hok => ?_,?_⟩,fun e he => ?_⟩
    · rcases parseSuffixes_total (baseOf s).2 le_rfl with ⟨xs,hxs⟩ | hbreak | herr
      · obtain ⟨ys,hys⟩ := h.numbers xs hxs
        refine ⟨(baseOf s).1,ys,derives_iff.mpr ⟨rfl,h.base xs hxs,hys⟩,?_⟩
        exact Except.ok.inj (hok.symm.trans (hread hys))
      · exact absurd hbreak h.unbroken
      · obtain ⟨e,he,-⟩ := herr (.Ref (reference expandPrefix (baseOf s).1))
        cases hok.symm.trans (hparse'.trans he)
    · rintro ⟨b,ys,hd,rfl⟩
      obtain ⟨rfl,-,hsuffixes⟩ := derives_iff.mp hd
      exact hread hsuffixes
    · rcases parseSuffixes_total (baseOf s).2 le_rfl with ⟨xs,hxs⟩ | hbreak | herr
      · cases he.symm.trans (hparse'.trans (loose_ok hxs le_rfl))
      · exact absurd hbreak h.unbroken
      · obtain ⟨e',he',hret⟩ := herr (.Ref (reference expandPrefix (baseOf s).1))
        cases he.symm.trans (hparse'.trans he')
        exact hret

/-- Words are no numbers of parents, and the empty text has no first byte. -/
theorem garbage_accepted : ¬ParsesExactly false (fun _ => none) ['H','^','f','o','o'] ∧
    ¬ParsesExactly false (fun _ => none) [] := by
  refine ⟨fun h => ?_,fun h => h.returns _ rfl⟩
  have hparse : parse false (fun _ => none) ['H','^','f','o','o'] = .ok (.Parent (.Ref (.Symbolic ⟨['H']⟩)) 1) := by
    decide +kernel
  obtain ⟨b,xs,hd,-⟩ := (h.accepts _).mp hparse
  have hrest : (baseOf ['H','^','f','o','o']).2 = ['^','f','o','o'] := by decide
  obtain ⟨-,-,hsuffixes⟩ := derives_iff.mp hd
  rw [hrest] at hsuffixes
  generalize htext : ['^','f','o','o'] = text at hsuffixes
  cases hsuffixes with
  | nil => cases htext
  | cons hx hxs =>
    cases hx with
    | firstParent =>
      cases htext
      exact absurd (hxs.starts _ rfl) (by decide)
    | parent hw =>
      obtain ⟨c,w,rfl⟩ := List.exists_cons_of_ne_nil hw.nonempty
      obtain rfl : 'f' = c := (List.cons.inj (List.cons.inj htext).2).1
      exact absurd (hw.digits 'f' List.mem_cons_self) (by decide)
    | firstAncestor => cases htext
    | ancestor hw => cases htext
    | reflog hw => cases htext

end Rev
end Libbit
