import Libbit.Lib.Text

/-! Pathspecs (`pathspec.rs`): the part before the first wildcard is counted in characters and cut off in bytes. -/
namespace Libbit

open Lib

/-- The interner keeps the text of a path as it is. -/
structure Pathspec where
  /-- `prefix` -/
  pathPrefix : List Char
  deriving DecidableEq

namespace Pathspec

inductive Error
  | panic (message : String)
  deriving DecidableEq

def MATCH_ALL : Pathspec := ⟨[]⟩

def isWildcard (c : Char) : Bool := c = '*' ∨ c = '?' ∨ c = '['

/-- The position among the characters of the first wildcard without a backslash before it. -/
def findPrefixEnd (s : List Char) : Option ℕ :=
  (List.range s.length).find? fun i => s[i]?.any isWildcard ∧ (i = 0 ∨ s[i-1]? ≠ some '\\')

/-- `&s[..i]` -/
def sliceTo (s : List Char) (i : ℕ) : Except Error (List Char) :=
  if utf8Len s < i then .error (.panic ("byte index "++toString i++" is out of bounds"))
  else match takeBytes i s with
    | some t => .ok t
    | none => .error (.panic ("byte index "++toString i++" is not a char boundary"))

def fromStr (s : List Char) : Except Error Pathspec :=
  if s = ['.'] then .ok MATCH_ALL
  else match findPrefixEnd s with
    | some i => (sliceTo s i).map Pathspec.mk
    | none => .ok ⟨s⟩

example : findPrefixEnd ['\\','*'] = none ∧ findPrefixEnd ['*'] = some 0 ∧ findPrefixEnd ['a','b','c','?'] = some 3 := by
  decide

/-! ### The part before the first wildcard -/

/-- A wildcard that no backslash precedes. -/
def Unescaped (s : List Char) (i : ℕ) : Prop :=
  (∃ c, s[i]? = some c ∧ isWildcard c) ∧ ∀ j, i = j+1 → s[j]? ≠ some '\\'

def FirstWildcard (s : List Char) (i : ℕ) : Prop := Unescaped s i ∧ ∀ j < i, ¬Unescaped s j

/-- What stands before the first wildcard that is not escaped, which is everything if there is none. -/
def LiteralPart (s p : List Char) : Prop :=
  (∃ i, FirstWildcard s i ∧ p = s.take i) ∨ (∀ i, ¬Unescaped s i) ∧ p = s

variable {s : List Char} {i : ℕ}

theorem unescaped_iff : Unescaped s i ↔ s[i]?.any isWildcard ∧ (i = 0 ∨ s[i-1]? ≠ some '\\') := by
  rw [Unescaped,Option.any_eq_true]
  refine and_congr Iff.rfl ?_
  cases i with
  | zero => simp
  | succ j => simp

theorem Unescaped.lt (h : Unescaped s i) : i < s.length := by
  obtain ⟨⟨c,hc,-⟩,-⟩ := h
  exact (List.getElem?_eq_some_iff.mp hc).1

theorem findPrefixEnd_eq_some : findPrefixEnd s = some i ↔ FirstWildcard s i := by
  rw [findPrefixEnd,List.find?_range_eq_some,FirstWildcard]
  simp only [decide_eq_true_eq,← unescaped_iff,List.mem_range,Bool.not_eq_true',decide_eq_false_iff_not]
  exact ⟨fun h => ⟨h.1,h.2.2⟩,fun h => ⟨h.1,h.1.lt,h.2⟩⟩

theorem findPrefixEnd_eq_none : findPrefixEnd s = none ↔ ∀ i, ¬Unescaped s i := by
  rw [findPrefixEnd,List.find?_eq_none]
  simp only [decide_eq_true_eq,← unescaped_iff,List.mem_range]
  exact ⟨fun h i hi => h i hi.lt hi,fun h i _ => h i⟩

theorem FirstWildcard.unique {j : ℕ} (hi : FirstWildcard s i) (hj : FirstWildcard s j) : i = j :=
  Option.some.inj ((findPrefixEnd_eq_some.mpr hi).symm.trans (findPrefixEnd_eq_some.mpr hj))

theorem FirstWildcard.literalPart_iff (h : FirstWildcard s i) {p : List Char} : LiteralPart s p ↔ p = s.take i := by
  constructor
  · rintro (⟨j,hj,rfl⟩ | ⟨hnone,-⟩)
    · rw [hj.unique h]
    · exact absurd h.1 (hnone i)
  · rintro rfl
    exact .inl ⟨i,h,rfl⟩

/-- The first `i` bytes are the first `i` characters if these are ASCII. Else the cut is too early. -/
theorem sliceTo_eq_take_iff (hi : i ≤ s.length) : sliceTo s i = .ok (s.take i) ↔ ∀ c ∈ s.take i, c.toNat < 128 := by
  have hbytes : i ≤ utf8Len s := hi.trans (length_le_utf8Len s)
  have hlen : (s.take i).length = i := List.length_take_of_le hi
  rw [← utf8Len_eq_length_iff,hlen,sliceTo,if_neg hbytes.not_gt]
  constructor
  · intro h
    cases htake : takeBytes i s with
    | none =>
      rw [htake] at h
      cases h
    | some t =>
      rw [htake] at h
      cases h
      exact utf8Len_of_takeBytes htake hbytes
  · intro h
    have htake := takeBytes_append (s.take i) (s.drop i)
    rw [h,List.take_append_drop] at htake
    rw [htake]

/-- The prefix ends before the first wildcard that is not escaped, if only ASCII stands before that. -/
theorem fromStr_extracts_iff (s : List Char) (hs : s ≠ ['.']) :
    (∃ p, LiteralPart s p ∧ fromStr s = .ok ⟨p⟩) ↔ ∀ i, FirstWildcard s i → ∀ c ∈ s.take i, c.toNat < 128 := by
  cases hend : findPrefixEnd s with
  | none =>
    have hnone := findPrefixEnd_eq_none.mp hend
    refine iff_of_true ⟨s,.inr ⟨hnone,rfl⟩,?_⟩ fun i hi => absurd hi.1 (hnone i)
    rw [fromStr,if_neg hs,hend]
  | some i =>
    have hfirst := findPrefixEnd_eq_some.mp hend
    have hrun : fromStr s = (sliceTo s i).map Pathspec.mk := by rw [fromStr,if_neg hs,hend]
    have hslice : fromStr s = .ok ⟨s.take i⟩ ↔ sliceTo s i = .ok (s.take i) := by
      rw [hrun]
      cases sliceTo s i with
      | error e => simp [Except.map]
      | ok t => simp [Except.map]
    calc (∃ p, LiteralPart s p ∧ fromStr s = .ok ⟨p⟩)
      _ ↔ fromStr s = .ok ⟨s.take i⟩ := by simp only [hfirst.literalPart_iff,exists_eq_left]
      _ ↔ ∀ c ∈ s.take i, c.toNat < 128 := hslice.trans (sliceTo_eq_take_iff hfirst.1.lt.le)
      _ ↔ ∀ j, FirstWildcard s j → ∀ c ∈ s.take j, c.toNat < 128 :=
        ⟨fun h j hj => hfirst.unique hj ▸ h,fun h => h i hfirst⟩

theorem fromStr_extracts_ascii : ∃ p, LiteralPart ['\\','*','b','?','c'] p ∧ fromStr ['\\','*','b','?','c'] = .ok ⟨p⟩ := by
  have hascii : ∀ c ∈ ['\\','*','b','?','c'], c.toNat < 128 := by simp
  exact (fromStr_extracts_iff ['\\','*','b','?','c'] (by decide)).mpr fun _ _ c hc => hascii c (List.mem_of_mem_take hc)

/-- One byte of two is cut off. -/
theorem multibyte_prefix_panics : ¬∀ s, s ≠ ['.'] → ∃ p, LiteralPart s p ∧ fromStr s = .ok ⟨p⟩ := by
  intro h
  obtain ⟨p,-,hrun⟩ := h ['é','*'] (by decide)
  have hpanics : fromStr ['é','*'] = .error (.panic "byte index 1 is not a char boundary") := by decide
  rw [hpanics] at hrun
  cases hrun

end Pathspec
end Libbit
