import Mathlib

/-! Binary search in a sorted list, and the stretch of a sorted list in which a monotone key has one
value. Positions are counts of smaller elements. -/
namespace Libbit
namespace Lib

section BinarySearch
variable {α : Type} [LinearOrder α] {xs : List α} {key x : α} {i : ℕ}

/-- The search in the range from `left` up to `right`: where the key is, or where it belongs. -/
def binarySearchFrom (xs : List α) (key : α) (left right : ℕ) : Except ℕ ℕ :=
  if left < right then
    let mid := left+(right-left)/2
    match xs[mid]? with
    | none => .error left
    | some x =>
      if x < key then binarySearchFrom xs key (mid+1) right
      else if key < x then binarySearchFrom xs key left mid
      else .ok mid
  else .error left
termination_by right-left
decreasing_by all_goals omega

def binarySearch (xs : List α) (key : α) : Except ℕ ℕ := binarySearchFrom xs key 0 xs.length

/-- How many are smaller. -/
def rank (xs : List α) (key : α) : ℕ := xs.countP (· < key)

theorem rank_eq_zero (h : ∀ y ∈ xs, key ≤ y) : rank xs key = 0 := by
  rw [rank,List.countP_eq_zero]
  intro y hy
  simpa using h y hy

/-- In a sorted list the smaller elements are the ones before the place of the key. -/
theorem lt_iff_lt_rank (hs : xs.Pairwise (· < ·)) (hx : xs[i]? = some x) : x < key ↔ i < rank xs key := by
  induction xs generalizing i with
  | nil => simp at hx
  | cons y xs ih =>
    obtain ⟨hy,hs⟩ := List.pairwise_cons.mp hs
    by_cases hlt : y < key
    · rw [rank,List.countP_cons_of_pos (by simpa using hlt)]
      cases i with
      | zero =>
        obtain rfl : y = x := by simpa using hx
        simpa using hlt
      | succ i =>
        rw [ih hs (by simpa using hx),Nat.add_lt_add_iff_right]
        rfl
    · have hle : ∀ z ∈ y::xs, key ≤ z := by
        intro z hz
        rcases List.mem_cons.mp hz with rfl | hz
        · exact not_lt.mp hlt
        · exact (not_lt.mp hlt).trans (hy z hz).le
      rw [rank_eq_zero hle]
      simpa using hle x (List.mem_of_getElem? hx)

theorem rank_of_getElem? (hs : xs.Pairwise (· < ·)) (hx : xs[i]? = some x) : rank xs x = i := by
  apply le_antisymm
  · exact not_lt.mp fun h => lt_irrefl x ((lt_iff_lt_rank hs hx).mpr h)
  · by_contra h
    have hlt : rank xs x < i := not_le.mp h
    obtain ⟨y,hy⟩ : ∃ y, xs[rank xs x]? = some y :=
      ⟨_,List.getElem?_eq_getElem (hlt.trans (List.getElem?_eq_some_iff.mp hx).1)⟩
    have hyx : y < x := by
      obtain ⟨hj,rfl⟩ := List.getElem?_eq_some_iff.mp hy
      obtain ⟨hi,rfl⟩ := List.getElem?_eq_some_iff.mp hx
      exact List.pairwise_iff_getElem.mp hs _ _ hj hi hlt
    exact lt_irrefl _ ((lt_iff_lt_rank hs hy).mp hyx)

theorem mem_iff_getElem?_rank (hs : xs.Pairwise (· < ·)) : key ∈ xs ↔ xs[rank xs key]? = some key := by
  constructor
  · intro h
    obtain ⟨i,hi⟩ := List.getElem?_of_mem h
    rwa [rank_of_getElem? hs hi]
  · exact List.mem_of_getElem?

/-- The place of the key is never left out of the range. -/
theorem binarySearchFrom_eq (hs : xs.Pairwise (· < ·)) {left right : ℕ} (hleft : left ≤ rank xs key)
    (hright : rank xs key ≤ right) (hlen : right ≤ xs.length) (hmem : key ∈ xs → rank xs key < right) :
    binarySearchFrom xs key left right = if key ∈ xs then .ok (rank xs key) else .error (rank xs key) := by
  fun_induction binarySearchFrom xs key left right with
  | case1 left right hlt mid hnone =>
    have hmid : mid < xs.length := by omega
    rw [List.getElem?_eq_getElem hmid] at hnone
    cases hnone
  | case2 left right hlt mid x hx hless ih =>
    exact ih ((lt_iff_lt_rank hs hx).mp hless) hright hlen hmem
  | case3 left right hlt mid x hx hless hmore ih =>
    have hle : rank xs key ≤ mid := not_lt.mp fun h => hless ((lt_iff_lt_rank hs hx).mpr h)
    refine ih hleft hle (by omega) fun hk => lt_of_le_of_ne hle fun heq => ?_
    -- the element in the middle would be the key
    rw [mem_iff_getElem?_rank hs,heq,hx] at hk
    exact hmore.ne' (Option.some.inj hk)
  | case4 left right hlt mid x hx hless hmore =>
    obtain rfl : x = key := le_antisymm (not_lt.mp hmore) (not_lt.mp hless)
    rw [if_pos (List.mem_of_getElem? hx),rank_of_getElem? hs hx]
  | case5 left right hlt =>
    have hno : key ∉ xs := fun h => absurd (hmem h) (by omega)
    rw [if_neg hno,show left = rank xs key by omega]

theorem binarySearch_eq (hs : xs.Pairwise (· < ·)) (key : α) :
    binarySearch xs key = if key ∈ xs then .ok (rank xs key) else .error (rank xs key) := by
  refine binarySearchFrom_eq hs (Nat.zero_le _) List.countP_le_length le_rfl fun h => ?_
  exact (List.getElem?_eq_some_iff.mp ((mem_iff_getElem?_rank hs).mp h)).1

end BinarySearch

section Stretch
variable {α β : Type} [LinearOrder β] {f : α → β} {l : List α}

/-- The elements with the value `b` are next to each other. -/
theorem stretch_eq_filter (hs : l.Pairwise fun x y => f x ≤ f y) (b : β) :
    (l.drop (l.countP (f · < b))).take (l.countP (f · ≤ b)-l.countP (f · < b)) = l.filter (f · = b) := by
  induction l with
  | nil => rfl
  | cons x l ih =>
    obtain ⟨hx,hs⟩ := List.pairwise_cons.mp hs
    rcases lt_trichotomy (f x) b with hlt | heq | hgt
    · rw [List.countP_cons_of_pos (by simpa using hlt.le),List.countP_cons_of_pos (by simpa using hlt),
        List.filter_cons_of_neg (by simpa using hlt.ne),Nat.add_sub_add_right,List.drop_succ_cons,ih hs]
    · have hnone : l.countP (f · < b) = 0 := by
        rw [List.countP_eq_zero]
        intro y hy
        simpa [← heq] using hx y hy
      rw [List.countP_cons_of_pos (by simp [heq]),List.countP_cons_of_neg (by simp [heq]),
        List.filter_cons_of_pos (by simpa using heq),← ih hs,hnone]
      rfl
    · have habove : ∀ y ∈ x::l, b < f y := by
        intro y hy
        rcases List.mem_cons.mp hy with rfl | hy
        · exact hgt
        · exact hgt.trans_le (hx y hy)
      have hle : (x::l).countP (f · ≤ b) = 0 := by
        rw [List.countP_eq_zero]
        intro y hy
        simpa using habove y hy
      have hno : (x::l).filter (f · = b) = [] := by
        rw [List.filter_eq_nil_iff]
        intro y hy
        simpa using (habove y hy).ne'
      rw [hle,hno,Nat.zero_sub,List.take_zero]

/-- What is smaller has a smaller value or the same value. -/
theorem countP_lt_eq [LinearOrder α] (hf : Monotone f) (l : List α) (a : α) :
    l.countP (· < a) = l.countP (f · < f a)+(l.filter (f · = f a)).countP (· < a) := by
  induction l with
  | nil => rfl
  | cons x l ih =>
    rcases lt_trichotomy (f x) (f a) with hlt | heq | hgt
    · have hxa : x < a := hf.reflect_lt hlt
      rw [List.countP_cons_of_pos (by simpa using hxa),List.countP_cons_of_pos (by simpa using hlt),
        List.filter_cons_of_neg (by simpa using hlt.ne),ih]
      omega
    · rw [List.countP_cons_of_neg (p := fun y => f y < f a) (by simp [heq]),
        List.filter_cons_of_pos (by simpa using heq),List.countP_cons,List.countP_cons,ih]
      omega
    · have hxa : a < x := hf.reflect_lt hgt
      rw [List.countP_cons_of_neg (by simpa using hxa.le),List.countP_cons_of_neg (by simpa using hgt.le),
        List.filter_cons_of_neg (by simpa using hgt.ne'),ih]

theorem mem_drop_countP (hs : l.Pairwise fun x y => f x ≤ f y) (b : β) {x : α} :
    x ∈ l.drop (l.countP (f · < b)) ↔ x ∈ l ∧ b ≤ f x := by
  induction l with
  | nil => simp
  | cons y l ih =>
    obtain ⟨hy,hs⟩ := List.pairwise_cons.mp hs
    by_cases hlt : f y < b
    · rw [List.countP_cons_of_pos (by simpa using hlt),List.drop_succ_cons,ih hs,List.mem_cons]
      refine and_congr_left fun hx => (or_iff_right ?_).symm
      rintro rfl
      exact absurd hx (not_le.mpr hlt)
    · have hall : ∀ z ∈ y::l, b ≤ f z := by
        intro z hz
        rcases List.mem_cons.mp hz with rfl | hz
        · exact not_lt.mp hlt
        · exact (not_lt.mp hlt).trans (hy z hz)
      have hzero : (y::l).countP (f · < b) = 0 := by
        rw [List.countP_eq_zero]
        intro z hz
        simpa using hall z hz
      rw [hzero,List.drop_zero]
      exact (and_iff_left_of_imp (hall x)).symm

end Stretch

section Scan
variable {α : Type} [LinearOrder α] {l : List α} {P : α → Bool} {x : α}

/-- A scan gets as far as `x` exactly if everything up to `x` passes. -/
theorem mem_takeWhile_iff (hs : l.Pairwise (· < ·)) : x ∈ l.takeWhile P ↔ x ∈ l ∧ ∀ y ∈ l, y ≤ x → P y = true := by
  induction l with
  | nil => simp
  | cons z l ih =>
    obtain ⟨hz,hs⟩ := List.pairwise_cons.mp hs
    by_cases hP : P z = true
    · rw [List.takeWhile_cons_of_pos hP,List.mem_cons,ih hs,List.mem_cons]
      constructor
      · rintro (rfl | ⟨hx,hall⟩)
        · refine ⟨Or.inl rfl,fun y hy hle => ?_⟩
          rcases List.mem_cons.mp hy with rfl | hy
          · exact hP
          · exact absurd hle (not_le.mpr (hz y hy))
        · refine ⟨Or.inr hx,fun y hy hle => ?_⟩
          rcases List.mem_cons.mp hy with rfl | hy
          · exact hP
          · exact hall y hy hle
      · rintro ⟨hx,hall⟩
        exact hx.imp_right fun hx => ⟨hx,fun y hy => hall y (List.mem_cons_of_mem z hy)⟩
    · rw [List.takeWhile_cons_of_neg hP]
      refine iff_of_false (by simp) fun ⟨hx,hall⟩ => hP (hall z List.mem_cons_self ?_)
      rcases List.mem_cons.mp hx with rfl | hx
      · exact le_rfl
      · exact (hz x hx).le

/-- What lies between two texts with one beginning has that beginning. -/
theorem isPrefix_of_between {p a b c : List α} (ha : p <+: a) (hc : p <+: c) (hab : a ≤ b) (hbc : b ≤ c) : p <+: b := by
  induction p generalizing a b c with
  | nil => exact List.nil_prefix
  | cons x p ih =>
    obtain ⟨a,rfl⟩ := ha
    obtain ⟨c,rfl⟩ := hc
    cases b with
    | nil => exact absurd hab (not_le.mpr (List.nil_lt_cons _ _))
    | cons y b =>
      rw [List.cons_append,← not_lt,List.cons_lt_cons_iff,not_or] at hab hbc
      obtain rfl : x = y := le_antisymm (not_lt.mp hab.1) (not_lt.mp hbc.1)
      exact (List.prefix_cons_inj x).mpr (ih (List.prefix_append p a) (List.prefix_append p c)
        (not_lt.mp fun h => hab.2 ⟨rfl,h⟩) (not_lt.mp fun h => hbc.2 ⟨rfl,h⟩))

end Scan

theorem two_le_length_iff {α : Type} [DecidableEq α] {l : List α} :
    2 ≤ l.length ↔ (∃ a ∈ l, ∃ b ∈ l, a ≠ b) ∨ ∃ a, 2 ≤ l.count a := by
  constructor
  · intro h
    obtain ⟨a,b,rest,rfl⟩ : ∃ a b rest, l = a::b::rest := by
      match l, h with
      | a::b::rest, _ => exact ⟨a,b,rest,rfl⟩
    by_cases hab : a = b
    · subst hab
      exact Or.inr ⟨a,by simp⟩
    · exact Or.inl ⟨a,by simp,b,by simp,hab⟩
  · rintro (⟨a,ha,b,hb,hab⟩ | ⟨a,ha⟩)
    · match l, ha, hb with
      | [c], ha, hb => exact absurd ((List.mem_singleton.mp ha).trans (List.mem_singleton.mp hb).symm) hab
      | _::_::_, _, _ => simp
    · exact ha.trans List.count_le_length

end Lib
end Libbit
