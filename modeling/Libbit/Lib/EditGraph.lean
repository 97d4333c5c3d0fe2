import Mathlib

/-! The edit graph of two lists: paths along rows and columns, with a diagonal wherever the lists match. The point
furthest along a diagonal that so many edits reach comes from the neighbours on the two next diagonals. -/
namespace Libbit
namespace Lib
namespace EditGraph

section Paths
variable {M : ℤ → ℤ → Prop}

/-- From the origin with so many edits. -/
inductive Path (M : ℤ → ℤ → Prop) : ℕ → ℤ → ℤ → Prop
  | start : Path M 0 0 0
  | right {d : ℕ} {x y : ℤ} (h : Path M d x y) : Path M (d+1) (x+1) y
  | down {d : ℕ} {x y : ℤ} (h : Path M d x y) : Path M (d+1) x (y+1)
  | diagonal {d : ℕ} {x y : ℤ} (h : Path M d x y) (hm : M x y) : Path M d (x+1) (y+1)

variable {d : ℕ} {k m n x x' y : ℤ}

theorem Path.nonneg (h : Path M d x y) : 0 ≤ x ∧ 0 ≤ y := by
  induction h with
  | start => exact ⟨le_rfl,le_rfl⟩
  | right _ ih => exact ⟨by omega,ih.2⟩
  | down _ ih => exact ⟨ih.1,by omega⟩
  | diagonal _ _ ih => exact ⟨by omega,by omega⟩

/-- How far a path may be off the main diagonal. -/
theorem Path.exists_diagonal (h : Path M d x y) : ∃ i ≤ d, x-y = -(d : ℤ)+2*(i : ℤ) := by
  induction h with
  | start => exact ⟨0,le_rfl,rfl⟩
  | right _ ih =>
    obtain ⟨i,hi,hk⟩ := ih
    exact ⟨i+1,by omega,by push_cast; omega⟩
  | down _ ih =>
    obtain ⟨i,hi,hk⟩ := ih
    exact ⟨i,by omega,by push_cast; omega⟩
  | diagonal _ _ ih =>
    obtain ⟨i,hi,hk⟩ := ih
    exact ⟨i,hi,by omega⟩

/-- The points of a diagonal that so many edits reach. -/
def reached (M : ℤ → ℤ → Prop) (d : ℕ) (k : ℤ) : Set ℤ := {x | Path M d x (x-k)}

/-- The points of a diagonal where a path comes to it: the origin, and what an edit reaches. -/
def entered (M : ℤ → ℤ → Prop) : ℕ → ℤ → Set ℤ
  | 0, k => {x | x = 0 ∧ k = 0}
  | d+1, k => {x | x-1 ∈ reached M d (k-1) ∨ x ∈ reached M d (k+1)}

/-- From `x` the matches go on up to `x'`. -/
structure Slides (M : ℤ → ℤ → Prop) (k x x' : ℤ) : Prop where
  le : x ≤ x'
  matched : ∀ z, x ≤ z → z < x' → M z (z-k)
  stops : ¬M x' (x'-k)

theorem reached_of_entered (h : x ∈ entered M d k) : x ∈ reached M d k := by
  cases d with
  | zero =>
    obtain ⟨rfl,rfl⟩ := h
    exact Path.start
  | succ d =>
    rcases h with h | h
    · have hright : Path M (d+1) (x-1+1) (x-1-(k-1)) := Path.right h
      rwa [show x-1+1 = x by ring,show x-1-(k-1) = x-k by ring] at hright
    · have hdown : Path M (d+1) x (x-(k+1)+1) := Path.down h
      rwa [show x-(k+1)+1 = x-k by ring] at hdown

theorem reached_diagonal (h : x ∈ reached M d k) (hm : M x (x-k)) : x+1 ∈ reached M d k := by
  have hnext : Path M d (x+1) (x-k+1) := Path.diagonal h hm
  rwa [show x-k+1 = x+1-k by ring] at hnext

theorem Slides.reached (hs : Slides M k x x') (h : x ∈ reached M d k) : x' ∈ reached M d k := by
  have hall : ∀ j : ℕ, x+j ≤ x' → x+j ∈ EditGraph.reached M d k := by
    intro j
    induction j with
    | zero => exact fun _ => by simpa using h
    | succ j ih =>
      intro hj
      push_cast at hj ⊢
      rw [← add_assoc]
      exact reached_diagonal (ih (by omega)) (hs.matched (x+j) (by omega) (by omega))
  obtain ⟨j,hj⟩ := Int.le.dest hs.le
  rw [← hj]
  exact hall j hj.le

/-- A path comes to the diagonal of its end before it, or there. -/
theorem Path.le_of_slides (h : Path M d x y) {start stop : ℤ} (hs : Slides M (x-y) start stop)
    (hstart : ∀ z ∈ entered M d (x-y), z ≤ start) : x ≤ stop := by
  induction h with
  | start => exact (hstart 0 ⟨rfl,by ring⟩).trans hs.le
  | @right d x y h _ =>
    refine (hstart (x+1) (.inl ?_)).trans hs.le
    rw [add_sub_cancel_right]
    change Path M d x (x-(x+1-y-1))
    rwa [show x-(x+1-y-1) = y by ring]
  | @down d x y h _ =>
    refine (hstart x (.inr ?_)).trans hs.le
    change Path M d x (x-(x-(y+1)+1))
    rwa [show x-(x-(y+1)+1) = y by ring]
  | @diagonal d x y _ hm ih =>
    rw [show x+1-(y+1) = x-y by ring] at hs hstart
    have hle := ih hs hstart
    -- the matches stop where no match is
    have hne : x ≠ stop := by
      rintro rfl
      apply hs.stops
      rwa [show x-(x-y) = y by ring]
    omega

/-- The furthest point of a diagonal lies where the matches from the furthest entry stop. -/
theorem isGreatest_reached (h : IsGreatest (entered M d k) x) (hs : Slides M k x x') : IsGreatest (reached M d k) x' := by
  refine ⟨hs.reached (reached_of_entered h.1),fun z hz => ?_⟩
  have hk : z-(z-k) = k := by ring
  have hpath : Path M d z (z-k) := hz
  apply hpath.le_of_slides
  · rw [hk]
    exact hs
  · rw [hk]
    exact fun w hw => h.2 hw

theorem isGreatest_entered_zero : IsGreatest (entered M 0 0) 0 := ⟨⟨rfl,rfl⟩,fun _ hz => hz.1.le⟩

theorem isGreatest_entered_succ {p q : ℤ} (hp : IsGreatest (reached M d (k-1)) p) (hq : IsGreatest (reached M d (k+1)) q) :
    IsGreatest (entered M (d+1) k) (max (p+1) q) := by
  constructor
  · rcases max_choice (p+1) q with h | h
    · rw [h]
      refine .inl ?_
      rw [add_sub_cancel_right]
      exact hp.1
    · rw [h]
      exact .inr hq.1
  · rintro z (hz | hz)
    · have hle := hp.2 hz
      exact le_max_of_le_left (by omega)
    · exact le_max_of_le_right (hq.2 hz)

theorem diagonal_bounds (h : x ∈ reached M d k) : -(d : ℤ) ≤ k ∧ k ≤ d := by
  obtain ⟨i,hi,hk⟩ := Path.exists_diagonal h
  omega

/-- The lowest diagonal is entered from above. -/
theorem isGreatest_entered_lowest (hk : k = -((d+1 : ℕ) : ℤ)) (hq : IsGreatest (reached M d (k+1)) x) :
    IsGreatest (entered M (d+1) k) x := by
  refine ⟨.inr hq.1,?_⟩
  rintro z (hz | hz)
  · have hbound := (diagonal_bounds hz).1
    push_cast at hk
    omega
  · exact hq.2 hz

/-- The highest diagonal is entered from below. -/
theorem isGreatest_entered_highest (hk : k = ((d+1 : ℕ) : ℤ)) (hp : IsGreatest (reached M d (k-1)) x) :
    IsGreatest (entered M (d+1) k) (x+1) := by
  constructor
  · refine .inl ?_
    rw [add_sub_cancel_right]
    exact hp.1
  · rintro z (hz | hz)
    · have hle := hp.2 hz
      omega
    · have hbound := (diagonal_bounds hz).2
      push_cast at hk
      omega

/-! ### The corner -/

theorem Path.swap (h : Path M d x y) : Path (fun x y => M y x) d y x := by
  induction h with
  | start => exact .start
  | right _ ih => exact ih.down
  | down _ ih => exact ih.right
  | diagonal _ hm ih => exact ih.diagonal hm

/-- An edit to the right is needed before the last column only. -/
theorem Path.clamp_right {c : ℤ} {e : ℕ} (h : Path M e (min x m) y) (hle : (e : ℤ)+(x-min x m)+c ≤ d) :
    ∃ e', Path M e' (min (x+1) m) y ∧ (e' : ℤ)+(x+1-min (x+1) m)+c ≤ (d+1 : ℕ) := by
  rcases lt_or_ge x m with hx | hx
  · rw [min_eq_left hx.le] at h hle
    rw [min_eq_left hx]
    exact ⟨e+1,h.right,by push_cast; omega⟩
  · have hnext : m ≤ x+1 := by omega
    rw [min_eq_right hx] at h hle
    rw [min_eq_right hnext]
    exact ⟨e,h,by push_cast; omega⟩

/-- Where all matches are before the corner, no edit outside of it is needed. -/
theorem Path.clamp (hM : ∀ x y, M x y → x < m ∧ y < n) (hm : 0 ≤ m) (hn : 0 ≤ n) (h : Path M d x y) :
    ∃ d', Path M d' (min x m) (min y n) ∧ (d' : ℤ)+(x-min x m)+(y-min y n) ≤ d := by
  induction h with
  | start =>
    rw [min_eq_left hm,min_eq_left hn]
    exact ⟨0,.start,by simp⟩
  | right _ ih =>
    obtain ⟨d',hd',hle⟩ := ih
    exact hd'.clamp_right hle
  | @down d x y _ ih =>
    obtain ⟨d',hd',hle⟩ := ih
    obtain ⟨e,he,hle'⟩ := hd'.swap.clamp_right ((add_right_comm _ _ _).trans_le hle)
    exact ⟨e,he.swap,(add_right_comm _ _ _).trans_le hle'⟩
  | @diagonal d x y _ hxy ih =>
    obtain ⟨d',hd',hle⟩ := ih
    obtain ⟨hx,hy⟩ := hM x y hxy
    rw [min_eq_left hx.le,min_eq_left hy.le] at hd' hle
    rw [min_eq_left hx,min_eq_left hy]
    exact ⟨d',hd'.diagonal hxy,by omega⟩

/-- The least number of edits that reach the corner reach nothing beyond it on its diagonal. -/
theorem isGreatest_corner (hM : ∀ x y, M x y → x < m ∧ y < n) (hm : 0 ≤ m) (hn : 0 ≤ n) (h : Path M d m n)
    (hleast : ∀ d' < d, ¬Path M d' m n) : IsGreatest (reached M d (m-n)) m := by
  constructor
  · change Path M d m (m-(m-n))
    rwa [show m-(m-n) = n by ring]
  · intro z hz
    by_contra hlt
    rw [not_le] at hlt
    obtain ⟨d',hd',hle⟩ := Path.clamp hM hm hn hz
    rw [min_eq_right hlt.le,min_eq_right (by omega)] at hd' hle
    exact hleast d' (by omega) hd'

end Paths

/-! ### Two lists -/

section Lists
variable {α : Type} {a b l : List α} {d : ℕ} {x y : ℤ}

/-- The items at two places are the same. -/
def Matches (a b : List α) (x y : ℤ) : Prop := 0 ≤ x ∧ 0 ≤ y ∧ ∃ c, a[x.toNat]? = some c ∧ b[y.toNat]? = some c

theorem Matches.lt (h : Matches a b x y) : x < a.length ∧ y < b.length := by
  obtain ⟨hx,hy,c,ha,hb⟩ := h
  obtain ⟨ha,-⟩ := List.getElem?_eq_some_iff.mp ha
  obtain ⟨hb,-⟩ := List.getElem?_eq_some_iff.mp hb
  omega

/-- The diagonals of a path are common items. -/
theorem Path.exists_common (h : Path (Matches a b) d x y) :
    ∃ l : List α, l.Sublist (a.take x.toNat) ∧ l.Sublist (b.take y.toNat) ∧ (d : ℤ)+2*l.length = x+y := by
  induction h with
  | start => exact ⟨[],List.nil_sublist _,List.nil_sublist _,rfl⟩
  | @right d x y h ih =>
    obtain ⟨l,ha,hb,hlen⟩ := ih
    refine ⟨l,ha.trans (List.take_sublist_take_left (by omega)),hb,by push_cast; omega⟩
  | @down d x y h ih =>
    obtain ⟨l,ha,hb,hlen⟩ := ih
    refine ⟨l,ha,hb.trans (List.take_sublist_take_left (by omega)),by push_cast; omega⟩
  | @diagonal d x y h hm ih =>
    obtain ⟨l,ha,hb,hlen⟩ := ih
    obtain ⟨hx,hy,c,hca,hcb⟩ := hm
    refine ⟨l++[c],?_,?_,?_⟩
    · rw [show (x+1).toNat = x.toNat+1 by omega,List.take_add_one,hca]
      exact ha.append (List.Sublist.refl _)
    · rw [show (y+1).toNat = y.toNat+1 by omega,List.take_add_one,hcb]
      exact hb.append (List.Sublist.refl _)
    · rw [List.length_append,List.length_singleton]
      push_cast
      omega

/-- Common items are diagonals that a path may take. -/
theorem Path.along_common {i j : ℕ} (h : Path (Matches a b) d i j) (hi : i ≤ a.length) (hj : j ≤ b.length)
    (ha : l.Sublist (a.drop i)) (hb : l.Sublist (b.drop j)) :
    ∃ e, Path (Matches a b) e a.length b.length ∧ e+2*l.length = d+(a.length-i)+(b.length-j) := by
  induction hk : (a.length-i)+(b.length-j) using Nat.strongRecOn generalizing d i j l with
  | _ k ih =>
    have hright (hlt : i < a.length) (ha : l.Sublist (a.drop (i+1))) :
        ∃ e, Path (Matches a b) e a.length b.length ∧ e+2*l.length = d+(a.length-i)+(b.length-j) := by
      obtain ⟨e,he,hlen⟩ := ih _ (by omega) (i := i+1) (by push_cast; exact h.right) hlt hj ha hb rfl
      exact ⟨e,he,by omega⟩
    have hdown (hlt : j < b.length) (hb : l.Sublist (b.drop (j+1))) :
        ∃ e, Path (Matches a b) e a.length b.length ∧ e+2*l.length = d+(a.length-i)+(b.length-j) := by
      obtain ⟨e,he,hlen⟩ := ih _ (by omega) (j := j+1) (by push_cast; exact h.down) hi hlt ha hb rfl
      exact ⟨e,he,by omega⟩
    cases l with
    | nil =>
      rcases Nat.lt_or_ge i a.length with hlt | hge
      · exact hright hlt (List.nil_sublist _)
      · rcases Nat.lt_or_ge j b.length with hlt | hge'
        · exact hdown hlt (List.nil_sublist _)
        · obtain ⟨rfl,rfl⟩ : i = a.length ∧ j = b.length := by omega
          exact ⟨d,h,by rw [List.length_nil]; omega⟩
    | cons c l =>
      have hia : i < a.length := by
        by_contra hge
        rw [List.drop_eq_nil_of_le (not_lt.mp hge)] at ha
        cases ha
      have hjb : j < b.length := by
        by_contra hge
        rw [List.drop_eq_nil_of_le (not_lt.mp hge)] at hb
        cases hb
      rw [List.drop_eq_getElem_cons hia,List.cons_sublist_cons'] at ha
      rw [List.drop_eq_getElem_cons hjb,List.cons_sublist_cons'] at hb
      rcases ha with ha | ⟨hca,ha⟩
      · exact hright hia ha
      · rcases hb with hb | ⟨hcb,hb⟩
        · exact hdown hjb hb
        · have hmatch : Matches a b i j := by
            refine ⟨by omega,by omega,c,?_,?_⟩
            · rw [Int.toNat_natCast,List.getElem?_eq_getElem hia,hca]
            · rw [Int.toNat_natCast,List.getElem?_eq_getElem hjb,hcb]
          obtain ⟨e,he,hlen⟩ := ih _ (by omega) (i := i+1) (j := j+1) (by push_cast; exact h.diagonal hmatch) hia hjb ha hb rfl
          exact ⟨e,he,by rw [List.length_cons]; omega⟩

/-- The length of a longest common subsequence. -/
def IsLcsLength (a b : List α) (k : ℕ) : Prop :=
  IsGreatest {k | ∃ l : List α, l.Sublist a ∧ l.Sublist b ∧ l.length = k} k

/-- The least number of edits leaves a longest common subsequence. -/
theorem isLcsLength_of_least (h : Path (Matches a b) d a.length b.length)
    (hleast : ∀ e < d, ¬Path (Matches a b) e a.length b.length) :
    ∃ k, IsLcsLength a b k ∧ d+2*k = a.length+b.length := by
  obtain ⟨l,ha,hb,hlen⟩ := h.exists_common
  rw [Int.toNat_natCast,List.take_length] at ha hb
  refine ⟨l.length,⟨⟨l,ha,hb,rfl⟩,?_⟩,by omega⟩
  rintro _ ⟨l',ha',hb',rfl⟩
  obtain ⟨e,he,hle⟩ := Path.start.along_common (Nat.zero_le _) (Nat.zero_le _) ha' hb'
  by_contra hlt
  exact hleast e (by omega) he

end Lists

end EditGraph
end Lib
end Libbit
