import Libbit.Lib.Codec
import Libbit.Lib.EditGraph

/-! The distance of two lists of lines (`xdiff/mod.rs`). -/
namespace Libbit
namespace Xdiff

open Lib
open EditGraph (Path Matches IsLcsLength Slides entered reached)

inductive Error
  | panic (message : String)
  deriving DecidableEq

section Model
variable {α : Type}

/-- `l[i as usize]`. A negative index is larger than any slice. -/
def index (l : List α) (i : ℤ) : Except Error α :=
  match if 0 ≤ i then l[i.toNat]? else none with
  | some x => .ok x
  | none => .error (.panic ("index out of bounds: the len is "++toString l.length++" but the index is "++toString (i%2^64)))

structure OffsetVec where
  base : List ℤ
  offset : ℤ

namespace OffsetVec

def filledWithCapacity (offset : ℤ) (capacity : ℕ) : OffsetVec := ⟨List.replicate capacity 0,offset⟩

def get (v : OffsetVec) (i : ℤ) : Except Error ℤ := index v.base (i+v.offset)

/-- `v[i] = x` -/
def set (v : OffsetVec) (i x : ℤ) : Except Error OffsetVec := do
  let _ ← v.get i
  pure { v with base := v.base.set (i+v.offset).toNat x }

end OffsetVec

namespace MyersDiff
variable [DecidableEq α] (a b : List α)

def new : OffsetVec :=
  let size := a.length+b.length
  .filledWithCapacity size (size*2)

/-- The `x` where diagonal `k` is entered. -/
def enter (d : ℕ) (k : ℤ) (v : OffsetVec) : Except Error ℤ := do
  let fromAbove ←
    if k = -d then pure true
    else if k = d then pure false
    else do
      let below ← v.get (k-1)
      let above ← v.get (k+1)
      pure (decide (below < above))
  if fromAbove then v.get (k+1) else (·+1) <$> v.get (k-1)

/-- The `while` loop. -/
def follow (x y : ℤ) : Except Error (ℤ × ℤ) :=
  if x < a.length ∧ y < b.length then do
    let s ← index a x
    let t ← index b y
    if s = t then follow (x+1) (y+1) else pure (x,y)
  else pure (x,y)
termination_by (a.length-x).toNat
decreasing_by omega

/-- `(-d..=d).step_by(2)` -/
def diagonals (d : ℕ) : List ℤ := (List.range (d+1)).map fun i : ℕ => -(d : ℤ)+2*(i : ℤ)

/-- The inner loop: the distance if it is found. -/
def round (d : ℕ) : List ℤ → OffsetVec → Except Error (ℕ ⊕ OffsetVec)
  | [], v => .ok (.inr v)
  | k::ks, v => do
    let x ← enter d k v
    let (x,y) ← follow a b x (x-k)
    let v ← v.set k x
    if x = a.length ∧ y = b.length then pure (.inl d) else round d ks v

/-- The outer loop. -/
def rounds : List ℕ → OffsetVec → Except Error ℕ
  | [], _ => .error (.panic "internal error: entered unreachable code")
  | d::ds, v => do
    match ← round a b d (diagonals d) v with
    | .inl d => pure d
    | .inr v => rounds ds v

def diff (v : OffsetVec) : Except Error ℕ := rounds a b (List.range (a.length+b.length)) v

end MyersDiff

def xdiffDist [DecidableEq α] (a b : List α) : Except Error ℕ := MyersDiff.diff a b (MyersDiff.new a b)

end Model

/-! ### The vector -/

variable {α : Type} {a b : List α} {v : OffsetVec} {d size : ℕ} {i k x y : ℤ}

/-- The indices that a vector has. -/
structure Sized (size : ℕ) (v : OffsetVec) : Prop where
  length : v.base.length = size*2
  offset : v.offset = size

theorem index_eq_ok {l : List α} {c : α} : index l i = .ok c ↔ 0 ≤ i ∧ l[i.toNat]? = some c := by
  rw [index]
  by_cases hi : 0 ≤ i
  · rw [if_pos hi]
    cases hl : l[i.toNat]? with
    | none => simp
    | some c' => simp [hi]
  · simp [hi]

theorem Sized.exists_get (h : Sized size v) (hlow : -(size : ℤ) ≤ i) (hhigh : i < size) : ∃ x, v.get i = .ok x := by
  have hlt : (i+v.offset).toNat < v.base.length := by
    rw [h.offset,h.length]
    omega
  refine ⟨v.base[(i+v.offset).toNat],index_eq_ok.mpr ⟨?_,List.getElem?_eq_getElem hlt⟩⟩
  rw [h.offset]
  omega

theorem Sized.exists_set (h : Sized size v) (hlow : -(size : ℤ) ≤ i) (hhigh : i < size) (x : ℤ) :
    ∃ w, v.set i x = .ok w ∧ Sized size w ∧ w.get i = .ok x ∧ ∀ j ≠ i, ∀ z, v.get j = .ok z → w.get j = .ok z := by
  obtain ⟨old,hold⟩ := h.exists_get hlow hhigh
  obtain ⟨hi,hget⟩ := index_eq_ok.mp hold
  obtain ⟨hlt,-⟩ := List.getElem?_eq_some_iff.mp hget
  refine ⟨{ v with base := v.base.set (i+v.offset).toNat x },?_,⟨?_,h.offset⟩,?_,?_⟩
  · rw [OffsetVec.set,hold]
    rfl
  · rw [List.length_set]
    exact h.length
  · exact index_eq_ok.mpr ⟨hi,List.getElem?_set_self hlt⟩
  · intro j hj z hz
    obtain ⟨hj',hz⟩ := index_eq_ok.mp hz
    refine index_eq_ok.mpr ⟨hj',?_⟩
    have hne : (i+v.offset).toNat ≠ (j+v.offset).toNat := by omega
    rw [List.getElem?_set_ne hne]
    exact hz

theorem sized_new (a b : List α) : Sized (a.length+b.length) (MyersDiff.new a b) :=
  ⟨List.length_replicate,Nat.cast_add _ _⟩

/-! ### One diagonal -/

theorem mem_diagonals : k ∈ MyersDiff.diagonals d ↔ ∃ i ≤ d, k = -(d : ℤ)+2*(i : ℤ) := by
  simp only [MyersDiff.diagonals,List.mem_map,List.mem_range,Nat.lt_succ_iff]
  exact exists_congr fun i => and_congr_right fun _ => eq_comm

/-- The vector knows how far the diagonal is reached. -/
def Reaches (a b : List α) (d : ℕ) (v : OffsetVec) (k : ℤ) : Prop :=
  ∃ x, v.get k = .ok x ∧ IsGreatest (reached (Matches a b) d k) x

/-- What is known before a round. -/
def Known (a b : List α) : ℕ → OffsetVec → Prop
  | 0, v => v.get 1 = .ok 0
  | d+1, v => ∀ k ∈ MyersDiff.diagonals d, Reaches a b d v k

theorem Known.enter (h : Known a b d v) (hk : k ∈ MyersDiff.diagonals d) :
    ∃ x, MyersDiff.enter d k v = .ok x ∧ IsGreatest (entered (Matches a b) d k) x := by
  obtain ⟨i,hi,rfl⟩ := mem_diagonals.mp hk
  cases d with
  | zero =>
    obtain rfl : i = 0 := by omega
    refine ⟨0,?_,EditGraph.isGreatest_entered_zero⟩
    have hget : v.get 1 = .ok 0 := h
    simp [MyersDiff.enter,hget]
  | succ d =>
    have hlower (hpos : 0 < i) : Reaches a b d v (-((d+1 : ℕ) : ℤ)+2*(i : ℤ)-1) :=
      h _ (mem_diagonals.mpr ⟨i-1,by omega,by omega⟩)
    have hupper (hlt : i < d+1) : Reaches a b d v (-((d+1 : ℕ) : ℤ)+2*(i : ℤ)+1) :=
      h _ (mem_diagonals.mpr ⟨i,by omega,by push_cast; ring⟩)
    rcases Nat.eq_zero_or_pos i with rfl | hpos
    · obtain ⟨x,hget,hx⟩ := hupper (by omega)
      refine ⟨x,?_,EditGraph.isGreatest_entered_lowest (by simp) hx⟩
      rw [MyersDiff.enter,if_pos (by simp)]
      exact hget
    · obtain ⟨p,hgetp,hp⟩ := hlower hpos
      rcases Nat.lt_or_ge i (d+1) with hlt | hge
      · obtain ⟨q,hgetq,hq⟩ := hupper hlt
        refine ⟨max (p+1) q,?_,EditGraph.isGreatest_entered_succ hp hq⟩
        rw [MyersDiff.enter,if_neg (by omega),if_neg (by omega),hgetp,hgetq]
        by_cases hpq : p < q
        · rw [max_eq_right hpq]
          simp [bind,Except.bind,pure,Except.pure,hpq]
        · rw [max_eq_left (by omega)]
          simp [bind,Except.bind,pure,Except.pure,hpq,Functor.map,Except.map]
      · refine ⟨p+1,?_,EditGraph.isGreatest_entered_highest (by omega) hp⟩
        rw [MyersDiff.enter,if_neg (by omega),if_pos (by omega),hgetp]
        rfl

/-- The loop goes as far as the lines are the same. -/
theorem follow_slides [DecidableEq α] (a b : List α) (hx : 0 ≤ x) (hy : 0 ≤ x-k) :
    ∃ x', MyersDiff.follow a b x (x-k) = .ok (x',x'-k) ∧ Slides (Matches a b) k x x' := by
  induction hn : (a.length-x).toNat using Nat.strongRecOn generalizing x with
  | _ n ih =>
    have hstop (hm : ¬Matches a b x (x-k)) : Slides (Matches a b) k x x := ⟨le_rfl,fun z hz hz' => by omega,hm⟩
    rw [MyersDiff.follow]
    by_cases hin : x < a.length ∧ x-k < b.length
    · obtain ⟨s,hs⟩ : ∃ s, a[x.toNat]? = some s := ⟨_,List.getElem?_eq_getElem (by omega)⟩
      obtain ⟨t,ht⟩ : ∃ t, b[(x-k).toNat]? = some t := ⟨_,List.getElem?_eq_getElem (by omega)⟩
      rw [if_pos hin,index_eq_ok.mpr ⟨hx,hs⟩,index_eq_ok.mpr ⟨hy,ht⟩]
      change ∃ x', (if s = t then MyersDiff.follow a b (x+1) (x-k+1) else pure (x,x-k)) = .ok (x',x'-k) ∧ _
      by_cases hst : s = t
      · have hm : Matches a b x (x-k) := ⟨hx,hy,s,hs,hst ▸ ht⟩
        obtain ⟨x',hrun,hslide⟩ := ih _ (by omega) (x := x+1) (by omega) (by omega) rfl
        refine ⟨x',?_,by have := hslide.le; omega,fun z hz hz' => ?_,hslide.stops⟩
        · rw [if_pos hst,show x-k+1 = x+1-k by ring]
          exact hrun
        · rcases eq_or_lt_of_le hz with rfl | hz
          · exact hm
          · exact hslide.matched z (by omega) hz'
      · refine ⟨x,by rw [if_neg hst]; rfl,hstop ?_⟩
        rintro ⟨-,-,c,hc,hc'⟩
        rw [hs] at hc
        rw [ht] at hc'
        cases hc
        cases hc'
        exact hst rfl
    · rw [if_neg hin]
      exact ⟨x,rfl,hstop fun hm => hin hm.lt⟩

/-! ### The rounds -/

section Rounds
variable [DecidableEq α]

omit [DecidableEq α] in
/-- A round writes to the diagonals of its parity only. -/
theorem Known.frame {w : OffsetVec} (h : Known a b d v) (hk : k ∈ MyersDiff.diagonals d)
    (hframe : ∀ j ≠ k, ∀ z, v.get j = .ok z → w.get j = .ok z) : Known a b d w := by
  obtain ⟨i,hi,rfl⟩ := mem_diagonals.mp hk
  cases d with
  | zero => exact hframe 1 (by omega) 0 h
  | succ d =>
    intro j hj
    obtain ⟨x,hget,hx⟩ := h j hj
    obtain ⟨i',hi',rfl⟩ := mem_diagonals.mp hj
    exact ⟨x,hframe _ (by omega) x hget,hx⟩

omit [DecidableEq α] in
theorem corner_mem_diagonals (h : Path (Matches a b) d a.length b.length) :
    (a.length : ℤ)-b.length ∈ MyersDiff.diagonals d := mem_diagonals.mpr h.exists_diagonal

omit [DecidableEq α] in
theorem corner_reached : (a.length : ℤ) ∈ reached (Matches a b) d (a.length-b.length) ↔
    Path (Matches a b) d a.length b.length := by
  change Path (Matches a b) d a.length (a.length-(a.length-b.length)) ↔ _
  rw [sub_sub_cancel]

/-- A round finds the corner, or it goes to the end and knows all of its diagonals. -/
theorem round_spec {ks done : List ℤ} (hsized : Sized (a.length+b.length) v) (hd : d < a.length+b.length)
    (hks : MyersDiff.diagonals d = done++ks) (hknown : Known a b d v) (hdone : ∀ k ∈ done, Reaches a b d v k)
    (hcorner : IsGreatest (reached (Matches a b) d (a.length-b.length)) (a.length : ℤ) → (a.length : ℤ)-b.length ∉ done) :
    (MyersDiff.round a b d ks v = .ok (.inl d) ∧ Path (Matches a b) d a.length b.length) ∨
    ∃ w, MyersDiff.round a b d ks v = .ok (.inr w) ∧ Sized (a.length+b.length) w ∧ Known a b (d+1) w ∧
      ¬IsGreatest (reached (Matches a b) d (a.length-b.length)) (a.length : ℤ) := by
  induction ks generalizing v done with
  | nil =>
    rw [List.append_nil] at hks
    subst hks
    refine .inr ⟨v,rfl,hsized,hdone,fun hgreatest => hcorner hgreatest ?_⟩
    exact corner_mem_diagonals (corner_reached.mp hgreatest.1)
  | cons k ks ih =>
    have hk : k ∈ MyersDiff.diagonals d := by simp [hks]
    obtain ⟨x,henter,hx⟩ := hknown.enter hk
    obtain ⟨hx0,hy0⟩ := Path.nonneg (EditGraph.reached_of_entered hx.1)
    obtain ⟨x',hfollow,hslides⟩ := follow_slides a b hx0 hy0
    have hgreatest := EditGraph.isGreatest_reached hx hslides
    obtain ⟨hlow,hhigh⟩ := EditGraph.diagonal_bounds hgreatest.1
    obtain ⟨w,hset,hsized',hget,hframe⟩ := hsized.exists_set (i := k) (by push_cast; omega) (by push_cast; omega) x'
    have hrun : MyersDiff.round a b d (k::ks) v =
        if x' = a.length ∧ x'-k = b.length then pure (.inl d) else MyersDiff.round a b d ks w := by
      rw [MyersDiff.round,henter]
      change (MyersDiff.follow a b x (x-k) >>= _) = _
      rw [hfollow]
      change (v.set k x' >>= _) = _
      rw [hset]
      rfl
    by_cases hfound : x' = a.length ∧ x'-k = b.length
    · refine .inl ⟨?_,?_⟩
      · rw [hrun,if_pos hfound]
        rfl
      · have hpath : Path (Matches a b) d x' (x'-k) := hgreatest.1
        rwa [hfound.2,hfound.1] at hpath
    · rw [hrun,if_neg hfound]
      have hks' : MyersDiff.diagonals d = (done++[k])++ks := by simp [hks]
      apply ih hsized' hks' (hknown.frame hk hframe)
      · intro j hj
        by_cases hjk : j = k
        · rw [hjk]
          exact ⟨x',hget,hgreatest⟩
        · obtain ⟨z,hz,hzgreatest⟩ := hdone j ((List.mem_append.mp hj).resolve_right (by simpa using hjk))
          exact ⟨z,hframe j hjk z hz,hzgreatest⟩
      · intro hcg hmem
        rcases List.mem_append.mp hmem with hmem | hmem
        · exact hcorner hcg hmem
        · obtain rfl := List.mem_singleton.mp hmem
          have heq : x' = a.length := hgreatest.unique hcg
          exact hfound ⟨heq,by rw [heq]; ring⟩

/-- The rounds find the least distance, if it is small enough for them. -/
theorem rounds_spec {r : ℕ} (hr : d+r = a.length+b.length) (hsized : Sized (a.length+b.length) v) (hknown : Known a b d v)
    (hleast : ∀ e < d, ¬Path (Matches a b) e a.length b.length) :
    (∃ e < a.length+b.length, MyersDiff.rounds a b (List.range' d r) v = .ok e ∧ Path (Matches a b) e a.length b.length ∧
      ∀ e' < e, ¬Path (Matches a b) e' a.length b.length) ∨
    (∃ error, MyersDiff.rounds a b (List.range' d r) v = .error error) ∧
      ∀ e < a.length+b.length, ¬Path (Matches a b) e a.length b.length := by
  induction r generalizing d v with
  | zero => exact .inr ⟨⟨_,rfl⟩,by rwa [← hr,Nat.add_zero]⟩
  | succ r ih =>
    rw [List.range'_succ,MyersDiff.rounds]
    have hall : MyersDiff.diagonals d = []++MyersDiff.diagonals d := (List.nil_append _).symm
    rcases round_spec hsized (by omega) hall hknown (fun _ h => absurd h List.not_mem_nil) (fun _ => List.not_mem_nil) with
      ⟨hrun,hpath⟩ | ⟨w,hrun,hsized',hknown',hgreatest⟩
    · rw [hrun]
      exact .inl ⟨d,by omega,rfl,hpath,hleast⟩
    · rw [hrun]
      apply ih (by omega) hsized' hknown'
      intro e he hpath
      rcases Nat.lt_succ_iff_lt_or_eq.mp he with hlt | rfl
      · exact hleast e hlt hpath
      · apply hgreatest
        exact EditGraph.isGreatest_corner (fun _ _ => Matches.lt) (Int.natCast_nonneg _) (Int.natCast_nonneg _) hpath hleast

omit [DecidableEq α] in
theorem known_new (hsize : 2 ≤ a.length+b.length) : Known a b 0 (MyersDiff.new a b) := by
  refine index_eq_ok.mpr ⟨?_,?_⟩
  · rw [(sized_new a b).offset]
    omega
  · rw [(sized_new a b).offset]
    change (List.replicate ((a.length+b.length)*2) (0 : ℤ))[(1+((a.length+b.length : ℕ) : ℤ)).toNat]? = _
    rw [List.getElem?_replicate,if_pos (by omega)]

/-- With one line at most there is no diagonal next to the first one in the vector, if there is a round at all. -/
theorem xdiffDist_small (hsize : a.length+b.length < 2) : ∃ error, xdiffDist a b = .error error := by
  rw [xdiffDist,MyersDiff.diff]
  rcases Nat.lt_or_ge (a.length+b.length) 1 with hzero | hone
  · rw [show a.length+b.length = 0 by omega]
    exact ⟨_,rfl⟩
  · have hsize : a.length+b.length = 1 := by omega
    have hnew : MyersDiff.new a b = ⟨[0,0],1⟩ := by rw [MyersDiff.new,hsize]; rfl
    rw [hsize,hnew]
    exact ⟨_,rfl⟩

/-- The distance is found where the lists have a line in common: else every line is an edit, and the loop has one round
too few. -/
theorem xdiffDist_iff (a b : List α) :
    (∃ k, IsLcsLength a b k ∧ xdiffDist a b = .ok (a.length+b.length-2*k)) ↔ ∃ line, line ∈ a ∧ line ∈ b := by
  have hcommon {line : α} (ha : line ∈ a) (hb : line ∈ b) : 2 ≤ a.length+b.length ∧
      ∃ e < a.length+b.length, Path (Matches a b) e a.length b.length := by
    obtain ⟨e,he,hlen⟩ := (Path.start (M := Matches a b)).along_common (Nat.zero_le _) (Nat.zero_le _)
      (List.singleton_sublist.mpr ha) (List.singleton_sublist.mpr hb)
    have hla := List.length_pos_of_mem ha
    have hlb := List.length_pos_of_mem hb
    rw [List.length_singleton] at hlen
    exact ⟨by omega,e,by omega,he⟩
  rcases Nat.lt_or_ge (a.length+b.length) 2 with hsmall | hsize
  · obtain ⟨error,herror⟩ := xdiffDist_small hsmall
    constructor
    · rintro ⟨k,-,h⟩
      rw [herror] at h
      cases h
    · rintro ⟨line,ha,hb⟩
      exact absurd (hcommon ha hb).1 (by omega)
  · have hrun : xdiffDist a b = MyersDiff.rounds a b (List.range' 0 (a.length+b.length)) (MyersDiff.new a b) := by
      rw [xdiffDist,MyersDiff.diff,List.range_eq_range']
    rw [hrun]
    rcases rounds_spec (Nat.zero_add _) (sized_new a b) (known_new hsize) (fun e he => absurd he (Nat.not_lt_zero e)) with
      ⟨e,he,hok,hpath,hleast⟩ | ⟨⟨error,herror⟩,hnone⟩
    · obtain ⟨k,hk,hlen⟩ := EditGraph.isLcsLength_of_least hpath hleast
      refine iff_of_true ⟨k,hk,by rw [hok]; congr 1; omega⟩ ?_
      obtain ⟨l,ha,hb,rfl⟩ := hk.1
      obtain ⟨line,hline⟩ := List.exists_mem_of_length_pos (by omega : 0 < l.length)
      exact ⟨line,ha.subset hline,hb.subset hline⟩
    · constructor
      · rintro ⟨k,-,h⟩
        rw [herror] at h
        cases h
      · rintro ⟨line,ha,hb⟩
        obtain ⟨-,e,he,hpath⟩ := hcommon ha hb
        exact absurd hpath (hnone e he)

/-- Two empty lists. -/
theorem empty_lists_panic : ¬∀ a b : List String, ∃ k, IsLcsLength a b k ∧ xdiffDist a b = .ok (a.length+b.length-2*k) := by
  intro h
  obtain ⟨k,-,hrun⟩ := h [] []
  cases hrun

end Rounds

end Xdiff
end Libbit
