import Mathlib

/-! Finite-branching acyclic graphs: reachability, best common descendants of two
vertices along the edges, and a path weight that bounds every work-list run. -/
namespace Libbit
namespace Lib

/-- A graph given by adjacency lists together with a rank that every edge lowers. -/
structure Dag (α : Type*) where
  adj : α → List α
  rank : α → ℕ
  rank_adj : ∀ {u v}, v ∈ adj u → rank v < rank u

namespace Dag
variable {α : Type*} (g : Dag α)

def Edge (u v : α) : Prop := v ∈ g.adj u

/-- Reflexive reachability along the edges. -/
def Reach : α → α → Prop := Relation.ReflTransGen g.Edge

/-- Proper reachability: at least one edge is taken. -/
def Proper : α → α → Prop := Relation.TransGen g.Edge

/-- Reachability by edges that all leave from vertices of `S`. -/
def ReachFrom (S : Set α) : α → α → Prop :=
  Relation.ReflTransGen (fun u v => u ∈ S ∧ g.Edge u v)

variable {g}

theorem Edge.rank_lt {u v : α} (h : g.Edge u v) : g.rank v < g.rank u := g.rank_adj h

theorem Proper.rank_lt {u v : α} (h : g.Proper u v) : g.rank v < g.rank u := by
  induction h with
  | single h => exact h.rank_lt
  | tail _ h ih => exact h.rank_lt.trans ih

theorem Edge.ne {u v : α} (h : g.Edge u v) : v ≠ u := by
  rintro rfl
  exact lt_irrefl _ h.rank_lt

theorem Reach.refl (u : α) : g.Reach u u := Relation.ReflTransGen.refl
theorem Edge.reach {u v : α} (h : g.Edge u v) : g.Reach u v := Relation.ReflTransGen.single h
theorem Proper.reach {u v : α} (h : g.Proper u v) : g.Reach u v := Relation.TransGen.to_reflTransGen h
theorem Reach.trans {u v w : α} (h : g.Reach u v) (h' : g.Reach v w) : g.Reach u w :=
  Relation.ReflTransGen.trans h h'
theorem Reach.tail {u v w : α} (h : g.Reach u v) (h' : g.Edge v w) : g.Reach u w :=
  Relation.ReflTransGen.tail h h'
theorem Proper.trans_reach {u v w : α} (h : g.Proper u v) (h' : g.Reach v w) : g.Proper u w :=
  Relation.TransGen.trans_left h h'
/-- A potential that no edge increases does not increase along a path. -/
theorem Reach.antitone {β : Type*} [Preorder β] {f : α → β}
    (hf : ∀ {u v}, g.Edge u v → f v ≤ f u) {u v : α} (h : g.Reach u v) : f v ≤ f u := by
  induction h with
  | refl => exact le_refl _
  | tail _ h ih => exact (hf h).trans ih

/-- A predicate that every edge carries over holds at the end of a path when it holds at its start. -/
theorem Reach.closed {P : α → Prop} {u v : α} (h : g.Reach u v) (hu : P u)
    (hP : ∀ x y, g.Reach u x → P x → g.Edge x y → g.Reach y v → P y) : P v := by
  induction h with
  | refl => exact hu
  | @tail x y h₁ h₂ ih =>
    have hx : P x := ih fun p q hp hpx hpq hq => hP p q hp hpx hpq (hq.tail h₂)
    exact hP x y h₁ hx h₂ (Reach.refl y)

theorem ReachFrom.mono {S T : Set α} (hST : S ⊆ T) {u v : α} (h : g.ReachFrom S u v) : g.ReachFrom T u v := by
  induction h with
  | refl => exact Relation.ReflTransGen.refl
  | tail _ h ih => exact ih.tail ⟨hST h.1,h.2⟩

section Common
variable (g) (a b : α)

/-- Reachable from both `a` and `b`. -/
def Common (x : α) : Prop := g.Reach a x ∧ g.Reach b x

/-- Common, and not properly reachable from another common vertex. -/
def Best (x : α) : Prop := g.Common a b x ∧ ∀ y, g.Common a b y → ¬g.Proper y x

variable {g a b}

theorem Common.of_reach {x y : α} (h : g.Common a b x) (hxy : g.Reach x y) : g.Common a b y :=
  ⟨h.1.trans hxy,h.2.trans hxy⟩

/-- The rank bounds how far up one can climb, so a best vertex sits above every common one. -/
theorem Common.exists_best {x : α} (h : g.Common a b x) : ∃ y, g.Best a b y ∧ g.Reach y x := by
  by_contra hno
  have hup : ∀ n : ℕ, ∃ y, g.Common a b y ∧ g.Reach y x ∧ n ≤ g.rank y := by
    intro n
    induction n with
    | zero => exact ⟨x,h,Reach.refl x,Nat.zero_le _⟩
    | succ n ih =>
      obtain ⟨y,hy,hyx,hn⟩ := ih
      have hb : ¬g.Best a b y := fun hb => hno ⟨y,hb,hyx⟩
      simp only [Best,not_and,not_forall,not_not] at hb
      obtain ⟨z,hz,hzy⟩ := hb hy
      exact ⟨z,hz,hzy.reach.trans hyx,lt_of_le_of_lt hn hzy.rank_lt⟩
  obtain ⟨y,hy,_,hn⟩ := hup (g.rank a+1)
  have ha : g.rank y ≤ g.rank a := hy.1.antitone fun h => h.rank_lt.le
  omega

end Common

/-! ### Path weight -/

/-- Weight of a vertex, unfolding at most `k` levels below it. -/
def weightUpTo (g : Dag α) : ℕ → α → ℕ
  | 0, _ => 1
  | k+1, u => 1+((g.adj u).map (weightUpTo g k)).sum

/-- The number of paths that start at `u`. -/
def weight (g : Dag α) (u : α) : ℕ := weightUpTo g (g.rank u) u

theorem adj_eq_nil {u : α} (hu : g.rank u = 0) : g.adj u = [] := by
  apply List.eq_nil_iff_forall_not_mem.mpr
  intro v hv
  have := g.rank_adj hv
  omega

/-- Unfolding further than the rank adds nothing. -/
theorem weightUpTo_congr (n k : ℕ) (u : α) (hn : g.rank u ≤ n) (hk : g.rank u ≤ k) :
    weightUpTo g n u = weightUpTo g k u := by
  induction n generalizing k u with
  | zero => cases k <;> simp [weightUpTo,adj_eq_nil (Nat.le_zero.mp hn)]
  | succ n ih =>
    cases k with
    | zero => simp [weightUpTo,adj_eq_nil (Nat.le_zero.mp hk)]
    | succ k =>
      simp only [weightUpTo]
      congr 2
      apply List.map_congr_left
      intro v hv
      have hlt := g.rank_adj hv
      exact ih k v (by omega) (by omega)

theorem weight_eq (u : α) : g.weight u = 1+((g.adj u).map g.weight).sum := by
  rw [weight,weightUpTo_congr _ (g.rank u+1) u (le_refl _) (by omega)]
  simp only [weightUpTo]
  congr 2
  apply List.map_congr_left
  intro v hv
  exact weightUpTo_congr _ _ v (g.rank_adj hv).le (le_refl _)

end Dag
end Lib
end Libbit
