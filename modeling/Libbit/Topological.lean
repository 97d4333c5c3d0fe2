import Mathlib.Data.List.AList
import Libbit.Lib.Codec
import Libbit.Lib.Stepper

/-! Kahn's sort of a graph (`graph/dag.rs`, `graph/dag/topological.rs`). -/
namespace Libbit
namespace Topological

open Lib

/-- The `Dag` trait. -/
structure Dag (Node ε : Type) where
  nodes : Except ε (List Node)
  /-- `adjacent` of the `node_data` -/
  adjacent : Node → Except ε (List Node)

inductive Error (ε : Type)
  | dag (e : ε)
  | panic (message : String)
  deriving DecidableEq

/-- The order in which a hash map is iterated. -/
structure HashOrder (α : Type) where
  order : List α → List α
  perm : ∀ l, (order l).Perm l

section Model
variable {Node ε : Type} [DecidableEq Node]

abbrev Indegrees (Node : Type) := AList fun _ : Node => ℕ

structure TopologicalSort (Node : Type) where
  indegrees : Indegrees Node
  queue : List Node

/-- `*indegrees.entry(parent).or_default() += 1` of an `u32`. -/
def addEdge (indegrees : Indegrees Node) (parent : Node) : Except (Error ε) (Indegrees Node) :=
  let indegree := (indegrees.lookup parent).getD 0+1
  if indegree < 2^32 then .ok (indegrees.insert parent indegree) else .error (.panic "attempt to add with overflow")

def addNode (dag : Dag Node ε) (indegrees : Indegrees Node) (node : Node) : Except (Error ε) (Indegrees Node) := do
  let adjacent ← (dag.adjacent node).mapError .dag
  adjacent.foldlM addEdge indegrees

namespace TopologicalSort

def new (hash : HashOrder (Σ _ : Node, ℕ)) (dag : Dag Node ε) : Except (Error ε) (TopologicalSort Node) := do
  let nodes ← dag.nodes.mapError .dag
  let indegrees ← nodes.foldlM (addNode dag) ∅
  let queue := ((hash.order indegrees.entries).filter (·.2 = 0)).map Sigma.fst
  pure ⟨indegrees,queue⟩

/-- One edge of the node that is taken out. -/
def removeEdge (parent : Node) : EStateM (Error ε) (TopologicalSort Node) Unit := do
  let s ← get
  match s.indegrees.lookup parent with
  | none => throw (.panic "called `Option::unwrap()` on a `None` value")
  | some 0 => throw (.panic "attempt to subtract with overflow")
  | some (indegree+1) =>
    set { s with
      indegrees := s.indegrees.insert parent indegree
      queue := if indegree = 0 then s.queue++[parent] else s.queue }

def nodeData (dag : Dag Node ε) (node : Node) : EStateM (Error ε) (TopologicalSort Node) (List Node) := fun s =>
  ended s ((dag.adjacent node).mapError .dag)

def next (dag : Dag Node ε) : EStateM (Error ε) (TopologicalSort Node) (Option Node) := do
  let s ← get
  match s.queue with
  | [] => pure none
  | node::queue =>
    set { s with queue }
    let adjacent ← nodeData dag node
    adjacent.forM removeEdge
    pure (some node)

end TopologicalSort

end Model

/-! ### What is to be yielded -/

variable {Node ε : Type} [DecidableEq Node] {dag : Dag Node ε}

/-- A finite acyclic graph. -/
structure FiniteDag (dag : Dag Node ε) where
  nodes : List Node
  adjacent : Node → List Node
  nodes_eq : dag.nodes = .ok nodes
  adjacent_eq : ∀ u ∈ nodes, dag.adjacent u = .ok (adjacent u)
  closed : ∀ u ∈ nodes, ∀ v ∈ adjacent u, v ∈ nodes
  simple : ∀ u ∈ nodes, (adjacent u).Nodup
  acyclic : ∀ u, ¬Relation.TransGen (fun u v => u ∈ nodes ∧ v ∈ adjacent u) u u

namespace FiniteDag

/-- Every node once, and the start of every edge before its end. -/
structure IsTopological (g : FiniteDag dag) (l : List Node) : Prop where
  nodup : l.Nodup
  mem : ∀ u, u ∈ l ↔ u ∈ g.nodes
  before : ∀ pre v post, l = pre++v::post → ∀ u ∈ g.nodes, v ∈ g.adjacent u → u ∈ pre

end FiniteDag

/-- The sort yields a topological order of the graph. -/
def Sorts (hash : HashOrder (Σ _ : Node, ℕ)) (g : FiniteDag dag) : Prop :=
  ∃ s l, TopologicalSort.new hash dag = .ok s ∧ Enumerates (TopologicalSort.next dag) s l ∧ g.IsTopological l

/-! ### The start -/

/-- A node is entered together with an edge to it. -/
def Counted (indegrees : Indegrees Node) : Prop := ∀ v n, indegrees.lookup v = some n → n ≠ 0

theorem Counted.addEdge {indegrees indegrees' : Indegrees Node} {parent : Node} (h : Counted indegrees)
    (hadd : addEdge (ε := ε) indegrees parent = .ok indegrees') : Counted indegrees' := by
  simp only [Topological.addEdge] at hadd
  split at hadd
  · cases hadd
    intro v n hv
    by_cases hvp : v = parent
    · rw [hvp,AList.lookup_insert] at hv
      cases hv
      exact Nat.succ_ne_zero _
    · rw [AList.lookup_insert_ne hvp] at hv
      exact h v n hv
  · cases hadd

theorem Counted.addNode {indegrees indegrees' : Indegrees Node} {node : Node} (h : Counted indegrees)
    (hadd : addNode dag indegrees node = .ok indegrees') : Counted indegrees' := by
  obtain ⟨adjacent,-,hadd⟩ := except_bind_eq_ok.mp hadd
  exact foldlM_keeps (fun _ _ _ h hadd => h.addEdge hadd) h hadd

/-- No node is without an edge to it, so none is queued. -/
theorem new_queue {hash : HashOrder (Σ _ : Node, ℕ)} {s : TopologicalSort Node} (h : TopologicalSort.new hash dag = .ok s) :
    s.queue = [] := by
  obtain ⟨nodes,-,h⟩ := except_bind_eq_ok.mp h
  obtain ⟨indegrees,hadd,h⟩ := except_bind_eq_ok.mp h
  cases h
  have hcounted : Counted indegrees := foldlM_keeps (fun _ _ _ h hadd => h.addNode hadd) (fun v n hv => by cases hv) hadd
  rw [List.map_eq_nil_iff,List.filter_eq_nil_iff]
  intro e he hzero
  have hlookup : indegrees.lookup e.1 = some e.2 := AList.mem_lookup_iff.mpr ((hash.perm _).mem_iff.mp he)
  exact hcounted e.1 e.2 hlookup (of_decide_eq_true hzero)

theorem enumerates_nil {s : TopologicalSort Node} (h : s.queue = []) : Enumerates (TopologicalSort.next dag) s [] := by
  apply Enumerates.nil (t := s)
  rw [TopologicalSort.next,run_getBind,h]
  rfl

/-- Nothing is ever yielded, which is right for the graph without nodes only. -/
theorem sorts_iff (hash : HashOrder (Σ _ : Node, ℕ)) (g : FiniteDag dag) : Sorts hash g ↔ g.nodes = [] := by
  constructor
  · rintro ⟨s,l,hnew,hl,hsorted⟩
    obtain rfl := hl.unique (enumerates_nil (new_queue hnew))
    apply List.eq_nil_iff_forall_not_mem.mpr
    intro u hu
    exact absurd ((hsorted.mem u).mpr hu) List.not_mem_nil
  · intro hnodes
    have hnew : TopologicalSort.new hash dag = .ok ⟨∅,((hash.order []).filter (·.2 = 0)).map Sigma.fst⟩ := by
      rw [TopologicalSort.new,g.nodes_eq,hnodes]
      rfl
    refine ⟨_,[],hnew,enumerates_nil (new_queue hnew),List.nodup_nil,?_,?_⟩
    · rw [hnodes]
      exact fun u => Iff.rfl
    · intro pre v post h
      simp at h

/-- One node and no edge. -/
def isolated : Dag ℕ Empty where
  nodes := .ok [0]
  adjacent _ := .ok []

def isolatedGraph : FiniteDag isolated where
  nodes := [0]
  adjacent _ := []
  nodes_eq := rfl
  adjacent_eq _ _ := rfl
  closed := by simp
  simple := by simp
  acyclic u h := by
    cases h with
    | single h => exact List.not_mem_nil h.2
    | tail _ h => exact List.not_mem_nil h.2

theorem isolated_node_not_sorted : ¬Sorts ⟨id,fun _ => .rfl⟩ isolatedGraph := by
  rintro ⟨s,l,hnew,hl,hsorted⟩
  cases hnew
  have hnil : l = [] := hl.unique (.nil rfl)
  have hmem : 0 ∈ l := (hsorted.mem 0).mpr (List.mem_singleton_self 0)
  rw [hnil] at hmem
  cases hmem

/-! ### The loop

From a right start the loop does yield a topological order. -/

namespace FiniteDag
variable (g : FiniteDag dag) {s : TopologicalSort Node} {done : List Node} {node : Node}

/-- The edges to a node from those that are not done. -/
def left (done : List Node) (v : Node) : ℕ := g.nodes.countP fun u => u ∉ done ∧ v ∈ g.adjacent u

/-- What is queued has no edge from a node that is not done. -/
structure Kahn (done : List Node) (s : TopologicalSort Node) : Prop where
  nodup : (done++s.queue).Nodup
  mem : ∀ v, v ∈ done++s.queue ↔ v ∈ g.nodes ∧ ∀ u ∈ g.nodes, v ∈ g.adjacent u → u ∈ done
  counted : ∀ u ∈ g.nodes, ∀ v ∈ g.adjacent u, s.indegrees.lookup v = some (g.left done v)
  before : ∀ pre v post, done = pre++v::post → ∀ u ∈ g.nodes, v ∈ g.adjacent u → u ∈ pre

variable {g}

theorem left_eq_zero {v : Node} : g.left done v = 0 ↔ ∀ u ∈ g.nodes, v ∈ g.adjacent u → u ∈ done := by
  rw [left,List.countP_eq_zero]
  refine forall₂_congr fun u hu => ?_
  rw [decide_eq_true_eq,not_and,not_imp_comm,not_not]

theorem left_of_notMem {v : Node} (hv : v ∉ g.adjacent node) : g.left (done++[node]) v = g.left done v := by
  refine List.countP_congr fun u _ => ?_
  by_cases hu : u = node
  · subst hu
    simp [hv]
  · simp [hu]

theorem left_of_mem (hnodup : g.nodes.Nodup) (hnode : node ∈ g.nodes) (hdone : node ∉ done) {v : Node}
    (hv : v ∈ g.adjacent node) : g.left done v = g.left (done++[node]) v+1 := by
  obtain ⟨pre,post,hnodes⟩ := List.append_of_mem hnode
  rw [hnodes,List.nodup_middle,List.nodup_cons,List.mem_append,not_or] at hnodup
  have hrest {l : List Node} (hl : node ∉ l) : (l.countP fun u => u ∉ done++[node] ∧ v ∈ g.adjacent u) =
      l.countP fun u => u ∉ done ∧ v ∈ g.adjacent u := by
    refine List.countP_congr fun u hu => ?_
    have hne : u ≠ node := fun h => hl (h ▸ hu)
    simp [hne]
  rw [left,left,hnodes,List.countP_append,List.countP_append,List.countP_cons,List.countP_cons,hrest hnodup.1.1,
    hrest hnodup.1.2,if_pos (by simp [hdone,hv]),if_neg (by simp)]
  omega

/-- What the edges of a node do to the map and to the queue. -/
theorem removeEdges (n : Node → ℕ) {parents : List Node} (hnodup : parents.Nodup)
    (hcounted : ∀ v ∈ parents, s.indegrees.lookup v = some (n v+1)) :
    ∃ t, (parents.forM TopologicalSort.removeEdge : EStateM (Error ε) _ _) s = .ok ⟨⟩ t ∧
      t.queue = s.queue++parents.filter (n · = 0) ∧
      ∀ v, t.indegrees.lookup v = if v ∈ parents then some (n v) else s.indegrees.lookup v := by
  induction parents generalizing s with
  | nil => exact ⟨s,rfl,by simp,by simp⟩
  | cons parent parents ih =>
    obtain ⟨hparent,hnodup⟩ := List.nodup_cons.mp hnodup
    let mid : TopologicalSort Node := ⟨s.indegrees.insert parent (n parent),if n parent = 0 then s.queue++[parent] else s.queue⟩
    have hremove : (TopologicalSort.removeEdge parent : EStateM (Error ε) _ _) s = .ok ⟨⟩ mid := by
      rw [TopologicalSort.removeEdge,run_getBind,hcounted parent List.mem_cons_self]
      rfl
    obtain ⟨t,hrun,hqueue,hlookup⟩ := ih (s := mid) hnodup fun v hv => by
      have hne : v ≠ parent := fun h => hparent (h ▸ hv)
      rw [AList.lookup_insert_ne hne]
      exact hcounted v (List.mem_cons_of_mem parent hv)
    refine ⟨t,?_,?_,?_⟩
    · change (TopologicalSort.removeEdge parent >>= fun _ => parents.forM TopologicalSort.removeEdge) s = _
      rw [bind_of_ok hremove,hrun]
    · rw [hqueue,List.filter_cons]
      by_cases hzero : n parent = 0
      · simp [mid,hzero]
      · simp [mid,hzero]
    · intro v
      rw [hlookup]
      by_cases hv : v = parent
      · subst hv
        simp [hparent,mid]
      · simp [hv,mid,AList.lookup_insert_ne hv]

omit [DecidableEq Node] in
theorem snoc_before (hbefore : ∀ pre v post, done = pre++v::post → ∀ u ∈ g.nodes, v ∈ g.adjacent u → u ∈ pre)
    (hnode : ∀ u ∈ g.nodes, node ∈ g.adjacent u → u ∈ done) :
    ∀ pre v post, done++[node] = pre++v::post → ∀ u ∈ g.nodes, v ∈ g.adjacent u → u ∈ pre := by
  intro pre v post h
  rcases List.eq_nil_or_concat' post with rfl | ⟨post,w,rfl⟩
  · obtain ⟨rfl,hv⟩ := List.append_inj' h rfl
    cases hv
    exact hnode
  · rw [← List.cons_append,← List.append_assoc] at h
    obtain ⟨rfl,-⟩ := List.append_inj' h rfl
    exact hbefore pre v post rfl

/-- One round of the loop. -/
theorem Kahn.next (hnodup : g.nodes.Nodup) (h : g.Kahn done s) {queue : List Node} (hqueue : s.queue = node::queue) :
    ∃ t, TopologicalSort.next dag s = .ok (some node) t ∧ g.Kahn (done++[node]) t := by
  have hin : node ∈ done++s.queue := by simp [hqueue]
  obtain ⟨hnode,hpreds⟩ := (h.mem node).mp hin
  have hsplit := h.nodup
  rw [hqueue,List.nodup_middle,List.nodup_cons,List.mem_append,not_or] at hsplit
  have hdone : node ∉ done := hsplit.1.1
  obtain ⟨t,hrun,htqueue,hlookup⟩ := removeEdges (ε := ε) (s := { s with queue }) (g.left (done++[node])) (g.simple node hnode)
    fun v hv => (h.counted node hnode v hv).trans (congrArg some (left_of_mem hnodup hnode hdone hv))
  refine ⟨t,?_,⟨?_,?_,?_,snoc_before h.before hpreds⟩⟩
  · have hset : (set { s with queue } : EStateM (Error ε) _ _) s = .ok ⟨⟩ { s with queue } := rfl
    have hadjacent : TopologicalSort.nodeData dag node { s with queue } = .ok (g.adjacent node) { s with queue } := by
      rw [TopologicalSort.nodeData,g.adjacent_eq node hnode]
      rfl
    rw [TopologicalSort.next,run_getBind,hqueue]
    dsimp only
    rw [bind_of_ok hset,bind_of_ok hadjacent,bind_of_ok hrun]
    rfl
  · have hfresh : ∀ v ∈ g.adjacent node, v ∉ done++s.queue := fun v hv hmem => hdone (((h.mem v).mp hmem).2 node hnode hv)
    rw [htqueue,List.append_assoc,List.singleton_append,← List.cons_append,← hqueue,← List.append_assoc]
    apply h.nodup.append ((g.simple node hnode).filter _)
    intro v hv hv'
    exact hfresh v (List.mem_filter.mp hv').1 hv
  · intro v
    rw [htqueue,List.append_assoc,List.singleton_append,← List.cons_append,← hqueue,← List.append_assoc,List.mem_append,h.mem v,
      List.mem_filter,decide_eq_true_eq,left_eq_zero]
    constructor
    · rintro (⟨hv,hdone'⟩ | ⟨hv,hdone'⟩)
      · exact ⟨hv,fun u hu huv => List.mem_append_left _ (hdone' u hu huv)⟩
      · exact ⟨g.closed node hnode v hv,hdone'⟩
    · rintro ⟨hv,hdone'⟩
      by_cases hadj : v ∈ g.adjacent node
      · exact .inr ⟨hadj,hdone'⟩
      · refine .inl ⟨hv,fun u hu huv => ?_⟩
        rcases List.mem_append.mp (hdone' u hu huv) with hmem | hmem
        · exact hmem
        · rw [List.mem_singleton.mp hmem] at huv
          exact absurd huv hadj
  · intro u hu v hv
    rw [hlookup]
    by_cases hadj : v ∈ g.adjacent node
    · rw [if_pos hadj]
    · rw [if_neg hadj,left_of_notMem hadj]
      exact h.counted u hu v hv

omit [DecidableEq Node] in
theorem wellFounded (g : FiniteDag dag) : WellFounded fun u v : {u // u ∈ g.nodes} =>
    Relation.TransGen (fun u v => u ∈ g.nodes ∧ v ∈ g.adjacent u) u.1 v.1 := by
  have hfinite : Finite {u // u ∈ g.nodes} := g.nodes.finite_toSet.to_subtype
  have htrans : IsTrans {u // u ∈ g.nodes} fun u v =>
      Relation.TransGen (fun u v => u ∈ g.nodes ∧ v ∈ g.adjacent u) u.1 v.1 := ⟨fun _ _ _ => Relation.TransGen.trans⟩
  have hirrefl : Std.Irrefl fun u v : {u // u ∈ g.nodes} =>
      Relation.TransGen (fun u v => u ∈ g.nodes ∧ v ∈ g.adjacent u) u.1 v.1 := ⟨fun u => g.acyclic u.1⟩
  exact Finite.wellFounded_of_trans_of_irrefl _

/-- When nothing is queued all is done: by induction along the edges, which end somewhere. -/
theorem Kahn.mem_done (h : g.Kahn done s) (hqueue : s.queue = []) (v : Node) : v ∈ done ↔ v ∈ g.nodes := by
  have hmem : ∀ v, v ∈ done ↔ v ∈ g.nodes ∧ ∀ u ∈ g.nodes, v ∈ g.adjacent u → u ∈ done := by
    intro v
    have hv := h.mem v
    rwa [hqueue,List.append_nil] at hv
  refine ⟨fun hv => ((hmem v).mp hv).1,fun hv => ?_⟩
  apply g.wellFounded.induction (C := fun v => v.1 ∈ done) ⟨v,hv⟩
  intro v ih
  exact (hmem v.1).mpr ⟨v.2,fun u hu huv => ih ⟨u,hu⟩ (.single ⟨hu,huv⟩)⟩

theorem Kahn.length_le (h : g.Kahn done s) : done.length ≤ g.nodes.length := by
  apply List.Subperm.length_le
  exact (List.nodup_append.mp h.nodup).1.subperm fun v hv => ((h.mem v).mp (List.mem_append_left _ hv)).1

/-- From a state where the nodes without an edge to them are queued, and the edges to the others are counted, the
loop yields a topological order. -/
theorem Kahn.enumerates (hnodup : g.nodes.Nodup) (h : g.Kahn done s) :
    ∃ l, Enumerates (TopologicalSort.next dag) s l ∧ g.IsTopological (done++l) := by
  -- each round takes one of the nodes that are not done
  induction hk : g.nodes.length-done.length using Nat.strongRecOn generalizing done s with
  | _ k ih =>
    cases hqueue : s.queue with
    | nil =>
      refine ⟨[],enumerates_nil hqueue,?_⟩
      rw [List.append_nil]
      exact ⟨(List.nodup_append.mp h.nodup).1,h.mem_done hqueue,h.before⟩
    | cons node queue =>
      obtain ⟨t,hnext,ht⟩ := h.next hnodup hqueue
      have hlen := ht.length_le
      rw [List.length_append,List.length_singleton] at hlen
      obtain ⟨l,hl,hsorted⟩ := ih (g.nodes.length-(done++[node]).length)
        (by rw [List.length_append,List.length_singleton]; omega) ht rfl
      refine ⟨node::l,.cons hnext hl,?_⟩
      rwa [List.append_assoc,List.singleton_append] at hsorted

end FiniteDag

end Topological
end Libbit
