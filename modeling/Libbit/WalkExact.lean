import Libbit.Lib.Join
import Libbit.Listing

/-! The walk over any number of trees. It compares paths by their bytes, while a tree lists a directory
behind the siblings that continue its name with a byte below the slash. The items are those of the
trees, path by path, exactly if such siblings end alike in the trees that share the directory. -/
namespace Libbit

open Lib

namespace Walk

/-- The walk over trees from their roots. -/
def walkTrees (ts : List Tree) : List (List (Option BitIndexEntry)) :=
  walkTreeIterators (ts.map fun t => (treeIter (.tree t)).length).sum (ts.map fun t => treeIter (.tree t))

/-- The trees that have something at the path have the same directory there, and more than one does. -/
def shared (ts : List Tree) (p : BitPath) : Bool :=
  1 < (ts.filter fun t => (t.look p).isSome).length ∧
    ∀ t ∈ ts, (t.look p).isSome → ∀ t' ∈ ts, (t'.look p).isSome → (t.sub? p).isSome ∧ t.sub? p = t'.sub? p

/-- The directories that the walk goes into. -/
def entered (ts : List Tree) (p : BitPath) : Bool := !shared ts p

/-- The items are those of the trees: one for every path of a tree that is not strictly below a shared
directory, with the entries that the trees have there. -/
def Exact (ts : List Tree) : Prop :=
  ∃ ps : List BitPath, ps.Nodup ∧ walkTrees ts = ps.map (fun p => ts.map fun t => t.entryAt p) ∧
    ∀ p, p ∈ ps ↔ visited (entered ts) p = true ∧ ∃ t ∈ ts, t.look p ≠ none

/-- In any two trees the last entry that comes before a path although its own path is greater is the
same, among the entries that the walk sees. -/
def Even (ts : List Tree) : Prop :=
  ∀ t ∈ ts, ∀ t' ∈ ts, Join.Even (visitedKeys (entered ts) (treeIter (.tree t))) (visitedKeys (entered ts) (treeIter (.tree t')))

instance (ts : List Tree) : Decidable (Even ts) := by
  unfold Even
  infer_instance

section Heads

/-- The head of an iterator if it is at the path with these bytes. -/
def headAt (m : Bytes) (iter : List BitIndexEntry) : Option BitIndexEntry := iter.head?.filter fun e => e.path.asBytes = m

theorem headAt_eq_some {m : Bytes} {iter : List BitIndexEntry} {e : BitIndexEntry} :
    headAt m iter = some e ↔ iter.head? = some e ∧ e.path.asBytes = m := by
  simp [headAt,Option.filter_eq_some_iff]

/-- The least path among the heads. -/
structure IsLeast (m : Bytes) (iters : List (List BitIndexEntry)) : Prop where
  le : ∀ iter ∈ iters, ∀ e ∈ iter.head?, m ≤ e.path.asBytes
  mem : ∃ iter ∈ iters, ∃ e, headAt m iter = some e

/-- An item has the heads at the least path. -/
theorem nextEntries_cases (iters : List (List BitIndexEntry)) :
    ((∀ iter ∈ iters, iter = []) ∧ nextEntries iters = iters.map fun _ => none) ∨
      ∃ m, IsLeast m iters ∧ nextEntries iters = iters.map (headAt m) := by
  induction iters using List.reverseRecOn with
  | nil => exact .inl ⟨by simp,rfl⟩
  | append_singleton iters iter ih =>
    have hfold : nextEntries (iters++[iter]) = takeHead (nextEntries iters) iter := by simp [nextEntries]
    rw [hfold]
    cases iter with
    | nil =>
      have htake (entries : List (Option BitIndexEntry)) : takeHead entries [] = entries++[none] := rfl
      rw [htake]
      rcases ih with ⟨hempty,heq⟩ | ⟨m,hleast,heq⟩
      · refine .inl ⟨fun it hit => ?_,by simp [heq]⟩
        rcases List.mem_append.mp hit with hit | hit
        · exact hempty it hit
        · exact List.mem_singleton.mp hit
      · refine .inr ⟨m,⟨fun it hit e he => ?_,?_⟩,by simp [heq,headAt]⟩
        · rcases List.mem_append.mp hit with hit | hit
          · exact hleast.le it hit e he
          · simp [List.mem_singleton.mp hit] at he
        · obtain ⟨it,hit,e,he⟩ := hleast.mem
          exact ⟨it,List.mem_append_left _ hit,e,he⟩
    | cons e es =>
      have hself : headAt e.path.asBytes (e::es) = some e := headAt_eq_some.mpr ⟨rfl,rfl⟩
      -- the new head comes first
      have hnew (hlt : ∀ it ∈ iters, ∀ x ∈ it.head?, e.path.asBytes < x.path.asBytes) :
          IsLeast e.path.asBytes (iters++[e::es]) ∧
            iters.map (fun _ => none)++[some e] = (iters++[e::es]).map (headAt e.path.asBytes) := by
        refine ⟨⟨fun it hit x hx => ?_,⟨e::es,by simp,e,hself⟩⟩,?_⟩
        · rcases List.mem_append.mp hit with hit | hit
          · exact (hlt it hit x hx).le
          · rw [List.mem_singleton.mp hit] at hx
            obtain rfl : e = x := by simpa using hx
            exact le_rfl
        · rw [List.map_append,List.map_singleton,hself]
          congr 1
          refine List.map_congr_left fun it hit => ?_
          rw [eq_comm,Option.eq_none_iff_forall_ne_some]
          intro x hx
          obtain ⟨hhead,hkey⟩ := headAt_eq_some.mp hx
          exact (hlt it hit x hhead).ne hkey.symm
      rcases ih with ⟨hempty,heq⟩ | ⟨m,hleast,heq⟩
      · refine .inr ⟨e.path.asBytes,?_⟩
        obtain ⟨hl,hmap⟩ := hnew fun it hit x hx => by simp [hempty it hit] at hx
        refine ⟨hl,?_⟩
        rw [heq,← hmap]
        simp [takeHead]
      · obtain ⟨first,hfirst,hkey⟩ : ∃ first, (nextEntries iters).reduceOption.head? = some first ∧ first.path.asBytes = m := by
          obtain ⟨it,hit,x,hx⟩ := hleast.mem
          have hmem : x ∈ (nextEntries iters).reduceOption := by
            rw [List.reduceOption_mem_iff,heq]
            exact List.mem_map.mpr ⟨it,hit,hx⟩
          obtain ⟨first,hfirst⟩ : ∃ first, (nextEntries iters).reduceOption.head? = some first := by
            cases hl : (nextEntries iters).reduceOption with
            | nil => simp [hl] at hmem
            | cons y ys => exact ⟨y,rfl⟩
          refine ⟨first,hfirst,?_⟩
          have hfmem := List.reduceOption_mem_iff.mp (List.mem_of_mem_head? hfirst)
          rw [heq] at hfmem
          obtain ⟨it',-,hit'⟩ := List.mem_map.mp hfmem
          exact (headAt_eq_some.mp hit').2
        have hrest (hle : m ≤ e.path.asBytes) : IsLeast m (iters++[e::es]) := by
          refine ⟨fun it hit x hx => ?_,?_⟩
          · rcases List.mem_append.mp hit with hit | hit
            · exact hleast.le it hit x hx
            · rw [List.mem_singleton.mp hit] at hx
              obtain rfl : e = x := by simpa using hx
              exact hle
          · obtain ⟨it,hit,x,hx⟩ := hleast.mem
            exact ⟨it,List.mem_append_left _ hit,x,hx⟩
        cases hcmp : e.diffCmp first with
        | lt =>
          have htake : takeHead (nextEntries iters) (e::es) = (nextEntries iters).map (fun _ => none)++[some e] := by
            simp only [takeHead,List.head?_cons,hfirst,hcmp]
          rw [htake]
          have hlt : e.path.asBytes < m := hkey ▸ TreeDiffIter.diffCmp_lt.mp hcmp
          obtain ⟨hl,hmap⟩ := hnew fun it hit x hx => hlt.trans_le (hleast.le it hit x hx)
          exact .inr ⟨e.path.asBytes,hl,by rw [← hmap,heq,List.map_map]; rfl⟩
        | eq =>
          have htake : takeHead (nextEntries iters) (e::es) = nextEntries iters++[some e] := by
            simp only [takeHead,List.head?_cons,hfirst,hcmp]
          rw [htake]
          have hm : e.path.asBytes = m := hkey ▸ TreeDiffIter.diffCmp_eq.mp hcmp
          exact .inr ⟨m,hrest hm.ge,by rw [List.map_append,List.map_singleton,heq,← hm,hself]⟩
        | gt =>
          have htake : takeHead (nextEntries iters) (e::es) = nextEntries iters++[none] := by
            simp only [takeHead,List.head?_cons,hfirst,hcmp]
          rw [htake]
          have hlt : m < e.path.asBytes := hkey ▸ TreeDiffIter.diffCmp_gt.mp hcmp
          have hnone : headAt m (e::es) = none := by simp [headAt,hlt.ne']
          exact .inr ⟨m,hrest hlt.le,by rw [List.map_append,List.map_singleton,heq,hnone]⟩

end Heads

section State
variable {ts : List Tree}

/-- A tree and what its iterator has left once the paths in `done` were yielded. -/
structure At (ent : BitPath → Bool) (done : List BitPath) (x : Tree × List BitIndexEntry) : Prop where
  order : x.1.GitOrder
  frontier : Frontier ent x.2
  sub : x.2 ⊆ treeIter (.tree x.1)
  pending : ∀ e ∈ treeIter (.tree x.1), visited ent e.path = true → (e ∈ x.2 ↔ e.path ∉ done)

/-- What is left of an iterator once the path was yielded. -/
def after (ent : BitPath → Bool) (p : BitPath) (x : Tree × List BitIndexEntry) : Tree × List BitIndexEntry :=
  (x.1,if (x.1.entryAt p).isSome then (if ent p then x.2.tail else Iter.stepOver x.2) else x.2)

theorem At.entry {ent : BitPath → Bool} {done : List BitPath} {x : Tree × List BitIndexEntry} (h : At ent done x)
    {e : BitIndexEntry} (he : e ∈ x.2) : x.1.entryAt e.path = some e := h.order.mem_treeIter.mp (h.sub he)

theorem headAt_entry {p : BitPath} {x : Tree × List BitIndexEntry} {e : BitIndexEntry}
    (hp : headAt p.asBytes x.2 = x.1.entryAt p) (he : x.1.entryAt p = some e) : e.path = p ∧ ∃ os, x.2 = e::os := by
  obtain ⟨hhead,-⟩ := headAt_eq_some.mp (hp.trans he)
  refine ⟨Tree.entryAt_path he,?_⟩
  cases hx : x.2 with
  | nil => simp [hx] at hhead
  | cons y os =>
    obtain rfl : y = e := by simpa [hx] using hhead
    exact ⟨os,rfl⟩

/-- An iterator that starts with the entry of its tree at the path, if there is one, moves past it. -/
theorem At.after {ent : BitPath → Bool} {done : List BitPath} {x : Tree × List BitIndexEntry} (h : At ent done x) {p : BitPath}
    (hp : headAt p.asBytes x.2 = x.1.entryAt p) : At ent (p::done) (after ent p x) := by
  cases he : x.1.entryAt p with
  | none =>
    have hafter : Walk.after ent p x = x := by simp [Walk.after,he]
    rw [hafter]
    refine ⟨h.order,h.frontier,h.sub,fun e hmem hv => ?_⟩
    have hne : e.path ≠ p := fun heq => by
      have := h.order.mem_treeIter.mp hmem
      simp [heq,he] at this
    simp [h.pending e hmem hv,hne]
  | some e =>
    obtain ⟨rfl,os,hx⟩ := headAt_entry hp he
    have hf : Frontier ent (e::os) := hx ▸ h.frontier
    have hafter : Walk.after ent e.path x = (x.1,if ent e.path then os else Iter.stepOver (e::os)) := by simp [Walk.after,he,hx]
    rw [hafter]
    refine ⟨h.order,hf.next,fun y hy => h.sub (hx ▸ hf.next_subset hy),fun y hy hv => ?_⟩
    rw [hf.mem_next hv,← hx,h.pending y hy hv,List.mem_cons,not_or,and_comm]

theorem At.keys_after {ent : BitPath → Bool} {done : List BitPath} {x : Tree × List BitIndexEntry} (h : At ent done x)
    {p : BitPath} (hp : headAt p.asBytes x.2 = x.1.entryAt p) : visitedKeys ent x.2 =
      if (x.1.entryAt p).isSome then p.asBytes::visitedKeys ent (Walk.after ent p x).2 else visitedKeys ent (Walk.after ent p x).2 := by
  cases he : x.1.entryAt p with
  | none => simp [Walk.after,he]
  | some e =>
    obtain ⟨rfl,os,hx⟩ := headAt_entry hp he
    have hf : Frontier ent (e::os) := hx ▸ h.frontier
    rw [hx,hf.visitedKeys_next]
    simp [Walk.after,he,hx]

theorem shouldStepOver_entries (entries : List (Option BitIndexEntry)) : shouldStepOver entries = true ↔
    1 < entries.reduceOption.length ∧
      ∀ x ∈ entries.reduceOption, ∀ y ∈ entries.reduceOption, x.isTree = true ∧ x.oid = y.oid := by
  unfold shouldStepOver
  cases entries.reduceOption with
  | nil => simp
  | cons e es =>
    simp only [Bool.and_eq_true,List.all_eq_true,decide_eq_true_eq,List.length_cons]
    constructor
    · rintro ⟨⟨he,hes⟩,hlen⟩
      have hall : ∀ x ∈ e::es, x.isTree = true ∧ x.oid = e.oid := fun x hx => by
        rcases List.mem_cons.mp hx with rfl | hx
        · exact ⟨he,rfl⟩
        · exact hes x hx
      exact ⟨by omega,fun x hx y hy => ⟨(hall x hx).1,(hall x hx).2.trans (hall y hy).2.symm⟩⟩
    · rintro ⟨hlen,hall⟩
      refine ⟨⟨(hall e List.mem_cons_self e List.mem_cons_self).1,fun x hx => ?_⟩,by omega⟩
      exact hall x (List.mem_cons_of_mem _ hx) e List.mem_cons_self

/-- The walk steps over the shared directories. -/
theorem shouldStepOver_iff (ts : List Tree) (p : BitPath) : shouldStepOver (ts.map fun t => t.entryAt p) = shared ts p := by
  have hlen : (ts.map fun t => t.entryAt p).reduceOption.length = (ts.filter fun t => (t.look p).isSome).length := by
    induction ts with
    | nil => rfl
    | cons t ts ih =>
      cases he : t.entryAt p with
      | none =>
        have hlook : t.look p = none := by
          by_contra h
          simpa [he] using Tree.entryAt_isSome.mpr h
        simpa [he,hlook] using ih
      | some e =>
        have hlook : (t.look p).isSome := Option.isSome_iff_ne_none.mpr (Tree.entryAt_isSome.mp (Option.isSome_of_eq_some he))
        simpa [he,hlook] using ih
  rw [Bool.eq_iff_iff,shouldStepOver_entries]
  simp only [shared,decide_eq_true_eq,hlen,List.reduceOption_mem_iff,List.mem_map]
  refine and_congr_right fun _ => ?_
  constructor
  · intro h t ht hlook t' ht' hlook'
    obtain ⟨e,he⟩ := Option.isSome_iff_exists.mp (Tree.entryAt_isSome.mpr (Option.isSome_iff_ne_none.mp hlook))
    obtain ⟨e',he'⟩ := Option.isSome_iff_exists.mp (Tree.entryAt_isSome.mpr (Option.isSome_iff_ne_none.mp hlook'))
    obtain ⟨htree,hoid⟩ := h e ⟨t,ht,he⟩ e' ⟨t',ht',he'⟩
    have htree' := (h e' ⟨t',ht',he'⟩ e ⟨t,ht,he⟩).1
    rcases Tree.entryAt_cases he with ⟨a,-,-,rfl⟩ | ⟨s,-,hs,rfl⟩
    · simp [BitIndexEntry.isTree,BitIndexEntry.ofTreeEntry,FileMode.isTree] at htree
    · rcases Tree.entryAt_cases he' with ⟨a,-,-,rfl⟩ | ⟨s',-,hs',rfl⟩
      · simp [BitIndexEntry.isTree,BitIndexEntry.ofTreeEntry,FileMode.isTree] at htree'
      · obtain rfl : s = s' := by simpa [BitIndexEntry.ofTreeEntry] using hoid
        simp [hs,hs']
  · rintro h e ⟨t,ht,he⟩ e' ⟨t',ht',he'⟩
    have hlook := Option.isSome_iff_ne_none.mpr (Tree.entryAt_isSome.mp (Option.isSome_of_eq_some he))
    have hlook' := Option.isSome_iff_ne_none.mpr (Tree.entryAt_isSome.mp (Option.isSome_of_eq_some he'))
    obtain ⟨hsome,heq⟩ := h t ht hlook t' ht' hlook'
    rcases Tree.entryAt_cases he with ⟨a,-,hs,rfl⟩ | ⟨s,-,hs,rfl⟩
    · simp [hs] at hsome
    · rcases Tree.entryAt_cases he' with ⟨a,-,hs',rfl⟩ | ⟨s',-,hs',rfl⟩
      · simp [hs,hs'] at heq
      · obtain rfl : s = s' := by simpa [hs,hs'] using heq
        exact ⟨rfl,rfl⟩

theorem entryAt_of_key {ent : BitPath → Bool} {done : List BitPath} {x : Tree × List BitIndexEntry} (h : At ent done x)
    {p : BitPath} (hp : p.Normal) {e : BitIndexEntry} (he : e ∈ x.2) (hkey : e.path.asBytes = p.asBytes) :
    x.1.entryAt p = some e := by
  rw [← BitPath.asBytes_injective (h.frontier.normal e he) hp hkey]
  exact h.entry he

/-- An iterator whose tree has nothing at the path is further on. -/
theorem At.past {ent : BitPath → Bool} {done : List BitPath} {x : Tree × List BitIndexEntry} (h : At ent done x) {p : BitPath}
    (hp : p.Normal) (hle : ∀ e ∈ x.2.head?, p.asBytes ≤ e.path.asBytes) (hnone : x.1.entryAt p = none) :
    p.asBytes ∉ visitedKeys ent x.2 ∧ ∀ k ∈ (visitedKeys ent x.2).head?, p.asBytes < k := by
  have hkey {e : BitIndexEntry} (he : e ∈ x.2) : e.path.asBytes ≠ p.asBytes := fun hk => by
    simp [entryAt_of_key h hp he hk] at hnone
  constructor
  · intro hmem
    obtain ⟨e,he,hk⟩ := List.mem_map.mp hmem
    exact hkey (List.mem_filter.mp he).1 hk
  · intro k hk
    have hf := h.frontier
    cases hx : x.2 with
    | nil => simp [hx,visitedKeys] at hk
    | cons e os =>
      rw [hx] at hf hk hle
      rw [hf.visitedKeys_cons] at hk
      obtain rfl : e.path.asBytes = k := by simpa using hk
      exact lt_of_le_of_ne (hle e rfl) (Ne.symm (hkey (hx ▸ List.mem_cons_self)))

/-- Iterators that are even with one that starts at the least path start with what their trees have
there. -/
theorem At.headAt_of_even {ent : BitPath → Bool} {done : List BitPath} {x y : Tree × List BitIndexEntry} (hx : At ent done x)
    (hy : At ent done y) {e : BitIndexEntry} {os : List BitIndexEntry} (hhead : y.2 = e::os)
    (hle : ∀ z ∈ x.2.head?, e.path.asBytes ≤ z.path.asBytes)
    (heven : Join.Even (visitedKeys ent y.2) (visitedKeys ent x.2)) : headAt e.path.asBytes x.2 = x.1.entryAt e.path := by
  have hey : e ∈ y.2 := hhead ▸ List.mem_cons_self
  have hfy : Frontier ent (e::os) := hhead ▸ hy.frontier
  have hn : e.path.Normal := hy.frontier.normal e hey
  have hdone : e.path ∉ done := (hy.pending e (hy.sub hey) hfy.head).mp hey
  cases he : x.1.entryAt e.path with
  | none =>
    rw [Option.eq_none_iff_forall_ne_some]
    intro z hz
    obtain ⟨hz,hk⟩ := headAt_eq_some.mp hz
    simp [entryAt_of_key hx hn (List.mem_of_mem_head? hz) hk] at he
  | some z =>
    have hzp : z.path = e.path := Tree.entryAt_path he
    have hzt : z ∈ treeIter (.tree x.1) := hx.order.mem_treeIter.mpr (hzp.symm ▸ he)
    have hzv : visited ent z.path = true := hzp.symm ▸ hfy.head
    have hzx : z ∈ x.2 := (hx.pending z hzt hzv).mpr (hzp.symm ▸ hdone)
    refine headAt_eq_some.mpr ⟨?_,by rw [hzp]⟩
    by_contra hnot
    -- a greater head would wait before it
    have hlt : ∀ k ∈ (visitedKeys ent x.2).head?, e.path.asBytes < k := by
      intro k hk
      have hfx := hx.frontier
      cases hl : x.2 with
      | nil => simp [hl] at hzx
      | cons w ws =>
        rw [hl] at hfx hk hle hnot
        rw [hfx.visitedKeys_cons] at hk
        obtain rfl : w.path.asBytes = k := by simpa using hk
        refine lt_of_le_of_ne (hle w rfl) fun heq => hnot ?_
        have hw := entryAt_of_key hx hn (hl ▸ List.mem_cons_self) heq.symm
        rw [List.head?_cons,Option.some.inj (hw.symm.trans he)]
    have hmem : e.path.asBytes ∈ visitedKeys ent x.2 :=
      List.mem_map.mpr ⟨z,List.mem_filter.mpr ⟨hzx,hzv⟩,by rw [hzp]⟩
    rw [hhead,hfy.visitedKeys_cons] at heven
    exact Join.EvenOn.not_mem heven hlt trivial hmem

end State

section Run
variable {ts : List Tree} {st : List (Tree × List BitIndexEntry)} {done : List BitPath} {p : BitPath}

theorem advance_eq (hts : st.map Prod.fst = ts) :
    advance (st.map fun x => x.1.entryAt p) (st.map Prod.snd) = (st.map (after (entered ts) p)).map Prod.snd := by
  have hover : shouldStepOver (st.map fun x => x.1.entryAt p) = !entered ts p := by
    rw [entered,Bool.not_not,← shouldStepOver_iff,← hts,List.map_map]
    rfl
  simp only [advance,hover,List.zipWith_map,List.zipWith_self,List.map_map]
  refine List.map_congr_left fun x _ => ?_
  simp only [Function.comp,after]
  cases entered ts p <;> rfl

/-- The heads at the path are what the trees have there, and at least one tree has something. -/
structure Turn (st : List (Tree × List BitIndexEntry)) (p : BitPath) : Prop where
  normal : p.Normal
  le : ∀ x ∈ st, ∀ e ∈ x.2.head?, p.asBytes ≤ e.path.asBytes
  heads : ∀ x ∈ st, headAt p.asBytes x.2 = x.1.entryAt p
  used : ∃ x ∈ st, (x.1.entryAt p).isSome = true

theorem length_after_le (ent : BitPath → Bool) (p : BitPath) (x : Tree × List BitIndexEntry) :
    (after ent p x).2.length ≤ x.2.length := by
  obtain ⟨t,l⟩ := x
  cases l with
  | nil => simp [after,Iter.stepOver]
  | cons e os =>
    have hover := (stepOver_suffix e os).length_le
    simp only [after,List.tail_cons]
    split
    · split
      · simp
      · simp only [List.length_cons]
        omega
    · simp

theorem length_after_lt {ent : BitPath → Bool} {x : Tree × List BitIndexEntry} (hp : headAt p.asBytes x.2 = x.1.entryAt p)
    (hx : (x.1.entryAt p).isSome = true) : (after ent p x).2.length < x.2.length := by
  obtain ⟨e,he⟩ := Option.isSome_iff_exists.mp hx
  obtain ⟨-,os,hos⟩ := headAt_entry hp he
  have hover := (stepOver_suffix e os).length_le
  simp only [after,he,hos,Option.isSome_some,if_true,List.tail_cons]
  split <;> simp only [List.length_cons] <;> omega

theorem Turn.sum_lt (h : Turn st p) (ent : BitPath → Bool) :
    ((st.map (after ent p)).map fun x => x.2.length).sum < (st.map fun x => x.2.length).sum := by
  obtain ⟨x,hx,hused⟩ := h.used
  rw [List.map_map]
  exact List.sum_lt_sum _ _ (fun y _ => length_after_le ent p y) ⟨x,hx,length_after_lt (h.heads x hx) hused⟩

theorem Turn.entries (h : Turn st p) (hts : st.map Prod.fst = ts) :
    (st.map Prod.snd).map (headAt p.asBytes) = ts.map fun t => t.entryAt p := by
  rw [← hts,List.map_map,List.map_map]
  exact List.map_congr_left h.heads

/-- The item of a turn, and what the walk goes on with. -/
theorem Turn.walk (h : Turn st p) (hts : st.map Prod.fst = ts) (hnext : nextEntries (st.map Prod.snd) = (st.map Prod.snd).map (headAt p.asBytes))
    (fuel : ℕ) : walkTreeIterators (fuel+1) (st.map Prod.snd) =
      (ts.map fun t => t.entryAt p)::walkTreeIterators fuel ((st.map (after (entered ts) p)).map Prod.snd) := by
  have hsome : (ts.map fun t => t.entryAt p).reduceOption ≠ [] := by
    obtain ⟨x,hx,hused⟩ := h.used
    obtain ⟨e,he⟩ := Option.isSome_iff_exists.mp hused
    refine List.ne_nil_of_mem (a := e) (List.reduceOption_mem_iff.mpr (List.mem_map.mpr ⟨x.1,?_,he⟩))
    exact hts ▸ List.mem_map_of_mem hx
  have hadvance : advance (ts.map fun t => t.entryAt p) (st.map Prod.snd) = (st.map (after (entered ts) p)).map Prod.snd := by
    rw [← advance_eq (p := p) hts,← hts,List.map_map]
    rfl
  simp only [walkTreeIterators]
  rw [hnext.trans (h.entries hts),if_neg hsome,hadvance]

theorem Turn.at_after (h : Turn st p) (hat : ∀ x ∈ st, At (entered ts) done x) :
    ∀ x ∈ st.map (after (entered ts) p), At (entered ts) (p::done) x := by
  intro x hx
  obtain ⟨y,hy,rfl⟩ := List.mem_map.mp hx
  exact (hat y hy).after (h.heads y hy)

/-- A path is yielded once. -/
theorem Turn.not_mem_after (h : Turn st p) {x : Tree × List BitIndexEntry} (hx : x ∈ st) (hat : At (entered ts) done x) :
    p.asBytes ∉ visitedKeys (entered ts) (after (entered ts) p x).2 := by
  intro hmem
  obtain ⟨e,he,hk⟩ := List.mem_map.mp hmem
  obtain ⟨he,hv⟩ := List.mem_filter.mp he
  have hat' := hat.after (h.heads x hx)
  have hpath := BitPath.asBytes_injective (hat'.frontier.normal e he) h.normal hk
  exact (hat'.pending e (hat'.sub he) hv).mp he (hpath ▸ List.mem_cons_self)

/-- Two iterators are even exactly if they are after a turn. -/
theorem Turn.even_iff (h : Turn st p) {x y : Tree × List BitIndexEntry} (hx : x ∈ st) (hy : y ∈ st)
    (hatx : At (entered ts) done x) (haty : At (entered ts) done y) :
    Join.Even (visitedKeys (entered ts) x.2) (visitedKeys (entered ts) y.2) ↔
      Join.Even (visitedKeys (entered ts) (after (entered ts) p x).2) (visitedKeys (entered ts) (after (entered ts) p y).2) := by
  have hkx := hatx.keys_after (h.heads x hx)
  have hky := haty.keys_after (h.heads y hy)
  have hnx := h.not_mem_after hx hatx
  have hny := h.not_mem_after hy haty
  have hpx := hatx.past h.normal (h.le x hx)
  have hpy := haty.past h.normal (h.le y hy)
  cases hsx : x.1.entryAt p with
  | some e =>
    rw [hsx,Option.isSome_some,if_pos rfl] at hkx
    cases hsy : y.1.entryAt p with
    | some e' =>
      rw [hsy,Option.isSome_some,if_pos rfl] at hky
      rw [hkx,hky]
      exact ⟨fun heven => Join.EvenOn.tail_tail heven hnx hny,fun heven => heven.cons_cons⟩
    | none =>
      rw [hsy,Option.isSome_none,if_neg (by simp)] at hky
      rw [hky] at hpy
      rw [hkx,hky]
      exact ⟨fun heven => Join.EvenOn.tail heven hnx (hpy hsy).2,fun heven => heven.cons (hpy hsy).1 (hpy hsy).2⟩
  | none =>
    rw [hsx,Option.isSome_none,if_neg (by simp)] at hkx
    rw [hkx] at hpx
    cases hsy : y.1.entryAt p with
    | some e' =>
      rw [hsy,Option.isSome_some,if_pos rfl] at hky
      rw [hkx,hky]
      refine ⟨fun heven => ?_,fun heven => (heven.symm.cons (hpx hsx).1 (hpx hsx).2).symm⟩
      exact (Join.EvenOn.tail heven.symm hny (hpx hsx).2).symm
    | none =>
      rw [hsy,Option.isSome_none,if_neg (by simp)] at hky
      rw [hkx,hky]

theorem Turn.all_even_iff (h : Turn st p) (hat : ∀ x ∈ st, At (entered ts) done x) :
    (∀ x ∈ st, ∀ y ∈ st, Join.Even (visitedKeys (entered ts) x.2) (visitedKeys (entered ts) y.2)) ↔
      ∀ x ∈ st.map (after (entered ts) p), ∀ y ∈ st.map (after (entered ts) p),
        Join.Even (visitedKeys (entered ts) x.2) (visitedKeys (entered ts) y.2) := by
  simp only [List.forall_mem_map]
  exact forall₂_congr fun x hx => forall₂_congr fun y hy => h.even_iff hx hy (hat x hx) (hat y hy)

theorem nothing_left (hts : st.map Prod.fst = ts) (hat : ∀ x ∈ st, At (entered ts) done x) (hempty : ∀ x ∈ st, x.2 = [])
    (p : BitPath) : ¬(p ∉ done ∧ visited (entered ts) p = true ∧ ∃ t ∈ ts, t.look p ≠ none) := by
  rintro ⟨hdone,hv,t,ht,hlook⟩
  obtain ⟨x,hx,rfl⟩ := List.mem_map.mp (hts ▸ ht)
  obtain ⟨e,he⟩ := Option.isSome_iff_exists.mp (Tree.entryAt_isSome.mpr hlook)
  obtain rfl := Tree.entryAt_path he
  have hmem := ((hat x hx).pending e ((hat x hx).order.mem_treeIter.mpr he) hv).mpr hdone
  simp [hempty x hx] at hmem

theorem empty_of_sum (h : (st.map fun x => x.2.length).sum ≤ 0) : ∀ x ∈ st, x.2 = [] := by
  intro x hx
  have hle := List.le_sum_of_mem (List.mem_map_of_mem (f := fun x : Tree × List BitIndexEntry => x.2.length) hx)
  exact List.length_eq_zero_iff.mp (by omega)

theorem walk_of_empty (hempty : ∀ iter ∈ st.map Prod.snd, iter = []) (fuel : ℕ) :
    walkTreeIterators fuel (st.map Prod.snd) = [] := by
  cases fuel with
  | zero => rfl
  | succ fuel =>
    have hnext : nextEntries (st.map Prod.snd) = (st.map Prod.snd).map fun _ => none := by
      rcases nextEntries_cases (st.map Prod.snd) with ⟨-,hnext⟩ | ⟨m,hleast,-⟩
      · exact hnext
      · obtain ⟨iter,hiter,e,he⟩ := hleast.mem
        simp [hempty iter hiter,headAt] at he
    have hnone : ((st.map Prod.snd).map fun _ : List BitIndexEntry => (none : Option BitIndexEntry)).reduceOption = [] := by
      simp [List.reduceOption]
    simp only [walkTreeIterators,hnext,hnone,if_true]

/-- If all iterators are even, every turn has the entries of one path. -/
theorem turn_of_even (hat : ∀ x ∈ st, At (entered ts) done x)
    (heven : ∀ x ∈ st, ∀ y ∈ st, Join.Even (visitedKeys (entered ts) x.2) (visitedKeys (entered ts) y.2))
    {m : Bytes} (hleast : IsLeast m (st.map Prod.snd)) : ∃ p, p.asBytes = m ∧ Turn st p ∧ p ∉ done ∧ visited (entered ts) p = true := by
  obtain ⟨iter,hiter,e,he⟩ := hleast.mem
  obtain ⟨y,hy,rfl⟩ := List.mem_map.mp hiter
  obtain ⟨hhead,rfl⟩ := headAt_eq_some.mp he
  obtain ⟨os,hos⟩ : ∃ os, y.2 = e::os := List.head?_eq_some_iff.mp hhead
  have hmem : e ∈ y.2 := hos ▸ List.mem_cons_self
  have hv : visited (entered ts) e.path = true := Frontier.head (hos ▸ (hat y hy).frontier : Frontier (entered ts) (e::os))
  have hle (x : Tree × List BitIndexEntry) (hx : x ∈ st) : ∀ z ∈ x.2.head?, e.path.asBytes ≤ z.path.asBytes :=
    hleast.le x.2 (List.mem_map_of_mem hx)
  refine ⟨e.path,rfl,⟨(hat y hy).frontier.normal e hmem,hle,fun x hx => ?_,y,hy,?_⟩,?_,hv⟩
  · exact (hat x hx).headAt_of_even (hat y hy) hos (hle x hx) (heven y hy x hx)
  · simp [(hat y hy).entry hmem]
  · exact ((hat y hy).pending e ((hat y hy).sub hmem) hv).mp hmem

/-- Even iterators are walked path by path. -/
theorem walk_of_even (fuel : ℕ) (hts : st.map Prod.fst = ts) (hat : ∀ x ∈ st, At (entered ts) done x)
    (heven : ∀ x ∈ st, ∀ y ∈ st, Join.Even (visitedKeys (entered ts) x.2) (visitedKeys (entered ts) y.2))
    (hfuel : (st.map fun x => x.2.length).sum ≤ fuel) :
    ∃ ps : List BitPath, ps.Nodup ∧ walkTreeIterators fuel (st.map Prod.snd) = ps.map (fun p => ts.map fun t => t.entryAt p) ∧
      ∀ p, p ∈ ps ↔ p ∉ done ∧ visited (entered ts) p = true ∧ ∃ t ∈ ts, t.look p ≠ none := by
  induction fuel generalizing st done with
  | zero =>
    exact ⟨[],List.nodup_nil,rfl,fun p => iff_of_false (by simp) (nothing_left hts hat (empty_of_sum hfuel) p)⟩
  | succ fuel ih =>
    rcases nextEntries_cases (st.map Prod.snd) with ⟨hempty,-⟩ | ⟨m,hleast,hnext⟩
    · have hnil : ∀ x ∈ st, x.2 = [] := fun x hx => hempty x.2 (List.mem_map_of_mem hx)
      exact ⟨[],List.nodup_nil,walk_of_empty hempty _,fun p => iff_of_false (by simp) (nothing_left hts hat hnil p)⟩
    · obtain ⟨p,rfl,hturn,hdone,hv⟩ := turn_of_even hat heven hleast
      have hsum := hturn.sum_lt (entered ts)
      obtain ⟨ps,hnodup,hwalk,hps⟩ := @ih (st.map (after (entered ts) p)) (p::done)
        (by rw [List.map_map]; exact hts) (hturn.at_after hat) ((hturn.all_even_iff hat).mp heven) (by omega)
      refine ⟨p::ps,List.nodup_cons.mpr ⟨fun hmem => ((hps p).mp hmem).1 List.mem_cons_self,hnodup⟩,?_,fun q => ?_⟩
      · rw [hturn.walk hts hnext,hwalk]
        rfl
      · have hlook : ∃ t ∈ ts, t.look p ≠ none := by
          obtain ⟨x,hx,hused⟩ := hturn.used
          exact ⟨x.1,hts ▸ List.mem_map_of_mem hx,Tree.entryAt_isSome.mp hused⟩
        rw [List.mem_cons,hps,List.mem_cons,not_or]
        by_cases hq : q = p
        · subst hq
          simp [hdone,hv,hlook]
        · simp [hq]

/-- An item that has the entries of one path is a turn. -/
theorem turn_of_item (hts : st.map Prod.fst = ts) (hat : ∀ x ∈ st, At (entered ts) done x) {m : Bytes}
    (hleast : IsLeast m (st.map Prod.snd)) (hitem : (st.map Prod.snd).map (headAt m) = ts.map fun t => t.entryAt p) :
    p.asBytes = m ∧ Turn st p := by
  rw [← hts,List.map_map,List.map_map,List.map_inj_left] at hitem
  obtain ⟨iter,hiter,e,he⟩ := hleast.mem
  obtain ⟨y,hy,rfl⟩ := List.mem_map.mp hiter
  have hey : y.1.entryAt p = some e := (hitem y hy).symm.trans he
  obtain rfl := Tree.entryAt_path hey
  obtain ⟨hhead,rfl⟩ := headAt_eq_some.mp he
  have hn := (hat y hy).frontier.normal e (List.mem_of_mem_head? hhead)
  exact ⟨rfl,hn,fun x hx => hleast.le x.2 (List.mem_map_of_mem hx),hitem,y,hy,by simp [hey]⟩

theorem even_of_empty (hempty : ∀ x ∈ st, x.2 = []) :
    ∀ x ∈ st, ∀ y ∈ st, Join.Even (visitedKeys (entered ts) x.2) (visitedKeys (entered ts) y.2) := by
  intro x hx y hy
  rw [hempty x hx]
  exact Join.Even.of_before fun n hn => by simp [visitedKeys] at hn

/-- Iterators that are walked path by path are even. -/
theorem even_of_walk (fuel : ℕ) (hts : st.map Prod.fst = ts) (hat : ∀ x ∈ st, At (entered ts) done x)
    (hfuel : (st.map fun x => x.2.length).sum ≤ fuel) {ps : List BitPath}
    (hwalk : walkTreeIterators fuel (st.map Prod.snd) = ps.map fun p => ts.map fun t => t.entryAt p) :
    ∀ x ∈ st, ∀ y ∈ st, Join.Even (visitedKeys (entered ts) x.2) (visitedKeys (entered ts) y.2) := by
  induction fuel generalizing st done ps with
  | zero => exact even_of_empty (empty_of_sum hfuel)
  | succ fuel ih =>
    rcases nextEntries_cases (st.map Prod.snd) with ⟨hempty,-⟩ | ⟨m,hleast,hnext⟩
    · exact even_of_empty fun x hx => hempty x.2 (List.mem_map_of_mem hx)
    · obtain ⟨iter,hiter,e,he⟩ := hleast.mem
      have hsome : (nextEntries (st.map Prod.snd)).reduceOption ≠ [] := by
        rw [hnext]
        exact List.ne_nil_of_mem (List.reduceOption_mem_iff.mpr (List.mem_map.mpr ⟨iter,hiter,he⟩))
      have hfirst := hwalk
      simp only [walkTreeIterators,if_neg hsome] at hfirst
      obtain ⟨p,ps,rfl,hitem,-⟩ := List.map_eq_cons_iff.mp hfirst.symm
      obtain ⟨rfl,hturn⟩ := turn_of_item hts hat hleast (hnext.symm.trans hitem.symm)
      rw [hturn.walk hts hnext,List.map_cons,List.cons_inj_right] at hwalk
      have hsum := hturn.sum_lt (entered ts)
      refine (hturn.all_even_iff hat).mpr (ih ?_ (hturn.at_after hat) (by omega) hwalk)
      rw [List.map_map]
      exact hts

end Run

section Start
variable {ts : List Tree}

/-- Every tree with its iterator at the root. -/
def start (ts : List Tree) : List (Tree × List BitIndexEntry) := ts.map fun t => (t,treeIter (.tree t))

theorem at_start (h : ∀ t ∈ ts, t.GitOrder) : ∀ x ∈ start ts, At (entered ts) [] x := by
  intro x hx
  obtain ⟨t,ht,rfl⟩ := List.mem_map.mp hx
  exact ⟨h t ht,(h t ht).frontier _,fun _ he => he,fun e he _ => by simp [he]⟩

theorem even_start : Even ts ↔
    ∀ x ∈ start ts, ∀ y ∈ start ts, Join.Even (visitedKeys (entered ts) x.2) (visitedKeys (entered ts) y.2) := by
  simp only [Even,start,List.forall_mem_map]

theorem walkTrees_start : walkTrees ts =
    walkTreeIterators ((start ts).map fun x => x.2.length).sum ((start ts).map Prod.snd) := by
  simp only [walkTrees,start,List.map_map]
  rfl

theorem start_fst : (start ts).map Prod.fst = ts := by simp [start,Function.comp_def]

/-- The walk is exact if and only if the trees are even. -/
theorem walkTrees_exact_iff (h : ∀ t ∈ ts, t.GitOrder) : Exact ts ↔ Even ts := by
  rw [even_start,Exact,walkTrees_start]
  constructor
  · rintro ⟨ps,-,hwalk,-⟩
    exact even_of_walk _ start_fst (at_start h) le_rfl hwalk
  · intro heven
    obtain ⟨ps,hnodup,hwalk,hps⟩ := walk_of_even _ start_fst (at_start h) heven le_rfl
    exact ⟨ps,hnodup,hwalk,fun p => by simp [hps]⟩

/-- Both trees have `d-`, which is listed before `d`. -/
theorem walkTrees_exact_iff_beside :
    Exact [Tree.besideDir [120] (.leaf [100,45] (.REG,[2])),Tree.besideDir [121] (.leaf [100,45] (.EXEC,[3]))] :=
  (walkTrees_exact_iff (by decide)).mpr (by decide)

/-- Only one tree has `d-`: then `d` comes twice, once for each tree. -/
theorem walkTrees_uneven : ∃ t t' : Tree, t.WellFormed ∧ t'.WellFormed ∧ (∀ x ∈ [t,t'], x.GitOrder) ∧ ¬Exact [t,t'] := by
  refine ⟨Tree.besideDir [120] (.leaf [100,45] (.REG,[2])),Tree.besideDir [120] id,by decide,by decide,by decide,?_⟩
  rintro ⟨ps,-,hwalk,-⟩
  have hitem : [none,some (.ofTreeEntry ⟨.TREE,[[100]],.tree (.leaf [120] (.REG,[1]) .nil)⟩)] ∈
      walkTrees [Tree.besideDir [120] (.leaf [100,45] (.REG,[2])),Tree.besideDir [120] id] := by decide
  rw [hwalk] at hitem
  obtain ⟨p,-,hp⟩ := List.mem_map.mp hitem
  obtain ⟨hnone,hsome⟩ : (Tree.besideDir [120] (.leaf [100,45] (.REG,[2]))).entryAt p = none ∧
      (Tree.besideDir [120] id).entryAt p = some (.ofTreeEntry ⟨.TREE,[[100]],.tree (.leaf [120] (.REG,[1]) .nil)⟩) := by
    simpa using hp
  obtain rfl := Tree.entryAt_path hsome
  exact absurd hnone (by decide)

end Start

end Walk
end Libbit
