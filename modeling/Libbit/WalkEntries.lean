import Libbit.StepOver
import Libbit.WalkExact

/-! The walk over the files of any number of trees (`iter.rs`, `iter/walk.rs`). A tree in git's order has its files in
the order of the bytes of their paths, so that the walk is the outer join of what the trees hold. -/
namespace Libbit
namespace Iterators

open Lib

variable {σ : Type}

/-- `TreeEntryIter` yields no trees. -/
def TreeEntryIter.next (fuel : ℕ) : EStateM IterError TreeIter (Option BitIndexEntry) :=
  Filter.seek (fun entry => !entry.isTree) TreeIter.next fuel

/-- `Peekable`, with the item that was looked at. -/
structure Peekable (σ : Type) where
  it : σ
  peeked : Option BitIndexEntry
  deriving DecidableEq, Repr

namespace Peekable
variable (method : EStateM IterError σ (Option BitIndexEntry))

def new (it : σ) : Peekable σ := ⟨it,none⟩

/-- `next` of the iterator below. -/
def below (iter : Peekable σ) : EStateM.Result IterError (Peekable σ) (Option BitIndexEntry) :=
  match method iter.it with
  | .ok entry it => .ok entry {iter with it := it}
  | .error e it => .error e {iter with it := it}

def next : EStateM IterError (Peekable σ) (Option BitIndexEntry) := do
  let iter ← get
  match iter.peeked with
  | some peeked => do
    set {iter with peeked := none}
    pure (some peeked)
  | none => below method

def peek : EStateM IterError (Peekable σ) (Option BitIndexEntry) := do
  let iter ← get
  match iter.peeked with
  | some peeked => pure (some peeked)
  | none => do
    let peeked ← below method
    modify fun iter => {iter with peeked := peeked}
    pure peeked

end Peekable

/-- A loop over the iterators, each of which has its own state. -/
def forIter {β : Type} (f : β → EStateM IterError σ β) : β → List σ → EStateM.Result IterError (List σ) β
  | b, [] => .ok b []
  | b, s::iters =>
    match f b s with
    | .error e t => .error e (t::iters)
    | .ok b t =>
      match forIter f b iters with
      | .ok b iters => .ok b (t::iters)
      | .error e iters => .error e (t::iters)

namespace WalkIterators

/-- What `walk_common!` keeps while it goes over the iterators. -/
structure Found where
  /-- Of the iterators seen so far. -/
  nextEntries : List (Option BitIndexEntry)
  firstMatch : Option BitIndexEntry
  deriving DecidableEq, Repr

def Found.turn (found : Found) : Option BitIndexEntry → Found
  | none => {found with nextEntries := found.nextEntries++[none]}
  | some entry =>
    match found.firstMatch with
    | none => ⟨found.nextEntries++[some entry],some entry⟩
    | some fstEntry =>
      match entry.diffCmp fstEntry with
      -- an entry that comes earlier: the entries so far are forgotten
      | .lt => ⟨found.nextEntries.map (fun _ => none)++[some entry],some entry⟩
      | .eq => {found with nextEntries := found.nextEntries++[some entry]}
      | .gt => {found with nextEntries := found.nextEntries++[none]}

variable (method : EStateM IterError σ (Option BitIndexEntry))

def lookAt (found : Found) : EStateM IterError (Peekable σ) Found := do
  let entry ← Peekable.peek method
  pure (found.turn entry)

/-- Advance the iterator that is in turn if it was used. -/
def advanceUsed (entries : List (Option BitIndexEntry)) : EStateM IterError (Peekable σ) (List (Option BitIndexEntry)) :=
  match entries with
  | some _::entries => do
    let _ ← Peekable.next method
    pure entries
  | _ => pure entries.tail

def assertExhausted (_ : Unit) : EStateM IterError (Peekable σ) Unit := do
  let entry ← Peekable.next method
  assertThat "iter.next()?.is_none()" (entry = none)

/-- `WalkIterators::next` -/
def next : EStateM IterError (List (Peekable σ)) (Option (List (Option BitIndexEntry))) := do
  let found ← forIter (lookAt method) ⟨[],none⟩
  if found.firstMatch.isNone then do
    forIter (assertExhausted method) ()
    pure none
  else do
    let _ ← forIter (advanceUsed method) found.nextEntries
    pure (some found.nextEntries)

end WalkIterators

/-! ### The iterators -/

/-- The file of a tree at a path. -/
def fileEntry (t : Tree) (p : BitPath) : Option BitIndexEntry :=
  match t.look p with
  | some (some a) => some (.ofTreeEntry ⟨.blob a.1,p,.blob a.2⟩)
  | _ => none

namespace TreeEntryIter
variable {iter : TreeIter} {l : List BitIndexEntry} {fuel : ℕ}

/-- What is left of the tree, without the directories. -/
def Holds (fuel : ℕ) (iter : TreeIter) (l : List BitIndexEntry) : Prop :=
  ∃ m, iter.Holds m ∧ l = m.filter (fun entry => !entry.isTree) ∧ m.length < fuel

theorem Holds.next (h : Holds fuel iter l) : ∃ t, next fuel iter = .ok l.head? t ∧ Holds fuel t l.tail := by
  obtain ⟨m,hm,rfl,hlen⟩ := h
  exact Filter.seek_next TreeIter.implements.next fuel hm hlen

theorem holds_new {t : Tree} (ht : t.Distinct) (hfuel : (treeIter (.tree t)).length < fuel) :
    Holds fuel (.new (.tree t)) (treeEntryIter (.tree t)) := ⟨_,TreeIter.holds_new ht (Oid.tree_ne_blob _),rfl,hfuel⟩

end TreeEntryIter

/-! ### The files of one tree -/

theorem ordered_of_gitOrder {t : Tree} (h : t.GitOrder) : t.Ordered := by
  induction t with
  | nil => trivial
  | leaf n a rest ih => exact ⟨fun y hy => (h.2.1 y hy).1,ih h.2.2⟩
  | node n sub rest ihs ihr => exact ⟨fun y hy => (h.2.1 y hy).1,ihs h.2.2.1,ihr h.2.2.2⟩

/-- Entries in the order of their paths, each path once. -/
def Sorted (l : List BitIndexEntry) : Prop := l.Pairwise fun x y => x.path.asBytes < y.path.asBytes

theorem treeEntryIter_sorted {t : Tree} (ht : t.GitOrder) : Sorted (treeEntryIter (.tree t)) := by
  rw [Sorted,treeEntryIter_flatten,List.pairwise_map]
  exact (ordered_of_gitOrder ht).flatten_sorted []

theorem mem_treeEntryIter {t : Tree} (ht : t.GitOrder) {e : BitIndexEntry} :
    e ∈ treeEntryIter (.tree t) ↔ fileEntry t e.path = some e := by
  rw [treeEntryIter,List.mem_filter,ht.mem_treeIter,Tree.entryAt,fileEntry]
  cases t.look e.path with
  | none => simp
  | some x =>
    cases x with
    | some a =>
      refine and_iff_left_of_imp fun h => ?_
      rw [← Option.some.inj h]
      rfl
    | none =>
      simp only [reduceCtorEq,iff_false,not_and]
      intro h
      obtain ⟨s,-,hs⟩ := Option.map_eq_some_iff.mp h
      rw [← hs]
      exact Bool.false_ne_true

theorem normal_of_fileEntry {t : Tree} (ht : t.GitOrder) {p : BitPath} (h : (fileEntry t p).isSome) : p.Normal := by
  refine ht.names.of_look fun hnone => ?_
  simp [fileEntry,hnone] at h

/-! ### The least path among the heads -/

namespace WalkIterators
open Walk
variable {m m' : Bytes} {l : List BitIndexEntry} {e : BitIndexEntry}

/-- What is left of an iterator once the path with these bytes was yielded. -/
def past (m : Bytes) (l : List BitIndexEntry) : List BitIndexEntry := if (headAt m l).isSome then l.tail else l

def atKey (m : Bytes) (l : List BitIndexEntry) : Option BitIndexEntry := l.find? fun e => e.path.asBytes = m

theorem headAt_eq (hs : Sorted l) (hle : ∀ e ∈ l.head?, m ≤ e.path.asBytes) : headAt m l = atKey m l := by
  cases l with
  | nil => rfl
  | cons e l =>
    by_cases he : e.path.asBytes = m
    · simp [headAt,atKey,he]
    · have hlt : m < e.path.asBytes := lt_of_le_of_ne (hle e rfl) (Ne.symm he)
      have hnone : ∀ x ∈ l, x.path.asBytes ≠ m := fun x hx => (hlt.trans ((List.pairwise_cons.mp hs).1 x hx)).ne'
      have hfind : atKey m l = none := List.find?_eq_none.mpr fun x hx => by simpa using hnone x hx
      rw [atKey,List.find?_cons_of_neg (by simpa using he)]
      exact (by simp [headAt,he] : headAt m (e::l) = none).trans hfind.symm

theorem past_sublist (m : Bytes) (l : List BitIndexEntry) : (past m l).Sublist l := by
  rw [past]
  split
  · exact List.tail_sublist l
  · exact List.Sublist.refl l

/-- The path that was yielded is gone, and no other. -/
theorem mem_past (hs : Sorted l) (hle : ∀ e ∈ l.head?, m ≤ e.path.asBytes) :
    e ∈ past m l ↔ e ∈ l ∧ m < e.path.asBytes := by
  cases l with
  | nil => simp [past]
  | cons x l =>
    have hx := hle x rfl
    have hrest : ∀ y ∈ l, m < y.path.asBytes := fun y hy => lt_of_le_of_lt hx ((List.pairwise_cons.mp hs).1 y hy)
    by_cases he : x.path.asBytes = m
    · have hpast : past m (x::l) = l := by simp [past,headAt,he]
      rw [hpast,List.mem_cons,or_and_right]
      constructor
      · exact fun h => .inr ⟨h,hrest e h⟩
      · rintro (⟨rfl,hlt⟩ | h)
        · exact absurd he hlt.ne'
        · exact h.1
    · have hpast : past m (x::l) = x::l := by simp [past,headAt,he]
      rw [hpast]
      refine (and_iff_left_of_imp fun h => ?_).symm
      rcases List.mem_cons.mp h with rfl | h
      · exact lt_of_le_of_ne hx (Ne.symm he)
      · exact hrest e h

/-- Entries in order are found by their paths. -/
theorem atKey_eq_some (hs : Sorted l) : atKey m l = some e ↔ e ∈ l ∧ e.path.asBytes = m := by
  induction l with
  | nil => simp [atKey]
  | cons x l ih =>
    obtain ⟨hx,hl⟩ := List.pairwise_cons.mp hs
    by_cases hm : x.path.asBytes = m
    · rw [atKey,List.find?_cons_of_pos (by simpa using hm),Option.some.injEq]
      constructor
      · rintro rfl
        exact ⟨List.mem_cons_self,hm⟩
      · rintro ⟨he,hem⟩
        rcases List.mem_cons.mp he with rfl | he
        · rfl
        · exact absurd (hm.trans hem.symm) (hx e he).ne
    · rw [atKey,List.find?_cons_of_neg (by simpa using hm)]
      refine (ih hl).trans (and_congr_left fun hem => ?_)
      rw [List.mem_cons,or_iff_right]
      rintro rfl
      exact hm hem

theorem atKey_past (hs : Sorted l) (hle : ∀ e ∈ l.head?, m ≤ e.path.asBytes) (hlt : m < m') :
    atKey m' (past m l) = atKey m' l := by
  refine Option.ext fun e => ?_
  rw [atKey_eq_some (hs.sublist (past_sublist m l)),atKey_eq_some hs,mem_past hs hle]
  refine and_congr_left fun hem => and_iff_left ?_
  rwa [hem]

/-! ### One turn of the walk -/

/-- The first match is the first of the entries found. -/
def Found.of (entries : List (Option BitIndexEntry)) : Found := ⟨entries,entries.reduceOption.head?⟩

theorem Found.turn_of (entries : List (Option BitIndexEntry)) (l : List BitIndexEntry) :
    (of entries).turn l.head? = of (takeHead entries l) := by
  cases l with
  | nil => simp [turn,takeHead,of,List.reduceOption_append]
  | cons e l =>
    cases hfirst : entries.reduceOption.head? with
    | none =>
      have hnone : entries.reduceOption = [] := List.head?_eq_none_iff.mp hfirst
      simp [turn,takeHead,of,List.reduceOption_append,hnone]
    | some first =>
      cases hcmp : e.diffCmp first <;>
        simp [turn,takeHead,of,hfirst,hcmp,List.reduceOption_append]

section
variable {method : EStateM IterError σ (Option BitIndexEntry)} {R : σ → List BitIndexEntry → Prop}

/-- The item that was looked at, if any, comes before what the iterator below has left. -/
def Peeked (R : σ → List BitIndexEntry → Prop) (iter : Peekable σ) (l : List BitIndexEntry) : Prop :=
  ∃ m, R iter.it m ∧ l = iter.peeked.toList++m

variable (h : ∀ s l, R s l → ∃ t, method s = .ok l.head? t ∧ R t l.tail)
include h

theorem next_spec (iter : Peekable σ) (l : List BitIndexEntry) (hl : Peeked R iter l) :
    ∃ t, Peekable.next method iter = .ok l.head? t ∧ Peeked R t l.tail := by
  obtain ⟨s,peeked⟩ := iter
  obtain ⟨m,hm,rfl⟩ := hl
  cases peeked with
  | some e => exact ⟨⟨s,none⟩,rfl,m,hm,rfl⟩
  | none =>
    obtain ⟨t,ht,hrt⟩ := h s m hm
    refine ⟨⟨t,none⟩,?_,_,hrt,rfl⟩
    simp only [Peekable.next,run_getBind,Peekable.below,ht]
    rfl

theorem peek_spec (iter : Peekable σ) (l : List BitIndexEntry) (hl : Peeked R iter l) :
    ∃ t, Peekable.peek method iter = .ok l.head? t ∧ Peeked R t l := by
  obtain ⟨s,peeked⟩ := iter
  obtain ⟨m,hm,rfl⟩ := hl
  cases peeked with
  | some e => exact ⟨⟨s,some e⟩,rfl,m,hm,rfl⟩
  | none =>
    obtain ⟨t,ht,hrt⟩ := h s m hm
    have hbelow : Peekable.below method ⟨s,none⟩ = .ok m.head? ⟨t,none⟩ := by
      simp only [Peekable.below,ht]
    refine ⟨⟨t,m.head?⟩,?_,_,hrt,by cases m <;> rfl⟩
    simp only [Peekable.peek,run_getBind]
    rw [bind_of_ok hbelow]
    rfl

end

/-- A loop whose turns are those of a fold over what the iterators stand for. -/
theorem forIter_run {β : Type} {f : β → EStateM IterError σ β} {R R' : σ → List BitIndexEntry → Prop}
    {g : β → List BitIndexEntry → β} {its : List σ} {ls : List (List BitIndexEntry)} (h : List.Forall₂ R its ls)
    (hf : ∀ b s l, l ∈ ls → R s l → ∃ t, f b s = .ok (g b l) t ∧ R' t l) (b : β) :
    ∃ ts, forIter f b its = .ok (ls.foldl g b) ts ∧ List.Forall₂ R' ts ls := by
  induction h generalizing b with
  | nil => exact ⟨[],rfl,.nil⟩
  | @cons s l its ls hsl _ ih =>
    obtain ⟨t,ht,hrt⟩ := hf b s l List.mem_cons_self hsl
    obtain ⟨ts,hts,hrts⟩ := ih (fun b s m hm => hf b s m (List.mem_cons_of_mem _ hm)) (g b l)
    refine ⟨t::ts,?_,.cons hrt hrts⟩
    simp only [forIter,ht,hts,List.foldl_cons]

/-! ### The whole walk -/

variable {method : EStateM IterError σ (Option BitIndexEntry)} {R : σ → List BitIndexEntry → Prop} {its : List (Peekable σ)}
  {ls : List (List BitIndexEntry)}

theorem foldl_turn (ls : List (List BitIndexEntry)) (entries : List (Option BitIndexEntry)) :
    ls.foldl (fun found l => found.turn l.head?) (Found.of entries) = Found.of (ls.foldl takeHead entries) := by
  induction ls generalizing entries with
  | nil => rfl
  | cons l ls ih => rw [List.foldl_cons,List.foldl_cons,Found.turn_of,ih]

variable (h : ∀ s l, R s l → ∃ t, method s = .ok l.head? t ∧ R t l.tail) (hR : List.Forall₂ (Peeked R) its ls)
include h hR

theorem walkCommon_run : ∃ ts, forIter (lookAt method) ⟨[],none⟩ its = .ok (Found.of (nextEntries ls)) ts ∧
    List.Forall₂ (Peeked R) ts ls := by
  have hlook : ∀ found s l, l ∈ ls → Peeked R s l → ∃ t, lookAt method found s = .ok (found.turn l.head?) t ∧ Peeked R t l := by
    intro found s l _ hl
    obtain ⟨t,ht,hrt⟩ := peek_spec h s l hl
    exact ⟨t,(bind_of_ok ht).trans rfl,hrt⟩
  have hrun := forIter_run hR hlook (Found.of [])
  rwa [foldl_turn] at hrun

theorem advance_run (m : Bytes) : ∃ ts, forIter (advanceUsed method) (ls.map (headAt m)) its = .ok [] ts ∧
    List.Forall₂ (Peeked R) ts (ls.map (past m)) := by
  induction hR with
  | nil => exact ⟨[],rfl,.nil⟩
  | @cons s l its ls hsl _ ih =>
    obtain ⟨ts,hts,hrts⟩ := ih
    have hturn : ∃ t, advanceUsed method (headAt m l::ls.map (headAt m)) s = .ok (ls.map (headAt m)) t ∧ Peeked R t (past m l) := by
      cases hhead : headAt m l with
      | none => exact ⟨s,rfl,by simpa [past,hhead] using hsl⟩
      | some e =>
        obtain ⟨t,ht,hrt⟩ := next_spec h s l hsl
        exact ⟨t,(bind_of_ok ht).trans rfl,by simpa [past,hhead] using hrt⟩
    obtain ⟨t,ht,hrt⟩ := hturn
    refine ⟨t::ts,?_,.cons hrt hrts⟩
    simp only [forIter,List.map_cons,ht,hts]

/-- At the end each iterator says so once more. -/
theorem next_of_empty (hempty : ∀ l ∈ ls, l = []) (heq : nextEntries ls = ls.map fun _ => none) :
    ∃ ts, next method its = .ok none ts := by
  obtain ⟨ts,hts,hrts⟩ := walkCommon_run h hR
  have hassert : ∀ (b : Unit) s l, l ∈ ls → Peeked R s l → ∃ t, assertExhausted method b s = .ok () t ∧ Peeked R t l.tail := by
    intro b s l hl hsl
    obtain ⟨t,ht,hrt⟩ := next_spec h s l hsl
    rw [hempty l hl] at ht
    exact ⟨t,(bind_of_ok ht).trans rfl,hrt⟩
  obtain ⟨us,hus,-⟩ := forIter_run (g := fun _ _ => ()) hrts hassert ()
  have hfirst : (Found.of (nextEntries ls)).firstMatch.isNone = true := by
    rw [heq]
    simp [Found.of,List.reduceOption,List.filterMap_map]
  refine ⟨us,?_⟩
  rw [next,bind_of_ok hts]
  simp only [hfirst,if_true]
  exact (bind_of_ok hus).trans rfl

theorem next_of_least {m : Bytes} (heq : nextEntries ls = ls.map (headAt m)) (hleast : IsLeast m ls) :
    ∃ ts, next method its = .ok (some (ls.map (headAt m))) ts ∧ List.Forall₂ (Peeked R) ts (ls.map (past m)) := by
  obtain ⟨ts,hts,hrts⟩ := walkCommon_run h hR
  obtain ⟨us,hus,hrus⟩ := advance_run h hrts m
  refine ⟨us,?_,hrus⟩
  have hfirst : (Found.of (nextEntries ls)).firstMatch.isNone = false := by
    obtain ⟨l,hl,e,he⟩ := hleast.mem
    have hmem : some e ∈ nextEntries ls := by
      rw [heq]
      exact List.mem_map.mpr ⟨l,hl,he⟩
    have hne : (nextEntries ls).reduceOption ≠ [] := List.ne_nil_of_mem (List.reduceOption_mem_iff.mpr hmem)
    rw [Found.of,Option.isNone_eq_false_iff,List.isSome_head?]
    simpa using hne
  rw [next,bind_of_ok hts]
  simp only [hfirst,Bool.false_eq_true,if_false]
  rw [Found.of,heq]
  exact (bind_of_ok hus).trans rfl

/-- The walk joins the lists path by path. -/
theorem walk_yields {n : ℕ} (hlen : (ls.map List.length).sum < n) (hs : ∀ l ∈ ls, Sorted l) :
    ∃ ms : List Bytes, Enumerates (next method) its (ms.map fun m => ls.map (atKey m)) ∧ ms.Pairwise (· < ·) ∧
      ∀ m, m ∈ ms ↔ ∃ l ∈ ls, ∃ e ∈ l, e.path.asBytes = m := by
  induction n generalizing its ls with
  | zero => exact absurd hlen (Nat.not_lt_zero _)
  | succ n ih =>
    rcases nextEntries_cases ls with ⟨hempty,heq⟩ | ⟨m,hleast,heq⟩
    · obtain ⟨ts,hts⟩ := next_of_empty h hR hempty heq
      refine ⟨[],.nil hts,List.Pairwise.nil,fun m => iff_of_false (List.not_mem_nil) ?_⟩
      rintro ⟨l,hl,e,he,-⟩
      rw [hempty l hl] at he
      cases he
    · obtain ⟨ts,hts,hrts⟩ := next_of_least h hR heq hleast
      have hle : ∀ l ∈ ls, ∀ e ∈ l.head?, m ≤ e.path.asBytes := hleast.le
      have hless : ((ls.map (past m)).map List.length).sum < (ls.map List.length).sum := by
        rw [List.map_map]
        refine List.sum_lt_sum _ _ (fun l _ => (past_sublist m l).length_le) ?_
        obtain ⟨l,hl,e,he⟩ := hleast.mem
        refine ⟨l,hl,?_⟩
        obtain ⟨hhead,-⟩ := headAt_eq_some.mp he
        have hne : l ≠ [] := fun hnil => by simp [hnil] at hhead
        simp [past,he,List.length_pos_iff.mpr hne]
      have hsorted : ∀ l ∈ ls.map (past m), Sorted l := by
        intro l' hl'
        obtain ⟨l,hl,rfl⟩ := List.mem_map.mp hl'
        exact (hs l hl).sublist (past_sublist m l)
      obtain ⟨ms,hyields,hms,hmem⟩ := ih hrts (by omega) hsorted
      have hpast : ∀ m', m' ∈ ms ↔ m < m' ∧ ∃ l ∈ ls, ∃ e ∈ l, e.path.asBytes = m' := by
        intro m'
        rw [hmem]
        constructor
        · rintro ⟨l',hl',e,he,rfl⟩
          obtain ⟨l,hl,rfl⟩ := List.mem_map.mp hl'
          obtain ⟨he,hlt⟩ := (mem_past (hs l hl) (hle l hl)).mp he
          exact ⟨hlt,l,hl,e,he,rfl⟩
        · rintro ⟨hlt,l,hl,e,he,rfl⟩
          exact ⟨_,List.mem_map_of_mem hl,e,(mem_past (hs l hl) (hle l hl)).mpr ⟨he,hlt⟩,rfl⟩
      refine ⟨m::ms,?_,List.pairwise_cons.mpr ⟨fun m' hm' => ((hpast m').mp hm').1,hms⟩,fun m' => ?_⟩
      · have hitem : ls.map (headAt m) = ls.map (atKey m) := List.map_congr_left fun l hl => headAt_eq (hs l hl) (hle l hl)
        have hrest : (ms.map fun m' => (ls.map (past m)).map (atKey m')) = ms.map fun m' => ls.map (atKey m') := by
          refine List.map_congr_left fun m' hm' => ?_
          rw [List.map_map]
          exact List.map_congr_left fun l hl => atKey_past (hs l hl) (hle l hl) ((hpast m').mp hm').1
        rw [hrest] at hyields
        rw [hitem] at hts
        exact .cons hts hyields
      · rw [List.mem_cons,hpast]
        constructor
        · rintro (rfl | ⟨-,hm'⟩)
          · obtain ⟨l,hl,e,he⟩ := hleast.mem
            obtain ⟨hhead,hem⟩ := headAt_eq_some.mp he
            exact ⟨l,hl,e,List.mem_of_mem_head? hhead,hem⟩
          · exact hm'
        · rintro ⟨l,hl,e,he,rfl⟩
          refine (eq_or_lt_of_le ?_).imp Eq.symm fun hlt => ⟨hlt,l,hl,e,he,rfl⟩
          -- the least of the heads comes first
          cases l with
          | nil => cases he
          | cons x l =>
            have hx := hle _ hl x rfl
            rcases List.mem_cons.mp he with rfl | he
            · exact hx
            · exact hx.trans ((List.pairwise_cons.mp (hs _ hl)).1 e he).le

end WalkIterators
theorem atKey_treeEntryIter {t : Tree} (ht : t.GitOrder) {p : BitPath} (hp : p.Normal) :
    WalkIterators.atKey p.asBytes (treeEntryIter (.tree t)) = fileEntry t p := by
  refine Option.ext fun e => ?_
  rw [WalkIterators.atKey_eq_some (treeEntryIter_sorted ht),mem_treeEntryIter ht]
  constructor
  · rintro ⟨he,hbytes⟩
    obtain rfl := BitPath.asBytes_injective (normal_of_fileEntry ht (by simp [he])) hp hbytes
    exact he
  · intro he
    have hpath : e.path = p := by
      rw [fileEntry] at he
      split at he
      · rw [← Option.some.inj he]
        rfl
      · cases he
    exact ⟨hpath.symm ▸ he,congrArg BitPath.asBytes hpath⟩

/-- Each iterator over the files of a tree yields them in the order of their paths, and the walk over them yields each
path of any of the trees once, in order, with what each tree has there. -/
theorem walkIterators_outer_join (ts : List Tree) (h : ∀ t ∈ ts, t.GitOrder) (fuel : ℕ)
    (hfuel : ∀ t ∈ ts, (treeIter (.tree t)).length < fuel) :
    (∀ t ∈ ts, ∃ l, Enumerates (TreeEntryIter.next fuel) (.new (.tree t)) l ∧
      l.Pairwise (fun x y => x.path.asBytes < y.path.asBytes) ∧ ∀ e, e ∈ l ↔ fileEntry t e.path = some e) ∧
    ∃ ps : List BitPath,
      Enumerates (WalkIterators.next (TreeEntryIter.next fuel)) (ts.map fun t => .new (.new (.tree t)))
        (ps.map fun p => ts.map fun t => fileEntry t p) ∧
      ps.Pairwise (fun p q => p.asBytes < q.asBytes) ∧ ∀ p, p ∈ ps ↔ ∃ t ∈ ts, (fileEntry t p).isSome := by
  have hnext : ∀ s l, TreeEntryIter.Holds fuel s l → ∃ t, TreeEntryIter.next fuel s = .ok l.head? t ∧
      TreeEntryIter.Holds fuel t l.tail := fun _ _ hl => hl.next
  have hnew : ∀ t ∈ ts, TreeEntryIter.Holds fuel (.new (.tree t)) (treeEntryIter (.tree t)) := fun t ht =>
    TreeEntryIter.holds_new (h t ht).distinct (hfuel t ht)
  refine ⟨fun t ht => ?_,?_⟩
  · exact ⟨_,.of_step hnext (hnew t ht),treeEntryIter_sorted (h t ht),fun e => mem_treeEntryIter (h t ht)⟩
  · have hR : List.Forall₂ (WalkIterators.Peeked (TreeEntryIter.Holds fuel)) (ts.map fun t => .new (.new (.tree t)))
        (ts.map fun t => treeEntryIter (.tree t)) := by
      rw [List.forall₂_map_left_iff,List.forall₂_map_right_iff]
      exact List.forall₂_same.mpr fun t ht => ⟨_,hnew t ht,rfl⟩
    have hsorted : ∀ l ∈ ts.map (fun t => treeEntryIter (.tree t)), Sorted l := by
      intro l hl
      obtain ⟨t,ht,rfl⟩ := List.mem_map.mp hl
      exact treeEntryIter_sorted (h t ht)
    obtain ⟨ms,hyields,hms,hmem⟩ := WalkIterators.walk_yields hnext hR (Nat.lt_succ_self _) hsorted
    -- every key is that of a path of one of the trees
    have hpath : ∀ m ∈ ms, ∃ p : BitPath, p.asBytes = m ∧ ∃ t ∈ ts, (fileEntry t p).isSome := by
      intro m hm
      obtain ⟨l,hl,e,he,rfl⟩ := (hmem m).mp hm
      obtain ⟨t,ht,rfl⟩ := List.mem_map.mp hl
      exact ⟨e.path,rfl,t,ht,by simp [(mem_treeEntryIter (h t ht)).mp he]⟩
    choose! pathOf hbytes hfile using hpath
    have hback : ms = (ms.map pathOf).map BitPath.asBytes := by
      rw [List.map_map]
      exact (List.map_id ms).symm.trans (List.map_congr_left fun m hm => (hbytes m hm).symm)
    have hnormal {p : BitPath} (hp : ∃ t ∈ ts, (fileEntry t p).isSome) : p.Normal := by
      obtain ⟨t,ht,hsome⟩ := hp
      exact normal_of_fileEntry (h t ht) hsome
    refine ⟨ms.map pathOf,?_,?_,fun p => ⟨fun hp => ?_,fun hp => ?_⟩⟩
    · have hitems : (ms.map fun m => (ts.map fun t => treeEntryIter (.tree t)).map (WalkIterators.atKey m)) =
          (ms.map pathOf).map fun p => ts.map fun t => fileEntry t p := by
        rw [List.map_map]
        refine List.map_congr_left fun m hm => ?_
        rw [List.map_map]
        refine List.map_congr_left fun t ht => ?_
        change WalkIterators.atKey m (treeEntryIter (.tree t)) = fileEntry t (pathOf m)
        rw [← atKey_treeEntryIter (h t ht) (hnormal (hfile m hm)),hbytes m hm]
      rwa [hitems] at hyields
    · rw [hback] at hms
      exact List.pairwise_map.mp hms
    · obtain ⟨m,hm,rfl⟩ := List.mem_map.mp hp
      exact hfile m hm
    · obtain ⟨t,ht,hsome⟩ := hp
      obtain ⟨e,he⟩ := Option.isSome_iff_exists.mp hsome
      have hkey := (WalkIterators.atKey_eq_some (treeEntryIter_sorted (h t ht))).mp
        ((atKey_treeEntryIter (h t ht) (hnormal ⟨t,ht,hsome⟩)).trans he)
      have hm : p.asBytes ∈ ms := (hmem _).mpr ⟨_,List.mem_map_of_mem ht,e,hkey.1,hkey.2⟩
      have hp : pathOf p.asBytes = p :=
        BitPath.asBytes_injective (hnormal (hfile _ hm)) (hnormal ⟨t,ht,hsome⟩) (hbytes _ hm)
      exact hp ▸ List.mem_map_of_mem hm

/-- The files `a-` and `a/b` beside a file `a`. -/
theorem walkIterators_outer_join_dash :
    (∀ t ∈ [dashTree,.leaf [97] (.REG,[4]) .nil], ∃ l, Enumerates (TreeEntryIter.next 5) (.new (.tree t)) l ∧
      l.Pairwise (fun x y => x.path.asBytes < y.path.asBytes) ∧ ∀ e, e ∈ l ↔ fileEntry t e.path = some e) ∧
    ∃ ps : List BitPath,
      Enumerates (WalkIterators.next (TreeEntryIter.next 5))
        ([dashTree,.leaf [97] (.REG,[4]) .nil].map fun t => .new (.new (.tree t)))
        (ps.map fun p => [dashTree,.leaf [97] (.REG,[4]) .nil].map fun t => fileEntry t p) ∧
      ps.Pairwise (fun p q => p.asBytes < q.asBytes) ∧
      ∀ p, p ∈ ps ↔ ∃ t ∈ [dashTree,.leaf [97] (.REG,[4]) .nil], (fileEntry t p).isSome :=
  walkIterators_outer_join _ (by decide) 5 (by decide)

end Iterators
end Libbit
