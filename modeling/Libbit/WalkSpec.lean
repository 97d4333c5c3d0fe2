import Libbit.DiffSpec
import Libbit.Merge

/-! The walk over three trees: what its items are made of. -/
namespace Libbit

open Lib

/-- An entry as the iterator over a tree makes it. -/
structure BitIndexEntry.FromTree (e : BitIndexEntry) : Prop where
  normal : e.path.Normal
  stat : e.stat = .unknown
  stage : e.stage = .NONE

def MergeDiffEntry.entry : MergeDiffEntry → BitIndexEntry
  | .DeletedBlob e | .CreatedBlob e | .ModifiedBlob e | .ModifiedTree e | .UnmodifiedBlob e | .UnmodifiedTree e
  | .DeletedTree e | .CreatedTree e | .BlobToTree e | .TreeToBlob e => e

section Items

theorem fromTree_treeIter {oid : Oid} (ht : oid.treeish.WellFormed) {e : BitIndexEntry} (he : e ∈ treeIter oid) : e.FromTree := by
  rcases List.mem_cons.mp he with rfl | he
  · exact ⟨by simp [BitPath.Normal,BitIndexEntry.ofTreeEntry],rfl,rfl⟩
  obtain ⟨⟨p,a | s⟩,hx,rfl⟩ := List.mem_map.mp he
  · have hlook : oid.treeish.look p = some (some a) := (Forest.mem_entries_leaf ht.distinct).mp hx
    exact ⟨ht.normal (p := p) (by simp [hlook]),rfl,rfl⟩
  · have hsub : oid.treeish.sub? p = some s := ((Forest.mem_entries_node ht.distinct).mp hx).2
    have hlook : oid.treeish.look p = some none := Forest.look_eq_dir.mpr ⟨s,hsub⟩
    exact ⟨ht.normal (p := p) (by simp [hlook]),rfl,rfl⟩

theorem entry_of_diff {base other : Option BitIndexEntry} {d : MergeDiffEntry} (h : diffBaseToOther base other = some d) :
    d.entry ∈ base ∨ d.entry ∈ other := by
  unfold diffBaseToOther at h
  split at h
  · simp at h
  · obtain rfl := Option.some.inj h
    unfold otherOnly
    split <;> simp [MergeDiffEntry.entry]
  · obtain rfl := Option.some.inj h
    unfold baseOnly
    split <;> simp [MergeDiffEntry.entry]
  · split at h
    · obtain rfl := Option.some.inj h
      unfold baseOnly
      split <;> simp [MergeDiffEntry.entry]
    · obtain rfl := Option.some.inj h
      unfold otherOnly
      split <;> simp [MergeDiffEntry.entry]
    · split at h
      · obtain rfl := Option.some.inj h
        split <;> simp [MergeDiffEntry.entry]
      · obtain rfl := Option.some.inj h
        simp [MergeDiffEntry.entry]
      · obtain rfl := Option.some.inj h
        simp [MergeDiffEntry.entry]
      · obtain rfl := Option.some.inj h
        split <;> simp [MergeDiffEntry.entry]

/-- The slot holds nothing, or an entry that its iterator has still to yield. -/
def Walk.Slot (x : Option BitIndexEntry) (iter : List BitIndexEntry) : Prop := ∀ e ∈ x, e ∈ iter

theorem Walk.Slot.none (iter : List BitIndexEntry) : Walk.Slot none iter := by simp [Walk.Slot]

theorem takeHead_slots {entries : List (Option BitIndexEntry)} {iters : List (List BitIndexEntry)}
    (h : List.Forall₂ Walk.Slot entries iters) (iter : List BitIndexEntry) :
    List.Forall₂ Walk.Slot (Walk.takeHead entries iter) (iters++[iter]) := by
  have hnone : List.Forall₂ Walk.Slot (entries++[none]) (iters++[iter]) := List.rel_append h (.cons (.none _) .nil)
  unfold Walk.takeHead
  split
  · exact hnone
  · rename_i entry hhead
    have hslot : Walk.Slot (some entry) iter := by
      intro e he
      obtain rfl : entry = e := by simpa using he
      exact List.mem_of_mem_head? hhead
    have hsome : List.Forall₂ Walk.Slot (entries++[some entry]) (iters++[iter]) := List.rel_append h (.cons hslot .nil)
    split
    · exact hsome
    · split
      · refine List.rel_append ?_ (.cons hslot .nil)
        rw [List.forall₂_map_left_iff]
        exact h.imp fun _ _ _ => .none _
      · exact hsome
      · exact hnone

theorem nextEntries_slots (iters : List (List BitIndexEntry)) : List.Forall₂ Walk.Slot (Walk.nextEntries iters) iters := by
  have hfold (entries : List (Option BitIndexEntry)) (done rest : List (List BitIndexEntry))
      (h : List.Forall₂ Walk.Slot entries done) : List.Forall₂ Walk.Slot (rest.foldl Walk.takeHead entries) (done++rest) := by
    induction rest generalizing entries done with
    | nil => simpa using h
    | cons iter rest ih =>
      rw [List.foldl_cons,List.append_cons]
      exact ih _ _ (takeHead_slots h iter)
  exact hfold [] [] iters .nil

/-- An iterator that is advanced has nothing new to yield. -/
theorem Walk.Slot.of_advance {entries : List (Option BitIndexEntry)} {iters : List (List BitIndexEntry)}
    (h : entries.length = iters.length) {item : List (Option BitIndexEntry)}
    (hitem : List.Forall₂ Walk.Slot item (Walk.advance entries iters)) : List.Forall₂ Walk.Slot item iters := by
  have hsub (x : Option BitIndexEntry) (b : Bool) (iter : List BitIndexEntry) :
      (if x.isSome then (if b then Iter.stepOver iter else iter.tail) else iter) ⊆ iter := by
    split
    · split
      · cases iter with
        | nil => simp [Iter.stepOver]
        | cons e rest => exact fun y hy => List.mem_cons_of_mem _ ((TreeDiffIter.stepOver_sublist e rest).subset hy)
      · exact List.tail_subset _
    · exact List.Subset.refl _
  unfold Walk.advance at hitem
  generalize Walk.shouldStepOver entries = b at hitem
  induction entries generalizing iters item with
  | nil =>
    obtain rfl : iters = [] := by simpa using h.symm
    simpa using hitem
  | cons x entries ih =>
    cases iters with
    | nil => simp at h
    | cons iter iters =>
      obtain ⟨y,item,hy,hitem',rfl⟩ := List.forall₂_cons_right_iff.mp hitem
      exact .cons (fun e he => hsub x b iter (hy e he)) (ih (by simpa using h) hitem')

/-- The entries of an item were yielded by the iterators. -/
theorem mem_walk {fuel : ℕ} {iters : List (List BitIndexEntry)} {item : List (Option BitIndexEntry)}
    (h : item ∈ Walk.walkTreeIterators fuel iters) : List.Forall₂ Walk.Slot item iters := by
  induction fuel generalizing iters with
  | zero => simp [Walk.walkTreeIterators] at h
  | succ fuel ih =>
    simp only [Walk.walkTreeIterators] at h
    split at h
    · simp at h
    · rcases List.mem_cons.mp h with rfl | h
      · exact nextEntries_slots iters
      · exact Walk.Slot.of_advance (nextEntries_slots iters).length_eq (ih h)

theorem mem_walk3 {base ours theirs : List BitIndexEntry} {item : List (Option BitIndexEntry)} (h : item ∈ walk3 base ours theirs) :
    ∃ b o t, item = [b,o,t] ∧ (∀ e ∈ b, e ∈ base) ∧ (∀ e ∈ o, e ∈ ours) ∧ ∀ e ∈ t, e ∈ theirs := by
  match item, mem_walk h with
  | _, .cons (a := b) hb (.cons (a := o) ho (.cons (a := t) ht .nil)) => exact ⟨b,o,t,rfl,hb,ho,ht⟩

end Items
end Libbit
