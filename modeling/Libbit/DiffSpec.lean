import Libbit.TreeSpec
import Libbit.Diff

/-! What the difference of two iterators finds. Two iterators that list the same files have no
difference, whatever ids their directories carry; and of an old file nothing can be overlooked
but what the new iterator vouches for. -/
namespace Libbit

open Lib

/-- The new entry is the old one, except that a directory may carry another id. -/
def Mirror (o n : BitIndexEntry) : Prop := o.path = n.path ∧ o.mode = n.mode ∧ (o.isTree = false → o.oid = n.oid)

namespace TreeDiffEntry

/-- Nothing changed here, as far as the entry goes. -/
def Calm : TreeDiffEntry → Prop
  | MaybeModifiedTree _ => True
  | UnmodifiedBlob _ => True
  | UnmodifiedTree _ _ => True
  | _ => False

/-- The paths of the old files that the entry reports. -/
def reports : TreeDiffEntry → List BitPath
  | DeletedBlob old => [old.path]
  | ModifiedBlob _ new => [new.path]
  | DeletedTree _ sub => (files sub).map BitIndexEntry.path
  | BlobToTree old _ _ => [old.path]
  | TreeToBlob _ sub _ => (files sub).map BitIndexEntry.path
  | _ => []

end TreeDiffEntry

namespace TreeDiffIter

theorem forall₂_dropWhile {α β : Type} {R : α → β → Prop} {p : α → Bool} {q : β → Bool} (hpq : ∀ a b, R a b → p a = q b)
    {l : List α} {l' : List β} (h : List.Forall₂ R l l') : List.Forall₂ R (l.dropWhile p) (l'.dropWhile q) := by
  induction h with
  | nil => exact .nil
  | @cons a b l l' hab hl ih =>
    rw [List.dropWhile_cons,List.dropWhile_cons,hpq a b hab]
    split
    · exact ih
    · exact .cons hab hl

theorem mirror_stepOver {old new : List BitIndexEntry} (h : List.Forall₂ Mirror old new) :
    List.Forall₂ Mirror (Iter.stepOver old) (Iter.stepOver new) := by
  cases h with
  | nil => exact .nil
  | @cons o n os ns hon h =>
    have htree : n.isTree = o.isTree := by simp [BitIndexEntry.isTree,hon.2.1]
    simp only [Iter.stepOver,htree]
    split
    · exact forall₂_dropWhile (fun a b hab => by rw [hab.1,hon.1]) h
    · exact h

/-- What the rest of the difference is after a turn. -/
def follow (b : Bool) (fuel : ℕ) : Turn → List TreeDiffEntry
  | .done => []
  | .yield d old new => d::drain b fuel old new
  | .pass old new => drain b fuel old new

/-- The turn for two blobs of one path. -/
def onBlobs (changed b : Bool) (o : BitIndexEntry) (os : List BitIndexEntry) (n : BitIndexEntry)
    (ns : List BitIndexEntry) : Turn :=
  if changed then .yield (.ModifiedBlob o n) os ns else if b then .yield (.UnmodifiedBlob n) os ns else .pass os ns

/-- The turn for two directories of one path. -/
def onTrees (b : Bool) (o : BitIndexEntry) (os : List BitIndexEntry) (n : BitIndexEntry) (ns : List BitIndexEntry) : Turn :=
  if o.oid.isKnown ∧ o = n then
    if b then .yield (.UnmodifiedTree n (Iter.subtree (n::ns)).tail) (Iter.stepOver (o::os)) (Iter.stepOver (n::ns))
    else .pass (Iter.stepOver (o::os)) (Iter.stepOver (n::ns))
  else .yield (.MaybeModifiedTree n) os ns

theorem diffCmp_lt {o n : BitIndexEntry} : o.diffCmp n = .lt ↔ o.path.asBytes < n.path.asBytes := Tree.cmp_lt

theorem diffCmp_eq {o n : BitIndexEntry} : o.diffCmp n = .eq ↔ o.path.asBytes = n.path.asBytes := Tree.cmp_eq

theorem diffCmp_gt {o n : BitIndexEntry} : o.diffCmp n = .gt ↔ n.path.asBytes < o.path.asBytes := Tree.cmp_gt

/-- All that a turn can be, except for two blobs of one path. -/
inductive Turns (b : Bool) : List BitIndexEntry → List BitIndexEntry → Turn → Prop
  | done : Turns b [] [] .done
  | created {old : List BitIndexEntry} {n : BitIndexEntry} {ns : List BitIndexEntry}
      (h : ∀ o ∈ old.head?, n.path.asBytes < o.path.asBytes) : Turns b old (n::ns) (onCreated old n ns)
  | deleted {o : BitIndexEntry} {os new : List BitIndexEntry}
      (h : ∀ n ∈ new.head?, o.path.asBytes < n.path.asBytes) : Turns b (o::os) new (onDeleted o os new)
  | trees {o n : BitIndexEntry} {os ns : List BitIndexEntry} (h : o.path.asBytes = n.path.asBytes)
      (ho : o.isTree = true) (hn : n.isTree = true) : Turns b (o::os) (n::ns) (onTrees b o os n ns)
  | treeToBlob {o n : BitIndexEntry} {os ns : List BitIndexEntry} (h : o.path.asBytes = n.path.asBytes)
      (ho : o.isTree = true) (hn : n.isTree = false) :
      Turns b (o::os) (n::ns) (.yield (.TreeToBlob o (Iter.subtree (o::os)).tail n) (Iter.stepOver (o::os)) ns)
  | blobToTree {o n : BitIndexEntry} {os ns : List BitIndexEntry} (h : o.path.asBytes = n.path.asBytes)
      (ho : o.isTree = false) (hn : n.isTree = true) :
      Turns b (o::os) (n::ns) (.yield (.BlobToTree o n (Iter.subtree (n::ns)).tail) os (Iter.stepOver (n::ns)))

theorem isTree_of_mode {e : BitIndexEntry} (h : e.mode = .TREE) : e.isTree = true := by
  simp [BitIndexEntry.isTree,h,FileMode.isTree]

theorem not_isTree_of_mode {e : BitIndexEntry} {m : BlobMode} (h : e.mode = .blob m) : e.isTree = false := by
  simp [BitIndexEntry.isTree,h,FileMode.isTree]

theorem turn_cases {m : Type → Type} [Monad m] (hasChanged : BitIndexEntry → BitIndexEntry → m Bool) (b : Bool)
    (old new : List BitIndexEntry) :
    (∃ t, Turns b old new t ∧ turn hasChanged b old new = pure t) ∨
    ∃ o os n ns, old = o::os ∧ new = n::ns ∧ o.path.asBytes = n.path.asBytes ∧ o.isTree = false ∧ n.isTree = false ∧
      turn hasChanged b old new = (do
        if ← hasChanged o n then pure (onBlobs true b o os n ns) else pure (onBlobs false b o os n ns)) := by
  cases old with
  | nil =>
    cases new with
    | nil => exact .inl ⟨_,.done,rfl⟩
    | cons n ns => exact .inl ⟨_,.created (by simp),rfl⟩
  | cons o os =>
    cases new with
    | nil => exact .inl ⟨_,.deleted (by simp),rfl⟩
    | cons n ns =>
      simp only [turn]
      cases hcmp : o.diffCmp n with
      | lt => exact .inl ⟨_,.deleted (by simpa using diffCmp_lt.mp hcmp),rfl⟩
      | gt => exact .inl ⟨_,.created (by simpa using diffCmp_gt.mp hcmp),rfl⟩
      | eq =>
        have h := diffCmp_eq.mp hcmp
        unfold onMatch
        cases ho : o.mode with
        | TREE =>
          cases hn : n.mode with
          | TREE =>
            refine .inl ⟨_,.trees h (isTree_of_mode ho) (isTree_of_mode hn),?_⟩
            by_cases hk : o.oid.isKnown ∧ o = n
            · cases b <;> simp only [onTrees,if_pos hk] <;> rfl
            · simp only [onTrees,if_neg hk]
          | blob m => exact .inl ⟨_,.treeToBlob h (isTree_of_mode ho) (not_isTree_of_mode hn),rfl⟩
        | blob m =>
          cases hn : n.mode with
          | TREE => exact .inl ⟨_,.blobToTree h (not_isTree_of_mode ho) (isTree_of_mode hn),rfl⟩
          | blob m' =>
            refine .inr ⟨o,os,n,ns,rfl,rfl,h,not_isTree_of_mode ho,not_isTree_of_mode hn,?_⟩
            cases b <;> simp [onBlobs]

/-- One turn of the difference of two iterators neither of which is a worktree iterator. -/
theorem drain_cases (b : Bool) (fuel : ℕ) (old new : List BitIndexEntry) :
    (∃ t, Turns b old new t ∧ drain b (fuel+1) old new = follow b fuel t) ∨
    ∃ o os n ns, old = o::os ∧ new = n::ns ∧ o.path.asBytes = n.path.asBytes ∧ o.isTree = false ∧ n.isTree = false ∧
      drain b (fuel+1) old new = follow b fuel (onBlobs (decide (o.oid ≠ n.oid)) b o os n ns) := by
  have hfollow (t : Turn) (h : turn (m := Id) (fun o n => decide (o.oid ≠ n.oid)) b old new = t) :
      drain b (fuel+1) old new = follow b fuel t := by
    unfold drain follow
    rw [h]
    cases t <;> rfl
  rcases turn_cases (m := Id) (fun o n => decide (o.oid ≠ n.oid)) b old new with
    ⟨t,ht,hturn⟩ | ⟨o,os,n,ns,ho,hn,hpath,hto,htn,hturn⟩
  · exact .inl ⟨t,ht,hfollow t hturn⟩
  · refine .inr ⟨o,os,n,ns,ho,hn,hpath,hto,htn,hfollow _ (hturn.trans ?_)⟩
    by_cases hoid : o.oid = n.oid
    · simp only [hoid,ne_eq,not_true_eq_false,decide_false]
      rfl
    · simp only [hoid,ne_eq,not_false_eq_true,decide_true]
      rfl

/-- Iterators that list the same files have no difference, whatever ids the directories carry. -/
theorem drain_calm {b : Bool} {fuel : ℕ} {old new : List BitIndexEntry} (h : List.Forall₂ Mirror old new) :
    ∀ d ∈ drain b fuel old new, d.Calm := by
  induction fuel generalizing old new with
  | zero => simp [drain]
  | succ fuel ih =>
    have hover := mirror_stepOver h
    rcases drain_cases b fuel old new with ⟨t,ht,hdrain⟩ | ⟨o,os,n,ns,rfl,rfl,hpath,hto,htn,hdrain⟩
    · rw [hdrain]
      cases ht with
      | done => simp [follow]
      | @created old n ns hlt =>
        obtain ⟨o,os,hon,-,rfl⟩ := List.forall₂_cons_right_iff.mp h
        simp [hon.1] at hlt
      | @deleted o os new hlt =>
        obtain ⟨n,ns,hon,-,rfl⟩ := List.forall₂_cons_left_iff.mp h
        simp [hon.1] at hlt
      | @trees o n os ns _ _ _ =>
        obtain ⟨-,h⟩ := List.forall₂_cons.mp h
        by_cases hk : o.oid.isKnown ∧ o = n
        · cases b with
          | false => simpa only [onTrees,if_pos hk,Bool.false_eq_true,if_false,follow] using ih hover
          | true =>
            simp only [onTrees,if_pos hk,if_true,follow,List.forall_mem_cons]
            exact ⟨trivial,ih hover⟩
        · simp only [onTrees,if_neg hk,follow,List.forall_mem_cons]
          exact ⟨trivial,ih h⟩
      | treeToBlob _ ho hn =>
        obtain ⟨hon,-⟩ := List.forall₂_cons.mp h
        simp [BitIndexEntry.isTree,hon.2.1] at ho hn
        simp [ho] at hn
      | blobToTree _ ho hn =>
        obtain ⟨hon,-⟩ := List.forall₂_cons.mp h
        simp [BitIndexEntry.isTree,hon.2.1] at ho hn
        simp [ho] at hn
    · obtain ⟨hon,h⟩ := List.forall₂_cons.mp h
      have hoid : o.oid = n.oid := hon.2.2 hto
      rw [hdrain]
      cases b <;> simp [onBlobs,hoid,follow,TreeDiffEntry.Calm]
      · exact ih h
      · exact ih h

section Overlook

theorem mem_cons_block {o x : BitIndexEntry} {os : List BitIndexEntry} (h : x ∈ o::os) (ho : o.isTree = true) :
    x = o ∨ x ∈ (Iter.subtree (o::os)).tail ∨ x ∈ Iter.stepOver (o::os) := by
  rcases List.mem_cons.mp h with rfl | h
  · exact .inl rfl
  · rw [← List.takeWhile_append_dropWhile (p := fun x : BitIndexEntry => x.path.startsWith o.path) (l := os)] at h
    simp only [Iter.stepOver,ho,if_true]
    exact .inr (List.mem_append.mp h)

theorem path_of_block {o x : BitIndexEntry} {os : List BitIndexEntry} (h : x ∈ (Iter.subtree (o::os)).tail) :
    o.path <+: x.path :=
  BitPath.startsWith_iff.mp (List.mem_takeWhile_imp (p := fun x : BitIndexEntry => x.path.startsWith o.path) h)

theorem mem_of_block {o x : BitIndexEntry} {os : List BitIndexEntry} (h : x ∈ (Iter.subtree (o::os)).tail) : x ∈ os :=
  List.takeWhile_subset _ h

theorem stepOver_sublist (o : BitIndexEntry) (os : List BitIndexEntry) : (Iter.stepOver (o::os)).Sublist os := by
  by_cases ho : o.isTree = true
  · simp only [Iter.stepOver,ho,if_true]
    exact List.dropWhile_sublist _
  · simp only [Iter.stepOver,ho]
    exact List.Sublist.refl _

/-- The new iterator has the old file just so, or vouches for a directory that it stands in. -/
def Overlooks (old new : List BitIndexEntry) (x : BitIndexEntry) : Prop :=
  (∃ n ∈ new, n.path.asBytes = x.path.asBytes ∧ n.oid = x.oid) ∨
    ∃ n ∈ new, n.isTree = true ∧ n.oid.isKnown = true ∧ n ∈ old ∧ n.path <+: x.path

theorem Overlooks.mono {old old' new new' : List BitIndexEntry} {x : BitIndexEntry} (h : Overlooks old new x)
    (hold : old ⊆ old') (hnew : new ⊆ new') : Overlooks old' new' x := by
  rcases h with ⟨n,hn,h⟩ | ⟨n,hn,ht,hk,ho,h⟩
  · exact .inl ⟨n,hnew hn,h⟩
  · exact .inr ⟨n,hnew hn,ht,hk,hold ho,h⟩

/-- The old file is among what a difference reports. -/
def Reported (ds : List TreeDiffEntry) (x : BitIndexEntry) : Prop :=
  ∃ d ∈ ds, ∃ p ∈ d.reports, p.asBytes = x.path.asBytes

theorem Reported.cons {d : TreeDiffEntry} {ds : List TreeDiffEntry} {x : BitIndexEntry} (h : Reported ds x) :
    Reported (d::ds) x := by
  obtain ⟨d',hd',h⟩ := h
  exact ⟨d',List.mem_cons_of_mem _ hd',h⟩

theorem Reported.head {d : TreeDiffEntry} {ds : List TreeDiffEntry} {x : BitIndexEntry} (h : x.path ∈ d.reports) :
    Reported (d::ds) x := ⟨d,List.mem_cons_self,x.path,h,rfl⟩

theorem mem_files {x : BitIndexEntry} {es : List BitIndexEntry} (h : x ∈ es) (hb : x.isTree = false) :
    x.path ∈ (files es).map BitIndexEntry.path :=
  List.mem_map.mpr ⟨x,List.mem_filter.mpr ⟨h,by simp [hb]⟩,rfl⟩

/-- An old file is reported, unless the new iterator has it. -/
theorem drain_overlooks {fuel : ℕ} {old new : List BitIndexEntry} (hfuel : old.length+new.length ≤ fuel)
    {x : BitIndexEntry} (hx : x ∈ old) (hb : x.isTree = false) :
    Reported (drain false fuel old new) x ∨ Overlooks old new x := by
  induction fuel generalizing old new with
  | zero =>
    obtain rfl : old = [] := List.eq_nil_of_length_eq_zero (by omega)
    simp at hx
  | succ fuel ih =>
    -- the file is in what the turn leaves of the old entries
    have hrest {old' new' : List BitIndexEntry} (hx' : x ∈ old') (hold : old'.length+new'.length ≤ fuel)
        (ho : old' ⊆ old) (hn : new' ⊆ new) : Reported (drain false fuel old' new') x ∨ Overlooks old new x :=
      (ih hold hx').imp_right fun h => h.mono ho hn
    rcases drain_cases false fuel old new with ⟨t,ht,hdrain⟩ | ⟨o,os,n,ns,rfl,rfl,hpath,hto,htn,hdrain⟩
    · rw [hdrain]
      cases ht with
      | done => simp at hx
      | @created old n ns _ =>
        have hsub := stepOver_sublist n ns
        simp only [List.length_cons] at hfuel
        by_cases hn : n.isTree = true
        · simp only [onCreated,hn,if_true,follow]
          exact (hrest hx (by have := hsub.length_le; omega) (List.Subset.refl _)
            (List.subset_cons_of_subset _ hsub.subset)).imp_left Reported.cons
        · simp only [onCreated,hn]
          exact (hrest hx (by omega) (List.Subset.refl _) (List.subset_cons_self _ _)).imp_left Reported.cons
      | @deleted o os new _ =>
        have hsub := stepOver_sublist o os
        simp only [List.length_cons] at hfuel
        by_cases ho : o.isTree = true
        · simp only [onDeleted,ho,if_true,follow]
          rcases mem_cons_block hx ho with rfl | hx | hx
          · simp [ho] at hb
          · exact .inl (.head (mem_files hx hb))
          · exact (hrest hx (by have := hsub.length_le; omega) (List.subset_cons_of_subset _ hsub.subset)
              (List.Subset.refl _)).imp_left Reported.cons
        · simp only [onDeleted,ho]
          rcases List.mem_cons.mp hx with rfl | hx
          · exact .inl (.head (by simp [TreeDiffEntry.reports]))
          · exact (hrest hx (by omega) (List.subset_cons_self _ _) (List.Subset.refl _)).imp_left Reported.cons
      | @trees o n os ns _ ho hn =>
        have hsub := stepOver_sublist o os
        have hsub' := stepOver_sublist n ns
        simp only [List.length_cons] at hfuel
        by_cases hk : o.oid.isKnown ∧ o = n
        · simp only [onTrees,if_pos hk,Bool.false_eq_true,if_false,follow]
          rcases mem_cons_block hx ho with rfl | hx | hx
          · simp [ho] at hb
          · exact .inr (.inr ⟨n,List.mem_cons_self,hn,hk.2 ▸ hk.1,by simp [hk.2],hk.2 ▸ path_of_block hx⟩)
          · exact hrest hx (by have := hsub.length_le; have := hsub'.length_le; omega)
              (List.subset_cons_of_subset _ hsub.subset) (List.subset_cons_of_subset _ hsub'.subset)
        · simp only [onTrees,if_neg hk,follow]
          rcases List.mem_cons.mp hx with rfl | hx
          · simp [ho] at hb
          · exact (hrest hx (by omega) (List.subset_cons_self _ _) (List.subset_cons_self _ _)).imp_left Reported.cons
      | @treeToBlob o n os ns _ ho hn =>
        have hsub := stepOver_sublist o os
        simp only [List.length_cons] at hfuel
        rcases mem_cons_block hx ho with rfl | hx | hx
        · simp [ho] at hb
        · exact .inl (.head (mem_files hx hb))
        · exact (hrest hx (by have := hsub.length_le; omega) (List.subset_cons_of_subset _ hsub.subset)
            (List.subset_cons_self _ _)).imp_left Reported.cons
      | @blobToTree o n os ns _ ho hn =>
        have hsub := stepOver_sublist n ns
        simp only [List.length_cons] at hfuel
        rcases List.mem_cons.mp hx with rfl | hx
        · exact .inl (.head (by simp [TreeDiffEntry.reports]))
        · exact (hrest hx (by have := hsub.length_le; omega) (List.subset_cons_self _ _)
            (List.subset_cons_of_subset _ hsub.subset)).imp_left Reported.cons
    · rw [hdrain]
      simp only [List.length_cons] at hfuel
      by_cases hoid : o.oid = n.oid
      · simp only [onBlobs,hoid,ne_eq,not_true_eq_false,decide_false,Bool.false_eq_true,if_false,follow]
        rcases List.mem_cons.mp hx with rfl | hx
        · exact .inr (.inl ⟨n,List.mem_cons_self,hpath.symm,hoid.symm⟩)
        · exact hrest hx (by omega) (List.subset_cons_self _ _) (List.subset_cons_self _ _)
      · simp only [onBlobs,hoid,ne_eq,not_false_eq_true,decide_true,if_true,follow]
        rcases List.mem_cons.mp hx with rfl | hx
        · exact .inl ⟨_,List.mem_cons_self,n.path,by simp [TreeDiffEntry.reports],hpath.symm⟩
        · exact (hrest hx (by omega) (List.subset_cons_self _ _) (List.subset_cons_self _ _)).imp_left Reported.cons

theorem of_mem_files {p : BitPath} {es : List BitIndexEntry} (h : p ∈ (files es).map BitIndexEntry.path) :
    ∃ x ∈ es, x.isTree = false ∧ x.path = p := by
  obtain ⟨x,hx,rfl⟩ := List.mem_map.mp h
  obtain ⟨hx,hb⟩ := List.mem_filter.mp hx
  exact ⟨x,hx,by simpa using hb,rfl⟩

/-- The path is that of an old file, or of a new one with the same bytes. -/
def FromOld (old new : List BitIndexEntry) (p : BitPath) : Prop :=
  ∃ x ∈ old, x.isTree = false ∧ (x.path = p ∨ x.path.asBytes = p.asBytes ∧ ∃ n ∈ new, n.isTree = false ∧ n.path = p)

theorem FromOld.mono {old old' new new' : List BitIndexEntry} {p : BitPath} (h : FromOld old new p) (ho : old ⊆ old')
    (hn : new ⊆ new') : FromOld old' new' p := by
  obtain ⟨x,hx,hb,h⟩ := h
  exact ⟨x,ho hx,hb,h.imp_right fun ⟨hbytes,n,hmem,h⟩ => ⟨hbytes,n,hn hmem,h⟩⟩

/-- Only old files are reported. -/
theorem drain_reports_old {b : Bool} {fuel : ℕ} {old new : List BitIndexEntry} {d : TreeDiffEntry} {p : BitPath}
    (hd : d ∈ drain b fuel old new) (hp : p ∈ d.reports) : FromOld old new p := by
  induction fuel generalizing old new with
  | zero => simp [drain] at hd
  | succ fuel ih =>
    have hrest {old' new' : List BitIndexEntry} (hd : d ∈ drain b fuel old' new') (ho : old' ⊆ old) (hn : new' ⊆ new) :
        FromOld old new p := (ih hd).mono ho hn
    have hover (o : BitIndexEntry) (os : List BitIndexEntry) : Iter.stepOver (o::os) ⊆ o::os :=
      List.subset_cons_of_subset _ (stepOver_sublist o os).subset
    have hblock {o : BitIndexEntry} {os : List BitIndexEntry}
        (h : p ∈ (files (Iter.subtree (o::os)).tail).map BitIndexEntry.path) : FromOld (o::os) new p := by
      obtain ⟨x,hx,hb,rfl⟩ := of_mem_files h
      exact ⟨x,List.mem_cons_of_mem _ (mem_of_block hx),hb,.inl rfl⟩
    rcases drain_cases b fuel old new with ⟨t,ht,hdrain⟩ | ⟨o,os,n,ns,rfl,rfl,hpath,hto,htn,hdrain⟩
    · rw [hdrain] at hd
      cases ht with
      | done => simp [follow] at hd
      | @created old n ns _ =>
        by_cases hn : n.isTree = true
        · simp only [onCreated,hn,if_true,follow,List.mem_cons] at hd
          rcases hd with rfl | hd
          · simp [TreeDiffEntry.reports] at hp
          · exact hrest hd (List.Subset.refl _) (hover _ _)
        · simp only [onCreated,hn,Bool.false_eq_true,if_false,follow,List.mem_cons] at hd
          rcases hd with rfl | hd
          · simp [TreeDiffEntry.reports] at hp
          · exact hrest hd (List.Subset.refl _) (List.subset_cons_self _ _)
      | @deleted o os new _ =>
        by_cases ho : o.isTree = true
        · simp only [onDeleted,ho,if_true,follow,List.mem_cons] at hd
          rcases hd with rfl | hd
          · exact hblock hp
          · exact hrest hd (hover _ _) (List.Subset.refl _)
        · simp only [onDeleted,ho,Bool.false_eq_true,if_false,follow,List.mem_cons] at hd
          rcases hd with rfl | hd
          · obtain rfl : p = o.path := by simpa [TreeDiffEntry.reports] using hp
            exact ⟨o,List.mem_cons_self,by simpa using ho,.inl rfl⟩
          · exact hrest hd (List.subset_cons_self _ _) (List.Subset.refl _)
      | @trees o n os ns _ ho hn =>
        by_cases hk : o.oid.isKnown ∧ o = n
        · cases b with
          | false =>
            simp only [onTrees,if_pos hk,Bool.false_eq_true,if_false,follow] at hd
            exact hrest hd (hover _ _) (hover _ _)
          | true =>
            simp only [onTrees,if_pos hk,if_true,follow,List.mem_cons] at hd
            rcases hd with rfl | hd
            · simp [TreeDiffEntry.reports] at hp
            · exact hrest hd (hover _ _) (hover _ _)
        · simp only [onTrees,if_neg hk,follow,List.mem_cons] at hd
          rcases hd with rfl | hd
          · simp [TreeDiffEntry.reports] at hp
          · exact hrest hd (List.subset_cons_self _ _) (List.subset_cons_self _ _)
      | @treeToBlob o n os ns _ ho hn =>
        rcases List.mem_cons.mp hd with rfl | hd
        · exact hblock hp
        · exact hrest hd (hover _ _) (List.subset_cons_self _ _)
      | @blobToTree o n os ns _ ho hn =>
        rcases List.mem_cons.mp hd with rfl | hd
        · obtain rfl : p = o.path := by simpa [TreeDiffEntry.reports] using hp
          exact ⟨o,List.mem_cons_self,ho,.inl rfl⟩
        · exact hrest hd (List.subset_cons_self _ _) (hover _ _)
    · rw [hdrain] at hd
      by_cases hoid : o.oid = n.oid
      · cases b with
        | false =>
          simp only [onBlobs,hoid,ne_eq,not_true_eq_false,decide_false,Bool.false_eq_true,if_false,follow] at hd
          exact hrest hd (List.subset_cons_self _ _) (List.subset_cons_self _ _)
        | true =>
          simp only [onBlobs,hoid,ne_eq,not_true_eq_false,decide_false,Bool.false_eq_true,if_false,if_true,follow,
            List.mem_cons] at hd
          rcases hd with rfl | hd
          · simp [TreeDiffEntry.reports] at hp
          · exact hrest hd (List.subset_cons_self _ _) (List.subset_cons_self _ _)
      · simp only [onBlobs,hoid,ne_eq,not_false_eq_true,decide_true,if_true,follow,List.mem_cons] at hd
        rcases hd with rfl | hd
        · obtain rfl : p = n.path := by simpa [TreeDiffEntry.reports] using hp
          exact ⟨o,List.mem_cons_self,hto,.inr ⟨hpath,n,List.mem_cons_self,htn,rfl⟩⟩
        · exact hrest hd (List.subset_cons_self _ _) (List.subset_cons_self _ _)

end Overlook

end TreeDiffIter

/-- The paths that a status lists are those that its entries report. -/
theorem mem_iterPaths {ds : List TreeDiffEntry} {s : WorkspaceStatus} {p : BitPath} :
    p ∈ (ds.foldl TreeStatusDiffer.on s).iterPaths ↔ p ∈ s.iterPaths ∨ ∃ d ∈ ds, p ∈ d.reports := by
  induction ds generalizing s with
  | nil => simp
  | cons d ds ih =>
    have hon : p ∈ (TreeStatusDiffer.on s d).iterPaths ↔ p ∈ s.iterPaths ∨ p ∈ d.reports := by
      cases d <;> simp [TreeStatusDiffer.on,WorkspaceStatus.iterPaths,TreeDiffEntry.reports] <;> grind
    simp only [List.foldl_cons,ih,hon,List.mem_cons,exists_eq_or_imp,or_assoc]

theorem mem_indexTreeIterFrom {idx : BitIndexInner} {seen : List BitPath} {es : List BitIndexEntry} {x : BitIndexEntry}
    (h : x ∈ idx.indexTreeIterFrom seen es) : x ∈ es ∨ ∃ d, x = idx.createPseudotree d := by
  induction es generalizing seen with
  | nil => simp [BitIndexInner.indexTreeIterFrom] at h
  | cons e es ih =>
    rcases List.mem_append.mp h with h | h
    · obtain ⟨d,-,rfl⟩ := List.mem_map.mp h
      exact .inr ⟨d,rfl⟩
    · rcases List.mem_cons.mp h with rfl | h
      · exact .inl List.mem_cons_self
      · exact (ih h).imp_left (List.mem_cons_of_mem _)

theorem mem_indexTreeIter {idx : BitIndexInner} {x : BitIndexEntry} (h : x ∈ idx.indexTreeIter) :
    x ∈ idx.entries ∨ ∃ d, x = idx.createPseudotree d := by
  rcases List.mem_cons.mp h with rfl | h
  · exact .inr ⟨[],rfl⟩
  · exact mem_indexTreeIterFrom h

/-- An index that holds the files of a tree lists what the tree lists. -/
theorem BitIndexInner.Describes.mirror {idx : BitIndexInner} {t : Tree} (ht : t.Canonical) (hd : t.Distinct) (h : idx.Describes t) :
    List.Forall₂ Mirror (treeIter (.tree t)) idx.indexTreeIter := by
  obtain ⟨l,hl,hlists⟩ := h.indexTreeIter ht hd
  rw [hl]
  refine .cons ⟨rfl,rfl,by simp [BitIndexEntry.isTree,BitIndexEntry.ofTreeEntry,FileMode.isTree]⟩ ?_
  rw [Tree.listing,List.forall₂_map_left_iff]
  refine hlists.imp fun x e hx => ?_
  obtain ⟨p,a | s⟩ := x
  · obtain ⟨hpath,hmode,hoid,-⟩ := hx
    exact ⟨hpath.symm,hmode.symm,fun _ => hoid.symm⟩
  · subst hx
    exact ⟨rfl,rfl,by simp [TreeEntry.ofItem,BitIndexEntry.isTree,BitIndexEntry.ofTreeEntry,FileMode.isTree]⟩

end Libbit
