import Libbit.CheckoutPasses
import Libbit.CheckoutConflict
import Libbit.DiffOrder

/-! What a checkout that is not forced leaves alone (`checkout.rs`): a file of the worktree that HEAD does not have, or that
was changed since it went into the index. -/
namespace Libbit

open Lib TreeDiffIter
open Iterators (Sorted)

/-! ### The worktree and the difference keep in step -/

theorem BitPath.asBytes_le_of_prefix {p q : BitPath} (h : p <+: q) : p.asBytes ≤ q.asBytes := by
  by_cases hp : p = []
  · rw [hp]
    exact not_lt.mp (List.not_lt_nil _)
  · by_cases hne : p = q
    · rw [hne]
    · exact (BitPath.asBytes_lt_of_prefix hp h hne).le

/-- What a checkout plans from: the difference of HEAD with the target, in the order of the paths. -/
structure Differences (head : Tree) (ds : List TreeDiffEntry) : Prop where
  order : ds.Pairwise fun d d' => d.path.asBytes < d'.path.asBytes
  normal : ∀ d ∈ ds, d.path.Normal
  fits : ∀ d ∈ ds, d.Fits (treeIter (.tree head))
  enters : ∀ d ∈ ds, ∀ d' ∈ ds, d'.removes ≠ none → d.path <+: d'.path → d.path ≠ d'.path → d.Enters

/-- The walk of the worktree, in the order of the paths. -/
structure Walked (w : Worktree) (wt : List BitIndexEntry) : Prop where
  order : Sorted wt
  preorder : Preorder wt
  normal : ∀ e ∈ wt, e.path.Normal
  file : ∀ e ∈ wt, e.isTree = false → Vouched w e
  dir : ∀ e ∈ wt, e.isTree = true → w.look e.path = some none ∧ e.oid = .UNKNOWN

theorem Walked.sublist {w : Worktree} {wt wt' : List BitIndexEntry} (h : Walked w wt) (hs : wt'.Sublist wt) : Walked w wt' :=
  ⟨h.order.sublist hs,h.preorder.sublist hs,fun e he => h.normal e (hs.subset he),fun e he => h.file e (hs.subset he),
    fun e he => h.dir e (hs.subset he)⟩

/-- The entry may have something removed at the path or above it. -/
def TreeDiffEntry.Threatens (d : TreeDiffEntry) (q : BitPath) : Prop := d.removes ≠ none ∧ d.path <+: q

/-- While an entry is to come that threatens the file `n`, the walk has yet to come by the file and by the place of the entry;
and a directory above it that the walk has yet to come by has an entry to come. -/
structure InStep (n : BitIndexEntry) (ds : List TreeDiffEntry) (wt : List BitIndexEntry) : Prop where
  file : ∀ d ∈ ds, d.Threatens n.path → n ∈ wt
  there : ∀ d ∈ ds, d.Threatens n.path → ∃ x ∈ wt, x.path = d.path
  above : ∀ d ∈ ds, d.Threatens n.path → ∀ x ∈ wt, x.path <+: d.path → x.path ≠ d.path → ∃ d' ∈ ds, d'.path = x.path

section Alignment
variable {head : Tree} {w : Worktree} {n we : BitIndexEntry} {d : TreeDiffEntry} {ds ds' : List TreeDiffEntry}
  {wt wt' : List BitIndexEntry}

theorem Differences.tail (h : Differences head (d::ds)) : Differences head ds :=
  ⟨(List.pairwise_cons.mp h.order).2,fun x hx => h.normal x (List.mem_cons_of_mem _ hx),
    fun x hx => h.fits x (List.mem_cons_of_mem _ hx),
    fun x hx y hy => h.enters x (List.mem_cons_of_mem _ hx) y (List.mem_cons_of_mem _ hy)⟩

theorem Differences.lt (h : Differences head (d::ds)) {d' : TreeDiffEntry} (hd' : d' ∈ ds) :
    d.path.asBytes < d'.path.asBytes := (List.pairwise_cons.mp h.order).1 d' hd'

theorem Differences.le (h : Differences head (d::ds)) {d' : TreeDiffEntry} (hd' : d' ∈ d::ds) :
    d.path.asBytes ≤ d'.path.asBytes := by
  rcases List.mem_cons.mp hd' with rfl | hd'
  · exact le_refl _
  · exact (h.lt hd').le

/-- What a turn has to leave. -/
theorem InStep.keep (h : InStep n ds wt) (hds : ds' ⊆ ds) (hwt : wt' ⊆ wt)
    (hstay : ∀ δ ∈ ds', δ.Threatens n.path → ∀ x ∈ wt, x = n ∨ x.path = δ.path → x ∈ wt')
    (habove : ∀ δ ∈ ds', δ.Threatens n.path → ∀ x ∈ wt', x.path <+: δ.path → x.path ≠ δ.path → ∀ d ∈ ds, d.path = x.path →
      d ∈ ds') : InStep n ds' wt' := by
  refine ⟨fun δ hδ ht => ?_,fun δ hδ ht => ?_,fun δ hδ ht x hx hpre hne => ?_⟩
  · exact hstay δ hδ ht n (h.file δ (hds hδ) ht) (.inl rfl)
  · obtain ⟨x,hx,hpath⟩ := h.there δ (hds hδ) ht
    exact ⟨x,hstay δ hδ ht x hx (.inr hpath),hpath⟩
  · obtain ⟨d,hd,hpath⟩ := h.above δ (hds hδ) ht x (hwt hx) hpre hne
    exact ⟨d,habove δ hδ ht x hx hpre hne d hd hpath,hpath⟩

/-- The walk is ahead: the entry of the difference is passed. -/
theorem InStep.ahead (h : InStep n (d::ds) wt) (hlt : ∀ x ∈ wt, d.path.asBytes < x.path.asBytes) :
    ¬d.Threatens n.path ∧ InStep n ds wt := by
  refine ⟨fun ht => ?_,h.keep (List.subset_cons_self _ _) (List.Subset.refl _) (fun _ _ _ _ hx _ => hx) ?_⟩
  · obtain ⟨x,hx,hpath⟩ := h.there d List.mem_cons_self ht
    exact absurd (hlt x hx) (by rw [hpath]; exact lt_irrefl _)
  · intro δ _ _ x hx _ _ d' hd' hpath
    refine (List.mem_cons.mp hd').resolve_left fun he => ?_
    exact absurd (hlt x hx) (by rw [← hpath,he]; exact lt_irrefl _)

section Moves
variable (hds : Differences head (d::ds))
include hds

/-- The walk is behind: its entry is passed with all that is below it. -/
theorem InStep.behind (h : InStep n (d::ds) (we::wt)) (hlt : we.path.asBytes < d.path.asBytes) :
    InStep n (d::ds) (Iter.stepOver (we::wt)) := by
  have hsub := (stepOver_suffix we wt).subset
  refine h.keep (List.Subset.refl _) (fun x hx => List.mem_cons_of_mem _ (hsub hx)) (fun δ hδ ht x hx hwhich => ?_)
    fun _ _ _ _ _ _ _ d hd _ => hd
  have hδlt : we.path.asBytes < δ.path.asBytes := hlt.trans_le (hds.le hδ)
  have hnot : ¬we.path <+: δ.path := fun hpre => by
    obtain ⟨d',hd',hpath⟩ := h.above δ hδ ht we List.mem_cons_self hpre fun he => hδlt.ne (by rw [he])
    exact absurd (hpath ▸ hds.le hd') (not_le.mpr hlt)
  refine mem_stepOver_of_not_below hx fun hpre => ?_
  rcases hwhich with rfl | hpath
  · rcases List.prefix_or_prefix_of_prefix hpre ht.2 with hwe | hwe
    · exact hnot hwe
    · exact absurd (BitPath.asBytes_le_of_prefix hwe) (not_le.mpr hδlt)
  · exact hnot (hpath ▸ hpre)

/-- Both are at one place, below which the difference does not go on: the walk may stay. -/
theorem InStep.stay (h : InStep n (d::ds) wt) (hd : ¬d.Enters) : InStep n ds wt := by
  refine h.keep (List.subset_cons_self _ _) (List.Subset.refl _) (fun _ _ _ _ hx _ => hx) ?_
  intro δ hδ ht x hx hpre hne d' hd' hpath
  refine (List.mem_cons.mp hd').resolve_left fun he => hd ?_
  rw [he] at hpath
  exact hds.enters d List.mem_cons_self δ (List.mem_cons_of_mem _ hδ) ht.1 (hpath ▸ hpre) (hpath ▸ hne)

/-- Or it may pass all that is below. -/
theorem InStep.pass (h : InStep n (d::ds) (we::wt)) (hd : ¬d.Enters) (hpath : we.path = d.path) :
    InStep n ds (Iter.stepOver (we::wt)) := by
  refine (h.stay hds hd).keep (List.Subset.refl _) (fun x hx => List.mem_cons_of_mem _ ((stepOver_suffix we wt).subset hx))
    (fun δ hδ ht x hx hwhich => ?_) fun _ _ _ _ _ _ _ d hd _ => hd
  have hlt := hds.lt hδ
  have hnot : ¬d.path <+: δ.path := fun hpre =>
    hd (hds.enters d List.mem_cons_self δ (List.mem_cons_of_mem _ hδ) ht.1 hpre fun he => hlt.ne (by rw [he]))
  refine mem_stepOver_of_not_below hx fun hpre => ?_
  rw [hpath] at hpre
  rcases hwhich with rfl | hpath
  · rcases List.prefix_or_prefix_of_prefix hpre ht.2 with hd' | hd'
    · exact hnot hd'
    · exact absurd (BitPath.asBytes_le_of_prefix hd') (not_le.mpr hlt)
  · exact hnot (hpath ▸ hpre)

/-- Both go on below a directory. -/
theorem InStep.enter (h : InStep n (d::ds) (we::wt)) (hwt : Walked w (we::wt)) (hn : we ≠ n) (hpath : we.path = d.path) :
    InStep n ds wt := by
  refine h.keep (List.subset_cons_self _ _) (List.subset_cons_self _ _) (fun δ hδ ht x hx hwhich => ?_) ?_
  · refine (List.mem_cons.mp hx).resolve_left fun he => ?_
    rcases hwhich with rfl | hx'
    · exact hn he.symm
    · exact (hds.lt hδ).ne (by rw [← hpath,← he,hx'])
  · intro δ _ _ x hx _ _ d' hd' hx'
    refine (List.mem_cons.mp hd').resolve_left fun he => ?_
    exact ((List.pairwise_cons.mp hwt.order).1 x hx).ne (by rw [hpath,← hx',he])

end Moves

end Alignment

/-! ### What is planned to be removed -/

/-- What the entry may have removed is the place of the entry, and no link has to be followed on the way there. -/
structure TreeDiffEntry.Removable (w : Worktree) (d : TreeDiffEntry) : Prop where
  path : ∀ o, d.removes = some o → o.path = d.path
  reached : d.removes ≠ none → d.path.Normal ∧ w.NoLinkAbove d.path

/-- Without a conflict the migration spares the file. -/
def CheckoutCtxt.Spares (w : Worktree) (q : BitPath) (c : CheckoutCtxt) : Prop := c.conflicts = [] → c.migration.Misses w q

namespace CheckoutCtxt
variable {w : Worktree} {q : BitPath} {c : CheckoutCtxt} {e : BitIndexEntry}

theorem Spares.conflict (w : Worktree) (q : BitPath) (c : CheckoutCtxt) (e : BitIndexEntry) : (c.conflict e).Spares w q :=
  fun h => by simp [CheckoutCtxt.conflict] at h

theorem Spares.create (h : c.Spares w q) (e : BitIndexEntry) : (c.create e).Spares w q := fun hc =>
  ⟨(h hc).rmrfs,(h hc).rms⟩

theorem Spares.delete (h : c.Spares w q) (he : e.path.Normal ∧ w.NoLinkAbove e.path) (hne : e.path ≠ q) :
    (c.delete e).Spares w q := fun hc => by
  refine ⟨(h hc).rmrfs,fun x hx => ?_⟩
  rcases List.mem_append.mp hx with hx | hx
  · exact (h hc).rms x hx
  · obtain rfl := List.mem_singleton.mp hx
    exact ⟨he.1,he.2,hne⟩

theorem Spares.deleteTree (h : c.Spares w q) (he : e.path.Normal ∧ w.NoLinkAbove e.path) (hne : ¬e.path <+: q) :
    (c.deleteTree e).Spares w q := fun hc => by
  refine ⟨fun x hx => ?_,(h hc).rms⟩
  rcases List.mem_append.mp hx with hx | hx
  · exact (h hc).rmrfs x hx
  · obtain rfl := List.mem_singleton.mp hx
    exact ⟨he.1,he.2,hne⟩

theorem Spares.createTree (h : c.Spares w q) (tree : List BitIndexEntry) : (c.createTree tree).Spares w q := by
  unfold CheckoutCtxt.createTree
  induction tree generalizing c with
  | nil => exact h
  | cons e tree ih =>
    refine ih ?_
    by_cases he : e.isTree = true
    · by_cases hroot : e.path = []
      · simpa only [if_pos he,if_pos hroot] using h
      · simp only [if_pos he,if_neg hroot]
        exact fun hc => ⟨(h hc).rmrfs,(h hc).rms⟩
    · simp only [if_neg he]
      exact h.create e

end CheckoutCtxt

section Steps
variable {strategy : CheckoutStrategy} {w : Worktree} {q : BitPath} {c : CheckoutCtxt} {d : TreeDiffEntry} {we : BitIndexEntry}
  {old : List BitIndexEntry}

/-- A place that the entry may have removed, when that does not touch the file. -/
theorem TreeDiffEntry.Removable.apart (hr : d.Removable w) {o : BitIndexEntry} (ho : d.removes = some o)
    (hnot : ¬d.Threatens q) : (o.path.Normal ∧ w.NoLinkAbove o.path) ∧ ¬o.path <+: q := by
  have hsome : d.removes ≠ none := by simp [ho]
  rw [hr.path o ho]
  exact ⟨hr.reached hsome,fun hpre => hnot ⟨hsome,hpre⟩⟩

theorem ne_of_apart {p : BitPath} (h : ¬p <+: q) : p ≠ q := fun he => h (he ▸ List.prefix_rfl)

theorem noWorktree_spares (hs : strategy.isForced = false) (hr : d.Removable w) (hnot : ¬d.Threatens q) (hc : c.Spares w q) :
    (noWorktree strategy c d).Spares w q := by
  have hapart {o : BitIndexEntry} (ho : d.removes = some o) := hr.apart ho hnot
  cases d with
  | DeletedBlob o =>
    by_cases hsafe : strategy.isSafe = true
    · simpa only [noWorktree,if_pos hsafe] using hc.delete (hapart rfl).1 (ne_of_apart (hapart rfl).2)
    · simpa only [noWorktree,if_neg hsafe] using hc
  | CreatedBlob n =>
    by_cases hsafe : strategy.isSafe = true
    · simpa only [noWorktree,if_pos hsafe] using hc.create n
    · simpa only [noWorktree,if_neg hsafe] using hc
  | ModifiedBlob o n =>
    simp only [noWorktree,hs,Bool.false_eq_true,if_false]
    exact .conflict w q c n
  | MaybeModifiedTree n => exact hc
  | UnmodifiedBlob n => simpa only [noWorktree,hs,Bool.false_eq_true,if_false] using hc
  | UnmodifiedTree n sub => simpa only [noWorktree,hs,Bool.false_eq_true,if_false] using hc
  | DeletedTree o sub =>
    by_cases hsafe : strategy.isSafe = true
    · simpa only [noWorktree,if_pos hsafe] using hc.deleteTree (hapart rfl).1 (hapart rfl).2
    · simpa only [noWorktree,if_neg hsafe] using hc
  | CreatedTree n sub => exact hc.createTree (n::sub)
  | BlobToTree o n sub => exact (hc.delete (hapart rfl).1 (ne_of_apart (hapart rfl).2)).createTree (n::sub)
  | TreeToBlob o sub n => exact (hc.deleteTree (hapart rfl).1 (hapart rfl).2).create n

/-- The worktree has a file at the place of the entry. -/
theorem withWorktreeFile_spares (hs : strategy.isForced = false) (hr : d.Removable w) (hfits : d.Fits old) {modified : Bool}
    (hmodified : ∀ o, d.removes = some o → o.isTree = false → d.path = q → modified = true) (hc : c.Spares w q)
    {c' : CheckoutCtxt} (h : withWorktreeFile strategy c we modified d = some c') : c'.Spares w q := by
  have hgone {o : BitIndexEntry} (ho : d.removes = some o) (hb : o.isTree = false) (hm : ¬modified = true) :
      (o.path.Normal ∧ w.NoLinkAbove o.path) ∧ o.path ≠ q := by
    rw [hr.path o ho]
    exact ⟨hr.reached (by simp [ho]),fun he => hm (hmodified o ho hb he)⟩
  cases d with
  | DeletedBlob o =>
    by_cases hm : modified = true
    · obtain rfl : c.conflict o = c' := by simpa [withWorktreeFile,hm,hs] using h
      exact .conflict w q c o
    · obtain rfl : c.delete o = c' := by simpa [withWorktreeFile,hm] using h
      exact hc.delete (hgone rfl hfits.2 hm).1 (hgone rfl hfits.2 hm).2
  | CreatedBlob n =>
    obtain rfl : c.conflict n = c' := by simpa [withWorktreeFile,hs] using h
    exact .conflict w q c n
  | ModifiedBlob o n =>
    by_cases hm : modified = true
    · obtain rfl : c.conflict n = c' := by simpa [withWorktreeFile,hm,hs] using h
      exact .conflict w q c n
    · obtain rfl : (c.delete n).create n = c' := by simpa [withWorktreeFile,hm,CheckoutCtxt.update,hfits.2.2.1] using h
      have hpath : o.path = n.path := hr.path o rfl
      have hn := hgone rfl hfits.2.1 hm
      rw [hpath] at hn
      exact (hc.delete hn.1 hn.2).create n
  | MaybeModifiedTree n =>
    obtain rfl : c.conflict we = c' := by simpa [withWorktreeFile,hs] using h
    exact .conflict w q c we
  | UnmodifiedBlob n =>
    obtain rfl : c = c' := by simpa [withWorktreeFile,hs] using h
    exact hc
  | UnmodifiedTree n sub => cases h
  | DeletedTree o sub =>
    obtain rfl : c.conflict we = c' := by simpa [withWorktreeFile,hs] using h
    exact .conflict w q c we
  | CreatedTree n sub =>
    obtain rfl : c.conflict n = c' := by simpa [withWorktreeFile,hs] using h
    exact .conflict w q c n
  | BlobToTree o n sub =>
    by_cases hm : modified = true
    · obtain rfl : c.conflict we = c' := by simpa [withWorktreeFile,hm,hs] using h
      exact .conflict w q c we
    · obtain rfl : c.blobToTree o (n::sub) = c' := by simpa [withWorktreeFile,hm] using h
      exact (hc.delete (hgone rfl hfits.2.1 hm).1 (hgone rfl hfits.2.1 hm).2).createTree (n::sub)
  | TreeToBlob o sub n =>
    obtain rfl : c.conflict we = c' := by simpa [withWorktreeFile,hs] using h
    exact .conflict w q c we

end Steps

/-! ### Asking about the file -/

section Asking
variable {r s : Repo} {n we : BitIndexEntry} {tracked : Prop}

theorem Vouched.unique {w : Worktree} {x y : BitIndexEntry} (hx : Vouched w x) (hy : Vouched w y) (h : x.path = y.path) : x = y := by
  obtain ⟨f,hf,hxf⟩ := hx
  obtain ⟨g,hg,hyg⟩ := hy
  rw [h,hg] at hf
  obtain rfl : g = f := Option.some.inj (Option.some.inj hf)
  rw [hxf,hyg,h]

theorem Vouched.not_tree {w : Worktree} {x : BitIndexEntry} (hx : Vouched w x) : x.isTree = false := by
  obtain ⟨f,-,hxf⟩ := hx
  rw [hxf]
  rfl

/-- The index may have been refreshed, but not for the file `n` if that is tracked. -/
def StillUnsaved (r : Repo) (n : BitIndexEntry) (tracked : Prop) (s : Repo) : Prop :=
  ∃ idx, s = {r with index := idx} ∧
    (tracked → ∀ o ∈ idx.entries, o.key = n.key → verdict r.indexMtime r.worktree (o,n) = .Yes)

/-- An answer keeps that, and for the file itself it is that it was changed. -/
def Answers (P : Repo → Prop) (w : Worktree) (n : BitIndexEntry) (tracked : Prop) : Prop :=
  ∀ we s, Vouched w we → P s →
    Ends (fun b t => P t ∧ (we = n → tracked → b = true)) P (isWorktreeEntryModified we s)

theorem answers (hw : r.worktree.WellFormed) (hn : Vouched r.worktree n) (tracked : Prop) :
    Answers (StillUnsaved r n tracked) r.worktree n tracked := by
  rintro we _ hv ⟨idx,rfl,hidx⟩
  rw [isWorktreeEntryModified,run_getBind]
  cases ho : idx.findEntry we.key with
  | none => exact ⟨⟨idx,rfl,hidx⟩,fun _ _ => rfl⟩
  | some o =>
    obtain ⟨hmem,hkey⟩ := BitIndexInner.findEntry_some ho
    have hyes (hwe : we = n) (ht : tracked) : verdict r.indexMtime r.worktree (o,we) = .Yes := by
      rw [hwe] at hkey ⊢
      exact hidx ht o hmem hkey
    change Ends _ _ (hasChanges o we {r with index := idx})
    rw [hasChanges_run (r := {r with index := idx}) hw hv]
    cases hverdict : verdict r.indexMtime r.worktree (o,we) with
    | Yes => exact ⟨⟨idx,rfl,hidx⟩,fun _ _ => rfl⟩
    | No => exact ⟨⟨idx,rfl,hidx⟩,fun hwe ht => absurd (hverdict.symm.trans (hyes hwe ht)) (by simp)⟩
    | Maybe =>
      refine ⟨⟨_,rfl,fun ht x hx hxk => ?_⟩,fun hwe ht => absurd (hverdict.symm.trans (hyes hwe ht)) (by simp)⟩
      rcases BitIndexInner.mem_addedEntry hx with rfl | hx
      · -- the entry that is refreshed is that of another file
        obtain ⟨f,-,-,hhashed⟩ := Worktree.hashed_of_vouched hv
        have hpath : we.path = n.path := by
          have hpath := congrArg Prod.fst hxk
          rwa [hhashed] at hpath
        have hno := hyes (hv.unique hn hpath) ht
        rw [hverdict] at hno
        cases hno
      · exact hidx ht x hx hxk

end Asking

/-! ### Planning -/

section Planning
variable {P : Repo → Prop} {w : Worktree} {n we : BitIndexEntry} {tracked : Prop} {head : Tree} {s : Repo}
  {strategy : CheckoutStrategy} {c c' : CheckoutCtxt} {d : TreeDiffEntry} {ds : List TreeDiffEntry} {wt : List BitIndexEntry}

/-- A file of the worktree that the subtree does not have, or that was changed, is a difference. -/
theorem treesAreDiff_finds (hask : Answers P w n tracked) {fuel : ℕ} {old new : List BitIndexEntry}
    (hfuel : old.length+new.length ≤ fuel) (hwalk : Walked w new) (hn : n ∈ new) (hv : Vouched w n)
    (hold : ∀ o ∈ old, o.isTree = false → o.path.asBytes = n.path.asBytes → tracked) (hs : P s) :
    Ends (fun b t => P t ∧ b = true) P (treesAreDiff fuel old new s) := by
  induction fuel generalizing old new s with
  | zero =>
    obtain rfl : new = [] := by
      rw [← List.length_eq_zero_iff]
      omega
    cases hn
  | succ fuel ih =>
    rcases turn_cases (fun _ n => isWorktreeEntryModified n) false old new with
      ⟨t,ht,hturn⟩ | ⟨o,os,x,xs,rfl,rfl,hpath,ho,hx,hturn⟩
    · simp only [treesAreDiff,hturn,pure_bind]
      cases ht with
      | done => cases hn
      | @created old x xs _ =>
        unfold onCreated
        by_cases hx : x.isTree = true
        · rw [if_pos hx]
          exact ⟨hs,rfl⟩
        · rw [if_neg hx]
          exact ⟨hs,rfl⟩
      | @deleted o os new _ =>
        unfold onDeleted
        by_cases ho : o.isTree = true
        · rw [if_pos ho]
          exact ⟨hs,rfl⟩
        · rw [if_neg ho]
          exact ⟨hs,rfl⟩
      | @trees o x os xs _ _ hx =>
        -- a directory of the worktree has no known id
        have hk : ¬(o.oid.isKnown ∧ o = x) := by
          rintro ⟨hk,rfl⟩
          simp [(hwalk.dir o List.mem_cons_self hx).2,Oid.isKnown] at hk
        rw [onTrees,if_neg hk]
        have hmem : n ∈ xs := (List.mem_cons.mp hn).resolve_left fun he => by
          rw [← he,hv.not_tree] at hx
          cases hx
        exact ih (by simp only [List.length_cons] at hfuel; omega) (hwalk.sublist (List.sublist_cons_self x xs)) hmem
          (fun y hy => hold y (List.mem_cons_of_mem _ hy)) hs
      | treeToBlob => exact ⟨hs,rfl⟩
      | blobToTree => exact ⟨hs,rfl⟩
    · simp only [treesAreDiff,hturn,bind_assoc]
      refine Ends.bind (hask x s (hwalk.file x List.mem_cons_self hx) hs) fun b t ht => ?_
      cases b with
      | true => exact ⟨ht.1,rfl⟩
      | false =>
        have hmem : n ∈ xs := (List.mem_cons.mp hn).resolve_left fun he => by
          have hb := ht.2 he.symm (hold o List.mem_cons_self ho (by rw [hpath,he]))
          cases hb
        exact ih (by simp only [List.length_cons] at hfuel; omega) (hwalk.sublist (List.sublist_cons_self x xs)) hmem
          (fun y hy => hold y (List.mem_cons_of_mem _ hy)) ht.1

/-- Without a conflict the migration so far spares the file, and what is to come is in step. -/
structure Planned (w : Worktree) (n : BitIndexEntry) (c : CheckoutCtxt) (ds : List TreeDiffEntry) (wt : List BitIndexEntry) :
    Prop where
  spares : c.Spares w n.path
  inStep : c.conflicts = [] → InStep n ds wt

theorem Planned.conflict (w : Worktree) (n : BitIndexEntry) (c : CheckoutCtxt) (e : BitIndexEntry) (ds : List TreeDiffEntry)
    (wt : List BitIndexEntry) : Planned w n (c.conflict e) ds wt :=
  ⟨.conflict w n.path c e,fun hc => by simp [CheckoutCtxt.conflict] at hc⟩

theorem createTree_conflicts (c : CheckoutCtxt) (tree : List BitIndexEntry) : (c.createTree tree).conflicts = c.conflicts := by
  unfold CheckoutCtxt.createTree
  induction tree generalizing c with
  | nil => rfl
  | cons e tree ih =>
    refine (ih _).trans ?_
    by_cases he : e.isTree = true
    · by_cases hroot : e.path = []
      · simp only [if_pos he,if_pos hroot]
      · simp only [if_pos he,if_neg hroot,CheckoutCtxt.mkdir]
    · simp only [if_neg he,CheckoutCtxt.create]

theorem noWorktree_conflicts (hc : (noWorktree strategy c d).conflicts = []) : c.conflicts = [] := by
  cases d with
  | DeletedBlob o => by_cases hs : strategy.isSafe = true <;> simpa [noWorktree,hs,CheckoutCtxt.delete] using hc
  | CreatedBlob n => by_cases hs : strategy.isSafe = true <;> simpa [noWorktree,hs,CheckoutCtxt.create] using hc
  | ModifiedBlob o n =>
    by_cases hs : strategy.isForced = true
    · by_cases hn : n.isTree = true <;>
        simpa [noWorktree,hs,CheckoutCtxt.update,hn,CheckoutCtxt.create,CheckoutCtxt.delete,CheckoutCtxt.deleteTree] using hc
    · simp [noWorktree,hs,CheckoutCtxt.conflict] at hc
  | MaybeModifiedTree n => exact hc
  | UnmodifiedBlob n => by_cases hs : strategy.isForced = true <;> simpa [noWorktree,hs,CheckoutCtxt.create] using hc
  | UnmodifiedTree n sub => by_cases hs : strategy.isForced = true <;> simpa [noWorktree,hs,createTree_conflicts] using hc
  | DeletedTree o sub => by_cases hs : strategy.isSafe = true <;> simpa [noWorktree,hs,CheckoutCtxt.deleteTree] using hc
  | CreatedTree n sub => simpa [noWorktree,createTree_conflicts] using hc
  | BlobToTree o n sub => simpa [noWorktree,CheckoutCtxt.blobToTree,createTree_conflicts,CheckoutCtxt.delete] using hc
  | TreeToBlob o sub n => simpa [noWorktree,CheckoutCtxt.treeToBlob,CheckoutCtxt.create,CheckoutCtxt.deleteTree] using hc

theorem withWorktreeFile_conflicts (hs : strategy.isForced = false) {modified : Bool}
    (h : withWorktreeFile strategy c we modified d = some c') (hc : c'.conflicts = []) : c.conflicts = [] ∧ ¬d.Enters := by
  cases d with
  | DeletedBlob o =>
    cases modified with
    | true => simp [hs,← Option.some.inj h,CheckoutCtxt.conflict] at hc
    | false => exact ⟨by simpa [withWorktreeFile,← Option.some.inj h,CheckoutCtxt.delete] using hc,id⟩
  | ModifiedBlob o n =>
    cases modified with
    | true => simp [hs,← Option.some.inj h,CheckoutCtxt.conflict] at hc
    | false =>
      refine ⟨?_,id⟩
      rw [← Option.some.inj h] at hc
      by_cases hn : n.isTree = true <;>
        simpa [CheckoutCtxt.update,hn,CheckoutCtxt.create,CheckoutCtxt.delete,CheckoutCtxt.deleteTree] using hc
  | UnmodifiedBlob n => exact ⟨by simpa [withWorktreeFile,hs,← Option.some.inj h] using hc,id⟩
  | UnmodifiedTree n sub => cases h
  | BlobToTree o n sub =>
    cases modified with
    | true => simp [hs,← Option.some.inj h,CheckoutCtxt.conflict] at hc
    | false =>
      refine ⟨?_,id⟩
      rw [← Option.some.inj h] at hc
      simpa [CheckoutCtxt.blobToTree,createTree_conflicts,CheckoutCtxt.delete] using hc
  | CreatedBlob n => simp [hs,← Option.some.inj h,CheckoutCtxt.conflict] at hc
  | MaybeModifiedTree n => simp [hs,← Option.some.inj h,CheckoutCtxt.conflict] at hc
  | DeletedTree o sub => simp [hs,← Option.some.inj h,CheckoutCtxt.conflict] at hc
  | CreatedTree n sub => simp [hs,← Option.some.inj h,CheckoutCtxt.conflict] at hc
  | TreeToBlob o sub n => simp [hs,← Option.some.inj h,CheckoutCtxt.conflict] at hc

theorem worktreeOnly_unforced (hs : strategy.isForced = false) (c : CheckoutCtxt) (we : BitIndexEntry) (wt : List BitIndexEntry) :
    worktreeOnly strategy c (we::wt) we = (c,Iter.stepOver (we::wt)) := by
  by_cases hwe : we.isTree = true
  · simp [worktreeOnly,hs,hwe]
  · simp [worktreeOnly,hs,hwe,Iter.stepOver]

theorem worktreeRest_unforced (hs : strategy.isForced = false) (fuel : ℕ) (c : CheckoutCtxt) (wt : List BitIndexEntry) :
    worktreeRest strategy fuel c wt = c := by
  induction fuel generalizing wt with
  | zero => rfl
  | succ fuel ih =>
    cases wt with
    | nil => rfl
    | cons we wt =>
      rw [worktreeRest,worktreeOnly_unforced hs]
      exact ih _

theorem noWorktree_planned (hs : strategy.isForced = false) (hr : d.Removable w) (hp : Planned w n c (d::ds) wt)
    (hlt : ∀ x ∈ wt, d.path.asBytes < x.path.asBytes) : Planned w n (noWorktree strategy c d) ds wt := by
  have hahead (hc : (noWorktree strategy c d).conflicts = []) := (hp.inStep (noWorktree_conflicts hc)).ahead hlt
  exact ⟨fun hc => noWorktree_spares hs hr (hahead hc).1 hp.spares hc,fun hc => (hahead hc).2⟩

variable (hs : strategy.isForced = false) (hask : Answers P w n tracked) (hv : Vouched w n) (hds : Differences head (d::ds))
  (hhead : ∀ o ∈ treeIter (.tree head), o.isTree = false → o.path.asBytes = n.path.asBytes → tracked)
  (hr : d.Removable w) (hwt : Walked w (we::wt)) (hpath : we.path = d.path) (hp : Planned w n c (d::ds) (we::wt)) (hP : P s)
include hs hask hv hds hhead hr hwt hpath hp hP

omit hs hds hr in
/-- Where the file is in danger there are local changes. -/
theorem treesAreDiff_guards (hdir : we.isTree = true) {e : BitIndexEntry} {sub : List BitIndexEntry}
    (hsub : e::sub ⊆ treeIter (.tree head)) :
    Ends (fun b t => P t ∧ (c.conflicts = [] → d.Threatens n.path → b = true)) P
      (treesAreDiff ((e::sub).length+(we::wt).length) (e::sub) (Iter.subtree (we::wt)) s) := by
  have hsublist : (Iter.subtree (we::wt)).Sublist (we::wt) := (List.takeWhile_sublist _).cons_cons we
  by_cases hdanger : c.conflicts = [] ∧ d.Threatens n.path
  · have hmem := (hp.inStep hdanger.1).file d List.mem_cons_self hdanger.2
    have hin : n ∈ Iter.subtree (we::wt) := by
      rcases mem_cons_block hmem hdir with rfl | hin | hout
      · exact List.mem_cons_self
      · exact List.mem_of_mem_tail hin
      · exact absurd (hpath ▸ hdanger.2.2) (hwt.preorder.2.1 n hout)
    have hfinds := treesAreDiff_finds hask (Nat.add_le_add_left hsublist.length_le (e::sub).length) (hwt.sublist hsublist) hin
      hv (fun o ho => hhead o (hsub ho)) hP
    exact hfinds.mono (fun _ _ h => ⟨h.1,fun _ _ => h.2⟩) fun _ h => h
  · have hask' (x : BitIndexEntry) (t : Repo) (hx : Vouched w x) (ht : P t) :
        Ends (fun _ => P) P (isWorktreeEntryModified x t) := (hask x t hx ht).mono (fun _ _ h => h.1) fun _ h => h
    have hends := treesAreDiff_ends hask' ((e::sub).length+(we::wt).length) (e::sub)
      (fun x hx => hwt.file x (hsublist.subset hx)) hP
    exact hends.mono (fun _ _ h => ⟨h,fun hc ht => absurd ⟨hc,ht⟩ hdanger⟩) fun _ h => h

theorem withWorktreeDir_planned {recurse : CheckoutCtxt → List BitIndexEntry → List BitIndexEntry → Plan}
    (hdir : we.isTree = true) : Ends (fun x t => P t ∧ x.2 <:+ we::wt ∧ Planned w n x.1 ds x.2) P
      (withWorktreeDir strategy recurse c (we::wt) d we s) := by
  have hself : we::wt <:+ we::wt := List.suffix_refl _
  have hover : Iter.stepOver (we::wt) <:+ we::wt := (stepOver_suffix we wt).trans (List.suffix_cons we wt)
  have hne : n ≠ we := fun he => by
    rw [← he,hv.not_tree] at hdir
    cases hdir
  have hgone (hsome : d.removes ≠ none) {b : Bool} (hb : c.conflicts = [] → d.Threatens n.path → b = true) (hno : b = false) :
      (c.deleteTree we).Spares w n.path := fun hc => by
    refine hp.spares.deleteTree (hpath ▸ hr.reached hsome) (fun hpre => ?_) hc
    have hyes := hb hc ⟨hsome,hpath ▸ hpre⟩
    rw [hno] at hyes
    cases hyes
  have hfits := hds.fits d List.mem_cons_self
  cases d with
  | DeletedBlob o =>
    simp only [withWorktreeDir,hs,Bool.false_eq_true,if_false]
    refine ⟨hP,hself,hp.spares.delete (hr.reached (by simp [TreeDiffEntry.removes])) fun he => ?_,fun hc =>
      (hp.inStep hc).stay hds id⟩
    obtain ⟨f,hf,-⟩ := hv
    have hlook := (hwt.dir we List.mem_cons_self hdir).1
    rw [hpath,show (TreeDiffEntry.DeletedBlob o).path = n.path from he,hf] at hlook
    cases hlook
  | CreatedBlob x => exact hP
  | ModifiedBlob o x =>
    simp only [withWorktreeDir,hs,Bool.false_eq_true,if_false]
    exact ⟨hP,hover,.conflict w n c we ds _⟩
  | MaybeModifiedTree x => exact ⟨hP,List.suffix_cons we wt,hp.spares,fun hc => (hp.inStep hc).enter hds hwt hne.symm hpath⟩
  | UnmodifiedBlob x => exact hP
  | UnmodifiedTree x sub =>
    simp only [withWorktreeDir,hs,Bool.false_eq_true,if_false]
    exact ⟨hP,hover,hp.spares,fun hc => (hp.inStep hc).pass hds id hpath⟩
  | DeletedTree o sub =>
    simp only [withWorktreeDir,hs,Bool.false_eq_true,if_false]
    refine Ends.bind (treesAreDiff_guards hask hv hhead hwt hpath hp hP hdir (List.cons_subset.mpr ⟨hfits.1,hfits.2.2⟩)) fun b t ht => ?_
    cases b with
    | true => exact ⟨ht.1,hover,.conflict w n c we ds _⟩
    | false =>
      exact ⟨ht.1,hover,hgone (by simp [TreeDiffEntry.removes]) ht.2 rfl,fun hc => (hp.inStep hc).pass hds id hpath⟩
  | CreatedTree x sub =>
    simp only [withWorktreeDir,hs,Bool.false_eq_true,if_false]
    exact ⟨hP,hover,.conflict w n c x ds _⟩
  | BlobToTree o x sub =>
    simp only [withWorktreeDir,hs,Bool.false_eq_true,if_false]
    exact ⟨hP,hover,.conflict w n c x ds _⟩
  | TreeToBlob o sub x =>
    simp only [withWorktreeDir,hs,Bool.false_eq_true,if_false]
    refine Ends.bind (treesAreDiff_guards hask hv hhead hwt hpath hp hP hdir (List.cons_subset.mpr ⟨hfits.1,hfits.2.2.1⟩)) fun b t ht => ?_
    cases b with
    | true => exact ⟨ht.1,hover,.conflict w n c x ds _⟩
    | false =>
      exact ⟨ht.1,hover,(hgone (by simp [TreeDiffEntry.removes]) ht.2 rfl).create x,
        fun hc => (hp.inStep hc).pass hds id hpath⟩

theorem withWorktree_planned {recurse : CheckoutCtxt → List BitIndexEntry → List BitIndexEntry → Plan} :
    Ends (fun x t => P t ∧ x.2 <:+ we::wt ∧ Planned w n x.1 ds x.2) P
      (withWorktree strategy recurse c (we::wt) d we s) := by
  by_cases hdir : we.isTree = true
  · simp only [withWorktree,if_pos hdir]
    exact withWorktreeDir_planned hs hask hv hds hhead hr hwt hpath hp hP hdir
  · simp only [withWorktree,if_neg hdir]
    have hvouched := hwt.file we List.mem_cons_self (by simpa using hdir)
    refine Ends.bind (hask we s hvouched hP) fun modified t ht => ?_
    cases hfile : withWorktreeFile strategy c we modified d with
    | none => exact ht.1
    | some c' =>
      refine ⟨ht.1,List.suffix_cons we wt,withWorktreeFile_spares hs hr (hds.fits d List.mem_cons_self) ?_ hp.spares hfile,
        fun hc => ?_⟩
      · intro o ho hblob hself
        obtain ⟨hmem,hopath⟩ := (hds.fits d List.mem_cons_self).removes ho
        exact ht.2 (hvouched.unique hv (hpath.trans hself)) (hhead o hmem hblob (by rw [hopath,hself]))
      · obtain ⟨hc,hstop⟩ := withWorktreeFile_conflicts hs hfile hc
        have hpass := (hp.inStep hc).pass hds hstop hpath
        rwa [Iter.stepOver,if_neg hdir] at hpass

omit hds hr hwt hpath hp hP in
theorem checkoutLoop_spares (fuel : ℕ) (hds : Differences head ds) (hr : ∀ d ∈ ds, d.Removable w) (hwt : Walked w wt)
    (hp : Planned w n c ds wt) (hP : P s) :
    Ends (fun x t => P t ∧ x.1.Spares w n.path) P (checkoutLoop strategy fuel c ds wt s) := by
  induction fuel generalizing c ds wt s with
  | zero => exact hP
  | succ fuel ih =>
    cases ds with
    | nil => exact ⟨hP,hp.spares⟩
    | cons d ds =>
      have hr' : ∀ d ∈ ds, d.Removable w := fun d hd => hr d (List.mem_cons_of_mem _ hd)
      cases wt with
      | nil =>
        exact ih hds.tail hr' hwt (noWorktree_planned hs (hr d List.mem_cons_self) hp (by simp)) hP
      | cons we wt =>
        cases hcmp : we.diffCmp d.indexEntry with
        | lt =>
          simp only [checkoutLoop,hcmp,worktreeOnly_unforced hs]
          have hsub := ((stepOver_suffix we wt).trans (List.suffix_cons we wt)).sublist
          exact ih hds hr (hwt.sublist hsub) ⟨hp.spares,fun hc => (hp.inStep hc).behind hds (diffCmp_lt.mp hcmp)⟩ hP
        | gt =>
          simp only [checkoutLoop,hcmp]
          have hlt : d.path.asBytes < we.path.asBytes := diffCmp_gt.mp hcmp
          refine ih hds.tail hr' hwt (noWorktree_planned hs (hr d List.mem_cons_self) hp fun x hx => ?_) hP
          rcases List.mem_cons.mp hx with rfl | hx
          · exact hlt
          · exact hlt.trans ((List.pairwise_cons.mp hwt.order).1 x hx)
        | eq =>
          simp only [checkoutLoop,hcmp]
          have hpath : we.path = d.path :=
            BitPath.asBytes_injective (hwt.normal we List.mem_cons_self) (hds.normal d List.mem_cons_self) (diffCmp_eq.mp hcmp)
          refine Ends.bind (withWorktree_planned hs hask hv hds hhead (hr d List.mem_cons_self) hwt hpath hp hP) fun x t ht => ?_
          exact ih hds.tail hr' (hwt.sublist ht.2.1.sublist) ht.2.2 ht.1

omit hds hr hwt hpath hp hP in
/-- A plan that is returned spares the file. -/
theorem generate_misses {baseline target : List BitIndexEntry} (hds : Differences head (treeDiffIter true baseline target))
    (hr : ∀ d ∈ treeDiffIter true baseline target, d.Removable w) (hwt : Walked w wt)
    (hstep : InStep n (treeDiffIter true baseline target) wt) (hP : P s) :
    Ends (fun m t => P t ∧ m.Misses w n.path) P (generate strategy baseline target wt s) := by
  have hempty : (⟨.empty,[]⟩ : CheckoutCtxt).Spares w n.path := fun _ =>
    ⟨fun _ he => absurd he List.not_mem_nil,fun _ he => absurd he List.not_mem_nil⟩
  refine Ends.bind (checkoutLoop_spares hs hask hv hhead _ hds hr hwt ⟨hempty,fun _ => hstep⟩ hP) ?_
  rintro ⟨c,rest⟩ t ht
  simp only [worktreeRest_unforced hs]
  exact Ends.ite (fun hc => ⟨ht.1,ht.2 hc⟩) fun _ => ht.1

end Planning

/-! ### The whole checkout -/

section Checkout
variable {env : Env} {r : Repo} {target : List BitIndexEntry} {strategy : CheckoutStrategy} {q : BitPath} {f : FileNode}

/-- The iterators yield their entries in the order in which they are compared. A file `a-b` beside a directory `a` breaks it. -/
structure Repo.InOrder (env : Env) (r : Repo) (target : List BitIndexEntry) : Prop where
  head : Sorted (treeIter r.headTree)
  target : Sorted target
  worktree : Sorted (worktreeTreeIter env.gitignore r.index r.worktree)

/-- A file of the worktree that is not ignored, nor a directory above it, and that HEAD does not have or that is found to have
changed. -/
structure Repo.Unsaved (env : Env) (r : Repo) (q : BitPath) (f : FileNode) : Prop where
  file : r.worktree.look q = some (some f)
  listed : ∀ d, d <+: q → ∃ e ∈ worktreeTreeIter env.gitignore r.index r.worktree, e.path = d
  unsaved : (∀ a, r.headTree.treeish.look q ≠ some (some a)) ∨
    ∀ o ∈ r.index.entries, o.key = (q,.NONE) → verdict r.indexMtime r.worktree (o,f.toEntry q) = .Yes

theorem walked_worktreeTreeIter (hw : r.worktree.WellFormed)
    (horder : Sorted (worktreeTreeIter env.gitignore r.index r.worktree)) :
    Walked r.worktree (worktreeTreeIter env.gitignore r.index r.worktree) := by
  have hfile (e : BitIndexEntry) (he : e ∈ worktreeTreeIter env.gitignore r.index r.worktree) (hblob : e.isTree = false) :=
    vouched_of_iter hw he hblob
  have hdir (e : BitIndexEntry) (he : e ∈ worktreeTreeIter env.gitignore r.index r.worktree) (htree : e.isTree = true) :
      r.worktree.look e.path = some none ∧ e.oid = .UNKNOWN := by
    rcases List.mem_cons.mp (List.mem_of_mem_filter he) with rfl | he
    · exact ⟨Forest.look_nil_path _,rfl⟩
    · obtain ⟨⟨p,g | s⟩,hx,rfl⟩ := List.mem_map.mp he
      · cases htree
      · obtain ⟨-,hsub⟩ := (@Forest.mem_entries_node _ _ _ _ (hw.distinct.sort entryLt) [] p s).mp hx
        refine ⟨?_,rfl⟩
        rw [← Forest.look_sort entryLt hw.distinct]
        exact Forest.look_eq_dir.mpr ⟨s,hsub⟩
  refine ⟨horder,Iterators.preorder_worktreeTreeIter hw,fun e he => hw.normal ?_,hfile,hdir⟩
  cases hkind : e.isTree with
  | true => simp [(hdir e he hkind).1]
  | false =>
    obtain ⟨g,hg,-⟩ := hfile e he hkind
    simp [hg]

section Head
variable {t : Tree} (ht : t.WellFormed)
include ht

theorem look_of_mem_treeIter {x : BitIndexEntry} (hx : x ∈ treeIter (.tree t)) : t.look x.path ≠ none := by
  cases hkind : x.isTree with
  | true =>
    obtain ⟨s,hs,-⟩ := mem_treeIter_dir ht hx hkind
    simp [Forest.look_eq_dir.mpr ⟨s,hs⟩]
  | false =>
    obtain ⟨a,ha,-⟩ := mem_treeIter_file ht hx hkind
    simp [ha]

theorem exists_treeIter_dir {p : BitPath} (hp : t.look p = some none) : ∃ x ∈ treeIter (.tree t), x.path = p := by
  by_cases hroot : p = []
  · exact ⟨_,List.mem_cons_self,hroot.symm⟩
  · obtain ⟨s,hs⟩ := Forest.look_eq_dir.mp hp
    refine ⟨_,List.mem_cons_of_mem _ (List.mem_map.mpr ⟨(p,.inr s),?_,rfl⟩),rfl⟩
    exact (@Forest.mem_entries_node _ _ _ _ ht.distinct [] p s).mpr ⟨hroot,hs⟩

variable (htarget : ∀ e ∈ target, e.path.Normal) {fuel : ℕ} {d : TreeDiffEntry}
include htarget

theorem normal_of_drain (hd : d ∈ drain true fuel (treeIter (.tree t)) target) : d.path.Normal := by
  rcases (mem_drain hd).1 with hmem | hmem
  · exact ht.normal (look_of_mem_treeIter ht hmem)
  · exact htarget _ hmem

/-- What an entry of the difference may have removed has its path in HEAD. -/
theorem drain_removes {o : BitIndexEntry} (hd : d ∈ drain true fuel (treeIter (.tree t)) target) (ho : d.removes = some o) :
    o ∈ treeIter (.tree t) ∧ o.path = d.path := by
  obtain ⟨hmem,hpath⟩ := (mem_drain hd).2.removes ho
  exact ⟨hmem,BitPath.asBytes_injective (ht.normal (look_of_mem_treeIter ht hmem)) (normal_of_drain ht htarget hd) hpath⟩

variable (hsorted : Sorted (treeIter (.tree t)))
include hsorted

/-- Above it the difference has an entry for every directory, and goes on there. -/
theorem drain_above (hd : d ∈ drain true fuel (treeIter (.tree t)) target) (hsome : d.removes ≠ none) {p : BitPath}
    (hp : p <+: d.path) (hne : p ≠ d.path) : ∃ d' ∈ drain true fuel (treeIter (.tree t)) target, d'.path = p ∧ d'.Enters := by
  obtain ⟨o,ho⟩ := Option.ne_none_iff_exists'.mp hsome
  obtain ⟨hmem,hpath⟩ := drain_removes ht htarget hd ho
  have hdir : t.look p = some none := Forest.look_prefix (hpath ▸ look_of_mem_treeIter ht hmem) hp hne
  obtain ⟨x,hx,rfl⟩ := exists_treeIter_dir ht hdir
  have hpre : Preorder (treeIter (.tree t)) := Tree.Distinct.preorder ht.distinct
  obtain ⟨d',hd',hbytes,henters⟩ := drain_enters hsorted hpre hd ho hx (hpath ▸ hp) (hpath ▸ hne)
  exact ⟨d',hd',BitPath.asBytes_injective (normal_of_drain ht htarget hd') (ht.normal (look_of_mem_treeIter ht hx)) hbytes,
    henters⟩

theorem differences_drain (hsorted' : Sorted target) : Differences t (drain true fuel (treeIter (.tree t)) target) := by
  have horder := @drain_sorted _ _ fuel hsorted hsorted'
  refine ⟨horder,fun d hd => normal_of_drain ht htarget hd,fun d hd => (mem_drain hd).2,fun d hd d' hd' hsome hpre hne => ?_⟩
  obtain ⟨d'',hd'',hpath,henters⟩ := drain_above ht htarget hsorted hd' hsome hpre hne
  have hnodup : ((drain true fuel (treeIter (.tree t)) target).map fun d => d.path.asBytes).Nodup :=
    List.pairwise_map.mpr (horder.imp fun hlt => hlt.ne)
  rwa [← List.inj_on_of_nodup_map hnodup hd'' hd (by rw [hpath])]

omit hsorted in
/-- No link stands above what may be removed, when none stands where HEAD has a directory. -/
theorem removable_drain {w : Worktree} (hlink : ∀ d g, t.look d = some none → w.look d = some (some g) → g.mode ≠ .LINK)
    (hd : d ∈ drain true fuel (treeIter (.tree t)) target) : d.Removable w := by
  refine ⟨fun o ho => (drain_removes ht htarget hd ho).2,fun hsome => ⟨normal_of_drain ht htarget hd,fun p hp hne g hg => ?_⟩⟩
  obtain ⟨o,ho⟩ := Option.ne_none_iff_exists'.mp hsome
  obtain ⟨hmem,hpath⟩ := drain_removes ht htarget hd ho
  exact hlink p g (Forest.look_prefix (hpath ▸ look_of_mem_treeIter ht hmem) hp hne) hg

/-- The difference and the walk start in step. -/
theorem inStep_drain {n : BitIndexEntry} {wt : List BitIndexEntry} (hn : n ∈ wt)
    (hlisted : ∀ d, d <+: n.path → ∃ e ∈ wt, e.path = d) : InStep n (drain true fuel (treeIter (.tree t)) target) wt := by
  refine ⟨fun _ _ _ => hn,fun d _ hd => hlisted d.path hd.2,fun d hd hthreat x hx hpre hne => ?_⟩
  obtain ⟨d',hd',hpath,-⟩ := drain_above ht htarget hsorted hd hthreat.1 hpre hne
  exact ⟨d',hd',hpath⟩

end Head

namespace Repo.Unsaved
variable (hq : r.Unsaved env q f)
include hq

theorem mem_walk (hwalked : Walked r.worktree (worktreeTreeIter env.gitignore r.index r.worktree)) :
    f.toEntry q ∈ worktreeTreeIter env.gitignore r.index r.worktree := by
  obtain ⟨e,he,rfl⟩ := hq.listed q List.prefix_rfl
  cases hkind : e.isTree with
  | true =>
    have hdir := (hwalked.dir e he hkind).1
    rw [hq.file] at hdir
    cases hdir
  | false => rwa [← (hwalked.file e he hkind).unique (Worktree.vouched_file hq.file) rfl]

theorem still : StillUnsaved r (f.toEntry q) (∃ a, r.headTree.treeish.look q = some (some a)) r := by
  refine ⟨r.index,rfl,?_⟩
  rintro ⟨a,ha⟩
  exact hq.unsaved.resolve_left fun hnone => hnone a ha

end Repo.Unsaved

/-- The target has another `f` and no `d`; the file `u` was never added. -/
def untrackedRepo : Repo where
  commits := [⟨.node [100] (.leaf [120] (.REG,[1]) .nil) (.leaf [102] (.REG,[97]) .nil),[],(1,0)⟩]
  head := .Direct 0
  refs := []
  index := ⟨[⟨[[100],[120]],.blob .REG,.blob [1],.NONE,⟨1,2,1⟩⟩,sampleEntry],none⟩
  indexMtime := some 50
  worktree := .node [100] (.leaf [120] ⟨.REG,[1],1,2⟩ .nil) (.leaf [102] (sampleFile .REG 5 1) (.leaf [117] (sampleFile .REG 60 9) .nil))
  clock := 0

def untrackedTarget : Tree := .leaf [102] (.REG,[98]) .nil

example : endState (checkoutTreeWithOpts .plain untrackedTarget .Safe untrackedRepo) = .ok {untrackedRepo with
    index := ⟨[⟨[[102]],.blob .REG,.blob [98],.NONE,⟨100,100,1⟩⟩],none⟩
    worktree := .leaf [102] ⟨.REG,[98],100,100⟩ (.leaf [117] (sampleFile .REG 60 9) .nil)
    clock := 1} := by rfl

/-- The walk of the worktree comes by `a-b` before it comes by `a`, which the target does not have. -/
def untrackedDashRepo : Repo where
  commits := [⟨.node [97] (.leaf [120] (.REG,[1]) .nil) .nil,[],(1,0)⟩]
  head := .Direct 0
  refs := []
  index := ⟨[⟨[[97],[120]],.blob .REG,.blob [1],.NONE,⟨1,2,1⟩⟩],none⟩
  indexMtime := some 50
  worktree := .leaf [97,45,98] (sampleFile .REG 60 8)
    (.node [97] (.leaf [117] (sampleFile .REG 60 9) (.leaf [120] ⟨.REG,[1],1,2⟩ .nil)) .nil)
  clock := 0

-- the file `a/u` is lost
example : endState (checkoutTreeWithOpts .plain .nil .Safe untrackedDashRepo) =
    .ok {untrackedDashRepo with index := ⟨[],none⟩, worktree := .leaf [97,45,98] (sampleFile .REG 60 8) .nil} := by rfl

end Checkout

end Libbit
