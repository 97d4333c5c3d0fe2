import Libbit.Lib.Join
import Libbit.Listing

/-! The difference of two trees. Two directories of one path are compared, entered or passed over only if
both iterators stand at them at the same time; otherwise all that is below them counts as deleted and
as created. -/
namespace Libbit

open Lib

def diffTreeToTree (a b : Tree) : WorkspaceStatus := diffIterators (treeIter (.tree a)) (treeIter (.tree b))

/-- The entry of a file of a tree. -/
def fileEntry (x : BitPath × BlobMode × Bytes) : BitIndexEntry := .ofTreeEntry ⟨.blob x.2.1,x.1,.blob x.2.2⟩

/-- The difference of the files of two trees. -/
structure ExactDiff (a b : Tree) (s : WorkspaceStatus) : Prop where
  once : (s.new.map BitIndexEntry.path++s.deleted.map BitIndexEntry.path++s.modified.map fun m => m.1.path).Nodup
  new : ∀ e, e ∈ s.new ↔ ∃ y ∈ b.flatten [], (∀ x ∈ a.flatten [], y.1 ≠ x.1) ∧ e = fileEntry y
  deleted : ∀ e, e ∈ s.deleted ↔ ∃ x ∈ a.flatten [], (∀ y ∈ b.flatten [], x.1 ≠ y.1) ∧ e = fileEntry x
  modified : ∀ m, m ∈ s.modified ↔
    ∃ x ∈ a.flatten [], ∃ y ∈ b.flatten [], x.1 = y.1 ∧ x.2.2 ≠ y.2.2 ∧ m = (fileEntry x,fileEntry y)

namespace TreeDiffIter

/-- The first entry, with all that is below it if it is a directory. -/
def block : List BitIndexEntry → List BitIndexEntry
  | [] => []
  | e::rest => if e.isTree then Iter.subtree (e::rest) else [e]

/-- The turns of the loop, each with what it takes from the two iterators. -/
inductive Run : List BitIndexEntry → List BitIndexEntry → List (List BitIndexEntry × List BitIndexEntry) → Prop
  | done : Run [] [] []
  | deleted {o : BitIndexEntry} {os new : List BitIndexEntry} {ts : List (List BitIndexEntry × List BitIndexEntry)}
      (h : ∀ n ∈ new.head?, o.path.asBytes < n.path.asBytes) (run : Run (Iter.stepOver (o::os)) new ts) :
      Run (o::os) new ((block (o::os),[])::ts)
  | created {n : BitIndexEntry} {old ns : List BitIndexEntry} {ts : List (List BitIndexEntry × List BitIndexEntry)}
      (h : ∀ o ∈ old.head?, n.path.asBytes < o.path.asBytes) (run : Run old (Iter.stepOver (n::ns)) ts) :
      Run old (n::ns) (([],block (n::ns))::ts)
  | entered {o n : BitIndexEntry} {os ns : List BitIndexEntry} {ts : List (List BitIndexEntry × List BitIndexEntry)}
      (h : o.path.asBytes = n.path.asBytes) (ho : o.isTree = true) (hn : n.isTree = true) (hne : ¬(o.oid.isKnown ∧ o = n))
      (run : Run os ns ts) : Run (o::os) (n::ns) (([o],[n])::ts)
  | passed {o n : BitIndexEntry} {os ns : List BitIndexEntry} {ts : List (List BitIndexEntry × List BitIndexEntry)}
      (h : o.path.asBytes = n.path.asBytes) (heq : o.isTree = true → n.isTree = true → o = n)
      (run : Run (Iter.stepOver (o::os)) (Iter.stepOver (n::ns)) ts) : Run (o::os) (n::ns) ((block (o::os),block (n::ns))::ts)

/-- What a turn adds to the difference. -/
def report : List BitIndexEntry × List BitIndexEntry → WorkspaceStatus
  | (o::os,n::ns) =>
    if o.isTree = n.isTree then (if o.isTree = false ∧ o.oid ≠ n.oid then ⟨[],[(o,n)],[]⟩ else .empty)
    else ⟨files (n::ns),[],files (o::os)⟩
  | (old,new) => ⟨files new,[],files old⟩

section Run

theorem block_append (l : List BitIndexEntry) : block l++Iter.stepOver l = l := by
  cases l with
  | nil => rfl
  | cons e rest =>
    by_cases he : e.isTree = true
    · simp [block,Iter.stepOver,Iter.subtree,he,List.takeWhile_append_dropWhile]
    · simp [block,Iter.stepOver,he]

theorem path_of_mem_block {o x : BitIndexEntry} {os : List BitIndexEntry} (h : x ∈ block (o::os)) : o.path <+: x.path := by
  by_cases ho : o.isTree = true
  · simp only [block,ho,if_true,Iter.subtree] at h
    rcases List.mem_cons.mp h with rfl | h
    · exact List.prefix_rfl
    · exact path_of_block h
  · simp only [block,ho] at h
    obtain rfl := List.mem_singleton.mp h
    exact List.prefix_rfl

theorem files_block {o : BitIndexEntry} {os : List BitIndexEntry} (ho : o.isTree = true) :
    files (block (o::os)) = files (Iter.subtree (o::os)).tail := by
  simp [block,ho,files,Iter.subtree]

theorem files_blob {o : BitIndexEntry} {os : List BitIndexEntry} (ho : o.isTree = false) : files (block (o::os)) = [o] := by
  simp [block,ho,files]

/-- The status once the reports of the turns are added. -/
def added (s : WorkspaceStatus) (ts : List (List BitIndexEntry × List BitIndexEntry)) : WorkspaceStatus where
  new := s.new++ts.flatMap fun t => (report t).new
  modified := s.modified++ts.flatMap fun t => (report t).modified
  deleted := s.deleted++ts.flatMap fun t => (report t).deleted

theorem added_nil (s : WorkspaceStatus) : added s [] = s := by simp [added]

theorem added_cons (s : WorkspaceStatus) (t : List BitIndexEntry × List BitIndexEntry)
    (ts : List (List BitIndexEntry × List BitIndexEntry)) :
    added s (t::ts) = added ⟨s.new++(report t).new,s.modified++(report t).modified,s.deleted++(report t).deleted⟩ ts := by
  simp [added]

theorem report_old (l : List BitIndexEntry) : report (l,[]) = ⟨[],[],files l⟩ := by cases l <;> rfl

theorem report_new (l : List BitIndexEntry) : report ([],l) = ⟨files l,[],[]⟩ := rfl

theorem stepOver_length (o : BitIndexEntry) (os : List BitIndexEntry) : (Iter.stepOver (o::os)).length ≤ os.length :=
  (stepOver_suffix o os).length_le

theorem stepOver_blob {o : BitIndexEntry} {os : List BitIndexEntry} (ho : o.isTree = false) : Iter.stepOver (o::os) = os := by
  simp [Iter.stepOver,ho]

theorem block_blob {o : BitIndexEntry} {os : List BitIndexEntry} (ho : o.isTree = false) : block (o::os) = [o] := by
  simp [block,ho]

theorem follow_deleted (fuel : ℕ) (o : BitIndexEntry) (os new : List BitIndexEntry) (s : WorkspaceStatus) :
    (follow false fuel (onDeleted o os new)).foldl TreeStatusDiffer.on s =
      (drain false fuel (Iter.stepOver (o::os)) new).foldl TreeStatusDiffer.on
        ⟨s.new,s.modified,s.deleted++files (block (o::os))⟩ := by
  cases ho : o.isTree with
  | true => simp [onDeleted,ho,follow,TreeStatusDiffer.on,files_block]
  | false => simp [onDeleted,ho,follow,TreeStatusDiffer.on,files_blob,stepOver_blob]

theorem follow_created (fuel : ℕ) (n : BitIndexEntry) (old ns : List BitIndexEntry) (s : WorkspaceStatus) :
    (follow false fuel (onCreated old n ns)).foldl TreeStatusDiffer.on s =
      (drain false fuel old (Iter.stepOver (n::ns))).foldl TreeStatusDiffer.on
        ⟨s.new++files (block (n::ns)),s.modified,s.deleted⟩ := by
  cases hn : n.isTree with
  | true => simp [onCreated,hn,follow,TreeStatusDiffer.on,files_block]
  | false => simp [onCreated,hn,follow,TreeStatusDiffer.on,files_blob,stepOver_blob]

theorem report_trees {o n : BitIndexEntry} {os ns : List BitIndexEntry} (ho : o.isTree = true) (hn : n.isTree = true) :
    report (o::os,n::ns) = .empty := by simp [report,ho,hn]

theorem report_blobs {o n : BitIndexEntry} (ho : o.isTree = false) (hn : n.isTree = false) :
    report ([o],[n]) = if o.oid ≠ n.oid then ⟨[],[(o,n)],[]⟩ else .empty := by simp [report,ho,hn]

theorem report_replaced {o n : BitIndexEntry} {os ns : List BitIndexEntry} (h : o.isTree ≠ n.isTree) :
    report (o::os,n::ns) = ⟨files (n::ns),[],files (o::os)⟩ := by simp [report,h]

theorem block_cons (o : BitIndexEntry) (os : List BitIndexEntry) : ∃ l, block (o::os) = o::l := by
  cases ho : o.isTree with
  | true => exact ⟨(Iter.subtree (o::os)).tail,by simp [block,ho,Iter.subtree]⟩
  | false => exact ⟨[],block_blob ho⟩

/-- The difference is made of the reports of its turns. -/
theorem exists_run {fuel : ℕ} {old new : List BitIndexEntry} (hfuel : old.length+new.length ≤ fuel) (s : WorkspaceStatus) :
    ∃ ts, Run old new ts ∧ (drain false fuel old new).foldl TreeStatusDiffer.on s = added s ts := by
  induction fuel generalizing old new s with
  | zero =>
    obtain ⟨rfl,rfl⟩ : old = [] ∧ new = [] := ⟨List.length_eq_zero_iff.mp (by omega),List.length_eq_zero_iff.mp (by omega)⟩
    exact ⟨[],.done,(added_nil s).symm⟩
  | succ fuel ih =>
    rcases drain_cases false fuel old new with ⟨t,ht,hdrain⟩ | ⟨o,os,n,ns,rfl,rfl,hpath,hto,htn,hdrain⟩
    · rw [hdrain]
      cases ht with
      | done => exact ⟨[],.done,(added_nil s).symm⟩
      | @created old n ns hlt =>
        have hlen := stepOver_length n ns
        rw [follow_created]
        obtain ⟨ts,hrun,hts⟩ := @ih old (Iter.stepOver (n::ns)) (by simp at hfuel; omega) _
        exact ⟨_,.created hlt hrun,by simpa [added_cons,report_new] using hts⟩
      | @deleted o os new hlt =>
        have hlen := stepOver_length o os
        rw [follow_deleted]
        obtain ⟨ts,hrun,hts⟩ := @ih (Iter.stepOver (o::os)) new (by simp at hfuel; omega) _
        exact ⟨_,.deleted hlt hrun,by simpa [added_cons,report_old] using hts⟩
      | @trees o n os ns hpath ho hn =>
        have hlen := stepOver_length o os
        have hlen' := stepOver_length n ns
        by_cases hk : o.oid.isKnown ∧ o = n
        · obtain ⟨ts,hrun,hts⟩ := @ih (Iter.stepOver (o::os)) (Iter.stepOver (n::ns)) (by simp at hfuel; omega) s
          refine ⟨_,.passed hpath (fun _ _ => hk.2) hrun,?_⟩
          obtain ⟨l,hl⟩ := block_cons o os
          obtain ⟨l',hl'⟩ := block_cons n ns
          simpa [added_cons,hl,hl',report_trees ho hn,WorkspaceStatus.empty,onTrees,if_pos hk,follow] using hts
        · obtain ⟨ts,hrun,hts⟩ := @ih os ns (by simp at hfuel; omega) s
          refine ⟨_,.entered hpath ho hn hk hrun,?_⟩
          simpa [added_cons,report_trees ho hn,WorkspaceStatus.empty,onTrees,if_neg hk,follow,TreeStatusDiffer.on] using hts
      | @treeToBlob o n os ns hpath ho hn =>
        have hlen := stepOver_length o os
        obtain ⟨ts,hrun,hts⟩ := @ih (Iter.stepOver (o::os)) (Iter.stepOver (n::ns))
          (by simp [stepOver_blob hn] at hfuel ⊢; omega) ⟨s.new++[n],s.modified,s.deleted++files (Iter.subtree (o::os)).tail⟩
        refine ⟨_,.passed hpath (by simp [hn]) hrun,?_⟩
        obtain ⟨l,hl⟩ := block_cons o os
        have hfiles := @files_block o os ho
        rw [stepOver_blob hn] at hts
        rw [added_cons,block_blob hn,hl,report_replaced (by simp [ho,hn]),← hl,hfiles]
        simpa [follow,TreeStatusDiffer.on,files,hn] using hts
      | @blobToTree o n os ns hpath ho hn =>
        have hlen := stepOver_length n ns
        obtain ⟨ts,hrun,hts⟩ := @ih (Iter.stepOver (o::os)) (Iter.stepOver (n::ns))
          (by simp [stepOver_blob ho] at hfuel ⊢; omega) ⟨s.new++files (Iter.subtree (n::ns)).tail,s.modified,s.deleted++[o]⟩
        refine ⟨_,.passed hpath (by simp [ho]) hrun,?_⟩
        obtain ⟨l,hl⟩ := block_cons n ns
        have hfiles := @files_block n ns hn
        rw [stepOver_blob ho] at hts
        rw [added_cons,block_blob ho,hl,report_replaced (by simp [ho,hn]),← hl,hfiles]
        simpa [follow,TreeStatusDiffer.on,files,ho] using hts
    · rw [hdrain]
      by_cases hoid : o.oid = n.oid
      · obtain ⟨ts,hrun,hts⟩ := @ih (Iter.stepOver (o::os)) (Iter.stepOver (n::ns))
          (by simp [stepOver_blob hto,stepOver_blob htn] at hfuel ⊢; omega) s
        refine ⟨_,.passed hpath (by simp [hto]) hrun,?_⟩
        rw [added_cons,block_blob hto,block_blob htn,report_blobs hto htn]
        rw [stepOver_blob hto,stepOver_blob htn] at hts
        simpa [hoid,onBlobs,follow,WorkspaceStatus.empty] using hts
      · obtain ⟨ts,hrun,hts⟩ := @ih (Iter.stepOver (o::os)) (Iter.stepOver (n::ns))
          (by simp [stepOver_blob hto,stepOver_blob htn] at hfuel ⊢; omega) ⟨s.new,s.modified++[(o,n)],s.deleted⟩
        refine ⟨_,.passed hpath (by simp [hto]) hrun,?_⟩
        rw [added_cons,block_blob hto,block_blob htn,report_blobs hto htn]
        rw [stepOver_blob hto,stepOver_blob htn] at hts
        simpa [hoid,onBlobs,follow,TreeStatusDiffer.on] using hts

theorem Run.old_eq {old new : List BitIndexEntry} {ts : List (List BitIndexEntry × List BitIndexEntry)} (h : Run old new ts) :
    (ts.map Prod.fst).flatten = old := by
  induction h with
  | done => rfl
  | deleted _ _ ih => simp [ih,block_append]
  | created _ _ ih => simp [ih]
  | entered _ _ _ _ _ ih => simp [ih]
  | passed _ _ _ ih => simp [ih,block_append]

theorem Run.symm {old new : List BitIndexEntry} {ts : List (List BitIndexEntry × List BitIndexEntry)} (h : Run old new ts) :
    Run new old (ts.map Prod.swap) := by
  induction h with
  | done => exact .done
  | deleted hlt _ ih => exact .created hlt ih
  | created hlt _ ih => exact .deleted hlt ih
  | entered hpath ho hn hne _ ih => exact .entered hpath.symm hn ho (fun h => hne ⟨h.2 ▸ h.1,h.2.symm⟩) ih
  | passed hpath heq _ ih => exact .passed hpath.symm (fun hn ho => (heq ho hn).symm) ih

theorem Run.new_eq {old new : List BitIndexEntry} {ts : List (List BitIndexEntry × List BitIndexEntry)} (h : Run old new ts) :
    (ts.map Prod.snd).flatten = new := by
  have hold := h.symm.old_eq
  rwa [List.map_map] at hold

end Run

/-! The two trees and their entries. -/
section Trees

/-- The directories that both trees have but not alike. -/
def differing (a b : Tree) (d : BitPath) : Bool :=
  match a.sub? d, b.sub? d with
  | some s, some s' => s ≠ s'
  | _, _ => false

/-- What an iterator over a tree has left in the middle of the run. -/
structure Side (t : Tree) (ent : BitPath → Bool) (l : List BitIndexEntry) : Prop where
  order : t.GitOrder
  frontier : Frontier ent l
  suffix : l <:+ treeIter (.tree t)

variable {a b t : Tree} {ent : BitPath → Bool} {o n : BitIndexEntry} {os ns : List BitIndexEntry}

theorem Side.entry {l : List BitIndexEntry} (h : Side t ent l) {e : BitIndexEntry} (he : e ∈ l) : t.entryAt e.path = some e :=
  h.order.mem_treeIter.mp (h.suffix.subset he)

theorem Side.look {l : List BitIndexEntry} (h : Side t ent l) {e : BitIndexEntry} (he : e ∈ l) : t.look e.path ≠ none :=
  Tree.entryAt_isSome.mp (Option.isSome_of_eq_some (h.entry he))

theorem Side.stepOver (h : Side t ent (o::os)) : Side t ent (Iter.stepOver (o::os)) :=
  ⟨h.order,h.frontier.stepOver,((stepOver_suffix o os).trans (List.suffix_cons o os)).trans h.suffix⟩

theorem Side.enter (h : Side t ent (o::os)) (ho : ent o.path = true) : Side t ent os :=
  ⟨h.order,h.frontier.enter ho,(List.suffix_cons o os).trans h.suffix⟩

theorem Side.path_eq {l l' : List BitIndexEntry} (ha : Side a ent l) (hb : Side b ent l') {x y : BitIndexEntry} (hx : x ∈ l)
    (hy : y ∈ l') (h : x.path.asBytes = y.path.asBytes) : x.path = y.path :=
  BitPath.asBytes_injective (ha.frontier.normal x hx) (hb.frontier.normal y hy) h

theorem Side.dir {l : List BitIndexEntry} (h : Side t ent l) {e : BitIndexEntry} (he : e ∈ l) (htree : e.isTree = true) :
    ∃ s, t.sub? e.path = some s ∧ e = .ofTreeEntry ⟨.TREE,e.path,.tree s⟩ := by
  rcases Tree.entryAt_cases (h.entry he) with ⟨x,-,-,heq⟩ | ⟨s,-,hs,heq⟩
  · rw [heq] at htree
    simp [BitIndexEntry.isTree,BitIndexEntry.ofTreeEntry,FileMode.isTree] at htree
  · exact ⟨s,hs,heq⟩

theorem Side.file {l : List BitIndexEntry} (h : Side t ent l) {e : BitIndexEntry} (he : e ∈ l) (hfile : e.isTree = false) :
    ∃ x, t.look e.path = some (some x) ∧ t.sub? e.path = none ∧ e = .ofTreeEntry ⟨.blob x.1,e.path,.blob x.2⟩ := by
  rcases Tree.entryAt_cases (h.entry he) with ⟨x,hx,hs,heq⟩ | ⟨s,-,-,heq⟩
  · exact ⟨x,hx,hs,heq⟩
  · rw [heq] at hfile
    simp [BitIndexEntry.isTree,BitIndexEntry.ofTreeEntry,FileMode.isTree] at hfile

/-- Two directories that differ are entered. -/
theorem differing_of_ne {l l' : List BitIndexEntry} (ha : Side a ent l) (hb : Side b ent l') (ho : o ∈ l) (hn : n ∈ l')
    (hpath : o.path = n.path) (hot : o.isTree = true) (hnt : n.isTree = true) (hne : ¬(o.oid.isKnown ∧ o = n)) :
    differing a b o.path = true := by
  obtain ⟨s,hs,heq⟩ := ha.dir ho hot
  obtain ⟨s',hs',heq'⟩ := hb.dir hn hnt
  rw [← hpath] at hs' heq'
  simp only [differing,hs,hs',ne_eq,decide_not,Bool.not_eq_true',decide_eq_false_iff_not]
  rintro rfl
  refine hne ⟨?_,heq.trans heq'.symm⟩
  rw [heq]
  rfl

/-- All else that has one path in both trees is not. -/
theorem not_differing {l l' : List BitIndexEntry} (ha : Side a ent l) (hb : Side b ent l') (ho : o ∈ l) (hn : n ∈ l')
    (hpath : o.path = n.path) (heq : o.isTree = true → n.isTree = true → o = n) : differing a b o.path = false := by
  cases hot : o.isTree with
  | false =>
    obtain ⟨x,-,hs,-⟩ := ha.file ho hot
    simp [differing,hs]
  | true =>
    cases hnt : n.isTree with
    | false =>
      obtain ⟨x,-,hs,-⟩ := hb.file hn hnt
      rw [← hpath] at hs
      unfold differing
      rw [hs]
      cases a.sub? o.path <;> rfl
    | true =>
      obtain ⟨s,hs,he⟩ := ha.dir ho hot
      obtain ⟨s',hs',he'⟩ := hb.dir hn hnt
      have hsame : BitIndexEntry.ofTreeEntry ⟨.TREE,o.path,.tree s⟩ = .ofTreeEntry ⟨.TREE,n.path,.tree s'⟩ :=
        he.symm.trans ((heq hot hnt).trans he')
      obtain rfl : s = s' := by simpa [BitIndexEntry.ofTreeEntry] using congrArg BitIndexEntry.oid hsame
      rw [← hpath] at hs'
      simp [differing,hs,hs']

/-- The iterator goes on into the head or past all that is below it. -/
def next (ent : BitPath → Bool) (o : BitIndexEntry) (os : List BitIndexEntry) : List BitIndexEntry :=
  if ent o.path then os else Iter.stepOver (o::os)

theorem Side.next (h : Side t ent (o::os)) : Side t ent (next ent o os) := by
  unfold TreeDiffIter.next
  split
  · exact h.enter ‹_›
  · exact h.stepOver

/-- What a turn takes from two iterators that stand at one path. -/
inductive Meets (a b : Tree) : List BitIndexEntry × List BitIndexEntry → Prop
  | dirs {o n : BitIndexEntry} (hpath : o.path = n.path) (ho : o.isTree = true) (hn : n.isTree = true) : Meets a b ([o],[n])
  | files {o n : BitIndexEntry} (hpath : o.path = n.path) (ho : o.isTree = false) (hn : n.isTree = false) : Meets a b ([o],[n])
  | same {o : BitIndexEntry} {l l' : List BitIndexEntry} {s : Tree} (ho : o.isTree = true) (hs : a.sub? o.path = some s)
      (hs' : b.sub? o.path = some s) (hl : ∀ x ∈ o::l, o.path <+: x.path) (hl' : ∀ x ∈ o::l', o.path <+: x.path) :
      Meets a b (o::l,o::l')
  | replaced {o n : BitIndexEntry} {l l' : List BitIndexEntry} (hpath : o.path = n.path) (hne : o.isTree ≠ n.isTree)
      (hl : ∀ x ∈ o::l, o.path <+: x.path) (hl' : ∀ x ∈ n::l', o.path <+: x.path) : Meets a b (o::l,n::l')

theorem Meets.symm {t : List BitIndexEntry × List BitIndexEntry} (h : Meets a b t) : Meets b a t.swap := by
  cases h with
  | dirs hpath ho hn => exact .dirs hpath.symm hn ho
  | files hpath ho hn => exact .files hpath.symm hn ho
  | same ho hs hs' hl hl' => exact .same ho hs' hs hl' hl
  | replaced hpath hne hl hl' => exact .replaced hpath.symm hne.symm (hpath ▸ hl') (hpath ▸ hl)

/-- What holds at the end of the run and is kept by each turn, backwards, holds at its start. -/
theorem Run.induction {motive : List BitIndexEntry → List BitIndexEntry → List (List BitIndexEntry × List BitIndexEntry) → Prop}
    (hdone : motive [] [] [])
    (hdeleted : ∀ o os new ts, Side a (differing a b) (o::os) → Side b (differing a b) new →
      (∀ n ∈ new.head?, o.path.asBytes < n.path.asBytes) → motive (Iter.stepOver (o::os)) new ts →
        motive (o::os) new ((block (o::os),[])::ts))
    (hcreated : ∀ n ns old ts, Side a (differing a b) old → Side b (differing a b) (n::ns) →
      (∀ o ∈ old.head?, n.path.asBytes < o.path.asBytes) → motive old (Iter.stepOver (n::ns)) ts →
        motive old (n::ns) (([],block (n::ns))::ts))
    (hmatched : ∀ o os n ns l l' ts, Side a (differing a b) (o::os) → Side b (differing a b) (n::ns) → o.path = n.path →
      Meets a b (o::l,n::l') →
        motive (TreeDiffIter.next (differing a b) o os) (TreeDiffIter.next (differing a b) n ns) ts →
          motive (o::os) (n::ns) ((o::l,n::l')::ts))
    {old new : List BitIndexEntry} {ts : List (List BitIndexEntry × List BitIndexEntry)} (hrun : Run old new ts)
    (ha : Side a (differing a b) old) (hb : Side b (differing a b) new) : motive old new ts := by
  induction hrun with
  | done => exact hdone
  | @deleted o os new ts hlt _ ih => exact hdeleted o os new ts ha hb hlt (ih ha.stepOver hb)
  | @created n old ns ts hlt _ ih => exact hcreated n ns old ts ha hb hlt (ih ha hb.stepOver)
  | @entered o n os ns ts hbytes ho hn hne _ ih =>
    have hpath := ha.path_eq hb List.mem_cons_self List.mem_cons_self hbytes
    have hent := differing_of_ne ha hb List.mem_cons_self List.mem_cons_self hpath ho hn hne
    refine hmatched o os n ns [] [] ts ha hb hpath (.dirs hpath ho hn) ?_
    simp only [TreeDiffIter.next,← hpath,hent,if_true]
    exact ih (ha.enter hent) (hb.enter (hpath ▸ hent))
  | @passed o n os ns ts hbytes heq _ ih =>
    have hpath := ha.path_eq hb List.mem_cons_self List.mem_cons_self hbytes
    have hent := not_differing ha hb List.mem_cons_self List.mem_cons_self hpath heq
    obtain ⟨l,hl⟩ := block_cons o os
    obtain ⟨l',hl'⟩ := block_cons n ns
    rw [hl,hl']
    refine hmatched o os n ns l l' ts ha hb hpath ?_ ?_
    · have hbl : ∀ x ∈ o::l, o.path <+: x.path := fun x hx => @path_of_mem_block o x os (hl ▸ hx)
      have hbl' : ∀ x ∈ n::l', o.path <+: x.path := fun x hx => hpath ▸ @path_of_mem_block n x ns (hl' ▸ hx)
      by_cases hkind : o.isTree = n.isTree
      · cases ho : o.isTree with
        | true =>
          obtain rfl := heq ho (hkind ▸ ho)
          obtain ⟨s,hs,he⟩ := ha.dir List.mem_cons_self ho
          obtain ⟨s',hs',he'⟩ := hb.dir List.mem_cons_self ho
          obtain rfl : s = s' := by simpa [BitIndexEntry.ofTreeEntry] using congrArg BitIndexEntry.oid (he.symm.trans he')
          exact .same ho hs hs' hbl hbl'
        | false =>
          rw [block_blob ho,List.cons.injEq] at hl
          rw [block_blob (hkind ▸ ho),List.cons.injEq] at hl'
          rw [← hl.2,← hl'.2]
          exact .files hpath ho (hkind ▸ ho)
      · exact .replaced hpath hkind hbl hbl'
    · simp only [TreeDiffIter.next,← hpath,hent,Bool.false_eq_true,if_false]
      exact ih ha.stepOver hb.stepOver

end Trees

/-! Paths that both trees have are passed at the same time if they lie in a set that is closed under
what the order of the lists makes them depend on. -/
section Aligned

/-- The bytes of the paths of a set. -/
def KeyIn (S : BitPath → Prop) (k : Bytes) : Prop := ∃ p : BitPath, p.Normal ∧ S p ∧ p.asBytes = k

/-- What of the set both trees have is still to come in both iterators or in none. -/
structure Aligned (S : BitPath → Prop) (ent : BitPath → Bool) (a b : Tree) (old new : List BitIndexEntry) : Prop where
  sideOld : Side a ent old
  sideNew : Side b ent new
  even : Join.EvenOn (KeyIn S) (visitedKeys ent old) (visitedKeys ent new)
  pending : ∀ p, S p → visited ent p = true → a.look p ≠ none → b.look p ≠ none →
    ((∃ x ∈ old, x.path = p) ↔ ∃ y ∈ new, y.path = p)

variable {S : BitPath → Prop} {ent : BitPath → Bool} {a b : Tree} {o n : BitIndexEntry} {os ns old new : List BitIndexEntry}

theorem Aligned.symm (h : Aligned S ent a b old new) : Aligned S ent b a new old :=
  ⟨h.sideNew,h.sideOld,h.even.symm,fun p hp hv hb ha => (h.pending p hp hv ha hb).symm⟩

theorem mem_visitedKeys {l : List BitIndexEntry} {k : Bytes} :
    k ∈ visitedKeys ent l ↔ ∃ x ∈ l, visited ent x.path = true ∧ x.path.asBytes = k := by
  simp [visitedKeys,and_assoc]

theorem visitedKeys_append (l l' : List BitIndexEntry) : visitedKeys ent (l++l') = visitedKeys ent l++visitedKeys ent l' := by
  simp [visitedKeys]

/-- What one iterator yields alone is not in the set, or the other tree does not have it. -/
theorem Aligned.not_shared (h : Aligned S ent a b (o::os) new) (hlt : ∀ n ∈ new.head?, o.path.asBytes < n.path.asBytes)
    (hS : S o.path) : b.look o.path = none := by
  by_contra hb
  have hv := h.sideOld.frontier.head
  obtain ⟨y,hy,hyp⟩ := (h.pending o.path hS hv (h.sideOld.look List.mem_cons_self) hb).mp ⟨o,List.mem_cons_self,rfl⟩
  have heven := h.even
  rw [h.sideOld.frontier.visitedKeys_cons] at heven
  refine heven.not_mem (fun k hk => ?_) ⟨o.path,h.sideOld.frontier.normal o List.mem_cons_self,hS,rfl⟩
    (mem_visitedKeys.mpr ⟨y,hy,hyp ▸ hv,by rw [hyp]⟩)
  cases new with
  | nil => simp [visitedKeys] at hk
  | cons n ns =>
    rw [h.sideNew.frontier.visitedKeys_cons] at hk
    obtain rfl : n.path.asBytes = k := by simpa using hk
    exact hlt n rfl

/-- A set of paths that has with a path all directories above it. -/
def UpClosed (S : BitPath → Prop) : Prop := ∀ p d : BitPath, S p → d <+: p → S d

theorem Aligned.none_below (h : Aligned S ent a b (o::os) new) (hup : UpClosed S)
    (hlt : ∀ n ∈ new.head?, o.path.asBytes < n.path.asBytes) {p : BitPath} (hp : o.path <+: p) (hS : S p) : b.look p = none := by
  have hnone := h.not_shared hlt (hup p o.path hS hp)
  by_contra hb
  by_cases hne : o.path = p
  · exact hb (hne ▸ hnone)
  · simp [Forest.look_prefix hb hp hne] at hnone

theorem Aligned.alone (h : Aligned S ent a b (o::os) new) (hup : UpClosed S)
    (hlt : ∀ n ∈ new.head?, o.path.asBytes < n.path.asBytes) : Aligned S ent a b (Iter.stepOver (o::os)) new := by
  have hsplit := block_append (o::os)
  refine ⟨h.sideOld.stepOver,h.sideNew,?_,fun p hS hv ha hb => ?_⟩
  · have heven := h.even
    have hnodup := h.sideOld.frontier.nodup
    rw [← hsplit,visitedKeys_append] at heven hnodup
    refine heven.of_append (fun k hk hkey hmem => ?_) (List.disjoint_of_nodup_append hnodup)
    obtain ⟨x,hx,hxv,rfl⟩ := mem_visitedKeys.mp hk
    obtain ⟨y,hy,-,hyk⟩ := mem_visitedKeys.mp hmem
    obtain ⟨p,hp,hS,hpk⟩ := hkey
    have hxmem : x ∈ o::os := hsplit ▸ List.mem_append_left _ hx
    have hpx := BitPath.asBytes_injective hp (h.sideOld.frontier.normal x hxmem) hpk
    have hpy := BitPath.asBytes_injective (h.sideNew.frontier.normal y hy) (h.sideOld.frontier.normal x hxmem) hyk
    exact h.sideNew.look hy (hpy ▸ h.none_below hup hlt (path_of_mem_block hx) (hpx ▸ hS))
  · rw [← h.pending p hS hv ha hb]
    constructor
    · rintro ⟨x,hx,hxp⟩
      exact ⟨x,hsplit ▸ List.mem_append_right _ hx,hxp⟩
    · rintro ⟨x,hx,rfl⟩
      rw [← hsplit] at hx
      rcases List.mem_append.mp hx with hx | hx
      · exact absurd (h.none_below hup hlt (path_of_mem_block hx) hS) hb
      · exact ⟨x,hx,rfl⟩

/-- The two iterators go on from one path. -/
theorem Aligned.both (h : Aligned S ent a b (o::os) (n::ns)) (hpath : o.path = n.path) :
    Aligned S ent a b (next ent o os) (next ent n ns) := by
  have hmem {t : Tree} {x : BitIndexEntry} {xs : List BitIndexEntry} (hx : Side t ent (x::xs)) (p : BitPath)
      (hv : visited ent p = true) : (∃ y ∈ next ent x xs, y.path = p) ↔
        (∃ y ∈ x::xs, y.path = p) ∧ p ≠ x.path := by
    constructor
    · rintro ⟨y,hy,rfl⟩
      obtain ⟨hy,hne⟩ := (hx.frontier.mem_next hv).mp hy
      exact ⟨⟨y,hy,rfl⟩,hne⟩
    · rintro ⟨⟨y,hy,rfl⟩,hne⟩
      exact ⟨y,(hx.frontier.mem_next hv).mpr ⟨hy,hne⟩,rfl⟩
  refine ⟨h.sideOld.next,h.sideNew.next,?_,fun p hS hv ha hb => ?_⟩
  · have heven := h.even
    have hno := h.sideOld.frontier.nodup
    have hnn := h.sideNew.frontier.nodup
    rw [h.sideOld.frontier.visitedKeys_next] at heven hno
    rw [h.sideNew.frontier.visitedKeys_next] at heven hnn
    rw [hpath] at heven hno
    rw [next,next,hpath]
    exact heven.tail_tail (List.nodup_cons.mp hno).1 (List.nodup_cons.mp hnn).1
  · rw [hmem h.sideOld p hv,hmem h.sideNew p hv,h.pending p hS hv ha hb,hpath]

/-- Both trees have a file at the path. -/
def SharedFile (a b : Tree) (p : BitPath) : Prop := (∃ x, a.look p = some (some x)) ∧ ∃ y, b.look p = some (some y)

/-- No file that both trees have is reported as deleted or as new. -/
def Fair (a b : Tree) (t : List BitIndexEntry × List BitIndexEntry) : Prop :=
  ∀ e, e ∈ (report t).deleted ∨ e ∈ (report t).new → ¬SharedFile a b e.path

/-- A file that both trees have is not below a path where only one has a directory. -/
theorem not_sharedFile_of_replaced (ha : Side a ent (o::os)) (hb : Side b ent (n::ns)) (hpath : o.path = n.path)
    (hne : o.isTree ≠ n.isTree) {p : BitPath} (hp : o.path <+: p) : ¬SharedFile a b p := by
  -- the tree with the file at that path has nothing below it, the other has no file there
  have hkey {t t' : Tree} {x y : BitIndexEntry} {xs ys : List BitIndexEntry} (hx : Side t ent (x::xs)) (hy : Side t' ent (y::ys))
      (hxt : x.isTree = true) (hyt : y.isTree = false) (hxp : x.path <+: p) (hyp : y.path = x.path)
      (hfile : ∃ z, t.look p = some (some z)) (hfile' : ∃ z, t'.look p = some (some z)) : False := by
    obtain ⟨s,hs,-⟩ := hx.dir List.mem_cons_self hxt
    obtain ⟨z,hz,-,-⟩ := hy.file List.mem_cons_self hyt
    obtain ⟨w,hw⟩ := hfile
    obtain ⟨w',hw'⟩ := hfile'
    by_cases heq : x.path = p
    · have hdir := Forest.look_eq_dir.mpr ⟨s,hs⟩
      simp [heq,hw] at hdir
    · have hdir := Forest.look_prefix (f := t') (by simp [hw']) hxp heq
      simp [← hyp,hz] at hdir
  rintro ⟨hfa,hfb⟩
  cases ho : o.isTree with
  | true => exact hkey ha hb ho (Bool.eq_false_iff.mpr fun hn => hne (ho.trans hn.symm)) hp hpath.symm hfa hfb
  | false =>
    have hn : n.isTree = true := by simpa [ho] using hne
    exact hkey hb ha hn ho (hpath ▸ hp) hpath hfb hfa

theorem mem_files_iff {e : BitIndexEntry} {l : List BitIndexEntry} : e ∈ files l ↔ e ∈ l ∧ e.isTree = false := by
  simp [files]

/-- Aligned iterators report no file that both trees have. -/
theorem Run.fair (hup : UpClosed S) (hfiles : ∀ p, SharedFile a b p → S p)
    {ts : List (List BitIndexEntry × List BitIndexEntry)} (hrun : Run old new ts)
    (h : Aligned S (differing a b) a b old new) : ∀ t ∈ ts, Fair a b t := by
  refine Run.induction (a := a) (b := b) (motive := fun old new ts => Aligned S (differing a b) a b old new → ∀ t ∈ ts, Fair a b t)
    (fun _ => by simp) ?_ ?_ ?_ hrun h.sideOld h.sideNew h
  · intro o os new ts _ _ hlt ih h
    refine List.forall_mem_cons.mpr ⟨fun e he hshared => ?_,ih (h.alone hup hlt)⟩
    simp only [report_old,List.not_mem_nil,or_false,mem_files_iff] at he
    obtain ⟨y,hy⟩ := hshared.2
    simp [h.none_below hup hlt (path_of_mem_block he.1) (hfiles _ hshared)] at hy
  · intro n ns old ts _ _ hlt ih h
    refine List.forall_mem_cons.mpr ⟨fun e he hshared => ?_,ih (h.symm.alone hup hlt).symm⟩
    simp only [report_new,List.not_mem_nil,false_or,mem_files_iff] at he
    obtain ⟨x,hx⟩ := hshared.1
    simp [h.symm.none_below hup hlt (path_of_mem_block he.1) (hfiles _ hshared)] at hx
  · intro o os n ns l l' ts ha hb hpath hmeets ih h
    refine List.forall_mem_cons.mpr ⟨fun e he => ?_,ih (h.both hpath)⟩
    cases hmeets with
    | dirs _ ho hn => simp [report_trees ho hn,WorkspaceStatus.empty] at he
    | files _ ho hn =>
      rw [report_blobs ho hn] at he
      split at he <;> simp [WorkspaceStatus.empty] at he
    | same ho _ _ _ => simp [report_trees ho ho,WorkspaceStatus.empty] at he
    | replaced _ hne hl hl' =>
      simp only [report_replaced hne,mem_files_iff] at he
      refine not_sharedFile_of_replaced ha hb hpath hne ?_
      exact he.elim (fun he => hl e he.1) fun he => hl' e he.1

end Aligned

/-! The paths at which both iterators stood at the same time. -/
section Matched
variable {ent : BitPath → Bool} {a b : Tree} {o n : BitIndexEntry} {os ns old new : List BitIndexEntry}
  {ts : List (List BitIndexEntry × List BitIndexEntry)} {p : BitPath}

def Matched (ts : List (List BitIndexEntry × List BitIndexEntry)) (p : BitPath) : Prop :=
  ∃ o l n l', (o::l,n::l') ∈ ts ∧ o.path = p

theorem Matched.cons {t : List BitIndexEntry × List BitIndexEntry} (h : Matched ts p) : Matched (t::ts) p := by
  obtain ⟨o,l,n,l',hmem,hp⟩ := h
  exact ⟨o,l,n,l',List.mem_cons_of_mem _ hmem,hp⟩

theorem matched_old {l : List BitIndexEntry} : Matched ((l,[])::ts) p ↔ Matched ts p := by
  refine ⟨?_,Matched.cons⟩
  rintro ⟨o,m,n,m',hmem,hp⟩
  rcases List.mem_cons.mp hmem with heq | hmem
  · simp at heq
  · exact ⟨o,m,n,m',hmem,hp⟩

theorem matched_new {l : List BitIndexEntry} : Matched (([],l)::ts) p ↔ Matched ts p := by
  refine ⟨?_,Matched.cons⟩
  rintro ⟨o,m,n,m',hmem,hp⟩
  rcases List.mem_cons.mp hmem with heq | hmem
  · simp at heq
  · exact ⟨o,m,n,m',hmem,hp⟩

theorem matched_cons {l l' : List BitIndexEntry} : Matched ((o::l,n::l')::ts) p ↔ o.path = p ∨ Matched ts p := by
  constructor
  · rintro ⟨x,m,y,m',hmem,hp⟩
    rcases List.mem_cons.mp hmem with heq | hmem
    · simp only [Prod.mk.injEq,List.cons.injEq] at heq
      exact .inl (heq.1.1 ▸ hp)
    · exact .inr ⟨x,m,y,m',hmem,hp⟩
  · rintro (hp | h)
    · exact ⟨o,l,n,l',List.mem_cons_self,hp⟩
    · exact h.cons

/-- What one iterator yields alone has no part in the order of the paths that both come to later. -/
theorem before_alone {t t' : Tree} (ha : Side t ent (o::os)) (hb : Side t' ent new)
    (hlt : ∀ n ∈ new.head?, o.path.asBytes < n.path.asBytes) (hv : visited ent p = true)
    (hx : ∃ x ∈ Iter.stepOver (o::os), x.path = p) (hy : ∃ y ∈ new, y.path = p)
    (heq : Join.before (visitedKeys ent (Iter.stepOver (o::os))) p.asBytes = Join.before (visitedKeys ent new) p.asBytes) :
    Join.before (visitedKeys ent (o::os)) p.asBytes = Join.before (visitedKeys ent (Iter.stepOver (o::os))) p.asBytes := by
  obtain ⟨x,hx,rfl⟩ := hx
  have hsplit := block_append (o::os)
  have hnodup := ha.frontier.nodup
  rw [← hsplit,visitedKeys_append] at hnodup
  have hnot : x.path.asBytes ∉ visitedKeys ent (block (o::os)) := fun hmem =>
    List.disjoint_of_nodup_append hnodup hmem (mem_visitedKeys.mpr ⟨x,hx,hv,rfl⟩)
  conv_lhs => rw [← hsplit,visitedKeys_append]
  cases hbefore : Join.before (visitedKeys ent (Iter.stepOver (o::os))) x.path.asBytes with
  | some z => exact Join.before_append_of_some hnot hbefore
  | none =>
    -- the other iterator's head is not greater than the path
    have hox : o.path.asBytes < x.path.asBytes := by
      obtain ⟨y,hy,-⟩ := hy
      cases new with
      | nil => simp at hy
      | cons n ns =>
        rw [hbefore,hb.frontier.visitedKeys_cons] at heq
        exact (hlt n rfl).trans_le (Join.le_of_before heq.symm)
    rw [← hbefore]
    refine Join.before_append_of_lt fun m hm => ?_
    obtain ⟨z,hz,-,rfl⟩ := mem_visitedKeys.mp hm
    exact (ha.order.convex.suffix ha.suffix).1 x hx hox z (hsplit ▸ List.mem_append_left _ hz) (path_of_mem_block hz)

/-- The paths that both iterators come to at the same time, with what they depend on. -/
structure Backed (ent : BitPath → Bool) (old new : List BitIndexEntry) (ts : List (List BitIndexEntry × List BitIndexEntry)) : Prop where
  seen : ∀ p, Matched ts p → visited ent p = true
  inOld : ∀ p, Matched ts p → ∃ x ∈ old, x.path = p
  inNew : ∀ p, Matched ts p → ∃ y ∈ new, y.path = p
  up : ∀ p d, Matched ts p → d <+: p → (∃ x ∈ old, x.path = d) → Matched ts d
  even : ∀ p, Matched ts p → Join.before (visitedKeys ent old) p.asBytes = Join.before (visitedKeys ent new) p.asBytes
  closed : ∀ p, Matched ts p → ∀ z ∈ Join.before (visitedKeys ent old) p.asBytes, ∃ q, Matched ts q ∧ q.asBytes = z

theorem mem_of_stepOver {x : BitIndexEntry} (hx : x ∈ Iter.stepOver (o::os)) : x ∈ o::os :=
  List.mem_cons_of_mem _ ((stepOver_suffix o os).subset hx)

theorem Backed.deleted {t t' : Tree} (ha : Side t ent (o::os)) (hb : Side t' ent new)
    (hlt : ∀ n ∈ new.head?, o.path.asBytes < n.path.asBytes) (h : Backed ent (Iter.stepOver (o::os)) new ts) :
    Backed ent (o::os) new ((block (o::os),[])::ts) := by
  have hbefore (p : BitPath) (hp : Matched ts p) := before_alone ha hb hlt (h.seen p hp) (h.inOld p hp) (h.inNew p hp) (h.even p hp)
  refine ⟨fun p hp => ?_,fun p hp => ?_,fun p hp => ?_,fun p d hp hd hmem => ?_,fun p hp => ?_,fun p hp z hz => ?_⟩ <;>
    rw [matched_old] at hp
  · exact h.seen p hp
  · obtain ⟨x,hx,hxp⟩ := h.inOld p hp
    exact ⟨x,mem_of_stepOver hx,hxp⟩
  · exact h.inNew p hp
  · obtain ⟨x,hx,rfl⟩ := hmem
    rw [← block_append (o::os)] at hx
    rcases List.mem_append.mp hx with hx | hx
    · obtain ⟨y,hy,rfl⟩ := h.inOld p hp
      exact absurd ((path_of_mem_block hx).trans hd) (ha.frontier.preorder.2.1 y hy)
    · exact matched_old.mpr (h.up p x.path hp hd ⟨x,hx,rfl⟩)
  · exact (hbefore p hp).trans (h.even p hp)
  · obtain ⟨q,hq,hqz⟩ := h.closed p hp z (hbefore p hp ▸ hz)
    exact ⟨q,hq.cons,hqz⟩

theorem Backed.created {t t' : Tree} (ha : Side t ent old) (hb : Side t' ent (n::ns))
    (hlt : ∀ o ∈ old.head?, n.path.asBytes < o.path.asBytes) (h : Backed ent old (Iter.stepOver (n::ns)) ts) :
    Backed ent old (n::ns) (([],block (n::ns))::ts) := by
  refine ⟨fun p hp => ?_,fun p hp => ?_,fun p hp => ?_,fun p d hp hd hmem => ?_,fun p hp => ?_,fun p hp z hz => ?_⟩ <;>
    rw [matched_new] at hp
  · exact h.seen p hp
  · exact h.inOld p hp
  · obtain ⟨y,hy,hyp⟩ := h.inNew p hp
    exact ⟨y,mem_of_stepOver hy,hyp⟩
  · exact (h.up p d hp hd hmem).cons
  · exact (h.even p hp).trans (before_alone hb ha hlt (h.seen p hp) (h.inNew p hp) (h.inOld p hp) (h.even p hp).symm).symm
  · obtain ⟨q,hq,hqz⟩ := h.closed p hp z hz
    exact ⟨q,hq.cons,hqz⟩

theorem visited_of_isPrefix {d : BitPath} (h : visited ent p = true) (hd : d <+: p) : visited ent d = true := by
  refine visited_iff.mpr fun q hq hne => visited_iff.mp h q (hq.trans hd) ?_
  rintro rfl
  exact hne (hq.eq_of_length_le hd.length_le)

theorem Backed.matched {t t' : Tree} {l l' : List BitIndexEntry} (ha : Side t ent (o::os)) (hb : Side t' ent (n::ns))
    (hpath : o.path = n.path) (h : Backed ent (next ent o os) (next ent n ns) ts) :
    Backed ent (o::os) (n::ns) ((o::l,n::l')::ts) := by
  have hnext (p : BitPath) (hp : Matched ts p) : (∃ x ∈ o::os, x.path = p) ∧ o.path.asBytes ≠ p.asBytes := by
    obtain ⟨x,hx,rfl⟩ := h.inOld p hp
    obtain ⟨hx,hne⟩ := (ha.frontier.mem_next (h.seen _ hp)).mp hx
    refine ⟨⟨x,hx,rfl⟩,fun hbytes => hne ?_⟩
    exact (BitPath.asBytes_injective (ha.frontier.normal o List.mem_cons_self) (ha.frontier.normal x hx) hbytes).symm
  have hold := ha.frontier.visitedKeys_next
  have hnew := hb.frontier.visitedKeys_next
  rw [← hpath] at hnew
  refine ⟨fun p hp => ?_,fun p hp => ?_,fun p hp => ?_,fun p d hp hd hmem => ?_,fun p hp => ?_,fun p hp z hz => ?_⟩ <;>
    rcases matched_cons.mp hp with rfl | hp
  · exact ha.frontier.head
  · exact h.seen p hp
  · exact ⟨o,List.mem_cons_self,rfl⟩
  · exact (hnext p hp).1
  · exact ⟨n,List.mem_cons_self,hpath.symm⟩
  · obtain ⟨y,hy,hyp⟩ := h.inNew p hp
    exact ⟨y,hb.frontier.next_subset hy,hyp⟩
  · obtain ⟨x,hx,rfl⟩ := hmem
    rcases List.mem_cons.mp hx with rfl | hx
    · exact hp
    · exact absurd hd (ha.frontier.preorder.1 x hx)
  · obtain ⟨x,hx,rfl⟩ := hmem
    by_cases hxo : x.path = o.path
    · exact matched_cons.mpr (.inl hxo.symm)
    · have hx := (ha.frontier.mem_next (visited_of_isPrefix (h.seen p hp) hd)).mpr ⟨hx,hxo⟩
      exact (h.up p x.path hp hd ⟨x,hx,rfl⟩).cons
  · rw [hold,hnew]
    simp
  · have heq := h.even p hp
    unfold next at heq
    rw [hold,hnew,Join.before_cons (hnext p hp).2,Join.before_cons (hnext p hp).2]
    rw [← hpath] at heq
    rw [heq]
  · rw [hold] at hz
    simp at hz
  · rw [hold,Join.before_cons (hnext p hp).2,Option.mem_def,Option.or_eq_some_iff] at hz
    rcases hz with hz | ⟨-,hz⟩
    · obtain ⟨q,hq,hqz⟩ := h.closed p hp z hz
      exact ⟨q,hq.cons,hqz⟩
    · split at hz
      · exact ⟨o.path,matched_cons.mpr (.inl rfl),Option.some.inj hz⟩
      · simp at hz

theorem Run.backed (hrun : Run old new ts) (ha : Side a (differing a b) old) (hb : Side b (differing a b) new) :
    Backed (differing a b) old new ts := by
  have hnil (p : BitPath) : ¬Matched [] p := fun ⟨_,_,_,_,h,_⟩ => by simp at h
  refine Run.induction (a := a) (b := b) (motive := Backed (differing a b)) ?_ ?_ ?_ ?_ hrun ha hb
  · exact ⟨fun p hp => absurd hp (hnil p),fun p hp => absurd hp (hnil p),fun p hp => absurd hp (hnil p),
      fun p _ hp => absurd hp (hnil p),fun p hp => absurd hp (hnil p),fun p hp => absurd hp (hnil p)⟩
  · exact fun o os new ts ha hb hlt h => h.deleted ha hb hlt
  · exact fun n ns old ts ha hb hlt h => h.created ha hb hlt
  · exact fun o os n ns l l' ts ha hb hpath _ h => h.matched ha hb hpath

end Matched

section Exact
variable {a b t : Tree} {o n e : BitIndexEntry} {old new : List BitIndexEntry}
  {ts : List (List BitIndexEntry × List BitIndexEntry)} {p : BitPath}

theorem mem_files_treeIter : e ∈ files (treeIter (.tree t)) ↔ ∃ x ∈ t.flatten [], fileEntry x = e := by
  have hfiles : files (treeIter (.tree t)) = (t.flatten []).map fileEntry := treeEntryIter_flatten t
  rw [hfiles,List.mem_map]

theorem sharedFile_iff (ha : a.GitOrder) (hb : b.GitOrder) :
    SharedFile a b p ↔ (∃ x ∈ a.flatten [], x.1 = p) ∧ ∃ y ∈ b.flatten [], y.1 = p := by
  have hfile {t : Tree} (ht : t.GitOrder) : (∃ x, t.look p = some (some x)) ↔ ∃ x ∈ t.flatten [], x.1 = p := by
    constructor
    · rintro ⟨x,hx⟩
      exact ⟨(p,x),Tree.mem_flatten_iff.mpr ((@Forest.mem_entries_leaf _ _ _ _ ht.distinct [] _ _).mpr hx),rfl⟩
    · rintro ⟨x,hx,rfl⟩
      exact ⟨x.2,(@Forest.mem_entries_leaf _ _ _ _ ht.distinct [] _ _).mp (Tree.mem_flatten_iff.mp hx)⟩
  exact and_congr (hfile ha) (hfile hb)

/-- Every turn takes from one iterator, or both stand at one path. -/
theorem Run.meets (hrun : Run old new ts) (ha : Side a (differing a b) old) (hb : Side b (differing a b) new) :
    ∀ t ∈ ts, t.1 = [] ∨ t.2 = [] ∨ Meets a b t := by
  refine Run.induction (a := a) (b := b) (motive := fun _ _ ts => ∀ t ∈ ts, t.1 = [] ∨ t.2 = [] ∨ Meets a b t)
    (by simp) ?_ ?_ ?_ hrun ha hb
  · intro o os new ts _ _ _ ih
    exact List.forall_mem_cons.mpr ⟨.inr (.inl rfl),ih⟩
  · intro n ns old ts _ _ _ ih
    exact List.forall_mem_cons.mpr ⟨.inl rfl,ih⟩
  · intro o os n ns l l' ts _ _ _ hmeets ih
    exact List.forall_mem_cons.mpr ⟨.inr (.inr hmeets),ih⟩

variable {u : List BitIndexEntry × List BitIndexEntry}

theorem report_swap : (report u.swap).deleted = (report u).new := by
  obtain ⟨l,l'⟩ := u
  cases l with
  | nil => rw [Prod.swap_prod_mk,report_old,report_new]
  | cons o l =>
    cases l' with
    | nil => rfl
    | cons n l' =>
      simp only [Prod.swap_prod_mk,report,eq_comm (a := n.isTree)]
      by_cases hkind : o.isTree = n.isTree
      · simp only [hkind,if_true]
        split <;> split <;> rfl
      · simp only [hkind,if_false]

theorem deleted_sublist : (report u).deleted.Sublist (files u.1) := by
  obtain ⟨l,l'⟩ := u
  cases l' with
  | nil =>
    rw [report_old]
  | cons n l' =>
    cases l with
    | nil => simp [report_new]
    | cons o l =>
      simp only [report]
      split
      · split <;> simp [WorkspaceStatus.empty]
      · exact List.Sublist.refl _

theorem new_sublist : (report u).new.Sublist (files u.2) := by
  rw [← report_swap]
  exact deleted_sublist

theorem mem_modified {m : BitIndexEntry × BitIndexEntry} (hu : u.1 = [] ∨ u.2 = [] ∨ Meets a b u)
    (h : m ∈ (report u).modified) : u = ([m.1],[m.2]) ∧ m.1.isTree = false ∧ m.2.isTree = false ∧
      m.1.path = m.2.path ∧ m.1.oid ≠ m.2.oid := by
  obtain ⟨l,l'⟩ := u
  rcases hu with rfl | rfl | hmeets
  · simp [report_new] at h
  · simp [report_old] at h
  · cases hmeets with
    | dirs _ ho hn => simp [report_trees ho hn,WorkspaceStatus.empty] at h
    | @files o n hpath ho hn =>
      rw [report_blobs ho hn] at h
      split at h
      · obtain rfl : m = (o,n) := by simpa using h
        exact ⟨rfl,ho,hn,hpath,‹_›⟩
      · simp [WorkspaceStatus.empty] at h
    | same ho _ _ _ _ => simp [report_trees ho ho,WorkspaceStatus.empty] at h
    | replaced _ hne _ _ => simp [report_replaced hne] at h

theorem side_start (h : t.GitOrder) (ent : BitPath → Bool) : Side t ent (treeIter (.tree t)) :=
  ⟨h,h.frontier ent,List.suffix_refl _⟩

/-- A file that only one tree has is reported. -/
theorem mem_deleted (ha : a.GitOrder) (hb : b.GitOrder) (hu : u.1 = [] ∨ u.2 = [] ∨ Meets a b u)
    (hold : u.1 ⊆ treeIter (.tree a)) (hnew : u.2 ⊆ treeIter (.tree b)) (he : e ∈ files u.1)
    (hshared : ¬SharedFile a b e.path) : e ∈ (report u).deleted := by
  have hsa := side_start ha (differing a b)
  have hsb := side_start hb (differing a b)
  obtain ⟨he,hfile⟩ := mem_files_iff.mp he
  obtain ⟨x,hx,-,-⟩ := hsa.file (hold he) hfile
  obtain ⟨l,l'⟩ := u
  rcases hu with rfl | rfl | hmeets
  · simp at he
  · rw [report_old]
    exact mem_files_iff.mpr ⟨he,hfile⟩
  · cases hmeets with
    | dirs _ ho hn =>
      obtain rfl := List.mem_singleton.mp he
      simp [ho] at hfile
    | @files o n hpath ho hn =>
      obtain rfl := List.mem_singleton.mp he
      obtain ⟨y,hy,-,-⟩ := hsb.file (hnew List.mem_cons_self) hn
      exact absurd ⟨⟨x,hx⟩,y,hpath ▸ hy⟩ hshared
    | same ho hs hs' hl _ =>
      obtain ⟨q,hq⟩ := hl e he
      rw [← hq] at hx hshared
      exact absurd ⟨⟨x,hx⟩,x,by rw [Forest.look_of_sub? hs',← Forest.look_of_sub? hs,hx]⟩ hshared
    | replaced _ hne _ _ =>
      rw [report_replaced hne]
      exact mem_files_iff.mpr ⟨he,hfile⟩

/-- Of a file that both trees have, a change of the id is reported. -/
theorem modified_of_fair (ha : a.GitOrder) (hb : b.GitOrder) (hu : u.1 = [] ∨ u.2 = [] ∨ Meets a b u)
    (hold : u.1 ⊆ treeIter (.tree a)) (hnew : u.2 ⊆ treeIter (.tree b)) (hfair : Fair a b u) (he : e ∈ files u.1)
    (hn : n ∈ files (treeIter (.tree b))) (hpath : e.path = n.path) (hoid : e.oid ≠ n.oid) : (e,n) ∈ (report u).modified := by
  have hsa := side_start ha (differing a b)
  have hsb := side_start hb (differing a b)
  obtain ⟨he,hfile⟩ := mem_files_iff.mp he
  obtain ⟨hn,hnfile⟩ := mem_files_iff.mp hn
  obtain ⟨x,hx,-,hex⟩ := hsa.file (hold he) hfile
  obtain ⟨y,hy,-,hny⟩ := hsb.file hn hnfile
  have hshared : SharedFile a b e.path := ⟨⟨x,hx⟩,y,hpath ▸ hy⟩
  obtain ⟨l,l'⟩ := u
  rcases hu with rfl | rfl | hmeets
  · simp at he
  · refine absurd hshared (hfair e (.inl ?_))
    rw [report_old]
    exact mem_files_iff.mpr ⟨he,hfile⟩
  · cases hmeets with
    | dirs _ ho _ =>
      obtain rfl := List.mem_singleton.mp he
      simp [ho] at hfile
    | @files o m hom ho hm =>
      obtain rfl := List.mem_singleton.mp he
      have hentry := hsb.entry (hnew List.mem_cons_self)
      rw [← hom,hpath,hsb.entry hn,Option.some.injEq] at hentry
      rw [← hentry] at hm ⊢
      simp [report_blobs ho hm,hoid]
    | same ho hs hs' hl _ =>
      obtain ⟨q,hq⟩ := hl e he
      rw [← hpath,← hq,Forest.look_of_sub? hs'] at hy
      rw [← hq,Forest.look_of_sub? hs,hy] at hx
      obtain rfl : y = x := by simpa using hx
      exact absurd (by rw [hex,hny]; rfl) hoid
    | replaced _ hne _ _ =>
      refine absurd hshared (hfair e (.inl ?_))
      rw [report_replaced hne]
      exact mem_files_iff.mpr ⟨he,hfile⟩

theorem modified_sublist : ((report u).modified.map Prod.fst).Sublist u.1 := by
  obtain ⟨l,l'⟩ := u
  cases l' with
  | nil => simp [report_old]
  | cons n l' =>
    cases l with
    | nil => simp [report_new]
    | cons o l =>
      simp only [report]
      split
      · split <;> simp [WorkspaceStatus.empty]
      · simp

theorem SharedFile.symm (h : SharedFile a b p) : SharedFile b a p := ⟨h.2,h.1⟩

/-- The files that only the first tree has. -/
theorem mem_only (ha : a.GitOrder) (hb : b.GitOrder) : e ∈ files (treeIter (.tree a)) ∧ ¬SharedFile a b e.path ↔
    ∃ x ∈ a.flatten [], (∀ y ∈ b.flatten [], x.1 ≠ y.1) ∧ e = fileEntry x := by
  rw [mem_files_treeIter]
  constructor
  · rintro ⟨⟨x,hx,rfl⟩,hnot⟩
    refine ⟨x,hx,fun y hy heq => hnot ?_,rfl⟩
    exact (sharedFile_iff ha hb).mpr ⟨⟨x,hx,rfl⟩,y,hy,heq.symm⟩
  · rintro ⟨x,hx,hnot,rfl⟩
    refine ⟨⟨x,hx,rfl⟩,fun hshared => ?_⟩
    obtain ⟨-,y,hy,heq⟩ := (sharedFile_iff ha hb).mp hshared
    exact hnot y hy heq.symm

section Parts
variable (ha : a.GitOrder) (hb : b.GitOrder) (hrun : Run (treeIter (.tree a)) (treeIter (.tree b)) ts)
include ha hb hrun

theorem turn_parts {u : List BitIndexEntry × List BitIndexEntry} (hu : u ∈ ts) :
    (u.1 = [] ∨ u.2 = [] ∨ Meets a b u) ∧ u.1 ⊆ treeIter (.tree a) ∧ u.2 ⊆ treeIter (.tree b) := by
  refine ⟨hrun.meets (side_start ha _) (side_start hb _) u hu,fun x hx => ?_,fun x hx => ?_⟩
  · rw [← hrun.old_eq]
    exact List.mem_flatten.mpr ⟨u.1,List.mem_map_of_mem hu,hx⟩
  · rw [← hrun.new_eq]
    exact List.mem_flatten.mpr ⟨u.2,List.mem_map_of_mem hu,hx⟩

theorem deleted_iff (hfair : ∀ u ∈ ts, Fair a b u) (e : BitIndexEntry) : e ∈ (added .empty ts).deleted ↔
    ∃ x ∈ a.flatten [], (∀ y ∈ b.flatten [], x.1 ≠ y.1) ∧ e = fileEntry x := by
  rw [← mem_only ha hb]
  simp only [added,WorkspaceStatus.empty,List.nil_append,List.mem_flatMap]
  constructor
  · rintro ⟨u,hu,he⟩
    obtain ⟨-,hold,-⟩ := turn_parts ha hb hrun hu
    obtain ⟨hmem,hfile⟩ := mem_files_iff.mp (deleted_sublist.subset he)
    exact ⟨mem_files_iff.mpr ⟨hold hmem,hfile⟩,hfair u hu e (.inl he)⟩
  · rintro ⟨he,hshared⟩
    obtain ⟨he,hfile⟩ := mem_files_iff.mp he
    rw [← hrun.old_eq] at he
    obtain ⟨l,hl,he⟩ := List.mem_flatten.mp he
    obtain ⟨u,hu,rfl⟩ := List.mem_map.mp hl
    obtain ⟨hmeets,hold,hnew⟩ := turn_parts ha hb hrun hu
    exact ⟨u,hu,mem_deleted ha hb hmeets hold hnew (mem_files_iff.mpr ⟨he,hfile⟩) hshared⟩

theorem modified_iff (hfair : ∀ u ∈ ts, Fair a b u) (m : BitIndexEntry × BitIndexEntry) : m ∈ (added .empty ts).modified ↔
    ∃ x ∈ a.flatten [], ∃ y ∈ b.flatten [], x.1 = y.1 ∧ x.2.2 ≠ y.2.2 ∧ m = (fileEntry x,fileEntry y) := by
  simp only [added,WorkspaceStatus.empty,List.nil_append,List.mem_flatMap]
  constructor
  · rintro ⟨u,hu,hm⟩
    obtain ⟨hmeets,hold,hnew⟩ := turn_parts ha hb hrun hu
    obtain ⟨rfl,ho,hn,hpath,hoid⟩ := mem_modified hmeets hm
    obtain ⟨x,hx,hxm⟩ := mem_files_treeIter.mp (mem_files_iff.mpr ⟨hold List.mem_cons_self,ho⟩)
    obtain ⟨y,hy,hym⟩ := mem_files_treeIter.mp (mem_files_iff.mpr ⟨hnew List.mem_cons_self,hn⟩)
    rw [← hxm,← hym] at hpath hoid
    exact ⟨x,hx,y,hy,hpath,fun heq => hoid (congrArg Oid.blob heq),by rw [hxm,hym]⟩
  · rintro ⟨x,hx,y,hy,hpath,hoid,rfl⟩
    obtain ⟨he,hfile⟩ := mem_files_iff.mp (mem_files_treeIter.mpr ⟨x,hx,rfl⟩)
    rw [← hrun.old_eq] at he
    obtain ⟨l,hl,he⟩ := List.mem_flatten.mp he
    obtain ⟨u,hu,rfl⟩ := List.mem_map.mp hl
    obtain ⟨hmeets,hold,hnew⟩ := turn_parts ha hb hrun hu
    exact ⟨u,hu,modified_of_fair ha hb hmeets hold hnew (hfair u hu) (mem_files_iff.mpr ⟨he,hfile⟩)
      (mem_files_treeIter.mpr ⟨y,hy,rfl⟩) hpath fun heq => hoid (Oid.blob.inj heq)⟩

end Parts

theorem Fair.symm (h : Fair a b u) : Fair b a u.swap := by
  intro e he hshared
  rw [report_swap,← report_swap (u := u.swap),Prod.swap_swap] at he
  exact h e he.symm hshared.symm

theorem added_swap (ts : List (List BitIndexEntry × List BitIndexEntry)) :
    (added .empty (ts.map Prod.swap)).deleted = (added .empty ts).new := by
  simp [added,WorkspaceStatus.empty,List.flatMap_map,report_swap]

theorem new_iff (ha : a.GitOrder) (hb : b.GitOrder) (hrun : Run (treeIter (.tree a)) (treeIter (.tree b)) ts)
    (hfair : ∀ u ∈ ts, Fair a b u) (e : BitIndexEntry) : e ∈ (added .empty ts).new ↔
      ∃ y ∈ b.flatten [], (∀ x ∈ a.flatten [], y.1 ≠ x.1) ∧ e = fileEntry y := by
  rw [← added_swap]
  refine deleted_iff hb ha hrun.symm (fun u hu => ?_) e
  obtain ⟨v,hv,rfl⟩ := List.mem_map.mp hu
  exact (hfair v hv).symm

theorem path_nodup (ha : a.GitOrder) {l : List BitIndexEntry} (h : l.Sublist (treeIter (.tree a))) :
    (l.map BitIndexEntry.path).Nodup := (h.map _).nodup ha.preorder.nodup

/-- The status is the difference of the trees if no file that both have is reported as deleted or as new. -/
theorem exact_iff_fair (ha : a.GitOrder) (hb : b.GitOrder) (hrun : Run (treeIter (.tree a)) (treeIter (.tree b)) ts) :
    ExactDiff a b (added .empty ts) ↔ ∀ u ∈ ts, Fair a b u := by
  constructor
  · intro h u hu e he hshared
    rcases he with he | he
    · obtain ⟨x,hx,hnot,rfl⟩ := (h.deleted e).mp (List.mem_flatMap.mpr ⟨u,hu,he⟩)
      obtain ⟨-,y,hy,hpath⟩ := (sharedFile_iff ha hb).mp hshared
      exact hnot y hy hpath.symm
    · obtain ⟨y,hy,hnot,rfl⟩ := (h.new e).mp (List.mem_flatMap.mpr ⟨u,hu,he⟩)
      obtain ⟨⟨x,hx,hpath⟩,-⟩ := (sharedFile_iff ha hb).mp hshared
      exact hnot x hx hpath.symm
  · intro hfair
    have hdeleted := deleted_iff ha hb hrun hfair
    have hnew := new_iff ha hb hrun hfair
    have hmodified := modified_iff ha hb hrun hfair
    refine ⟨?_,hnew,hdeleted,hmodified⟩
    have hsub {f : List BitIndexEntry × List BitIndexEntry → List BitIndexEntry} {g : List BitIndexEntry × List BitIndexEntry → List BitIndexEntry}
        (hfg : ∀ u, (f u).Sublist (g u)) : (ts.flatMap f).Sublist (ts.map g).flatten :=
      List.Sublist.flatMap_right ts fun u _ => hfg u
    have hmap : ((added .empty ts).modified.map Prod.fst) = ts.flatMap fun u => (report u).modified.map Prod.fst := by
      simp [added,WorkspaceStatus.empty,List.map_flatMap]
    refine List.nodup_append.mpr ⟨List.nodup_append.mpr ⟨?_,?_,?_⟩,?_,?_⟩
    · exact path_nodup hb (hrun.new_eq ▸ hsub fun u => new_sublist.trans List.filter_sublist)
    · exact path_nodup ha (hrun.old_eq ▸ hsub fun u => deleted_sublist.trans List.filter_sublist)
    · intro p hp q hq
      obtain ⟨e,he,rfl⟩ := List.mem_map.mp hp
      obtain ⟨e',he',rfl⟩ := List.mem_map.mp hq
      obtain ⟨y,hy,hnot,rfl⟩ := (hnew e).mp he
      obtain ⟨x,hx,-,rfl⟩ := (hdeleted e').mp he'
      exact hnot x hx
    · have hnodup := path_nodup ha (hrun.old_eq ▸ hmap ▸ hsub fun u => modified_sublist (u := u))
      rwa [List.map_map] at hnodup
    · intro p hp q hq
      obtain ⟨m,hm,rfl⟩ := List.mem_map.mp hq
      obtain ⟨x,hx,y,hy,hxy,-,rfl⟩ := (hmodified m).mp hm
      rcases List.mem_append.mp hp with hp | hp
      · obtain ⟨e,he,rfl⟩ := List.mem_map.mp hp
        obtain ⟨z,-,hnot,rfl⟩ := (hnew e).mp he
        exact hnot x hx
      · obtain ⟨e,he,rfl⟩ := List.mem_map.mp hp
        obtain ⟨z,-,hnot,rfl⟩ := (hdeleted e).mp he
        exact fun heq => hnot y hy (heq.trans hxy)

theorem Run.exists_of_diff (a b : Tree) :
    ∃ ts, Run (treeIter (.tree a)) (treeIter (.tree b)) ts ∧ diffTreeToTree a b = added .empty ts := exists_run le_rfl .empty

/-- Every path that both trees have, of a set with all their common files that is closed under what the
order of the lists makes a path depend on, comes behind the same greater path in both. -/
def AlignedBy (a b : Tree) (S : BitPath → Prop) : Prop :=
  (∀ p, SharedFile a b p → S p) ∧ UpClosed S ∧
    Join.EvenOn (KeyIn S) (visitedKeys (differing a b) (treeIter (.tree a))) (visitedKeys (differing a b) (treeIter (.tree b)))

theorem exists_entry (h : t.GitOrder) (hp : t.look p ≠ none) : ∃ e ∈ treeIter (.tree t), e.path = p := by
  obtain ⟨e,he⟩ := Option.isSome_iff_exists.mp (Tree.entryAt_isSome.mpr hp)
  have hpath := Tree.entryAt_path he
  exact ⟨e,h.mem_treeIter.mpr (hpath.symm ▸ he),hpath⟩

theorem aligned_start (ha : a.GitOrder) (hb : b.GitOrder) {S : BitPath → Prop} (h : AlignedBy a b S) :
    Aligned S (differing a b) a b (treeIter (.tree a)) (treeIter (.tree b)) := by
  exact ⟨side_start ha _,side_start hb _,h.2.2,fun p _ _ hpa hpb => iff_of_true (exists_entry ha hpa) (exists_entry hb hpb)⟩

/-- The paths at which both iterators stood, and what is below those that were passed over. -/
def Reached (a b : Tree) (ts : List (List BitIndexEntry × List BitIndexEntry)) (p : BitPath) : Prop :=
  ∃ d, Matched ts d ∧ d <+: p ∧ (d = p ∨ differing a b d = false)

theorem Reached.upClosed (ha : a.GitOrder) (h : Backed (differing a b) (treeIter (.tree a)) (treeIter (.tree b)) ts) :
    UpClosed (Reached a b ts) := by
  rintro p q ⟨d,hd,hdp,hor⟩ hqp
  by_cases hdq : d <+: q
  · refine ⟨d,hd,hdq,hor.imp_left ?_⟩
    rintro rfl
    exact hdq.eq_of_length_le hqp.length_le
  · -- a directory above a matched one is matched
    have hqd := (List.prefix_or_prefix_of_prefix hdp hqp).resolve_left hdq
    obtain ⟨x,hx,rfl⟩ := h.inOld d hd
    have hlook := (side_start ha (differing a b)).look hx
    have hqne : q ≠ x.path := fun heq => hdq (heq ▸ List.prefix_rfl)
    have hdir := Forest.look_prefix hlook hqd hqne
    exact ⟨q,h.up x.path q hd hqd (exists_entry ha (by simp [hdir])),List.prefix_rfl,.inl rfl⟩

theorem Reached.matched (h : Reached a b ts p) (hv : visited (differing a b) p = true) : Matched ts p := by
  obtain ⟨d,hd,hdp,hor⟩ := h
  by_cases heq : d = p
  · exact heq ▸ hd
  · have hent := visited_iff.mp hv d hdp heq
    simp [hor.resolve_left heq] at hent

/-- A fair run reaches all files that both trees have. -/
theorem Reached.of_fair (ha : a.GitOrder) (hb : b.GitOrder) (hrun : Run (treeIter (.tree a)) (treeIter (.tree b)) ts)
    (hfair : ∀ u ∈ ts, Fair a b u) (hp : SharedFile a b p) : Reached a b ts p := by
  obtain ⟨⟨x,hx,rfl⟩,-⟩ := (sharedFile_iff ha hb).mp hp
  obtain ⟨he,hfile⟩ := mem_files_iff.mp (mem_files_treeIter.mpr ⟨x,hx,rfl⟩)
  rw [← hrun.old_eq] at he
  obtain ⟨m,hm,he⟩ := List.mem_flatten.mp he
  obtain ⟨u,hu,rfl⟩ := List.mem_map.mp hm
  have hnot (hmem : fileEntry x ∈ (report u).deleted) : False := hfair u hu _ (.inl hmem) hp
  obtain ⟨hmeets,-,-⟩ := turn_parts ha hb hrun hu
  obtain ⟨l,l'⟩ := u
  rcases hmeets with rfl | rfl | hmeets
  · simp at he
  · exact absurd (report_old l ▸ mem_files_iff.mpr ⟨he,hfile⟩) hnot
  · cases hmeets with
    | dirs _ ho _ =>
      obtain rfl := List.mem_singleton.mp he
      simp [ho] at hfile
    | files _ _ _ =>
      obtain rfl := List.mem_singleton.mp he
      exact ⟨x.1,⟨_,_,_,_,hu,rfl⟩,List.prefix_rfl,.inl rfl⟩
    | @same o l l' s _ hs hs' hl _ => exact ⟨o.path,⟨_,_,_,_,hu,rfl⟩,hl _ he,.inr (by simp [differing,hs,hs'])⟩
    | replaced _ hne _ _ => exact absurd (report_replaced hne ▸ mem_files_iff.mpr ⟨he,hfile⟩) hnot

/-- What a fair run reaches is such a set. -/
theorem alignedBy_reached (ha : a.GitOrder) (hb : b.GitOrder) (hrun : Run (treeIter (.tree a)) (treeIter (.tree b)) ts)
    (hfair : ∀ u ∈ ts, Fair a b u) : AlignedBy a b (Reached a b ts) := by
  have hbacked := hrun.backed (side_start ha _) (side_start hb _)
  refine ⟨fun p hp => .of_fair ha hb hrun hfair hp,Reached.upClosed ha hbacked,?_⟩
  rintro k ⟨p,hn,hp,rfl⟩ hold hnew
  obtain ⟨x,hx,hv,hxp⟩ := mem_visitedKeys.mp hold
  have hxp := BitPath.asBytes_injective ((side_start ha (differing a b)).frontier.normal x hx) hn hxp
  have hmatched := hp.matched (hxp ▸ hv)
  refine ⟨hbacked.even p hmatched,fun z hz => ?_⟩
  obtain ⟨q,hq,rfl⟩ := hbacked.closed p hmatched z hz
  obtain ⟨y,hy,rfl⟩ := hbacked.inOld q hq
  exact ⟨y.path,(side_start ha (differing a b)).frontier.normal y hy,⟨y.path,hq,List.prefix_rfl,.inl rfl⟩,rfl⟩

/-- The difference of two trees is exact if and only if their common files are aligned. -/
theorem diffTreeToTree_exact_iff (ha : a.GitOrder) (hb : b.GitOrder) :
    ExactDiff a b (diffTreeToTree a b) ↔ ∃ S, AlignedBy a b S := by
  obtain ⟨ts,hrun,hts⟩ := Run.exists_of_diff a b
  rw [hts,exact_iff_fair ha hb hrun]
  constructor
  · exact fun hfair => ⟨Reached a b ts,alignedBy_reached ha hb hrun hfair⟩
  · rintro ⟨S,hS⟩
    exact hrun.fair hS.2.1 hS.1 (aligned_start ha hb hS)

/-- If all paths come behind the same greater path, all paths are such a set. -/
theorem alignedBy_of_even (ha : a.GitOrder) (h : Join.Even (visitedKeys (differing a b) (treeIter (.tree a)))
    (visitedKeys (differing a b) (treeIter (.tree b)))) : AlignedBy a b fun _ => True := by
  refine ⟨fun _ _ => trivial,fun _ _ _ _ => trivial,fun k _ hold hnew => ⟨h.before_eq hold hnew,fun z hz => ?_⟩⟩
  obtain ⟨x,hx,-,rfl⟩ := mem_visitedKeys.mp (Join.mem_of_before hz)
  exact ⟨x.path,ha.normal hx,trivial,rfl⟩

/-- Both trees have `d-`, which is listed before `d`, with another contents. -/
theorem diffTreeToTree_exact_iff_beside :
    ExactDiff (Tree.besideDir [120] (.leaf [100,45] (.REG,[2]))) (Tree.besideDir [121] (.leaf [100,45] (.EXEC,[3])))
      (diffTreeToTree (Tree.besideDir [120] (.leaf [100,45] (.REG,[2]))) (Tree.besideDir [121] (.leaf [100,45] (.EXEC,[3])))) :=
  (diffTreeToTree_exact_iff (by decide) (by decide)).mpr ⟨_,alignedBy_of_even (by decide) (by decide)⟩

/-- Only one tree has `d-`: then the same file `d/x` is reported as deleted and as new. -/
theorem diffTreeToTree_uneven : ∃ a b : Tree, a.WellFormed ∧ b.WellFormed ∧ a.GitOrder ∧ b.GitOrder ∧
    ¬ExactDiff a b (diffTreeToTree a b) := by
  refine ⟨Tree.besideDir [120] (.leaf [100,45] (.REG,[2])),Tree.besideDir [120] id,by decide,by decide,by decide,by decide,?_⟩
  intro h
  have hmem : fileEntry ([[100],[120]],.REG,[1]) ∈ (diffTreeToTree (Tree.besideDir [120] (.leaf [100,45] (.REG,[2])))
      (Tree.besideDir [120] id)).deleted := by decide
  obtain ⟨x,-,hnot,heq⟩ := (h.deleted _).mp hmem
  have hpath : [[100],[120]] = x.1 := congrArg BitIndexEntry.path heq
  exact hnot ([[100],[120]],.REG,[1]) (by decide) hpath.symm

end Exact

end TreeDiffIter
end Libbit
