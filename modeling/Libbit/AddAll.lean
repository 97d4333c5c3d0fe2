import Libbit.ChangeDetection
import Libbit.Lib.MergeJoin
import Libbit.WorktreeOrder

/-! The index after `add_all` against the worktree. The difference is a merge join of the entries and the files; what it
found is then removed, replaced and added. A file that change detection passes over keeps the entry that it had. -/
namespace Libbit

open Lib

/-- `BitIndex::add_all`. -/
def addAll (env : Env) : Bit Unit := do
  let diff ← diffWorktree env
  applyDiff diff

/-! ### The files that go into the index -/

def BitIndexInner.removeAll (idx : BitIndexInner) (es : List BitIndexEntry) : BitIndexInner :=
  es.foldl (fun idx e => idx.removeEntry e.key) idx

theorem BitIndexInner.findEntry_removeAllEntries (idx : BitIndexInner) (es : List BitIndexEntry) (k : BitPath × MergeStage) :
    (idx.removeAll es).findEntry k = if k ∈ es.map BitIndexEntry.key then none else idx.findEntry k := by
  have h := findEntry_removeAll (es.map BitIndexEntry.key) idx k
  rwa [List.foldl_map] at h

namespace Worktree
variable {w : Worktree} {idx : BitIndexInner} {n : BitIndexEntry} {ns : List BitIndexEntry} {p : BitPath} {f : FileNode}

/-- The entry of a file with the id of its blob. -/
def hashed (w : Worktree) (n : BitIndexEntry) : BitIndexEntry :=
  match w.look n.path with
  | some (some f) => f.hashed n.path
  | _ => n

def addFiles (w : Worktree) (idx : BitIndexInner) (ns : List BitIndexEntry) : BitIndexInner :=
  ns.foldl (fun idx n => idx.addedEntry (w.hashed n)) idx

/-- The index after a status is applied. -/
def applied (w : Worktree) (idx : BitIndexInner) (st : WorkspaceStatus) : BitIndexInner :=
  w.addFiles (w.addFiles (idx.removeAll st.deleted) (st.modified.map Prod.snd)) st.new

theorem ne_nil_of_look (hf : w.look p = some (some f)) : p ≠ [] := by
  rintro rfl
  simp at hf

/-- One file does not stand above another one. -/
theorem apart_of_files (hf : w.look p = some (some f)) {q : BitPath} {g : FileNode} (hg : w.look q = some (some g))
    (hne : p ≠ q) : ¬p <+: q := by
  intro hpre
  have hdir : w.look p = some none := Forest.look_prefix (by simp [hg]) hpre hne
  simp [hf] at hdir

theorem hashed_of_vouched (hn : Vouched w n) : ∃ f, w.look n.path = some (some f) ∧ n = f.toEntry n.path ∧
    w.hashed n = f.hashed n.path := by
  obtain ⟨f,hf,heq⟩ := hn
  exact ⟨f,hf,heq,by rw [hashed,hf]⟩

theorem vouched_file (hf : w.look p = some (some f)) : Vouched w (f.toEntry p) := ⟨f,hf,rfl⟩

theorem valid_addFiles (hw : w.WellFormed) (hv : idx.Valid) (hns : ∀ n ∈ ns, Vouched w n) : (w.addFiles idx ns).Valid := by
  induction ns generalizing idx with
  | nil => exact hv
  | cons n ns ih =>
    obtain ⟨hn,hns⟩ := List.forall_mem_cons.mp hns
    obtain ⟨f,hf,-,heq⟩ := hashed_of_vouched hn
    have hone : (idx.addedEntry (w.hashed n)).Valid := by
      rw [heq]
      exact hv.addedEntry (e := f.hashed n.path) (ne_nil_of_look hf) (WellFormed.normal (p := n.path) hw (by simp [hf]))
    exact ih hone hns

/-- At the path of a file there is what was added last, if it was added. -/
theorem findEntry_addFiles (hns : ∀ n ∈ ns, Vouched w n) (hf : w.look p = some (some f)) (s : MergeStage) :
    (w.addFiles idx ns).findEntry (p,s) =
      if f.toEntry p ∈ ns then (if s = .NONE then some (f.hashed p) else none) else idx.findEntry (p,s) := by
  induction ns generalizing idx with
  | nil => rfl
  | cons n ns ih =>
    obtain ⟨hn,hns⟩ := List.forall_mem_cons.mp hns
    change (w.addFiles (idx.addedEntry (w.hashed n)) ns).findEntry (p,s) = _
    rw [ih hns]
    obtain ⟨g,hg,hneq,heq⟩ := hashed_of_vouched hn
    by_cases hpath : n.path = p
    · subst hpath
      obtain rfl : f = g := by simpa using hf.symm.trans hg
      have hself : (idx.addedEntry (f.hashed n.path)).findEntry (n.path,s) = if s = .NONE then some (f.hashed n.path) else none :=
        BitIndexInner.findEntry_addedEntry_self rfl s
      rw [if_pos (List.mem_cons.mpr (Or.inl hneq.symm)),heq,hself,ite_self]
    · have hother : f.toEntry p ≠ n := fun h => hpath (by rw [← h]; rfl)
      have hapart : (idx.addedEntry (w.hashed n)).findEntry (p,s) = idx.findEntry (p,s) := by
        rw [heq]
        exact BitIndexInner.findEntry_addedEntry_of_apart (e := g.hashed n.path) (k := (p,s)) (ne_nil_of_look hg)
          (apart_of_files hf hg (Ne.symm hpath)) (apart_of_files hg hf hpath)
      simp only [List.mem_cons,hother,false_or,hapart]

/-- At any other path nothing comes up. -/
theorem findEntry_of_addFiles (hns : ∀ n ∈ ns, Vouched w n) (hf : ∀ f, w.look p ≠ some (some f)) {s : MergeStage}
    {x : BitIndexEntry} (h : (w.addFiles idx ns).findEntry (p,s) = some x) : idx.findEntry (p,s) = some x := by
  induction ns generalizing idx with
  | nil => exact h
  | cons n ns ih =>
    obtain ⟨hn,hns⟩ := List.forall_mem_cons.mp hns
    obtain ⟨g,hg,-,heq⟩ := hashed_of_vouched hn
    have hone : (idx.addedEntry (w.hashed n)).findEntry (p,s) = some x := ih hns h
    rw [heq] at hone
    refine BitIndexInner.findEntry_of_addedEntry (fun hpath => ?_) hone
    subst hpath
    exact hf g hg

end Worktree

/-! ### The runs -/

section Run
variable {r : Repo} {o n : BitIndexEntry} {ns : List BitIndexEntry}

/-- The answer of change detection when the hash has had its say: `Maybe` is left for a file that is refreshed. -/
def verdict (indexMtime : Option ℕ) (w : Worktree) (x : BitIndexEntry × BitIndexEntry) : Changed :=
  match hasChangesInner indexMtime x.1 x.2 with
  | .Yes => .Yes
  | .No => .No
  | .Maybe => if x.1.oid = (w.hashed x.2).oid then .Maybe else .Yes

/-- The pairs with a verdict. -/
def withVerdict (indexMtime : Option ℕ) (w : Worktree) (c : Changed) (m : List (BitIndexEntry × BitIndexEntry)) :
    List (BitIndexEntry × BitIndexEntry) := m.filter fun x => verdict indexMtime w x = c

theorem hasChanges_run (hw : r.worktree.WellFormed) (hn : Vouched r.worktree n) :
    hasChanges o n r = match verdict r.indexMtime r.worktree (o,n) with
      | .Yes => .ok true r
      | .No => .ok false r
      | .Maybe => .ok false {r with index := r.index.addedEntry (r.worktree.hashed n)} := by
  obtain ⟨f,hf,heq,hhashed⟩ := Worktree.hashed_of_vouched hn
  simp only [verdict]
  cases hc : hasChangesInner r.indexMtime o n with
  | Yes => exact hasChanges_yes hc
  | No => exact hasChanges_no hc
  | Maybe =>
    have hmaybe := hasChanges_maybe (o := o) (hw.normal (by simp [hf])) hf (heq ▸ hc)
    rw [← heq,← hhashed] at hmaybe
    rw [hmaybe,hhashed]
    by_cases hoid : o.oid = .blob f.contents
    · rw [if_neg (not_not_intro hoid),if_pos (show o.oid = (f.hashed n.path).oid from hoid)]
    · rw [if_pos hoid,if_neg (show o.oid ≠ (f.hashed n.path).oid from hoid)]

/-- The difference is a merge join; of the pairs it lists those that changed and refreshes those that only looked so. -/
theorem diffIndexWorktree_run (hw : r.worktree.WellFormed) {fuel : ℕ} (old new : List BitIndexEntry)
    (hfuel : old.length+new.length ≤ fuel) (hnew : ∀ n ∈ new, Vouched r.worktree n) (st : WorkspaceStatus) :
    ∃ d m c, MergeJoin (fun o => o.path.asBytes) (fun n => n.path.asBytes) old new d m c ∧
      diffIndexWorktree fuel old new st r =
        .ok ⟨st.new++c,st.modified++withVerdict r.indexMtime r.worktree .Yes m,st.deleted++d⟩
          {r with index := r.worktree.addFiles r.index ((withVerdict r.indexMtime r.worktree .Maybe m).map Prod.snd)} := by
  induction fuel generalizing r old new st with
  | zero =>
    obtain rfl : old = [] := List.eq_nil_of_length_eq_zero (by omega)
    obtain rfl : new = [] := List.eq_nil_of_length_eq_zero (by omega)
    exact ⟨[],[],[],.nil,by simp [diffIndexWorktree,withVerdict,Worktree.addFiles]⟩
  | succ fuel ih =>
    cases old with
    | nil =>
      cases new with
      | nil => exact ⟨[],[],[],.nil,by simp [diffIndexWorktree,withVerdict,Worktree.addFiles]⟩
      | cons n ns =>
        simp only [List.length_cons] at hfuel
        obtain ⟨d,m,c,hj,hrun⟩ := ih hw [] ns (by simp; omega) (List.forall_mem_cons.mp hnew).2
          {st with new := st.new++[n]}
        exact ⟨d,m,n::c,.right (by simp) hj,by simpa [diffIndexWorktree] using hrun⟩
    | cons o os =>
      cases new with
      | nil =>
        simp only [List.length_cons] at hfuel
        obtain ⟨d,m,c,hj,hrun⟩ := ih hw os [] (by simp; omega) hnew {st with deleted := st.deleted++[o]}
        exact ⟨o::d,m,c,.left (by simp) hj,by simpa [diffIndexWorktree] using hrun⟩
      | cons n ns =>
        simp only [List.length_cons] at hfuel
        obtain ⟨hn,hns⟩ := List.forall_mem_cons.mp hnew
        rw [diffIndexWorktree]
        cases hcmp : o.diffCmp n with
        | lt =>
          obtain ⟨d,m,c,hj,hrun⟩ := ih hw os (n::ns) (by simp; omega) hnew {st with deleted := st.deleted++[o]}
          exact ⟨o::d,m,c,.left (by simpa using TreeDiffIter.diffCmp_lt.mp hcmp) hj,by simpa using hrun⟩
        | gt =>
          obtain ⟨d,m,c,hj,hrun⟩ := ih hw (o::os) ns (by simp; omega) hns {st with new := st.new++[n]}
          exact ⟨d,m,n::c,.right (by simpa using TreeDiffIter.diffCmp_gt.mp hcmp) hj,by simpa using hrun⟩
        | eq =>
          have hkey := TreeDiffIter.diffCmp_eq.mp hcmp
          have hchanged := hasChanges_run (o := o) hw hn
          cases hverdict : verdict r.indexMtime r.worktree (o,n) with
          | Yes =>
            rw [hverdict] at hchanged
            obtain ⟨d,m,c,hj,hrun⟩ := ih hw os ns (by omega) hns {st with modified := st.modified++[(o,n)]}
            refine ⟨d,(o,n)::m,c,.both hkey hj,(bind_of_ok hchanged).trans ?_⟩
            simpa [withVerdict,hverdict] using hrun
          | No =>
            rw [hverdict] at hchanged
            obtain ⟨d,m,c,hj,hrun⟩ := ih hw os ns (by omega) hns st
            refine ⟨d,(o,n)::m,c,.both hkey hj,(bind_of_ok hchanged).trans ?_⟩
            simpa [withVerdict,hverdict] using hrun
          | Maybe =>
            rw [hverdict] at hchanged
            obtain ⟨d,m,c,hj,hrun⟩ := ih (r := {r with index := r.index.addedEntry (r.worktree.hashed n)}) hw
              os ns (by omega) hns st
            refine ⟨d,(o,n)::m,c,.both hkey hj,(bind_of_ok hchanged).trans ?_⟩
            simpa [withVerdict,hverdict,Worktree.addFiles] using hrun

end Run

section Apply
variable {r : Repo}

theorem removeAll_run (d : List BitIndexEntry) :
    d.forM (fun old => modifyIndex (·.removeEntry old.key)) r = .ok () {r with index := r.index.removeAll d} := by
  induction d generalizing r with
  | nil => rfl
  | cons x d ih => exact (bind_of_ok rfl).trans ih

theorem addAllEntries_run {α : Type} {g : α → BitIndexEntry} (hw : r.worktree.WellFormed) {xs : List α}
    (hxs : ∀ x ∈ xs, Vouched r.worktree (g x)) :
    xs.forM (fun x => addEntry (g x)) r = .ok () {r with index := r.worktree.addFiles r.index (xs.map g)} := by
  induction xs generalizing r with
  | nil => rfl
  | cons x xs ih =>
    obtain ⟨hx,hxs⟩ := List.forall_mem_cons.mp hxs
    obtain ⟨f,hf,heq,hhashed⟩ := Worktree.hashed_of_vouched hx
    have hadd : addEntry (g x) r = .ok () {r with index := r.index.addedEntry (r.worktree.hashed (g x))} := by
      rw [hhashed,heq]
      exact addEntry_file (hw.normal (by simp [hf])) hf
    exact (bind_of_ok hadd).trans (ih (r := {r with index := r.index.addedEntry (r.worktree.hashed (g x))}) hw hxs)

theorem applyDiff_run (hw : r.worktree.WellFormed) {st : WorkspaceStatus} (hnew : ∀ n ∈ st.new, Vouched r.worktree n)
    (hmodified : ∀ x ∈ st.modified, Vouched r.worktree x.2) :
    applyDiff st r = .ok () {r with index := r.worktree.applied r.index st} := by
  have hadd (r' : Repo) (h : r'.worktree = r.worktree) : st.new.forM addEntry r' =
      .ok () {r' with index := r'.worktree.addFiles r'.index st.new} := by
    have hrun := addAllEntries_run (r := r') (g := id) (h ▸ hw) (h ▸ hnew)
    rwa [List.map_id] at hrun
  have hmodify := addAllEntries_run (r := {r with index := r.index.removeAll st.deleted}) (g := Prod.snd) hw hmodified
  exact (bind_of_ok (removeAll_run st.deleted)).trans ((bind_of_ok hmodify).trans (hadd _ rfl))

end Apply

section Result
variable {env : Env} {r : Repo} {d c : List BitIndexEntry} {m : List (BitIndexEntry × BitIndexEntry)}

/-- The files with a verdict. -/
def Repo.listed (r : Repo) (v : Changed) (m : List (BitIndexEntry × BitIndexEntry)) : List BitIndexEntry :=
  (withVerdict r.indexMtime r.worktree v m).map Prod.snd

/-- The index after the files that only looked changed are refreshed, what is gone is removed, and what changed and what is
new is added. -/
def Repo.addedAll (r : Repo) (d : List BitIndexEntry) (m : List (BitIndexEntry × BitIndexEntry)) (c : List BitIndexEntry) :
    BitIndexInner :=
  r.worktree.applied (r.worktree.addFiles r.index (r.listed .Maybe m))
    ⟨c,withVerdict r.indexMtime r.worktree .Yes m,d⟩

theorem addedAll_eq : r.addedAll d m c = r.worktree.addFiles (r.worktree.addFiles
    ((r.worktree.addFiles r.index (r.listed .Maybe m)).removeAll d) (r.listed .Yes m)) c := rfl

/-- The entries of the index joined with the files of the worktree. -/
def Joined (env : Env) (r : Repo) (d : List BitIndexEntry) (m : List (BitIndexEntry × BitIndexEntry))
    (c : List BitIndexEntry) : Prop :=
  MergeJoin (fun o => o.path.asBytes) (fun n => n.path.asBytes) r.index.entries
    (worktreeIter env.gitignore r.index r.worktree) d m c

theorem vouched_of_walk (hw : r.worktree.WellFormed) {n : BitIndexEntry}
    (hn : n ∈ worktreeIter env.gitignore r.index r.worktree) : Vouched r.worktree n := ((Worktree.mem_worktreeIter hw).mp hn).1

theorem diffWorktree_run (env : Env) (hw : r.worktree.WellFormed) :
    ∃ d m c, Joined env r d m c ∧ diffWorktree env r = .ok ⟨c,withVerdict r.indexMtime r.worktree .Yes m,d⟩
      {r with index := r.worktree.addFiles r.index (r.listed .Maybe m)} :=
  diffIndexWorktree_run hw _ _ (Nat.le_refl _) (fun _ hn => vouched_of_walk hw hn) .empty

theorem addAll_run (env : Env) (hw : r.worktree.WellFormed) :
    ∃ d m c, Joined env r d m c ∧ addAll env r = .ok () {r with index := r.addedAll d m c} := by
  obtain ⟨d,m,c,hj,hrun⟩ := diffWorktree_run env hw
  refine ⟨d,m,c,hj,?_⟩
  have hnew : ∀ n ∈ c, Vouched r.worktree n := fun n hn => vouched_of_walk hw (hj.mem_right.mpr (Or.inl hn))
  have hmodified : ∀ x ∈ withVerdict r.indexMtime r.worktree .Yes m, Vouched r.worktree x.2 := fun x hx =>
    vouched_of_walk hw (hj.mem_right.mpr (Or.inr ⟨x.1,List.mem_of_mem_filter hx⟩))
  let refreshed := r.worktree.addFiles r.index (r.listed .Maybe m)
  exact (bind_of_ok hrun).trans (applyDiff_run (r := {r with index := refreshed}) hw hnew hmodified)

end Result

/-! ### Who is joined with whom -/

section Joined
variable {env : Env} {r : Repo} {d c : List BitIndexEntry} {m : List (BitIndexEntry × BitIndexEntry)}
  {o n x : BitIndexEntry} {p : BitPath} {f : FileNode}

/-- No file of the worktree is ignored. -/
def Unignored (env : Env) (r : Repo) : Prop := ∀ p f, r.worktree.look p = some (some f) →
  isIgnored env.gitignore r.index r.worktree (f.toEntry p) = false

theorem verdict_no {indexMtime : Option ℕ} {w : Worktree} :
    verdict indexMtime w (o,n) = .No ↔ hasChangesInner indexMtime o n = .No := by
  simp only [verdict]
  cases hasChangesInner indexMtime o n with
  | Yes => simp
  | No => simp
  | Maybe => by_cases h : o.oid = (w.hashed n).oid <;> simp [h]

theorem verdict_maybe {indexMtime : Option ℕ} {w : Worktree} :
    verdict indexMtime w (o,n) = .Maybe ↔ hasChangesInner indexMtime o n = .Maybe ∧ o.oid = (w.hashed n).oid := by
  simp only [verdict]
  cases hasChangesInner indexMtime o n with
  | Yes => simp
  | No => simp
  | Maybe => by_cases h : o.oid = (w.hashed n).oid <;> simp [h]

theorem mem_listed {v : Changed} : n ∈ r.listed v m ↔ ∃ o, (o,n) ∈ m ∧ verdict r.indexMtime r.worktree (o,n) = v := by
  simp [Repo.listed,withVerdict]

/-- The bytes of paths of normal names tell the paths apart. -/
theorem path_of_asBytes (hv : r.index.Valid) (hw : r.worktree.WellFormed) (ho : o ∈ r.index.entries)
    (hn : Vouched r.worktree n) (h : o.path.asBytes = n.path.asBytes) : o.path = n.path := by
  obtain ⟨f,hf,-⟩ := hn
  exact BitPath.asBytes_injective (hv.normal o ho).2 (hw.normal (by simp [hf])) h

namespace Joined
variable (hj : Joined env r d m c) (hv : r.index.Valid) (hw : r.worktree.WellFormed)
include hj

theorem mem_paired (hm : (o,n) ∈ m) : o ∈ r.index.entries := hj.mem_left.mpr (Or.inr ⟨n,hm⟩)

include hw

theorem vouched_new (hn : n ∈ c) : Vouched r.worktree n := vouched_of_walk hw (hj.mem_right.mpr (Or.inl hn))

theorem vouched_paired (hm : (o,n) ∈ m) : Vouched r.worktree n :=
  vouched_of_walk hw (hj.mem_right.mpr (Or.inr ⟨o,hm⟩))

theorem vouched_listed {v : Changed} (hn : n ∈ r.listed v m) : Vouched r.worktree n := by
  obtain ⟨o,hm,-⟩ := mem_listed.mp hn
  exact hj.vouched_paired hw hm

theorem file_cases (hign : Unignored env r) (hf : r.worktree.look p = some (some f)) :
    f.toEntry p ∈ c ∨ ∃ o, (o,f.toEntry p) ∈ m :=
  hj.mem_right.mp ((Worktree.mem_worktreeIter hw).mpr ⟨Worktree.vouched_file hf,hign p f hf⟩)

include hv

theorem path_eq (hm : (o,n) ∈ m) : o.path = n.path :=
  path_of_asBytes hv hw (hj.mem_paired hm) (hj.vouched_paired hw hm) (hj.key_eq hm)

/-- The partner of a file is the first entry at its path. -/
theorem first_paired (hm : (o,n) ∈ m) (hx : x ∈ r.index.entries) (hpath : x.path = n.path) :
    x = o ∨ o.stage.toFin < x.stage.toFin := by
  have hkey : x.path.asBytes = o.path.asBytes := by rw [hpath,hj.path_eq hv hw hm]
  refine (hj.first (hv.paths_sorted) (Worktree.worktreeIter_sorted hw) hv.sorted hm hx hkey).imp_right fun hlt => ?_
  rcases Prod.Lex.lt_iff.mp hlt with hlt | ⟨-,hlt⟩
  · exact absurd hlt (by simp [BitIndexEntry.key,hkey])
  · exact hlt

/-- All other entries at the path go. -/
theorem deleted_of_ne (hm : (o,n) ∈ m) (hx : x ∈ r.index.entries) (hpath : x.path = n.path) (hne : x ≠ o) : x ∈ d := by
  rcases hj.mem_left.mp hx with hx | ⟨b,hm'⟩
  · exact hx
  · have hb : b.path = n.path := (hj.path_eq hv hw hm').symm.trans hpath
    obtain ⟨f,hf,hneq⟩ := hj.vouched_paired hw hm
    obtain ⟨g,hg,hbeq⟩ := hj.vouched_paired hw hm'
    rw [hb,hf] at hg
    obtain rfl : f = g := by simpa using hg
    rw [hb,← hneq] at hbeq
    subst hbeq
    exact absurd (hj.partner_eq (Worktree.worktreeIter_nodup hw) hm' hm) hne

omit hw in
theorem key_of_paired (hm : (o,n) ∈ m) : o.key ∉ d.map BitIndexEntry.key := by
  intro hmem
  obtain ⟨x,hx,hkey⟩ := List.mem_map.mp hmem
  have hfind := (BitIndexInner.mem_entries_iff hv).mp (hj.mem_left.mpr (Or.inl hx))
  rw [hkey,(BitIndexInner.mem_entries_iff hv).mp (hj.mem_paired hm)] at hfind
  obtain rfl : o = x := by simpa using hfind
  exact hj.alone_left (hv.nodup) hx n hm

/-- The key of a file that is refreshed is not among those that are removed afterwards. -/
theorem none_not_deleted (hm : (o,n) ∈ m) : (n.path,MergeStage.NONE) ∉ d.map BitIndexEntry.key := by
  intro hmem
  obtain ⟨x,hx,hkey⟩ := List.mem_map.mp hmem
  have hpath : x.path = n.path := congrArg Prod.fst hkey
  have hstage : x.stage = .NONE := congrArg Prod.snd hkey
  rcases hj.first_paired hv hw hm (hj.mem_left.mpr (Or.inl hx)) hpath with rfl | hlt
  · exact hj.alone_left (hv.nodup) hx n hm
  · rw [hstage] at hlt
    exact absurd hlt (Nat.not_lt_zero _)

end Joined

end Joined

/-! ### What the index holds at each path -/

section Outcome
variable {env : Env} {r : Repo} {d c : List BitIndexEntry} {m : List (BitIndexEntry × BitIndexEntry)}
  {o : BitIndexEntry} {p : BitPath} {f : FileNode}
  (hj : Joined env r d m c) (hw : r.worktree.WellFormed)
include hj hw

theorem valid_addedAll (hv : r.index.Valid) : (r.addedAll d m c).Valid := by
  have hremove (idx : BitIndexInner) (es : List BitIndexEntry) (h : idx.Valid) : (idx.removeAll es).Valid := by
    have hall := BitIndexInner.removeAll_keeps (P := BitIndexInner.Valid)
      (fun _ k h => h.of_sublist (BitIndexInner.removeEntry_sublist k)) (es.map BitIndexEntry.key) h
    rwa [List.foldl_map] at hall
  have hrefreshed := Worktree.valid_addFiles hw hv fun n hn => hj.vouched_listed (v := .Maybe) hw hn
  have hmodified := Worktree.valid_addFiles hw (hremove _ d hrefreshed) fun n hn => hj.vouched_listed (v := .Yes) hw hn
  exact Worktree.valid_addFiles hw hmodified fun n hn => hj.vouched_new hw hn

/-- What is added wins over what is removed, and what is removed over what is refreshed. -/
theorem findEntry_addedAll (hf : r.worktree.look p = some (some f)) (s : MergeStage) :
    (r.addedAll d m c).findEntry (p,s) =
      if f.toEntry p ∈ c ∨ f.toEntry p ∈ r.listed .Yes m then (if s = .NONE then some (f.hashed p) else none)
      else if (p,s) ∈ d.map BitIndexEntry.key then none
      else if f.toEntry p ∈ r.listed .Maybe m then (if s = .NONE then some (f.hashed p) else none)
      else r.index.findEntry (p,s) := by
  rw [addedAll_eq,Worktree.findEntry_addFiles (fun n hn => hj.vouched_new hw hn) hf,
    Worktree.findEntry_addFiles (fun n hn => hj.vouched_listed (v := .Yes) hw hn) hf,BitIndexInner.findEntry_removeAllEntries,
    Worktree.findEntry_addFiles (fun n hn => hj.vouched_listed (v := .Maybe) hw hn) hf]
  by_cases hc : f.toEntry p ∈ c
  · rw [if_pos hc,if_pos (Or.inl hc)]
  · rw [if_neg hc]
    simp only [hc,false_or]

/-- Where there is no file there is nothing. -/
theorem findEntry_addedAll_other (hv : r.index.Valid) (hf : ∀ f, r.worktree.look p ≠ some (some f)) (s : MergeStage) :
    (r.addedAll d m c).findEntry (p,s) = none := by
  cases hx : (r.addedAll d m c).findEntry (p,s) with
  | none => rfl
  | some x =>
    exfalso
    have hmodified := Worktree.findEntry_of_addFiles (fun n hn => hj.vouched_new hw hn) hf hx
    have hremoved := Worktree.findEntry_of_addFiles (fun n hn => hj.vouched_listed (v := .Yes) hw hn) hf hmodified
    rw [BitIndexInner.findEntry_removeAllEntries] at hremoved
    split at hremoved
    · cases hremoved
    · rename_i hkey
      have hold := Worktree.findEntry_of_addFiles (fun n hn => hj.vouched_listed (v := .Maybe) hw hn) hf hremoved
      obtain ⟨hmem,hxk⟩ := BitIndexInner.findEntry_some hold
      rcases hj.mem_left.mp hmem with hd | ⟨n,hm⟩
      · exact hkey (List.mem_map.mpr ⟨x,hd,hxk⟩)
      · obtain ⟨f,hlook,-⟩ := hj.vouched_paired hw hm
        have hpath : n.path = p := (hj.path_eq hv hw hm).symm.trans (congrArg Prod.fst hxk)
        exact hf f (hpath ▸ hlook)

variable (hv : r.index.Valid) (hf : r.worktree.look p = some (some f))
include hv hf

theorem findEntry_refreshed (hm : (o,f.toEntry p) ∈ m) (hverdict : verdict r.indexMtime r.worktree (o,f.toEntry p) = .Maybe)
    (s : MergeStage) : (r.addedAll d m c).findEntry (p,s) = if s = .NONE then some (f.hashed p) else none := by
  rw [findEntry_addedAll hj hw hf,if_pos (mem_listed.mpr ⟨o,hm,hverdict⟩)]
  by_cases hs : s = .NONE
  · subst hs
    have hkey : (p,MergeStage.NONE) ∉ d.map BitIndexEntry.key := hj.none_not_deleted hv hw hm
    rw [if_neg hkey,ite_self]
  · rw [if_neg hs,ite_self,ite_self]

/-- A file that change detection passes over keeps the first entry at its path, whatever that entry is. -/
theorem findEntry_passed (hm : (o,f.toEntry p) ∈ m) (hno : verdict r.indexMtime r.worktree (o,f.toEntry p) = .No)
    (s : MergeStage) : (r.addedAll d m c).findEntry (p,s) = if s = o.stage then some o else none := by
  have hlisted (v : Changed) (hv : v ≠ .No) : f.toEntry p ∉ r.listed v m := by
    intro hmem
    obtain ⟨o',hm',hv'⟩ := mem_listed.mp hmem
    rw [hj.partner_eq (Worktree.worktreeIter_nodup hw) hm' hm] at hv'
    exact hv (hv'.symm.trans hno)
  have hadded : ¬(f.toEntry p ∈ c ∨ f.toEntry p ∈ r.listed .Yes m) :=
    not_or.mpr ⟨fun hc => hj.alone_right (Worktree.worktreeIter_nodup hw) hc o hm,hlisted .Yes (by decide)⟩
  have hpath : o.path = p := hj.path_eq hv hw hm
  rw [findEntry_addedAll hj hw hf,if_neg hadded,if_neg (hlisted .Maybe (by decide))]
  by_cases hs : s = o.stage
  · subst hs
    have hkey : (p,o.stage) = o.key := by rw [BitIndexEntry.key,hpath]
    rw [if_pos rfl,hkey,if_neg (hj.key_of_paired hv hm)]
    exact (BitIndexInner.mem_entries_iff hv).mp (hj.mem_paired hm)
  · rw [if_neg hs]
    cases hx : r.index.findEntry (p,s) with
    | none => rw [ite_self]
    | some x =>
      obtain ⟨hmem,hxk⟩ := BitIndexInner.findEntry_some hx
      have hne : x ≠ o := by
        rintro rfl
        exact hs (congrArg Prod.snd hxk).symm
      rw [if_pos (List.mem_map.mpr ⟨x,hj.deleted_of_ne hv hw hm hmem (congrArg Prod.fst hxk) hne,hxk⟩)]

/-- Every file has the entry of its contents, unless its verdict was that nothing changed. -/
theorem findEntry_file (hign : Unignored env r) :
    (∃ o, (o,f.toEntry p) ∈ m ∧ verdict r.indexMtime r.worktree (o,f.toEntry p) = .No) ∨
      ∀ s, (r.addedAll d m c).findEntry (p,s) = if s = .NONE then some (f.hashed p) else none := by
  rcases hj.file_cases hw hign hf with hc | ⟨o,hm⟩
  · refine Or.inr fun s => ?_
    rw [findEntry_addedAll hj hw hf,if_pos (Or.inl hc)]
  · cases hverdict : verdict r.indexMtime r.worktree (o,f.toEntry p) with
    | Yes =>
      refine Or.inr fun s => ?_
      rw [findEntry_addedAll hj hw hf,if_pos (Or.inr (mem_listed.mpr ⟨o,hm,hverdict⟩))]
    | No => exact Or.inl ⟨o,hm,hverdict⟩
    | Maybe => exact Or.inr (findEntry_refreshed hj hw hv hf hm hverdict)

end Outcome

/-! ### The index and the worktree -/

/-- The entry is the one that the file gets. -/
def BitIndexEntry.RightFor (e : BitIndexEntry) (f : FileNode) : Prop :=
  e.stage = .NONE ∧ e.mode = .blob f.mode ∧ e.oid = .blob f.contents

/-- The index has an entry for each file, with its mode and its blob, and no other entry. -/
structure BitIndexInner.HoldsWorktree (idx : BitIndexInner) (w : Worktree) : Prop where
  valid : idx.Valid
  file : ∀ p f, w.look p = some (some f) → ∃ e ∈ idx.entries, e.path = p ∧ e.RightFor f
  only : ∀ e ∈ idx.entries, ∃ f, w.look e.path = some (some f) ∧ e.RightFor f

/-- The index equals the worktree after the call, and a second call, whenever the index was written in between, changes
no mode and no id at any path and stage. -/
structure MakesEqual (env : Env) (r : Repo) : Prop where
  equal : ∀ r', addAll env r = .ok () r' → r'.index.HoldsWorktree r.worktree
  again : ∀ r' r'' indexMtime, addAll env r = .ok () r' → addAll env {r' with indexMtime := indexMtime} = .ok () r'' →
    ∀ k, r''.index.view k = r'.index.view k

/-- Where the first entry at the path of a file passes for unchanged, it is the entry that the file gets. -/
def Settled (r : Repo) : Prop :=
  ∀ e ∈ r.index.entries, ∀ f, r.worktree.look e.path = some (some f) →
    (∀ x ∈ r.index.entries, x.path = e.path → e.stage.toFin ≤ x.stage.toFin) →
    hasChangesInner r.indexMtime e (f.toEntry e.path) = .No → e.RightFor f

section Equal
variable {env : Env} {r r' : Repo}

theorem BitIndexInner.HoldsWorktree.view_eq {idx idx' : BitIndexInner} {w : Worktree} (h : idx.HoldsWorktree w)
    (h' : idx'.HoldsWorktree w) (k : BitPath × MergeStage) : idx.view k = idx'.view k := by
  have hsome {idx idx' : BitIndexInner} (h : idx.HoldsWorktree w) (h' : idx'.HoldsWorktree w) {v : FileMode × Oid}
      (hv : idx.view k = some v) : idx'.view k = some v := by
    obtain ⟨e,he,rfl⟩ := Option.map_eq_some_iff.mp hv
    obtain ⟨hmem,rfl⟩ := findEntry_some he
    obtain ⟨f,hf,hstage,hmode,hoid⟩ := h.only e hmem
    obtain ⟨e',hmem',hpath',hstage',hmode',hoid'⟩ := h'.file e.path f hf
    have hkey : e'.key = e.key := by rw [BitIndexEntry.key,BitIndexEntry.key,hpath',hstage',hstage]
    rw [view,← hkey,(mem_entries_iff h'.valid).mp hmem',Option.map_some,hmode,hoid,hmode',hoid']
  exact Option.ext fun v => ⟨hsome h h',hsome h' h⟩

/-- An index that holds the worktree leaves nothing to settle. -/
theorem BitIndexInner.HoldsWorktree.settled (h : r.index.HoldsWorktree r.worktree) : Settled r := by
  intro e he f hf _ _
  obtain ⟨g,hg,hright⟩ := h.only e he
  obtain rfl : f = g := by simpa using hf.symm.trans hg
  exact hright

theorem BitIndexInner.HoldsWorktree.unignored (h : r.index.HoldsWorktree r.worktree) : Unignored env r := by
  intro p f hf
  obtain ⟨e,he,hpath,-⟩ := h.file p f hf
  have htracked : r.index.entries.any (fun x => x.path = (f.toEntry p).path) = true :=
    List.any_eq_true.mpr ⟨e,he,decide_eq_true hpath⟩
  rw [isIgnored,htracked]
  rfl

theorem holdsWorktree_of_settled {d c : List BitIndexEntry} {m : List (BitIndexEntry × BitIndexEntry)}
    (hj : Joined env r d m c) (hv : r.index.Valid) (hw : r.worktree.WellFormed) (hign : Unignored env r)
    (h : Settled r) : (r.addedAll d m c).HoldsWorktree r.worktree := by
  have hvalid := valid_addedAll hj hw hv
  -- at the path of a file there is one entry, the right one
  have hfile (p : BitPath) (f : FileNode) (hf : r.worktree.look p = some (some f)) : ∃ e : BitIndexEntry, e.path = p ∧
      e.RightFor f ∧ ∀ s, (r.addedAll d m c).findEntry (p,s) = if s = .NONE then some e else none := by
    rcases findEntry_file hj hw hv hf hign with ⟨o,hm,hno⟩ | hfind
    · have hpath : o.path = p := hj.path_eq hv hw hm
      have hright : o.RightFor f := by
        refine h o (hj.mem_paired hm) f (hpath ▸ hf) (fun x hx hxp => ?_) (hpath.symm ▸ verdict_no.mp hno)
        rcases hj.first_paired hv hw hm hx (hxp.trans hpath) with rfl | hlt
        · exact le_refl _
        · exact hlt.le
      refine ⟨o,hpath,hright,fun s => ?_⟩
      rw [findEntry_passed hj hw hv hf hm hno,hright.1]
    · exact ⟨f.hashed p,rfl,⟨rfl,rfl,rfl⟩,hfind⟩
  refine ⟨hvalid,fun p f hf => ?_,fun e he => ?_⟩
  · obtain ⟨e,hpath,hright,hfind⟩ := hfile p f hf
    exact ⟨e,(BitIndexInner.findEntry_some ((hfind .NONE).trans (if_pos rfl))).1,hpath,hright⟩
  · have hfound : (r.addedAll d m c).findEntry (e.path,e.stage) = some e := (BitIndexInner.mem_entries_iff hvalid).mp he
    by_cases hf : ∃ f, r.worktree.look e.path = some (some f)
    · obtain ⟨f,hf⟩ := hf
      obtain ⟨e',-,hright,hfind⟩ := hfile e.path f hf
      rw [hfind] at hfound
      split at hfound
      · obtain rfl : e' = e := by simpa using hfound
        exact ⟨f,hf,hright⟩
      · cases hfound
    · rw [findEntry_addedAll_other hj hw hv (fun f hlook => hf ⟨f,hlook⟩)] at hfound
      cases hfound

theorem addAll_equal (hv : r.index.Valid) (hw : r.worktree.WellFormed) (hign : Unignored env r) (h : Settled r)
    (hrun : addAll env r = .ok () r') : r'.worktree = r.worktree ∧ r'.index.HoldsWorktree r.worktree := by
  obtain ⟨d,m,c,hj,hrun'⟩ := addAll_run env hw
  obtain rfl : {r with index := r.addedAll d m c} = r' := by simpa using hrun'.symm.trans hrun
  exact ⟨rfl,holdsWorktree_of_settled hj hv hw hign h⟩

/-- The first entry at the path of a file is joined with the file. -/
theorem paired_of_first {d c : List BitIndexEntry} {m : List (BitIndexEntry × BitIndexEntry)} (hj : Joined env r d m c)
    (hv : r.index.Valid) (hw : r.worktree.WellFormed) (hign : Unignored env r) {e : BitIndexEntry} {f : FileNode}
    (he : e ∈ r.index.entries) (hf : r.worktree.look e.path = some (some f))
    (hfirst : ∀ x ∈ r.index.entries, x.path = e.path → e.stage.toFin ≤ x.stage.toFin) : (e,f.toEntry e.path) ∈ m := by
  rcases hj.file_cases hw hign hf with hc | ⟨o,hm⟩
  · have hne := MergeJoin.ne_of_right hv.paths_sorted (Worktree.worktreeIter_sorted hw) hj hc he
    exact absurd rfl hne
  · rcases hj.first_paired hv hw hm he rfl with rfl | hlt
    · exact hm
    · have hpath : o.path = (f.toEntry e.path).path := hj.path_eq hv hw hm
      exact absurd (hfirst o (hj.mem_paired hm) hpath) (not_le.mpr hlt)

theorem makesEqual_iff (hv : r.index.Valid) (hw : r.worktree.WellFormed) (hign : Unignored env r) :
    MakesEqual env r ↔ Settled r := by
  constructor
  · intro h e he f hf hfirst hno
    obtain ⟨d,m,c,hj,hrun⟩ := addAll_run env hw
    have hholds := h.equal _ hrun
    have hm := paired_of_first hj hv hw hign he hf hfirst
    obtain ⟨x,hx,hpath,hright⟩ := hholds.file e.path f hf
    have hfind : (r.addedAll d m c).findEntry (x.path,x.stage) = some x := (BitIndexInner.mem_entries_iff hholds.valid).mp hx
    rw [hpath,findEntry_passed hj hw hv hf hm (verdict_no.mpr hno)] at hfind
    split at hfind
    · obtain rfl : e = x := by simpa using hfind
      exact hright
    · cases hfind
  · intro h
    refine ⟨fun r' hrun => (addAll_equal hv hw hign h hrun).2,fun r' r'' indexMtime hrun hagain k => ?_⟩
    obtain ⟨hsame,hholds⟩ := addAll_equal hv hw hign h hrun
    let written : Repo := {r' with indexMtime := indexMtime}
    have hholds' : written.index.HoldsWorktree written.worktree := hsame.symm ▸ hholds
    have hw' : written.worktree.WellFormed := hsame.symm ▸ hw
    obtain ⟨-,hholds''⟩ := addAll_equal hholds'.valid hw' hholds'.unignored hholds'.settled hagain
    exact hholds''.view_eq hholds' k

end Equal

/-! ### A conflict, a directory and a mode -/

theorem unignored_plain (r : Repo) : Unignored .plain r := fun _ _ _ => by
  rw [isIgnored,show Env.plain.gitignore = fun _ _ _ => false from rfl,Bool.and_false]

/-- A file in conflict gave way to a directory, another one is gone, and a third one was not touched. -/
def mixedRepo : Repo :=
  {Repo.init with
    index := ⟨[⟨[[97]],.blob .REG,.blob [1],.BASE,.unknown⟩,⟨[[97]],.blob .REG,.blob [2],.THEIRS,.unknown⟩,
      ⟨[[98]],.blob .REG,.blob [3],.NONE,⟨5,2,1⟩⟩,sampleEntry],none⟩
    indexMtime := some 7
    worktree := .node [97] (.leaf [120] (sampleFile .LINK 6 3) .nil) (.leaf [102] (sampleFile .REG 5 1) .nil)}

theorem makesEqual_mixed : MakesEqual .plain mixedRepo := by
  have hw : mixedRepo.worktree.WellFormed := ⟨by decide,by decide⟩
  refine (makesEqual_iff ⟨by decide,by decide⟩ hw (unignored_plain _)).mpr fun e he f hf _ _ => ?_
  simp only [mixedRepo,List.mem_cons,List.not_mem_nil,or_false] at he
  rcases he with rfl | rfl | rfl | rfl
  · cases hf
  · cases hf
  · cases hf
  · cases hf
    exact ⟨rfl,rfl,rfl⟩

/-- `chmod +x` leaves the time of a file, so the entry keeps the old mode. -/
def chmodRepo : Repo := {statRepo (sampleFile .EXEC 5 1) with index := ⟨[sampleEntry],none⟩}

theorem addAll_chmod : addAll .plain chmodRepo = .ok () chmodRepo := by rfl

theorem mode_not_added : chmodRepo.index.Valid ∧ chmodRepo.worktree.WellFormed ∧ Unignored .plain chmodRepo ∧
    ¬MakesEqual .plain chmodRepo := by
  refine ⟨⟨by decide,by decide⟩,wellFormed_statRepo _,unignored_plain _,fun h => ?_⟩
  obtain ⟨e,he,-,-,hmode,-⟩ := (h.equal _ addAll_chmod).file [[102]] (sampleFile .EXEC 5 1) rfl
  obtain rfl : e = sampleEntry := by simpa [chmodRepo] using he
  cases hmode

end Libbit
