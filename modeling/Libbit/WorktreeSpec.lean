import Libbit.Worktree

/-! What the calls on the worktree do, in terms of what stands at each path afterwards. -/
namespace Libbit

open Lib

/-- A name that a directory can hold: neither a slash nor a null byte, not empty, neither `.` nor `..`. -/
def NormalName (n : Name) : Prop := n ≠ [] ∧ n ≠ Worktree.DOT ∧ n ≠ Worktree.DOTDOT ∧ SLASH ∉ n ∧ 0 ∉ n

instance (n : Name) : Decidable (NormalName n) := inferInstanceAs (Decidable (_ ∧ _))

def BitPath.Normal (p : BitPath) : Prop := ∀ n ∈ p, NormalName n

instance (p : BitPath) : Decidable p.Normal := inferInstanceAs (Decidable (∀ n ∈ p, NormalName n))

namespace BitPath

theorem Normal.concat {p : BitPath} (hp : Normal p) {n : Name} (hn : NormalName n) : Normal (p++[n]) := by
  intro m hm
  rcases List.mem_append.mp hm with hm | hm
  · exact hp m hm
  · exact List.mem_singleton.mp hm ▸ hn

theorem Normal.mono {p q : BitPath} (hq : Normal q) (h : p <+: q) : Normal p := fun n hn => hq n (h.subset hn)

theorem parent_append (d : BitPath) (n : Name) : (d++[n]).parent = d := by simp [parent]

theorem fileName_append (d : BitPath) (n : Name) : (d++[n]).fileName = n := by simp [fileName]

theorem parent_prefix (p : BitPath) : p.parent <+: p := List.dropLast_prefix p

theorem eq_parent_append {p : BitPath} (hp : p ≠ []) : ∃ d n, p = d++[n] :=
  ⟨p.dropLast,p.getLast hp,(List.dropLast_append_getLast hp).symm⟩

end BitPath

namespace Worktree
variable {w : Worktree} {p q : BitPath}

/-- A worktree as a file system keeps it: normal names, and no name twice in a directory. -/
structure WellFormed (w : Worktree) : Prop where
  names : w.AllNames NormalName
  distinct : w.Distinct

theorem WellFormed.normal (h : w.WellFormed) (hp : w.look p ≠ none) : p.Normal := h.names.of_look hp

theorem look_unlink (hp : p ≠ []) (q : BitPath) : (w.unlink p).look q = if p <+: q then none else w.look q := by
  obtain ⟨d,n,rfl⟩ := BitPath.eq_parent_append hp
  rw [unlink,BitPath.parent_append,BitPath.fileName_append,Forest.look_modify_erase]

theorem look_place (hd : w.look p.parent = some none) (hp : p ≠ []) (f : FileNode) (q : BitPath) :
    (w.place p f).look q = if p <+: q then (if q = p then some (some f) else none) else w.look q := by
  obtain ⟨d,n,rfl⟩ := BitPath.eq_parent_append hp
  rw [BitPath.parent_append] at hd
  rw [place,BitPath.parent_append,BitPath.fileName_append,Forest.look_modify_leaf hd]

theorem look_placeDir (hd : w.look p.parent = some none) (hp : p ≠ []) (q : BitPath) :
    (w.placeDir p).look q = if p <+: q then (if q = p then some none else none) else w.look q := by
  obtain ⟨d,n,rfl⟩ := BitPath.eq_parent_append hp
  rw [BitPath.parent_append] at hd
  rw [placeDir,BitPath.parent_append,BitPath.fileName_append,Forest.look_modify_node hd]
  by_cases hq : d++[n] <+: q
  · obtain ⟨t,rfl⟩ := hq
    cases t with
    | nil => simp
    | cons x t => simp [Forest.look]
  · simp [hq]

section Resolve

theorem scan_cons {follow : Bool} {dir : BitPath} {n : Name} (hn : NormalName n) (rest : List Name) :
    w.scan follow dir (n::rest) = match w.look (dir++[n]) with
      | none => if rest = [] then .ok (.at (dir++[n])) else .error .NotFound
      | some none => w.scan follow (dir++[n]) rest
      | some (some f) =>
        if f.mode = .LINK ∧ (follow ∨ rest ≠ []) then .ok (.link dir f.contents rest)
        else if rest = [] then .ok (.at (dir++[n])) else .error .NotADirectory := by
  have h₁ : ¬(n = [] ∨ n = DOT) := fun h => h.elim hn.1 hn.2.1
  conv_lhs => unfold scan
  exact (if_neg h₁).trans (if_neg hn.2.2.1)

/-- Below directories only, the walk arrives; a link at the end is left unless it is followed. -/
theorem scan_arrives {follow : Bool} {dir todo : BitPath} (hn : todo.Normal)
    (hd : todo ≠ [] → w.look (dir++todo.dropLast) = some none)
    (hl : follow → ∀ f, w.look (dir++todo) = some (some f) → f.mode ≠ .LINK) :
    w.scan follow dir todo = .ok (.at (dir++todo)) := by
  induction todo generalizing dir with
  | nil => simp [scan]
  | cons n rest ih =>
    rw [scan_cons (hn n List.mem_cons_self)]
    cases rest with
    | nil =>
      cases hlook : w.look (dir++[n]) with
      | none => simp
      | some m =>
        cases m with
        | none => simp [scan]
        | some f =>
          have hf : ¬(f.mode = .LINK ∧ (follow = true ∨ ([] : List Name) ≠ [])) := by
            rintro ⟨hm,hfo | h⟩
            · exact hl hfo f hlook hm
            · exact h rfl
          simp only [hf,if_false,if_true]
    | cons x rest =>
      have hdir : w.look (dir++[n]) = some none :=
        Forest.look_dir_of_prefix (hd (by simp)) ⟨(x::rest).dropLast,by simp⟩
      have hrec : w.scan follow (dir++[n]) (x::rest) = .ok (.at (dir++[n]++x::rest)) :=
        ih (fun m hm => hn m (List.mem_cons_of_mem _ hm)) (fun _ => by simpa using hd (by simp)) (by simpa using hl)
      simpa [hdir] using hrec

theorem resolve_arrives {follow : Bool} (hn : p.Normal) (hd : p ≠ [] → w.look p.parent = some none)
    (hl : follow → ∀ f, w.look p = some (some f) → f.mode ≠ .LINK) : w.resolve follow p = .ok p := by
  have h : w.scan follow [] p = .ok (.at ([]++p)) :=
    scan_arrives hn (by simpa [BitPath.parent] using hd) (by simpa using hl)
  unfold resolve resolveFrom
  simp [h]

/-- A place without a file on the way to it that is not reached has a directory missing. -/
theorem scan_missing {follow : Bool} {dir todo : BitPath} (hn : todo.Normal) (hdir : w.look dir = some none)
    (hd : w.look (dir++todo.dropLast) = none)
    (hc : ∀ q, q <+: todo.dropLast → ∀ f, w.look (dir++q) ≠ some (some f)) :
    w.scan follow dir todo = .error .NotFound := by
  induction todo generalizing dir with
  | nil => simp [hdir] at hd
  | cons n rest ih =>
    rw [scan_cons (hn n List.mem_cons_self)]
    cases rest with
    | nil => simp [hdir] at hd
    | cons x rest =>
      cases hlook : w.look (dir++[n]) with
      | none => simp
      | some m =>
        cases m with
        | some f => exact absurd hlook (hc [n] ⟨(x::rest).dropLast,by simp⟩ f)
        | none =>
          refine ih (fun m hm => hn m (List.mem_cons_of_mem _ hm)) hlook (by simpa using hd) ?_
          intro q hq f
          have h := hc (n::q) (by simpa [List.cons_prefix_cons] using hq) f
          simpa using h

theorem resolve_missing {follow : Bool} (hn : p.Normal) (hd : w.look p.parent = none)
    (hc : ∀ q, q <+: p.parent → ∀ f, w.look q ≠ some (some f)) : w.resolve follow p = .error .NotFound := by
  have h : w.scan follow [] p = .error .NotFound :=
    scan_missing hn (by simp) (by simpa [BitPath.parent] using hd) (by simpa [BitPath.parent] using hc)
  unfold resolve resolveFrom
  simp [h]

theorem parent_dir (h : w.look p ≠ none) (hp : p ≠ []) : w.look p.parent = some none := by
  refine Forest.look_prefix h p.parent_prefix ?_
  obtain ⟨d,n,rfl⟩ := BitPath.eq_parent_append hp
  rw [BitPath.parent_append]
  simp

end Resolve

section Calls
variable (hn : p.Normal)
include hn

theorem symlinkMetadata_eq {m : Option FileNode} (h : w.look p = some m) : w.symlinkMetadata p = .ok m := by
  have hr : w.resolve false p = .ok p :=
    resolve_arrives hn (fun hp => parent_dir (by simp [h]) hp) (by simp)
  simp [symlinkMetadata,metadataWith,hr,h,bind,Except.bind]

theorem metadata_eq {m : Option FileNode} (h : w.look p = some m) (hl : ∀ f, m = some f → f.mode ≠ .LINK) :
    w.metadata p = .ok m := by
  have hr : w.resolve true p = .ok p :=
    resolve_arrives hn (fun hp => parent_dir (by simp [h]) hp) (fun _ f hf => hl f (by simpa [h] using hf))
  simp [metadata,metadataWith,hr,h,bind,Except.bind]

theorem isDir_of_dir (h : w.look p = some none) : w.isDir p = true := by
  simp [isDir,metadata_eq hn h (by simp)]

theorem removeFile_eq {f : FileNode} (h : w.look p = some (some f)) : w.removeFile p = .ok (w.unlink p) := by
  have hr : w.resolve false p = .ok p :=
    resolve_arrives hn (fun hp => parent_dir (by simp [h]) hp) (by simp)
  simp [removeFile,hr,h,bind,Except.bind]

theorem removeDirAll_eq (h : w.look p = some none) (hp : p ≠ []) : w.removeDirAll p = .ok (w.unlink p) := by
  have hr : w.resolve false p = .ok p :=
    resolve_arrives hn (fun hp => parent_dir (by simp [h]) hp) (by simp)
  simp [removeDirAll,hr,h,hp,bind,Except.bind]

theorem readDirIsEmpty_eq (h : w.look p = some none) :
    w.readDirIsEmpty p = .ok (decide (p ≠ [] ∧ w.sub? p = some .nil)) := by
  have hr : w.resolve true p = .ok p :=
    resolve_arrives hn (fun hp => parent_dir (by simp [h]) hp) (by simp [h])
  simp [readDirIsEmpty,hr,h,bind,Except.bind]

theorem removeDir_eq (h : w.look p = some none) (hp : p ≠ []) (he : w.sub? p = some .nil) :
    w.removeDir p = .ok (w.unlink p) := by
  have hr : w.resolve false p = .ok p :=
    resolve_arrives hn (fun hp => parent_dir (by simp [h]) hp) (by simp)
  simp [removeDir,hr,h,hp,he,bind,Except.bind]

theorem createDir_eq (hd : w.look p.parent = some none) (h : w.look p = none) :
    w.createDir p = .ok (w.placeDir p) := by
  have hr : w.resolve false p = .ok p := resolve_arrives hn (fun _ => hd) (by simp)
  simp [createDir,hr,h,bind,Except.bind]

theorem createDir_exists {m : Option FileNode} (h : w.look p = some m) : w.createDir p = .error .AlreadyExists := by
  have hr : w.resolve false p = .ok p :=
    resolve_arrives hn (fun hp => parent_dir (by simp [h]) hp) (by simp)
  simp [createDir,hr,h,bind,Except.bind]

theorem createDir_missing (hd : w.look p.parent = none)
    (hc : ∀ q, q <+: p.parent → ∀ f, w.look q ≠ some (some f)) : w.createDir p = .error .NotFound := by
  have hr : w.resolve false p = .error .NotFound := resolve_missing hn hd hc
  simp [createDir,hr,bind,Except.bind]

theorem createNew_eq (hd : w.look p.parent = some none) (h : w.look p = none) (f : FileNode) :
    w.createNew p f = .ok (w.place p f) := by
  have hr : w.resolve false p = .ok p := resolve_arrives hn (fun _ => hd) (by simp)
  simp [createNew,hr,h,bind,Except.bind]

end Calls

theorem createDirAll_append (d : BitPath) (n : Name) :
    w.createDirAll (d++[n]) = match w.createDir (d++[n]) with
      | .ok w' => .ok w'
      | .error .NotFound => do
        let w' ← w.createDirAll d
        match w'.createDir (d++[n]) with
        | .ok w'' => .ok w''
        | .error e => if w'.isDir (d++[n]) then .ok w' else .error e
      | .error e => if w.isDir (d++[n]) then .ok w else .error e := by
  unfold createDirAll
  rw [List.reverse_append]
  simp only [List.reverse_cons,List.reverse_nil,List.nil_append,List.cons_append]
  conv_lhs => unfold createDirAllRev
  simp only [List.reverse_cons,List.reverse_reverse]
  all_goals rfl

theorem createDirAll_exists (hn : p.Normal) (h : w.look p = some none) : w.createDirAll p = .ok w := by
  by_cases hp : p = []
  · subst hp
    rfl
  · obtain ⟨d,n,rfl⟩ := BitPath.eq_parent_append hp
    rw [createDirAll_append]
    simp only [createDir_exists hn h,isDir_of_dir hn h,if_true]

/-- A new directory below one that is there, or was just made with all above it. -/
theorem look_placeDir_along {v : Worktree} {d : BitPath} {n : Name}
    (hv : ∀ q, v.look q = if q <+: d then some none else w.look q) (h : w.look (d++[n]) = none) (q : BitPath) :
    (v.placeDir (d++[n])).look q = if q <+: d++[n] then some none else w.look q := by
  have hd : v.look d = some none := by simp [hv]
  rw [look_placeDir (by rwa [BitPath.parent_append]) (by simp)]
  simp only [List.prefix_concat_iff]
  by_cases hq : q = d++[n]
  · simp [hq]
  · by_cases hqd : q <+: d
    · have hlt : ¬d++[n] <+: q := fun hp => by simpa using (hp.trans hqd).length_le
      simp [hlt,hq,hqd,hv]
    · by_cases hp : d++[n] <+: q
      · obtain ⟨t,rfl⟩ := hp
        cases t with
        | nil => simp at hq
        | cons x t =>
          have hnone := Forest.look_append_of_ne_dir (f := w) (p := d++[n]) (by simp [h]) x t
          rw [if_pos (List.prefix_append _ _),if_neg hq,if_neg (not_or.mpr ⟨hq,hqd⟩),hnone]
      · simp [hp,hq,hv]

/-- `create_dir_all` along a path without files makes the directories that are missing. -/
theorem createDirAll_spec (hn : p.Normal) (hc : ∀ q, q <+: p → ∀ f, w.look q ≠ some (some f)) :
    ∃ w', w.createDirAll p = .ok w' ∧ ∀ q, w'.look q = if q <+: p then some none else w.look q := by
  induction p using List.reverseRecOn with
  | nil =>
    refine ⟨w,rfl,fun q => ?_⟩
    split
    · rename_i hq
      simp [List.prefix_nil.mp hq]
    · rfl
  | append_singleton d n ih =>
    have hpre : d <+: d++[n] := List.prefix_append _ _
    rw [createDirAll_append]
    by_cases hself : w.look (d++[n]) = none
    · by_cases hd : w.look d = some none
      · rw [createDir_eq hn (by rwa [BitPath.parent_append]) hself]
        refine ⟨_,rfl,look_placeDir_along (fun q => ?_) hself⟩
        split
        · exact Forest.look_dir_of_prefix hd ‹_›
        · rfl
      · have hnone : w.look d = none := by
          cases hl : w.look d with
          | none => rfl
          | some m =>
            cases m with
            | none => exact absurd hl hd
            | some f => exact absurd hl (hc _ hpre f)
        obtain ⟨w',hw',hlook⟩ := ih (hn.mono hpre) fun q hq => hc q (hq.trans hpre)
        have hs' : w'.look (d++[n]) = none := by
          rw [hlook,if_neg]
          · exact hself
          · intro h
            simpa using h.length_le
        rw [createDir_missing hn (by rwa [BitPath.parent_append])
          (by rw [BitPath.parent_append]; exact fun q hq => hc q (hq.trans hpre))]
        refine ⟨w'.placeDir (d++[n]),?_,look_placeDir_along hlook hself⟩
        have hmk := createDir_eq (w := w') hn (by rw [BitPath.parent_append]; simp [hlook]) hs'
        simp only [hw',hmk,bind,Except.bind]
    · have hself' : w.look (d++[n]) = some none := by
        cases hl : w.look (d++[n]) with
        | none => exact absurd hl hself
        | some m =>
          cases m with
          | none => rfl
          | some f => exact absurd hl (hc _ (List.prefix_refl _) f)
      refine ⟨w,?_,fun q => ?_⟩
      · rw [← createDirAll_append,createDirAll_exists hn hself']
      · split
        · exact Forest.look_dir_of_prefix hself' ‹_›
        · rfl

end Worktree
end Libbit
