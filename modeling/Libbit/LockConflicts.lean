import Libbit.RefsSpec

/-! Two holders of locks (`lockfile.rs`): the lock of a path is the path with another extension, which the guarded
paths of the bit directory do not have, but which several of them may share. -/
namespace Libbit
namespace Refs

open Lib

/-! ### Names (`refs.rs`) -/

/-- `INVALID_REF_REGEX` has a match. -/
def invalidRef (s : Text) : Bool :=
  ['.'] <+: s ∨ ['/','.'] <:+: s ∨ ['.','.'] <:+: s ∨ s.any (['*',':','?','[','\\','^','~',' ','\t'].contains ·) ∨
    ['/'] <:+ s ∨ ".lock".toList <:+ s ∨ ['@', '{'] <:+: s

def isValidName (s : Text) : Bool := !invalidRef s

example : isValidName "sometext".toList = true ∧ isValidName "file.lock".toList = false ∧
    isValidName "bads/.dot".toList = false := by decide

/-! ### Opening and dropping -/

namespace Fs

def createDirAll (fs : Fs) (p : Path) : Fs := { fs with dirs := fs.dirs++p.inits }

def remove (fs : Fs) (p : Path) : Fs where
  files := Function.update fs.files p none
  names := fs.names
  mem_names q hq := by
    by_cases h : q = p
    · rw [h,Function.update_self] at hq
      cases hq
    · rw [Function.update_of_ne h] at hq
      exact fs.mem_names q hq
  dirs := fs.dirs

@[simp] theorem createDirAll_files (fs : Fs) (p : Path) : (fs.createDirAll p).files = fs.files := rfl

@[simp] theorem remove_files (fs : Fs) (p : Path) : (fs.remove p).files = Function.update fs.files p none := rfl

end Fs

/-- `Lockfile::open`. The directories are made before the lock is taken. -/
def lockFile (p : Path) : Io Unit := fun fs =>
  if fs.blocked p then .error .notADirectory fs
  else if fs.files p = none ∧ fs.isDir p then .error (.panic "cannot create lock on symlinks or directories") fs
  else
    let made := fs.createDirAll p.dropLast
    if (made.files (Fs.lockPath p)).isSome ∨ made.isDir (Fs.lockPath p) then .error (.alreadyExists (Fs.lockPath p)) made
    else .ok () (made.write (Fs.lockPath p) (.utf8 []))

/-- The drop, after a commit of the content if there is one. -/
def dropLock (commit : Option Content) (p : Path) : Io Unit := fun fs =>
  if fs.files (Fs.lockPath p) = none then .error (.panic "failed to remove lockfile") fs
  else
    let released := fs.remove (Fs.lockPath p)
    match commit with
    | none => .ok () released
    | some content =>
      -- `rename` does not replace a directory
      if fs.files p = none ∧ fs.isDir p then .error (.message "failed to write lockfile") released
      else .ok () (released.write p content)

inductive Holder
  | first | second
  deriving DecidableEq

structure Locks where
  fs : Fs
  held : Holder → Bool

/-- What a holder does with the lock of its path. -/
inductive LockStep (path : Holder → Path) : Locks → Locks → Prop
  | take {s : Locks} {fs : Fs} (h : Holder) (hfree : s.held h = false) (hrun : lockFile (path h) s.fs = .ok () fs) :
      LockStep path s ⟨fs,Function.update s.held h true⟩
  | refused {s : Locks} {fs : Fs} {e : Error} (h : Holder) (hfree : s.held h = false)
      (hrun : lockFile (path h) s.fs = .error e fs) : LockStep path s ⟨fs,s.held⟩
  | drop {s : Locks} (h : Holder) (hheld : s.held h = true) (commit : Option Content) :
      LockStep path s ⟨final (dropLock commit (path h) s.fs),Function.update s.held h false⟩

/-- Nothing is locked, and nothing is where the locks will be. -/
structure Unlocked (path : Holder → Path) (s : Locks) : Prop where
  free : ∀ h, s.held h = false
  absent : ∀ h, s.fs.files (Fs.lockPath (path h)) = none ∧ s.fs.isDir (Fs.lockPath (path h)) = false

def Holder.path (p q : Path) : Holder → Path
  | .first => p
  | .second => q

/-- Whether `q` is found to be locked. -/
def FoundLocked (q : Path) (fs : Fs) : Prop := ∃ lock, outcome (lockFile q fs) = .error (.alreadyExists lock)

/-- While `p` is locked `q` is found to be locked if it is the same path. -/
def ConflictsIfSame (p q : Path) : Prop := ∀ s₀ s, Unlocked (Holder.path p q) s₀ →
  Relation.ReflTransGen (LockStep (Holder.path p q)) s₀ s → s.held .first = true → s.held .second = false →
    (FoundLocked q s.fs ↔ p = q)

/-- The paths that are locked somewhere: of refs, of their logs, of loose objects, and of the index. -/
inductive Guarded : Path → Prop
  | ref {sym : SymbolicRef} (hkind : sym.kind ≠ .Unknown) (hname : isValidName sym.path) : Guarded (location sym.path)
  | log {sym : SymbolicRef} (hkind : sym.kind ≠ .Unknown) (hname : isValidName sym.path) :
      Guarded (location (joinLog sym.path))
  | object (oid : Oid) : Guarded ["objects".toList,(Packfile.objPath oid).1,(Packfile.objPath oid).2]
  | index : Guarded ["index".toList]

/-- `Path::file_stem` of the last component. -/
def fileStem (name : Text) : Text :=
  let stem := (name.reverse.dropWhile (· ≠ '.')).reverse.dropLast
  if stem = [] then name else stem

/-- The paths differ in their extensions only. -/
def SameStem (p q : Path) : Prop := p.dropLast = q.dropLast ∧ p.getLast?.map fileStem = q.getLast?.map fileStem

instance (p q : Path) : Decidable (SameStem p q) := inferInstanceAs (Decidable (_ ∧ _))

/-! ### Lock paths -/

variable {p q r : Path} {fs fs' : Fs}

theorem lockPath_eq (hp : p ≠ []) : ∃ name, p.getLast? = some name ∧
    Fs.lockPath p = p.dropLast++[fileStem name++".lock".toList] := by
  refine ⟨p.getLast hp,List.getLast?_eq_some_getLast hp,?_⟩
  rw [Fs.lockPath,List.getLast?_eq_some_getLast hp]
  rfl

theorem length_lockPath (hp : p ≠ []) : (Fs.lockPath p).length = p.length := by
  obtain ⟨name,-,hlock⟩ := lockPath_eq hp
  have hpos := List.length_pos_of_ne_nil hp
  rw [hlock,List.length_append,List.length_dropLast,List.length_singleton]
  omega

theorem lockPath_inj (hp : p ≠ []) (hq : q ≠ []) : Fs.lockPath p = Fs.lockPath q ↔ SameStem p q := by
  obtain ⟨name,hname,hlock⟩ := lockPath_eq hp
  obtain ⟨name',hname',hlock'⟩ := lockPath_eq hq
  rw [SameStem,hname,hname',Option.map_some,Option.map_some,Option.some.injEq,hlock,hlock']
  constructor
  · intro h
    obtain ⟨hdir,hlast⟩ := List.append_inj' h rfl
    exact ⟨hdir,List.append_cancel_right (List.singleton_inj.mp hlast)⟩
  · rintro ⟨hdir,hlast⟩
    rw [hdir,hlast]

/-! ### Guarded paths -/

theorem valid_parts {s : Text} (h : isValidName s) :
    ¬['.'] <+: s ∧ ¬['/','.'] <:+: s ∧ ¬['/'] <:+ s ∧ ¬".lock".toList <:+ s := by
  have hvalid : invalidRef s = false := by simpa [isValidName] using h
  simp only [invalidRef,decide_eq_false_iff_not,not_or] at hvalid
  exact ⟨hvalid.1,hvalid.2.1,hvalid.2.2.2.2.1,hvalid.2.2.2.2.2.1⟩

/-- What comes after the last slash. -/
theorem exists_last_piece (s : Text) : ∃ before piece, s.splitOn '/' = before++[piece] ∧
    (s = piece ∨ ∃ dir, s = dir++ '/'::piece) := by
  by_cases hslash : '/' ∈ s
  · obtain ⟨piece,dir,hrev,hpiece⟩ := List.eq_append_cons_of_mem (List.mem_reverse.mpr hslash)
    have hs : s = dir.reverse++ '/'::piece.reverse := by
      rw [← List.reverse_reverse s,hrev]
      simp
    have hlast : piece.reverse.splitOn '/' = [piece.reverse] :=
      List.splitOn_eq_singleton fun h => hpiece (List.mem_reverse.mp h)
    refine ⟨dir.reverse.splitOn '/',piece.reverse,?_,.inr ⟨dir.reverse,hs⟩⟩
    rw [hs,List.splitOn_append_cons_self,hlast]
  · exact ⟨[],s,List.splitOn_eq_singleton hslash,.inl rfl⟩

theorem getLast?_location {s : Text} (hname : isValidName s) (hne : s ≠ []) :
    ∃ name, (location s).getLast? = some name ∧ name <:+ s := by
  obtain ⟨hdot,hhidden,hslash,-⟩ := valid_parts hname
  obtain ⟨before,piece,hsplit,hs⟩ := exists_last_piece s
  have hpiece : piece ≠ [] := by
    rintro rfl
    rcases hs with rfl | ⟨dir,rfl⟩
    · exact hne rfl
    · exact hslash (List.suffix_append dir ['/'])
  have hcurrent : piece ≠ ['.'] := by
    rintro rfl
    rcases hs with rfl | ⟨dir,rfl⟩
    · exact hdot (List.prefix_refl _)
    · exact hhidden (List.suffix_append dir ['/','.']).isInfix
  refine ⟨piece,?_,?_⟩
  · have hkept : [piece].filter (fun n => n ≠ [] ∧ n ≠ ['.']) = [piece] := by simp [hpiece,hcurrent]
    rw [location_eq,hsplit,List.filter_append,hkept,List.getLast?_append]
    rfl
  · rcases hs with rfl | ⟨dir,rfl⟩
    · exact List.suffix_refl s
    · exact (List.suffix_cons '/' piece).trans (List.suffix_append dir _)

theorem path_ne_nil {sym : SymbolicRef} (hkind : sym.kind ≠ .Unknown) : sym.path ≠ [] := by
  intro h
  apply hkind
  rw [SymbolicRef.kind,h]
  decide

/-- No guarded path has the extension of the locks. -/
theorem Guarded.getLast? (h : Guarded p) : ∃ name, p.getLast? = some name ∧ ¬".lock".toList <:+ name := by
  have href {sym : SymbolicRef} (hkind : sym.kind ≠ .Unknown) (hname : isValidName sym.path) :
      ∃ name, (location sym.path).getLast? = some name ∧ ¬".lock".toList <:+ name := by
    obtain ⟨name,hlast,hsuffix⟩ := getLast?_location hname (path_ne_nil hkind)
    exact ⟨name,hlast,fun hlock => (valid_parts hname).2.2.2 (hlock.trans hsuffix)⟩
  cases h with
  | ref hkind hname => exact href hkind hname
  | log hkind hname =>
    obtain ⟨name,hlast,hlock⟩ := href hkind hname
    refine ⟨name,?_,hlock⟩
    rw [location_joinLog,List.getLast?_cons,hlast]
    rfl
  | object oid =>
    refine ⟨_,rfl,fun hlock => ?_⟩
    have hdot : '.' ∈ oid.toHex := List.mem_of_mem_drop (hlock.subset (by decide))
    have hdigit := Packfile.Oid.digits_toHex oid '.' hdot
    exact absurd hdigit (by decide)
  | index => exact ⟨_,rfl,by decide⟩

theorem Guarded.ne_nil (h : Guarded p) : p ≠ [] := by
  obtain ⟨name,hlast,-⟩ := h.getLast?
  rintro rfl
  cases hlast

/-- A lock is not itself guarded. -/
theorem lockPath_ne (hp : Guarded p) (hq : Guarded q) : Fs.lockPath p ≠ q := by
  rintro rfl
  obtain ⟨name,hlast,hlock⟩ := hq.getLast?
  obtain ⟨stem,-,hpath⟩ := lockPath_eq hp.ne_nil
  rw [hpath,List.getLast?_append,List.getLast?_singleton,Option.some_or,Option.some.injEq] at hlast
  exact hlock (hlast ▸ List.suffix_append _ _)

/-! ### What there is in the file system -/

theorem isDir_iff : fs.isDir p = true ↔ p = [] ∨ p ∈ fs.dirs ∨ ∃ q, (fs.files q).isSome ∧ q ≠ p ∧ p <+: q := by
  rw [Fs.isDir,decide_eq_true_eq]
  refine or_congr_right (or_congr_right ⟨?_,?_⟩)
  · rintro ⟨q,-,hq⟩
    exact ⟨q,hq⟩
  · rintro ⟨q,hq⟩
    exact ⟨q,fs.mem_names q hq.1,hq⟩

theorem blocked_iff : fs.blocked p = true ↔ ∃ q, q <+: p ∧ q ≠ p ∧ (fs.files q).isSome := by
  rw [Fs.blocked,decide_eq_true_eq]
  simp only [List.mem_inits]

theorem prefix_dropLast (h : q <+: p) (hne : q ≠ p) : q <+: p.dropLast := by
  obtain ⟨rest,rfl⟩ := h
  have hrest : rest ≠ [] := by
    rintro rfl
    exact hne (List.append_nil q).symm
  rw [List.dropLast_append_of_ne_nil hrest]
  exact List.prefix_append q _

theorem length_of_prefix_dropLast (hp : p ≠ []) (h : q <+: p.dropLast) : q.length < p.length := by
  have hle := h.length_le
  have hpos := List.length_pos_of_ne_nil hp
  rw [List.length_dropLast] at hle
  omega

theorem dropLast_lockPath (hp : p ≠ []) : (Fs.lockPath p).dropLast = p.dropLast := by
  obtain ⟨name,-,hlock⟩ := lockPath_eq hp
  rw [hlock,List.dropLast_concat]

theorem isDir_createDirAll : (fs.createDirAll p).isDir r = true ↔ fs.isDir r = true ∨ r <+: p := by
  rw [isDir_iff,isDir_iff]
  change r = [] ∨ r ∈ fs.dirs++p.inits ∨ _ ↔ _
  rw [List.mem_append,List.mem_inits,Fs.createDirAll_files]
  constructor
  · rintro (h | (h | h) | h)
    · exact .inl (.inl h)
    · exact .inl (.inr (.inl h))
    · exact .inr h
    · exact .inl (.inr (.inr h))
  · rintro ((h | h | h) | h)
    · exact .inl h
    · exact .inr (.inl (.inl h))
    · exact .inr (.inr h)
    · exact .inr (.inl (.inr h))

/-- The directory that is made for a lock is not in its way. -/
theorem isDir_made (hp : p ≠ []) : (fs.createDirAll p.dropLast).isDir (Fs.lockPath p) = fs.isDir (Fs.lockPath p) := by
  rw [Bool.eq_iff_iff,isDir_createDirAll]
  refine or_iff_left fun h => ?_
  have hlt := length_of_prefix_dropLast hp h
  rw [length_lockPath hp] at hlt
  exact lt_irrefl _ hlt

/-- A path that `Lockfile::open` takes. -/
def Lockable (fs : Fs) (p : Path) : Prop := fs.blocked p = false ∧ ¬(fs.files p = none ∧ fs.isDir p = true)

def Exists (fs : Fs) (p : Path) : Prop := (fs.files p).isSome ∨ fs.isDir p = true

/-- The file system once the lock is taken. -/
def locked (fs : Fs) (p : Path) : Fs := (fs.createDirAll p.dropLast).write (Fs.lockPath p) (.utf8 [])

theorem lockFile_eq (hp : p ≠ []) (fs : Fs) : lockFile p fs =
    if fs.blocked p then .error .notADirectory fs
    else if fs.files p = none ∧ fs.isDir p then .error (.panic "cannot create lock on symlinks or directories") fs
    else if (fs.files (Fs.lockPath p)).isSome ∨ fs.isDir (Fs.lockPath p) then
      .error (.alreadyExists (Fs.lockPath p)) (fs.createDirAll p.dropLast)
    else .ok () (locked fs p) := by
  simp only [lockFile,Fs.createDirAll_files,isDir_made hp]
  rfl

/-- The store opens its locks in this way. -/
theorem openLock_eq {s : Text} (h : location s ≠ []) : fs.openLock s = outcome (lockFile (location s) fs) := by
  rw [lockFile_eq h,Fs.openLock]
  split_ifs <;> rfl

theorem lockFile_eq_ok (hp : p ≠ []) :
    lockFile p fs = .ok () fs' ↔ Lockable fs p ∧ ¬Exists fs (Fs.lockPath p) ∧ fs' = locked fs p := by
  rw [lockFile_eq hp,Lockable,Exists]
  split_ifs with hblocked hdir hexists
  · simp [hblocked]
  · simp [hdir]
  · simp [hexists]
  · constructor
    · intro h
      cases h
      exact ⟨⟨eq_false_of_ne_true hblocked,hdir⟩,hexists,rfl⟩
    · rintro ⟨-,-,rfl⟩
      rfl

theorem foundLocked_iff (hp : p ≠ []) : FoundLocked p fs ↔ Lockable fs p ∧ Exists fs (Fs.lockPath p) := by
  rw [FoundLocked,lockFile_eq hp,Lockable,Exists]
  split_ifs with hblocked hdir hexists
  · simp [hblocked,outcome]
  · simp [hdir,outcome]
  · simp_all [outcome]
  · simp [hexists,outcome]

theorem lockFile_error {e : Error} (hp : p ≠ []) (h : lockFile p fs = .error e fs') : fs' = fs ∨ fs' = fs.createDirAll p.dropLast := by
  rw [lockFile_eq hp] at h
  split_ifs at h <;> cases h <;> simp

/-! ### Runs of two holders -/

section Runs
variable {path : Holder → Path} {s₀ s t : Locks}

/-- What there is besides what there was: the guarded files, the locks that are held, and the directories of both. -/
structure Traces (path : Holder → Path) (s₀ s : Locks) : Prop where
  dirs : ∀ d ∈ s.fs.dirs, d ∈ s₀.fs.dirs ∨ ∃ h, d <+: (path h).dropLast
  files : ∀ r, (s.fs.files r).isSome → (s₀.fs.files r).isSome ∨ (∃ h, r = path h) ∨
    ∃ h, s.held h = true ∧ r = Fs.lockPath (path h)

theorem files_locked (h : ((locked fs p).files r).isSome) : (fs.files r).isSome ∨ r = Fs.lockPath p := by
  by_cases hr : r = Fs.lockPath p
  · exact .inr hr
  · rw [locked,Fs.write_files,Function.update_of_ne hr] at h
    exact .inl h

theorem files_dropLock {commit : Option Content} (h : ((final (dropLock commit p fs)).files r).isSome) :
    r = p ∨ r ≠ Fs.lockPath p ∧ (fs.files r).isSome := by
  have hreleased (h : ((fs.remove (Fs.lockPath p)).files r).isSome) : r ≠ Fs.lockPath p ∧ (fs.files r).isSome := by
    by_cases hr : r = Fs.lockPath p
    · rw [hr,Fs.remove_files,Function.update_self] at h
      cases h
    · rw [Fs.remove_files,Function.update_of_ne hr] at h
      exact ⟨hr,h⟩
  rw [dropLock] at h
  by_cases hlock : fs.files (Fs.lockPath p) = none
  · rw [if_pos hlock] at h
    refine .inr ⟨?_,h⟩
    rintro rfl
    rw [final,hlock] at h
    cases h
  · rw [if_neg hlock] at h
    cases commit with
    | none => exact .inr (hreleased h)
    | some content =>
      dsimp only at h
      split_ifs at h
      · exact .inr (hreleased h)
      · by_cases hr : r = p
        · exact .inl hr
        · rw [final,Fs.write_files,Function.update_of_ne hr] at h
          exact .inr (hreleased h)

theorem dirs_dropLock (commit : Option Content) (p : Path) (fs : Fs) : (final (dropLock commit p fs)).dirs = fs.dirs := by
  rw [dropLock]
  by_cases hlock : fs.files (Fs.lockPath p) = none
  · rw [if_pos hlock]
    rfl
  · rw [if_neg hlock]
    cases commit with
    | none => rfl
    | some content =>
      dsimp only
      split_ifs <;> rfl

theorem Traces.step (hne : ∀ h, path h ≠ []) (h : Traces path s₀ s) (hstep : LockStep path s t) : Traces path s₀ t := by
  have hmade (k : Holder) : ∀ d ∈ (s.fs.createDirAll (path k).dropLast).dirs, d ∈ s₀.fs.dirs ∨ ∃ h, d <+: (path h).dropLast := by
    intro d hd
    rcases List.mem_append.mp hd with hd | hd
    · exact h.dirs d hd
    · exact .inr ⟨k,(List.mem_inits _ _).mp hd⟩
  cases hstep with
  | take k hfree hrun =>
    obtain ⟨-,-,rfl⟩ := (lockFile_eq_ok (hne k)).mp hrun
    refine ⟨hmade k,fun r hr => ?_⟩
    have hheld {k' : Holder} (hk' : s.held k' = true) : Function.update s.held k true k' = true := by
      by_cases hkk : k' = k
      · rw [hkk,Function.update_self]
      · rwa [Function.update_of_ne hkk]
    rcases files_locked hr with hr | rfl
    · exact (h.files r hr).imp_right (Or.imp_right fun ⟨k',hk',hr⟩ => ⟨k',hheld hk',hr⟩)
    · exact .inr (.inr ⟨k,Function.update_self _ _ _,rfl⟩)
  | refused k hfree hrun =>
    rcases lockFile_error (hne k) hrun with rfl | rfl
    · exact ⟨h.dirs,h.files⟩
    · exact ⟨hmade k,h.files⟩
  | drop k hheld commit =>
    refine ⟨?_,fun r hr => ?_⟩
    · rw [dirs_dropLock]
      exact h.dirs
    · rcases files_dropLock hr with rfl | ⟨hlock,hr⟩
      · exact .inr (.inl ⟨k,rfl⟩)
      · refine (h.files r hr).imp_right (Or.imp_right ?_)
        rintro ⟨k',hk',rfl⟩
        have hkk : k' ≠ k := fun heq => hlock (heq ▸ rfl)
        exact ⟨k',(Function.update_of_ne hkk _ _).trans hk',rfl⟩

theorem Traces.run (hne : ∀ h, path h ≠ []) (hrun : Relation.ReflTransGen (LockStep path) s₀ s) : Traces path s₀ s := by
  induction hrun with
  | refl => exact ⟨fun d hd => .inl hd,fun r hr => .inl hr⟩
  | tail _ hstep ih => exact ih.step hne hstep

/-- The lock of one path for both: at most one of them holds it, and then the lock is there. -/
structure Exclusive (p : Path) (s : Locks) : Prop where
  lockable : ∀ h, s.held h = true → Lockable s.fs p ∧ (s.fs.files (Fs.lockPath p)).isSome
  alone : ∀ h h', s.held h = true → s.held h' = true → h = h'

theorem lockable_createDirAll (hp : p ≠ []) : Lockable (fs.createDirAll p.dropLast) p ↔ Lockable fs p := by
  have hdir : (fs.createDirAll p.dropLast).isDir p = fs.isDir p := by
    rw [Bool.eq_iff_iff,isDir_createDirAll]
    exact or_iff_left fun h => lt_irrefl _ (length_of_prefix_dropLast hp h)
  rw [Lockable,Lockable,hdir]
  rfl

theorem lockable_write {content : Content} (hqp : q.length = p.length) (hne : q ≠ p) (h : Lockable fs p) :
    Lockable (fs.write q content) p := by
  refine ⟨?_,?_⟩
  · rw [← h.1,Bool.eq_iff_iff,blocked_iff,blocked_iff]
    refine exists_congr fun r => and_congr_right fun hr => and_congr_right fun hrp => ?_
    have hrq : r ≠ q := by
      rintro rfl
      exact hrp (hr.eq_of_length hqp)
    rw [Fs.write_files,Function.update_of_ne hrq]
  · rintro ⟨hnone,hdir⟩
    rw [Fs.write_files,Function.update_of_ne hne.symm] at hnone
    refine h.2 ⟨hnone,?_⟩
    rw [isDir_iff] at hdir ⊢
    refine hdir.imp_right (Or.imp_right ?_)
    rintro ⟨r,hr,hrp,hpre⟩
    have hrq : r ≠ q := by
      rintro rfl
      exact hrp (hpre.eq_of_length hqp.symm).symm
    rw [Fs.write_files,Function.update_of_ne hrq] at hr
    exact ⟨r,hr,hrp,hpre⟩

theorem Exclusive.step (hp : p ≠ []) (hlock : Fs.lockPath p ≠ p) (h : Exclusive p s) (hstep : LockStep (fun _ => p) s t) :
    Exclusive p t := by
  cases hstep with
  | take k hfree hrun =>
    obtain ⟨hlockable,habsent,rfl⟩ := (lockFile_eq_ok hp).mp hrun
    have hnone (k' : Holder) : ¬s.held k' = true := fun hk' => habsent (.inl (h.lockable k' hk').2)
    refine ⟨fun k' _ => ⟨?_,?_⟩,?_⟩
    · exact lockable_write (length_lockPath hp) hlock ((lockable_createDirAll hp).mpr hlockable)
    · change ((locked s.fs p).files (Fs.lockPath p)).isSome
      rw [locked,Fs.write_files,Function.update_self]
      rfl
    · have honly {k' : Holder} (hk' : Function.update s.held k true k' = true) : k' = k := by
        by_contra hkk
        rw [Function.update_of_ne hkk] at hk'
        exact hnone k' hk'
      exact fun k₁ k₂ h₁ h₂ => (honly h₁).trans (honly h₂).symm
  | refused k hfree hrun =>
    refine ⟨fun k' hk' => ?_,h.alone⟩
    obtain ⟨hlockable,hfile⟩ := h.lockable k' hk'
    rcases lockFile_error hp hrun with rfl | rfl
    · exact ⟨hlockable,hfile⟩
    · exact ⟨(lockable_createDirAll hp).mpr hlockable,hfile⟩
  | drop k hheld commit =>
    have hnone (k' : Holder) : ¬Function.update s.held k false k' = true := by
      intro hk'
      by_cases hkk : k' = k
      · rw [hkk,Function.update_self] at hk'
        cases hk'
      · rw [Function.update_of_ne hkk] at hk'
        exact hkk (h.alone k' k hk' hheld)
    exact ⟨fun k' hk' => absurd hk' (hnone k'),fun k₁ _ h₁ => absurd h₁ (hnone k₁)⟩

theorem Exclusive.run (hp : p ≠ []) (hlock : Fs.lockPath p ≠ p) (hfree : ∀ h, s₀.held h = false)
    (hrun : Relation.ReflTransGen (LockStep fun _ => p) s₀ s) : Exclusive p s := by
  induction hrun with
  | refl =>
    have hnone (k : Holder) : ¬s₀.held k = true := by simp [hfree k]
    exact ⟨fun k hk => absurd hk (hnone k),fun k₁ _ h₁ => absurd h₁ (hnone k₁)⟩
  | tail _ hstep ih => exact ih.step hp hlock hstep

end Runs

/-! ### Conflicts -/

/-- The lock of `q` is none of the paths of a run in which only `p` is locked, unless it is the lock of `p` or a directory
above `p`. -/
theorem not_exists_lock {s₀ s : Locks} (hp : Guarded p) (hq : Guarded q) (hstem : ¬SameStem p q)
    (hbelow : ¬Fs.lockPath q <+: p) (hfree : Unlocked (Holder.path p q) s₀)
    (hrun : Relation.ReflTransGen (LockStep (Holder.path p q)) s₀ s) (hsecond : s.held .second = false) :
    ¬Exists s.fs (Fs.lockPath q) := by
  have hne : ∀ h, Holder.path p q h ≠ [] := by
    rintro (_ | _)
    · exact hp.ne_nil
    · exact hq.ne_nil
  have htraces := Traces.run hne hrun
  have hnofile : s₀.fs.files (Fs.lockPath q) = none := (hfree.absent .second).1
  have hnodir : s₀.fs.isDir (Fs.lockPath q) = false := (hfree.absent .second).2
  have hlength := length_lockPath hq.ne_nil
  -- neither path has the lock above it
  have habove (h : Holder) : ¬Fs.lockPath q <+: (Holder.path p q h).dropLast := by
    intro hpre
    cases h with
    | first => exact hbelow (hpre.trans (List.dropLast_prefix p))
    | second =>
      have hlt := length_of_prefix_dropLast hq.ne_nil hpre
      rw [hlength] at hlt
      exact lt_irrefl _ hlt
  have hpath (h : Holder) : Holder.path p q h ≠ Fs.lockPath q := by
    cases h with
    | first => exact (lockPath_ne hq hp).symm
    | second => exact (lockPath_ne hq hq).symm
  have hheld {h : Holder} (hh : s.held h = true) : h = .first := by
    cases h with
    | first => rfl
    | second =>
      rw [hsecond] at hh
      cases hh
  rintro (hfile | hdir)
  · rcases htraces.files _ hfile with hfile | ⟨h,hr⟩ | ⟨h,hh,hr⟩
    · rw [hnofile] at hfile
      cases hfile
    · exact hpath h hr.symm
    · rw [hheld hh] at hr
      exact hstem ((lockPath_inj hp.ne_nil hq.ne_nil).mp hr.symm)
  · have hold (h : Fs.isDir s₀.fs (Fs.lockPath q) = true) : False := by
      rw [hnodir] at h
      cases h
    rcases isDir_iff.mp hdir with hnil | hmem | ⟨r,hr,hrne,hpre⟩
    · exact hold (isDir_iff.mpr (.inl hnil))
    · rcases htraces.dirs _ hmem with hmem | ⟨h,hpre⟩
      · exact hold (isDir_iff.mpr (.inr (.inl hmem)))
      · exact habove h hpre
    · rcases htraces.files r hr with hr | ⟨h,rfl⟩ | ⟨h,hh,rfl⟩
      · exact hold (isDir_iff.mpr (.inr (.inr ⟨r,hr,hrne,hpre⟩)))
      · exact habove h (prefix_dropLast hpre hrne.symm)
      · have hpre' := prefix_dropLast hpre hrne.symm
        rw [dropLast_lockPath (hne h)] at hpre'
        exact habove h hpre'

theorem conflictsIfSame_self (hp : Guarded p) : ConflictsIfSame p p := by
  intro s₀ s hfree hrun hfirst _
  have hpath : Holder.path p p = fun _ => p := by
    funext h
    cases h <;> rfl
  rw [hpath] at hrun
  have hexclusive := Exclusive.run hp.ne_nil (lockPath_ne hp hp) hfree.free hrun
  obtain ⟨hlockable,hlock⟩ := hexclusive.lockable .first hfirst
  exact iff_of_true ((foundLocked_iff hp.ne_nil).mpr ⟨hlockable,.inl hlock⟩) rfl

section Empty

theorem isDir_empty (hr : r ≠ []) : Fs.empty.isDir r = false := by
  rw [Bool.eq_false_iff,ne_eq,isDir_iff]
  rintro (hnil | hmem | ⟨r',hr',-⟩)
  · exact hr hnil
  · cases hmem
  · cases hr'

theorem blocked_empty (r : Path) : Fs.empty.blocked r = false := by
  rw [Bool.eq_false_iff,ne_eq,blocked_iff]
  rintro ⟨r',-,-,hr'⟩
  cases hr'

theorem lockPath_ne_nil (hp : p ≠ []) : Fs.lockPath p ≠ [] := by
  apply List.ne_nil_of_length_pos
  rw [length_lockPath hp]
  exact List.length_pos_of_ne_nil hp

/-- In an empty directory each path can be locked. -/
theorem lockFile_empty (hp : p ≠ []) : lockFile p Fs.empty = .ok () (locked Fs.empty p) := by
  refine (lockFile_eq_ok hp).mpr ⟨⟨blocked_empty p,?_⟩,?_,rfl⟩
  · rintro ⟨-,hdir⟩
    rw [isDir_empty hp] at hdir
    cases hdir
  · rintro (hfile | hdir)
    · cases hfile
    · rw [isDir_empty (lockPath_ne_nil hp)] at hdir
      cases hdir

/-- A path whose lock is the same, or above, is not above the one that is locked. -/
theorem not_above_locked (hp : Guarded p) (hq : Guarded q) (h : SameStem p q ∨ Fs.lockPath q <+: p) :
    q.length ≤ p.length ∧ ¬q <+: p.dropLast := by
  rcases h with hstem | hbelow
  · have hlen := congrArg List.length ((lockPath_inj hp.ne_nil hq.ne_nil).mpr hstem)
    rw [length_lockPath hp.ne_nil,length_lockPath hq.ne_nil] at hlen
    exact ⟨hlen.ge,fun hpre => absurd (length_of_prefix_dropLast hp.ne_nil hpre) (by omega)⟩
  · have hlen := hbelow.length_le
    rw [length_lockPath hq.ne_nil] at hlen
    refine ⟨hlen,fun hpre => lockPath_ne hq hq ?_⟩
    have hqp : q <+: p := hpre.trans (List.dropLast_prefix p)
    have hlen := length_lockPath hq.ne_nil
    exact (List.prefix_of_prefix_length_le hbelow hqp hlen.le).eq_of_length hlen

/-- Once `p` is locked in an empty directory, `q` is found to be locked. -/
theorem foundLocked_locked (hp : Guarded p) (hq : Guarded q) (h : SameStem p q ∨ Fs.lockPath q <+: p) :
    FoundLocked q (locked Fs.empty p) := by
  have hfiles {r : Path} (hr : ((locked Fs.empty p).files r).isSome) : r = Fs.lockPath p :=
    (files_locked hr).resolve_left (by simp [Fs.empty])
  obtain ⟨hlen,habove⟩ := not_above_locked hp hq h
  refine (foundLocked_iff hq.ne_nil).mpr ⟨⟨?_,?_⟩,?_⟩
  · rw [Bool.eq_false_iff,ne_eq,blocked_iff]
    rintro ⟨r,hpre,hrq,hr⟩
    rw [hfiles hr] at hpre hrq
    have hle := hpre.length_le
    rw [length_lockPath hp.ne_nil] at hle
    exact hrq (hpre.eq_of_length (by rw [length_lockPath hp.ne_nil]; omega))
  · rintro ⟨-,hdir⟩
    rcases isDir_iff.mp hdir with hnil | hmem | ⟨r,hr,hrq,hpre⟩
    · exact hq.ne_nil hnil
    · exact habove ((List.mem_inits _ _).mp hmem)
    · rw [hfiles hr] at hrq hpre
      have hpre' := prefix_dropLast hpre hrq.symm
      rw [dropLast_lockPath hp.ne_nil] at hpre'
      exact habove hpre'
  · rcases h with hstem | hbelow
    · refine .inl ?_
      rw [← (lockPath_inj hp.ne_nil hq.ne_nil).mpr hstem,locked,Fs.write_files,Function.update_self]
      rfl
    · refine .inr (isDir_iff.mpr (.inr (.inl ?_)))
      exact (List.mem_inits _ _).mpr (prefix_dropLast hbelow (lockPath_ne hq hp))

theorem not_conflictsIfSame (hp : Guarded p) (hq : Guarded q) (hne : p ≠ q) (h : SameStem p q ∨ Fs.lockPath q <+: p) :
    ¬ConflictsIfSame p q := by
  intro hconflicts
  let s₀ : Locks := ⟨Fs.empty,fun _ => false⟩
  have hfree : Unlocked (Holder.path p q) s₀ := by
    refine ⟨fun _ => rfl,fun h => ⟨rfl,isDir_empty ?_⟩⟩
    cases h with
    | first => exact lockPath_ne_nil hp.ne_nil
    | second => exact lockPath_ne_nil hq.ne_nil
  have hstep : LockStep (Holder.path p q) s₀ ⟨locked Fs.empty p,Function.update s₀.held .first true⟩ :=
    .take .first rfl (lockFile_empty hp.ne_nil)
  exact hne ((hconflicts s₀ _ hfree (.single hstep) rfl rfl).mp (foundLocked_locked hp hq h))

end Empty

/-- The lock of a path is no guarded path. It is that of another path where only the extension differs, and it is in the
way of a path below it. -/
theorem lock_conflicts_iff (hp : Guarded p) (hq : Guarded q) : Fs.lockPath p ≠ q ∧
    (ConflictsIfSame p q ↔ p = q ∨ ¬SameStem p q ∧ ¬Fs.lockPath q <+: p) := by
  refine ⟨lockPath_ne hp hq,?_⟩
  constructor
  · intro h
    by_contra hnot
    rw [not_or,not_and_or,not_not,not_not] at hnot
    exact not_conflictsIfSame hp hq hnot.1 hnot.2 h
  · rintro (rfl | ⟨hstem,hbelow⟩)
    · exact conflictsIfSame_self hp
    · intro s₀ s hfree hrun _ hsecond
      have hne : p ≠ q := by
        rintro rfl
        exact hstem ⟨rfl,rfl⟩
      refine iff_of_false (fun hfound => ?_) hne
      exact not_exists_lock hp hq hstem hbelow hfree hrun hsecond ((foundLocked_iff hq.ne_nil).mp hfound).2

theorem guarded_tag {name : Text} (hkind : (SymbolicRef.mk name).kind ≠ .Unknown) (hname : isValidName name) :
    Guarded (location name) := @Guarded.ref ⟨name⟩ hkind hname

/-- `HEAD` and the index. -/
theorem lock_conflicts_head : ConflictsIfSame (location "HEAD".toList) ["index".toList] :=
  ((lock_conflicts_iff (guarded_tag (by decide) (by decide)) .index).2).mpr (.inr (by decide))

theorem dotted_tags_conflict : ¬∀ p q, Guarded p → Guarded q → Fs.lockPath p ≠ q ∧ ConflictsIfSame p q := by
  intro h
  have hp : Guarded (location "refs/tags/v1.0".toList) := guarded_tag (by decide) (by decide)
  have hq : Guarded (location "refs/tags/v1.1".toList) := guarded_tag (by decide) (by decide)
  exact not_conflictsIfSame hp hq (by decide) (.inl (by decide)) (h _ _ hp hq).2

end Refs
end Libbit
