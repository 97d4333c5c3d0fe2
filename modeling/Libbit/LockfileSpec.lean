import Libbit.Lockfile

/-! What other processes can read while a file is replaced under its lock. -/
namespace Libbit
namespace LockFile

open Lib

/-- What has been passed on to the lock file, and what has not. -/
def passed (ops : List WriteOp) : Bytes := (BufWriter.calls DEFAULT_BUF_SIZE [] ops).1.flatten

def pending (ops : List WriteOp) : Bytes := (BufWriter.calls DEFAULT_BUF_SIZE [] ops).2

theorem passed_pending (ops : List WriteOp) : passed ops++pending ops = BufWriter.written ops :=
  BufWriter.calls_bytes (Nat.zero_le _) ops

/-- The lock file holds `content`, and the guarded path is as it was. -/
structure Writing (old : Option File) (content : Bytes) (fs : Fs) : Prop where
  guarded : fs.guarded = old
  lockfile : fs.lockfile = some ⟨content,false⟩
  link : fs.link = .lockfile
  seen : ∀ r ∈ fs.seen, r = old.map File.content

/-- A lock with which `ops` were done. -/
def held (old : Option File) (flags rolledBack : Bool) (ops : List WriteOp) : Lockfile :=
  ⟨old.map File.content,pending ops,flags,false,rolledBack⟩

/-- The writes among the uses. -/
def writeOps (uses : List Lockfile.Use) : List WriteOp :=
  uses.filterMap fun
    | .io op => some op
    | .rollback => none

variable {old : Option File} {flags rolledBack : Bool} {ops : List WriteOp} {content : Bytes} {fs : Fs}

theorem mem_step {f : Fs → Fs} {r : Option Bytes} : r ∈ (fs.step f).seen ↔ r ∈ (f fs).seen ∨ r = (f fs).read := by
  simp [Fs.step]

theorem openLock_ok (old : Option File) (flags : Bool) :
    ∃ fs, Lockfile.openLock flags (Fs.initial old) = .ok (held old flags false []) fs ∧ Writing old (passed []) fs := by
  refine ⟨_,rfl,rfl,rfl,rfl,fun r hr => ?_⟩
  rcases mem_step.mp hr with hr | rfl
  · exact List.mem_singleton.mp hr
  · rfl

namespace Writing

theorem append (h : Writing old content fs) (bytes : Bytes) :
    Writing old (content++bytes) (fs.step (Fs.append bytes)) := by
  have happend : fs.append bytes = { fs with lockfile := some ⟨content++bytes,false⟩ } := by
    rw [Fs.append,h.link]
    simp only [h.lockfile]
    rfl
  refine ⟨?_,?_,?_,fun r hr => ?_⟩
  · rw [Fs.step,happend]
    exact h.guarded
  · rw [Fs.step,happend]
  · rw [Fs.step,happend]
    exact h.link
  · rw [mem_step,happend] at hr
    rcases hr with hr | rfl
    · exact h.seen r hr
    · exact congrArg _ h.guarded

theorem foldl_append (h : Writing old content fs) (out : List Bytes) :
    Writing old (content++out.flatten) (out.foldl (fun fs bytes => fs.step (Fs.append bytes)) fs) := by
  induction out generalizing content fs with
  | nil => simpa using h
  | cons bytes out ih =>
    have hnext := ih (h.append bytes)
    rw [List.append_assoc] at hnext
    exact hnext

theorem write (h : Writing old (passed ops) fs) (flags rolledBack : Bool) (op : WriteOp) :
    ∃ fs', (held old flags rolledBack ops).write op fs = .ok (held old flags rolledBack (ops++[op])) fs' ∧
      Writing old (passed (ops++[op])) fs' := by
  have hcalls : BufWriter.calls DEFAULT_BUF_SIZE [] (ops++[op]) = _ := BufWriter.calls_concat [] ops op
  have hnext := h.foldl_append (BufWriter.call DEFAULT_BUF_SIZE (pending ops) op).1
  have hpassed : passed (ops++[op]) = passed ops++(BufWriter.call DEFAULT_BUF_SIZE (pending ops) op).1.flatten := by
    rw [passed,hcalls,List.flatten_append]
    rfl
  have hpending : pending (ops++[op]) = (BufWriter.call DEFAULT_BUF_SIZE (pending ops) op).2 := by
    rw [pending,hcalls]
    rfl
  rw [← hpassed] at hnext
  refine ⟨_,?_,hnext⟩
  rw [held,held,hpending]
  rfl

theorem writes (h : Writing old (passed ops) fs) (flags rolledBack : Bool) (more : List WriteOp) :
    ∃ fs', more.foldlM Lockfile.write (held old flags rolledBack ops) fs =
      .ok (held old flags rolledBack (ops++more)) fs' ∧ Writing old (passed (ops++more)) fs' := by
  induction more generalizing ops fs with
  | nil => exact ⟨fs,by rw [List.append_nil]; rfl,by rwa [List.append_nil]⟩
  | cons op more ih =>
    obtain ⟨fs₁,hrun,h₁⟩ := h.write flags rolledBack op
    obtain ⟨fs₂,hmore,h₂⟩ := ih h₁
    rw [List.append_assoc] at hmore h₂
    exact ⟨fs₂,(bind_of_ok hrun).trans hmore,h₂⟩

/-- A drop without a commit leaves the guarded path alone. -/
theorem drop_held (h : Writing old content fs) (flags rolledBack : Bool) (ops : List WriteOp) :
    ∃ fs', (held old flags rolledBack ops).drop fs = .ok () fs' ∧ fs'.guarded = old ∧ fs'.lockfile = none ∧
      ∀ r ∈ fs'.seen, r = old.map File.content := by
  obtain ⟨cleaned,hcleaned⟩ : ∃ cleaned, Lockfile.cleanup fs = .ok () cleaned ∧ cleaned.guarded = old ∧
      cleaned.lockfile = none ∧ cleaned.link = .removed ∧ ∀ r ∈ cleaned.seen, r = old.map File.content := by
    refine ⟨fs.step fun fs => { fs with lockfile := none, link := .removed },?_,h.guarded,rfl,rfl,fun r hr => ?_⟩
    · rw [Lockfile.cleanup,h.lockfile]
    rcases mem_step.mp hr with hr | rfl
    · exact h.seen r hr
    · exact congrArg _ h.guarded
  obtain ⟨hrun,hguarded,hlock,hlink,hseen⟩ := hcleaned
  have hdrop : (held old flags rolledBack ops).drop fs =
      .ok () ((if pending ops = [] then [] else [pending ops]).foldl (fun fs bytes => fs.step (Fs.append bytes)) cleaned) := by
    have hassert : ¬((held old flags rolledBack ops).rolledBack = true ∧ (held old flags rolledBack ops).committed = true) :=
      fun h => absurd h.2 Bool.false_ne_true
    have huncommitted : (held old flags rolledBack ops).rolledBack = true ∨ ¬(held old flags rolledBack ops).committed = true :=
      Or.inr Bool.false_ne_true
    rw [Lockfile.drop,if_neg hassert,if_pos huncommitted]
    exact (bind_of_ok hrun).trans rfl
  -- what is written after that goes to a file without a name
  have happend (bytes : Bytes) : Fs.append bytes cleaned = cleaned := by rw [Fs.append,hlink]
  refine ⟨_,hdrop,?_⟩
  by_cases hempty : pending ops = []
  · rw [if_pos hempty]
    exact ⟨hguarded,hlock,hseen⟩
  · rw [if_neg hempty,List.foldl_cons,List.foldl_nil]
    refine ⟨?_,?_,fun r hr => ?_⟩
    · rw [Fs.step,happend]
      exact hguarded
    · rw [Fs.step,happend]
      exact hlock
    · rw [mem_step,happend] at hr
      rcases hr with hr | rfl
      · exact hseen r hr
      · exact congrArg _ hguarded

/-- A commit puts under the guarded path what was passed on so far. -/
theorem commit_held (h : Writing old (passed ops) fs) (flags : Bool) :
    ∃ fs', (held old flags false ops).commit fs = .ok { held old flags false ops with committed := true } fs' ∧
      fs'.guarded = some ⟨passed ops,flags⟩ ∧ fs'.lockfile = none ∧ fs'.link = .guarded ∧
      some (passed ops) ∈ fs'.seen ∧ ∀ r ∈ fs'.seen, r = old.map File.content ∨ r = some (passed ops) := by
  -- the permission of the old file
  obtain ⟨writable,hwritable,hlock,hseen⟩ : ∃ writable,
      writable = (if flags ∧ fs.guarded.isSome then fs.step (Fs.setReadonly false) else fs) ∧
      writable.lockfile = some ⟨passed ops,false⟩ ∧ ∀ r ∈ writable.seen, r = old.map File.content := by
    refine ⟨_,rfl,?_⟩
    split
    · refine ⟨h.lockfile,fun r hr => ?_⟩
      rcases mem_step.mp hr with hr | rfl
      · exact h.seen r hr
      · rw [Fs.read,Fs.setReadonly,h.guarded,Option.map_map]
        rfl
    · exact ⟨h.lockfile,h.seen⟩
  obtain ⟨renamed,hrename,hguarded,hlock',hlink,hmem,hseen'⟩ : ∃ renamed, Lockfile.rename writable = .ok () renamed ∧
      renamed.guarded = some ⟨passed ops,false⟩ ∧ renamed.lockfile = none ∧ renamed.link = .guarded ∧
      some (passed ops) ∈ renamed.seen ∧ ∀ r ∈ renamed.seen, r = old.map File.content ∨ r = some (passed ops) := by
    refine ⟨writable.step fun fs => { fs with guarded := some ⟨passed ops,false⟩, lockfile := none, link := .guarded },
      ?_,rfl,rfl,rfl,mem_step.mpr (Or.inr rfl),fun r hr => (mem_step.mp hr).imp_left (hseen r)⟩
    rw [Lockfile.rename,hlock]
  have hrun : (held old flags false ops).commit fs = .ok { held old flags false ops with committed := true }
      (if flags then renamed.step (Fs.setReadonly true) else renamed) := by
    rw [Lockfile.commit,if_neg (show ¬(held old flags false ops).rolledBack = true from Bool.false_ne_true)]
    refine (bind_of_ok (t := writable) (by rw [hwritable]; rfl)).trans ?_
    exact (bind_of_ok hrename).trans rfl
  refine ⟨_,hrun,?_⟩
  cases flags with
  | false => exact ⟨hguarded,hlock',hlink,hmem,hseen'⟩
  | true =>
    have hread : (Fs.setReadonly true renamed).read = some (passed ops) := by
      rw [Fs.read,Fs.setReadonly,hguarded]
      rfl
    refine ⟨?_,hlock',hlink,mem_step.mpr (Or.inl hmem),fun r hr => ?_⟩
    · exact (congrArg (Option.map _) hguarded).trans rfl
    · rcases mem_step.mp hr with hr | rfl
      · exact hseen' r hr
      · exact Or.inr hread

/-- The rest follows when the lock is dropped. -/
theorem commitAndDrop_held (h : Writing old (passed ops) fs) (flags : Bool) :
    ∃ fs', (held old flags false ops).commitAndDrop fs = .ok () fs' ∧
      fs'.guarded = some ⟨BufWriter.written ops,flags⟩ ∧ fs'.lockfile = none ∧ some (passed ops) ∈ fs'.seen ∧
      ∀ r ∈ fs'.seen, r = old.map File.content ∨ r = some (passed ops) ∨ r = some (BufWriter.written ops) := by
  obtain ⟨fs₁,hcommit,hguarded,hlock,hlink,hmem,hseen⟩ := h.commit_held flags
  have hdrop : ({ held old flags false ops with committed := true } : Lockfile).drop fs₁ =
      .ok () ((if pending ops = [] then [] else [pending ops]).foldl (fun fs bytes => fs.step (Fs.append bytes)) fs₁) := rfl
  have hrun : (held old flags false ops).commitAndDrop fs =
      .ok () ((if pending ops = [] then [] else [pending ops]).foldl (fun fs bytes => fs.step (Fs.append bytes)) fs₁) := by
    simp only [Lockfile.commitAndDrop,hcommit,hdrop]
  refine ⟨_,hrun,?_⟩
  rw [← passed_pending]
  by_cases hempty : pending ops = []
  · rw [if_pos hempty,hempty,List.append_nil]
    exact ⟨hguarded,hlock,hmem,fun r hr => (hseen r hr).imp_right Or.inl⟩
  · have happend : Fs.append (pending ops) fs₁ = { fs₁ with guarded := some ⟨passed ops++pending ops,flags⟩ } := by
      rw [Fs.append,hlink]
      simp only [hguarded]
      rfl
    rw [if_neg hempty,List.foldl_cons,List.foldl_nil,Fs.step,happend]
    refine ⟨rfl,hlock,List.mem_append_left _ hmem,fun r hr => ?_⟩
    rcases List.mem_append.mp hr with hr | hr
    · exact (hseen r hr).imp_right Or.inl
    · exact Or.inr (Or.inr (List.mem_singleton.mp hr))

theorem uses (h : Writing old (passed ops) fs) (flags rolledBack : Bool) (uses : List Lockfile.Use) :
    ∃ fs', uses.foldlM Lockfile.use (held old flags rolledBack ops) fs =
      .ok (held old flags (rolledBack || decide (.rollback ∈ uses)) (ops++writeOps uses)) fs' ∧
      Writing old (passed (ops++writeOps uses)) fs' := by
  induction uses generalizing ops fs rolledBack with
  | nil => exact ⟨fs,by simp [writeOps,Pure.pure,EStateM.pure],by rwa [writeOps,List.filterMap_nil,List.append_nil]⟩
  | cons use uses ih =>
    cases use with
    | io op =>
      obtain ⟨fs₁,hrun,h₁⟩ := h.write flags rolledBack op
      obtain ⟨fs₂,hmore,h₂⟩ := ih h₁ rolledBack
      rw [List.append_assoc] at hmore h₂
      refine ⟨fs₂,(bind_of_ok hrun).trans (hmore.trans ?_),h₂⟩
      simp [writeOps]
    | rollback =>
      obtain ⟨fs₂,hmore,h₂⟩ := ih h true
      refine ⟨fs₂,(bind_of_ok (t := fs) rfl).trans (hmore.trans ?_),h₂⟩
      simp [writeOps]

end Writing

/-- Readers see the old or the new contents, the new ones stay exactly after a commit, and the lock is gone. -/
structure Atomic (old : Option File) (new : Bytes) (committed : Prop) (fs : Fs) : Prop where
  reads : ∀ r ∈ fs.seen, r = old.map File.content ∨ r = some new
  replaced : committed → fs.read = some new
  kept : ¬committed → fs.read = old.map File.content
  lockGone : fs.lockfile = none

section Atomic
variable {new : Bytes} {committed : Prop}

theorem atomic_of_kept (hcommitted : ¬committed) (hguarded : fs.guarded = old) (hlock : fs.lockfile = none)
    (hseen : ∀ r ∈ fs.seen, r = old.map File.content) : Atomic old new committed fs :=
  ⟨fun r hr => Or.inl (hseen r hr),fun h => absurd h hcommitted,fun _ => congrArg _ hguarded,hlock⟩

/-- The bytes passed on before the commit are what readers find until the lock is dropped. -/
theorem atomic_of_committed_iff (hcommitted : committed) (hguarded : fs.guarded = some ⟨BufWriter.written ops,flags⟩)
    (hlock : fs.lockfile = none) (hmem : some (passed ops) ∈ fs.seen)
    (hseen : ∀ r ∈ fs.seen, r = old.map File.content ∨ r = some (passed ops) ∨ r = some (BufWriter.written ops)) :
    Atomic old (BufWriter.written ops) committed fs ↔
      BufWriter.Settled DEFAULT_BUF_SIZE ops ∨ old.map File.content = some (passed ops) := by
  have hsame : passed ops = BufWriter.written ops ↔ BufWriter.Settled DEFAULT_BUF_SIZE ops := by
    rw [← passed_pending,List.self_eq_append_right,pending,BufWriter.calls_eq_nil]
  constructor
  · intro h
    rcases h.reads _ hmem with hold | hnew
    · exact Or.inr hold.symm
    · exact Or.inl (hsame.mp (Option.some.inj hnew))
  · intro h
    refine ⟨fun r hr => ?_,fun _ => by rw [Fs.read,hguarded]; rfl,fun hno => absurd hcommitted hno,hlock⟩
    rcases hseen r hr with hold | hpassed | hnew
    · exact Or.inl hold
    · rcases h with hsettled | hold
      · rw [hsame.mpr hsettled] at hpassed
        exact Or.inr hpassed
      · exact Or.inl (hpassed.trans hold.symm)
    · exact Or.inr hnew

end Atomic

theorem withMut_atomic_iff (old : Option File) (flags : Bool) (uses : List Lockfile.Use) (ok : Bool) :
    Atomic old (BufWriter.written (writeOps uses)) (ok = true ∧ .rollback ∉ uses)
        (final (Lockfile.withMut flags uses ok (Fs.initial old))) ↔
      (ok = true ∧ .rollback ∉ uses → BufWriter.Settled DEFAULT_BUF_SIZE (writeOps uses) ∨
        old.map File.content = some (passed (writeOps uses))) := by
  obtain ⟨fs₁,hopen,h₁⟩ := openLock_ok old flags
  obtain ⟨fs₂,huses,h₂⟩ := h₁.uses flags false uses
  rw [List.nil_append,Bool.false_or] at huses
  rw [List.nil_append] at h₂
  rw [Lockfile.withMut,bind_of_ok hopen,bind_of_ok huses]
  cases ok with
  | false =>
    obtain ⟨fs₃,hdrop,hguarded,hlock,hseen⟩ := h₂.drop_held flags true (writeOps uses)
    have hno : ¬(false = true ∧ Lockfile.Use.rollback ∉ uses) := fun h => absurd h.1 Bool.false_ne_true
    refine iff_of_true ?_ fun h => absurd h hno
    have hrun : ((held old flags (decide (.rollback ∈ uses)) (writeOps uses)).rollback.drop >>=
        fun _ => throw Error.closure : Io Unit) fs₂ = .error .closure fs₃ := (bind_of_ok hdrop).trans rfl
    rw [if_neg Bool.false_ne_true,hrun]
    exact atomic_of_kept hno hguarded hlock hseen
  | true =>
    rw [if_pos rfl]
    by_cases hrolled : .rollback ∈ uses
    · obtain ⟨fs₃,hdrop,hguarded,hlock,hseen⟩ := h₂.drop_held flags true (writeOps uses)
      have hno : ¬(true = true ∧ Lockfile.Use.rollback ∉ uses) := fun h => h.2 hrolled
      refine iff_of_true ?_ fun h => absurd h hno
      have hrun : (held old flags true (writeOps uses)).commitAndDrop fs₂ = .ok () fs₃ := by
        rw [Lockfile.commitAndDrop]
        exact hdrop
      rw [decide_eq_true hrolled,hrun]
      exact atomic_of_kept hno hguarded hlock hseen
    · obtain ⟨fs₃,hrun,hguarded,hlock,hmem,hseen⟩ := h₂.commitAndDrop_held flags
      have hyes : true = true ∧ Lockfile.Use.rollback ∉ uses := ⟨rfl,hrolled⟩
      rw [decide_eq_false hrolled,hrun]
      rw [show final (EStateM.Result.ok () fs₃ : EStateM.Result Error Fs Unit) = fs₃ from rfl,
        atomic_of_committed_iff hyes hguarded hlock hmem hseen]
      exact ⟨fun h _ => h,fun h => h hyes⟩

namespace Filelock
variable {T : Type} {serialize : T → List WriteOp × Bool} {deserialize : Bytes → Option T} {default : T}

/-- The data that is locked, if it can be read. -/
def loaded (deserialize : Bytes → Option T) (default : T) : Option File → Option T
  | none => some default
  | some file => deserialize file.content

/-- The state of the lock just before it is dropped. -/
def atDrop (old : Option File) (flags : Bool) (data : T) (as : List (Access T)) : Filelock T :=
  (Filelock.accesses ⟨data,held old flags false [],false,false⟩ as).1

/-- The drop writes the data and commits it. -/
def Commits (serialize : T → List WriteOp × Bool) (l : Filelock T) : Prop :=
  l.dirty = true ∧ l.rolledBack = false ∧ (serialize l.data).2 = true

/-- No access touches the lock file. -/
theorem accesses_lockfile {l : Filelock T} (h : l.lockfile = held old flags l.rolledBack []) (as : List (Access T)) :
    (l.accesses as).1.lockfile = held old flags (l.accesses as).1.rolledBack [] := by
  induction as generalizing l with
  | nil => exact h
  | cons a as ih =>
    rw [accesses]
    cases haccess : l.access a with
    | none => exact h
    | some l' =>
      refine ih ?_
      cases a with
      | deref =>
        obtain ⟨-,rfl⟩ := by simpa [access] using haccess
        exact h
      | derefMut f =>
        obtain ⟨-,rfl⟩ := by simpa [access] using haccess
        exact h
      | rollback =>
        obtain rfl := Option.some.inj haccess
        simp only [h]
        rfl

theorem atDrop_lockfile (old : Option File) (flags : Bool) (data : T) (as : List (Access T)) :
    (atDrop old flags data as).lockfile = held old flags (atDrop old flags data as).rolledBack [] :=
  accesses_lockfile rfl as

theorem session_eq (serialize : T → List WriteOp × Bool) {data : T} (hloaded : loaded deserialize default old = some data) (flags : Bool) (as : List (Access T)) :
    ∃ fs, Writing old (passed []) fs ∧ final (session serialize deserialize default flags as (Fs.initial old)) =
      final ((atDrop old flags data as).drop serialize fs) := by
  obtain ⟨fs,hopen,h⟩ := openLock_ok old flags
  refine ⟨fs,h,?_⟩
  have hlock : lockWithFlags deserialize default flags (Fs.initial old) =
      .ok ⟨data,held old flags false [],false,false⟩ fs := by
    rw [lockWithFlags,bind_of_ok hopen]
    cases old with
    | none =>
      obtain rfl := Option.some.inj hloaded
      rfl
    | some file =>
      have hdata : deserialize file.content = some data := hloaded
      simp only [held,Option.map_some,hdata]
      rfl
  rw [session,bind_of_ok hlock]
  change final (((atDrop old flags data as).drop serialize >>= fun _ => _) fs) = _
  cases hdrop : (atDrop old flags data as).drop serialize fs with
  | error e fs' => rw [bind_of_error hdrop]
  | ok u fs' =>
    rw [bind_of_ok hdrop]
    split <;> rfl

theorem session_atomic_iff {data : T} (hloaded : loaded deserialize default old = some data) (flags : Bool)
    (as : List (Access T)) :
    Atomic old (BufWriter.written (serialize (atDrop old flags data as).data).1) (Commits serialize (atDrop old flags data as))
        (final (session serialize deserialize default flags as (Fs.initial old))) ↔
      (Commits serialize (atDrop old flags data as) →
        BufWriter.Settled DEFAULT_BUF_SIZE (serialize (atDrop old flags data as).data).1 ∨
          old.map File.content = some (passed (serialize (atDrop old flags data as).data).1)) := by
  obtain ⟨fs,h,hsession⟩ := session_eq serialize hloaded flags as
  have hlockfile := atDrop_lockfile old flags data as
  rw [hsession]
  generalize atDrop old flags data as = l at hlockfile ⊢
  rw [Filelock.drop,hlockfile]
  by_cases hidle : l.rolledBack = true ∨ ¬l.dirty = true
  · obtain ⟨fs',hdrop,hguarded,hlock,hseen⟩ := h.drop_held flags l.rolledBack []
    have hno : ¬Commits serialize l := by
      rintro ⟨hdirty,hrolled,-⟩
      rw [hdirty,hrolled] at hidle
      simp at hidle
    rw [if_pos hidle,hdrop]
    exact iff_of_true (atomic_of_kept hno hguarded hlock hseen) fun h => absurd h hno
  · obtain ⟨hrolled,hdirty⟩ : l.rolledBack = false ∧ l.dirty = true := by simpa using hidle
    obtain ⟨fs',hwrites,h'⟩ := h.writes flags false (serialize l.data).1
    rw [List.nil_append] at hwrites h'
    rw [if_neg hidle,hrolled,bind_of_ok hwrites]
    by_cases hserialized : (serialize l.data).2 = true
    · obtain ⟨fs'',hrun,hguarded,hlock,hmem,hseen⟩ := h'.commitAndDrop_held flags
      have hyes : Commits serialize l := ⟨hdirty,hrolled,hserialized⟩
      rw [if_pos hserialized,hrun]
      rw [show final (EStateM.Result.ok () fs'' : EStateM.Result Error Fs Unit) = fs'' from rfl,
        atomic_of_committed_iff hyes hguarded hlock hmem hseen]
      exact ⟨fun h _ => h,fun h => h hyes⟩
    · obtain ⟨fs'',hdrop,hguarded,hlock,hseen⟩ := h'.drop_held flags false (serialize l.data).1
      have hno : ¬Commits serialize l := fun h => hserialized h.2.2
      rw [if_neg hserialized,bind_of_ok hdrop]
      exact iff_of_true (atomic_of_kept hno hguarded hlock hseen) fun h => absurd h hno

/-- Data that cannot be read is not replaced. -/
theorem session_unloaded (hloaded : loaded deserialize default old = none) (flags : Bool) (as : List (Access T)) (new : Bytes) :
    Atomic old new False (final (session serialize deserialize default flags as (Fs.initial old))) := by
  obtain ⟨fs,hopen,h⟩ := openLock_ok old flags
  obtain ⟨fs',hdrop,hguarded,hlock,hseen⟩ := h.drop_held flags false []
  have hfail : lockWithFlags deserialize default flags (Fs.initial old) = .error .deserialize fs' := by
    rw [lockWithFlags,bind_of_ok hopen]
    cases old with
    | none => cases hloaded
    | some file =>
      have hdata : deserialize file.content = none := hloaded
      simp only [held,Option.map_some,hdata] at hdrop ⊢
      exact (bind_of_ok hdrop).trans rfl
  rw [session,bind_of_error hfail]
  exact atomic_of_kept not_false hguarded hlock hseen

end Filelock

/-- The replacement is atomic to readers exactly if nothing is left in the buffer at the commit, or the bytes that were
passed on by then happen to be the old contents. Whatever is not committed is atomic. -/
theorem replacement_atomic_iff (old : Option File) (flags : Bool) :
    (∀ (uses : List Lockfile.Use) (ok : Bool),
      Atomic old (BufWriter.written (writeOps uses)) (ok = true ∧ .rollback ∉ uses)
          (final (Lockfile.withMut flags uses ok (Fs.initial old))) ↔
        (ok = true ∧ .rollback ∉ uses → BufWriter.Settled DEFAULT_BUF_SIZE (writeOps uses) ∨
          old.map File.content = some (passed (writeOps uses)))) ∧
    ∀ (T : Type) (serialize : T → List WriteOp × Bool) (deserialize : Bytes → Option T) (default : T)
      (as : List (Filelock.Access T)),
      match Filelock.loaded deserialize default old with
      | none => ∀ new, Atomic old new False (final (Filelock.session serialize deserialize default flags as (Fs.initial old)))
      | some data =>
        let l := Filelock.atDrop old flags data as
        Atomic old (BufWriter.written (serialize l.data).1) (Filelock.Commits serialize l)
            (final (Filelock.session serialize deserialize default flags as (Fs.initial old))) ↔
          (Filelock.Commits serialize l → BufWriter.Settled DEFAULT_BUF_SIZE (serialize l.data).1 ∨
            old.map File.content = some (passed (serialize l.data).1)) := by
  refine ⟨fun uses ok => withMut_atomic_iff old flags uses ok,fun T serialize deserialize default as => ?_⟩
  cases hloaded : Filelock.loaded deserialize default old with
  | none => exact Filelock.session_unloaded hloaded flags as
  | some data => exact Filelock.session_atomic_iff hloaded flags as

/-- A new file of one byte. -/
theorem withMut_torn : ¬Atomic none [97] True
    (final (Lockfile.withMut false [.io (.write [97])] true (Fs.initial none))) := by
  intro h
  rcases h.reads (some []) (by decide) with hold | hnew
  · cases hold
  · cases hnew

end LockFile
end Libbit
