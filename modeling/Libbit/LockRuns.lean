import Libbit.LockfileSpec

/-! Processes that replace one file under its lock (`lockfile.rs`), with their system calls in any order. A file goes by the
number of its inode, since what a process has open it goes on writing to under whatever name, and under none. -/
namespace Libbit
namespace LockFile
namespace Shared

open Lib

inductive Stage
  /-- the lock file is there -/
  | created
  /-- the guarded file is open, if there is one -/
  | opened
  /-- it was read, and the lock file is written -/
  | loaded
  /-- the lock file was renamed or removed -/
  | closing
  deriving DecidableEq

/-- A process, from the creation of the lock file until it closes it. -/
structure Session (L : Type) where
  label : L
  stage : Stage
  /-- the lock file -/
  ino : ℕ
  /-- the guarded file -/
  file : Option ℕ
  read : Option Bytes
  /-- the calls that are left -/
  todo : List WriteOp
  /-- what the `BufWriter` holds -/
  buffer : Bytes
  /-- the writes that it has passed on -/
  queue : List Bytes

/-- A commit: whose it is, and what had been read for it. -/
structure Update (L : Type) where
  label : L
  read : Option Bytes

structure World (P L : Type) where
  files : ℕ → Bytes
  next : ℕ
  guarded : Option ℕ
  lockfile : Option ℕ
  sessions : P → Option (Session L)
  /-- the last one first -/
  commits : List (Update L)

section Steps
variable {P L : Type}

namespace World

def read (w : World P L) : Option Bytes := w.guarded.map w.files

/-- No process has the file open any more. -/
def Finished (w : World P L) (i : ℕ) : Prop := ∀ p s, w.sessions p = some s → s.ino ≠ i

def set [DecidableEq P] (w : World P L) (p : P) (s : Option (Session L)) : World P L :=
  { w with sessions := Function.update w.sessions p s }

end World

/-- The buffer is written when the lock file is closed. -/
def Session.close (s : Session L) : Session L :=
  { s with stage := .closing, buffer := [], queue := (BufWriter.call DEFAULT_BUF_SIZE s.buffer .flush).1 }

variable [DecidableEq P] (plan : L → Option Bytes → List WriteOp × Bool) (quiet : Bool)

/-- One step of some process. The plan of a session says what it writes, given what it has read, and whether it commits. In a
quiet run a file is read when no process writes to it any more. -/
inductive Step : World P L → World P L → Prop
  | create {w : World P L} (p : P) (label : L) (hidle : w.sessions p = none) (hfree : w.lockfile = none) :
      Step w (World.set { w with files := Function.update w.files w.next [], next := w.next+1, lockfile := some w.next } p
        (some ⟨label,.created,w.next,none,none,[],[],[]⟩))
  | openFile {w : World P L} {p : P} {s : Session L} (hs : w.sessions p = some s) (hstage : s.stage = .created) :
      Step w (w.set p (some { s with stage := .opened, file := w.guarded }))
  | load {w : World P L} {p : P} {s : Session L} (hs : w.sessions p = some s) (hstage : s.stage = .opened)
      (hquiet : quiet = true → ∀ i ∈ s.file, w.Finished i) :
      Step w (w.set p (some { s with
        stage := .loaded, read := s.file.map w.files, todo := (plan s.label (s.file.map w.files)).1 }))
  | call {w : World P L} {p : P} {s : Session L} {op : WriteOp} {todo : List WriteOp} (hs : w.sessions p = some s)
      (hstage : s.stage = .loaded) (hqueue : s.queue = []) (htodo : s.todo = op::todo) :
      Step w (w.set p (some { s with
        todo := todo, buffer := (BufWriter.call DEFAULT_BUF_SIZE s.buffer op).2,
        queue := (BufWriter.call DEFAULT_BUF_SIZE s.buffer op).1 }))
  | append {w : World P L} {p : P} {s : Session L} {bytes : Bytes} {queue : List Bytes} (hs : w.sessions p = some s)
      (hqueue : s.queue = bytes::queue) :
      Step w (World.set { w with files := Function.update w.files s.ino (w.files s.ino++bytes) } p (some { s with queue := queue }))
  | commit {w : World P L} {p : P} {s : Session L} {i : ℕ} (hs : w.sessions p = some s) (hstage : s.stage = .loaded)
      (hqueue : s.queue = []) (htodo : s.todo = []) (hok : (plan s.label s.read).2 = true) (hlock : w.lockfile = some i) :
      Step w (World.set { w with guarded := some i, lockfile := none, commits := ⟨s.label,s.read⟩::w.commits } p (some s.close))
  | rollback {w : World P L} {p : P} {s : Session L} (hs : w.sessions p = some s) (hstage : s.stage = .loaded)
      (hqueue : s.queue = []) (htodo : s.todo = []) (hok : (plan s.label s.read).2 = false) :
      Step w (World.set { w with lockfile := none } p (some s.close))
  | close {w : World P L} {p : P} {s : Session L} (hs : w.sessions p = some s) (hstage : s.stage = .closing)
      (hqueue : s.queue = []) : Step w (w.set p none)

/-- Nobody has the lock yet. -/
def World.start (old : Option Bytes) : World P L := ⟨fun _ => old.getD [],1,old.map fun _ => 0,none,fun _ => none,[]⟩

/-! ### What the guarded file goes through -/

def Update.written (u : Update L) : Bytes := BufWriter.written (plan u.label u.read).1

/-- What is under the guarded path once the last commit is complete. -/
def latest (old : Option Bytes) : List (Update L) → Option Bytes
  | [] => old
  | u::_ => some (u.written plan)

/-- A beginning of a file, or no file. -/
def PartOf : Option Bytes → Option Bytes → Prop
  | none, none => True
  | some a, some b => a <+: b
  | _, _ => False

/-- The last commit is read, and in a quiet run the whole of it. -/
def Follows (read full : Option Bytes) : Prop := PartOf read full ∧ (quiet = true → read = full)

/-- Every commit was made of the one before. -/
def Chained (old : Option Bytes) : List (Update L) → Prop
  | [] => True
  | u::us => (plan u.label u.read).2 = true ∧ Follows quiet u.read (latest plan old us) ∧ Chained old us

theorem Chained.of_append {old : Option Bytes} {us vs : List (Update L)} (h : Chained plan quiet old (us++vs)) :
    Chained plan quiet old vs := by
  induction us with
  | nil => exact h
  | cons u us ih => exact ih h.2.2

theorem PartOf.refl : ∀ r : Option Bytes, PartOf r r
  | none => trivial
  | some a => List.prefix_refl a

theorem Follows.refl (r : Option Bytes) : Follows quiet r r := ⟨.refl r,fun _ => rfl⟩

/-! ### The invariant -/

/-- What is in the file of a session, what is on the way there and what is left to write. -/
structure Good (w : World P L) (s : Session L) : Prop where
  content : w.files s.ino++(s.queue.flatten++(s.buffer++BufWriter.written s.todo)) =
    if s.stage = .created ∨ s.stage = .opened then [] else BufWriter.written (plan s.label s.read).1
  bounded : s.buffer.length ≤ DEFAULT_BUF_SIZE
  closed : s.stage = .closing → s.buffer = [] ∧ s.todo = []

/-- The guarded file is the last commit, whole or with its writer still at it. -/
inductive Current (old : Option Bytes) (w : World P L) : Prop
  | flushing {p : P} {s : Session L} {us : List (Update L)} (hs : w.sessions p = some s) (hstage : s.stage = .closing)
      (hguarded : w.guarded = some s.ino) (hcommits : w.commits = ⟨s.label,s.read⟩::us) : Current old w
  | settled (hread : w.read = latest plan old w.commits) (hfinished : ∀ i ∈ w.guarded, w.Finished i) : Current old w

structure Inv (old : Option Bytes) (w : World P L) : Prop where
  fresh : ∀ p s, w.sessions p = some s → s.ino < w.next
  freshGuarded : ∀ i ∈ w.guarded, i < w.next
  distinct : ∀ p q s t, w.sessions p = some s → w.sessions q = some t → s.ino = t.ino → p = q
  locked : ∀ p s, w.sessions p = some s → s.stage ≠ .closing → w.lockfile = some s.ino ∧ w.guarded ≠ some s.ino
  opened : ∀ p s, w.sessions p = some s → s.stage = .opened → s.file = w.guarded
  loaded : ∀ p s, w.sessions p = some s → s.stage = .loaded → Follows quiet s.read (latest plan old w.commits)
  good : ∀ p s, w.sessions p = some s → Good plan w s
  current : Current plan old w
  chained : Chained plan quiet old w.commits

end Steps

section Invariant
variable {P L : Type} {plan : L → Option Bytes → List WriteOp × Bool} {quiet : Bool} {old : Option Bytes}
  {w w' : World P L} {p q : P} {s s' t : Session L}

theorem flatten_flush (held : Bytes) : (BufWriter.call DEFAULT_BUF_SIZE held .flush).1.flatten = held := by
  by_cases h : held = [] <;> simp [BufWriter.call,h]

namespace Good

theorem of_files (h : Good plan w s) (hfile : w'.files s.ino = w.files s.ino) : Good plan w' s :=
  ⟨hfile ▸ h.content,h.bounded,h.closed⟩

/-- Nothing is in the file before the guarded one was read. -/
theorem files_nil (h : Good plan w s) (hstage : s.stage = .created ∨ s.stage = .opened) :
    w.files s.ino = [] ∧ s.queue.flatten = [] ∧ s.buffer = [] := by
  have hcontent := h.content
  rw [if_pos hstage] at hcontent
  simp only [List.append_eq_nil_iff] at hcontent
  exact ⟨hcontent.1,hcontent.2.1,hcontent.2.2.1⟩

theorem content_loaded (h : Good plan w s) (hstage : s.stage = .loaded ∨ s.stage = .closing) :
    w.files s.ino++(s.queue.flatten++(s.buffer++BufWriter.written s.todo)) = BufWriter.written (plan s.label s.read).1 := by
  have hlater : ¬(s.stage = .created ∨ s.stage = .opened) := by rcases hstage with h | h <;> simp [h]
  rw [h.content,if_neg hlater]

theorem close (h : Good plan w s) (hstage : s.stage = .loaded) (hqueue : s.queue = []) (htodo : s.todo = []) :
    Good plan w s.close := by
  have hcontent := h.content_loaded (.inl hstage)
  rw [hqueue,htodo,List.flatten_nil,List.nil_append] at hcontent
  refine ⟨?_,Nat.zero_le _,fun _ => ⟨rfl,htodo⟩⟩
  rw [if_neg (by simp [Session.close])]
  simpa only [Session.close,flatten_flush,htodo,List.nil_append] using hcontent

end Good

/-- While a process has the lock no other one has it. -/
theorem Inv.only (h : Inv plan quiet old w) (hs : w.sessions p = some s) (hopen : s.stage ≠ .closing) (ht : w.sessions q = some t)
    (hopen' : t.stage ≠ .closing) : q = p := by
  have hlock := (h.locked p s hs hopen).1
  exact h.distinct q p t s ht hs (Option.some.inj ((h.locked q t ht hopen').1.symm.trans hlock))

/-- What is read of the guarded file is a part of the last commit. -/
theorem Inv.read_partOf (h : Inv plan quiet old w) : PartOf w.read (latest plan old w.commits) := by
  cases h.current with
  | @flushing p s us hs hstage hguarded hcommits =>
    have hcontent := (h.good p s hs).content_loaded (.inr hstage)
    rw [World.read,hguarded,hcommits]
    exact ⟨_,hcontent⟩
  | settled hread hfinished => exact hread ▸ .refl _

theorem Inv.read_finished (h : Inv plan quiet old w) (hfinished : ∀ i ∈ w.guarded, w.Finished i) :
    w.read = latest plan old w.commits := by
  cases h.current with
  | @flushing p s us hs hstage hguarded hcommits => exact absurd rfl (hfinished s.ino hguarded p s hs)
  | settled hread _ => exact hread

variable [DecidableEq P]

theorem World.set_of_ne {x : Option (Session L)} (h : q ≠ p) : (w.set p x).sessions q = w.sessions q := Function.update_of_ne h _ _

theorem session_cases {sessions : P → Option (Session L)} {x : Option (Session L)} (h : Function.update sessions p x q = some t) :
    q = p ∧ x = some t ∨ q ≠ p ∧ sessions q = some t := by
  by_cases hq : q = p
  · subst hq
    exact .inl ⟨rfl,by rwa [Function.update_self] at h⟩
  · exact .inr ⟨hq,by rwa [Function.update_of_ne hq] at h⟩

namespace Inv

/-- A session goes on, and no name changes. -/
theorem replace (h : Inv plan quiet old w) (hs : w.sessions p = some s)
    (hsessions : w'.sessions = Function.update w.sessions p (some s')) (hino : s'.ino = s.ino)
    (hstage : s'.stage = .closing ↔ s.stage = .closing)
    (hnext : w'.next = w.next) (hguarded : w'.guarded = w.guarded) (hlockfile : w'.lockfile = w.lockfile)
    (hcommits : w'.commits = w.commits) (hfiles : ∀ i, i ≠ s.ino → w'.files i = w.files i)
    (hopened : s'.stage = .opened → s'.file = w.guarded)
    (hloaded : s'.stage = .loaded → Follows quiet s'.read (latest plan old w.commits))
    (hflushing : s.stage = .closing → s'.label = s.label ∧ s'.read = s.read) (hgood : Good plan w' s') :
    Inv plan quiet old w' := by
  have hcases {q : P} {t : Session L} (ht : w'.sessions q = some t) : q = p ∧ s' = t ∨ q ≠ p ∧ w.sessions q = some t := by
    rw [hsessions] at ht
    exact (session_cases ht).imp_left fun ⟨hq,hx⟩ => ⟨hq,Option.some.inj hx⟩
  have hother {q : P} {t : Session L} (hq : q ≠ p) (ht : w.sessions q = some t) : t.ino ≠ s.ino :=
    fun hino => hq (h.distinct q p t s ht hs hino)
  constructor
  · intro q t ht
    rw [hnext]
    rcases hcases ht with ⟨-,rfl⟩ | ⟨-,ht⟩
    · exact hino ▸ h.fresh p s hs
    · exact h.fresh q t ht
  · rw [hguarded,hnext]
    exact h.freshGuarded
  · intro q₁ q₂ t₁ t₂ ht₁ ht₂ heq
    rcases hcases ht₁ with ⟨hq₁,rfl⟩ | ⟨hq₁,ht₁⟩
    · rcases hcases ht₂ with ⟨hq₂,-⟩ | ⟨hq₂,ht₂⟩
      · exact hq₁.trans hq₂.symm
      · exact absurd (heq.symm.trans hino) (hother hq₂ ht₂)
    · rcases hcases ht₂ with ⟨hq₂,rfl⟩ | ⟨hq₂,ht₂⟩
      · exact absurd (heq.trans hino) (hother hq₁ ht₁)
      · exact h.distinct q₁ q₂ t₁ t₂ ht₁ ht₂ heq
  · intro q t ht hopen
    rw [hguarded,hlockfile]
    rcases hcases ht with ⟨-,rfl⟩ | ⟨-,ht⟩
    · rw [hino]
      exact h.locked p s hs fun hc => hopen (hstage.mpr hc)
    · exact h.locked q t ht hopen
  · intro q t ht hopen
    rw [hguarded]
    rcases hcases ht with ⟨-,rfl⟩ | ⟨-,ht⟩
    · exact hopened hopen
    · exact h.opened q t ht hopen
  · intro q t ht hload
    rw [hcommits]
    rcases hcases ht with ⟨-,rfl⟩ | ⟨-,ht⟩
    · exact hloaded hload
    · exact h.loaded q t ht hload
  · intro q t ht
    rcases hcases ht with ⟨-,rfl⟩ | ⟨hq,ht⟩
    · exact hgood
    · exact (h.good q t ht).of_files (hfiles _ (hother hq ht))
  · cases h.current with
    | @flushing q t us ht hclosing hg hc =>
      by_cases hq : q = p
      · subst hq
        obtain rfl : s = t := Option.some.inj (hs.symm.trans ht)
        obtain ⟨hlabel,hread⟩ := hflushing hclosing
        have hlast : w'.commits = ⟨s'.label,s'.read⟩::us := by rw [hcommits,hc,hlabel,hread]
        refine .flushing (p := q) (s := s') ?_ (hstage.mpr hclosing) ?_ hlast
        · rw [hsessions,Function.update_self]
        · rw [hguarded,hino,hg]
      · refine .flushing (p := q) (s := t) ?_ hclosing (hguarded.trans hg) (hcommits.trans hc)
        rw [hsessions,Function.update_of_ne hq,ht]
    | settled hread hfinished =>
      refine .settled ?_ fun i hi q t ht heq => ?_
      · rw [hcommits,← hread,World.read,World.read,hguarded]
        cases hg : w.guarded with
        | none => rfl
        | some i => exact congrArg some (hfiles i fun hi => hfinished i hg p s hs hi.symm)
      · rw [hguarded] at hi
        rcases hcases ht with ⟨-,rfl⟩ | ⟨-,ht⟩
        · exact hfinished i hi p s hs (hino.symm.trans heq)
        · exact hfinished i hi q t ht heq
  · rw [hcommits]
    exact h.chained

theorem create (h : Inv plan quiet old w) (label : L) (hidle : w.sessions p = none) (hfree : w.lockfile = none) :
    Inv plan quiet old (World.set { w with
      files := Function.update w.files w.next [], next := w.next+1, lockfile := some w.next } p
        (some ⟨label,.created,w.next,none,none,[],[],[]⟩)) := by
  have hclosing {q : P} {t : Session L} (ht : w.sessions q = some t) : t.stage = .closing := by
    by_contra hopen
    have hlock := (h.locked q t ht hopen).1
    rw [hfree] at hlock
    cases hlock
  have hfile {i : ℕ} (hi : i < w.next) : Function.update w.files w.next [] i = w.files i := Function.update_of_ne hi.ne _ _
  constructor
  · intro q t ht
    rcases session_cases ht with ⟨-,ht⟩ | ⟨-,ht⟩
    · obtain rfl := Option.some.inj ht
      exact Nat.lt_succ_self _
    · exact Nat.lt_succ_of_lt (h.fresh q t ht)
  · exact fun i hi => Nat.lt_succ_of_lt (h.freshGuarded i hi)
  · intro q₁ q₂ t₁ t₂ ht₁ ht₂ heq
    rcases session_cases ht₁ with ⟨hq₁,ht₁⟩ | ⟨-,ht₁⟩
    · rcases session_cases ht₂ with ⟨hq₂,-⟩ | ⟨-,ht₂⟩
      · exact hq₁.trans hq₂.symm
      · obtain rfl := Option.some.inj ht₁
        exact absurd (h.fresh q₂ t₂ ht₂) (heq ▸ lt_irrefl w.next)
    · rcases session_cases ht₂ with ⟨-,ht₂⟩ | ⟨-,ht₂⟩
      · obtain rfl := Option.some.inj ht₂
        exact absurd (h.fresh q₁ t₁ ht₁) (heq ▸ lt_irrefl w.next)
      · exact h.distinct q₁ q₂ t₁ t₂ ht₁ ht₂ heq
  · intro q t ht hopen
    rcases session_cases ht with ⟨-,ht⟩ | ⟨-,ht⟩
    · obtain rfl := Option.some.inj ht
      exact ⟨rfl,fun hg => lt_irrefl w.next (h.freshGuarded _ hg)⟩
    · exact absurd (hclosing ht) hopen
  · intro q t ht hopen
    rcases session_cases ht with ⟨-,ht⟩ | ⟨-,ht⟩
    · obtain rfl := Option.some.inj ht
      cases hopen
    · rw [hclosing ht] at hopen
      cases hopen
  · intro q t ht hload
    rcases session_cases ht with ⟨-,ht⟩ | ⟨-,ht⟩
    · obtain rfl := Option.some.inj ht
      cases hload
    · rw [hclosing ht] at hload
      cases hload
  · intro q t ht
    rcases session_cases ht with ⟨-,ht⟩ | ⟨-,ht⟩
    · obtain rfl := Option.some.inj ht
      exact ⟨by simp [World.set,BufWriter.written],Nat.zero_le _,fun hc => by cases hc⟩
    · exact (h.good q t ht).of_files (hfile (h.fresh q t ht))
  · cases h.current with
    | @flushing q t us ht hstage hguarded hcommits =>
      have hq : q ≠ p := by
        rintro rfl
        rw [hidle] at ht
        cases ht
      exact .flushing ((World.set_of_ne hq).trans ht) hstage hguarded hcommits
    | settled hread hfinished =>
      refine .settled ?_ fun i hi q t ht heq => ?_
      · refine Eq.trans ?_ hread
        exact Option.map_congr fun i hi => hfile (h.freshGuarded i hi)
      · rcases session_cases ht with ⟨-,ht⟩ | ⟨-,ht⟩
        · obtain rfl := Option.some.inj ht
          exact (h.freshGuarded i hi).ne' heq
        · exact hfinished i hi q t ht heq
  · exact h.chained

/-- The lock is given up, with or without a commit. -/
theorem release (h : Inv plan quiet old w) (hs : w.sessions p = some s) (hstage : s.stage = .loaded) (hqueue : s.queue = [])
    (htodo : s.todo = []) {w' : World P L} (hsessions : w'.sessions = Function.update w.sessions p (some s.close))
    (hnext : w'.next = w.next) (hfiles : w'.files = w.files) (hguarded : ∀ i ∈ w'.guarded, i < w.next)
    (hcurrent : Current plan old w') (hchained : Chained plan quiet old w'.commits) : Inv plan quiet old w' := by
  have hcases {q : P} {t : Session L} (ht : w'.sessions q = some t) :
      q = p ∧ s.close = t ∨ w.sessions q = some t ∧ t.stage = .closing := by
    rw [hsessions] at ht
    rcases session_cases ht with ⟨hq,hx⟩ | ⟨hq,ht⟩
    · exact .inl ⟨hq,Option.some.inj hx⟩
    · refine .inr ⟨ht,?_⟩
      by_contra hopen
      exact hq (h.only hs (by simp [hstage]) ht hopen)
  have hclosing {q : P} {t : Session L} (ht : w'.sessions q = some t) : t.stage = .closing := by
    rcases hcases ht with ⟨-,rfl⟩ | ⟨-,hc⟩
    · rfl
    · exact hc
  constructor
  · intro q t ht
    rw [hnext]
    rcases hcases ht with ⟨-,rfl⟩ | ⟨ht,-⟩
    · exact h.fresh p s hs
    · exact h.fresh q t ht
  · rwa [hnext]
  · intro q₁ q₂ t₁ t₂ ht₁ ht₂ heq
    rcases hcases ht₁ with ⟨rfl,rfl⟩ | ⟨ht₁,-⟩
    · rcases hcases ht₂ with ⟨rfl,-⟩ | ⟨ht₂,-⟩
      · rfl
      · exact h.distinct q₁ q₂ s t₂ hs ht₂ heq
    · rcases hcases ht₂ with ⟨rfl,rfl⟩ | ⟨ht₂,-⟩
      · exact h.distinct q₁ q₂ t₁ s ht₁ hs heq
      · exact h.distinct q₁ q₂ t₁ t₂ ht₁ ht₂ heq
  · exact fun q t ht hopen => absurd (hclosing ht) hopen
  · intro q t ht hopen
    rw [hclosing ht] at hopen
    cases hopen
  · intro q t ht hload
    rw [hclosing ht] at hload
    cases hload
  · intro q t ht
    rcases hcases ht with ⟨-,rfl⟩ | ⟨ht,-⟩
    · exact ((h.good p s hs).close hstage hqueue htodo).of_files (by rw [hfiles])
    · exact (h.good q t ht).of_files (by rw [hfiles])
  · exact hcurrent
  · exact hchained

theorem close (h : Inv plan quiet old w) (hs : w.sessions p = some s) (hstage : s.stage = .closing) (hqueue : s.queue = []) :
    Inv plan quiet old (w.set p none) := by
  have hcases {q : P} {t : Session L} (ht : (w.set p none).sessions q = some t) : q ≠ p ∧ w.sessions q = some t := by
    rcases session_cases ht with ⟨-,hx⟩ | hrest
    · cases hx
    · exact hrest
  have hsettled (hguarded : w.guarded = some s.ino) (hlatest : latest plan old w.commits = some (BufWriter.written (plan s.label s.read).1)) :
      Current plan old (w.set p none) := by
    refine .settled ?_ fun i hi q t ht heq => ?_
    · obtain ⟨hbuffer,htodo⟩ := (h.good p s hs).closed hstage
      have hcontent := (h.good p s hs).content_loaded (.inr hstage)
      rw [hqueue,hbuffer,htodo] at hcontent
      change w.guarded.map w.files = latest plan old w.commits
      rw [hguarded,hlatest,Option.map_some,← hcontent]
      simp [BufWriter.written]
    · obtain ⟨hq,ht⟩ := hcases ht
      have hi : w.guarded = some i := hi
      exact hq (h.distinct q p t s ht hs (heq.trans (Option.some.inj (hi.symm.trans hguarded))))
  constructor
  · exact fun q t ht => h.fresh q t (hcases ht).2
  · exact h.freshGuarded
  · exact fun q₁ q₂ t₁ t₂ ht₁ ht₂ => h.distinct q₁ q₂ t₁ t₂ (hcases ht₁).2 (hcases ht₂).2
  · exact fun q t ht => h.locked q t (hcases ht).2
  · exact fun q t ht => h.opened q t (hcases ht).2
  · exact fun q t ht => h.loaded q t (hcases ht).2
  · exact fun q t ht => (h.good q t (hcases ht).2).of_files rfl
  · cases h.current with
    | @flushing q t us ht hclosing hguarded hcommits =>
      by_cases hq : q = p
      · subst hq
        obtain rfl : s = t := Option.some.inj (hs.symm.trans ht)
        exact hsettled hguarded (by rw [hcommits]; rfl)
      · exact .flushing ((World.set_of_ne hq).trans ht) hclosing hguarded hcommits
    | settled hread hfinished => exact .settled hread fun i hi q t ht => hfinished i hi q t (hcases ht).2
  · exact h.chained

theorem step (h : Inv plan quiet old w) (hstep : Step plan quiet w w') : Inv plan quiet old w' := by
  cases hstep with
  | create p label hidle hfree => exact h.create label hidle hfree
  | @openFile p s hs hstage =>
    refine h.replace hs rfl rfl (by simp [hstage]) rfl rfl rfl rfl (fun _ _ => rfl) (fun _ => rfl) (fun hc => by cases hc)
      (fun hc => by simp [hstage] at hc) ?_
    have hgood := h.good p s hs
    have hcontent := hgood.content
    rw [if_pos (.inl hstage)] at hcontent
    refine ⟨?_,hgood.bounded,fun hc => by cases hc⟩
    rw [if_pos (.inr rfl)]
    exact hcontent
  | @load p s hs hstage hquiet =>
    have hfile : s.file.map w.files = w.read := by rw [h.opened p s hs hstage,World.read]
    refine h.replace hs rfl rfl (by simp [hstage]) rfl rfl rfl rfl (fun _ _ => rfl) (fun hc => by cases hc) (fun _ => ?_)
      (fun hc => by simp [hstage] at hc) ?_
    · rw [hfile]
      exact ⟨h.read_partOf,fun hq => h.read_finished fun i hi => hquiet hq i (h.opened p s hs hstage ▸ hi)⟩
    · obtain ⟨hfiles,hqueue,hbuffer⟩ := (h.good p s hs).files_nil (.inr hstage)
      refine ⟨?_,(h.good p s hs).bounded,fun hc => by cases hc⟩
      rw [if_neg (by simp)]
      change w.files s.ino++_ = _
      rw [hfiles,hqueue,hbuffer]
      rfl
  | @call p s op todo hs hstage hqueue htodo =>
    have hgood := h.good p s hs
    refine h.replace hs rfl rfl (by simp [hstage]) rfl rfl rfl rfl (fun _ _ => rfl) (fun hc => by simp [hstage] at hc)
      (fun _ => h.loaded p s hs hstage) (fun hc => by simp [hstage] at hc) ?_
    refine ⟨?_,BufWriter.length_held_le hgood.bounded op,fun hc => by simp [hstage] at hc⟩
    have hcontent := hgood.content_loaded (.inl hstage)
    have hbytes := BufWriter.call_bytes hgood.bounded op
    have hwritten : BufWriter.written (op::todo) = BufWriter.bytes op++BufWriter.written todo := rfl
    rw [if_neg (by simp [hstage]),← hcontent,hqueue,htodo,hwritten]
    change w.files s.ino++_ = _
    rw [← List.append_assoc (BufWriter.call _ _ _).1.flatten,hbytes]
    simp
  | @append p s bytes queue hs hqueue =>
    have hgood := h.good p s hs
    refine h.replace hs rfl rfl Iff.rfl rfl rfl rfl rfl (fun i hi => Function.update_of_ne hi _ _) (h.opened p s hs)
      (h.loaded p s hs) (fun _ => ⟨rfl,rfl⟩) ?_
    refine ⟨?_,hgood.bounded,hgood.closed⟩
    have hcontent := hgood.content
    rw [hqueue] at hcontent
    refine Eq.trans ?_ hcontent
    change Function.update w.files s.ino _ s.ino++_ = _
    rw [Function.update_self]
    simp
  | @commit p s i hs hstage hqueue htodo hok hlock =>
    obtain rfl : i = s.ino := Option.some.inj (hlock.symm.trans (h.locked p s hs (by simp [hstage])).1)
    refine h.release hs hstage hqueue htodo rfl rfl rfl (fun j hj => ?_) ?_ ⟨hok,h.loaded p s hs hstage,h.chained⟩
    · obtain rfl := Option.some.inj hj
      exact h.fresh p s hs
    · exact .flushing (p := p) (s := s.close) (Function.update_self _ _ _) rfl rfl rfl
  | @rollback p s hs hstage hqueue htodo hok =>
    refine h.release hs hstage hqueue htodo rfl rfl rfl h.freshGuarded ?_ h.chained
    cases h.current with
    | @flushing q t us ht hclosing hguarded hcommits =>
      have hq : q ≠ p := by
        rintro rfl
        obtain rfl : s = t := Option.some.inj (hs.symm.trans ht)
        rw [hstage] at hclosing
        cases hclosing
      exact .flushing ((World.set_of_ne hq).trans ht) hclosing hguarded hcommits
    | settled hread hfinished =>
      refine .settled hread fun i hi q t ht heq => ?_
      rcases session_cases ht with ⟨-,ht⟩ | ⟨-,ht⟩
      · obtain rfl := Option.some.inj ht
        exact hfinished i hi p s hs heq
      · exact hfinished i hi q t ht heq
  | @close p s hs hstage hqueue => exact h.close hs hstage hqueue

omit [DecidableEq P] in
theorem start (old : Option Bytes) : Inv plan quiet old (World.start old : World P L) where
  fresh _ _ h := by cases h
  freshGuarded i hi := by
    obtain ⟨_,-,rfl⟩ := Option.map_eq_some_iff.mp hi
    exact Nat.zero_lt_one
  distinct _ _ _ _ h := by cases h
  locked _ _ h := by cases h
  opened _ _ h := by cases h
  loaded _ _ h := by cases h
  good _ _ h := by cases h
  current := .settled (by cases old <;> rfl) fun _ _ _ _ h => by cases h
  chained := trivial

theorem run (hrun : Relation.ReflTransGen (Step plan quiet) (World.start old) w) : Inv plan quiet old w := by
  induction hrun with
  | refl => exact start old
  | tail _ hstep ih => exact ih.step hstep

end Inv

/-- Whatever the order of their system calls, at most one process has the lock; what is found under the guarded path is the last
commit or a beginning of it, and the whole of it once no process has it open; and every commit was made of the one before it, or
of a beginning of that, so that none is skipped and no two are mixed. -/
theorem run_exclusive (hrun : Relation.ReflTransGen (Step plan quiet) (World.start old) w) :
    (∀ p q s t, w.sessions p = some s → w.sessions q = some t → s.stage ≠ .closing → t.stage ≠ .closing → q = p) ∧
    PartOf w.read (latest plan old w.commits) ∧
    ((∀ i ∈ w.guarded, w.Finished i) → w.read = latest plan old w.commits) ∧ Chained plan quiet old w.commits := by
  have h := Inv.run hrun
  exact ⟨fun p q s t hs ht hopen hopen' => h.only hs hopen ht hopen',h.read_partOf,h.read_finished,h.chained⟩

end Invariant

/-! ### Sessions of a `Filelock` -/

section Filelock
open Filelock
variable {T : Type} (serialize : T → List WriteOp × Bool) (deserialize : Bytes → Option T) (default : T)

/-- What the accesses make of the data. -/
def updated (as : List (Access T)) (data : T) : T := (atDrop none false data as).data

/-- What a session writes, and whether it commits. -/
def plan (as : List (Access T)) (read : Option Bytes) : List WriteOp × Bool :=
  match loaded deserialize default (read.map fun content => ⟨content,false⟩) with
  | none => ([],false)
  | some data =>
    let l := atDrop none false data as
    if l.rolledBack ∨ ¬l.dirty then ([],false) else serialize l.data

variable {serialize deserialize default} {as : List (Access T)} {read : Option Bytes} {data : T}

theorem loaded_congr {old old' : Option File} (h : old.map File.content = old'.map File.content) :
    loaded deserialize default old = loaded deserialize default old' := by
  cases old with
  | none =>
    cases old' with
    | none => rfl
    | some file' => cases h
  | some file =>
    cases old' with
    | none => cases h
    | some file' =>
      have hcontent : file.content = file'.content := Option.some.inj h
      simp only [loaded,hcontent]

/-- The lock file plays no part in the accesses. -/
theorem accesses_congr {l l' : Filelock T} (hdata : l.data = l'.data) (hdirty : l.dirty = l'.dirty)
    (hrolled : l.rolledBack = l'.rolledBack) (as : List (Access T)) :
    (l.accesses as).1.data = (l'.accesses as).1.data ∧ (l.accesses as).1.dirty = (l'.accesses as).1.dirty ∧
      (l.accesses as).1.rolledBack = (l'.accesses as).1.rolledBack := by
  induction as generalizing l l' with
  | nil => exact ⟨hdata,hdirty,hrolled⟩
  | cons a as ih =>
    cases a with
    | deref =>
      by_cases hr : l'.rolledBack = true
      · simpa [accesses,access,hrolled,hr] using ⟨hdata,hdirty⟩
      · simpa [accesses,access,hrolled,hr] using ih hdata hdirty hrolled
    | derefMut f =>
      by_cases hr : l'.rolledBack = true
      · simpa [accesses,access,hrolled,hr] using ⟨hdata,hdirty⟩
      · simpa [accesses,access,hrolled,hr,hdata] using
          @ih { l with data := f l'.data, dirty := true } { l' with data := f l'.data, dirty := true } rfl rfl hrolled
    | rollback =>
      simpa [accesses,access] using
        @ih { l with rolledBack := true, lockfile := l.lockfile.rollback }
          { l' with rolledBack := true, lockfile := l'.lockfile.rollback } hdata hdirty rfl

theorem atDrop_congr (old : Option File) (flags : Bool) (data : T) (as : List (Access T)) :
    (atDrop old flags data as).data = (atDrop none false data as).data ∧
      (atDrop old flags data as).dirty = (atDrop none false data as).dirty ∧
      (atDrop old flags data as).rolledBack = (atDrop none false data as).rolledBack :=
  @accesses_congr T ⟨data,held old flags false [],false,false⟩ ⟨data,held none false false [],false,false⟩ rfl rfl rfl as

/-- A session that nobody else is there for leaves what its plan says. -/
theorem session_plan (old : Option File) (flags : Bool) (as : List (Access T)) :
    let fs := final (session serialize deserialize default flags as (Fs.initial old))
    let p := plan serialize deserialize default as (old.map File.content)
    fs.lockfile = none ∧ fs.read = if p.2 then some (BufWriter.written p.1) else old.map File.content := by
  intro fs p
  have hsame : loaded deserialize default ((old.map File.content).map fun content => ⟨content,false⟩) =
      loaded deserialize default old := loaded_congr (by cases old <;> rfl)
  cases hloaded : loaded deserialize default old with
  | none =>
    have hatomic : Atomic old [] False fs := session_unloaded hloaded flags as []
    have hp : p = ([],false) := by simp only [p,plan,hsame,hloaded]
    rw [hp]
    exact ⟨hatomic.lockGone,hatomic.kept not_false⟩
  | some data =>
    obtain ⟨fs₁,h,hsession⟩ := session_eq serialize hloaded flags as
    have hlockfile := atDrop_lockfile old flags data as
    obtain ⟨hdata,hdirty,hrolled⟩ := atDrop_congr old flags data as
    have hp : p = if (atDrop old flags data as).rolledBack ∨ ¬(atDrop old flags data as).dirty then ([],false)
        else serialize (atDrop old flags data as).data := by
      simp only [p,plan,hsame,hloaded,hdata,hdirty,hrolled]
    rw [show fs = _ from hsession,hp]
    generalize atDrop old flags data as = l at hlockfile ⊢
    rw [Filelock.drop,hlockfile]
    by_cases hidle : l.rolledBack = true ∨ ¬l.dirty = true
    · obtain ⟨fs',hdrop,hguarded,hlock,-⟩ := h.drop_held flags l.rolledBack []
      rw [if_pos hidle,if_pos hidle,hdrop]
      exact ⟨hlock,congrArg (Option.map File.content) hguarded⟩
    · have hkept : l.rolledBack = false := by
        by_contra hr
        exact hidle (.inl (by simpa using hr))
      obtain ⟨fs',hwrites,h'⟩ := h.writes flags false (serialize l.data).1
      rw [List.nil_append] at hwrites h'
      rw [if_neg hidle,if_neg hidle,hkept,bind_of_ok hwrites]
      by_cases hserialized : (serialize l.data).2 = true
      · obtain ⟨fs'',hrun,hguarded,hlock,-⟩ := h'.commitAndDrop_held flags
        rw [if_pos hserialized,if_pos hserialized,hrun]
        exact ⟨hlock,congrArg (Option.map File.content) hguarded⟩
      · obtain ⟨fs'',hdrop,hguarded,hlock,-⟩ := h'.drop_held flags false (serialize l.data).1
        rw [if_neg hserialized,if_neg hserialized,bind_of_ok hdrop]
        exact ⟨hlock,congrArg (Option.map File.content) hguarded⟩

/-- A commit writes the data that it has read, updated. -/
theorem loaded_written (hround : ∀ d, (serialize d).2 = true → deserialize (BufWriter.written (serialize d).1) = some d)
    (hok : (plan serialize deserialize default as read).2 = true)
    (hdata : loaded deserialize default (read.map fun content => ⟨content,false⟩) = some data) :
    deserialize (BufWriter.written (plan serialize deserialize default as read).1) = some (updated as data) := by
  simp only [plan,hdata] at hok ⊢
  by_cases hidle : (atDrop none false data as).rolledBack = true ∨ ¬(atDrop none false data as).dirty = true
  · rw [if_pos hidle] at hok
    cases hok
  · rw [if_neg hidle] at hok ⊢
    exact hround _ hok

/-- The data after the commits. -/
def replay (data : T) (commits : List (Update (List (Access T)))) : T := commits.foldr (fun u d => updated u.label d) data

theorem loaded_latest (hround : ∀ d, (serialize d).2 = true → deserialize (BufWriter.written (serialize d).1) = some d)
    (hold : loaded deserialize default (read.map fun content => ⟨content,false⟩) = some data)
    {us : List (Update (List (Access T)))} (h : Chained (plan serialize deserialize default) true read us) :
    loaded deserialize default ((latest (plan serialize deserialize default) read us).map fun content => ⟨content,false⟩) =
      some (replay data us) := by
  induction us with
  | nil => exact hold
  | cons u us ih =>
    obtain ⟨hok,hfollows,hchained⟩ := h
    have hread := ih hchained
    rw [← hfollows.2 rfl] at hread
    exact loaded_written hround hok hread

variable {P : Type} [DecidableEq P] {w : World P (List (Access T))}

end Filelock

/-! ### Two processes -/

/-- Every session adds a byte to what it has read. -/
def addByte (c : Byte) (read : Option Bytes) : List WriteOp × Bool := ([.write (read.getD []++[c])],true)

/-- The second process reads the new file before the first one has written its buffer. -/
theorem run_exclusive_raced : ∃ w : World Bool Byte, w.read = some [] ∧ (∃ s, w.sessions true = some s ∧ s.read = some []) ∧
    PartOf w.read (latest addByte none w.commits) ∧ latest addByte none w.commits = some [97] ∧
    Chained addByte false none w.commits := by
  have hrun : Relation.ReflTransGen (Step addByte false) (World.start none : World Bool Byte) _ :=
    .tail (.tail (.tail (.tail (.tail (.tail (.tail (.tail .refl (.create false 97 rfl rfl)) (.openFile (p := false) rfl rfl))
      (.load (p := false) rfl rfl (fun h => by cases h))) (.call (p := false) rfl rfl rfl rfl))
      (.commit (p := false) rfl rfl rfl rfl rfl rfl)) (.create true 98 rfl rfl)) (.openFile (p := true) rfl rfl))
      (.load (p := true) rfl rfl (fun h => by cases h))
  obtain ⟨-,hpart,-,hchained⟩ := run_exclusive hrun
  exact ⟨_,rfl,⟨_,rfl,rfl⟩,hpart,rfl,hchained⟩

end Shared
end LockFile
end Libbit
