import Libbit.RefsSpec

/-! What a reflog holds after a run of updates (`refs/reflog.rs`, `refs/refdb.rs`). -/
namespace Libbit
namespace Refs

open Lib
open CommitFormat (BitSignature)

/-! ### Writing a log leaves the refs where they are -/

section Frame
variable {fs : Fs} {sym expanded : SymbolicRef} {s : Text}

theorem isDir_write {p q : Path} {content : Content} (h : (fs.write p content).isDir q = true) :
    fs.isDir q = true ∨ q ≠ p ∧ q <+: p := by
  rcases of_decide_eq_true h with h | h | ⟨r,hr,hfile,hne,hpre⟩
  · exact Or.inl (decide_eq_true (Or.inl h))
  · exact Or.inl (decide_eq_true (Or.inr (Or.inl h)))
  · by_cases hrp : r = p
    · subst hrp
      exact Or.inr ⟨hne.symm,hpre⟩
    · rw [Fs.write_files,Function.update_of_ne hrp] at hfile
      exact Or.inl (decide_eq_true (Or.inr (Or.inr ⟨r,fs.mem_names r hfile,hfile,hne,hpre⟩)))

theorem tryExists_eq_true : fs.tryExists s = .ok true ↔
    fs.blocked (location s) = false ∧ ((fs.files (location s)).isSome ∨ fs.isDir (location s) = true) := by
  unfold Fs.tryExists
  cases hblocked : fs.blocked (location s) <;> simp

/-- A path still exists after a file was written that is not above it. -/
theorem tryExists_write {p : Path} (h : fs.tryExists s = .ok true) (hp : ¬(p <+: location s ∧ p ≠ location s))
    (content : Content) : (fs.write p content).tryExists s = .ok true := by
  rw [tryExists_eq_true] at h ⊢
  refine ⟨?_,?_⟩
  · rw [← h.1]
    refine decide_eq_decide.mpr (exists_congr fun q => and_congr_right fun hq => and_congr_right fun hne => ?_)
    have hqp : q ≠ p := by
      rintro rfl
      exact hp ⟨(List.mem_inits q _).mp hq,hne⟩
    rw [Fs.write_files,Function.update_of_ne hqp]
  · refine h.2.imp (fun hfile => ?_) (isDir_mono content)
    by_cases hsame : location s = p
    · rw [hsame,Fs.write_files,Function.update_self]
      rfl
    · rwa [Fs.write_files,Function.update_of_ne hsame]

theorem tryExists_writeLog (hkind : sym.kind ≠ .Unknown) (h : fs.tryExists sym.path = .ok true) (s : Text) (content : Content) :
    (fs.write (location (joinLog s)) content).tryExists sym.path = .ok true := by
  refine tryExists_write h (fun hp => ?_) content
  obtain ⟨⟨rest,hrest⟩,-⟩ := hp
  refine head?_location_ne hkind ?_
  rw [← hrest,location_joinLog]
  rfl

/-- A file that was written can be locked again. -/
theorem openLock_write_self (h : fs.openLock s = .ok ()) (hname : Fs.lockPath (location s) ≠ location s) (content : Content) :
    (fs.write (location s) content).openLock s = .ok () := by
  have hprefix : ¬(Fs.lockPath (location s) ≠ location s ∧ Fs.lockPath (location s) <+: location s) := by
    rintro ⟨-,hpre⟩
    refine hname (hpre.eq_of_length ?_)
    rcases List.eq_nil_or_concat (location s) with hnil | ⟨init,last,hlast⟩
    · rw [hnil]
      rfl
    · simp [hlast,Fs.lockPath]
  unfold Fs.openLock at h ⊢
  split_ifs at h with hblocked hdir hlock
  have hfile : (fs.write (location s) content).files (location s) = some content := Function.update_self _ _ _
  have hfree : ¬(((fs.write (location s) content).files (Fs.lockPath (location s))).isSome ∨
      (fs.write (location s) content).isDir (Fs.lockPath (location s))) := by
    rw [Fs.write_files,Function.update_of_ne hname]
    exact fun hheld => hheld.elim (fun hfile => hlock (Or.inl hfile)) fun hdir =>
      (isDir_write hdir).elim (fun hdir => hlock (Or.inr hdir)) hprefix
  rw [if_neg (by rwa [blocked_write_self]),if_neg (by simp [hfile]),if_neg hfree]

theorem expandSymref_self (hkind : sym.kind ≠ .Unknown) (h : fs.tryExists sym.path = .ok true) :
    expandSymref sym fs = .ok sym := by
  rw [expandSymref_of_exists h]
  exact if_neg hkind

theorem expandSymref_go_mem {bases : List Text} (h : expandSymref.go sym fs bases = .ok expanded) :
    ∃ base ∈ bases, expanded.path = join base sym.path := by
  induction bases with
  | nil => cases h
  | cons base bases ih =>
    rw [expandSymref.go] at h
    obtain ⟨found,-,h⟩ := except_bind_eq_ok.mp h
    cases found with
    | false =>
      obtain ⟨base',hbase',hpath⟩ := ih h
      exact ⟨base',List.mem_cons_of_mem base hbase',hpath⟩
    | true =>
      refine ⟨base,List.mem_cons_self,?_⟩
      have hvalid : newValid (join base sym.path) = .ok expanded := h
      unfold newValid at hvalid
      split at hvalid <;> cases hvalid
      rfl

end Frame

/-! ### Updates of a branch -/

structure Update where
  env : Env
  target : BitRef
  cause : RefUpdateCause
  /-- the value that the branch gets -/
  oid : Oid

/-- What the target resolves to once the ref points at it. -/
def newValue (env : Env) (sym : SymbolicRef) (target : BitRef) (fs : Fs) : Except Error Oid := do
  let validated ← validate env target fs
  fullyResolve env target (fs.withRef sym validated)

/-- The entries that one update each leaves, the first one from the oid `last`. -/
def Records : Oid → List Update → List BitReflogEntry → Prop
  | _, [], [] => True
  | last, u::us, e::es =>
    e.oldOid = last ∧ e.newOid = u.oid ∧ userSignature u.env = .ok e.committer ∧ e.message = u.cause.display ∧
      Records u.oid us es
  | _, _, _ => False

section Records
variable {us : List Update} {es : List BitReflogEntry} {last : Oid} {u : Update} {e : BitReflogEntry}

theorem Records.newOids (h : Records last us es) : es.map BitReflogEntry.newOid = us.map Update.oid := by
  induction us generalizing last es with
  | nil =>
    cases es with
    | nil => rfl
    | cons e es => exact absurd h id
  | cons u us ih =>
    cases es with
    | nil => exact absurd h id
    | cons e es =>
      obtain ⟨-,hnew,-,-,hrest⟩ := h
      rw [List.map_cons,List.map_cons,hnew,ih hrest]

theorem Records.length (h : Records last us es) : es.length = us.length := by
  have hlen := congrArg List.length h.newOids
  rwa [List.length_map,List.length_map] at hlen

theorem Records.concat (h : Records last us es) (hold : e.oldOid = (es.getLast?.map BitReflogEntry.newOid).getD last)
    (hnew : e.newOid = u.oid) (hcommitter : userSignature u.env = .ok e.committer) (hmessage : e.message = u.cause.display) :
    Records last (us++[u]) (es++[e]) := by
  induction us generalizing last es with
  | nil =>
    cases es with
    | nil => exact ⟨hold,hnew,hcommitter,hmessage,trivial⟩
    | cons e es => exact absurd h id
  | cons v us ih =>
    cases es with
    | nil => exact absurd h id
    | cons d es =>
      obtain ⟨hold',hnew',hcommitter',hmessage',hrest⟩ := h
      refine ⟨hold',hnew',hcommitter',hmessage',ih hrest ?_⟩
      rw [hold,List.getLast?_cons,Option.map_some,Option.getD_some,hnew'.symm]
      cases es.getLast? <;> rfl

theorem Records.newOid (h : Records last us es) (i : ℕ) : (es[i]?).map BitReflogEntry.newOid = (us[i]?).map Update.oid := by
  rw [← List.getElem?_map,h.newOids,List.getElem?_map]

end Records

/-- Runs of successful updates of the branch `b`, each of which meets the condition `P` in the state before it. The log of
`b` is not there at the start; between the updates anything but this log may change. -/
inductive Run (P : Update → Fs → Prop) (b : SymbolicRef) : List Update → Fs → Prop
  | start (fs : Fs) (h : fs.files (location (joinLog b.path)) = none) : Run P b [] fs
  | step {us : List Update} {fs fs₁ fs' : Fs} (u : Update) (run : Run P b us fs)
    (hother : fs₁.files (location (joinLog b.path)) = fs.files (location (joinLog b.path))) (hP : P u fs₁)
    (hvalue : newValue u.env b u.target fs₁ = .ok u.oid) (hupdate : update u.env b u.target u.cause fs₁ = .ok () fs')
  : Run P b (us++[u]) fs'

/-- The log that is read back has an entry for each update, and a revision of the branch finds each of its values. -/
structure Faithful (b : SymbolicRef) (us : List Update) (fs : Fs) : Prop where
  log : ∃ lock, readReflog b fs = .ok lock ∧ Records IndexFile.Oid.UNKNOWN us lock.data.entries
  revision : ∀ env, ∀ n < us.length, ∃ u, us[us.length-1-n]? = some u ∧
    resolveReflogRev env (.Symbolic b) n fs = .ok (.Direct u.oid)

/-- The names and emails of which a run may be made. -/
structure Update.Bracketless (u : Update) : Prop where
  name : ∀ name ∈ u.env.name, '<' ∉ name ∧ '>' ∉ name
  email : ∀ email ∈ u.env.email, '<' ∉ email ∧ '>' ∉ email

/-- The updates whose entry is one line of the log, split where it should be. -/
structure Update.OneLine (u : Update) : Prop where
  name : ∀ name ∈ u.env.name, '\n' ∉ name ∧ '\t' ∉ name
  email : ∀ email ∈ u.env.email, '\n' ∉ email ∧ '\t' ∉ email
  message : '\n' ∉ u.cause.display ∧ u.cause.display.getLast? ≠ some '\r'

theorem plain_of_update {u : Update} (hbrackets : u.Bracketless) (hline : u.OneLine) {committer : BitSignature}
    (h : userSignature u.env = .ok committer) (oldOid newOid : Oid) :
    (BitReflogEntry.mk oldOid newOid committer u.cause.display).Plain := by
  unfold userSignature at h
  split at h
  · rename_i name email hname hemail
    cases h
    obtain ⟨hname₁,hname₂⟩ := hline.name name hname
    obtain ⟨hemail₁,hemail₂⟩ := hline.email email hemail
    have hoffset := u.env.now_offset
    exact ⟨⟨⟨hbrackets.name name hname,hbrackets.email email hemail,by simp only; omega⟩,hname₁,hemail₁⟩,
      ⟨hname₂,hemail₂⟩,hline.message⟩
  · cases h

/-- The log of `HEAD` is not the one of the branch: it is, for a branch with the name `HEAD` in a store without a `HEAD`. -/
def HeadApart (b : SymbolicRef) (fs : Fs) : Prop :=
  location b.path ≠ location "refs/heads/HEAD".toList ∨ fs.tryExists SymbolicRef.HEAD.path = .ok true

/-! ### One update -/

theorem reads_eq_ok {α : Type} {f : Fs → Except Error α} {fs fs' : Fs} {a : α} :
    reads f fs = .ok a fs' ↔ f fs = .ok a ∧ fs' = fs := by
  unfold reads
  cases f fs with
  | error e => simp [ended]
  | ok b => simp [ended,eq_comm]

section Step
variable {env : Env} {sym : SymbolicRef} {target : BitRef} {cause : RefUpdateCause} {fs fs' : Fs} {oid : Oid}

/-- A log that was written, or nothing. -/
inductive HeadLogged (fs : Fs) (oid : Oid) (committer : BitSignature) (msg : Text) : Fs → Prop
  | not : HeadLogged fs oid committer msg fs
  | logged (lock : Filelock) (h : readReflog SymbolicRef.HEAD fs = .ok lock) :
    HeadLogged fs oid committer msg (fs.withEntry lock oid committer msg)

theorem log_eq_ok {committer : BitSignature} {msg : Text} (h : log sym oid committer msg fs = .ok () fs') :
    ∃ lock, readReflog sym fs = .ok lock ∧ fs' = fs.withEntry lock oid committer msg := by
  obtain ⟨lock,fs₁,hread,hwrite⟩ := bind_ok.mp h
  obtain ⟨hlock,rfl⟩ := reads_eq_ok.mp hread
  cases hwrite
  exact ⟨lock,hlock,rfl⟩

theorem record_eq_ok (h : record env sym target cause fs = .ok () fs') (hvalue : fullyResolve env target fs = .ok oid) :
    ∃ committer fs₁ lock, userSignature env = .ok committer ∧ HeadLogged fs oid committer cause.display fs₁ ∧
      readReflog sym fs₁ = .ok lock ∧ fs' = fs₁.withEntry lock oid committer cause.display := by
  rw [record,reads_bind_ok hvalue] at h
  obtain ⟨committer,fs₁,hidentity,hrest⟩ := bind_ok.mp h
  obtain ⟨hcommitter,rfl⟩ := reads_eq_ok.mp hidentity
  obtain ⟨head,fs₂,hread,hlogs⟩ := bind_ok.mp hrest
  obtain ⟨hhead,rfl⟩ := reads_eq_ok.mp hread
  split at hlogs
  · obtain ⟨⟨⟩,fs₃,hlogged,hlog⟩ := bind_ok.mp hlogs
    obtain ⟨headLock,hheadLock,rfl⟩ := log_eq_ok hlogged
    obtain ⟨lock,hlock,rfl⟩ := log_eq_ok hlog
    exact ⟨committer,_,lock,hcommitter,.logged headLock hheadLock,hlock,rfl⟩
  · obtain ⟨lock,hlock,rfl⟩ := log_eq_ok hlogs
    exact ⟨committer,_,lock,hcommitter,.not,hlock,rfl⟩

theorem update_eq_ok (h : update env sym target cause fs = .ok () fs') (hvalue : newValue env sym target fs = .ok oid) :
    ∃ validated committer fs₁ lock, fs.openLock sym.path = .ok () ∧ userSignature env = .ok committer ∧
      HeadLogged (fs.withRef sym validated) oid committer cause.display fs₁ ∧
      readReflog sym fs₁ = .ok lock ∧ fs' = fs₁.withEntry lock oid committer cause.display := by
  obtain ⟨validated,hvalid,hvalue⟩ := except_bind_eq_ok.mp hvalue
  cases hlock : fs.openLock sym.path with
  | error e =>
    rw [update_of_refused (Or.inr ⟨⟨validated,hvalid⟩,hlock⟩)] at h
    cases h
  | ok u =>
    rw [update_of_validated hvalid hlock] at h
    obtain ⟨committer,fs₁,lock,hcommitter,hlogged,hlog,hfs⟩ := record_eq_ok h hvalue
    exact ⟨validated,committer,fs₁,lock,rfl,hcommitter,hlogged,hlog,hfs⟩

theorem location_of_branch {b : SymbolicRef} (hb : b.kind = .Branch) : location REFS_HEADS <+: location b.path := by
  unfold SymbolicRef.kind at hb
  split_ifs at hb with hhead hbranch
  exact location_of_startsWith hbranch

/-- What `HEAD` stands for is not the branch. -/
theorem headLog_apart {b expanded : SymbolicRef} (hb : b.kind = .Branch) (hexpand : expandSymref SymbolicRef.HEAD fs = .ok expanded)
    (hapart : HeadApart b fs) : location expanded.path ≠ location b.path := by
  have hbranch := location_of_branch hb
  intro heq
  rw [← heq] at hbranch
  rcases hapart with hname | hhead
  · obtain ⟨base,hbase,hpath⟩ := expandSymref_go_mem hexpand
    rw [← heq] at hname
    rw [hpath] at hbranch hname
    have hnone : ∀ base ∈ PREFIXES, location (join base SymbolicRef.HEAD.path) ≠ location "refs/heads/HEAD".toList →
        ¬location REFS_HEADS <+: location (join base SymbolicRef.HEAD.path) := by decide
    exact hnone base hbase hname hbranch
  · rw [expandSymref_self (by decide) hhead] at hexpand
    cases hexpand
    revert hbranch
    decide

theorem headApart_withRef {b : SymbolicRef} (hb : b.kind = .Branch) (h : HeadApart b fs) (r : BitRef) :
    HeadApart b (fs.withRef b r) := by
  refine h.imp_right fun hhead => tryExists_write hhead (fun hp => ?_) _
  obtain ⟨hpre,hne⟩ := hp
  have hbranch := location_of_branch hb
  exact absurd (hbranch.trans hpre) (by decide)

/-- What is left by an update of a branch: the branch is there, and its log has one entry more. -/
theorem branch_updated {b : SymbolicRef} (hb : b.kind = .Branch) (hlockPath : Fs.lockPath (location (joinLog b.path)) ≠ location (joinLog b.path))
    (hapart : HeadApart b fs) (h : update env b target cause fs = .ok () fs') (hvalue : newValue env b target fs = .ok oid) :
    ∃ committer before, userSignature env = .ok committer ∧
      (fs.files (location (joinLog b.path)) = none ∧ before = .default ∨
        ∃ text, fs.files (location (joinLog b.path)) = some (.utf8 text) ∧ BitReflog.fromStr text = .ok before) ∧
      fs'.files (location (joinLog b.path)) = some (.utf8 (before.append oid committer cause.display).serialize) ∧
      fs'.tryExists b.path = .ok true ∧ fs'.openLock (joinLog b.path) = .ok () := by
  obtain ⟨validated,committer,fs₁,lock,hlock,hcommitter,hlogged,hlog,rfl⟩ := update_eq_ok h hvalue
  have hkind : b.kind ≠ .Unknown := by
    rw [hb]
    decide
  have hexists₂ := tryExists_withRef hlock validated
  have hsame₂ : (fs.withRef b validated).files (location (joinLog b.path)) = fs.files (location (joinLog b.path)) :=
    Function.update_of_ne (location_ne_joinLog hkind b.path).symm _ _
  obtain ⟨hexists₁,hsame₁⟩ : fs₁.tryExists b.path = .ok true ∧
      fs₁.files (location (joinLog b.path)) = fs.files (location (joinLog b.path)) := by
    cases hlogged with
    | not => exact ⟨hexists₂,hsame₂⟩
    | logged headLock hheadLog =>
      obtain ⟨expanded,hexpand,hpath,-,-⟩ := readReflog_eq_ok hheadLog
      have hother : location (joinLog b.path) ≠ headLock.path := by
        rw [hpath,location_joinLog,location_joinLog]
        intro heq
        exact headLog_apart hb hexpand (headApart_withRef hb hapart validated) (List.cons.inj heq).2.symm
      refine ⟨?_,?_⟩
      · rw [Fs.withEntry,hpath]
        exact tryExists_writeLog hkind hexists₂ expanded.path _
      · rw [Fs.withEntry,Fs.write_files,Function.update_of_ne hother,hsame₂]
  obtain ⟨expanded,hexpand,hpath,hopen,hdata⟩ := readReflog_eq_ok hlog
  rw [expandSymref_self hkind hexists₁] at hexpand
  cases hexpand
  rw [hpath,hsame₁] at hdata
  refine ⟨committer,lock.data,hcommitter,hdata,?_,?_,?_⟩ <;> rw [Fs.withEntry,hpath]
  · exact Function.update_self _ _ _
  · exact tryExists_writeLog hkind hexists₁ b.path _
  · exact openLock_write_self hopen hlockPath _

end Step



/-! ### Runs -/

section Runs
variable {b : SymbolicRef} {us : List Update} {fs : Fs}

/-- The updates that the log can hold. -/
def Good (b : SymbolicRef) (u : Update) (fs : Fs) : Prop := u.Bracketless ∧ u.OneLine ∧ HeadApart b fs

/-- In a run the log holds the entries of the updates, and they can be read back. -/
theorem Run.log (hb : b.kind = .Branch) (hname : Fs.lockPath (location (joinLog b.path)) ≠ location (joinLog b.path))
    (run : Run (Good b) b us fs) :
    ∃ es, Records IndexFile.Oid.UNKNOWN us es ∧ (∀ e ∈ es, e.Plain) ∧
      (es = [] ∧ fs.files (location (joinLog b.path)) = none ∨
        fs.files (location (joinLog b.path)) = some (.utf8 (BitReflog.mk es).serialize)) := by
  induction run with
  | start fs h => exact ⟨[],trivial,by simp,Or.inl ⟨rfl,h⟩⟩
  | @step us fs fs₁ fs' u run hother hgood hvalue hupdate ih =>
    obtain ⟨es,hrecords,hplain,hfile⟩ := ih
    obtain ⟨hbrackets,hline,hapart⟩ := hgood
    obtain ⟨committer,before,hcommitter,hbefore,hafter,-,-⟩ := branch_updated hb hname hapart hupdate hvalue
    have hread : before = ⟨es⟩ := by
      rw [hother] at hbefore
      rcases hfile with ⟨rfl,hnone⟩ | hsome
      · rw [hnone] at hbefore
        rcases hbefore with ⟨-,hdefault⟩ | ⟨text,htext,-⟩
        · exact hdefault
        · cases htext
      · rw [hsome] at hbefore
        rcases hbefore with ⟨hnone,-⟩ | ⟨text,htext,hparse⟩
        · cases hnone
        · cases htext
          exact Except.ok.inj (hparse.symm.trans (BitReflog.fromStr_serialize hplain))
    subst hread
    refine ⟨(BitReflog.append ⟨es⟩ u.oid committer u.cause.display).entries,hrecords.concat ?_ rfl hcommitter rfl,?_,Or.inr hafter⟩
    · unfold BitReflog.lastOid
      simp only
      cases es.getLast? <;> rfl
    · intro e he
      rcases List.mem_append.mp he with he | he
      · exact hplain e he
      · rw [List.mem_singleton.mp he]
        exact plain_of_update hbrackets hline hcommitter _ _

/-- In a run of updates that each fit on a line of the log, the log is faithful after each of them. -/
theorem Run.faithful (hb : b.kind = .Branch) (hname : Fs.lockPath (location (joinLog b.path)) ≠ location (joinLog b.path))
    (run : Run (Good b) b us fs) (hne : us ≠ []) : Faithful b us fs := by
  obtain ⟨es,hrecords,hplain,hfile⟩ := run.log hb hname
  have hlength := hrecords.length
  obtain ⟨hexists,hopen⟩ : fs.tryExists b.path = .ok true ∧ fs.openLock (joinLog b.path) = .ok () := by
    cases run with
    | start fs h => exact absurd rfl hne
    | step u run hother hgood hvalue hupdate =>
      obtain ⟨-,-,-,-,-,hexists,hopen⟩ := branch_updated hb hname hgood.2.2 hupdate hvalue
      exact ⟨hexists,hopen⟩
  have hkind : b.kind ≠ .Unknown := by
    rw [hb]
    decide
  have hexpand := expandSymref_self hkind hexists
  have hfile : fs.files (location (joinLog b.path)) = some (.utf8 (BitReflog.mk es).serialize) := by
    rcases hfile with ⟨rfl,-⟩ | hfile
    · exact absurd (List.length_eq_zero_iff.mp hlength.symm) hne
    · exact hfile
  have hlog : readReflog b fs = .ok ⟨location (joinLog b.path),⟨es⟩⟩ := by
    simp only [readReflog,hexpand,bind,Except.bind,hopen,hfile,BitReflog.fromStr_serialize hplain,Except.mapError]
  refine ⟨⟨_,hlog,hrecords⟩,fun env n hn => ?_⟩
  have hother : BitRef.Symbolic b ≠ BitRef.HEAD := by
    intro heq
    cases heq
    exact absurd hb (by decide)
  have hindex : us.length-1-n < us.length := by omega
  have hentry : us.length-1-n < es.length := by omega
  refine ⟨us[us.length-1-n],List.getElem?_eq_getElem hindex,?_⟩
  have hoid : (es[us.length-1-n]).newOid = (us[us.length-1-n]).oid := by
    have h := hrecords.newOid (us.length-1-n)
    rw [List.getElem?_eq_getElem hentry,List.getElem?_eq_getElem hindex] at h
    exact Option.some.inj h
  have hget : (BitReflog.mk es).get n = some (es[us.length-1-n]) := by
    have hle : ¬es.length ≤ n := by omega
    rw [BitReflog.get,BitReflog.len,if_neg hle,show es.length-n-1 = us.length-1-n by omega,List.getElem?_eq_getElem hentry]
  have hvalid : validate env (.Symbolic b) fs = .ok (.Symbolic b) := by
    rw [validate,hexpand]
    rfl
  simp only [resolveReflogRev,if_neg hother,hvalid,bind,Except.bind,hlog,hget,hoid]

end Runs

theorem ok_of_outcome {x : EStateM.Result Error Fs Unit} (h : outcome x = .ok ()) : x = .ok () (final x) := by
  cases x with
  | ok u fs => rfl
  | error e fs => cases h

def sampleUpdate (subject : Text) : Update :=
  ⟨sampleEnv (some "a".toList),.Direct sampleOid,.Commit subject .Normal,sampleOid⟩

/-- The files after a commit on the branch. -/
def committed (subject : Text) : Fs :=
  final (update (sampleEnv (some "a".toList)) sampleBranch (.Direct sampleOid) (.Commit subject .Normal) sampleFs)

theorem run_committed {P : Update → Fs → Prop} (subject : Text) (hP : P (sampleUpdate subject) sampleFs)
    (h : outcome (update (sampleEnv (some "a".toList)) sampleBranch (.Direct sampleOid) (.Commit subject .Normal) sampleFs) =
      .ok ()) :
    Run P sampleBranch [sampleUpdate subject] (committed subject) :=
  .step (sampleUpdate subject) (.start sampleFs (by decide)) rfl hP
    (by
      show newValue (sampleEnv (some "a".toList)) sampleBranch (.Direct sampleOid) sampleFs = .ok sampleOid
      decide +kernel)
    (ok_of_outcome h)

theorem bracketless_sample (subject : Text) : (sampleUpdate subject).Bracketless := by
  have hname : '<' ∉ "a".toList ∧ '>' ∉ "a".toList := by decide
  exact ⟨fun name h => Option.some.inj h ▸ hname,fun email h => Option.some.inj h ▸ hname⟩

theorem faithful_sample : Faithful sampleBranch [sampleUpdate "fix".toList] (committed "fix".toList) := by
  have hline : (sampleUpdate "fix".toList).OneLine := by
    have hname : '\n' ∉ "a".toList ∧ '\t' ∉ "a".toList := by decide
    exact ⟨fun name h => Option.some.inj h ▸ hname,fun email h => Option.some.inj h ▸ hname,by decide⟩
  exact Run.faithful (by decide) (by decide)
    (run_committed "fix".toList ⟨bracketless_sample _,hline,Or.inl (by decide)⟩ (by decide +kernel)) (List.cons_ne_nil _ _)

/-- A subject of two lines leaves a log that cannot be read any more. -/
theorem unfaithful_sample :
    Run (fun u _ => u.Bracketless) sampleBranch [sampleUpdate "a\nb".toList] (committed "a\nb".toList) ∧
      readReflog sampleBranch (committed "a\nb".toList) = .error (.reflog .unwrap) ∧
      ¬Faithful sampleBranch [sampleUpdate "a\nb".toList] (committed "a\nb".toList) := by
  have hread : readReflog sampleBranch (committed "a\nb".toList) = .error (.reflog .unwrap) := by decide +kernel
  refine ⟨run_committed "a\nb".toList (bracketless_sample _) (by decide +kernel),hread,fun h => ?_⟩
  obtain ⟨lock,hlock,-⟩ := h.log
  rw [hread] at hlock
  cases hlock

end Refs
end Libbit
