import Libbit.Refs

/-! What a failed update leaves behind (`refs/refdb.rs`): the ref itself is written first, and then the update can fail in
five more places. -/
namespace Libbit
namespace Refs

open Lib
open CommitFormat (BitSignature)

section Reads
variable {α β : Type} {f : Fs → Except Error α} {k : α → Io β} {fs : Fs}

theorem reads_bind_ok {a : α} (h : f fs = .ok a) : (reads f >>= k) fs = k a fs := bind_of_ok (by rw [reads,h]; rfl)

theorem reads_bind_error {e : Error} (h : f fs = .error e) : (reads f >>= k) fs = .error e fs :=
  bind_of_error (by rw [reads,h]; rfl)

end Reads

/-! ### Where refs and logs are -/

theorem location_eq (s : Text) : location s = (s.splitOn '/').filter fun n => n ≠ [] ∧ n ≠ ['.'] := by
  obtain ⟨first,rest,hparts⟩ := List.exists_cons_of_ne_nil (List.splitOn_ne_nil '/' s)
  have hrest : (rest.filter fun n => n ≠ [] ∧ n ≠ ['.']).filter (· ≠ ['.']) = rest.filter fun n => n ≠ [] ∧ n ≠ ['.'] := by
    refine List.filter_eq_self.mpr fun n hn => ?_
    have hkept : n ≠ [] ∧ n ≠ ['.'] := of_decide_eq_true (List.mem_filter.mp hn).2
    exact decide_eq_true hkept.2
  rw [location,components,hparts]
  simp only [List.filter_append,hrest]
  by_cases hfirst : first = []
  · simp [hfirst]
  · by_cases hdot : first = ['.'] <;> simp [hfirst,hdot]

theorem location_joinLog (s : Text) : location (joinLog s) = "logs".toList::location s := by
  have hsplit : ("logs".toList++ '/'::s).splitOn '/' = "logs".toList::s.splitOn '/' :=
    List.splitOn_append_cons_self_of_not_mem (by decide) s
  rw [location_eq,location_eq,joinLog,join,if_neg (by decide),hsplit]
  rfl

theorem location_of_startsWith {s base : Text} (h : startsWith s base = true) : location base <+: location s := by
  obtain ⟨rest,hrest⟩ := List.isPrefixOf_iff_prefix.mp h
  rw [location,location,← hrest,List.filter_append]
  exact List.prefix_append _ _

/-- A ref of a known kind is not among the logs. -/
theorem head?_location_ne {sym : SymbolicRef} (h : sym.kind ≠ .Unknown) : (location sym.path).head? ≠ some "logs".toList := by
  have hstarts {base : Text} (hbase : (location base).head? = some "refs".toList) (hpath : startsWith sym.path base = true) :
      (location sym.path).head? = some "refs".toList := by
    obtain ⟨rest,hrest⟩ := location_of_startsWith hpath
    rw [← hrest,List.head?_append,hbase]
    rfl
  have hhead : (location sym.path).head? = some "HEAD".toList ∨ (location sym.path).head? = some "refs".toList := by
    unfold SymbolicRef.kind at h
    split_ifs at h with h₁ h₂ h₃ h₄ h₅
    · rw [h₁]
      exact Or.inl (by decide)
    · exact Or.inr (hstarts (by decide) h₂)
    · exact Or.inr (hstarts (by decide) h₃)
    · exact Or.inr (hstarts (by decide) h₄)
    · rw [h₅]
      exact Or.inr (by decide)
    · exact absurd rfl h
  rcases hhead with hhead | hhead <;> rw [hhead] <;> decide

theorem location_ne_joinLog {sym : SymbolicRef} (h : sym.kind ≠ .Unknown) (s : Text) :
    location sym.path ≠ location (joinLog s) := by
  intro heq
  refine head?_location_ne h ?_
  rw [heq,location_joinLog]
  rfl

section Write
variable {fs : Fs} {p q : Path} {s : Text}

theorem isSome_write (content : Content) (h : (fs.files q).isSome) : ((fs.write p content).files q).isSome := by
  by_cases hqp : q = p
  · rw [hqp,Fs.write_files,Function.update_self]
    rfl
  · rwa [Fs.write_files,Function.update_of_ne hqp]

theorem isDir_mono (content : Content) (h : fs.isDir q = true) : (fs.write p content).isDir q = true := by
  refine decide_eq_true ((of_decide_eq_true h).imp_right (Or.imp_right ?_))
  rintro ⟨r,hr,hfile,hne,hpre⟩
  exact ⟨r,List.mem_cons_of_mem p hr,isSome_write content hfile,hne,hpre⟩

theorem tryExists_eq_false : fs.tryExists s = .ok false ↔
    fs.blocked (location s) = false ∧ fs.files (location s) = none ∧ fs.isDir (location s) = false := by
  unfold Fs.tryExists
  cases hblocked : fs.blocked (location s) <;> simp

/-- What is not there once a file is written was not there before. -/
theorem absent_of_write {content : Content} (h : (fs.write p content).tryExists s = .ok false) : fs.tryExists s = .ok false := by
  obtain ⟨hblocked,hfile,hdir⟩ := tryExists_eq_false.mp h
  refine tryExists_eq_false.mpr ⟨?_,?_,?_⟩
  · refine Bool.eq_false_iff.mpr fun hblocks => Bool.eq_false_iff.mp hblocked ?_
    obtain ⟨q,hq,hne,hsome⟩ := of_decide_eq_true hblocks
    exact decide_eq_true ⟨q,hq,hne,isSome_write content hsome⟩
  · by_contra hsome
    have hwritten := isSome_write (p := p) content (Option.isSome_iff_ne_none.mpr hsome)
    rw [hfile] at hwritten
    cases hwritten
  · exact Bool.eq_false_iff.mpr fun hmono => Bool.eq_false_iff.mp hdir (isDir_mono content hmono)

end Write

section Expand
variable {fs : Fs} {sym expanded : SymbolicRef}

theorem newValid_eq_ok {path : Text} (h : newValid path = .ok expanded) : expanded.kind ≠ .Unknown := by
  unfold newValid at h
  split at h
  · cases h
  · cases h
    assumption

theorem expandSymref_go_kind {bases : List Text} (h : expandSymref.go sym fs bases = .ok expanded) :
    expanded.kind ≠ .Unknown := by
  induction bases with
  | nil => cases h
  | cons base bases ih =>
    rw [expandSymref.go] at h
    cases hexists : fs.tryExists (join base sym.path) with
    | error e =>
      rw [hexists] at h
      cases h
    | ok b =>
      rw [hexists] at h
      cases b with
      | false => exact ih h
      | true => exact newValid_eq_ok h

/-- What a symbolic reference expands to is of a known kind. -/
theorem expandSymref_kind (h : expandSymref sym fs = .ok expanded) : expanded.kind ≠ .Unknown := expandSymref_go_kind h

/-- A ref with a file of its own is not expanded any further. -/
theorem expandSymref_of_exists (h : fs.tryExists sym.path = .ok true) : expandSymref sym fs = newValid sym.path := by
  rw [expandSymref,PREFIXES,expandSymref.go]
  show (fs.tryExists sym.path >>= fun b => _) = _
  rw [h]
  rfl

theorem expandSymref_go_missing {bases : List Text} (h : expandSymref.go sym fs bases = .error (.nonExistentSymRef expanded)) :
    expanded = sym ∧ ∀ base ∈ bases, fs.tryExists (join base sym.path) = .ok false := by
  induction bases with
  | nil =>
    cases h
    simp
  | cons base bases ih =>
    rw [expandSymref.go] at h
    cases hexists : fs.tryExists (join base sym.path) with
    | error e =>
      rw [hexists] at h
      unfold Fs.tryExists at hexists
      split at hexists
      · cases hexists
        cases h
      · cases hexists
    | ok b =>
      rw [hexists] at h
      cases b with
      | false =>
        obtain ⟨heq,hall⟩ := ih h
        refine ⟨heq,fun base' hbase' => ?_⟩
        rcases List.mem_cons.mp hbase' with rfl | hbase'
        · exact hexists
        · exact hall base' hbase'
      | true =>
        have hvalid : newValid (join base sym.path) = .error (.nonExistentSymRef expanded) := h
        unfold newValid at hvalid
        split at hvalid <;> cases hvalid

theorem expandSymref_missing (h : expandSymref sym fs = .error (.nonExistentSymRef expanded)) :
    expanded = sym ∧ fs.tryExists sym.path = .ok false := by
  obtain ⟨heq,hall⟩ := expandSymref_go_missing h
  exact ⟨heq,hall [] List.mem_cons_self⟩

theorem openLock_ne_missing {s : Text} : fs.openLock s ≠ .error (.nonExistentSymRef expanded) := by
  unfold Fs.openLock
  split_ifs <;> simp

/-- The ref that does not exist, where reading one ends with that. -/
theorem read_missing {env : Env} (h : read env sym fs = .error (.nonExistentSymRef expanded)) :
    fs.tryExists expanded.path = .ok false := by
  have hexpand {fs : Fs} {s : SymbolicRef} (hs : expandSymref s fs = .error (.nonExistentSymRef expanded)) :
      fs.tryExists expanded.path = .ok false := by
    obtain ⟨rfl,hmissing⟩ := expandSymref_missing hs
    exact hmissing
  rcases except_bind_eq_error.mp h with h | ⟨path,-,h⟩
  · exact hexpand h
  rcases except_bind_eq_error.mp h with h | ⟨-,-,h⟩
  · exact absurd h openLock_ne_missing
  split at h
  · cases h
  · cases h
  · -- the ref that it points at
    unfold validate at h
    split at h
    · rcases except_bind_eq_error.mp h with h | ⟨-,-,h⟩
      · cases hobject : env.ensureObjIsCommit _ <;> rw [hobject] at h <;> cases h
      · cases h
    · rename_i s _
      cases hs : expandSymref s (fs.withLock path.path) with
      | error e =>
        rw [hs] at h
        cases h
        exact absent_of_write (hexpand hs)
      | ok path =>
        rw [hs] at h
        cases h

theorem validate_symbolic {env : Env} {r : BitRef} (h : validate env r fs = .ok (.Symbolic sym)) : sym.kind ≠ .Unknown := by
  unfold validate at h
  split at h
  · obtain ⟨-,-,h⟩ := except_bind_eq_ok.mp h
    cases h
  · rename_i s
    cases hs : expandSymref s fs with
    | error e =>
      rw [hs] at h
      cases h
    | ok path =>
      rw [hs] at h
      cases h
      exact expandSymref_kind hs

/-- `HEAD` points at a ref of a known kind, if that ref exists. -/
theorem readHead_kind {env : Env} (h : readHead env fs = .ok (.Symbolic sym)) (hexists : fs.tryExists sym.path = .ok true) :
    sym.kind ≠ .Unknown := by
  unfold readHead catchNonExistent at h
  split at h
  · rename_i missing hread
    cases h
    have hmissing := read_missing hread
    rw [hexists] at hmissing
    cases hmissing
  · obtain ⟨path,-,h⟩ := except_bind_eq_ok.mp h
    obtain ⟨-,-,h⟩ := except_bind_eq_ok.mp h
    split at h
    · cases h
    · cases h
    · exact validate_symbolic h

/-- The log that is locked is the one of a ref of a known kind. -/
theorem readReflog_eq_ok {lock : Filelock} (h : readReflog sym fs = .ok lock) :
    ∃ expanded : SymbolicRef, expandSymref sym fs = .ok expanded ∧ lock.path = location (joinLog expanded.path) ∧
      fs.openLock (joinLog expanded.path) = .ok () ∧
      (fs.files lock.path = none ∧ lock.data = .default ∨
        ∃ text, fs.files lock.path = some (.utf8 text) ∧ BitReflog.fromStr text = .ok lock.data) := by
  obtain ⟨expanded,hexpand,h⟩ := except_bind_eq_ok.mp h
  obtain ⟨⟨⟩,hlock,h⟩ := except_bind_eq_ok.mp h
  refine ⟨expanded,hexpand,?_⟩
  split at h
  · rename_i hfile
    cases h
    exact ⟨rfl,hlock,Or.inl ⟨hfile,rfl⟩⟩
  · cases h
  · rename_i text hfile
    obtain ⟨data,hdata,h⟩ := except_bind_eq_ok.mp h
    cases h
    refine ⟨rfl,hlock,Or.inr ⟨text,hfile,?_⟩⟩
    cases hparse : BitReflog.fromStr text with
    | error e =>
      rw [hparse] at hdata
      cases hdata
    | ok l =>
      rw [hparse] at hdata
      cases hdata
      rfl

end Expand

/-! ### A log that is written is another text -/

section Append
variable {l : BitReflog} {text : Text}

theorem length_of_fromStr (h : BitReflog.fromStr text = .ok l) : l.entries.length = (lines text).length := by
  obtain ⟨entries,hentries,h⟩ := except_bind_eq_ok.mp h
  cases h
  exact length_of_mapM hentries

theorem length_le_count (l : BitReflog) : l.entries.length ≤ l.serialize.count '\n' := by
  obtain ⟨entries⟩ := l
  induction entries with
  | nil => exact Nat.zero_le _
  | cons e entries ih =>
    have hline : 1 ≤ e.serialize.count '\n' := by
      rw [BitReflogEntry.serialize,List.count_append]
      exact Nat.le_add_left 1 _
    have htext : (BitReflog.mk (e::entries)).serialize = e.serialize++(BitReflog.mk entries).serialize := rfl
    rw [htext,List.count_append,List.length_cons]
    exact (Nat.add_comm _ _).trans_le (Nat.add_le_add hline ih)

theorem serialize_append_ne (h : BitReflog.fromStr text = .ok l) (newOid : Oid) (committer : BitSignature) (msg : Text) :
    (l.append newOid committer msg).serialize ≠ text := by
  intro heq
  have hcount := length_le_count (l.append newOid committer msg)
  have hlength : (l.append newOid committer msg).entries.length = l.entries.length+1 := List.length_append
  have hlines := count_le_length_lines text
  have hparsed := length_of_fromStr h
  rw [heq] at hcount
  omega

end Append

/-! ### What a failed update leaves behind -/

/-- Every ref and every reflog holds what it held. -/
def Unchanged (fs fs' : Fs) : Prop := ∀ sym : SymbolicRef,
  fs'.files (location sym.path) = fs.files (location sym.path) ∧
    fs'.files (location (joinLog sym.path)) = fs.files (location (joinLog sym.path))

/-- The files once `sym` holds the reference. -/
def Fs.withRef (fs : Fs) (sym : SymbolicRef) (r : BitRef) : Fs := fs.write (location sym.path) (.utf8 r.serialize)

/-- The files once the log that is locked has the entry. -/
def Fs.withEntry (fs : Fs) (lock : Filelock) (newOid : Oid) (committer : BitSignature) (msg : Text) : Fs :=
  fs.write lock.path (.utf8 (lock.data.append newOid committer msg).serialize)

/-- The ways in which an update returns an error after `sym` has its new value, from the files as they are by then; and
whether `HEAD`'s log was written before that. -/
inductive LateFailure (env : Env) (sym : SymbolicRef) (target : BitRef) (cause : RefUpdateCause) (fs : Fs) : Bool → Prop
  | target {e : Error} (h : fullyResolve env target fs = .error e) (he : e.returned)
  : LateFailure env sym target cause fs false
  | identity {oid : Oid} (htarget : fullyResolve env target fs = .ok oid) (h : env.name = none ∨ env.email = none)
  : LateFailure env sym target cause fs false
  | head {oid : Oid} {committer : BitSignature} {e : Error} (htarget : fullyResolve env target fs = .ok oid)
    (hidentity : userSignature env = .ok committer) (h : readHead env fs = .error e) (he : e.returned)
  : LateFailure env sym target cause fs false
  | headLog {oid : Oid} {committer : BitSignature} {e : Error} (htarget : fullyResolve env target fs = .ok oid)
    (hidentity : userSignature env = .ok committer) (hhead : readHead env fs = .ok (.Symbolic sym))
    (h : readReflog SymbolicRef.HEAD fs = .error e) (he : e.returned)
  : LateFailure env sym target cause fs false
  | log {oid : Oid} {committer : BitSignature} {head : BitRef} {e : Error} (htarget : fullyResolve env target fs = .ok oid)
    (hidentity : userSignature env = .ok committer) (hhead : readHead env fs = .ok head) (hne : head ≠ .Symbolic sym)
    (h : readReflog sym fs = .error e) (he : e.returned)
  : LateFailure env sym target cause fs false
  | logAfterHead {oid : Oid} {committer : BitSignature} {lock : Filelock} {e : Error}
    (htarget : fullyResolve env target fs = .ok oid) (hidentity : userSignature env = .ok committer)
    (hhead : readHead env fs = .ok (.Symbolic sym)) (hlock : readReflog SymbolicRef.HEAD fs = .ok lock)
    (h : readReflog sym (fs.withEntry lock oid committer cause.display) = .error e) (he : e.returned)
  : LateFailure env sym target cause fs true

/-- What an update does after `sym` has its new value. -/
def record (env : Env) (sym : SymbolicRef) (target : BitRef) (cause : RefUpdateCause) : Io Unit := do
  let newOid ← reads (fullyResolve env target)
  let committer ← reads fun _ => userSignature env
  let head ← reads (readHead env)
  if head = .Symbolic sym then log SymbolicRef.HEAD newOid committer cause.display
  log sym newOid committer cause.display

section Update
variable {env : Env} {sym : SymbolicRef} {target : BitRef} {cause : RefUpdateCause} {fs fs' : Fs}

theorem log_ok {lock : Filelock} (h : readReflog sym fs = .ok lock) (newOid : Oid) (committer : BitSignature) (msg : Text) :
    log sym newOid committer msg fs = .ok () (fs.withEntry lock newOid committer msg) :=
  (reads_bind_ok h).trans rfl

theorem log_error {e : Error} (h : readReflog sym fs = .error e) (newOid : Oid) (committer : BitSignature) (msg : Text) :
    log sym newOid committer msg fs = .error e fs := reads_bind_error h

theorem update_of_validated {validated : BitRef} (hvalid : validate env target fs = .ok validated)
    (hlock : fs.openLock sym.path = .ok ()) :
    update env sym target cause fs = record env sym target cause (fs.withRef sym validated) := by
  have hset : setRef env sym target fs = .ok () (fs.withRef sym validated) :=
    (reads_bind_ok hvalid).trans ((reads_bind_ok hlock).trans rfl)
  exact (bind_of_ok hset).trans rfl

theorem update_of_refused {e : Error} (h : validate env target fs = .error e ∨
    (∃ validated, validate env target fs = .ok validated) ∧ fs.openLock sym.path = .error e) :
    update env sym target cause fs = .error e fs := by
  refine bind_of_error ?_
  rcases h with h | ⟨⟨validated,hvalid⟩,h⟩
  · exact reads_bind_error h
  · exact (reads_bind_ok hvalid).trans (reads_bind_error h)

theorem userSignature_eq_error {e : Error} (h : userSignature env = .error e) :
    (env.name = none ∨ env.email = none) ∧ e.returned := by
  unfold userSignature at h
  split at h
  · cases h
  · rename_i hmissing
    cases h
    refine ⟨?_,rfl⟩
    cases hname : env.name with
    | none => exact Or.inl rfl
    | some name =>
      cases hemail : env.email with
      | none => exact Or.inr rfl
      | some email => exact absurd hemail (hmissing name email hname)

theorem userSignature_eq_ok {committer : BitSignature} (h : userSignature env = .ok committer) :
    ¬(env.name = none ∨ env.email = none) := by
  unfold userSignature at h
  split at h
  · rename_i hname hemail
    simp [hname,hemail]
  · cases h

/-- How the part after the ref is written ends: in success, in a failure that has written nothing, or in one that has
written the log that `lock` holds. -/
inductive Ending (env : Env) (sym : SymbolicRef) (target : BitRef) (cause : RefUpdateCause) (fs : Fs) :
    EStateM.Result Error Fs Unit → Prop
  | success (fs' : Fs) (h : ∀ b, ¬LateFailure env sym target cause fs b) : Ending env sym target cause fs (.ok () fs')
  | kept (e : Error) (h : ∀ b, LateFailure env sym target cause fs b ↔ e.returned ∧ b = false) :
    Ending env sym target cause fs (.error e fs)
  | logged (e : Error) (lock : Filelock) (oid : Oid) (committer : BitSignature)
    (hhead : readHead env fs = .ok (.Symbolic sym)) (hlock : readReflog SymbolicRef.HEAD fs = .ok lock)
    (h : ∀ b, LateFailure env sym target cause fs b ↔ e.returned ∧ b = true) :
    Ending env sym target cause fs (.error e (fs.withEntry lock oid committer cause.display))

theorem record_ending (env : Env) (sym : SymbolicRef) (target : BitRef) (cause : RefUpdateCause) (fs : Fs) :
    Ending env sym target cause fs (record env sym target cause fs) := by
  cases htarget : fullyResolve env target fs with
  | error e =>
    rw [record,reads_bind_error htarget]
    refine .kept e fun b => ⟨fun h => ?_,fun ⟨he,hb⟩ => hb ▸ .target htarget he⟩
    cases h <;> simp_all
  | ok oid =>
    rw [record,reads_bind_ok htarget]
    cases hidentity : userSignature env with
    | error e =>
      obtain ⟨hmissing,he⟩ := userSignature_eq_error hidentity
      rw [reads_bind_error rfl]
      refine .kept e fun b => ⟨fun h => ?_,fun ⟨_,hb⟩ => hb ▸ .identity htarget hmissing⟩
      cases h <;> simp_all
    | ok committer =>
      have hnamed := userSignature_eq_ok hidentity
      rw [reads_bind_ok (f := fun _ => Except.ok committer) rfl]
      cases hhead : readHead env fs with
      | error e =>
        rw [reads_bind_error hhead]
        refine .kept e fun b => ⟨fun h => ?_,fun ⟨he,hb⟩ => hb ▸ .head htarget hidentity hhead he⟩
        cases h <;> simp_all
      | ok head =>
        rw [reads_bind_ok hhead]
        by_cases hsym : head = .Symbolic sym
        · subst hsym
          rw [if_pos rfl]
          cases hlock : readReflog SymbolicRef.HEAD fs with
          | error e =>
            rw [bind_of_error (log_error hlock _ _ _)]
            refine .kept e fun b => ⟨fun h => ?_,fun ⟨he,hb⟩ => hb ▸ .headLog htarget hidentity hhead hlock he⟩
            cases h <;> simp_all
          | ok lock =>
            rw [bind_of_ok (log_ok hlock _ _ _)]
            show Ending env sym target cause fs
              (log sym oid committer cause.display (fs.withEntry lock oid committer cause.display))
            cases hlog : readReflog sym (fs.withEntry lock oid committer cause.display) with
            | error e =>
              rw [log_error hlog]
              refine .logged e lock oid committer hhead hlock fun b => ⟨fun h => ?_,fun ⟨he,hb⟩ =>
                hb ▸ .logAfterHead htarget hidentity hhead hlock hlog he⟩
              cases h <;> simp_all
            | ok lock' =>
              rw [log_ok hlog]
              refine .success _ fun b h => ?_
              cases h <;> simp_all
        · rw [if_neg hsym]
          show Ending env sym target cause fs (log sym oid committer cause.display fs)
          cases hlog : readReflog sym fs with
          | error e =>
            rw [log_error hlog]
            refine .kept e fun b => ⟨fun h => ?_,fun ⟨he,hb⟩ => hb ▸ .log htarget hidentity hhead hsym hlog he⟩
            cases h <;> simp_all
          | ok lock =>
            rw [log_ok hlog]
            refine .success _ fun b h => ?_
            cases h <;> simp_all

theorem blocked_write_self (fs : Fs) (p : Path) (content : Content) : (fs.write p content).blocked p = fs.blocked p := by
  refine decide_eq_decide.mpr (exists_congr fun q => and_congr_right fun _ => and_congr_right fun hq => ?_)
  rw [Fs.write_files,Function.update_of_ne hq]

theorem tryExists_withRef (hlock : fs.openLock sym.path = .ok ()) (r : BitRef) :
    (fs.withRef sym r).tryExists sym.path = .ok true := by
  have hfree : fs.blocked (location sym.path) = false := by
    unfold Fs.openLock at hlock
    split at hlock
    · cases hlock
    · exact eq_false_of_ne_true ‹_›
  have hfile : (fs.withRef sym r).files (location sym.path) = some (.utf8 r.serialize) := Function.update_self _ _ _
  rw [Fs.tryExists,Fs.withRef,blocked_write_self,hfree,← Fs.withRef,hfile]
  rfl

theorem unchanged_withRef_iff (r : BitRef) :
    Unchanged fs (fs.withRef sym r) ↔ fs.files (location sym.path) = some (.utf8 r.serialize) := by
  constructor
  · intro h
    exact (h sym).1.symm.trans (Function.update_self _ _ _)
  · intro h
    have hsame : (fs.withRef sym r).files = fs.files := by
      rw [Fs.withRef,Fs.write_files,← h,Function.update_eq_self]
    exact fun s => ⟨congrFun hsame _,congrFun hsame _⟩

/-- The log of `HEAD` changes when it is written. -/
theorem not_unchanged_withEntry {r : BitRef} {lock : Filelock} (hlock : fs.openLock sym.path = .ok ())
    (hhead : readHead env (fs.withRef sym r) = .ok (.Symbolic sym))
    (hlog : readReflog SymbolicRef.HEAD (fs.withRef sym r) = .ok lock) (oid : Oid) (committer : BitSignature) (msg : Text) :
    ¬Unchanged fs ((fs.withRef sym r).withEntry lock oid committer msg) := by
  intro h
  obtain ⟨expanded,-,hpath,-,hdata⟩ := readReflog_eq_ok hlog
  have hother : lock.path ≠ location sym.path := by
    rw [hpath]
    exact (location_ne_joinLog (readHead_kind hhead (tryExists_withRef hlock r)) expanded.path).symm
  have hbefore : (fs.withRef sym r).files lock.path = fs.files lock.path := Function.update_of_ne hother _ _
  have hafter : fs.files lock.path = some (.utf8 (lock.data.append oid committer msg).serialize) := by
    rw [hpath,← (h expanded).2,← hpath]
    exact Function.update_self _ _ _
  rw [hbefore,hafter] at hdata
  rcases hdata with ⟨hnone,-⟩ | ⟨text,htext,hparse⟩
  · cases hnone
  · cases htext
    exact serialize_append_ne hparse oid committer msg rfl

end Update

/-- An update that returns an error leaves every ref and every log as it was exactly if the error comes before the ref is
written, or nothing fails after that, or the ref held that text already and the log of `HEAD` was not written. -/
theorem update_unchanged_iff (env : Env) (sym : SymbolicRef) (target : BitRef) (cause : RefUpdateCause) (fs : Fs) :
    (∀ e, outcome (update env sym target cause fs) = .error e → e.returned →
      Unchanged fs (final (update env sym target cause fs))) ↔
    ∀ validated, validate env target fs = .ok validated → fs.openLock sym.path = .ok () →
      ∀ logged, LateFailure env sym target cause (fs.withRef sym validated) logged →
        logged = false ∧ fs.files (location sym.path) = some (.utf8 validated.serialize) := by
  have hrefused {e : Error} (h : update env sym target cause fs = .error e fs) : ∀ e,
      outcome (update env sym target cause fs) = .error e → e.returned → Unchanged fs (final (update env sym target cause fs)) := by
    rw [h]
    exact fun _ _ _ _ => ⟨rfl,rfl⟩
  cases hvalid : validate env target fs with
  | error e => exact iff_of_true (hrefused (update_of_refused (Or.inl hvalid))) fun _ h => nomatch h
  | ok validated =>
    cases hlock : fs.openLock sym.path with
    | error e => exact iff_of_true (hrefused (update_of_refused (Or.inr ⟨⟨validated,hvalid⟩,hlock⟩))) fun _ _ h => nomatch h
    | ok u =>
      have hright {P : BitRef → Prop} : (∀ v, Except.ok (ε := Error) validated = .ok v → Except.ok (ε := Error) u = .ok () → P v) ↔
          P validated := ⟨fun h => h validated rfl rfl,fun h v hv _ => Except.ok.inj hv ▸ h⟩
      rw [update_of_validated hvalid hlock,hright]
      have hending := record_ending env sym target cause (fs.withRef sym validated)
      generalize record env sym target cause (fs.withRef sym validated) = result at hending ⊢
      cases hending with
      | success fs' h => exact iff_of_true (fun _ h => nomatch h) fun b hb => absurd hb (h b)
      | kept e h =>
        have hleft : (∀ e', outcome (EStateM.Result.error e (fs.withRef sym validated) : EStateM.Result Error Fs Unit) = .error e' →
            e'.returned → Unchanged fs (fs.withRef sym validated)) ↔ (e.returned → Unchanged fs (fs.withRef sym validated)) :=
          ⟨fun h he => h e rfl he,fun h e' he' he => h (Except.error.inj he' ▸ he)⟩
        rw [← unchanged_withRef_iff]
        exact hleft.trans ⟨fun hkept b hb => ⟨((h b).mp hb).2,hkept ((h b).mp hb).1⟩,fun hkept he => (hkept false ((h false).mpr ⟨he,rfl⟩)).2⟩
      | logged e lock oid committer hhead hlog h =>
        have hchanged := not_unchanged_withEntry hlock hhead hlog oid committer cause.display
        constructor
        · intro hkept b hb
          exact absurd (hkept e rfl ((h b).mp hb).1) hchanged
        · intro hkept e' he' he
          cases he'
          exact nomatch (hkept true ((h true).mpr ⟨he,rfl⟩)).1

def Fs.empty : Fs := ⟨fun _ => none,[],by simp,[]⟩

def sampleBranch : SymbolicRef := ⟨"refs/heads/a".toList⟩

def sampleOid : Oid := ⟨List.replicate IndexFile.OID_SIZE 1,rfl⟩

/-- A repository with a branch. -/
def sampleFs : Fs :=
  (Fs.empty.write ["HEAD".toList] (.utf8 "ref: refs/heads/a".toList)).withRef sampleBranch (.Direct IndexFile.Oid.UNKNOWN)

def sampleEnv (name : Option Text) : Env :=
  ⟨fun _ => .ok (),name,name,⟨⟨0,CommitFormat.epoch_inRange⟩,⟨0,by decide⟩⟩,by decide,2⟩

/-- Without an identity the branch moves, and the update fails. -/
theorem nameless_update_moves :
    outcome (update (sampleEnv none) sampleBranch (.Direct sampleOid) (.Fetch (.Direct sampleOid)) sampleFs) =
        .error (.message MISSING_IDENTITY_MSG) ∧
      Error.returned (.message MISSING_IDENTITY_MSG) ∧
      ¬Unchanged sampleFs
        (final (update (sampleEnv none) sampleBranch (.Direct sampleOid) (.Fetch (.Direct sampleOid)) sampleFs)) := by
  refine ⟨by decide +kernel,rfl,fun h => ?_⟩
  have hbranch := (h sampleBranch).1
  revert hbranch
  decide +kernel

end Refs
end Libbit
