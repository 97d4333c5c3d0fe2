import Libbit.Fetch
import Libbit.RefResolve
import Libbit.LockConflicts

/-! Refspecs as texts and as maps of refs, and what a fetch leaves behind. -/
namespace Libbit
namespace Refs

open Lib
open CommitFormat (BitSignature)

/-! ### Refspecs -/

namespace Refspec
variable {r : Refspec} {s d : SymbolicRef}

theorem matchRef_eq_some : r.matchRef s = some d ↔
    if r.glob then ∃ suffix, s.path = r.src++suffix ∧ d.path = r.dst++suffix else s.path = r.src ∧ d.path = r.dst := by
  obtain ⟨source⟩ := s
  obtain ⟨target⟩ := d
  unfold matchRef
  cases r.glob with
  | false =>
    by_cases h : source = r.src
    · simp only [h,Bool.false_eq_true,if_false,if_true,Option.some.injEq,SymbolicRef.mk.injEq,true_and]
      exact eq_comm
    · simp [h]
  | true =>
    by_cases h : r.src <+: source
    · obtain ⟨suffix,rfl⟩ := h
      have hpre : r.src.isPrefixOf (r.src++suffix) = true := List.isPrefixOf_iff_prefix.mpr (List.prefix_append _ _)
      simp only [if_true,hpre,List.drop_left,Option.some.injEq,SymbolicRef.mk.injEq,List.append_cancel_left_eq]
      constructor
      · rintro rfl
        exact ⟨suffix,rfl,rfl⟩
      · rintro ⟨_,rfl,rfl⟩
        rfl
    · have hno : ¬∃ suffix, source = r.src++suffix ∧ target = r.dst++suffix := by
        rintro ⟨suffix,hs,-⟩
        exact h ⟨suffix,hs.symm⟩
      simpa [h] using hno

/-- Matching backwards undoes matching, and nothing else does. -/
theorem reverseMatchRef_iff : r.reverseMatchRef d = some s ↔ r.matchRef s = some d := by
  rw [reverseMatchRef,matchRef_eq_some,matchRef_eq_some]
  cases r with
  | mk src dst forced glob =>
    cases glob with
    | false => exact and_comm
    | true => exact exists_congr fun suffix => and_comm

/-- No two refs of the remote go to one place. -/
theorem matchRef_injective {s' : SymbolicRef} (h : r.matchRef s = some d) (h' : r.matchRef s' = some d) : s = s' := by
  have hrev := reverseMatchRef_iff.mpr h
  rw [reverseMatchRef_iff.mpr h'] at hrev
  exact (Option.some.inj hrev).symm

/-- What the text of a refspec can say: there is one colon before the target, a side ends in a star only where both are
globs, and the text starts with a plus only where it is forced, and with a character of one byte. -/
structure Sayable (r : Refspec) : Prop where
  colon : ':' ∉ r.src
  star : r.glob = false → r.src.getLast? ≠ some '*' ∧ r.dst.getLast? ≠ some '*'
  plus : r.forced = false → ∀ c ∈ r.src.head?, c ≠ '+' ∧ c.utf8Size = 1

theorem stripGlob_star (s : Text) : stripGlob (s++['*']) = (s,true) := by simp [stripGlob]

theorem stripGlob_plain (h : r.src.getLast? ≠ some '*') : stripGlob r.src = (r.src,false) := if_neg h

/-- What is behind the plus. -/
def body (r : Refspec) : Text := if r.glob then r.src++['*',':']++r.dst++['*'] else r.src++[':']++r.dst

theorem colon_mem_body (r : Refspec) : ':' ∈ r.body := by
  unfold body
  split <;> simp

theorem mem_of_mem_stripGlob {c : Char} {s : Text} (h : c ∈ (stripGlob s).1) : c ∈ s := by
  unfold stripGlob at h
  split at h
  · exact List.mem_of_mem_dropLast h
  · exact h

theorem sides_of_notMem {a : Text} (h : ':' ∉ a) (f : Bool) (b : Text) : sides f (a++ ':'::b) =
    if (stripGlob a).2 = (stripGlob b).2 then .ok ⟨(stripGlob a).1,(stripGlob b).1,f,(stripGlob a).2⟩
    else .error (.message "only one side of refspec is globbed") := by
  rw [sides,splitOnce_char h]

theorem forced_of_sides {f : Bool} {s : Text} (h : sides f s = .ok r) : r.forced = f := by
  unfold sides at h
  split at h
  · cases h
  · split at h <;> cases h
    rfl

theorem sides_body (hcolon : ':' ∉ r.src) (f : Bool) :
    sides f r.body = .ok ⟨r.src,r.dst,f,r.glob⟩ ↔ (r.glob = false → r.src.getLast? ≠ some '*' ∧ r.dst.getLast? ≠ some '*') := by
  cases hglob : r.glob with
  | true =>
    have hbody : r.body = (r.src++['*'])++ ':'::(r.dst++['*']) := by simp [body,hglob]
    have hsrc : ':' ∉ r.src++['*'] := by simp [hcolon]
    rw [hbody,sides_of_notMem hsrc,stripGlob_star,stripGlob_star]
    simp
  | false =>
    have hbody : r.body = r.src++ ':'::r.dst := by simp [body,hglob]
    rw [hbody,sides_of_notMem hcolon]
    by_cases hs : r.src.getLast? = some '*' <;> by_cases hd : r.dst.getLast? = some '*' <;> simp [stripGlob,hs,hd]

theorem sides_body_iff (r : Refspec) (f : Bool) : sides f r.body = .ok ⟨r.src,r.dst,f,r.glob⟩ ↔
    ':' ∉ r.src ∧ (r.glob = false → r.src.getLast? ≠ some '*' ∧ r.dst.getLast? ≠ some '*') := by
  constructor
  · intro h
    have hcolon : ':' ∉ r.src := by
      obtain ⟨a,b,hbody,ha⟩ := List.eq_append_cons_of_mem r.colon_mem_body
      rw [hbody,sides_of_notMem ha] at h
      split at h
      · have hsrc : (stripGlob a).1 = r.src := congrArg Refspec.src (Except.ok.inj h)
        exact fun hmem => ha (mem_of_mem_stripGlob (hsrc ▸ hmem))
      · cases h
    exact ⟨hcolon,(sides_body hcolon f).mp h⟩
  · rintro ⟨hcolon,hstar⟩
    exact (sides_body hcolon f).mpr hstar

theorem head_body : ∃ c s, r.body = c::s ∧ ((c ≠ '+' ∧ c.utf8Size = 1) ↔ ∀ x ∈ r.src.head?, x ≠ '+' ∧ x.utf8Size = 1) := by
  cases hsrc : r.src with
  | nil =>
    cases hglob : r.glob with
    | true => exact ⟨'*',':'::(r.dst++['*']),by simp [body,hglob,hsrc],by simp; decide⟩
    | false => exact ⟨':',r.dst,by simp [body,hglob,hsrc],by simp; decide⟩
  | cons c s =>
    refine ⟨c,(body r).tail,?_,by simp⟩
    unfold body
    split <;> simp [hsrc]

/-- A refspec is read back from its text exactly if the text can say it. -/
theorem fromStr_display_iff (r : Refspec) : fromStr r.display = .ok r ↔ r.Sayable := by
  have hsayable : r.Sayable ↔ (':' ∉ r.src ∧ (r.glob = false → r.src.getLast? ≠ some '*' ∧ r.dst.getLast? ≠ some '*')) ∧
      (r.forced = false → ∀ c ∈ r.src.head?, c ≠ '+' ∧ c.utf8Size = 1) :=
    ⟨fun h => ⟨⟨h.colon,h.star⟩,h.plus⟩,fun h => ⟨h.1.1,h.1.2,h.2⟩⟩
  rw [hsayable,← sides_body_iff r r.forced]
  cases hforced : r.forced with
  | true =>
    have hdisplay : r.display = '+'::r.body := by simp [display,body,hforced]
    have hself : (⟨r.src,r.dst,true,r.glob⟩ : Refspec) = r := by rw [← hforced]
    rw [hdisplay,hself]
    simp only [reduceCtorEq,false_implies,and_true]
    exact Iff.rfl
  | false =>
    obtain ⟨c,s,hbody,hhead⟩ := r.head_body
    have hdisplay : r.display = r.body := by simp [display,body,hforced]
    have hself : (⟨r.src,r.dst,false,r.glob⟩ : Refspec) = r := by rw [← hforced]
    have hrun : fromStr (c::s) = if c.utf8Size = 1 then (if c = '+' then sides true s else sides false (c::s))
        else .error (.panic "byte index 1 is not a char boundary") := by
      rw [fromStr,firstByte]
      split <;> rfl
    rw [hdisplay,hself,hbody,hrun,← hhead]
    by_cases hsize : c.utf8Size = 1
    · by_cases hplus : c = '+'
      · have hne : sides true s ≠ .ok r := fun h => absurd (forced_of_sides h) (by simp [hforced])
        rw [if_pos hsize,if_pos hplus]
        exact iff_of_false hne fun h => (h.2 rfl).1 hplus
      · simp [hsize,hplus]
    · simp [hsize]

end Refspec

/-! ### The update of one ref -/

/-- What writing logs makes of the files. -/
inductive LogsWritten (fs : Fs) : Fs → Prop
  | none : LogsWritten fs fs
  | log {fs' : Fs} (h : LogsWritten fs fs') (s : Text) (content : Content) : LogsWritten fs (fs'.write (location (joinLog s)) content)

section Update
variable {env : Env} {sym : SymbolicRef} {cause : RefUpdateCause} {fs fs' : Fs} {oid oid' : Oid} {s : Text}

theorem LogsWritten.files (h : LogsWritten fs fs') {p : Path} (hp : p.head? ≠ some "logs".toList) : fs'.files p = fs.files p := by
  induction h with
  | none => rfl
  | log h s content ih =>
    have hne : p ≠ location (joinLog s) := by
      rintro rfl
      rw [location_joinLog] at hp
      exact hp rfl
    rw [Fs.write_files,Function.update_of_ne hne,ih]

theorem LogsWritten.isSome (h : LogsWritten fs fs') {p : Path} (hp : (fs.files p).isSome) : (fs'.files p).isSome := by
  induction h with
  | none => exact hp
  | log h s content ih => exact isSome_write content ih

theorem HeadLogged.logsWritten {committer : BitSignature} {msg : Text} (h : HeadLogged fs oid committer msg fs') : LogsWritten fs fs' := by
  cases h with
  | not => exact .none
  | logged lock hlock =>
    obtain ⟨expanded,-,hpath,-,-⟩ := readReflog_eq_ok hlock
    rw [Fs.withEntry,hpath]
    exact .log .none _ _

theorem LogsWritten.withEntry {lock : Filelock} {fs₁ : Fs} (h : LogsWritten fs fs₁) (hlock : readReflog sym fs₁ = .ok lock) (oid : Oid)
    (committer : BitSignature) (msg : Text) : LogsWritten fs (fs₁.withEntry lock oid committer msg) := by
  obtain ⟨expanded,-,hpath,-,-⟩ := readReflog_eq_ok hlock
  rw [Fs.withEntry,hpath]
  exact .log h _ _

theorem validated_oid {validated : BitRef} (h : validate env (.Direct oid) fs = .ok validated) : validated = .Direct oid := by
  obtain ⟨-,-,h⟩ := except_bind_eq_ok.mp h
  cases h
  rfl

/-- A ref that has a file is of a known kind, if its log can be read. -/
theorem kind_of_readReflog {lock : Filelock} (h : readReflog sym fs = .ok lock) (hfile : (fs.files (location sym.path)).isSome) :
    sym.kind ≠ .Unknown := by
  obtain ⟨expanded,hexpand,-⟩ := readReflog_eq_ok h
  have hexists : fs.tryExists sym.path = .ok true := by
    cases hblocked : fs.blocked (location sym.path) with
    | true =>
      have hfails : expandSymref sym fs = .error .notADirectory := by
        rw [expandSymref,PREFIXES,expandSymref.go,Fs.tryExists]
        show ((if fs.blocked (location sym.path) = true then _ else _) >>= _) = _
        rw [hblocked]
        rfl
      rw [hfails] at hexpand
      cases hexpand
    | false => exact tryExists_eq_true.mpr ⟨hblocked,.inl hfile⟩
  rw [expandSymref_of_exists hexists] at hexpand
  obtain rfl := (newValid_eq_ok_iff.mp hexpand).1
  exact newValid_eq_ok hexpand

/-- An update to an oid writes the oid first and then at most logs, however it ends. -/
theorem update_direct_final (env : Env) (sym : SymbolicRef) (oid : Oid) (cause : RefUpdateCause) (fs : Fs) :
    final (update env sym (.Direct oid) cause fs) = fs ∨
      LogsWritten (fs.withRef sym (.Direct oid)) (final (update env sym (.Direct oid) cause fs)) := by
  cases hvalid : validate env (.Direct oid) fs with
  | error e =>
    rw [update_of_refused (.inl hvalid)]
    exact .inl rfl
  | ok validated =>
    cases hlock : fs.openLock sym.path with
    | error e =>
      rw [update_of_refused (.inr ⟨⟨validated,hvalid⟩,hlock⟩)]
      exact .inl rfl
    | ok u =>
      right
      rw [update_of_validated hvalid hlock,validated_oid hvalid]
      have hending := record_ending env sym (.Direct oid) cause (fs.withRef sym (.Direct oid))
      generalize hresult : record env sym (.Direct oid) cause (fs.withRef sym (.Direct oid)) = result at hending ⊢
      cases hending with
      | success fs' h =>
        obtain ⟨oid',fs₁,hread,-⟩ := bind_ok.mp hresult
        obtain ⟨committer,fs₁,lock,-,hlogged,hlog,hfs⟩ := record_eq_ok hresult (reads_eq_ok.mp hread).1
        show LogsWritten _ fs'
        rw [hfs]
        exact hlogged.logsWritten.withEntry hlog _ _ _
      | kept e h => exact .none
      | logged e lock oid committer hhead hlog h => exact LogsWritten.none.withEntry hlog _ _ _

/-- What an update to an oid has found and made when it returns. -/
theorem update_direct_ok (h : update env sym (.Direct oid) cause fs = .ok () fs') :
    env.ensureObjIsCommit oid = .ok () ∧ 0 < env.stackDepth ∧ fs.openLock sym.path = .ok () ∧ sym.kind ≠ .Unknown ∧
      LogsWritten (fs.withRef sym (.Direct oid)) fs' := by
  cases hvalid : validate env (.Direct oid) fs with
  | error e =>
    rw [update_of_refused (.inl hvalid)] at h
    cases h
  | ok validated =>
    cases hlock : fs.openLock sym.path with
    | error e =>
      rw [update_of_refused (.inr ⟨⟨validated,hvalid⟩,hlock⟩)] at h
      cases h
    | ok u =>
      rw [update_of_validated hvalid hlock,validated_oid hvalid] at h
      obtain ⟨oid',fs₁,hread,-⟩ := bind_ok.mp h
      have hvalue := (reads_eq_ok.mp hread).1
      obtain ⟨rfl,hcommit,hdepth⟩ := fullyResolve_direct.mp hvalue
      obtain ⟨committer,fs₁,lock,-,hlogged,hlog,rfl⟩ := record_eq_ok h hvalue
      have hfile : (fs₁.files (location sym.path)).isSome := by
        refine hlogged.logsWritten.isSome ?_
        rw [Fs.withRef,Fs.write_files,Function.update_self]
        rfl
      exact ⟨hcommit,hdepth,rfl,kind_of_readReflog hlog hfile,hlogged.logsWritten.withEntry hlog _ _ _⟩

end Update

/-! ### Refs that follow those of a remote -/

/-- The ref holds the oid, and nothing is in the way of reading it. -/
structure Tracks (fs : Fs) (x : SymbolicRef × Oid) : Prop where
  known : x.1.kind ≠ .Unknown
  unlocked : fs.openLock x.1.path = .ok ()
  holds : fs.files (location x.1.path) = some (.utf8 (BitRef.Direct x.2).serialize)

/-- The places of the refs: no two refs share one, and none is a lock of a ref or below one. -/
structure Places (xs : List (SymbolicRef × Oid)) : Prop where
  distinct : xs.Pairwise fun x y => location x.1.path ≠ location y.1.path
  locks : ∀ x ∈ xs, ∀ y ∈ xs, ¬Fs.lockPath (location x.1.path) <+: location y.1.path

theorem Places.of_append {xs ys : List (SymbolicRef × Oid)} (h : Places (xs++ys)) : Places xs where
  distinct := (List.pairwise_append.mp h.distinct).1
  locks x hx y hy := h.locks x (List.mem_append_left ys hx) y (List.mem_append_left ys hy)

section Tracks
variable {fs fs' : Fs} {x y : SymbolicRef × Oid} {s : Text} {p : Path}

theorem openLock_eq_ok : fs.openLock s = .ok () ↔ fs.blocked (location s) = false ∧
    ¬(fs.files (location s) = none ∧ fs.isDir (location s) = true) ∧
    ¬((fs.files (Fs.lockPath (location s))).isSome ∨ fs.isDir (Fs.lockPath (location s)) = true) := by
  unfold Fs.openLock
  split_ifs with hblocked hdir hlock
  · simp [hblocked]
  · simp only [false_iff]
    exact fun h => h.2.1 hdir
  · simp only [false_iff]
    exact fun h => h.2.2 hlock
  · exact iff_of_true rfl ⟨eq_false_of_ne_true hblocked,hdir,hlock⟩

theorem Tracks.isSome (h : Tracks fs x) : (fs.files (location x.1.path)).isSome := by
  rw [h.holds]
  rfl

/-- A file that is written elsewhere, and not where the ref or its lock would have to be a directory, leaves the ref. -/
theorem Tracks.write (h : Tracks fs x) (habove : ¬p <+: location x.1.path) (hlock : ¬Fs.lockPath (location x.1.path) <+: p)
    (content : Content) : Tracks (fs.write p content) x := by
  obtain ⟨hblocked,-,hfree⟩ := openLock_eq_ok.mp h.unlocked
  have hne : location x.1.path ≠ p := fun heq => habove (heq ▸ List.prefix_refl _)
  have hholds : (fs.write p content).files (location x.1.path) = some (.utf8 (BitRef.Direct x.2).serialize) := by
    rw [Fs.write_files,Function.update_of_ne hne,h.holds]
  refine ⟨h.known,openLock_eq_ok.mpr ⟨?_,?_,?_⟩,hholds⟩
  · refine Bool.eq_false_iff.mpr fun hblocks => ?_
    obtain ⟨q,hq,hqne,hsome⟩ := blocked_iff.mp hblocks
    have hqp : q ≠ p := fun heq => habove (heq ▸ hq)
    rw [Fs.write_files,Function.update_of_ne hqp] at hsome
    rw [blocked_iff.mpr ⟨q,hq,hqne,hsome⟩] at hblocked
    cases hblocked
  · rintro ⟨hnone,-⟩
    rw [hholds] at hnone
    cases hnone
  · have hlockNe : Fs.lockPath (location x.1.path) ≠ p := fun heq => hlock (heq ▸ List.prefix_refl _)
    rw [Fs.write_files,Function.update_of_ne hlockNe]
    rintro (hfile | hdir)
    · exact hfree (.inl hfile)
    · rcases isDir_write hdir with hdir | ⟨-,hpre⟩
      · exact hfree (.inr hdir)
      · exact hlock hpre

/-- A ref that can be locked is not where a ref that exists would need a directory. -/
theorem Tracks.not_above (h : Tracks fs x) (hlock : fs.openLock y.1.path = .ok ()) (hne : location x.1.path ≠ location y.1.path) :
    ¬location y.1.path <+: location x.1.path := by
  intro hpre
  obtain ⟨-,hdir,-⟩ := openLock_eq_ok.mp hlock
  obtain ⟨hblocked,-,-⟩ := openLock_eq_ok.mp h.unlocked
  refine hdir ⟨?_,isDir_iff.mpr (.inr (.inr ⟨_,h.isSome,hne,hpre⟩))⟩
  by_contra hsome
  rw [blocked_iff.mpr ⟨_,hpre,hne.symm,Option.isSome_iff_ne_none.mpr hsome⟩] at hblocked
  cases hblocked

/-- Neither the ref nor its lock is among the logs. -/
theorem Tracks.log (h : Tracks fs x) (hself : ¬Fs.lockPath (location x.1.path) <+: location x.1.path) (s : Text) (content : Content) :
    Tracks (fs.write (location (joinLog s)) content) x := by
  have hhead := head?_location_ne h.known
  rw [location_joinLog]
  generalize hp : location x.1.path = p at hhead hself
  refine h.write ?_ ?_ content <;> rw [hp]
  · rintro ⟨rest,rfl⟩
    exact hhead rfl
  · rcases List.eq_nil_or_concat p with rfl | ⟨init,last,rfl⟩
    · exact absurd (List.prefix_refl _) hself
    · intro hpre
      rw [List.concat_eq_append] at hpre hhead
      have hlockPath : Fs.lockPath (init++[last]) = init++[Fs.withLockExtension last] := by simp [Fs.lockPath]
      rw [hlockPath] at hpre
      cases init with
      | nil =>
        have hname : Fs.withLockExtension last = "logs".toList := (List.cons_prefix_cons.mp hpre).1
        have hsuffix : ".lock".toList <:+ "logs".toList := by
          rw [← hname]
          exact List.suffix_append _ _
        revert hsuffix
        decide
      | cons first init =>
        have hfirst : first = "logs".toList := (List.cons_prefix_cons.mp hpre).1
        exact hhead (congrArg some hfirst)

theorem Tracks.logsWritten (h : Tracks fs x) (hself : ¬Fs.lockPath (location x.1.path) <+: location x.1.path)
    (hlogs : LogsWritten fs fs') : Tracks fs' x := by
  induction hlogs with
  | none => exact h
  | log hlogs s content ih => exact ih.log hself s content

/-- A ref that is written tracks what it was given. -/
theorem tracks_withRef (hknown : x.1.kind ≠ .Unknown) (hlock : fs.openLock x.1.path = .ok ())
    (hself : ¬Fs.lockPath (location x.1.path) <+: location x.1.path) : Tracks (fs.withRef x.1 (.Direct x.2)) x where
  known := hknown
  unlocked := openLock_write_self hlock (fun heq => hself (by rw [heq])) _
  holds := Function.update_self _ _ _

theorem Tracks.resolves {env : Env} (h : Tracks fs x) (hcommit : env.ensureObjIsCommit x.2 = .ok ()) (hdepth : 0 < env.stackDepth) :
    tryFullyResolveRef env (.Symbolic x.1) fs = .ok (some x.2) := by
  obtain ⟨hblocked,-,-⟩ := openLock_eq_ok.mp h.unlocked
  have hexpand := expandSymref_self h.known (tryExists_eq_true.mpr ⟨hblocked,.inl h.isSome⟩)
  have htext : BitRef.fromStr (BitRef.Direct x.2).serialize = .Direct x.2 := by
    rw [BitRef.fromStr,BitRef.serialize,Packfile.Oid.fromStr_toHex]
  have hread : read env x.1 fs = .ok (.Direct x.2) := by
    simp only [read,hexpand,h.unlocked,h.holds,htext,validate,hcommit,bind,Except.bind,Except.mapError]
  obtain ⟨depth,hsucc⟩ := Nat.exists_eq_add_of_le' hdepth
  have hresolve : resolve env (.Symbolic x.1) fs = .ok (.Direct x.2) := by
    rw [resolve,hsucc,resolveIn,partiallyResolve,hread]
    rfl
  rw [tryFullyResolveRef,hresolve]
  rfl

end Tracks

/-! ### A fetch -/

section Fetch
variable {s s' : Site} {x : SymbolicRef × Oid} {xs done : List (SymbolicRef × Oid)} {peer : Peer} {spec : Refspec}
variable {refs : List (SymbolicRef × Oid)} {capabilities : List Capability} {summary : FetchSummary}

theorem onFs_eq_ok {α : Type} {m : Env → Io α} {a : α} :
    onFs m s = .ok a s' ↔ m s.env s.fs = .ok a s'.fs ∧ s'.env = s.env := by
  obtain ⟨env,fs⟩ := s
  obtain ⟨env',fs'⟩ := s'
  unfold onFs
  cases m env fs with
  | error e fs₁ => simp
  | ok b fs₁ =>
    simp only [EStateM.Result.ok.injEq,Site.mk.injEq]
    constructor
    · rintro ⟨rfl,rfl,rfl⟩
      exact ⟨⟨rfl,rfl⟩,rfl⟩
    · rintro ⟨⟨rfl,rfl⟩,rfl⟩
      exact ⟨rfl,rfl,rfl⟩

/-- What is read leaves everything as it is. -/
theorem onFs_reads_eq_ok {α : Type} {f : Env → Fs → Except Error α} {a : α} :
    onFs (fun env => reads (f env)) s = .ok a s' ↔ f s.env s.fs = .ok a ∧ s' = s := by
  rw [onFs_eq_ok,reads_eq_ok]
  constructor
  · rintro ⟨⟨hvalue,hfs⟩,henv⟩
    obtain ⟨env,fs⟩ := s
    obtain ⟨env',fs'⟩ := s'
    cases hfs
    cases henv
    exact ⟨hvalue,rfl⟩
  · rintro ⟨hvalue,rfl⟩
    exact ⟨⟨hvalue,rfl⟩,rfl⟩

/-- The ref resolves to the oid that it tracks. -/
def Mirrors (s : Site) (x : SymbolicRef × Oid) : Prop :=
  Tracks s.fs x ∧ s.env.ensureObjIsCommit x.2 = .ok () ∧ 0 < s.env.stackDepth

theorem updateRefForFetch_ok {fs' : Fs} {env : Env} {fs : Fs} (h : updateRefForFetch env x.1 (.Direct x.2) fs = .ok () fs') :
    env.ensureObjIsCommit x.2 = .ok () ∧ 0 < env.stackDepth ∧ fs.openLock x.1.path = .ok () ∧ x.1.kind ≠ .Unknown ∧
      LogsWritten (fs.withRef x.1 (.Direct x.2)) fs' := by
  obtain ⟨oid,fs₁,hread,hupdate⟩ := bind_ok.mp h
  obtain ⟨hvalue,rfl⟩ := reads_eq_ok.mp hread
  obtain ⟨rfl,-⟩ := fullyResolve_direct.mp hvalue
  exact update_direct_ok hupdate

/-- One more ref. -/
theorem mirrors_step (hplaces : Places (done++[x])) (hdone : ∀ y ∈ done, Mirrors s y)
    (h : onFs (fun env => updateRefForFetch env x.1 (.Direct x.2)) s = .ok () s') :
    s'.env = s.env ∧ ∀ y ∈ done++[x], Mirrors s' y := by
  obtain ⟨hupdate,henv⟩ := onFs_eq_ok.mp h
  obtain ⟨hcommit,hdepth,hlock,hknown,hlogs⟩ := updateRefForFetch_ok hupdate
  have hself (y : SymbolicRef × Oid) (hy : y ∈ done++[x]) := hplaces.locks y hy y hy
  have hx : x ∈ done++[x] := List.mem_append_right done (List.mem_singleton_self x)
  refine ⟨henv,fun y hy => ?_⟩
  rw [Mirrors,henv]
  rcases List.mem_append.mp hy with hold | hnew
  · obtain ⟨htracks,hcommit',hdepth'⟩ := hdone y hold
    have hne : location y.1.path ≠ location x.1.path :=
      (List.pairwise_append.mp hplaces.distinct).2.2 y hold x (List.mem_singleton_self x)
    have hkept := htracks.write (htracks.not_above hlock hne) (hplaces.locks y hy x hx) (.utf8 (BitRef.Direct x.2).serialize)
    exact ⟨hkept.logsWritten (hself y hy) hlogs,hcommit',hdepth'⟩
  · obtain rfl := List.mem_singleton.mp hnew
    exact ⟨(tracks_withRef hknown hlock (hself y hy)).logsWritten (hself y hy) hlogs,hcommit,hdepth⟩

theorem mirrors_run (hplaces : Places (done++xs)) (hdone : ∀ y ∈ done, Mirrors s y)
    (h : xs.forM (fun x => onFs fun env => updateRefForFetch env x.1 (.Direct x.2)) s = .ok ⟨⟩ s') :
    ∀ y ∈ done++xs, Mirrors s' y := by
  induction xs generalizing done s with
  | nil =>
    cases h
    rwa [List.append_nil]
  | cons x xs ih =>
    obtain ⟨⟨⟩,t,hupdate,hrest⟩ := bind_ok.mp h
    rw [List.append_cons] at hplaces ⊢
    obtain ⟨-,hstep⟩ := mirrors_step hplaces.of_append hdone hupdate
    exact ih hplaces hstep hrest

/-- The wants are empty once every ref is tracked. -/
theorem wantedAndTips_of_mirrors (h : ∀ x ∈ xs, Mirrors s x) : ∃ tips, wantedAndTips s.env s.fs xs = .ok ([],tips) := by
  induction xs with
  | nil => exact ⟨[],rfl⟩
  | cons x xs ih =>
    obtain ⟨tips,hrest⟩ := ih fun y hy => h y (List.mem_cons_of_mem x hy)
    obtain ⟨htracks,hcommit,hdepth⟩ := h x List.mem_cons_self
    refine ⟨x.2::tips,?_⟩
    rw [wantedAndTips]
    simp only [htracks.resolves hcommit hdepth,hrest,bind,Except.bind]
    simp

/-- Without refs there is nothing to do either. -/
theorem fetch_eq_ok (h : fetch peer spec refs capabilities s = .ok summary s') :
    ∃ status t, negotiatePacks peer (remoteMapping spec refs) s = .ok status t ∧
      (remoteMapping spec refs).forM (fun x => onFs fun env => updateRefForFetch env x.1 (.Direct x.2)) t = .ok ⟨⟩ s' := by
  unfold fetch at h
  split at h
  · rename_i hnone
    subst hnone
    cases h
    exact ⟨.UpToDate,s,rfl,rfl⟩
  iterate 3
    split at h
    · cases h
  obtain ⟨status,t,hnegotiate,h⟩ := bind_ok.mp h
  obtain ⟨⟨⟩,t',hupdates,h⟩ := bind_ok.mp h
  cases h
  exact ⟨status,t,hnegotiate,hupdates⟩

theorem mem_remoteMapping {new : SymbolicRef} {oid : Oid} :
    (new,oid) ∈ remoteMapping spec refs ↔ ∃ sym, (sym,oid) ∈ refs ∧ spec.matchRef sym = some new := by
  simp only [remoteMapping,List.mem_filterMap,Option.map_eq_some_iff,Prod.mk.injEq,Prod.exists]
  constructor
  · rintro ⟨sym,oid,hmem,_,hmatch,rfl,rfl⟩
    exact ⟨sym,hmem,hmatch⟩
  · rintro ⟨sym,hmem,hmatch⟩
    exact ⟨sym,oid,hmem,new,hmatch,rfl,rfl⟩

/-- Once a fetch has returned, every ref of the remote that the refspec maps is mirrored by the ref that it maps it to, and the
next negotiation finds that there is nothing to fetch. -/
theorem fetch_mirrors (hplaces : Places (remoteMapping spec refs)) (h : fetch peer spec refs capabilities s = .ok summary s') :
    (∀ sym oid new, (sym,oid) ∈ refs → spec.matchRef sym = some new →
      tryFullyResolveRef s'.env (.Symbolic new) s'.fs = .ok (some oid)) ∧
    ∀ peer', negotiatePacks peer' (remoteMapping spec refs) s' = .ok .UpToDate s' := by
  obtain ⟨status,t,-,hupdates⟩ := fetch_eq_ok h
  have hmirrors : ∀ x ∈ remoteMapping spec refs, Mirrors s' x :=
    by
      have hnone : ∀ y ∈ ([] : List (SymbolicRef × Oid)), Mirrors t y := fun y hy => absurd hy List.not_mem_nil
      exact mirrors_run hplaces hnone hupdates
  refine ⟨fun sym oid new hmem hmatch => ?_,fun peer' => ?_⟩
  · obtain ⟨htracks,hcommit,hdepth⟩ := hmirrors (new,oid) (mem_remoteMapping.mpr ⟨sym,hmem,hmatch⟩)
    exact htracks.resolves hcommit hdepth
  · obtain ⟨tips,hwanted⟩ := wantedAndTips_of_mirrors hmirrors
    rw [negotiatePacks,bind_of_ok (onFs_reads_eq_ok.mpr ⟨hwanted,rfl⟩)]
    rfl

def sampleRefs : List (SymbolicRef × Oid) :=
  [(SymbolicRef.HEAD,sampleOid),(⟨"refs/heads/a".toList⟩,sampleOid),(⟨"refs/heads/b/c".toList⟩,IndexFile.Oid.UNKNOWN)]

def sampleCapabilities : List Capability :=
  [.MultiAckDetailed,.SideBand64k,.OfsDelta,.Symref SymbolicRef.HEAD ⟨"refs/heads/a".toList⟩]

/-- A server that sends whatever is wanted. -/
def samplePeer : Peer := ⟨fun tips => .ok tips,fun _ _ => .ok fun _ => .ok ()⟩

def sampleFetch : EStateM.Result Error Site FetchSummary :=
  fetch samplePeer (Refspec.defaultFetchForRemote DEFAULT_REMOTE) sampleRefs sampleCapabilities ⟨sampleEnv (some "a".toList),sampleFs⟩

theorem fetch_mirrors_branches :
    outcome sampleFetch = .ok ⟨some ⟨"refs/heads/a".toList⟩,.NotUpToDate⟩ ∧
      tryFullyResolveRef (final sampleFetch).env (.Symbolic ⟨"refs/remotes/origin/b/c".toList⟩) (final sampleFetch).fs =
        .ok (some IndexFile.Oid.UNKNOWN) := by
  have houtcome : outcome sampleFetch = .ok ⟨some ⟨"refs/heads/a".toList⟩,.NotUpToDate⟩ := by decide +kernel
  have hrun : sampleFetch = .ok ⟨some ⟨"refs/heads/a".toList⟩,.NotUpToDate⟩ (final sampleFetch) := by
    generalize sampleFetch = result at houtcome ⊢
    cases result with
    | ok summary s' =>
      cases houtcome
      rfl
    | error e s' => cases houtcome
  have hplaces : Places (remoteMapping (Refspec.defaultFetchForRemote DEFAULT_REMOTE) sampleRefs) :=
    ⟨by decide +kernel,by decide +kernel⟩
  exact ⟨houtcome,(fetch_mirrors hplaces hrun).1 ⟨"refs/heads/b/c".toList⟩ IndexFile.Oid.UNKNOWN _ (by decide +kernel) (by decide +kernel)⟩

/-- The files outside the logs hold what they held, or what the fetch has put there. -/
def Fetched (xs : List (SymbolicRef × Oid)) (fs fs' : Fs) : Prop := ∀ p : Path, p.head? = some "logs".toList ∨
  fs'.files p = fs.files p ∨ ∃ x ∈ xs, location x.1.path = p ∧ fs'.files p = some (.utf8 (BitRef.Direct x.2).serialize)

theorem Fetched.update {fs fs₁ : Fs} (h : Fetched xs fs fs₁) (hx : x ∈ xs) (env : Env) :
    Fetched xs fs (final (updateRefForFetch env x.1 (.Direct x.2) fs₁)) := by
  have hwritten {fs₂ : Fs} (hlogs : LogsWritten (fs₁.withRef x.1 (.Direct x.2)) fs₂) : Fetched xs fs fs₂ := by
    intro p
    by_cases hp : p.head? = some "logs".toList
    · exact .inl hp
    · rw [hlogs.files hp,Fs.withRef,Fs.write_files]
      by_cases hself : p = location x.1.path
      · subst hself
        exact .inr (.inr ⟨x,hx,rfl,Function.update_self _ _ _⟩)
      · rw [Function.update_of_ne hself]
        exact h p
  cases hvalue : fullyResolve env (.Direct x.2) fs₁ with
  | error e =>
    rw [updateRefForFetch,reads_bind_error hvalue]
    exact h
  | ok oid =>
    obtain ⟨rfl,-⟩ := fullyResolve_direct.mp hvalue
    rw [updateRefForFetch,reads_bind_ok hvalue]
    rcases update_direct_final env x.1 x.2 (.Fetch (.Direct x.2)) fs₁ with hsame | hlogs
    · rw [hsame]
      exact h
    · exact hwritten hlogs

theorem keeps_onFs {α : Type} {P : Fs → Prop} {m : Env → Io α} (h : ∀ env fs, P fs → P (final (m env fs))) :
    Keeps (fun s : Site => P s.fs) (fun _ => True) (onFs m) := by
  rintro ⟨env,fs⟩ hs
  have hfinal := h env fs hs
  unfold onFs
  cases hm : m env fs with
  | ok a fs' =>
    rw [hm] at hfinal
    exact hfinal
  | error e fs' =>
    rw [hm] at hfinal
    exact ⟨hfinal,trivial⟩

theorem keeps_onFs_reads {α : Type} {P : Fs → Prop} (f : Env → Fs → Except Error α) :
    Keeps (fun s : Site => P s.fs) (fun _ => True) (onFs fun env => reads (f env)) :=
  keeps_onFs fun env fs hs => by rwa [reads,final_ended]

end Fetch

end Refs
end Libbit
