import Libbit.ReflogSpec

/-! Which ref a name stands for, and where a ref leads (`refs/refdb.rs`). A name is expanded to whatever exists under one of
four prefixes; a ref is resolved layer after layer, without a look at the refs that came before. -/
namespace Libbit
namespace Refs

open Lib
open Relation

/-! ### The ref that exists -/

/-- The names that are tried. -/
def candidates (sym : SymbolicRef) : List Text := PREFIXES.map (join · sym.path)

/-- The directories below which each file is a ref. -/
def refDirs : List Path := [REFS_HEADS,REFS_TAGS,REFS_REMOTES].map location

def IsRefPath (p : Path) : Prop :=
  p = ["HEAD".toList] ∨ p = location REFS_STASH ∨ (∃ dir ∈ refDirs, dir <+: p ∧ dir ≠ p) ∧ ['.', '.'] ∉ p

instance (p : Path) : Decidable (IsRefPath p) := inferInstanceAs (Decidable (_ ∨ _ ∨ _))

/-- The name is the one of a regular file that is a ref. -/
def isRef (fs : Fs) (s : Text) : Bool := !fs.blocked (location s) && (fs.files (location s)).isSome && IsRefPath (location s)

/-- The first of the names that is an actual ref. -/
def firstRef (sym : SymbolicRef) (fs : Fs) (names : List Text) : Except Error SymbolicRef :=
  match names.find? (isRef fs) with
  | some path => .ok ⟨path⟩
  | none => .error (.nonExistentSymRef sym)

/-- Nothing is in the way of the first actual ref, and its name is of a known kind. -/
structure Unobstructed (fs : Fs) (names : List Text) : Prop where
  absent : ∀ path ∈ names.takeWhile (!isRef fs ·), fs.tryExists path = .ok false
  known : ∀ path, names.find? (isRef fs) = some path → (SymbolicRef.mk path).kind ≠ .Unknown

section Expand
variable {fs : Fs} {sym : SymbolicRef} {path : Text} {names : List Text}

theorem newValid_eq_ok_iff {expanded : SymbolicRef} :
    newValid path = .ok expanded ↔ expanded = ⟨path⟩ ∧ (SymbolicRef.mk path).kind ≠ .Unknown := by
  unfold newValid
  split_ifs with h
  · simp [h]
  · simp [h,eq_comm]

theorem newValid_ne_missing : newValid path ≠ .error (.nonExistentSymRef sym) := by
  unfold newValid
  split_ifs <;> simp

theorem tryExists_of_isRef (h : isRef fs path = true) : fs.tryExists path = .ok true := by
  simp only [isRef,Bool.and_eq_true,Bool.not_eq_true'] at h
  exact tryExists_eq_true.mpr ⟨h.1.1,.inl h.1.2⟩

theorem firstRef_cons_of_isRef (h : isRef fs path = true) : firstRef sym fs (path::names) = .ok ⟨path⟩ := by
  rw [firstRef,List.find?_cons_of_pos h]

theorem firstRef_cons_of_not (h : isRef fs path = false) : firstRef sym fs (path::names) = firstRef sym fs names := by
  rw [firstRef,firstRef,List.find?_cons_of_neg (by simp [h])]

theorem unobstructed_cons_of_isRef (h : isRef fs path = true) :
    Unobstructed fs (path::names) ↔ (SymbolicRef.mk path).kind ≠ .Unknown := by
  constructor
  · intro hfree
    exact hfree.known path (List.find?_cons_of_pos h)
  · intro hknown
    refine ⟨fun p hp => ?_,fun p hp => ?_⟩
    · rw [List.takeWhile_cons_of_neg (by simp [h])] at hp
      cases hp
    · rw [List.find?_cons_of_pos h] at hp
      cases hp
      exact hknown

theorem unobstructed_cons_of_not (h : isRef fs path = false) :
    Unobstructed fs (path::names) ↔ fs.tryExists path = .ok false ∧ Unobstructed fs names := by
  have hwhile : (path::names).takeWhile (!isRef fs ·) = path::names.takeWhile (!isRef fs ·) := by simp [h]
  have hfind : (path::names).find? (isRef fs) = names.find? (isRef fs) := List.find?_cons_of_neg (by simp [h])
  constructor
  · rintro ⟨habsent,hknown⟩
    rw [hwhile,List.forall_mem_cons] at habsent
    rw [hfind] at hknown
    exact ⟨habsent.1,habsent.2,hknown⟩
  · rintro ⟨hpath,habsent,hknown⟩
    refine ⟨?_,?_⟩
    · rw [hwhile,List.forall_mem_cons]
      exact ⟨hpath,habsent⟩
    · rwa [hfind]

/-- A name that is found but is no ref is not what is looked for. -/
theorem newValid_ne_firstRef (h : isRef fs path = false) : newValid path ≠ firstRef sym fs names := by
  intro heq
  unfold firstRef at heq
  split at heq
  · rename_i path' hfind
    obtain ⟨hsame,-⟩ := newValid_eq_ok_iff.mp heq
    cases hsame
    have href := List.find?_some hfind
    rw [h] at href
    cases href
  · exact newValid_ne_missing heq

theorem expandSymref_go_finds_iff (bases : List Text) :
    expandSymref.go sym fs bases = firstRef sym fs (bases.map (join · sym.path)) ↔
      Unobstructed fs (bases.map (join · sym.path)) := by
  induction bases with
  | nil => exact iff_of_true rfl ⟨by simp,by simp⟩
  | cons base bases ih =>
    rw [List.map_cons,expandSymref.go]
    cases href : isRef fs (join base sym.path) with
    | true =>
      rw [firstRef_cons_of_isRef href,unobstructed_cons_of_isRef href,tryExists_of_isRef href]
      exact newValid_eq_ok_iff.trans (and_iff_right rfl)
    | false =>
      rw [firstRef_cons_of_not href,unobstructed_cons_of_not href]
      cases hexists : fs.tryExists (join base sym.path) with
      | error e =>
        refine iff_of_false (fun heq => ?_) fun h => absurd h.1 (by simp)
        have hblocked : e = .notADirectory := by
          unfold Fs.tryExists at hexists
          split_ifs at hexists
          cases hexists
          rfl
        subst hblocked
        unfold firstRef at heq
        split at heq <;> cases heq
      | ok found =>
        cases found with
        | false => exact ih.trans (and_iff_right rfl).symm
        | true => exact iff_of_false (newValid_ne_firstRef href) fun h => absurd h.1 (by simp)

end Expand

def configRef : SymbolicRef := ⟨"config".toList⟩

/-- A repository, which has a configuration, with a branch that is called `config`. -/
def configFs : Fs :=
  (Fs.empty.write ["config".toList] (.utf8 [])).withRef ⟨"refs/heads/config".toList⟩ (.Direct IndexFile.Oid.UNKNOWN)

/-- None of the names is there. -/
def Missing (fs : Fs) (sym : SymbolicRef) : Prop := ∀ path ∈ candidates sym, fs.tryExists path = .ok false

/-- The file of the ref `sym` is the one of `expanded`, and it says `r`. -/
structure Stored (fs : Fs) (sym expanded : SymbolicRef) (r : BitRef) : Prop where
  expands : expandSymref sym fs = .ok expanded
  unlocked : fs.openLock expanded.path = .ok ()
  holds : ∃ text, fs.files (location expanded.path) = some (.utf8 text) ∧ BitRef.fromStr text = r

/-- What is said, in full if there is such a ref. -/
inductive InFull (seen : Fs) : BitRef → BitRef → Prop
  | direct (oid : Oid) : InFull seen (.Direct oid) (.Direct oid)
  | found {sym expanded : SymbolicRef} (h : expandSymref sym seen = .ok expanded) : InFull seen (.Symbolic sym) (.Symbolic expanded)
  | missing {sym : SymbolicRef} (h : Missing seen sym) : InFull seen (.Symbolic sym) (.Symbolic sym)

/-- One step along a chain of refs. What there is, is seen while the ref is locked. -/
inductive Leads (fs : Fs) : BitRef → BitRef → Prop
  | mk {sym expanded : SymbolicRef} {r next : BitRef} (h : Stored fs sym expanded r)
    (hnext : InFull (fs.withLock expanded.path) r next) : Leads fs (.Symbolic sym) next

/-- A step to a ref that exists. -/
inductive Follows (fs : Fs) : BitRef → BitRef → Prop
  | mk {sym expanded target next : SymbolicRef} (h : Stored fs sym expanded (.Symbolic target))
    (hnext : expandSymref target (fs.withLock expanded.path) = .ok next) : Follows fs (.Symbolic sym) (.Symbolic next)

/-- The chain from the reference reaches a direct one to a commit. -/
def ReachesCommit (env : Env) (fs : Fs) (reference : BitRef) (oid : Oid) : Prop :=
  ReflTransGen (Leads fs) reference (.Direct oid) ∧ env.ensureObjIsCommit oid = .ok ()

/-- The chain from the reference ends at one that does not exist. -/
def EndsMissing (fs : Fs) (reference : BitRef) (sym : SymbolicRef) : Prop :=
  ReflTransGen (Leads fs) reference (.Symbolic sym) ∧ Missing fs sym

/-- The result is what the chain from the reference says: its commit, the ref that is missing, or an error. -/
structure Resolves (env : Env) (fs : Fs) (reference : BitRef) (result : Except Error BitRef) : Prop where
  direct : ∀ oid, result = .ok (.Direct oid) ↔ ReachesCommit env fs reference oid
  symbolic : ∀ sym, result = .ok (.Symbolic sym) ↔ EndsMissing fs reference sym
  returned : ∀ e, result = .error e → e.returned

/-- The chain is not longer than the stack, a ref on it is not a directory, and the object at its end can be looked up. -/
structure Resolvable (env : Env) (fs : Fs) (depth : ℕ) (reference : BitRef) : Prop where
  short : ∀ chain, (reference::chain).IsChain (Follows fs) → (reference::chain).length ≤ depth
  files : ∀ sym expanded, ReflTransGen (Leads fs) reference (.Symbolic sym) → expandSymref sym fs = .ok expanded →
    (fs.files (location expanded.path)).isSome
  objects : ∀ oid, ReflTransGen (Leads fs) reference (.Direct oid) → env.ensureObjIsCommit oid ≠ .error .panic

section Expand
variable {fs : Fs} {sym expanded : SymbolicRef}

theorem expandSymref_go_of_missing {bases : List Text} (h : ∀ base ∈ bases, fs.tryExists (join base sym.path) = .ok false) :
    expandSymref.go sym fs bases = .error (.nonExistentSymRef sym) := by
  induction bases with
  | nil => rfl
  | cons base bases ih =>
    rw [expandSymref.go,h base List.mem_cons_self]
    exact ih fun base' hbase' => h base' (List.mem_cons_of_mem base hbase')

theorem expandSymref_missing_iff : expandSymref sym fs = .error (.nonExistentSymRef expanded) ↔ expanded = sym ∧ Missing fs sym := by
  rw [Missing,candidates,List.forall_mem_map]
  constructor
  · exact expandSymref_go_missing
  · rintro ⟨rfl,h⟩
    exact expandSymref_go_of_missing h

theorem expandSymref_go_error {bases : List Text} {e : Error} (h : expandSymref.go sym fs bases = .error e) : e.returned := by
  induction bases with
  | nil =>
    cases h
    rfl
  | cons base bases ih =>
    rw [expandSymref.go] at h
    rcases except_bind_eq_error.mp h with h | ⟨found,-,h⟩
    · unfold Fs.tryExists at h
      split_ifs at h
      cases h
      rfl
    · cases found with
      | false => exact ih h
      | true =>
        have hvalid : newValid (join base sym.path) = .error e := h
        unfold newValid at hvalid
        split_ifs at hvalid
        cases hvalid
        rfl

theorem expandSymref_go_exists {bases : List Text} (h : expandSymref.go sym fs bases = .ok expanded) :
    fs.tryExists expanded.path = .ok true := by
  induction bases with
  | nil => cases h
  | cons base bases ih =>
    rw [expandSymref.go] at h
    obtain ⟨found,hfound,h⟩ := except_bind_eq_ok.mp h
    cases found with
    | false => exact ih h
    | true =>
      obtain ⟨rfl,-⟩ := newValid_eq_ok_iff.mp h
      exact hfound

/-- Only a directory is there without a file. -/
theorem openLock_directory (h : fs.tryExists expanded.path = .ok true) (hfile : fs.files (location expanded.path) = none) :
    fs.openLock expanded.path = .error (.panic "cannot create lock on symlinks or directories") := by
  obtain ⟨hblocked,hsome⟩ := tryExists_eq_true.mp h
  have hdir : fs.isDir (location expanded.path) = true := by simpa [hfile] using hsome
  simp [Fs.openLock,hblocked,hfile,hdir]

theorem openLock_error {s : Text} {e : Error} (h : fs.openLock s = .error e) (hfile : (fs.files (location s)).isSome) :
    e.returned := by
  unfold Fs.openLock at h
  split_ifs at h with hblocked hdir hlock
  · cases h
    rfl
  · rw [hdir.1] at hfile
    cases hfile
  · cases h
    rfl

theorem missing_of_withLock {s : Text} (h : Missing (fs.withLock s) sym) : Missing fs sym :=
  fun path hpath => absent_of_write (h path hpath)

end Expand

section Chain
variable {env : Env} {fs : Fs} {sym target expanded expanded' : SymbolicRef} {r r' next : BitRef} {oid : Oid} {depth : ℕ}

theorem expandSymref_of_missing (h : Missing fs sym) : expandSymref sym fs = .error (.nonExistentSymRef sym) :=
  expandSymref_missing_iff.mpr ⟨rfl,h⟩

theorem not_missing_of_expands (h : expandSymref sym fs = .ok expanded) : ¬Missing fs sym := by
  intro hmissing
  rw [expandSymref_of_missing hmissing] at h
  cases h

theorem Stored.unique (h : Stored fs sym expanded r) (h' : Stored fs sym expanded' r') : expanded = expanded' ∧ r = r' := by
  obtain ⟨hexpand,-,text,htext,rfl⟩ := h
  obtain ⟨hexpand',-,text',htext',rfl⟩ := h'
  rw [hexpand] at hexpand'
  cases hexpand'
  rw [htext] at htext'
  cases htext'
  exact ⟨rfl,rfl⟩

theorem Stored.isFile (h : Stored fs sym expanded r) : (fs.files (location expanded.path)).isSome := by
  obtain ⟨text,htext,-⟩ := h.holds
  rw [htext]
  rfl

theorem InFull.unique (h : InFull fs r next) (h' : InFull fs r r') : next = r' := by
  cases h with
  | direct oid =>
    cases h'
    rfl
  | found h =>
    cases h' with
    | found h' =>
      rw [h] at h'
      cases h'
      rfl
    | missing h' => exact absurd h' (not_missing_of_expands h)
  | missing h =>
    cases h' with
    | found h' => exact absurd h (not_missing_of_expands h')
    | missing h' => rfl

theorem Leads.unique (h : Leads fs r next) (h' : Leads fs r r') : next = r' := by
  obtain ⟨hstored,hnext⟩ := h
  obtain ⟨hstored',hnext'⟩ := h'
  obtain ⟨rfl,rfl⟩ := hstored.unique hstored'
  exact hnext.unique hnext'

theorem Follows.leads (h : Follows fs r next) : Leads fs r next := by
  obtain ⟨hstored,hnext⟩ := h
  exact ⟨hstored,.found hnext⟩

theorem not_leads_direct : ¬Leads fs (.Direct oid) next := nofun

theorem not_follows_direct : ¬Follows fs (.Direct oid) next := nofun

theorem not_leads_missing (h : Missing fs sym) : ¬Leads fs (.Symbolic sym) next := by
  rintro ⟨hstored,-⟩
  exact not_missing_of_expands hstored.expands h

/-- What a chain comes to after its first step. -/
theorem reaches_iff (h : Leads fs r next) : ReflTransGen (Leads fs) r r' ↔ r' = r ∨ ReflTransGen (Leads fs) next r' := by
  constructor
  · intro hreach
    rcases hreach.cases_head with rfl | ⟨s,hstep,hrest⟩
    · exact .inl rfl
    · obtain rfl := h.unique hstep
      exact .inr hrest
  · rintro (rfl | hreach)
    · exact .refl
    · exact .head h hreach

theorem reaches_of_stop (h : ∀ s, ¬Leads fs r s) : ReflTransGen (Leads fs) r r' ↔ r' = r := by
  constructor
  · intro hreach
    rcases hreach.cases_head with rfl | ⟨s,hstep,-⟩
    · rfl
    · exact absurd hstep (h s)
  · rintro rfl
    exact .refl

variable (env fs) in
/-- What reading a ref comes to. -/
inductive Layer (sym : SymbolicRef) : Except Error BitRef → Prop
  | commit {oid : Oid} (h : Leads fs (.Symbolic sym) (.Direct oid)) (hcommit : env.ensureObjIsCommit oid = .ok ()) :
    Layer sym (.ok (.Direct oid))
  | object {oid : Oid} {e : ObjectError} (h : Leads fs (.Symbolic sym) (.Direct oid))
    (hobject : env.ensureObjIsCommit oid = .error e) : Layer sym (.error (.object e))
  | found {next : SymbolicRef} (h : Follows fs (.Symbolic sym) (.Symbolic next)) : Layer sym (.ok (.Symbolic next))
  | missing {target : SymbolicRef} (h : Leads fs (.Symbolic sym) (.Symbolic target))
    (hstop : ∀ next, ¬Follows fs (.Symbolic sym) next) (hmissing : Missing fs target) :
    Layer sym (.error (.nonExistentSymRef target))
  | absent (h : Missing fs sym) : Layer sym (.error (.nonExistentSymRef sym))
  | directory {expanded : SymbolicRef} {text : String} (h : expandSymref sym fs = .ok expanded)
    (hfile : fs.files (location expanded.path) = none) : Layer sym (.error (.panic text))
  | failed {e : Error} (hstop : ∀ next, ¬Leads fs (.Symbolic sym) next) (hpresent : ¬Missing fs sym)
    (hfile : ∀ expanded, expandSymref sym fs = .ok expanded → (fs.files (location expanded.path)).isSome) (he : e.returned)
    (hne : ∀ target, e ≠ .nonExistentSymRef target) : Layer sym (.error e)

theorem Leads.stored (h : Leads fs (.Symbolic sym) next) : ∃ expanded r, Stored fs sym expanded r := by
  obtain ⟨hstored,-⟩ := h
  exact ⟨_,_,hstored⟩

/-- What a ref with a file of its own says is looked at while it is locked. -/
theorem layer_stored (env : Env) (h : Stored fs sym expanded r) :
    Layer env fs sym (validate env r (fs.withLock expanded.path)) := by
  cases r with
  | Direct oid =>
    have hleads : Leads fs (.Symbolic sym) (.Direct oid) := ⟨h,.direct oid⟩
    show Layer env fs sym ((env.ensureObjIsCommit oid).mapError .object >>= fun _ => .ok (.Direct oid))
    cases hobject : env.ensureObjIsCommit oid with
    | error e => exact .object hleads hobject
    | ok u => exact .commit hleads hobject
  | Symbolic target =>
    show Layer env fs sym ((expandSymref target (fs.withLock expanded.path)).map .Symbolic)
    cases hnext : expandSymref target (fs.withLock expanded.path) with
    | ok next => exact .found ⟨h,hnext⟩
    | error e =>
      have hstop : ∀ next, ¬Follows fs (.Symbolic sym) next := by
        rintro _ ⟨h',hnext'⟩
        obtain ⟨rfl,hsame⟩ := h.unique h'
        cases hsame
        rw [hnext] at hnext'
        cases hnext'
      by_cases hmissing : Missing (fs.withLock expanded.path) target
      · rw [expandSymref_of_missing hmissing] at hnext
        cases hnext
        exact .missing ⟨h,.missing hmissing⟩ hstop (missing_of_withLock hmissing)
      · refine .failed (fun next hleads => ?_) (not_missing_of_expands h.expands) (fun x hx => ?_) (expandSymref_go_error hnext)
          fun t he => ?_
        · obtain ⟨h',hfull⟩ := hleads
          obtain ⟨rfl,rfl⟩ := h.unique h'
          cases hfull with
          | found hfound => exact hstop _ ⟨h,hfound⟩
          | missing hnone => exact hmissing hnone
        · rw [h.expands] at hx
          cases hx
          exact h.isFile
        · subst he
          exact hmissing (expandSymref_missing_iff.mp hnext).2

theorem layer_read (env : Env) (fs : Fs) (sym : SymbolicRef) : Layer env fs sym (read env sym fs) := by
  unfold read
  cases hexpand : expandSymref sym fs with
  | error e =>
    show Layer env fs sym (.error e)
    by_cases hmissing : Missing fs sym
    · rw [expandSymref_of_missing hmissing] at hexpand
      cases hexpand
      exact .absent hmissing
    · refine .failed (fun next h => ?_) hmissing (by simp [hexpand]) (expandSymref_go_error hexpand) fun target he => ?_
      · obtain ⟨expanded,r,hstored⟩ := h.stored
        cases hexpand.symm.trans hstored.expands
      · subst he
        exact hmissing (expandSymref_missing_iff.mp hexpand).2
  | ok expanded =>
    have hpresent := not_missing_of_expands hexpand
    have hexpanded {x : SymbolicRef} (hx : expandSymref sym fs = .ok x) : x = expanded := Except.ok.inj (hx.symm.trans hexpand)
    show Layer env fs sym (fs.openLock expanded.path >>= fun _ => _)
    cases hfile : fs.files (location expanded.path) with
    | none =>
      rw [openLock_directory (expandSymref_go_exists hexpand) hfile]
      exact .directory hexpand hfile
    | some content =>
      have hsome : ∀ x, expandSymref sym fs = .ok x → (fs.files (location x.path)).isSome := by
        intro x hx
        rw [hexpanded hx,hfile]
        rfl
      cases hlock : fs.openLock expanded.path with
      | error e =>
        refine .failed (fun next h => ?_) hpresent hsome (openLock_error hlock (hsome expanded hexpand)) fun target he => ?_
        · obtain ⟨x,r,hstored⟩ := h.stored
          obtain rfl := hexpanded hstored.expands
          cases hlock.symm.trans hstored.unlocked
        · subst he
          exact openLock_ne_missing hlock
      | ok u =>
        cases content with
        | other bytes =>
          refine .failed (fun next h => ?_) hpresent hsome rfl nofun
          obtain ⟨x,r,hstored⟩ := h.stored
          obtain rfl := hexpanded hstored.expands
          obtain ⟨text,htext,-⟩ := hstored.holds
          cases hfile.symm.trans htext
        | utf8 text => exact layer_stored env ⟨hexpand,hlock,text,hfile,rfl⟩

/-- A step to a ref that exists leads to the same end. -/
theorem resolves_of_follows (h : Follows fs (.Symbolic sym) (.Symbolic target)) (result : Except Error BitRef) :
    Resolves env fs (.Symbolic sym) result ↔ Resolves env fs (.Symbolic target) result := by
  have hcommit (oid : Oid) : ReachesCommit env fs (.Symbolic sym) oid ↔ ReachesCommit env fs (.Symbolic target) oid := by
    rw [ReachesCommit,ReachesCommit,reaches_iff h.leads,or_iff_right nofun]
  have hmissing (s : SymbolicRef) : EndsMissing fs (.Symbolic sym) s ↔ EndsMissing fs (.Symbolic target) s := by
    rw [EndsMissing,EndsMissing,reaches_iff h.leads]
    refine and_congr_left fun hmissing => or_iff_right fun heq => ?_
    cases heq
    exact not_leads_missing hmissing h.leads
  constructor
  · rintro ⟨hdirect,hsymbolic,hreturned⟩
    exact ⟨fun oid => (hdirect oid).trans (hcommit oid),fun s => (hsymbolic s).trans (hmissing s),hreturned⟩
  · rintro ⟨hdirect,hsymbolic,hreturned⟩
    exact ⟨fun oid => (hdirect oid).trans (hcommit oid).symm,fun s => (hsymbolic s).trans (hmissing s).symm,hreturned⟩

theorem follows_unique (h : Follows fs r next) (h' : Follows fs r r') : next = r' := h.leads.unique h'.leads

theorem resolvable_of_follows (h : Follows fs (.Symbolic sym) (.Symbolic target)) :
    Resolvable env fs (depth+1) (.Symbolic sym) ↔ Resolvable env fs depth (.Symbolic target) := by
  constructor
  · rintro ⟨hshort,hfiles,hobjects⟩
    refine ⟨fun chain hchain => ?_,fun s x hreach => hfiles s x (.head h.leads hreach),fun oid hreach =>
      hobjects oid (.head h.leads hreach)⟩
    exact Nat.le_of_succ_le_succ (hshort (.Symbolic target::chain) (.cons_cons h hchain))
  · rintro ⟨hshort,hfiles,hobjects⟩
    refine ⟨fun chain hchain => ?_,fun s x hreach hx => ?_,fun oid hreach => ?_⟩
    · cases hchain with
      | singleton => exact Nat.le_add_left 1 depth
      | cons_cons h' hrest =>
        obtain rfl := follows_unique h h'
        exact Nat.succ_le_succ (hshort _ hrest)
    · rcases (reaches_iff h.leads).mp hreach with heq | hreach
      · cases heq
        obtain ⟨hstored,-⟩ := h
        cases hstored.expands.symm.trans hx
        exact hstored.isFile
      · exact hfiles s x hreach hx
    · rcases (reaches_iff h.leads).mp hreach with heq | hreach
      · cases heq
      · exact hobjects oid hreach

/-- A chain of which no step leads to a ref that exists. -/
theorem resolvable_of_stop (h : ∀ next, ¬Follows fs r next) :
    Resolvable env fs (depth+1) r ↔
      (∀ sym expanded, ReflTransGen (Leads fs) r (.Symbolic sym) → expandSymref sym fs = .ok expanded →
        (fs.files (location expanded.path)).isSome) ∧
      ∀ oid, ReflTransGen (Leads fs) r (.Direct oid) → env.ensureObjIsCommit oid ≠ .error .panic := by
  constructor
  · rintro ⟨-,hfiles,hobjects⟩
    exact ⟨hfiles,hobjects⟩
  · rintro ⟨hfiles,hobjects⟩
    refine ⟨fun chain hchain => ?_,hfiles,hobjects⟩
    cases hchain with
    | singleton => exact Nat.le_add_left 1 depth
    | cons_cons hstep => exact absurd hstep (h _)

/-- A chain has one end. -/
theorem reaches_end_iff {last : BitRef} (hreach : ReflTransGen (Leads fs) r last) (hlast : ∀ s, ¬Leads fs last s)
    (hstop : ∀ s, ¬Leads fs r' s) : ReflTransGen (Leads fs) r r' ↔ r' = last := by
  induction hreach using ReflTransGen.head_induction_on with
  | refl => exact reaches_of_stop hlast
  | @head a c hstep _ ih =>
    rw [reaches_iff hstep,ih]
    refine or_iff_right ?_
    rintro rfl
    exact hstop _ hstep

theorem resolves_of_end {last : BitRef} {result : Except Error BitRef} (hreach : ReflTransGen (Leads fs) r last)
    (hlast : ∀ s, ¬Leads fs last s) :
    Resolves env fs r result ↔
      (∀ oid, result = .ok (.Direct oid) ↔ last = .Direct oid ∧ env.ensureObjIsCommit oid = .ok ()) ∧
      (∀ s, result = .ok (.Symbolic s) ↔ last = .Symbolic s ∧ Missing fs s) ∧ ∀ e, result = .error e → e.returned := by
  have hcommit (oid : Oid) : ReachesCommit env fs r oid ↔ last = .Direct oid ∧ env.ensureObjIsCommit oid = .ok () := by
    rw [ReachesCommit,reaches_end_iff hreach hlast fun _ => not_leads_direct,eq_comm]
  have hmissing (s : SymbolicRef) : EndsMissing fs r s ↔ last = .Symbolic s ∧ Missing fs s := by
    rw [EndsMissing]
    refine and_congr_left fun hmissing => ?_
    rw [reaches_end_iff hreach hlast fun _ => not_leads_missing hmissing,eq_comm]
  constructor
  · rintro ⟨hdirect,hsymbolic,hreturned⟩
    exact ⟨fun oid => (hdirect oid).trans (hcommit oid),fun s => (hsymbolic s).trans (hmissing s),hreturned⟩
  · rintro ⟨hdirect,hsymbolic,hreturned⟩
    exact ⟨fun oid => (hdirect oid).trans (hcommit oid).symm,fun s => (hsymbolic s).trans (hmissing s).symm,hreturned⟩

theorem file_of_leads (h : Leads fs (.Symbolic sym) next) (hx : expandSymref sym fs = .ok expanded) :
    (fs.files (location expanded.path)).isSome := by
  obtain ⟨x,r,hstored⟩ := h.stored
  cases hstored.expands.symm.trans hx
  exact hstored.isFile

theorem not_follows_of_direct (h : Leads fs r (.Direct oid)) : ¬Follows fs r next := by
  intro hfollows
  obtain rfl := h.unique hfollows.leads
  cases hfollows

theorem resolvable_direct : Resolvable env fs (depth+1) (.Direct oid) ↔ env.ensureObjIsCommit oid ≠ .error .panic := by
  rw [resolvable_of_stop fun _ => not_follows_direct]
  simp only [reaches_of_stop fun _ => not_leads_direct]
  constructor
  · rintro ⟨-,hobjects⟩
    exact hobjects oid rfl
  · intro hobject
    exact ⟨nofun,fun oid' heq => BitRef.Direct.inj heq ▸ hobject⟩

/-- A ref that does not lead on. -/
theorem resolvable_of_stuck (h : ∀ next, ¬Leads fs (.Symbolic sym) next) :
    Resolvable env fs (depth+1) (.Symbolic sym) ↔
      ∀ expanded, expandSymref sym fs = .ok expanded → (fs.files (location expanded.path)).isSome := by
  rw [resolvable_of_stop fun next hfollows => h next hfollows.leads]
  simp only [reaches_of_stop h]
  constructor
  · rintro ⟨hfiles,-⟩ expanded
    exact hfiles sym expanded rfl
  · intro hfile
    exact ⟨fun s expanded heq => BitRef.Symbolic.inj heq ▸ hfile expanded,nofun⟩

theorem stops_of_last {last : BitRef} (hlast : ∀ s, last = .Symbolic s → Missing fs s) : ∀ next, ¬Leads fs last next := by
  intro next
  cases last with
  | Direct oid => exact not_leads_direct
  | Symbolic s => exact not_leads_missing (hlast s rfl)

/-- A ref that leads to the end of the chain. -/
theorem resolvable_of_last {last : BitRef} (h : Leads fs (.Symbolic sym) last) (hstop : ∀ next, ¬Follows fs (.Symbolic sym) next)
    (hlast : ∀ s, last = .Symbolic s → Missing fs s) :
    Resolvable env fs (depth+1) (.Symbolic sym) ↔ ∀ oid, last = .Direct oid → env.ensureObjIsCommit oid ≠ .error .panic := by
  rw [resolvable_of_stop hstop]
  simp only [reaches_iff h,reaches_of_stop (stops_of_last hlast)]
  constructor
  · rintro ⟨-,hobjects⟩ oid heq
    exact hobjects oid (.inr heq.symm)
  · intro hobject
    refine ⟨fun s expanded hreach hx => ?_,fun oid hreach => ?_⟩
    · rcases hreach with heq | heq
      · exact file_of_leads h (BitRef.Symbolic.inj heq ▸ hx)
      · exact absurd (hlast s heq.symm) (not_missing_of_expands hx)
    · rcases hreach with heq | heq
      · cases heq
      · exact hobject oid heq.symm

theorem resolvable_of_last_object (h : Leads fs (.Symbolic sym) (.Direct oid)) :
    Resolvable env fs (depth+1) (.Symbolic sym) ↔ env.ensureObjIsCommit oid ≠ .error .panic := by
  rw [resolvable_of_last h (fun _ => not_follows_of_direct h) nofun]
  constructor
  · intro hobjects
    exact hobjects oid rfl
  · intro hobject oid' heq
    exact BitRef.Direct.inj heq ▸ hobject

theorem resolves_object_iff (h : ReflTransGen (Leads fs) r (.Direct oid)) :
    Resolves env fs r ((env.ensureObjIsCommit oid).mapError .object >>= fun _ => .ok (.Direct oid)) ↔
      env.ensureObjIsCommit oid ≠ .error .panic := by
  rw [resolves_of_end h fun _ => not_leads_direct]
  cases hobject : env.ensureObjIsCommit oid with
  | ok u =>
    refine iff_of_true ⟨fun oid' => ?_,fun s => ⟨nofun,fun h => nomatch h.1⟩,nofun⟩ nofun
    constructor
    · intro heq
      cases heq
      exact ⟨rfl,hobject⟩
    · rintro ⟨heq,-⟩
      cases heq
      rfl
  | error e =>
    constructor
    · rintro ⟨-,-,hreturned⟩ heq
      cases heq
      exact nomatch hreturned (.object .panic) rfl
    · intro hne
      refine ⟨fun oid' => ⟨nofun,?_⟩,fun s => ⟨nofun,fun h => nomatch h.1⟩,fun e' he' => ?_⟩
      · rintro ⟨heq,hcommit⟩
        cases heq
        cases hobject.symm.trans hcommit
      · cases he'
        exact decide_eq_true fun heq => hne (heq ▸ rfl)

theorem resolves_missing (h : ReflTransGen (Leads fs) r (.Symbolic sym)) (hmissing : Missing fs sym) :
    Resolves env fs r (.ok (.Symbolic sym)) := by
  rw [resolves_of_end h fun _ => not_leads_missing hmissing]
  refine ⟨fun oid => ⟨nofun,fun h => nomatch h.1⟩,fun s => ?_,nofun⟩
  constructor
  · intro heq
    cases heq
    exact ⟨rfl,hmissing⟩
  · rintro ⟨heq,-⟩
    cases heq
    rfl

/-- What is made of an oid is right exactly if looking it up does not panic. -/
theorem resolves_object_iff_resolvable (env : Env) (depth : ℕ) (h : Leads fs (.Symbolic sym) (.Direct oid)) :
    Resolves env fs (.Symbolic sym) ((env.ensureObjIsCommit oid).mapError .object >>= fun _ => .ok (.Direct oid)) ↔
      Resolvable env fs (depth+1) (.Symbolic sym) :=
  (resolves_object_iff (.single h)).trans (resolvable_of_last_object h).symm

theorem catchNonExistent_error {e : Error} (hne : ∀ target, e ≠ .nonExistentSymRef target) :
    catchNonExistent (.error e) = .error e := by
  unfold catchNonExistent
  split
  · rename_i target heq
    exact absurd (Except.error.inj heq) (hne target)
  · rfl

theorem resolves_failed (env : Env) {e : Error} (hstop : ∀ next, ¬Leads fs (.Symbolic sym) next) (hpresent : ¬Missing fs sym)
    (he : e.returned) : Resolves env fs (.Symbolic sym) (.error e) := by
  rw [resolves_of_end .refl hstop]
  refine ⟨fun oid => ⟨nofun,fun h => nomatch h.1⟩,fun s => ⟨nofun,?_⟩,fun e' he' => ?_⟩
  · rintro ⟨heq,hmissing⟩
    cases heq
    exact absurd hmissing hpresent
  · cases he'
    exact he

/-- A reference is resolved as the chain from it says exactly if the chain is not longer than the stack, no ref on it is a
directory, and looking up the object at its end does not panic. -/
theorem resolveIn_resolves_iff (env : Env) (fs : Fs) (depth : ℕ) (reference : BitRef) :
    Resolves env fs reference (resolveIn env fs depth reference) ↔ Resolvable env fs depth reference := by
  induction depth generalizing reference with
  | zero =>
    refine iff_of_false (fun h => ?_) fun h => ?_
    · exact Bool.false_ne_true (h.returned .stackOverflow rfl)
    · exact Nat.not_succ_le_zero 0 (h.short [] (.singleton reference))
  | succ depth ih =>
    cases reference with
    | Direct oid =>
      have hresult : resolveIn env fs (depth+1) (.Direct oid) =
          (env.ensureObjIsCommit oid).mapError .object >>= fun _ => .ok (.Direct oid) := by
        rw [resolveIn,partiallyResolve,validate]
        cases env.ensureObjIsCommit oid <;> rfl
      rw [hresult,resolvable_direct,resolves_object_iff .refl]
    | Symbolic sym =>
      have hlayer := layer_read env fs sym
      simp only [resolveIn,partiallyResolve]
      generalize read env sym fs = result at hlayer
      cases hlayer with
      | commit h hcommit =>
        have hobject := resolves_object_iff_resolvable env depth h
        rw [hcommit] at hobject
        exact hobject
      | object h hfails =>
        have hobject := resolves_object_iff_resolvable env depth h
        rw [hfails] at hobject
        exact hobject
      | found h => exact (resolves_of_follows h _).trans ((ih _).trans (resolvable_of_follows h).symm)
      | @missing target h hstop hmissing =>
        refine iff_of_true (resolves_missing (.single h) hmissing) ?_
        rw [resolvable_of_last h hstop fun s heq => BitRef.Symbolic.inj heq ▸ hmissing]
        rintro oid ⟨⟩
      | absent h =>
        refine iff_of_true (resolves_missing .refl h) ?_
        rw [resolvable_of_stuck fun _ => not_leads_missing h]
        exact fun x hx => absurd h (not_missing_of_expands hx)
      | @directory expanded text h hfile =>
        refine iff_of_false (fun hresolves => ?_) fun hresolvable => ?_
        · exact Bool.false_ne_true (hresolves.returned (.panic text) rfl)
        · have hsome := hresolvable.files sym expanded .refl h
          rw [hfile] at hsome
          cases hsome
      | failed hstop hpresent hfile he hne =>
        refine iff_of_true ?_ ((resolvable_of_stuck hstop).mpr hfile)
        have hcaught := resolves_failed env hstop hpresent he
        rw [← catchNonExistent_error hne] at hcaught
        exact hcaught

theorem read_eq_symbolic_iff (env : Env) : read env sym fs = .ok (.Symbolic target) ↔ Follows fs (.Symbolic sym) (.Symbolic target) := by
  constructor
  · intro hread
    have hlayer := layer_read env fs sym
    rw [hread] at hlayer
    cases hlayer with
    | found h => exact h
  · rintro ⟨hstored,hnext⟩
    obtain ⟨hexpand,hlock,text,hfile,htext⟩ := hstored
    simp only [read,hexpand,hlock,hfile,htext,validate,hnext,bind,Except.bind,Except.map]

/-- On a cycle there is never enough stack. -/
theorem resolveIn_cycle (env : Env) {again : BitRef} (hreach : ReflTransGen (Follows fs) r again)
    (hcycle : TransGen (Follows fs) again again) (depth : ℕ) : resolveIn env fs depth r = .error .stackOverflow := by
  induction depth generalizing r with
  | zero => rfl
  | succ depth ih =>
    obtain ⟨next,hstep,hrest⟩ : ∃ next, Follows fs r next ∧ ReflTransGen (Follows fs) next again := by
      rcases hreach.cases_head with rfl | h
      · exact TransGen.head'_iff.mp hcycle
      · exact h
    have hnext := ih hrest
    cases hstep with
    | @mk sym expanded target next hstored hexpand =>
      have hread : read env sym fs = .ok (.Symbolic next) := (read_eq_symbolic_iff env).mpr ⟨hstored,hexpand⟩
      rw [resolveIn,partiallyResolve,hread]
      exact hnext

end Chain

section Commit
variable {env : Env} {fs : Fs} {r : BitRef} {oid oid' : Oid} {depth : ℕ}

theorem validate_direct (h : validate env r fs = .ok (.Direct oid)) : r = .Direct oid ∧ env.ensureObjIsCommit oid = .ok () := by
  cases r with
  | Direct o =>
    obtain ⟨⟨⟩,hcommit,h⟩ := except_bind_eq_ok.mp h
    cases h
    refine ⟨rfl,?_⟩
    cases hensure : env.ensureObjIsCommit oid with
    | error e =>
      rw [hensure] at hcommit
      cases hcommit
    | ok u => rfl
  | Symbolic sym =>
    rw [validate] at h
    cases hexpand : expandSymref sym fs <;> rw [hexpand] at h <;> cases h

theorem partiallyResolve_direct (h : partiallyResolve env r fs = .ok (.Direct oid)) : env.ensureObjIsCommit oid = .ok () := by
  cases r with
  | Direct o =>
    rw [partiallyResolve] at h
    exact (validate_direct h).2
  | Symbolic sym =>
    obtain ⟨expanded,-,h⟩ := except_bind_eq_ok.mp h
    obtain ⟨⟨⟩,-,h⟩ := except_bind_eq_ok.mp h
    split at h
    · cases h
    · cases h
    · exact (validate_direct h).2

/-- What a reference resolves to has been looked up. -/
theorem resolveIn_direct (h : resolveIn env fs depth r = .ok (.Direct oid)) : env.ensureObjIsCommit oid = .ok () ∧ 0 < depth := by
  induction depth generalizing r with
  | zero => cases h
  | succ depth ih =>
    refine ⟨?_,depth.succ_pos⟩
    rw [resolveIn] at h
    split at h
    · exact (ih h).1
    · unfold catchNonExistent at h
      split at h
      · cases h
      · exact partiallyResolve_direct h

theorem fullyResolve_commit (h : fullyResolve env r fs = .ok oid) : env.ensureObjIsCommit oid = .ok () ∧ 0 < env.stackDepth := by
  obtain ⟨resolved,hresolve,h⟩ := except_bind_eq_ok.mp h
  cases resolved with
  | Symbolic sym => cases h
  | Direct o =>
    cases h
    exact resolveIn_direct hresolve

theorem fullyResolve_direct : fullyResolve env (.Direct oid) fs = .ok oid' ↔
    oid' = oid ∧ env.ensureObjIsCommit oid = .ok () ∧ 0 < env.stackDepth := by
  constructor
  · intro h
    obtain ⟨hcommit',hdepth⟩ := fullyResolve_commit h
    obtain ⟨depth,hsucc⟩ := Nat.exists_eq_add_of_le' hdepth
    rw [fullyResolve,resolve,hsucc,resolveIn,partiallyResolve,validate] at h
    cases hcommit : env.ensureObjIsCommit oid with
    | error e =>
      rw [hcommit] at h
      cases h
    | ok u =>
      rw [hcommit] at h
      cases h
      exact ⟨rfl,rfl,hdepth⟩
  · rintro ⟨rfl,hcommit,hdepth⟩
    obtain ⟨depth,hsucc⟩ := Nat.exists_eq_add_of_le' hdepth
    rw [fullyResolve,resolve,hsucc,resolveIn,partiallyResolve,validate,hcommit]
    rfl

end Commit

def branch (name : String) : SymbolicRef := ⟨("refs/heads/"++name).toList⟩

/-- `HEAD` refers to `a`, `a` to `b`, and `b` to `a`. -/
def cycleFs : Fs :=
  ((Fs.empty.withRef SymbolicRef.HEAD (.Symbolic (branch "a"))).withRef (branch "a") (.Symbolic (branch "b"))).withRef (branch "b")
    (.Symbolic (branch "a"))

end Refs
end Libbit
