import Libbit.RevspecGrammar
import Libbit.RefResolve

/-! What a revision stands for (`rev.rs`): the evaluation of a parsed one, and the text that it is shown as. What reading a
commit says about its parents is a parameter. -/
namespace Libbit
namespace Rev

open Lib
open Refs (Text BitRef SymbolicRef Env Fs fullyResolve validate readHead readReflog)

namespace ParsedRevspec

/-- `Display for ParsedRevspec`: a first ancestor is shown as a first parent. -/
def display : ParsedRevspec → Text
  | .Ref r => r.display
  | .Parent rev n => rev.display++if n = 1 then ['^'] else '^'::Nat.toDigits 10 n
  | .Ancestor rev n => rev.display++if n = 1 then ['^'] else '~'::Nat.toDigits 10 n
  | .Reflog rev n => rev.display++ '@':: '{'::(Nat.toDigits 10 n++['}'])

def base : ParsedRevspec → BitRef
  | .Ref r => r
  | .Parent rev _ => rev.base
  | .Ancestor rev _ => rev.base
  | .Reflog rev _ => rev.base

/-- The suffixes, the innermost first. -/
def suffixes : ParsedRevspec → List Suffix
  | .Ref _ => []
  | .Parent rev n => rev.suffixes++[.parent n]
  | .Ancestor rev n => rev.suffixes++[.ancestor n]
  | .Reflog rev n => rev.suffixes++[.reflog n]

end ParsedRevspec

/-! ### Evaluation -/

section Resolve
variable (env : Env) (parentsOf : Oid → Except Refs.Error (List Oid))

/-- `get_nth_parent`; an error shows the revision that is resolved. -/
def getNthParent (rev : ParsedRevspec) (reference : BitRef) (n : ℕ) (fs : Fs) : Except Refs.Error BitRef := do
  let oid ← fullyResolve env reference fs
  if n = 0 then .ok (.Direct oid)
  else do
    let parents ← parentsOf oid
    if parents = [] then
      .error (.message ("revision `"++String.ofList rev.display++"` refers to the parent of an initial commit"))
    else match parents[n-1]? with
      | some parent => .ok (.Direct parent)
      | none => .error (.message ("attempted to access parent "++toString n++" (indexed starting from 1) of commit `"++
        String.ofList (Packfile.Oid.toHex oid)++"` but it only has "++toString parents.length++" parent"++
        if parents.length = 1 then "" else "s"))

/-- The entry of a reflog, which only a reference by name has. -/
def getReflogEntry (n : ℕ) (fs : Fs) : BitRef → Except Refs.Error BitRef
  | .Direct _ => .error (.message "can't use reflog revision syntax on a direct reference")
  | .Symbolic sym => do
    let lock ← readReflog sym fs
    match lock.data.get n with
    | some entry => .ok (.Direct entry.newOid)
    | none => .error (.message ("index `"++toString n++"` is out of range in reflog with `"++toString lock.data.len++"` entries"))

/-- HEAD is resolved once. -/
def resolveRevInternal (fs : Fs) : ParsedRevspec → Except Refs.Error BitRef
  | .Ref r => if r = BitRef.HEAD then readHead env fs else validate env r fs
  | .Parent inner n => do getNthParent env parentsOf (.Parent inner n) (← resolveRevInternal fs inner) n fs
  | .Ancestor inner n => do
    (List.range n).foldlM (fun reference _ => getNthParent env parentsOf (.Ancestor inner n) reference 1 fs)
      (← resolveRevInternal fs inner)
  | .Reflog inner n => do getReflogEntry n fs (← resolveRevInternal fs inner)

inductive RevError
  | parse (e : Error)
  | resolve (e : Refs.Error)
  deriving DecidableEq

variable (debug : Bool) (expandPrefix : Packfile.PartialOid → Option Oid)

def resolveRev (rev : Text) (fs : Fs) : Except RevError BitRef := do
  let parsed ← (parse debug expandPrefix rev).mapError .parse
  (resolveRevInternal env parentsOf fs parsed).mapError .resolve

def fullyResolveRev (rev : Text) (fs : Fs) : Except RevError Oid := do
  let reference ← resolveRev env parentsOf debug expandPrefix rev fs
  (fullyResolve env reference fs).mapError .resolve

end Resolve

/-- A reflog of a revision that is a reference is read as the log module does. -/
theorem resolveRevInternal_reflog (env : Env) (parentsOf : Oid → Except Refs.Error (List Oid)) (r : BitRef) (n : ℕ) (fs : Fs) :
    resolveRevInternal env parentsOf fs (.Reflog (.Ref r) n) = Refs.resolveReflogRev env r n fs := by
  simp only [resolveRevInternal,Refs.resolveReflogRev]
  cases (if r = BitRef.HEAD then readHead env fs else validate env r fs) with
  | error e => rfl
  | ok reference =>
    cases reference with
    | Direct oid => rfl
    | Symbolic sym => rfl

/-! ### The text of a revision -/

/-- What the parser makes of the suffix that is shown. -/
def Suffix.shown : Suffix → Suffix
  | .ancestor n => if n = 1 then .parent 1 else .ancestor n
  | x => x

def Suffix.text : Suffix → Text
  | .parent n => if n = 1 then ['^'] else '^'::Nat.toDigits 10 n
  | .ancestor n => if n = 1 then ['^'] else '~'::Nat.toDigits 10 n
  | .reflog n => '@':: '{'::(Nat.toDigits 10 n++['}'])

/-- The revision that its text is read as. -/
def ParsedRevspec.shown : ParsedRevspec → ParsedRevspec
  | .Ref r => .Ref r
  | .Parent rev n => .Parent rev.shown n
  | .Ancestor rev n => if n = 1 then .Parent rev.shown 1 else .Ancestor rev.shown n
  | .Reflog rev n => .Reflog rev.shown n

def Suffix.number : Suffix → ℕ
  | .parent n => n
  | .ancestor n => n
  | .reflog n => n

/-- The parser reads the base back, which is a text without separators, and the numbers are those of the machine. -/
structure Readable (debug : Bool) (expandPrefix : Packfile.PartialOid → Option Oid) (rev : ParsedRevspec) : Prop where
  plain : Plain rev.base.display
  start : ∃ c s, rev.base.display = c::s ∧ c.utf8Size = 1
  base : baseRef debug expandPrefix rev.base.display = .ok rev.base
  numbers : ∀ x ∈ rev.suffixes, x.number < 2^64

section Text
variable {debug : Bool} {expandPrefix : Packfile.PartialOid → Option Oid} {rev : ParsedRevspec} {x : Suffix} {n : ℕ}

theorem number_toDigits (h : n < 2^64) : Number (Nat.toDigits 10 n) n where
  nonempty := Nat.toDigits_ne_nil
  digits c hc := isDigit_of_mem hc
  value := Nat.ofDigitChars_toDigits (by decide) (by decide)
  small := h

theorem isSuffix_text (h : x.number < 2^64) : IsSuffix x.text x.shown := by
  cases x with
  | parent n =>
    by_cases hn : n = 1
    · subst hn
      exact .firstParent
    · rw [Suffix.text,if_neg hn]
      exact .parent (number_toDigits h)
  | ancestor n =>
    by_cases hn : n = 1
    · subst hn
      exact .firstParent
    · rw [Suffix.text,if_neg hn,Suffix.shown,if_neg hn]
      exact .ancestor (number_toDigits h)
  | reflog n => exact .reflog (number_toDigits h)

theorem suffixes_text {xs : List Suffix} (h : ∀ x ∈ xs, x.number < 2^64) : Suffixes (xs.flatMap Suffix.text) (xs.map Suffix.shown) := by
  induction xs with
  | nil => exact .nil
  | cons x xs ih => exact .cons (isSuffix_text (h x List.mem_cons_self)) (ih fun y hy => h y (List.mem_cons_of_mem x hy))

theorem display_eq (rev : ParsedRevspec) : rev.display = rev.base.display++rev.suffixes.flatMap Suffix.text := by
  induction rev with
  | Ref r => simp [ParsedRevspec.display,ParsedRevspec.base,ParsedRevspec.suffixes]
  | Parent rev n ih => simp [ParsedRevspec.display,ParsedRevspec.base,ParsedRevspec.suffixes,ih,Suffix.text]
  | Ancestor rev n ih => simp [ParsedRevspec.display,ParsedRevspec.base,ParsedRevspec.suffixes,ih,Suffix.text]
  | Reflog rev n ih => simp [ParsedRevspec.display,ParsedRevspec.base,ParsedRevspec.suffixes,ih,Suffix.text]

theorem foldl_shown (rev : ParsedRevspec) : (rev.suffixes.map Suffix.shown).foldl Suffix.wrap (.Ref rev.base) = rev.shown := by
  induction rev with
  | Ref r => rfl
  | Parent rev n ih => simp [ParsedRevspec.suffixes,ParsedRevspec.base,ParsedRevspec.shown,Suffix.shown,ih,Suffix.wrap]
  | Ancestor rev n ih =>
    by_cases hn : n = 1 <;>
      simp [ParsedRevspec.suffixes,ParsedRevspec.base,ParsedRevspec.shown,Suffix.shown,ih,Suffix.wrap,hn]
  | Reflog rev n ih => simp [ParsedRevspec.suffixes,ParsedRevspec.base,ParsedRevspec.shown,Suffix.shown,ih,Suffix.wrap]

theorem parse_display (h : Readable debug expandPrefix rev) : parse debug expandPrefix rev.display = .ok rev.shown := by
  obtain ⟨c,s,hstart,hc⟩ := h.start
  have hderives : Derives rev.display rev.base.display (rev.suffixes.map Suffix.shown) := by
    refine ⟨.inr ⟨by simp [hstart],h.plain⟩,_,display_eq rev,suffixes_text h.numbers⟩
  obtain ⟨hbase,-,hrest⟩ := derives_iff.mp hderives
  have hcons : rev.display = c::(s++rev.suffixes.flatMap Suffix.text) := by rw [display_eq,hstart,List.cons_append]
  have hparse := @parse_cons debug expandPrefix (s++rev.suffixes.flatMap Suffix.text) c hc
  rw [← hcons,← hbase,h.base] at hparse
  have hread := hparse.trans (loose_ok hrest.loose le_rfl)
  rwa [foldl_shown] at hread

end Text

/-! ### The text means the same -/

section Meaning
variable {env : Env} {parentsOf : Oid → Except Refs.Error (List Oid)} {fs : Fs}

theorem display_shown (rev : ParsedRevspec) : rev.shown.display = rev.display := by
  induction rev with
  | Ref r => rfl
  | Parent rev n ih => simp [ParsedRevspec.shown,ParsedRevspec.display,ih]
  | Ancestor rev n ih => by_cases hn : n = 1 <;> simp [ParsedRevspec.shown,ParsedRevspec.display,ih,hn]
  | Reflog rev n ih => simp [ParsedRevspec.shown,ParsedRevspec.display,ih]

/-- Only the text of the revision is looked at. -/
theorem getNthParent_congr {rev rev' : ParsedRevspec} (h : rev.display = rev'.display) :
    getNthParent env parentsOf rev = getNthParent env parentsOf rev' := by
  funext reference n fs
  simp only [getNthParent,h]

/-- A first ancestor is a first parent, also in what the errors say. -/
theorem resolve_shown (env : Env) (parentsOf : Oid → Except Refs.Error (List Oid)) (fs : Fs) (rev : ParsedRevspec) :
    resolveRevInternal env parentsOf fs rev.shown = resolveRevInternal env parentsOf fs rev := by
  induction rev with
  | Ref r => rfl
  | Parent rev n ih =>
    have htext : (ParsedRevspec.Parent rev.shown n).display = (ParsedRevspec.Parent rev n).display := display_shown (.Parent rev n)
    simp only [ParsedRevspec.shown,resolveRevInternal,ih,getNthParent_congr htext]
  | Ancestor rev n ih =>
    have htext := display_shown (.Ancestor rev n)
    by_cases hn : n = 1
    · subst hn
      rw [ParsedRevspec.shown,if_pos rfl] at htext ⊢
      simp only [resolveRevInternal,ih,getNthParent_congr htext,List.range_one,List.foldlM_cons,List.foldlM_nil,bind_pure]
    · rw [ParsedRevspec.shown,if_neg hn] at htext ⊢
      simp only [resolveRevInternal,ih,getNthParent_congr htext]
  | Reflog rev n ih => simp only [ParsedRevspec.shown,resolveRevInternal,ih]

end Meaning

/-- `m^2^@{0}`, with a first ancestor. -/
def sampleRev : ParsedRevspec := .Reflog (.Ancestor (.Parent (.Ref (.Symbolic ⟨['m']⟩)) 2) 1) 0

theorem readable_sample : Readable false (fun _ => none) sampleRev where
  plain c hc := by
    obtain rfl : c = 'm' := List.mem_singleton.mp hc
    decide
  start := ⟨'m',[],rfl,by decide⟩
  base := by decide +kernel
  numbers := by simp [sampleRev,ParsedRevspec.suffixes,Suffix.number]

namespace ParsedRevspec

/-- Where the parents are counted from: a reference, or an entry of a reflog. -/
def anchor : ParsedRevspec → ParsedRevspec
  | .Ref r => .Ref r
  | .Parent rev _ => rev.anchor
  | .Ancestor rev _ => rev.anchor
  | .Reflog rev n => .Reflog rev n

/-- The numbers of the parents that are followed from there. -/
def steps : ParsedRevspec → List ℕ
  | .Ref _ => []
  | .Parent rev n => rev.steps++if n = 0 then [] else [n]
  | .Ancestor rev n => rev.steps++List.replicate n 1
  | .Reflog _ _ => []

end ParsedRevspec

section Steps
variable (env : Env) (parentsOf : Oid → Except Refs.Error (List Oid)) (fs : Fs)

/-- From commit to commit, each by the number of a parent of the one before. -/
inductive Walk : Oid → List ℕ → Oid → Prop
  | here (c : Oid) : Walk c [] c
  | step {c p d : Oid} {n : ℕ} {ns : List ℕ} {parents : List Oid} (hparents : parentsOf c = .ok parents)
    (hp : parents[n-1]? = some p) (hcommit : env.ensureObjIsCommit p = .ok ()) (h : Walk p ns d) : Walk c (n::ns) d

def fullyResolveInternal (rev : ParsedRevspec) : Except Refs.Error Oid := do
  fullyResolve env (← resolveRevInternal env parentsOf fs rev) fs

variable {env parentsOf fs} {c d e : Oid} {ns ms : List ℕ} {rev : ParsedRevspec} {n : ℕ}

theorem Walk.append (h : Walk env parentsOf c ns d) (h' : Walk env parentsOf d ms e) : Walk env parentsOf c (ns++ms) e := by
  induction h with
  | here c => exact h'
  | step hparents hp hcommit _ ih => exact .step hparents hp hcommit (ih h')

theorem walk_append_iff : Walk env parentsOf c (ns++ms) e ↔ ∃ d, Walk env parentsOf c ns d ∧ Walk env parentsOf d ms e := by
  constructor
  · intro h
    induction ns generalizing c with
    | nil => exact ⟨c,.here c,h⟩
    | cons n ns ih =>
      cases h with
      | step hparents hp hcommit h =>
        obtain ⟨d,hd,he⟩ := ih h
        exact ⟨d,.step hparents hp hcommit hd,he⟩
  · rintro ⟨d,hd,he⟩
    exact hd.append he

theorem walk_nil : Walk env parentsOf c [] d ↔ d = c := by
  constructor
  · rintro ⟨⟩
    rfl
  · rintro rfl
    exact .here d

theorem exists_walk_nil (P : Oid → Prop) : (∃ c, P c ∧ Walk env parentsOf c [] d) ↔ P d := by
  constructor
  · rintro ⟨c,h,hwalk⟩
    rwa [walk_nil.mp hwalk]
  · exact fun h => ⟨d,h,.here d⟩

theorem walk_singleton : Walk env parentsOf c [n] d ↔
    ∃ parents, parentsOf c = .ok parents ∧ parents[n-1]? = some d ∧ env.ensureObjIsCommit d = .ok () := by
  constructor
  · rintro (_ | ⟨hparents,hp,hcommit,⟨⟩⟩)
    exact ⟨_,hparents,hp,hcommit⟩
  · rintro ⟨parents,hparents,hp,hcommit⟩
    exact .step hparents hp hcommit (.here d)

/-- Parent 0 is the commit itself. -/
theorem getNthParent_zero (rev : ParsedRevspec) (reference : BitRef) :
    (getNthParent env parentsOf rev reference 0 fs >>= fun r => fullyResolve env r fs) = .ok d ↔
      fullyResolve env reference fs = .ok d := by
  constructor
  · intro h
    obtain ⟨r,hget,hfull⟩ := except_bind_eq_ok.mp h
    obtain ⟨oid,hoid,hget⟩ := except_bind_eq_ok.mp hget
    cases hget
    obtain ⟨rfl,-⟩ := Refs.fullyResolve_direct.mp hfull
    exact hoid
  · intro h
    refine except_bind_eq_ok.mpr ⟨.Direct d,except_bind_eq_ok.mpr ⟨d,h,rfl⟩,?_⟩
    exact Refs.fullyResolve_direct.mpr ⟨rfl,Refs.fullyResolve_commit h⟩

/-- One parent, in full. -/
theorem getNthParent_step (rev : ParsedRevspec) (reference : BitRef) (hn : n ≠ 0) :
    (getNthParent env parentsOf rev reference n fs >>= fun r => fullyResolve env r fs) = .ok d ↔
      ∃ c, fullyResolve env reference fs = .ok c ∧ Walk env parentsOf c [n] d := by
  constructor
  · intro h
    obtain ⟨r,hget,hfull⟩ := except_bind_eq_ok.mp h
    obtain ⟨c,hc,hget⟩ := except_bind_eq_ok.mp hget
    rw [if_neg hn] at hget
    obtain ⟨parents,hparents,hget⟩ := except_bind_eq_ok.mp hget
    split at hget
    · cases hget
    split at hget
    · rename_i p hp
      cases hget
      obtain ⟨rfl,hcommit,-⟩ := Refs.fullyResolve_direct.mp hfull
      exact ⟨c,hc,walk_singleton.mpr ⟨parents,hparents,hp,hcommit⟩⟩
    · cases hget
  · rintro ⟨c,hc,hwalk⟩
    obtain ⟨parents,hparents,hp,hcommit⟩ := walk_singleton.mp hwalk
    have hsome : parents ≠ [] := by
      rintro rfl
      cases hp
    have hget : getNthParent env parentsOf rev reference n fs = .ok (.Direct d) := by
      simp only [getNthParent,hc,hparents,hp,bind,Except.bind,if_neg hn,if_neg hsome]
    rw [hget]
    exact Refs.fullyResolve_direct.mpr ⟨rfl,hcommit,(Refs.fullyResolve_commit hc).2⟩

variable (env parentsOf fs d) in
/-- First parents, as often as there are elements. -/
theorem firstParents {α : Type} (rev : ParsedRevspec) (l : List α) (reference : BitRef) :
    (l.foldlM (fun r _ => getNthParent env parentsOf rev r 1 fs) reference >>= fun r => fullyResolve env r fs) = .ok d ↔
      ∃ c, fullyResolve env reference fs = .ok c ∧ Walk env parentsOf c (List.replicate l.length 1) d := by
  induction l generalizing reference with
  | nil =>
    simp only [List.foldlM_nil,pure_bind,List.length_nil,List.replicate_zero,walk_nil]
    constructor
    · intro h
      exact ⟨d,h,rfl⟩
    · rintro ⟨c,h,rfl⟩
      exact h
  | cons x l ih =>
    rw [List.foldlM_cons,bind_assoc,List.length_cons,List.replicate_succ,← List.singleton_append]
    constructor
    · intro h
      obtain ⟨r,hget,hrest⟩ := except_bind_eq_ok.mp h
      obtain ⟨p,hp,hwalk⟩ := (ih r).mp hrest
      obtain ⟨c,hc,hstep⟩ := (getNthParent_step rev reference one_ne_zero).mp (except_bind_eq_ok.mpr ⟨r,hget,hp⟩)
      exact ⟨c,hc,hstep.append hwalk⟩
    · rintro ⟨c,hc,hwalk⟩
      obtain ⟨p,hstep,hwalk⟩ := walk_append_iff.mp hwalk
      obtain ⟨r,hget,hp⟩ := except_bind_eq_ok.mp ((getNthParent_step rev reference one_ne_zero).mpr ⟨c,hc,hstep⟩)
      exact except_bind_eq_ok.mpr ⟨r,hget,(ih r).mpr ⟨p,hp,hwalk⟩⟩

/-- A revision around another one goes on from where that one leads to. -/
theorem fullyResolve_around {inner outer : ParsedRevspec} {k : BitRef → Except Refs.Error BitRef}
    (houter : resolveRevInternal env parentsOf fs outer = resolveRevInternal env parentsOf fs inner >>= k)
    (hk : ∀ r d, (k r >>= fun r => fullyResolve env r fs) = .ok d ↔
      ∃ c, fullyResolve env r fs = .ok c ∧ Walk env parentsOf c ns d) :
    fullyResolveInternal env parentsOf fs outer = .ok d ↔
      ∃ c, fullyResolveInternal env parentsOf fs inner = .ok c ∧ Walk env parentsOf c ns d := by
  rw [fullyResolveInternal,houter,bind_assoc]
  constructor
  · intro h
    obtain ⟨r,hr,hrest⟩ := except_bind_eq_ok.mp h
    obtain ⟨c,hc,hwalk⟩ := (hk r d).mp hrest
    exact ⟨c,except_bind_eq_ok.mpr ⟨r,hr,hc⟩,hwalk⟩
  · rintro ⟨c,hc,hwalk⟩
    obtain ⟨r,hr,hc⟩ := except_bind_eq_ok.mp hc
    exact except_bind_eq_ok.mpr ⟨r,hr,(hk r d).mpr ⟨c,hc,hwalk⟩⟩

theorem walk_from_anchor {outer : ParsedRevspec} (ih : ∀ d, fullyResolveInternal env parentsOf fs rev = .ok d ↔
      ∃ c, fullyResolveInternal env parentsOf fs rev.anchor = .ok c ∧ Walk env parentsOf c rev.steps d)
    (houter : ∀ d, fullyResolveInternal env parentsOf fs outer = .ok d ↔
      ∃ c, fullyResolveInternal env parentsOf fs rev = .ok c ∧ Walk env parentsOf c ns d) :
    fullyResolveInternal env parentsOf fs outer = .ok d ↔
      ∃ c, fullyResolveInternal env parentsOf fs rev.anchor = .ok c ∧ Walk env parentsOf c (rev.steps++ns) d := by
  rw [houter]
  constructor
  · rintro ⟨c,hc,hwalk⟩
    obtain ⟨b,hb,hfirst⟩ := (ih c).mp hc
    exact ⟨b,hb,hfirst.append hwalk⟩
  · rintro ⟨b,hb,hwalk⟩
    obtain ⟨c,hfirst,hwalk⟩ := walk_append_iff.mp hwalk
    exact ⟨c,(ih c).mpr ⟨b,hb,hfirst⟩,hwalk⟩

/-- A revision resolves to the commit that one comes to from its anchor along its parents, and to no other. -/
theorem fullyResolve_iff (env : Env) (parentsOf : Oid → Except Refs.Error (List Oid)) (fs : Fs) (rev : ParsedRevspec) (d : Oid) :
    fullyResolveInternal env parentsOf fs rev = .ok d ↔
      ∃ c, fullyResolveInternal env parentsOf fs rev.anchor = .ok c ∧ Walk env parentsOf c rev.steps d := by
  induction rev generalizing d with
  | Ref r => exact (exists_walk_nil fun c => fullyResolveInternal env parentsOf fs (.Ref r) = .ok c).symm
  | Parent rev n ih =>
    refine walk_from_anchor ih fun d => fullyResolve_around rfl fun r d => ?_
    by_cases hn : n = 0
    · subst hn
      exact (getNthParent_zero _ r).trans (exists_walk_nil fun c => fullyResolve env r fs = .ok c).symm
    · rw [if_neg hn]
      exact getNthParent_step _ r hn
  | Ancestor rev n ih =>
    refine walk_from_anchor ih fun d => fullyResolve_around rfl fun r d => ?_
    have hsteps := firstParents env parentsOf fs d (.Ancestor rev n) (List.range n) r
    rwa [List.length_range] at hsteps
  | Reflog rev n ih => exact (exists_walk_nil fun c => fullyResolveInternal env parentsOf fs (.Reflog rev n) = .ok c).symm

end Steps

end Rev
end Libbit
