import Libbit.Signature

/-! Commits as they are stored (`obj/commit.rs`): headers, of which a value of several lines is indented, a blank line, and
the message. -/
namespace Libbit
namespace CommitFormat

open Lib

abbrev Oid := Packfile.Oid

/-! ### Messages -/

structure CommitMessage where
  subject : List Char
  message : List Char
  deriving DecidableEq

namespace CommitMessage

/-- The subject ends at the first blank line. -/
def fromStr (s : List Char) : CommitMessage :=
  match splitOnce ['\n','\n'] s with
  | some (subject,message) => ⟨subject,message⟩
  | none => ⟨s,[]⟩

def display (m : CommitMessage) : List Char :=
  m.subject++if m.message = [] then [] else '\n':: '\n'::m.message

end CommitMessage

structure MergeTag where
  todoParse : List Char
  deriving DecidableEq

def MergeTag.fromStr (s : List Char) : MergeTag := ⟨s⟩

def MergeTag.display (t : MergeTag) : List Char := t.todoParse

structure MutableCommit where
  tree : Oid
  author : BitSignature
  committer : BitSignature
  message : CommitMessage
  parents : List Oid
  gpgsig : Option (List Char)
  mergetag : Option MergeTag
  deriving DecidableEq

/-! ### Writing -/

/-- What `w!` writes for a field and its value. -/
def header (field value : List Char) : List Char := indentLines (field++ ' '::value)++['\n']

def MutableCommit.serialize (c : MutableCommit) : List Char :=
  header "tree".toList (Packfile.Oid.toHex c.tree)++
  c.parents.flatMap (fun parent => header "parent".toList (Packfile.Oid.toHex parent))++
  header "author".toList c.author.display++
  header "committer".toList c.committer.display++
  c.gpgsig.elim [] (fun gpgsig => header "gpgsig".toList gpgsig)++
  c.mergetag.elim [] (fun mergetag => header "mergetab".toList mergetag.display)++
  '\n'::c.message.display

/-! ### Reading -/

structure CommitBuilder where
  tree : Option Oid
  author : Option BitSignature
  committer : Option BitSignature
  message : Option CommitMessage
  parents : List Oid
  gpgsig : Option (List Char)
  mergetag : Option MergeTag
  deriving DecidableEq

namespace CommitBuilder

def default : CommitBuilder := ⟨none,none,none,none,[],none,none⟩

def parseOid (value : List Char) : Except Error Oid := (Packfile.Oid.fromStr value).mapError .oid

/-- A field that is not known is ignored. -/
def field (b : CommitBuilder) (field value : List Char) : Except Error CommitBuilder :=
  if field = "parent".toList then do
    let parent ← parseOid value
    .ok { b with parents := b.parents++[parent] }
  else if field = "tree".toList then do
    let tree ← parseOid value
    .ok { b with tree := some tree }
  else if field = "author".toList then do
    let author ← BitSignature.fromStr value
    .ok { b with author := some author }
  else if field = "committer".toList then do
    let committer ← BitSignature.fromStr value
    .ok { b with committer := some committer }
  else if field = "gpgsig".toList then .ok { b with gpgsig := some value }
  else if field = "mergetag".toList then .ok { b with mergetag := some (.fromStr value) }
  else .ok b

def build (b : CommitBuilder) : Except Error MutableCommit :=
  match b.tree, b.author, b.committer, b.message with
  | none, _, _, _ => .error (.message "commit missing tree")
  | _, none, _, _ => .error (.message "commit missing author")
  | _, _, none, _ => .error (.message "commit missing committer")
  | _, _, _, none => .error (.message "commit missing message")
  | some tree, some author, some committer, some message =>
    .ok ⟨tree,author,committer,message,b.parents,b.gpgsig,b.mergetag⟩

end CommitBuilder

/-- The lines that continue a value, and the lines after them. -/
def takeContinuation : List (List Char) → List Char × List (List Char)
  | (' '::stripped)::ls =>
    let (value,rest) := takeContinuation ls
    ('\n'::stripped++value,rest)
  | ls => ([],ls)

theorem length_takeContinuation (ls : List (List Char)) : (takeContinuation ls).2.length ≤ ls.length := by
  fun_induction takeContinuation ls with
  | case1 stripped ls value rest heq ih =>
    rw [heq] at ih
    exact ih.trans (Nat.le_succ ls.length)
  | case2 ls => exact Nat.le_refl _

/-- The headers, up to the blank line. -/
def parseHeaders (b : CommitBuilder) (ls : List (List Char)) : Except Error (CommitBuilder × List (List Char)) :=
  match ls with
  | [] => .ok (b,[])
  | line::ls =>
    if line = [] then .ok (b,ls)
    else match splitOnce [' '] line with
      | none => .error (.panic ("Failed to parse line `"++String.ofList line++"`"))
      | some (field,value) => do
        let b ← b.field field (value++(takeContinuation ls).1)
        parseHeaders b (takeContinuation ls).2
  termination_by ls.length
  decreasing_by exact Nat.lt_succ_of_le (length_takeContinuation ls)

section ParseHeaders
variable {b : CommitBuilder} {line field value : List Char} {ls : List (List Char)}

theorem parseHeaders_blank : parseHeaders b ([]::ls) = .ok (b,ls) := by
  rw [parseHeaders.eq_def]
  rfl

theorem parseHeaders_line (hsplit : splitOnce [' '] line = some (field,value)) :
    parseHeaders b (line::ls) =
      (b.field field (value++(takeContinuation ls).1) >>= fun b => parseHeaders b (takeContinuation ls).2) := by
  have hne : line ≠ [] := by
    rintro rfl
    cases hsplit
  rw [parseHeaders.eq_def]
  simp only [if_neg hne,hsplit]

end ParseHeaders

/-- The stream holds characters: one that ends in the middle of one of them is not valid. -/
def MutableCommit.deserializeSized (r : List Char) (size : ℕ) : Except Error MutableCommit :=
  match takeBytes size r with
  | none => .error (.panic "unsupported non-utf8 encoding detected in commit")
  | some text => do
    let (builder,iter) ← parseHeaders .default (lines text)
    { builder with message := some (.fromStr (joinLines iter)) }.build

end CommitFormat
end Libbit
