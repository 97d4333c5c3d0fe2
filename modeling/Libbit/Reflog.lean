import Libbit.CommitFormatSpec

/-! Reflogs (`refs/reflog.rs`): one line for each update of a ref, the oldest first. -/
namespace Libbit
namespace Refs

open Lib
open CommitFormat (BitSignature unwrap)

abbrev Oid := Packfile.Oid
abbrev ParseError := CommitFormat.Error

structure BitReflogEntry where
  oldOid : Oid
  newOid : Oid
  committer : BitSignature
  message : List Char
  deriving DecidableEq

structure BitReflog where
  entries : List BitReflogEntry
  deriving DecidableEq

/-! ### Writing -/

/-- An entry without the line feed that ends it. -/
def BitReflogEntry.line (e : BitReflogEntry) : List Char :=
  Packfile.Oid.toHex e.oldOid++ ' '::Packfile.Oid.toHex e.newOid++ ' '::e.committer.display++ '\t'::e.message

def BitReflogEntry.serialize (e : BitReflogEntry) : List Char := e.line++['\n']

def BitReflog.serialize (l : BitReflog) : List Char := l.entries.flatMap BitReflogEntry.serialize

/-! ### Reading -/

def BitReflogEntry.fromStr (s : List Char) : Except ParseError BitReflogEntry := do
  let (oldOid,s) ← unwrap (splitOnce [' '] s)
  let (newOid,s) ← unwrap (splitOnce [' '] s)
  let (committer,message) ← unwrap (splitOnce ['\t'] s)
  let oldOid ← CommitFormat.CommitBuilder.parseOid oldOid
  let newOid ← CommitFormat.CommitBuilder.parseOid newOid
  let committer ← BitSignature.fromStr committer
  .ok ⟨oldOid,newOid,committer,message⟩

def BitReflog.fromStr (s : List Char) : Except ParseError BitReflog := do
  let entries ← (lines s).mapM BitReflogEntry.fromStr
  .ok ⟨entries⟩

namespace BitReflog

def default : BitReflog := ⟨[]⟩

def len (l : BitReflog) : ℕ := l.entries.length

/-- Back to front, as the most recent entry is the last one. -/
def get (l : BitReflog) (index : ℕ) : Option BitReflogEntry :=
  if l.len ≤ index then none else l.entries[l.len-index-1]?

/-- The oid that the next entry starts from. -/
def lastOid (l : BitReflog) : Oid :=
  match l.entries.getLast? with
  | some entry => entry.newOid
  | none => IndexFile.Oid.UNKNOWN

def append (l : BitReflog) (newOid : Oid) (committer : BitSignature) (msg : List Char) : BitReflog :=
  ⟨l.entries++[⟨l.lastOid,newOid,committer,msg⟩]⟩

end BitReflog

/-! ### Reading a log back -/

/-- The entries that fit on a line of the log and can be told apart there. -/
structure BitReflogEntry.Plain (e : BitReflogEntry) : Prop where
  committer : e.committer.Plain ∧ e.committer.OneLine
  /-- the message starts after the first tab -/
  tab : '\t' ∉ e.committer.name ∧ '\t' ∉ e.committer.email
  message : '\n' ∉ e.message ∧ e.message.getLast? ≠ some '\r'

section Plain
variable {e : BitReflogEntry} {l : BitReflog}

theorem notMem_toHex {c : Char} (hc : ¬Packfile.isAsciiHexdigit c) (o : Oid) : c ∉ Packfile.Oid.toHex o :=
  fun h => hc (Packfile.Oid.digits_toHex o c h)

theorem tab_notMem_display {s : BitSignature} (h : '\t' ∉ s.name ∧ '\t' ∉ s.email) : '\t' ∉ s.display := by
  have htime : '\t' ∉ s.time.time.display := fun hmem => absurd (CommitFormat.BitEpochTime.mem_display hmem) (by decide)
  have hoffset : '\t' ∉ s.time.offset.display :=
    fun hmem => absurd (CommitFormat.BitTimeZoneOffset.mem_display hmem) (by decide)
  simpa [BitSignature.display,CommitFormat.BitTime.display] using ⟨h.1,h.2,htime,hoffset⟩

theorem BitReflogEntry.Plain.notMem_line (h : e.Plain) : '\n' ∉ e.line := by
  have hhex := notMem_toHex (c := '\n') (by decide)
  have hcommitter := BitSignature.notMem_display h.committer.2
  simpa [BitReflogEntry.line] using ⟨hhex e.oldOid,hhex e.newOid,hcommitter,h.message.1⟩

theorem BitReflogEntry.Plain.stripCr_line (h : e.Plain) : stripCr e.line = e.line := by
  rw [BitReflogEntry.line,stripCr_append _ (by decide),stripCr_eq_self.mpr h.message.2]

theorem BitReflogEntry.Plain.fromStr_line (h : e.Plain) : BitReflogEntry.fromStr e.line = .ok e := by
  have hline : e.line =
      Packfile.Oid.toHex e.oldOid++ ' '::(Packfile.Oid.toHex e.newOid++ ' '::(e.committer.display++ '\t'::e.message)) := by
    simp [BitReflogEntry.line]
  have hoid (o : Oid) : CommitFormat.CommitBuilder.parseOid (Packfile.Oid.toHex o) = .ok o := by
    rw [CommitFormat.CommitBuilder.parseOid,Packfile.Oid.fromStr_toHex]
    rfl
  have hcommitter := BitSignature.fromStr_display h.committer.1
  rw [BitReflogEntry.fromStr,hline,splitOnce_char (notMem_toHex (by decide) e.oldOid)]
  simp only [unwrap,bind,Except.bind]
  rw [splitOnce_char (notMem_toHex (by decide) e.newOid)]
  simp only
  rw [splitOnce_char (tab_notMem_display h.tab)]
  simp only [hoid,hcommitter]

theorem BitReflog.fromStr_serialize (h : ∀ e ∈ l.entries, e.Plain) : BitReflog.fromStr l.serialize = .ok l := by
  have htext : l.serialize = (l.entries.map BitReflogEntry.line).flatMap (·++['\n']) := by
    rw [List.flatMap_map]
    rfl
  have hlines : ∀ m ∈ l.entries.map BitReflogEntry.line, '\n' ∉ m := by
    intro m hm
    obtain ⟨e,he,rfl⟩ := List.mem_map.mp hm
    exact (h e he).notMem_line
  have hstrip : (l.entries.map BitReflogEntry.line).map stripCr = l.entries.map BitReflogEntry.line := by
    rw [List.map_map]
    exact List.map_congr_left fun e he => (h e he).stripCr_line
  have hread := lines_flatMap hlines []
  rw [List.append_nil,lines_nil,List.append_nil,hstrip] at hread
  rw [BitReflog.fromStr,htext,hread,mapM_map_ok fun e he => (h e he).fromStr_line]
  rfl

end Plain

end Refs
end Libbit
