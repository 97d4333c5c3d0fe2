import Libbit.Lib.Eff
import Libbit.Repo
import Libbit.TreeFormat
import Libbit.Lib.Utf8

/-! The statistics of a difference (`xdiff/format.rs`): what is counted while the difference is gone through, and how it
is laid out for a terminal. A sum or a difference of sizes that overflows is a panic. -/
namespace Libbit
namespace Xdiff

open Lib

inductive FormatError
  | panic (message : String)
  deriving DecidableEq

def SUBTRACT_OVERFLOW : FormatError := .panic "attempt to subtract with overflow"

def addUsize (a b : ℕ) : Except FormatError ℕ :=
  if a+b < 2^64 then .ok (a+b) else .error (.panic "attempt to add with overflow")

def subUsize (a b : ℕ) : Except FormatError ℕ := if b ≤ a then .ok (a-b) else .error SUBTRACT_OVERFLOW

/-! ### Lines -/

/-- A line of a hunk of `diffy`'s patch, without its text. -/
inductive PatchLine
  | Context | Delete | Insert
  deriving DecidableEq

structure DiffStatLine where
  path : BitPath
  insertions : ℕ
  deletions : ℕ
  deriving DecidableEq

namespace DiffStatLine

/-- The hunks are the lists of their lines. -/
def fromPatch (path : BitPath) (hunks : List (List PatchLine)) : DiffStatLine where
  path := path
  insertions := hunks.flatten.count .Insert
  deletions := hunks.flatten.count .Delete

/-- `path.len()` -/
def pathLen (line : DiffStatLine) : ℕ := line.path.asBytes.length

/-- The derived order: the path comes first. -/
def cmp (a b : DiffStatLine) : Ordering :=
  (a.path.pathCmp b.path).then ((compare a.insertions b.insertions).then (compare a.deletions b.deletions))

/-- `BTreeSet::insert` -/
def insert (line : DiffStatLine) : List DiffStatLine → List DiffStatLine
  | [] => [line]
  | x::lines =>
    match line.cmp x with
    | .lt => line::x::lines
    | .eq => x::lines
    | .gt => x::insert line lines

end DiffStatLine

structure DiffStat where
  lines : List DiffStatLine
  maxChanges : ℕ
  maxPathLen : ℕ
  totalDeletions : ℕ
  totalInsertions : ℕ

/-- Without the repository and the writer. -/
structure DiffStatFormatter where
  diffstatLines : List DiffStatLine
  maxPathLen : ℕ
  maxChanges : ℕ
  totalInsertions : ℕ
  totalDeletions : ℕ

namespace DiffStatFormatter

def new : DiffStatFormatter := ⟨[],0,0,0,0⟩

def addLine (f : DiffStatFormatter) (line : DiffStatLine) : Except FormatError DiffStatFormatter := do
  let changes ← addUsize line.insertions line.deletions
  let totalDeletions ← addUsize f.totalDeletions line.deletions
  let totalInsertions ← addUsize f.totalInsertions line.insertions
  pure
    { diffstatLines := line.insert f.diffstatLines
      maxPathLen := max f.maxPathLen line.pathLen
      maxChanges := max f.maxChanges changes
      totalInsertions := totalInsertions
      totalDeletions := totalDeletions }

def diffStat (f : DiffStatFormatter) : DiffStat :=
  ⟨f.diffstatLines,f.maxChanges,f.maxPathLen,f.totalDeletions,f.totalInsertions⟩

/-- The lines of a whole difference. -/
def addLines (lines : List DiffStatLine) : Except FormatError DiffStatFormatter := lines.foldlM addLine new

end DiffStatFormatter

/-! ### The layout -/

structure Terminal where
  /-- `terminal_size`: there may be no terminal. -/
  width : Option (Fin 65536)
  /-- What `owo_colors` puts around a text. -/
  green : Bytes → Bytes
  red : Bytes → Bytes

namespace Terminal

def lineWidth (t : Terminal) : ℕ := (t.width.map Fin.val).getD 80

end Terminal

def text (s : String) : Bytes := encodeUtf8 s.toList

/-- `" ".repeat(n)` -/
def spaces (n : ℕ) : Bytes := List.replicate n 0x20

def asF64 (n : ℕ) : Float := (UInt64.ofNat n).toFloat

/-- `x.ceil() as usize` -/
def ceilUsize (x : Float) : ℕ := x.ceil.toUInt64.toNat

def pluralize (count : ℕ) : Bytes := if count = 1 then [] else text "s"

namespace DiffStat
variable (t : Terminal) (stat : DiffStat)

def remainingWidth : Except FormatError ℕ := do
  let rest ← subUsize t.lineWidth stat.maxPathLen
  subUsize rest 10

def maxChangeWidth : ℕ := (decimal stat.maxChanges).length

def fmtLine (scale : Float) (line : DiffStatLine) : Except FormatError Bytes := do
  let changes ← addUsize line.insertions line.deletions
  let scaledInsertions := asF64 line.insertions*scale
  let scaledDeletions := asF64 line.deletions*scale
  let pathPadding ← subUsize stat.maxPathLen line.pathLen
  let countPadding ← subUsize stat.maxChangeWidth (decimal changes).length
  pure (text " "++TreeFormat.display line.path.asBytes++text " "++spaces pathPadding++text "| "++
    spaces countPadding++decimal changes++text " "++
    t.green (List.replicate (ceilUsize scaledInsertions) 0x2b)++
    t.red (List.replicate (ceilUsize scaledDeletions) 0x2d)++text "\n")

/-- `Display for DiffStat`. -/
def fmt : Except FormatError Bytes := do
  let remainingWidth ← stat.remainingWidth t
  let scale := if remainingWidth < stat.maxChanges then asF64 remainingWidth/asF64 stat.maxChanges else 1.0
  let lines ← stat.lines.mapM (stat.fmtLine t scale)
  pure (lines.flatten++
    text " "++decimal stat.lines.length++text " files changed, "++
    decimal stat.totalInsertions++text " insertion"++pluralize stat.totalInsertions++text "(+), "++
    decimal stat.totalDeletions++text " deletion"++pluralize stat.totalDeletions++text "(-)")

end DiffStat

/-! ### Going through a difference -/

namespace DiffStatFormatter
-- `create_patch_bytes`, as the lines of its hunks
variable (diffy : Bytes → Bytes → List (List PatchLine))

def add (f : DiffStatFormatter) (line : DiffStatLine) : Bit DiffStatFormatter :=
  match f.addLine line with
  | .ok f => pure f
  | .error _ => throw .Panic

def onCreated (f : DiffStatFormatter) (new : BitIndexEntry) : Bit DiffStatFormatter := do
  let newTxt ← new.readToBytes
  f.add (.fromPatch new.path (diffy [] newTxt))

def onModified (f : DiffStatFormatter) (old new : BitIndexEntry) : Bit DiffStatFormatter := do
  let oldTxt ← old.readToBytes
  let newTxt ← new.readToBytes
  f.add (.fromPatch old.path (diffy oldTxt newTxt))

def onDeleted (f : DiffStatFormatter) (old : BitIndexEntry) : Bit DiffStatFormatter := do
  let oldTxt ← old.readToBytes
  f.add (.fromPatch old.path (diffy oldTxt []))

/-- `Diff::apply_with` for a `WorkspaceStatus`. -/
def applyWith (status : WorkspaceStatus) (f : DiffStatFormatter) : Bit DiffStatFormatter := do
  let f ← status.deleted.foldlM (onDeleted diffy) f
  let f ← status.modified.foldlM (fun f x => onModified diffy f x.1 x.2) f
  status.new.foldlM (onCreated diffy) f

/-- What is written. -/
def formatDiffstatInto (t : Terminal) (status : WorkspaceStatus) : Bit Bytes := do
  let f ← applyWith diffy status new
  match f.diffStat.fmt t with
  | .ok text => pure text
  | .error _ => throw .Panic

end DiffStatFormatter

/-! ### The subtractions -/

theorem addUsize_eq_ok {a b c : ℕ} : addUsize a b = .ok c ↔ a+b < 2^64 ∧ c = a+b := by
  unfold addUsize
  split <;> simp_all [eq_comm]

theorem subUsize_of_le {a b : ℕ} (h : b ≤ a) : subUsize a b = .ok (a-b) := if_pos h

theorem subUsize_of_lt {a b : ℕ} (h : a < b) : subUsize a b = .error SUBTRACT_OVERFLOW := if_neg h.not_ge

theorem DiffStatLine.mem_insert {line x : DiffStatLine} {lines : List DiffStatLine} (h : x ∈ line.insert lines) :
    x = line ∨ x ∈ lines := by
  induction lines with
  | nil => exact .inl (List.mem_singleton.mp h)
  | cons y lines ih =>
    rw [insert] at h
    split at h
    · exact List.mem_cons.mp h
    · exact .inr h
    · rcases List.mem_cons.mp h with rfl | h
      · exact .inr List.mem_cons_self
      · exact (ih h).imp_right (List.mem_cons_of_mem y)

namespace DiffStatFormatter
variable {f f' : DiffStatFormatter} {line : DiffStatLine} {lines rest : List DiffStatLine}

/-- What the formatter knows of the lines that were added. -/
structure Counted (lines : List DiffStatLine) (f : DiffStatFormatter) : Prop where
  mem : ∀ l ∈ f.diffstatLines, l ∈ lines
  pathLen_le : ∀ l ∈ lines, l.pathLen ≤ f.maxPathLen
  pathLen_eq : f.maxPathLen = 0 ∨ ∃ l ∈ lines, l.pathLen = f.maxPathLen
  changes_le : ∀ l ∈ lines, l.insertions+l.deletions ≤ f.maxChanges
  changes_lt : ∀ l ∈ lines, l.insertions+l.deletions < 2^64

theorem counted_new : Counted [] new := ⟨by simp [new],by simp,.inl rfl,by simp,by simp⟩

theorem Counted.addLine (h : Counted lines f) (hadd : f.addLine line = .ok f') : Counted (lines++[line]) f' := by
  rw [DiffStatFormatter.addLine] at hadd
  obtain ⟨changes,hchanges,hadd⟩ := except_bind_eq_ok.mp hadd
  obtain ⟨totalDeletions,-,hadd⟩ := except_bind_eq_ok.mp hadd
  obtain ⟨totalInsertions,-,hadd⟩ := except_bind_eq_ok.mp hadd
  obtain ⟨hlt,rfl⟩ := addUsize_eq_ok.mp hchanges
  cases hadd
  refine ⟨fun l hl => ?_,?_,?_,?_,?_⟩
  · rcases DiffStatLine.mem_insert hl with rfl | hl
    · simp
    · exact List.mem_append_left _ (h.mem l hl)
  · rw [List.forall_mem_append,List.forall_mem_singleton]
    exact ⟨fun l hl => (h.pathLen_le l hl).trans (le_max_left _ _),le_max_right _ _⟩
  · rcases le_total f.maxPathLen line.pathLen with hle | hle
    · exact .inr ⟨line,by simp,(max_eq_right hle).symm⟩
    · rw [max_eq_left hle]
      exact h.pathLen_eq.imp_right fun ⟨l,hl,heq⟩ => ⟨l,List.mem_append_left _ hl,heq⟩
  · rw [List.forall_mem_append,List.forall_mem_singleton]
    exact ⟨fun l hl => (h.changes_le l hl).trans (le_max_left _ _),le_max_right _ _⟩
  · rw [List.forall_mem_append,List.forall_mem_singleton]
    exact ⟨h.changes_lt,hlt⟩

theorem Counted.addLines (h : Counted lines f) (hadd : rest.foldlM DiffStatFormatter.addLine f = .ok f') :
    Counted (lines++rest) f' := by
  induction rest generalizing lines f with
  | nil =>
    cases hadd
    rwa [List.append_nil]
  | cons line rest ih =>
    rw [List.foldlM_cons] at hadd
    obtain ⟨g,hline,hadd⟩ := except_bind_eq_ok.mp hadd
    have hrest := ih (h.addLine hline) hadd
    rwa [List.append_assoc] at hrest

theorem counted_addLines (h : DiffStatFormatter.addLines lines = .ok f) : Counted lines f := counted_new.addLines h

end DiffStatFormatter

/-- Every path leaves ten columns. -/
def Fits (t : Terminal) (paths : List BitPath) : Prop :=
  10 ≤ t.lineWidth ∧ ∀ path ∈ paths, path.asBytes.length+10 ≤ t.lineWidth

namespace DiffStatFormatter
variable {f : DiffStatFormatter} {line : DiffStatLine} {lines : List DiffStatLine} {t : Terminal}

theorem Counted.fits_iff (h : Counted lines f) : Fits t (lines.map (·.path)) ↔ f.maxPathLen+10 ≤ t.lineWidth := by
  rw [Fits,List.forall_mem_map]
  constructor
  · rintro ⟨hten,hpaths⟩
    rcases h.pathLen_eq with hzero | ⟨l,hl,heq⟩
    · omega
    · have := hpaths l hl
      rw [← heq]
      exact this
  · intro hmax
    refine ⟨by omega,fun l hl => ?_⟩
    have hle : l.path.asBytes.length ≤ f.maxPathLen := h.pathLen_le l hl
    omega

/-- Neither padding is negative. -/
theorem Counted.fmtLine (h : Counted lines f) (hline : line ∈ f.diffstatLines) (t : Terminal) (scale : Float) :
    ∃ text, f.diffStat.fmtLine t scale line = .ok text := by
  have hmem := h.mem line hline
  have hchanges : addUsize line.insertions line.deletions = .ok (line.insertions+line.deletions) :=
    addUsize_eq_ok.mpr ⟨h.changes_lt line hmem,rfl⟩
  have hpath := subUsize_of_le (h.pathLen_le line hmem)
  have hcount := subUsize_of_le (length_decimal_mono (h.changes_le line hmem))
  exact ⟨_,except_bind_eq_ok.mpr ⟨_,hchanges,except_bind_eq_ok.mpr ⟨_,hpath,except_bind_eq_ok.mpr ⟨_,hcount,rfl⟩⟩⟩⟩

theorem Counted.fmt (h : Counted lines f) (hfits : f.maxPathLen+10 ≤ t.lineWidth) : ∃ text, f.diffStat.fmt t = .ok text := by
  have hremaining : f.diffStat.remainingWidth t = .ok (t.lineWidth-f.maxPathLen-10) :=
    except_bind_eq_ok.mpr ⟨_,subUsize_of_le (by simp only [diffStat]; omega),subUsize_of_le (by simp only [diffStat]; omega)⟩
  obtain ⟨texts,htexts⟩ := exists_mapM fun line hline => h.fmtLine hline t
    (if t.lineWidth-f.maxPathLen-10 < f.maxChanges then asF64 (t.lineWidth-f.maxPathLen-10)/asF64 f.maxChanges else 1.0)
  exact ⟨_,except_bind_eq_ok.mpr ⟨_,hremaining,except_bind_eq_ok.mpr ⟨texts,htexts,rfl⟩⟩⟩

theorem fmt_overflows (hwide : t.lineWidth < f.maxPathLen+10) : f.diffStat.fmt t = .error SUBTRACT_OVERFLOW := by
  have hremaining : f.diffStat.remainingWidth t = .error SUBTRACT_OVERFLOW := by
    rcases Nat.lt_or_ge t.lineWidth f.maxPathLen with hlt | hge
    · exact except_bind_eq_error.mpr (.inl (subUsize_of_lt hlt))
    · exact except_bind_eq_error.mpr (.inr ⟨_,subUsize_of_le hge,subUsize_of_lt (by simp only [diffStat]; omega)⟩)
  exact except_bind_eq_error.mpr (.inl hremaining)

/-- The paddings are never negative. The width that remains is, unless every path leaves ten columns. -/
theorem fmt_underflows_iff (hadd : addLines lines = .ok f) (t : Terminal) :
    (f.diffStat.fmt t ≠ .error SUBTRACT_OVERFLOW ↔ Fits t (lines.map (·.path))) ∧
      (Fits t (lines.map (·.path)) → ∃ text, f.diffStat.fmt t = .ok text) := by
  have hcounted := counted_addLines hadd
  rw [hcounted.fits_iff]
  refine ⟨⟨fun h => ?_,fun h => ?_⟩,hcounted.fmt⟩
  · by_contra hwide
    exact h (fmt_overflows (not_le.mp hwide))
  · obtain ⟨text,htext⟩ := hcounted.fmt h
    rw [htext]
    exact nofun

/-- One file, in a terminal of 80 columns. -/
theorem fmt_underflows_sample : ∃ text, (DiffStatFormatter.diffStat ⟨[⟨[[0x61]],1,2⟩],1,3,1,2⟩).fmt ⟨none,id,id⟩ = .ok text := by
  have hadd : addLines [⟨[[0x61]],1,2⟩] = .ok ⟨[⟨[[0x61]],1,2⟩],1,3,1,2⟩ := by rfl
  exact (fmt_underflows_iff hadd ⟨none,id,id⟩).2 ⟨by decide,by simp; decide⟩

/-- A path of 71 bytes. -/
def longLine : DiffStatLine := ⟨[List.replicate 71 0x61],1,0⟩

theorem long_path_underflows :
    ¬∀ lines f t, addLines lines = .ok f → f.diffStat.fmt t ≠ .error SUBTRACT_OVERFLOW := by
  intro h
  have hadd : addLines [longLine] = .ok ⟨[longLine],71,1,1,0⟩ := by rfl
  exact h [longLine] ⟨[longLine],71,1,1,0⟩ ⟨none,id,id⟩ hadd (fmt_overflows (by decide))

/-! ### Whole differences -/

/-- Lines with these paths are added. -/
def Added (paths : List BitPath) (f f' : DiffStatFormatter) : Prop :=
  ∃ lines : List DiffStatLine, lines.foldlM addLine f = .ok f' ∧ lines.map (·.path) = paths

theorem Added.append {ps qs : List BitPath} {f g f' : DiffStatFormatter} (h : Added ps f g) (h' : Added qs g f') :
    Added (ps++qs) f f' := by
  obtain ⟨lines,hadd,rfl⟩ := h
  obtain ⟨rest,hadd',rfl⟩ := h'
  refine ⟨lines++rest,?_,List.map_append⟩
  rw [List.foldlM_append,hadd]
  exact hadd'

theorem added_add {f f' : DiffStatFormatter} {line : DiffStatLine} {r r' : Repo} (h : f.add line r = .ok f' r') :
    Added [line.path] f f' := by
  cases hline : f.addLine line with
  | error e =>
    rw [add,hline] at h
    cases h
  | ok g =>
    rw [add,hline] at h
    cases h
    exact ⟨[line],except_bind_eq_ok.mpr ⟨_,hline,rfl⟩,rfl⟩

/-- One line is added for each entry. -/
theorem added_foldlM {α : Type} {on : DiffStatFormatter → α → Bit DiffStatFormatter} {path : α → BitPath}
    (hon : ∀ f a r f' r', on f a r = .ok f' r' → Added [path a] f f') {entries : List α} {f f' : DiffStatFormatter}
    {r r' : Repo} (h : entries.foldlM on f r = .ok f' r') : Added (entries.map path) f f' := by
  induction entries generalizing f r with
  | nil =>
    cases h
    exact ⟨[],rfl,rfl⟩
  | cons a entries ih =>
    rw [List.foldlM_cons] at h
    obtain ⟨g,r₁,hfirst,hrest⟩ := bind_ok.mp h
    exact (hon f a r g r₁ hfirst).append (ih hrest)

end DiffStatFormatter

/-- The paths whose lines are shown. -/
def shownPaths (status : WorkspaceStatus) : List BitPath :=
  status.deleted.map (·.path)++(status.modified.map (·.1.path)++status.new.map (·.path))

namespace DiffStatFormatter
variable {diffy : Bytes → Bytes → List (List PatchLine)} {status : WorkspaceStatus} {f f' : DiffStatFormatter} {r r' : Repo}

theorem added_applyWith (h : applyWith diffy status f r = .ok f' r') : Added (shownPaths status) f f' := by
  obtain ⟨g,r₁,hdeleted,h⟩ := bind_ok.mp h
  obtain ⟨g',r₂,hmodified,hnew⟩ := bind_ok.mp h
  refine (added_foldlM (fun f old r f' r' hon => ?_) hdeleted).append
    ((added_foldlM (fun f x r f' r' hon => ?_) hmodified).append (added_foldlM (fun f new r f' r' hon => ?_) hnew))
  · obtain ⟨oldTxt,s,-,hadd⟩ := bind_ok.mp hon
    exact added_add hadd
  · obtain ⟨oldTxt,s,-,hon⟩ := bind_ok.mp hon
    obtain ⟨newTxt,s',-,hadd⟩ := bind_ok.mp hon
    exact added_add hadd
  · obtain ⟨newTxt,s,-,hadd⟩ := bind_ok.mp hon
    exact added_add hadd

/-- A difference that was gone through is written, or is too wide for the terminal. -/
theorem formatDiffstatInto_returns_iff (h : applyWith diffy status new r = .ok f r') (t : Terminal) :
    (∃ text, formatDiffstatInto diffy t status r = .ok text r') ↔ Fits t (shownPaths status) := by
  obtain ⟨lines,hadd,hpaths⟩ := added_applyWith h
  have hcounted := counted_addLines hadd
  have hrun : formatDiffstatInto diffy t status r = match f.diffStat.fmt t with
      | .ok text => .ok text r'
      | .error _ => .error .Panic r' := by
    refine (bind_of_ok h).trans ?_
    cases f.diffStat.fmt t <;> rfl
  rw [hrun,← hpaths,hcounted.fits_iff]
  constructor
  · rintro ⟨text,htext⟩
    by_contra hwide
    rw [fmt_overflows (not_le.mp hwide)] at htext
    cases htext
  · intro hfits
    obtain ⟨text,htext⟩ := hcounted.fmt hfits
    exact ⟨text,by rw [htext]⟩

end DiffStatFormatter

end Xdiff
end Libbit
