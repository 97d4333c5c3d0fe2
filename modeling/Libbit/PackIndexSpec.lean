import Libbit.PackIndex
import Libbit.IndexFileSpec

/-! Looking up an oid in a well-formed pack index. -/
namespace Libbit
namespace Packfile

open Lib Lib.Reader
open IndexFile (Parser readU32 writeU32 readOid OID_SIZE readU32_decodes readOid_decodes length_writeU32)

theorem Oid.first_mono : Monotone Oid.first := by
  intro a b h
  by_contra hlt
  rcases a with ⟨_ | ⟨x,xs⟩,ha⟩
  · cases ha
  rcases b with ⟨_ | ⟨y,ys⟩,hb⟩
  · cases hb
  have hyx : y < x := not_le.mp hlt
  exact not_lt_of_ge h (show y::ys < x::xs from List.Lex.rel hyx)

/-! ### The fanout table -/

/-- How many oids have the first byte `b` or a smaller one. -/
def upTo (oids : List Oid) (b : Byte) : ℕ := oids.countP (·.first ≤ b)

/-- How many oids have a smaller first byte. -/
def below (oids : List Oid) (b : Byte) : ℕ := oids.countP (·.first < b)

theorem below_zero (oids : List Oid) : below oids 0 = 0 := by
  rw [below,List.countP_eq_zero]
  intro o _
  simp

theorem upTo_pred (oids : List Oid) {b : Byte} (hb : b ≠ 0) : upTo oids (b-1) = below oids b := by
  rw [upTo,below]
  congr 1
  funext o
  have hval : (b-1).val = b.val-1 := by
    have h0 : b.val ≠ 0 := fun h => hb (Fin.ext h)
    omega
  have h0 : b.val ≠ 0 := fun h => hb (Fin.ext h)
  simp only [Fin.le_def,Fin.lt_def,hval,decide_eq_decide]
  omega

theorem upTo_eq (oids : List Oid) (b : Byte) : upTo oids b = below oids b+oids.countP (·.first = b) := by
  induction oids with
  | nil => rfl
  | cons o oids ih =>
    simp only [upTo,below,List.countP_cons] at ih ⊢
    rw [ih]
    rcases lt_trichotomy o.first b with h | h | h
    · simp [h,h.le,h.ne]
      omega
    · simp [h]
      omega
    · simp [h.not_ge,h.not_gt,h.ne']

theorem upTo_le_below (oids : List Oid) {b c : Byte} (h : b < c) : upTo oids b ≤ below oids c :=
  List.countP_mono_left fun o _ ho => by simpa using (of_decide_eq_true ho).trans_lt h

theorem countsFirst (oids : List Oid) (f : Byte → ℕ) (b : Byte) :
    oids.foldl (fun fanout oid => Function.update fanout oid.first (fanout oid.first+1)) f b =
      f b+oids.countP (·.first = b) := by
  induction oids generalizing f with
  | nil => rfl
  | cons o oids ih =>
    rw [List.foldl_cons,ih,List.countP_cons,Function.update_apply]
    by_cases h : o.first = b
    · simp [h]
      omega
    · simp [h,Ne.symm h]

/-- After `k` rounds the sums are final up to the byte `k`. -/
theorem sumsUpTo (oids : List Oid) {k : ℕ} (hk : k < 256) (b : Byte) :
    (List.range k).foldl (fun fanout i =>
        Function.update fanout (Fin.ofNat 256 (i+1)) (fanout (Fin.ofNat 256 (i+1))+fanout (Fin.ofNat 256 i)))
      (fun b => oids.countP (·.first = b)) b = if b.val ≤ k then upTo oids b else oids.countP (·.first = b) := by
  induction k generalizing b with
  | zero =>
    rw [List.range_zero,List.foldl_nil]
    split
    · obtain rfl : b = 0 := Fin.ext (by simpa using ‹b.val ≤ 0›)
      rw [upTo_eq,below_zero,Nat.zero_add]
    · rfl
  | succ k ih =>
    have hk' : (Fin.ofNat 256 k).val = k := Nat.mod_eq_of_lt (by omega)
    have hk1 : (Fin.ofNat 256 (k+1)).val = k+1 := Nat.mod_eq_of_lt hk
    have hpred : Fin.ofNat 256 (k+1)-1 = Fin.ofNat 256 k := Fin.ext (by omega)
    have hne : Fin.ofNat 256 (k+1) ≠ 0 := fun h => absurd (congrArg Fin.val h) (by rw [hk1]; exact Nat.succ_ne_zero k)
    rw [List.range_succ,List.foldl_append,List.foldl_cons,List.foldl_nil,Function.update_apply]
    by_cases hb : b = Fin.ofNat 256 (k+1)
    · have hsum : upTo oids (Fin.ofNat 256 (k+1)) =
          oids.countP (·.first = Fin.ofNat 256 (k+1))+upTo oids (Fin.ofNat 256 k) := by
        rw [upTo_eq,← upTo_pred oids hne,hpred,Nat.add_comm]
      rw [if_pos hb,ih (by omega),ih (by omega),if_neg (by omega),if_pos (by omega),hb,if_pos (by omega),hsum]
    · have hval : b.val ≠ k+1 := fun h => hb (Fin.ext (h.trans hk1.symm))
      rw [if_neg hb,ih (by omega)]
      exact if_congr (by omega) rfl rfl

/-- The fanout that is built is cumulative. -/
theorem buildFanout_eq (oids : List Oid) : buildFanout oids = upTo oids := by
  funext b
  have hcounts : (oids.foldl (fun fanout oid => Function.update fanout oid.first (fanout oid.first+1)) fun _ => 0) =
      fun b => oids.countP (·.first = b) := by
    funext b
    rw [countsFirst,Nat.zero_add]
  rw [buildFanout,hcounts]
  exact (sumsUpTo oids (by decide) b).trans (if_pos (by rw [FANOUT_ENTRYC]; omega))

theorem upTo_le (oids : List Oid) (b : Byte) : upTo oids b ≤ oids.length := List.countP_le_length

/-- The last cell holds the number of oids. -/
theorem upTo_last (oids : List Oid) : upTo oids 255 = oids.length := by
  rw [upTo,List.countP_eq_length]
  intro o _
  simpa using Fin.le_last o.first

theorem toNat_buildFanout {oids : List Oid} (h : oids.length < 2^32) (b : Byte) :
    (UInt32.ofNat (buildFanout oids b)).toNat = upTo oids b := by
  rw [buildFanout_eq]
  exact UInt32.toNat_ofNat_of_lt' ((upTo_le oids b).trans_lt h)

/-! ### Well-formed files -/

theorem parseHeader_decodes : Decodes parseHeader (writeU32 PACK_IDX_MAGIC++writeU32 2) () :=
  (readU32_decodes _).bind <| (Decodes.require rfl).andThen <| (readU32_decodes _).bindPure (Decodes.require rfl)

theorem readFanout_decodes (fanout : Byte → UInt32) :
    Decodes readFanout ((List.finRange 256).flatMap fun b => writeU32 (fanout b)) fanout := by
  have hall : Decodes (times readU32 ((List.finRange 256).map fanout).length)
      (((List.finRange 256).map fanout).flatMap writeU32) ((List.finRange 256).map fanout) :=
    Decodes.times fun u _ => readU32_decodes u
  rw [List.flatMap_map,List.length_map,List.length_finRange] at hall
  refine hall.bindPure ?_
  have hget : (fun b : Byte => ((List.finRange 256).map fanout).getD b.val 0) = fanout := by
    funext b
    simp [List.getD]
  rw [hget]
  exact Decodes.pure fanout

/-- What the index says of one object. -/
structure Row where
  oid : Oid
  crc : UInt32
  /-- The offset in the pack, or with the high bit set the number of a large offset. -/
  offset : UInt32
  deriving DecidableEq

/-- What a pack index of version 2 holds, and the hashes at its end. -/
structure IndexTable where
  rows : List Row
  ext : List UInt64
  trailer : Bytes
  sorted : (rows.map Row.oid).Pairwise (· < ·)
  small : rows.length < 2^32
  large : ∀ row ∈ rows, MAX_OFFSET < row.offset.toNat → row.offset.toNat &&& MAX_OFFSET < ext.length

namespace IndexTable

def oids (t : IndexTable) : List Oid := t.rows.map Row.oid

def recorded (t : IndexTable) (row : Row) : ℕ :=
  if row.offset.toNat ≤ MAX_OFFSET then row.offset.toNat
  else (t.ext.getD (row.offset.toNat &&& MAX_OFFSET) 0).toNat

def fanout (t : IndexTable) (b : Byte) : UInt32 := UInt32.ofNat (buildFanout t.oids b)

def header (t : IndexTable) : Bytes :=
  writeU32 PACK_IDX_MAGIC++writeU32 2++(List.finRange 256).flatMap fun b => writeU32 (t.fanout b)

def layers (t : IndexTable) : Bytes :=
  t.oids.flatMap IndexFile.Oid.bytes++(t.rows.map Row.crc).flatMap writeU32++(t.rows.map Row.offset).flatMap writeU32++
    t.ext.flatMap writeU64++t.trailer

/-- The file. -/
def bytes (t : IndexTable) : Bytes := t.header++t.layers

/-- A reader of the file of which nothing was asked. -/
def opened (t : IndexTable) : PackIndexReader := ⟨t.bytes,t.fanout,fun _ => none,fun _ => none,t.rows.length⟩

variable {t : IndexTable}

theorem length_oids (t : IndexTable) : t.oids.length = t.rows.length := List.length_map _

theorem toNat_fanout (t : IndexTable) (b : Byte) : (t.fanout b).toNat = upTo t.oids b :=
  toNat_buildFanout (t.length_oids.trans_lt t.small) b

theorem length_header (t : IndexTable) : t.header.length = PACK_IDX_HEADER_SIZE+FANOUT_SIZE := by
  have htable : ((List.finRange 256).flatMap fun b => writeU32 (t.fanout b)).length = 256*4 := by
    simp only [List.length_flatMap,length_writeU32,List.map_const',List.length_finRange,List.sum_replicate,smul_eq_mul]
  rw [header,List.length_append,List.length_append,length_writeU32,length_writeU32,htable]
  rfl

theorem header_decodes (t : IndexTable) : Decodes (do parseHeader; readFanout) t.header t.fanout :=
  parseHeader_decodes.bind (readFanout_decodes t.fanout)

theorem new_bytes (t : IndexTable) : PackIndexReader.new t.bytes = .ok t.opened := by
  have hn : (t.fanout 255).toNat = t.rows.length := by rw [toNat_fanout,upTo_last,length_oids]
  rw [PackIndexReader.new,bytes,t.header_decodes.run]
  exact congrArg (fun n => Except.ok (PackIndexReader.mk _ _ _ _ n)) hn

/-- The position of the first oid with the first byte of `oid`, or where it would be. -/
def start (t : IndexTable) (oid : Oid) : ℕ := below t.oids oid.first

/-- The oids with the first byte `b`. -/
def bucket (t : IndexTable) (b : Byte) : List Oid := t.oids.filter (·.first = b)

theorem sorted_bucket (t : IndexTable) (b : Byte) : (t.bucket b).Pairwise (· < ·) := t.sorted.filter _

theorem stretch_eq_bucket (t : IndexTable) (oid : Oid) :
    (t.oids.drop (t.start oid)).take (upTo t.oids oid.first-t.start oid) = t.bucket oid.first := by
  have hs : t.oids.Pairwise fun a b => a.first ≤ b.first := t.sorted.imp fun h => Oid.first_mono h.le
  exact stretch_eq_filter hs oid.first

theorem start_le_upTo (t : IndexTable) (oid : Oid) : t.start oid ≤ upTo t.oids oid.first := by
  rw [upTo_eq]
  exact Nat.le_add_right _ _

theorem rank_eq (t : IndexTable) (oid : Oid) : rank t.oids oid = t.start oid+rank (t.bucket oid.first) oid :=
  countP_lt_eq Oid.first_mono t.oids oid

theorem mem_bucket {oid : Oid} : oid ∈ t.bucket oid.first ↔ oid ∈ t.oids := by simp [bucket]

end IndexTable

/-! ### Reads of an open index -/

/-- A reader of the file, whatever it was asked before. -/
structure IndexTable.Reads (t : IndexTable) (r : PackIndexReader) : Prop where
  reader : r.reader = t.bytes
  fanout : r.fanout = t.fanout
  n : r.n = t.rows.length

namespace PackIndexReader
variable {t : IndexTable} {r : PackIndexReader} {i : ℕ} {row : Row}

/-- The number of bytes before a layer. -/
def baseOf (r : PackIndexReader) (layer : Layer) : ℕ :=
  PACK_IDX_HEADER_SIZE+FANOUT_SIZE+((List.range layer.toUsize).map fun layer => SIZE.getD layer 0*r.n).sum

theorem offsetOf_eq {layer : Layer} (h : layer ≠ .Ext) (i : ℕ) (r : PackIndexReader) :
    offsetOf layer i r = .ok (r.baseOf layer+i*SIZE.getD layer.toUsize 0) r := by
  cases layer
  · rfl
  · rfl
  · rfl
  · exact absurd rfl h

theorem readAt_eq {α : Type} {p : Parser α} {offset : ℕ} {a : α} {rest : Bytes}
    (h : p.run (r.reader.drop offset) = .ok (a,rest)) : readAt offset p r = .ok a r := by
  simp only [readAt,run_getBind,h]
  rfl

theorem readFrom_eq {α : Type} {p : Parser α} {text : α → Bytes} {as : List α} {layer : Layer} {before after : Bytes} {a : α}
    (hlayer : layer ≠ .Ext) (hfile : r.reader = before++as.flatMap text++after) (hbase : before.length = r.baseOf layer)
    (hw : ∀ a, (text a).length = SIZE.getD layer.toUsize 0) (hp : ∀ a, Decodes p (text a) a) (ha : as[i]? = some a) :
    readFrom p layer i r = .ok a r := by
  obtain ⟨hi,rfl⟩ := List.getElem?_eq_some_iff.mp ha
  refine (bind_of_ok (offsetOf_eq hlayer i r)).trans ?_
  have hdrop := drop_flatMap hw hi.le before after
  rw [← hfile,hbase,List.drop_eq_getElem_cons hi,List.flatMap_cons,List.append_assoc] at hdrop
  apply readAt_eq
  rw [hdrop]
  exact (hp as[i]).run _

variable (hr : t.Reads r)
include hr

theorem oidLayer : ∃ after, r.reader = t.header++t.oids.flatMap IndexFile.Oid.bytes++after := by
  refine ⟨(t.rows.map Row.crc).flatMap writeU32++((t.rows.map Row.offset).flatMap writeU32++
    (t.ext.flatMap writeU64++t.trailer)),?_⟩
  rw [hr.reader,IndexTable.bytes,IndexTable.layers]
  simp only [List.append_assoc]

variable (hrow : t.rows[i]? = some row)
include hrow

theorem readFrom_oid : readFrom readOid .Oid i r = .ok row.oid r := by
  obtain ⟨after,hfile⟩ := oidLayer hr
  refine readFrom_eq (by decide) hfile t.length_header IndexFile.Oid.length_bytes readOid_decodes ?_
  rw [IndexTable.oids,List.getElem?_map,hrow,Option.map_some]

theorem readFrom_crc : readFrom readU32 .Crc i r = .ok row.crc r := by
  have hfile : r.reader = (t.header++t.oids.flatMap IndexFile.Oid.bytes)++(t.rows.map Row.crc).flatMap writeU32++
      ((t.rows.map Row.offset).flatMap writeU32++(t.ext.flatMap writeU64++t.trailer)) := by
    rw [hr.reader,IndexTable.bytes,IndexTable.layers]
    simp only [List.append_assoc]
  refine readFrom_eq (by decide) hfile ?_ length_writeU32 readU32_decodes ?_
  · rw [List.length_append,t.length_header,length_flatMap_const IndexFile.Oid.length_bytes,t.length_oids,baseOf,hr.n]
    rfl
  · rw [List.getElem?_map,hrow,Option.map_some]

theorem readFrom_ofs : readFrom readU32 .Ofs i r = .ok row.offset r := by
  have hfile : r.reader = (t.header++t.oids.flatMap IndexFile.Oid.bytes++(t.rows.map Row.crc).flatMap writeU32)++
      (t.rows.map Row.offset).flatMap writeU32++(t.ext.flatMap writeU64++t.trailer) := by
    rw [hr.reader,IndexTable.bytes,IndexTable.layers]
    simp only [List.append_assoc]
  refine readFrom_eq (by decide) hfile ?_ length_writeU32 readU32_decodes ?_
  · rw [List.length_append,List.length_append,t.length_header,length_flatMap_const IndexFile.Oid.length_bytes,
      length_flatMap_const length_writeU32,t.length_oids,List.length_map,baseOf,hr.n]
    simp only [Layer.toUsize,List.range_succ,List.range_zero,List.nil_append,List.map_append,List.map_cons,List.map_nil,
      List.sum_append,List.sum_cons,List.sum_nil,SIZE,OID_SIZE,CRC_SIZE]
    simp
    ring
  · rw [List.getElem?_map,hrow,Option.map_some]

omit hrow

theorem low_eq (oid : Oid) : r.low oid = t.start oid := by
  rw [low,IndexTable.start,hr.fanout]
  split
  · rename_i h
    rw [h,below_zero]
  · rename_i h
    rw [t.toNat_fanout,upTo_pred t.oids h]

theorem readBucket_eq (oid : Oid) :
    readBucket (t.start oid) (r.fanout oid.first).toNat r = .ok (t.bucket oid.first) r := by
  have hle := t.start_le_upTo oid
  have hall : upTo t.oids oid.first ≤ t.oids.length := List.countP_le_length
  have hlen : (t.bucket oid.first).length = upTo t.oids oid.first-t.start oid := by
    rw [← t.stretch_eq_bucket,List.length_take,List.length_drop]
    omega
  obtain ⟨after,hfile⟩ := oidLayer hr
  have hdrop := drop_flatMap IndexFile.Oid.length_bytes (hle.trans hall) t.header after
  rw [← hfile,t.length_header,← List.take_append_drop (upTo t.oids oid.first-t.start oid) (t.oids.drop _),
    t.stretch_eq_bucket,List.flatMap_append,List.append_assoc] at hdrop
  have hrun := (Decodes.times fun o (_ : o ∈ t.bucket oid.first) => readOid_decodes o).run
  rw [hlen] at hrun
  rw [hr.fanout,t.toNat_fanout]
  simp only [readBucket,Nat.not_lt.mpr hle,if_false]
  rw [run_getBind,hdrop,hrun]
  rfl

omit hr

theorem search_eq (oid : Oid) (low : ℕ) {oids : List Oid} (hs : oids.Pairwise (· < ·)) :
    search oid low oids r = if oid ∈ oids then .ok (low+rank oids oid) r
      else .error (.objectNotFoundInPackIndex oid (low+rank oids oid)) r := by
  rw [search,binarySearch_eq hs]
  split <;> rfl

end PackIndexReader

/-! ### Runs of lookups -/

namespace IndexTable
variable {t : IndexTable} {seen : List Oid} {oid : Oid} {row : Row}

/-- What is read for a row, where an offset in the extended layer fails an assertion. -/
def readRow (row : Row) : Except Error (UInt32 × ℕ) :=
  if row.offset.toNat ≤ MAX_OFFSET then .ok (row.crc,row.offset.toNat)
  else .error (.panic "assertion failed: layer < Layer::Ext")

def notFound (oid : Oid) (index : ℕ) : Except Error (UInt32 × ℕ) := .error (.objectNotFoundInPackIndex oid index)

/-- What a lookup says if all oids are searched. -/
def said (t : IndexTable) (oid : Oid) : Except Error (UInt32 × ℕ) :=
  match t.rows.find? (·.oid = oid) with
  | some row => readRow row
  | none => notFound oid (rank t.oids oid)

/-- The first of the lookups for a bucket with this start: its bucket is the one that is kept. -/
def kept (t : IndexTable) (seen : List Oid) (start : ℕ) : Option Oid := seen.find? (t.start · = start)

/-- What a lookup says if the bucket of `first` is searched. -/
def saidIn (t : IndexTable) (first : Option Oid) (oid : Oid) : Except Error (UInt32 × ℕ) :=
  if first.map Oid.first = some oid.first then t.said oid else notFound oid (t.start oid)

end IndexTable

/-- The caches after the lookups `seen`. -/
structure IndexTable.Served (t : IndexTable) (seen : List Oid) (r : PackIndexReader) : Prop extends t.Reads r where
  buckets : ∀ start, r.oidCache start = (t.kept seen start).map fun first => t.bucket first.first
  answers : ∀ oid v, r.crcOffsetCache oid = some v →
    t.said oid = .ok v ∧ (t.kept seen (t.start oid)).map Oid.first = some oid.first

namespace IndexTable
variable {t : IndexTable} {seen : List Oid} {oid : Oid} {row : Row} {r : PackIndexReader}

theorem row_ext {row' : Row} (h : row ∈ t.rows) (h' : row' ∈ t.rows) (hoid : row.oid = row'.oid) : row = row' :=
  List.inj_on_of_nodup_map (t.sorted.imp fun h => h.ne) h h' hoid

theorem said_of_mem (h : row ∈ t.rows) (hoid : row.oid = oid) : t.said oid = readRow row := by
  cases hfind : t.rows.find? (·.oid = oid) with
  | none => exact absurd hoid (by simpa using List.find?_eq_none.mp hfind row h)
  | some row' =>
    have hoid' : row'.oid = oid := by simpa using List.find?_some hfind
    rw [said,hfind,row_ext h (List.mem_of_find?_eq_some hfind) (hoid.trans hoid'.symm)]

theorem said_of_notMem (h : oid ∉ t.oids) : t.said oid = notFound oid (rank t.oids oid) := by
  have hnone : t.rows.find? (·.oid = oid) = none := by
    rw [List.find?_eq_none]
    intro row hrow hoid
    exact h (List.mem_map.mpr ⟨row,hrow,by simpa using hoid⟩)
  rw [said,hnone]

theorem served_opened (t : IndexTable) : t.Served [] t.opened := ⟨⟨rfl,rfl,rfl⟩,fun _ => rfl,fun _ _ h => nomatch h⟩

theorem kept_concat (t : IndexTable) (seen : List Oid) (oid : Oid) (start : ℕ) :
    t.kept (seen++[oid]) start = (t.kept seen start).or (if t.start oid = start then some oid else none) := by
  rw [kept,List.find?_append]
  by_cases h : t.start oid = start <;> simp [kept,h]

/-- The bucket that is searched for `oid` is that of the first lookup with the same start. -/
theorem exists_kept (t : IndexTable) (seen : List Oid) (oid : Oid) :
    ∃ first, t.kept (seen++[oid]) (t.start oid) = some first ∧ t.start first = t.start oid := by
  have hsome : (t.kept (seen++[oid]) (t.start oid)).isSome := by
    rw [kept_concat,if_pos rfl]
    cases t.kept seen (t.start oid) <;> rfl
  obtain ⟨first,hfirst⟩ := Option.isSome_iff_exists.mp hsome
  exact ⟨first,hfirst,by simpa using List.find?_some hfirst⟩

/-- A bucket of another first byte is all above the oid. -/
theorem le_of_mem_bucket {first y : Oid} (hstart : t.start first = t.start oid) (hne : first.first ≠ oid.first)
    (hy : y ∈ t.bucket first.first) : oid ≤ y := by
  obtain ⟨hmem,hyf⟩ : y ∈ t.oids ∧ y.first = first.first := by simpa [bucket] using hy
  rcases hne.lt_or_gt with hlt | hgt
  · have hone : 0 < t.oids.countP (·.first = first.first) :=
      List.countP_pos_iff.mpr ⟨y,hmem,by simpa using hyf⟩
    have hle := upTo_le_below t.oids hlt
    rw [upTo_eq] at hle
    simp only [start] at hstart
    omega
  · exact (Oid.first_mono.reflect_lt (hyf ▸ hgt)).le

namespace Served
open PackIndexReader

/-- The reader with the bucket of `first` in its cache. -/
def keep (t : IndexTable) (r : PackIndexReader) (oid first : Oid) : PackIndexReader :=
  { r with oidCache := Function.update r.oidCache (t.start oid) (some (t.bucket first.first)) }

theorem findOidIndex_eq (h : t.Served seen r) {first : Oid} (hfirst : t.kept (seen++[oid]) (t.start oid) = some first) :
    findOidIndex oid r = search oid (t.start oid) (t.bucket first.first) (keep t r oid first) := by
  have hlow := low_eq h.toReads oid
  have hcache := h.buckets (t.start oid)
  unfold findOidIndex
  rw [run_getBind]
  simp only [hlow]
  cases hkept : t.kept seen (t.start oid) with
  | none =>
    obtain rfl : oid = first := by simpa [kept_concat,hkept] using hfirst
    rw [hkept,Option.map_none] at hcache
    simp only [hcache]
    refine (bind_of_ok (readBucket_eq h.toReads oid)).trans ?_
    rfl
  | some f =>
    obtain rfl : f = first := by simpa [kept_concat,hkept] using hfirst
    rw [hkept,Option.map_some] at hcache
    simp only [hcache]
    rw [keep,← hcache,Function.update_eq_self]

theorem keep_buckets (h : t.Served seen r) {first : Oid} (hfirst : t.kept (seen++[oid]) (t.start oid) = some first)
    (start : ℕ) :
    (keep t r oid first).oidCache start = (t.kept (seen++[oid]) start).map fun first => t.bucket first.first := by
  by_cases hs : start = t.start oid
  · subst hs
    rw [hfirst,keep]
    simp
  · rw [kept_concat,if_neg (Ne.symm hs),Option.or_none,← h.buckets start,keep]
    simp [hs]

theorem reads_keep (h : t.Served seen r) (oid first : Oid) : t.Reads (keep t r oid first) := ⟨h.reader,h.fanout,h.n⟩

theorem inner_of_found {i : ℕ} {r' : PackIndexReader} (hr : t.Reads r') (hrow : t.rows[i]? = some row)
    (hfind : findOidIndex row.oid r = .ok i r') : findOidCrcOffsetInner row.oid r = ended r' (readRow row) := by
  refine (bind_of_ok hfind).trans <| (bind_of_ok (readFrom_oid hr hrow)).trans ?_
  have hassert : assertThat "oid == self.read_from(Layer::Oid, index)?" (row.oid = row.oid) r' = .ok () r' := by
    rw [assertThat,if_pos rfl]
    rfl
  refine (bind_of_ok hassert).trans <| (bind_of_ok (readFrom_crc hr hrow)).trans <|
    (bind_of_ok (readFrom_ofs hr hrow)).trans ?_
  by_cases hle : row.offset.toNat ≤ MAX_OFFSET
  · rw [if_neg (not_lt.mpr hle),readRow,if_pos hle]
    rfl
  · rw [if_pos (not_le.mp hle),readRow,if_neg hle]
    rfl

theorem inner_eq (h : t.Served seen r) {first : Oid} (hfirst : t.kept (seen++[oid]) (t.start oid) = some first)
    (hstart : t.start first = t.start oid) :
    findOidCrcOffsetInner oid r = ended (keep t r oid first) (t.saidIn (some first) oid) := by
  have hsearch := h.findOidIndex_eq hfirst
  rw [search_eq oid _ (t.sorted_bucket _)] at hsearch
  by_cases hsame : first.first = oid.first
  · have hsaid : t.saidIn (some first) oid = t.said oid := if_pos (congrArg some hsame)
    rw [hsame,← t.rank_eq] at hsearch
    rw [hsaid]
    by_cases hmem : oid ∈ t.oids
    · rw [if_pos (t.mem_bucket.mpr hmem)] at hsearch
      have hget := (mem_iff_getElem?_rank t.sorted).mp hmem
      obtain ⟨row,hrow,rfl⟩ := Option.map_eq_some_iff.mp (List.getElem?_map ▸ hget)
      rw [t.said_of_mem (List.mem_of_getElem? hrow) rfl]
      exact inner_of_found (h.reads_keep _ _) hrow hsearch
    · rw [if_neg fun hb => hmem (t.mem_bucket.mp hb)] at hsearch
      rw [t.said_of_notMem hmem]
      exact bind_of_error hsearch
  · have hsaid : t.saidIn (some first) oid = notFound oid (t.start oid) := if_neg fun heq => hsame (Option.some.inj heq)
    have hzero : rank (t.bucket first.first) oid = 0 := rank_eq_zero fun y hy => le_of_mem_bucket hstart hsame hy
    have hno : oid ∉ t.bucket first.first := by
      intro hy
      exact hsame (by simpa [bucket] using hy : oid ∈ t.oids ∧ oid.first = first.first).2.symm
    rw [if_neg hno,hzero] at hsearch
    rw [hsaid]
    exact bind_of_error hsearch

/-- Only answers from the right bucket are kept. -/
theorem saidIn_eq_ok {first : Option Oid} {v : UInt32 × ℕ} (h : t.saidIn first oid = .ok v) :
    t.said oid = .ok v ∧ first.map Oid.first = some oid.first := by
  unfold saidIn at h
  split at h
  · exact ⟨h,‹_›⟩
  · cases h

theorem kept_of_kept {start : ℕ} {b : Byte} (h : (t.kept seen start).map Oid.first = some b) (oid : Oid) :
    (t.kept (seen++[oid]) start).map Oid.first = some b := by
  obtain ⟨f,hf,hb⟩ := Option.map_eq_some_iff.mp h
  rw [kept_concat,hf,Option.some_or,Option.map_some,hb]

/-- One more lookup. -/
theorem step (h : t.Served seen r) (oid : Oid) :
    outcome (findOidCrcOffset oid r) = t.saidIn (t.kept (seen++[oid]) (t.start oid)) oid ∧
      t.Served (seen++[oid]) (final (findOidCrcOffset oid r)) := by
  obtain ⟨first,hfirst,hstart⟩ := t.exists_kept seen oid
  have hanswers (oid' : Oid) (v : UInt32 × ℕ) (hv : r.crcOffsetCache oid' = some v) :
      t.said oid' = .ok v ∧ (t.kept (seen++[oid]) (t.start oid')).map Oid.first = some oid'.first :=
    (h.answers oid' v hv).imp_right fun hk => kept_of_kept hk oid
  unfold findOidCrcOffset
  rw [run_getBind]
  cases hcache : r.crcOffsetCache oid with
  | some v =>
    obtain ⟨hsaid,hkept⟩ := h.answers oid v hcache
    have hsame := kept_of_kept hkept oid
    refine ⟨?_,h.toReads,fun start => ?_,hanswers⟩
    · rw [saidIn,if_pos hsame]
      exact hsaid.symm
    · -- the bucket was there before
      obtain ⟨f,hf,-⟩ := Option.map_eq_some_iff.mp hkept
      refine (h.buckets start).trans (congrArg _ ?_)
      rw [kept_concat]
      by_cases hs : t.start oid = start
      · rw [← hs,hf]
        rfl
      · rw [if_neg hs,Option.or_none]
  | none =>
    have hinner := h.inner_eq hfirst hstart
    cases hsaid : t.saidIn (some first) oid with
    | error e =>
      rw [hsaid] at hinner
      simp only
      rw [bind_of_error hinner,hfirst,hsaid]
      exact ⟨rfl,h.reads_keep _ _,h.keep_buckets hfirst,hanswers⟩
    | ok v =>
      rw [hsaid] at hinner
      simp only
      rw [bind_of_ok hinner,hfirst,hsaid]
      have hcached (oid' : Oid) (v' : UInt32 × ℕ)
          (hv : Function.update r.crcOffsetCache oid (some v) oid' = some v') :
          t.said oid' = .ok v' ∧ (t.kept (seen++[oid]) (t.start oid')).map Oid.first = some oid'.first := by
        by_cases ho : oid' = oid
        · subst ho
          obtain rfl : v = v' := by simpa using hv
          rw [hfirst]
          exact saidIn_eq_ok hsaid
        · exact hanswers oid' v' (by simpa [ho] using hv)
      exact ⟨rfl,⟨h.reader,h.fanout,h.n⟩,h.keep_buckets hfirst,hcached⟩

end Served

open PackIndexReader

/-- A reader that was just opened searches the right bucket. -/
theorem lookup_eq (t : IndexTable) (oid : Oid) : lookup t.bytes oid = t.said oid := by
  rw [lookup,new_bytes]
  refine (t.served_opened.step oid).1.trans ?_
  have hself : t.kept ([]++[oid]) (t.start oid) = some oid := by simp [kept]
  rw [hself]
  exact if_pos rfl

/-- A lookup on a fresh reader returns what the index records, or the place where the oid would be, exactly if
no large offset is recorded for it. -/
theorem lookup_correct_iff (t : IndexTable) (oid : Oid) :
    ((∀ row ∈ t.rows, row.oid = oid → lookup t.bytes oid = .ok (row.crc,t.recorded row)) ∧
      (oid ∉ t.oids → lookup t.bytes oid = .error (.objectNotFoundInPackIndex oid (t.oids.countP (· < oid))))) ↔
    ∀ row ∈ t.rows, row.oid = oid → row.offset.toNat ≤ MAX_OFFSET := by
  rw [lookup_eq]
  constructor
  · rintro ⟨hfound,-⟩ row hrow hoid
    have hok := hfound row hrow hoid
    rw [said_of_mem hrow hoid,readRow] at hok
    by_contra hlarge
    rw [if_neg hlarge] at hok
    cases hok
  · intro hsmall
    constructor
    · intro row hrow hoid
      have hle := hsmall row hrow hoid
      rw [said_of_mem hrow hoid,readRow,recorded,if_pos hle,if_pos hle]
    · intro hno
      exact said_of_notMem hno

/-- The one object lies behind the first two gigabytes of its pack. -/
def largeTable : IndexTable :=
  ⟨[⟨.UNKNOWN,0,0x80000000⟩],[0x80000000],List.replicate 40 0,by decide,by decide,by decide⟩

theorem lookup_large : ¬∀ row ∈ largeTable.rows, lookup largeTable.bytes row.oid = .ok (row.crc,largeTable.recorded row) := by
  intro h
  have hrow := h ⟨.UNKNOWN,0,0x80000000⟩ (by decide)
  rw [lookup_eq] at hrow
  revert hrow
  decide

/-! ### What was asked before -/

/-- Some oid of the same bucket comes before the oid that is asked for, or is that oid. -/
def Reached (t : IndexTable) (oid : Oid) : Prop := ∃ x ∈ t.oids, x.first = oid.first ∧ x ≤ oid

theorem saidIn_eq_said_iff (t : IndexTable) (first : Option Oid) (oid : Oid) :
    t.saidIn first oid = t.said oid ↔ (t.Reached oid → first.map Oid.first = some oid.first) := by
  by_cases hsame : first.map Oid.first = some oid.first
  · exact iff_of_true (if_pos hsame) fun _ => hsame
  rw [show t.saidIn first oid = notFound oid (t.start oid) from if_neg hsame]
  simp only [hsame,imp_false]
  by_cases hmem : oid ∈ t.oids
  · refine iff_of_false (fun h => ?_) (not_not_intro ⟨oid,hmem,rfl,le_rfl⟩)
    obtain ⟨row,hrow,hoid⟩ := List.mem_map.mp hmem
    rw [said_of_mem hrow hoid,readRow,notFound] at h
    split at h
    · cases h
    · cases h
  · have hrank : t.said oid = notFound oid (t.start oid+rank (t.bucket oid.first) oid) := by
      rw [said_of_notMem hmem,rank_eq]
    have hreached : 0 < rank (t.bucket oid.first) oid ↔ t.Reached oid := by
      rw [rank,List.countP_pos_iff]
      constructor
      · rintro ⟨x,hx,hlt⟩
        obtain ⟨hx,hfirst⟩ : x ∈ t.oids ∧ x.first = oid.first := by simpa [bucket] using hx
        exact ⟨x,hx,hfirst,(of_decide_eq_true hlt).le⟩
      · rintro ⟨x,hx,hfirst,hle⟩
        have hne : x ≠ oid := fun h => hmem (h ▸ hx)
        exact ⟨x,by simp [bucket,hx,hfirst],decide_eq_true (lt_of_le_of_ne hle hne)⟩
    rw [hrank,← hreached,notFound,notFound,Except.error.injEq,Error.objectNotFoundInPackIndex.injEq,
      and_iff_right rfl,left_eq_add,Nat.pos_iff_ne_zero,not_not]

/-- For every lookup that gets as far as an oid of its bucket, the first lookup for a bucket with that start was for
the same bucket. -/
def Coherent (t : IndexTable) (oids : List Oid) : Prop :=
  ∀ seen oid, seen++[oid] <+: oids → t.Reached oid →
    (t.kept (seen++[oid]) (t.start oid)).map Oid.first = some oid.first

theorem answers_eq_iff {seen : List Oid} {r : PackIndexReader} (h : t.Served seen r) (oids : List Oid) :
    answers oids r = oids.map t.said ↔ ∀ pre oid, pre++[oid] <+: oids → t.Reached oid →
      (t.kept (seen++(pre++[oid])) (t.start oid)).map Oid.first = some oid.first := by
  induction oids generalizing seen r with
  | nil => exact iff_of_true rfl fun pre oid hpre => absurd (List.prefix_nil.mp hpre) (by simp)
  | cons o oids ih =>
    obtain ⟨hsaid,hserved⟩ := h.step o
    rw [answers,List.map_cons,List.cons.injEq,hsaid,saidIn_eq_said_iff,ih hserved]
    constructor
    · rintro ⟨hnow,hlater⟩ pre oid hpre hreached
      cases pre with
      | nil =>
        obtain rfl : oid = o := by simpa using hpre
        exact hnow hreached
      | cons p pre =>
        obtain ⟨rfl,hrest⟩ := List.cons_prefix_cons.mp hpre
        simpa using hlater pre oid hrest hreached
    · intro hall
      refine ⟨fun hreached => hall [] o (by simp) hreached,fun pre oid hpre hreached => ?_⟩
      simpa using hall (o::pre) oid (List.cons_prefix_cons.mpr ⟨rfl,hpre⟩) hreached

theorem lookups_eq_iff (t : IndexTable) (oids : List Oid) :
    lookups t.bytes oids = .ok (oids.map (lookup t.bytes)) ↔ answers oids t.opened = oids.map t.said := by
  have hfresh : lookup t.bytes = t.said := funext t.lookup_eq
  rw [lookups,new_bytes,hfresh]
  exact ⟨Except.ok.inj,congrArg Except.ok⟩

/-- Every call answers as on a fresh reader exactly if the run is coherent. -/
theorem lookups_eq_fresh_iff (t : IndexTable) (oids : List Oid) :
    lookups t.bytes oids = .ok (oids.map (lookup t.bytes)) ↔ t.Coherent oids := by
  rw [lookups_eq_iff]
  exact answers_eq_iff t.served_opened oids

/-- The one oid of the table starts with the byte 1. -/
def oneOid : Oid := ⟨1::List.replicate 19 0,rfl⟩

def oneTable : IndexTable := ⟨[⟨oneOid,0,12⟩],[],List.replicate 40 0,by decide,by decide,by decide⟩

/-- The empty bucket of the byte 0 starts at the same position. -/
theorem lookups_after_empty : lookups oneTable.bytes [.UNKNOWN,oneOid] ≠
    .ok ([.UNKNOWN,oneOid].map (lookup oneTable.bytes)) := by
  rw [Ne,lookups_eq_iff,answers_eq_iff oneTable.served_opened]
  intro h
  have hkept := h [.UNKNOWN] oneOid (by simp) ⟨oneOid,by decide,rfl,le_rfl⟩
  revert hkept
  decide

end IndexTable

end Packfile
end Libbit
