import Libbit.Lib.BufRead
import Libbit.Lib.Codec
import Libbit.Path

/-! Readers that hash what is read through them (`io.rs`), one inside another as the pack reader has them (`pack.rs`). -/
namespace Libbit

open Lib

/-- What the `digest` crate asks of a hash function. -/
class Digest (D : Type) where
  new : D
  update : Bytes → D → D
  finalize : D → Bytes

/-- A text may be hashed piece by piece. -/
class LawfulDigest (D : Type) [Digest D] : Prop where
  finalize_foldl (chunks : List Bytes) : Digest.finalize (chunks.foldl (fun d b => Digest.update b d) (Digest.new : D)) =
    Digest.finalize (Digest.update chunks.flatten (Digest.new : D))

/-- The hash of the text as a whole. -/
def Digest.digest (D : Type) [Digest D] (text : Bytes) : Bytes := Digest.finalize (Digest.update text (Digest.new : D))

structure HashReader (D R : Type) where
  hasher : D
  reader : R
  bytesHashed : ℕ

/-- `Result::expect` on what a reader returns. -/
def expectRead {σ α : Type} (message : String) (m : EStateM ReadError σ α) : EStateM ReadError σ α := fun s =>
  match m s with
  | .error (.io e) s' => .error (.panic (message++": "++e)) s'
  | r => r

/-- `&buf[..n]` -/
def sliceTo {σ : Type} (buf : Bytes) (n : ℕ) : EStateM ReadError σ Bytes :=
  if n ≤ buf.length then pure (buf.take n)
  else throw (.panic ("range end index "++toString n++" out of range for slice of length "++toString buf.length))

theorem expectRead_eq_ok {σ α : Type} {message : String} {m : EStateM ReadError σ α} {s s' : σ} {a : α} :
    expectRead message m s = .ok a s' ↔ m s = .ok a s' := by
  rw [expectRead]
  cases m s with
  | ok a s' => rfl
  | error e s' => cases e <;> simp

theorem sliceTo_eq_ok {σ : Type} {buf taken : Bytes} {n : ℕ} {s s' : σ} :
    sliceTo buf n s = .ok taken s' ↔ n ≤ buf.length ∧ taken = buf.take n ∧ s' = s := by
  rw [sliceTo]
  split
  · rename_i hle
    rw [run_pure,EStateM.Result.ok.injEq,and_iff_right hle,eq_comm,@eq_comm _ s]
  · rename_i hle
    exact iff_of_false nofun fun h => hle h.1

namespace HashReader
variable {D R : Type}

def intoInner (h : HashReader D R) : R := h.reader

/-- A call of the reader below. -/
def onReader {α : Type} (m : EStateM ReadError R α) : EStateM ReadError (HashReader D R) α := fun h =>
  match m h.reader with
  | .ok a r => .ok a { h with reader := r }
  | .error e r => .error e { h with reader := r }

section
variable {α : Type} {m : EStateM ReadError R α} {h h' : HashReader D R}

theorem withReader_eq_iff {r : R} :
    { h with reader := r } = h' ↔ r = h'.reader ∧ h'.hasher = h.hasher ∧ h'.bytesHashed = h.bytesHashed := by
  constructor
  · rintro rfl
    exact ⟨rfl,rfl,rfl⟩
  · rcases h' with ⟨hasher,reader,bytesHashed⟩
    rintro ⟨rfl,rfl,rfl⟩
    rfl

theorem onReader_eq_ok {a : α} :
    onReader m h = .ok a h' ↔ m h.reader = .ok a h'.reader ∧ h'.hasher = h.hasher ∧ h'.bytesHashed = h.bytesHashed := by
  rw [onReader]
  cases m h.reader with
  | error e r => simp
  | ok a r => simp only [EStateM.Result.ok.injEq,withReader_eq_iff,and_assoc]

theorem onReader_eq_error {e : ReadError} : onReader m h = .error e h' ↔
    m h.reader = .error e h'.reader ∧ h'.hasher = h.hasher ∧ h'.bytesHashed = h.bytesHashed := by
  rw [onReader]
  cases m h.reader with
  | ok a r => simp
  | error e r => simp only [EStateM.Result.error.injEq,withReader_eq_iff,and_assoc]

end

variable [Digest D]

def new (reader : R) : HashReader D R := ⟨Digest.new,reader,0⟩

/-- The bytes are hashed before they are counted. -/
def hash (bytes : Bytes) : EStateM ReadError (HashReader D R) Unit := fun h =>
  let h := { h with hasher := Digest.update bytes h.hasher }
  if h.bytesHashed+bytes.length < 2^64 then .ok () { h with bytesHashed := h.bytesHashed+bytes.length }
  else .error (.panic "attempt to add with overflow") h

/-- `finalize_reset`: the count stays. -/
def finalizeReset : EStateM ReadError (HashReader D R) Bytes := fun h =>
  .ok (Digest.finalize h.hasher) { h with hasher := Digest.new }

theorem hash_eq_ok {h h' : HashReader D R} {b : Bytes} : hash b h = .ok () h' ↔
    h.bytesHashed+b.length < 2^64 ∧ h' = ⟨Digest.update b h.hasher,h.reader,h.bytesHashed+b.length⟩ := by
  rw [hash]
  split
  · rename_i hlt
    simp only [EStateM.Result.ok.injEq,true_and,eq_comm]
    exact (and_iff_right hlt).symm
  · rename_i hlt
    exact iff_of_false nofun fun h => hlt h.1

theorem hash_ne_io {h h' : HashReader D R} {b : Bytes} {e : String} : hash b h ≠ .error (.io e) h' := by
  rw [hash]
  split <;> simp

/-- The hasher has been given these bytes piece by piece. -/
def Hashed (h : HashReader D R) (delivered : Bytes) : Prop :=
  (∃ chunks : List Bytes, h.hasher = chunks.foldl (fun d b => Digest.update b d) Digest.new ∧ chunks.flatten = delivered) ∧
    h.bytesHashed = delivered.length

section
variable {h h' : HashReader D R} {b d : Bytes}

theorem Hashed.update (hd : Hashed h d) (hhasher : h'.hasher = Digest.update b h.hasher)
    (hcount : h'.bytesHashed = h.bytesHashed+b.length) : Hashed h' (d++b) := by
  obtain ⟨⟨chunks,hchunks,rfl⟩,hlen⟩ := hd
  refine ⟨⟨chunks++[b],?_,by simp⟩,?_⟩
  · rw [List.foldl_append,← hchunks]
    exact hhasher
  · rw [hcount,hlen,List.length_append]

theorem Hashed.same (hd : Hashed h d) (hhasher : h'.hasher = h.hasher) (hcount : h'.bytesHashed = h.bytesHashed) :
    Hashed h' d := by
  rw [Hashed,hhasher,hcount]
  exact hd

theorem hashed_new (r : R) : Hashed (new r : HashReader D R) [] := ⟨⟨[],rfl,rfl⟩,rfl⟩

end

variable [BufRead Byte R]

def fillBuf : EStateM ReadError (HashReader D R) Bytes := onReader BufRead.fillBuf

def consume (amt : ℕ) : EStateM ReadError (HashReader D R) Unit := do
  let buf ← expectRead
    "hopefully in any normal usage, fill_buf is called before consume and so is essentially infallible"
    (onReader BufRead.fillBuf)
  let taken ← sliceTo buf amt
  hash taken
  onReader (BufRead.consume amt)

def read (n : ℕ) : EStateM ReadError (HashReader D R) Bytes := do
  let bytes ← onReader (BufRead.read n)
  hash bytes
  pure bytes

instance : BufRead Byte (HashReader D R) where
  read := read
  fillBuf := fillBuf
  consume := consume

/-! ### What each call does -/

variable {h h' : HashReader D R} {n : ℕ} {b : Bytes} {e : String}

/-- What is read is hashed and counted. -/
theorem read_eq_ok : BufRead.read n h = .ok b h' ↔ BufRead.read n h.reader = .ok b h'.reader ∧
    h.bytesHashed+b.length < 2^64 ∧ h'.hasher = Digest.update b h.hasher ∧ h'.bytesHashed = h.bytesHashed+b.length := by
  change read n h = _ ↔ _
  rw [read,bind_ok]
  constructor
  · rintro ⟨b',t,hread,hrest⟩
    obtain ⟨_,t',hhash,hpure⟩ := bind_ok.mp hrest
    cases hpure
    obtain ⟨hreader,hhasher,hcount⟩ := onReader_eq_ok.mp hread
    obtain ⟨hlt,rfl⟩ := hash_eq_ok.mp hhash
    rw [hcount] at hlt
    exact ⟨hreader,hlt,by rw [hhasher],by rw [hcount]⟩
  · rcases h' with ⟨hasher,reader,bytesHashed⟩
    rintro ⟨hread,hlt,rfl,rfl⟩
    exact ⟨b,⟨h.hasher,reader,h.bytesHashed⟩,onReader_eq_ok.mpr ⟨hread,rfl,rfl⟩,bind_ok.mpr ⟨(),_,hash_eq_ok.mpr ⟨hlt,rfl⟩,rfl⟩⟩

theorem read_eq_io (hread : BufRead.read n h = .error (.io e) h') :
    BufRead.read n h.reader = .error (.io e) h'.reader ∧ h'.hasher = h.hasher ∧ h'.bytesHashed = h.bytesHashed := by
  change read n h = _ at hread
  rw [read,bind_error] at hread
  rcases hread with hread | ⟨b,t,-,hrest⟩
  · exact onReader_eq_error.mp hread
  · rcases bind_error.mp hrest with hhash | ⟨_,t',-,hpure⟩
    · exact absurd hhash hash_ne_io
    · cases hpure

theorem fillBuf_eq_ok : BufRead.fillBuf h = .ok b h' ↔
    BufRead.fillBuf h.reader = .ok b h'.reader ∧ h'.hasher = h.hasher ∧ h'.bytesHashed = h.bytesHashed := onReader_eq_ok

theorem fillBuf_eq_io : BufRead.fillBuf h = .error (.io e) h' ↔
    BufRead.fillBuf h.reader = .error (.io e) h'.reader ∧ h'.hasher = h.hasher ∧ h'.bytesHashed = h.bytesHashed :=
  onReader_eq_error

/-- The buffer is filled again, and what is consumed of it is hashed and counted. -/
theorem consume_eq_ok : BufRead.consume n h = .ok () h' ↔ ∃ b r, BufRead.fillBuf h.reader = .ok b r ∧ n ≤ b.length ∧
    h.bytesHashed+n < 2^64 ∧ BufRead.consume n r = .ok () h'.reader ∧ h'.hasher = Digest.update (b.take n) h.hasher ∧
      h'.bytesHashed = h.bytesHashed+n := by
  change consume n h = _ ↔ _
  rw [consume,bind_ok]
  constructor
  · rintro ⟨b,t,hfill,hrest⟩
    obtain ⟨taken,t',hslice,hrest⟩ := bind_ok.mp hrest
    obtain ⟨_,t'',hhash,hconsume⟩ := bind_ok.mp hrest
    obtain ⟨hreader,hhasher,hcount⟩ := onReader_eq_ok.mp (expectRead_eq_ok.mp hfill)
    obtain ⟨hle,rfl,rfl⟩ := sliceTo_eq_ok.mp hslice
    obtain ⟨hlt,rfl⟩ := hash_eq_ok.mp hhash
    obtain ⟨hconsume,hhasher',hcount'⟩ := onReader_eq_ok.mp hconsume
    rw [List.length_take_of_le hle,hcount] at hlt hcount'
    exact ⟨b,t'.reader,hreader,hle,hlt,hconsume,by rw [hhasher',hhasher],hcount'⟩
  · rcases h' with ⟨hasher,reader,bytesHashed⟩
    rintro ⟨b,r,hfill,hle,hlt,hconsume,rfl,rfl⟩
    have hlen := List.length_take_of_le hle
    refine ⟨b,⟨h.hasher,r,h.bytesHashed⟩,expectRead_eq_ok.mpr (onReader_eq_ok.mpr ⟨hfill,rfl,rfl⟩),?_⟩
    refine bind_ok.mpr ⟨b.take n,_,sliceTo_eq_ok.mpr ⟨hle,rfl,rfl⟩,?_⟩
    refine bind_ok.mpr ⟨(),_,hash_eq_ok.mpr ⟨by rwa [hlen],rfl⟩,onReader_eq_ok.mpr ⟨hconsume,rfl,?_⟩⟩
    rw [hlen]

open LawfulBufRead (unread)

/-- The contract of the reader below is that of the hashing reader. -/
instance [LawfulBufRead Byte R] : LawfulBufRead Byte (HashReader D R) where
  unread h := unread h.reader
  fill h := LawfulBufRead.fill (fillBuf_eq_ok.mp h).1
  refill := by
    intro h hne
    obtain ⟨b,r,hfill,hle⟩ := LawfulBufRead.refill hne
    exact ⟨b,⟨h.hasher,r,h.bytesHashed⟩,fillBuf_eq_ok.mpr ⟨hfill,rfl,rfl⟩,hle⟩
  read_ok h := LawfulBufRead.read_ok (read_eq_ok.mp h).1
  read_io h := LawfulBufRead.read_io (read_eq_io h).1
  consume_ok := by
    intro h h' n hne hle hconsume
    obtain ⟨b,r,hfill,-,-,hconsume,-⟩ := consume_eq_ok.mp hconsume
    obtain ⟨b',r',hrefill,hleft⟩ := LawfulBufRead.refill hne
    rw [hrefill] at hfill
    cases hfill
    have hmore : unread h.reader <+: unread r := hleft.trans (LawfulBufRead.fill hrefill)
    have hne' : unread r ≠ [] := fun hnil => hne (List.prefix_nil.mp (hnil ▸ hmore))
    exact (hmore.drop n).trans (LawfulBufRead.consume_ok hne' (hle.trans hmore.length_le) hconsume)

variable [LawfulBufRead Byte R] {v : View Byte}

/-- What `consume` takes is what was seen, as far as that goes. -/
theorem taken_of_consume (hsees : Sees (h,v)) (hn : n ≤ v.seen.length) {r : R} (hfill : BufRead.fillBuf h.reader = .ok b r) :
    b.take n = v.seen.take n := by
  have hseen : v.seen <+: unread h.reader := hsees
  by_cases hne : unread h.reader = []
  · have hnil : v.seen = [] := List.prefix_nil.mp (hne ▸ hseen)
    rw [hnil] at hn ⊢
    rw [Nat.le_zero.mp hn,List.take_zero,List.take_zero]
  · obtain ⟨b',r',hrefill,hleft⟩ := LawfulBufRead.refill hne
    rw [hrefill] at hfill
    cases hfill
    obtain ⟨rest,rfl⟩ := hseen.trans hleft
    exact List.take_append_of_le_length hn

/-- Within what was seen `consume` returns, if the reader below does and the count does not overflow. -/
theorem consume_returns (hsees : Sees (h,v)) (hpos : 0 < n) (hn : n ≤ v.seen.length) (hcount : h.bytesHashed+n < 2^64)
    (hreader : ∀ r : R, n ≤ (unread r).length → ∃ r', BufRead.consume n r = .ok () r') :
    ∃ h', BufRead.consume n h = .ok () h' := by
  have hseen : v.seen <+: unread h.reader := hsees
  have hne : unread h.reader ≠ [] := List.ne_nil_of_length_pos (hpos.trans_le (hn.trans hseen.length_le))
  obtain ⟨b,r,hfill,hleft⟩ := LawfulBufRead.refill hne
  have hle : n ≤ b.length := hn.trans (hseen.trans hleft).length_le
  obtain ⟨r',hconsume⟩ := hreader r (hle.trans (LawfulBufRead.fill hfill).length_le)
  exact ⟨⟨_,r',_⟩,consume_eq_ok.mpr ⟨b,r,hfill,hle,hcount,hconsume,rfl,rfl⟩⟩

omit [LawfulBufRead Byte R] in
/-- A call of `consume` that returns is a step, however much it consumes. -/
theorem step_of_consume (hconsume : BufRead.consume n h = .ok () h') (v : View Byte) : ∃ v', Step (h,v) (h',v') := by
  obtain ⟨b,r,hfill,hle,-⟩ := consume_eq_ok.mp hconsume
  have hfill' : BufRead.fillBuf h = .ok b ⟨h.hasher,r,h.bytesHashed⟩ := fillBuf_eq_ok.mpr ⟨hfill,rfl,rfl⟩
  exact ⟨_,.consumeUnseen hfill' hle hconsume⟩

/-- Each call hashes what it delivers. -/
theorem kept_hashed : Kept (Hashed : HashReader D R → Bytes → Prop) := by
  intro x y hsees hstep hd
  cases hstep with
  | read hread =>
    obtain ⟨-,-,hhasher,hcount⟩ := read_eq_ok.mp hread
    exact hd.update hhasher hcount
  | readFails hread =>
    obtain ⟨-,hhasher,hcount⟩ := read_eq_io hread
    exact hd.same hhasher hcount
  | fill hfill =>
    obtain ⟨-,hhasher,hcount⟩ := fillBuf_eq_ok.mp hfill
    exact hd.same hhasher hcount
  | fillFails hfill =>
    obtain ⟨-,hhasher,hcount⟩ := fillBuf_eq_io.mp hfill
    exact hd.same hhasher hcount
  | consume hn hconsume =>
    obtain ⟨b,r,hfill,hle,-,-,hhasher,hcount⟩ := consume_eq_ok.mp hconsume
    have htaken := taken_of_consume hsees hn hfill
    refine htaken ▸ hd.update hhasher ?_
    rw [hcount,List.length_take_of_le hle]
  | consumeUnseen hfill hn hconsume =>
    obtain ⟨b,r,hfill',hle,-,-,hhasher,hcount⟩ := consume_eq_ok.mp hconsume
    rw [(fillBuf_eq_ok.mp hfill).1] at hfill'
    cases hfill'
    refine hd.update hhasher ?_
    rw [hcount,List.length_take_of_le hle]

/-- The calls of a reader that hashes are calls of the reader below it. -/
theorem kept_below {K : R → Bytes → Prop} (hK : Kept K) (pre : Bytes) :
    Kept fun (h : HashReader D R) d => K h.reader (pre++d) := by
  intro x y hsees hstep hx
  obtain ⟨h,v⟩ := x
  have hsees' : Sees (h.reader,v.after pre) := hsees
  cases hstep with
  | read hread =>
    have hy := hK _ _ hsees' (.read (read_eq_ok.mp hread).1) hx
    rwa [View.after,List.append_assoc] at hy
  | readFails hread => exact hK _ _ hsees' (.readFails (read_eq_io hread).1) hx
  | fill hfill => exact hK _ _ hsees' (.fill (fillBuf_eq_ok.mp hfill).1) hx
  | fillFails hfill => exact hK _ _ hsees' (.fillFails (fillBuf_eq_io.mp hfill).1) hx
  | consume hn hconsume =>
    obtain ⟨b,r,hfill,hle,-,hconsume,-,-⟩ := consume_eq_ok.mp hconsume
    have hy := hK.fillConsume hsees' hfill hle hconsume hx
    rwa [View.after,List.append_assoc,taken_of_consume hsees hn hfill] at hy
  | consumeUnseen hfill hn hconsume =>
    obtain ⟨b,r,hfill',hle,-,hconsume,-,-⟩ := consume_eq_ok.mp hconsume
    rw [(fillBuf_eq_ok.mp hfill).1] at hfill'
    cases hfill'
    have hy := hK.fillConsume hsees' (fillBuf_eq_ok.mp hfill).1 hle hconsume hx
    rwa [View.after,List.append_assoc] at hy

end HashReader

/-! ### Any order of calls -/

/-- Calls in any order. At any point a hashing reader may be put around the reader, be used, and be taken off. -/
inductive Session : ∀ {σ : Type} [BufRead Byte σ], σ × View Byte → σ × View Byte → Prop
  | refl {σ : Type} [BufRead Byte σ] (x : σ × View Byte) : Session x x
  | call {σ : Type} [BufRead Byte σ] {x y z : σ × View Byte} (h : Session x y) (hstep : Step y z) : Session x z
  | nested {σ D : Type} [BufRead Byte σ] [Digest D] {x : σ × View Byte} {s : σ} {v v' : View Byte} {outer : HashReader D σ}
      (h : Session x (s,v)) (hinner : Session ((HashReader.new s : HashReader D σ),v.restart) (outer,v')) :
      Session x (outer.intoInner,v'.after v.delivered)

/-- What every call keeps is kept, also by the calls that readers around the reader make. -/
theorem Session.kept {σ : Type} [BufRead Byte σ] {x y : σ × View Byte} (h : Session x y) : ∀ [LawfulBufRead Byte σ], Sees x →
    Sees y ∧ ∀ K : σ → Bytes → Prop, Kept K → K x.1 x.2.delivered → K y.1 y.2.delivered := by
  induction h with
  | refl x => exact fun hsees => ⟨hsees,fun K _ hx => hx⟩
  | call h hstep ih =>
    intro _ hsees
    obtain ⟨hy,hkept⟩ := ih hsees
    exact ⟨hstep.sees hy,fun K hK hx => hK _ _ hy hstep (hkept K hK hx)⟩
  | @nested σ D _ _ x s v v' outer h hinner ih ihinner =>
    intro _ hsees
    obtain ⟨hs,hkept⟩ := ih hsees
    have hnew : Sees ((HashReader.new s : HashReader D σ),v.restart) := hs
    obtain ⟨houter,hkept'⟩ := ihinner hnew
    refine ⟨houter,fun K hK hx => ?_⟩
    have hstart : K s (v.delivered++[]) := by
      rw [List.append_nil]
      exact hkept K hK hx
    exact hkept' _ (HashReader.kept_below hK v.delivered) hstart

theorem Session.sees_start {σ : Type} [BufRead Byte σ] {s s' : σ} {v : View Byte} (h : Session (s,.start) (s',v))
    [LawfulBufRead Byte σ] : Sees (s',v) := (h.kept List.nil_prefix).1

namespace HashReader
variable {D R : Type} [Digest D] [BufRead Byte R] [LawfulBufRead Byte R]

/-- After any calls the hashing reader was given what was delivered since it was made. -/
theorem hashed_session {r : R} {h : HashReader D R} {v v' : View Byte} (hsees : Sees (r,v))
    (hrun : Session ((new r : HashReader D R),v.restart) (h,v')) : Hashed h v'.delivered :=
  (hrun.kept hsees).2 Hashed kept_hashed (hashed_new r)

/-- The digest and the count are those of the text. -/
structure Exact (h : HashReader D R) (text : Bytes) : Prop where
  digest : Digest.finalize h.hasher = Digest.digest D text
  count : h.bytesHashed = text.length

omit [BufRead Byte R] [LawfulBufRead Byte R] in
theorem Hashed.exact [LawfulDigest D] {h : HashReader D R} {text : Bytes} (hd : Hashed h text) : h.Exact text := by
  obtain ⟨⟨chunks,hchunks,rfl⟩,hcount⟩ := hd
  refine ⟨?_,hcount⟩
  rw [hchunks]
  exact LawfulDigest.finalize_foldl chunks

end HashReader

/-! ### The reader of a file -/

/-- The file is in memory, so that no offset in it overflows. -/
structure FileBufferReader where
  buffer : Bytes
  offset : ℕ
  bufSize : ℕ

namespace FileBufferReader

def DEFAULT_BUF_SIZE : ℕ := 8*1024

def new (content : Bytes) : FileBufferReader := ⟨content,0,DEFAULT_BUF_SIZE⟩

def asPartialSlice : EStateM ReadError FileBufferReader Bytes := fun s =>
  let upper := min (s.offset+s.bufSize) s.buffer.length
  if s.offset ≤ upper then .ok ((s.buffer.take upper).drop s.offset) s
  else .error (.panic ("slice index starts at "++toString s.offset++" but ends at "++toString upper)) s

def fillBuf : EStateM ReadError FileBufferReader Bytes := asPartialSlice

def consume (amt : ℕ) : EStateM ReadError FileBufferReader Unit := modify fun s => { s with offset := s.offset+amt }

def read (n : ℕ) : EStateM ReadError FileBufferReader Bytes := do
  let slice ← asPartialSlice
  let bytes := slice.take n
  consume bytes.length
  pure bytes

instance : BufRead Byte FileBufferReader where
  read := read
  fillBuf := fillBuf
  consume := consume

/-- The next bytes of the file, as many as fit into the buffer. -/
def window (s : FileBufferReader) : Bytes := (s.buffer.drop s.offset).take s.bufSize

variable {s s' : FileBufferReader} {n : ℕ} {b : Bytes}

theorem asPartialSlice_eq : asPartialSlice s = if s.offset ≤ min (s.offset+s.bufSize) s.buffer.length then .ok s.window s
    else .error (.panic ("slice index starts at "++toString s.offset++" but ends at "++
      toString (min (s.offset+s.bufSize) s.buffer.length))) s := by
  have hwindow : (s.buffer.take (min (s.offset+s.bufSize) s.buffer.length)).drop s.offset = s.window := by
    rw [window,List.drop_take,List.take_eq_take_iff,List.length_drop]
    omega
  rw [asPartialSlice,hwindow]

theorem fillBuf_eq_ok : BufRead.fillBuf s = .ok b s' ↔
    s.offset ≤ min (s.offset+s.bufSize) s.buffer.length ∧ b = s.window ∧ s' = s := by
  change asPartialSlice s = _ ↔ _
  rw [asPartialSlice_eq]
  split
  · rename_i hle
    rw [EStateM.Result.ok.injEq,and_iff_right hle,eq_comm,@eq_comm _ s]
  · rename_i hle
    exact iff_of_false nofun fun h => hle h.1

theorem consume_eq_ok : BufRead.consume n s = .ok () s' ↔ s' = { s with offset := s.offset+n } := by
  change EStateM.Result.ok _ _ = _ ↔ _
  rw [EStateM.Result.ok.injEq,and_iff_right rfl,eq_comm]

theorem read_eq_ok (h : BufRead.read n s = .ok b s') : b = s.window.take n ∧ s' = { s with offset := s.offset+b.length } := by
  obtain ⟨slice,t,hslice,hrest⟩ := bind_ok.mp h
  obtain ⟨-,rfl,rfl⟩ := fillBuf_eq_ok.mp hslice
  obtain ⟨_,t',hconsume,hpure⟩ := bind_ok.mp hrest
  cases hpure
  exact ⟨rfl,consume_eq_ok.mp hconsume⟩

theorem fillBuf_ne_io {e : String} : BufRead.fillBuf s ≠ .error (.io e) s' := by
  change asPartialSlice s ≠ _
  rw [asPartialSlice_eq]
  split <;> simp

theorem read_ne_io {e : String} : BufRead.read n s ≠ .error (.io e) s' := by
  intro h
  rcases bind_error.mp h with hslice | ⟨slice,t,-,hrest⟩
  · exact fillBuf_ne_io hslice
  · cases hrest

/-- After some bytes of the window the rest of it comes first. -/
theorem drop_window (n : ℕ) : s.window.drop n <+: window { s with offset := s.offset+n } := by
  rw [window,window,List.drop_take,List.drop_drop]
  exact List.take_prefix_take_left (Nat.sub_le _ _)

instance : LawfulBufRead Byte FileBufferReader where
  unread := window
  fill h := by
    obtain ⟨-,rfl,rfl⟩ := fillBuf_eq_ok.mp h
    exact List.prefix_refl _
  refill := by
    intro s hne
    refine ⟨s.window,s,fillBuf_eq_ok.mpr ⟨?_,rfl,rfl⟩,List.prefix_refl _⟩
    have hpos := List.length_pos_iff.mpr hne
    rw [window,List.length_take,List.length_drop] at hpos
    omega
  read_ok h := by
    obtain ⟨rfl,rfl⟩ := read_eq_ok h
    exact .inr ⟨List.take_prefix _ _,drop_window _⟩
  read_io h := absurd h read_ne_io
  consume_ok := by
    intro s s' n _ _ h
    rw [consume_eq_ok.mp h]
    exact drop_window n

/-- The reader stands behind what it has delivered. -/
theorem kept_position (content : Bytes) : Kept fun (s : FileBufferReader) d =>
    s.buffer = content ∧ s.offset = d.length ∧ d <+: content := by
  -- the next bytes of the window come next in the file
  have hnext {s : FileBufferReader} {d b : Bytes} (hd : s.buffer = content ∧ s.offset = d.length ∧ d <+: content)
      (hb : b <+: s.window) : d++b <+: content := by
    obtain ⟨rfl,hoffset,rest,hrest⟩ := hd
    rw [window,hoffset,← hrest,List.drop_left] at hb
    rw [← hrest]
    exact (List.prefix_append_right_inj d).mpr (hb.trans (List.take_prefix _ _))
  intro x y hsees hstep hx
  cases hstep with
  | read hread =>
    obtain ⟨rfl,rfl⟩ := read_eq_ok hread
    exact ⟨hx.1,by rw [List.length_append,← hx.2.1],hnext hx (List.take_prefix _ _)⟩
  | readFails hread => exact absurd hread read_ne_io
  | fill hfill =>
    obtain ⟨-,-,rfl⟩ := fillBuf_eq_ok.mp hfill
    exact hx
  | fillFails hfill => exact absurd hfill fillBuf_ne_io
  | @consume s s' v n hn hconsume =>
    obtain rfl := consume_eq_ok.mp hconsume
    refine ⟨hx.1,?_,hnext hx ((List.take_prefix n _).trans hsees)⟩
    rw [List.length_append,List.length_take_of_le hn,← hx.2.1]
  | @consumeUnseen s s' t v n b hfill hn hconsume =>
    obtain rfl := consume_eq_ok.mp hconsume
    obtain ⟨-,rfl,-⟩ := fillBuf_eq_ok.mp hfill
    refine ⟨hx.1,?_,hnext hx (List.take_prefix n _)⟩
    rw [List.length_append,List.length_take_of_le hn,← hx.2.1]

end FileBufferReader

/-- The count of a hashing reader is its position in the file. -/
theorem HashReader.position {D : Type} [Digest D] {content : Bytes} {h : HashReader D FileBufferReader} {v : View Byte}
    (hrun : Session ((HashReader.new (.new content) : HashReader D FileBufferReader),.start) (h,v)) :
    v.delivered = content.take h.bytesHashed ∧ h.reader.offset = h.bytesHashed := by
  have hkept := (hrun.kept List.nil_prefix).2
  obtain ⟨-,hcount⟩ := hkept Hashed kept_hashed (hashed_new _)
  obtain ⟨-,hoffset,hdelivered⟩ := hkept _ (kept_below (FileBufferReader.kept_position content) []) ⟨rfl,rfl,List.nil_prefix⟩
  rw [hcount]
  exact ⟨List.prefix_iff_eq_take.mp hdelivered,hoffset⟩

/-! ### The checksum of an object (`pack.rs`) -/

structure PackfileReader (R : Type) where
  reader : R
  objectc : UInt32

namespace HashReader
variable {C R : Type} [Digest C]

/-- `finalize_crc`: four bytes, the highest first. -/
def finalizeCrc : EStateM ReadError (HashReader C R) UInt32 := do
  let out ← finalizeReset
  pure (UInt32.ofNat (ofBigEndian out))

end HashReader

namespace PackfileReader
variable {C R α : Type} [Digest C]

/-- The closure is given the reader with a hashing reader around it. -/
def withCrc32 (f : EStateM ReadError (PackfileReader (HashReader C R)) α) : EStateM ReadError (PackfileReader R) (UInt32 × α) :=
  fun this =>
    match f ⟨HashReader.new this.reader,this.objectc⟩ with
    | .ok a t =>
      match HashReader.finalizeCrc t.reader with
      | .ok crc h => .ok (crc,a) { this with reader := h.intoInner }
      | .error e h => .error e { this with reader := h.intoInner }
    -- after a panic of the closure the process is aborted
    | .error e t => .error e { this with reader := t.reader.intoInner }

/-- The checksum is that of what was delivered to the closure, and the reader below has delivered the same. -/
theorem withCrc32_exact [LawfulDigest C] [BufRead Byte R] [LawfulBufRead Byte R]
    {f : EStateM ReadError (PackfileReader (HashReader C R)) α} {this : PackfileReader R} {v v' : View Byte} {a : α}
    {t : PackfileReader (HashReader C R)} (hsees : Sees (this.reader,v)) (hrun : f ⟨HashReader.new this.reader,this.objectc⟩ = .ok a t)
    (hcalls : Session ((HashReader.new this.reader : HashReader C R),v.restart) (t.reader,v')) :
    withCrc32 f this =
      .ok (UInt32.ofNat (ofBigEndian (Digest.digest C v'.delivered)),a) { this with reader := t.reader.intoInner } ∧
    Session (this.reader,v) (t.reader.intoInner,v'.after v.delivered) := by
  have hdigest := (HashReader.hashed_session hsees hcalls).exact.digest
  refine ⟨?_,.nested (.refl _) hcalls⟩
  rw [← hdigest,withCrc32,hrun]
  rfl

end PackfileReader

/-! ### Each digest is that of what was delivered -/

/-- CRC-32, as `crc32fast` has it. -/
structure Crc32 where
  crc : UInt32

namespace Crc32

def shift (crc : UInt32) : UInt32 := if crc &&& 1 = 1 then (crc >>> 1) ^^^ 0xEDB88320 else crc >>> 1

def step (crc : UInt32) (b : Byte) : UInt32 := shift^[8] (crc ^^^ UInt32.ofNat b.val)

instance : Digest Crc32 where
  new := ⟨0xFFFFFFFF⟩
  update bytes d := ⟨bytes.foldl step d.crc⟩
  finalize d := bigEndian 4 (d.crc ^^^ 0xFFFFFFFF).toNat

instance : LawfulDigest Crc32 where
  finalize_foldl chunks := by
    have hcrc (d : Crc32) : chunks.foldl (fun d b => Digest.update b d) d = Digest.update chunks.flatten d := by
      induction chunks generalizing d with
      | nil => rfl
      | cons b chunks ih =>
        rw [List.foldl_cons,ih,List.flatten_cons]
        exact congrArg Crc32.mk List.foldl_append.symm
    rw [hcrc]

example : Digest.digest Crc32 [0x31,0x32,0x33,0x34,0x35,0x36,0x37,0x38,0x39] = [0xCB,0xF4,0x39,0x26] := by decide +kernel

end Crc32

namespace HashReader
variable {D R : Type} [Digest D] [BufRead Byte R] [LawfulBufRead Byte R]

/-- A reader is used in any way, then through a hashing reader in any way, and then through another one around that. -/
theorem exact_session [LawfulDigest D] {r₀ r : R} {v₀ v : View Byte} {h : HashReader D R} (hbefore : Session (r₀,.start) (r,v₀))
    (hrun : Session ((new r : HashReader D R),v₀.restart) (h,v)) :
    h.Exact v.delivered ∧ ∀ (D' : Type) [Digest D'] [LawfulDigest D'] (outer : HashReader D' (HashReader D R)) (v' : View Byte),
      Session ((new h : HashReader D' (HashReader D R)),v.restart) (outer,v') →
        outer.Exact v'.delivered ∧ outer.intoInner.Exact (v.delivered++v'.delivered) := by
  have hsees : Sees ((new r : HashReader D R),v₀.restart) := hbefore.sees_start
  refine ⟨(hashed_session hbefore.sees_start hrun).exact,fun D' _ _ outer v' houter => ⟨?_,?_⟩⟩
  · exact (hashed_session (hrun.kept hsees).1 houter).exact
  · exact (hashed_session hbefore.sees_start (hrun.nested houter)).exact

/-- Two bytes of a file were consumed. -/
def innerSample : HashReader Crc32 FileBufferReader := ⟨Digest.update [1,2] Digest.new,⟨[1,2,3,4],2,8192⟩,2⟩

/-- One more byte was read through an outer reader. -/
def outerSample : HashReader Crc32 (HashReader Crc32 FileBufferReader) :=
  ⟨Digest.update [3] Digest.new,⟨Digest.update [3] innerSample.hasher,⟨[1,2,3,4],3,8192⟩,3⟩,1⟩

theorem exact_session_file : innerSample.Exact [1,2] ∧ outerSample.Exact [3] ∧ outerSample.intoInner.Exact [1,2,3] := by
  have hinner : Session ((new (.new [1,2,3,4]) : HashReader Crc32 FileBufferReader),View.start.restart) (innerSample,⟨[3,4],[1,2]⟩) :=
    ((Session.refl _).call (.fill (b := [1,2,3,4]) rfl)).call (.consume (n := 2) (by decide) rfl)
  have houter : Session ((new innerSample : HashReader Crc32 (HashReader Crc32 FileBufferReader)),⟨[3,4],[]⟩) (outerSample,⟨[4],[3]⟩) :=
    (Session.refl _).call (.read (n := 1) (b := [3]) rfl)
  have hexact := exact_session (.refl _) hinner
  exact ⟨hexact.1,hexact.2 Crc32 outerSample ⟨[4],[3]⟩ houter⟩

end HashReader
end Libbit
