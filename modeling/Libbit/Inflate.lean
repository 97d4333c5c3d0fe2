import Libbit.DeltaUntrusted

/-! The loop of `PackfileReader::inflate` (`pack.rs`). The reader gives its bytes in chunks of any size. What
inflates them is a parameter, and so is what it takes the bytes of a reader for. -/
namespace Libbit
namespace Packfile

open Lib

/-- What each read that is to come gives. -/
structure BufReader where
  chunks : List Bytes
  ne_nil : ∀ c ∈ chunks, c ≠ []

namespace BufReader

def contents (r : BufReader) : Bytes := r.chunks.flatten

def fillBuf (r : BufReader) : Bytes := r.chunks.headD []

/-- What follows the first chunk. -/
def ahead (r : BufReader) : Bytes := r.chunks.tail.flatten

def consume (r : BufReader) (n : ℕ) : BufReader where
  chunks := if r.fillBuf.drop n = [] then r.chunks.tail else r.fillBuf.drop n::r.chunks.tail
  ne_nil := by
    split
    · exact fun c hc => r.ne_nil c (List.mem_of_mem_tail hc)
    · rename_i hne
      exact List.forall_mem_cons.mpr ⟨hne,fun c hc => r.ne_nil c (List.mem_of_mem_tail hc)⟩

theorem contents_eq (r : BufReader) : r.contents = r.fillBuf++r.ahead := by
  obtain ⟨chunks,hne⟩ := r
  cases chunks <;> rfl

theorem contents_consume (r : BufReader) (n : ℕ) : (r.consume n).contents = r.fillBuf.drop n++r.ahead := by
  unfold contents consume ahead
  simp only
  split
  · rename_i h
    rw [h,List.nil_append]
  · rw [List.flatten_cons]

/-- No chunk is empty, so the reader is at its end. -/
theorem contents_of_fillBuf (r : BufReader) (h : r.fillBuf = []) : r.contents = [] := by
  obtain ⟨chunks,hne⟩ := r
  cases chunks with
  | nil => rfl
  | cons c cs => exact absurd h (hne c List.mem_cons_self)

end BufReader

/-! ### The loop -/

inductive Status
  | Ok | BufError | StreamEnd
  deriving DecidableEq, Repr

inductive FlushDecompress
  | None | Finish
  deriving DecidableEq, Repr

/-- What `decompress_vec` did. -/
structure Inflated (δ : Type) where
  status : Status
  /-- By how much `total_in` is larger. -/
  consumed : ℕ
  /-- What the output is longer by. -/
  produced : Bytes
  next : δ

/-- The room is how much longer the output may get. -/
structure Decompress (δ : Type) where
  new : δ
  decompressVec : δ → Bytes → ℕ → FlushDecompress → Except String (Inflated δ)

namespace PackfileReader
variable {δ : Type} (D : Decompress δ)

/-- The loop of `inflate`. The fuel is the number of rounds. -/
def inflateFrom (capacity : ℕ) : ℕ → δ → BufReader → Bytes → Except IndexFile.Error (Bytes × BufReader)
  | 0, _, _, _ => .error .outOfFuel
  | fuel+1, decompressor, reader, output =>
    let input := reader.fillBuf
    let flush := if input = [] then FlushDecompress.Finish else FlushDecompress.None
    match D.decompressVec decompressor input (capacity-output.length) flush with
    | .error e => .error (.bail e)
    | .ok i =>
      let reader := reader.consume i.consumed
      let output := output++i.produced
      match i.status with
      | .StreamEnd => .ok (output,reader)
      | _ => inflateFrom capacity fuel i.next reader output

def inflate (fuel size : ℕ) (reader : BufReader) : Except IndexFile.Error (Bytes × BufReader) := do
  ensure (.panic "capacity overflow") (size < 2^63)
  let (output,reader) ← inflateFrom D size fuel D.new reader []
  ensure (.panic "assertion failed: output.len() as u64 == size") (output.length = size)
  pure (output,reader)

end PackfileReader

/-! ### What there is to inflate -/

/-- A whole stream and what follows it, a stream that goes on past the end, or one with an error in it, each with
the data up to there. -/
inductive Content
  | ends (data rest : Bytes)
  | short (data : Bytes)
  | corrupt (data : Bytes) (e : String)
  deriving DecidableEq, Repr

namespace Content

def data : Content → Bytes
  | .ends data _ => data
  | .short data => data
  | .corrupt data _ => data

/-- More data comes first. -/
def after (produced : Bytes) : Content → Content
  | .ends data rest => .ends (produced++data) rest
  | .short data => .short (produced++data)
  | .corrupt data e => .corrupt (produced++data) e

@[simp] theorem data_after (produced : Bytes) (c : Content) : (c.after produced).data = produced++c.data := by
  cases c <;> rfl

@[simp] theorem after_nil (c : Content) : c.after [] = c := by cases c <;> rfl

theorem after_after (a b : Bytes) (c : Content) : (c.after b).after a = c.after (a++b) := by
  cases c <;> simp [after]

theorem after_eq_ends {produced data rest : Bytes} {c : Content} (h : c.after produced = .ends data rest) :
    ∃ data', data = produced++data' ∧ c = .ends data' rest := by
  cases c <;> cases h
  exact ⟨_,rfl,rfl⟩

theorem after_eq_corrupt {produced data : Bytes} {e : String} {c : Content} (h : c.after produced = .corrupt data e) :
    ∃ data', data = produced++data' ∧ c = .corrupt data' e := by
  cases c <;> cases h
  exact ⟨_,rfl,rfl⟩

theorem after_eq_short {produced data : Bytes} {c : Content} (h : c.after produced = .short data) :
    ∃ data', data = produced++data' ∧ c = .short data' := by
  cases c <;> cases h
  exact ⟨_,rfl,rfl⟩

end Content

/-- What the code relies on: `content` says what the bytes that are still to come are for a decompressor in some
state, and a call tells nothing else. -/
structure Lawful {δ : Type} (D : Decompress δ) (content : δ → Bytes → Content) : Prop where
  /-- An error is one of the stream, with room for all that comes before it. -/
  error : ∀ {d input room flush e}, D.decompressVec d input room flush = .error e →
    ∀ rest, ∃ data e', content d (input++rest) = .corrupt data e' ∧ data.length ≤ room
  /-- The output stays within its capacity. -/
  room : ∀ {d input room flush i}, D.decompressVec d input room flush = .ok i → i.produced.length ≤ room
  consumed : ∀ {d input room flush i}, D.decompressVec d input room flush = .ok i → i.consumed ≤ input.length
  /-- What is produced is the data of what is consumed. -/
  step : ∀ {d input room flush i}, D.decompressVec d input room flush = .ok i →
    ∀ rest, content d (input++rest) = (content i.next (input.drop i.consumed++rest)).after i.produced
  /-- The end of the stream is reported there. -/
  ends : ∀ {d input room flush i}, D.decompressVec d input room flush = .ok i → i.status = .StreamEnd →
    ∀ rest, content i.next rest = .ends [] rest
  /-- There is no progress only if the input is exhausted or the output is full, before the end of the stream. -/
  progress : ∀ {d input room flush i}, D.decompressVec d input room flush = .ok i → i.status ≠ .StreamEnd →
    i.consumed = 0 → i.produced = [] →
      (input = [] ∧ ∃ data, content d [] = .short data) ∨ room = 0 ∧ ∀ rest, (content d (input++rest)).data ≠ []

namespace Lawful
variable {δ : Type} {D : Decompress δ} {content : δ → Bytes → Content} {d : δ} {reader : BufReader} {output data rest : Bytes}
  {capacity : ℕ} {i : Inflated δ}

/-- What is to come after a call. -/
theorem content_step (h : Lawful D content) {room : ℕ} (hi : D.decompressVec d reader.fillBuf room flush = .ok i) :
    content d reader.contents = (content i.next (reader.consume i.consumed).contents).after i.produced := by
  rw [reader.contents_eq,reader.contents_consume]
  exact h.step hi reader.ahead

/-- A round that goes on makes progress, unless the stream is short or its data has no room. -/
theorem measure_lt (h : Lawful D content) {room : ℕ} (hi : D.decompressVec d reader.fillBuf room flush = .ok i)
    (hstatus : i.status ≠ .StreamEnd) (hshort : ∀ data, content d reader.contents ≠ .short data)
    (hroom : (content d reader.contents).data.length ≤ room) :
    (reader.consume i.consumed).contents.length+(room-i.produced.length) < reader.contents.length+room := by
  have hconsumed := h.consumed hi
  have hproduced := h.room hi
  have hprogress : 0 < i.consumed+i.produced.length := by
    by_contra hnone
    rcases h.progress hi hstatus (by omega) (List.eq_nil_of_length_eq_zero (by omega)) with ⟨hinput,data,hdata⟩ | ⟨rfl,hdata⟩
    · rw [← reader.contents_of_fillBuf hinput] at hdata
      exact hshort data hdata
    · have hne := hdata reader.ahead
      rw [← reader.contents_eq] at hne
      exact hne (List.eq_nil_of_length_eq_zero (Nat.le_zero.mp hroom))
  rw [reader.contents_eq,reader.contents_consume,List.length_append,List.length_append,List.length_drop]
  omega

/-- A round of the loop that goes on. -/
theorem inflateFrom_next (hi : D.decompressVec d reader.fillBuf (capacity-output.length)
      (if reader.fillBuf = [] then .Finish else .None) = .ok i) (hstatus : i.status ≠ .StreamEnd) (fuel : ℕ) :
    PackfileReader.inflateFrom D capacity (fuel+1) d reader output =
      PackfileReader.inflateFrom D capacity fuel i.next (reader.consume i.consumed) (output++i.produced) := by
  simp only [PackfileReader.inflateFrom,hi]

theorem inflateFrom_end (hi : D.decompressVec d reader.fillBuf (capacity-output.length)
      (if reader.fillBuf = [] then .Finish else .None) = .ok i) (hstatus : i.status = .StreamEnd) (fuel : ℕ) :
    PackfileReader.inflateFrom D capacity (fuel+1) d reader output =
      .ok (output++i.produced,reader.consume i.consumed) := by
  simp only [PackfileReader.inflateFrom,hi,hstatus]

theorem inflateFrom_error {e : String} (hi : D.decompressVec d reader.fillBuf (capacity-output.length)
      (if reader.fillBuf = [] then .Finish else .None) = .error e) (fuel : ℕ) :
    PackfileReader.inflateFrom D capacity (fuel+1) d reader output = .error (.bail e) := by
  simp only [PackfileReader.inflateFrom,hi]

/-- A whole stream that fits is inflated, as soon as there are rounds enough. -/
theorem inflateFrom_ends (h : Lawful D content) (hcontent : content d reader.contents = .ends data rest)
    (hroom : data.length ≤ capacity-output.length) (fuel : ℕ) :
    (PackfileReader.inflateFrom D capacity fuel d reader output = .error .outOfFuel ∧
      fuel ≤ reader.contents.length+(capacity-output.length)) ∨
      ∃ reader', reader'.contents = rest ∧ PackfileReader.inflateFrom D capacity fuel d reader output =
        .ok (output++data,reader') := by
  induction fuel generalizing d reader output data with
  | zero => exact .inl ⟨rfl,Nat.zero_le _⟩
  | succ fuel ih =>
    cases hi : D.decompressVec d reader.fillBuf (capacity-output.length)
        (if reader.fillBuf = [] then .Finish else .None) with
    | error e =>
      obtain ⟨data',e',hcorrupt,-⟩ := h.error hi reader.ahead
      rw [← reader.contents_eq,hcontent] at hcorrupt
      cases hcorrupt
    | ok i =>
      obtain ⟨data',rfl,hnext⟩ := Content.after_eq_ends ((h.content_step hi).symm.trans hcontent)
      by_cases hstatus : i.status = .StreamEnd
      · rw [inflateFrom_end hi hstatus]
        rw [h.ends hi hstatus] at hnext
        cases hnext
        exact .inr ⟨_,rfl,by rw [List.append_nil]⟩
      · have hlt := h.measure_lt hi hstatus (by simp [hcontent]) (by rw [hcontent]; exact hroom)
        rw [List.length_append] at hroom
        have hsub : capacity-(output++i.produced).length = capacity-output.length-i.produced.length := by
          rw [List.length_append,Nat.sub_add_eq]
        have hrest := ih hnext (by rw [hsub]; omega)
        rw [inflateFrom_next hi hstatus]
        rw [hsub,List.append_assoc] at hrest
        rcases hrest with ⟨hfuel,hle⟩ | hdone
        · exact .inl ⟨hfuel,by omega⟩
        · exact .inr hdone

/-- An error that comes before the output is full is returned. -/
theorem inflateFrom_corrupt (h : Lawful D content) {e : String} (hcontent : content d reader.contents = .corrupt data e)
    (hroom : data.length ≤ capacity-output.length) (fuel : ℕ) :
    (PackfileReader.inflateFrom D capacity fuel d reader output = .error .outOfFuel ∧
      fuel ≤ reader.contents.length+(capacity-output.length)) ∨
      ∃ e', PackfileReader.inflateFrom D capacity fuel d reader output = .error (.bail e') := by
  induction fuel generalizing d reader output data with
  | zero => exact .inl ⟨rfl,Nat.zero_le _⟩
  | succ fuel ih =>
    cases hi : D.decompressVec d reader.fillBuf (capacity-output.length)
        (if reader.fillBuf = [] then .Finish else .None) with
    | error e' => exact .inr ⟨e',inflateFrom_error hi fuel⟩
    | ok i =>
      obtain ⟨data',rfl,hnext⟩ := Content.after_eq_corrupt ((h.content_step hi).symm.trans hcontent)
      by_cases hstatus : i.status = .StreamEnd
      · rw [h.ends hi hstatus] at hnext
        cases hnext
      · have hlt := h.measure_lt hi hstatus (by simp [hcontent]) (by rw [hcontent]; exact hroom)
        rw [List.length_append] at hroom
        have hsub : capacity-(output++i.produced).length = capacity-output.length-i.produced.length := by
          rw [List.length_append,Nat.sub_add_eq]
        have hrest := ih hnext (by rw [hsub]; omega)
        rw [inflateFrom_next hi hstatus]
        rw [hsub] at hrest
        rcases hrest with ⟨hfuel,hle⟩ | hdone
        · exact .inl ⟨hfuel,by omega⟩
        · exact .inr hdone

/-- The stream never comes to its end. -/
def Spins (c : Content) (room : ℕ) : Prop := (∃ data, c = .short data) ∨ room < c.data.length

theorem inflateFrom_spins (h : Lawful D content) (hspins : Spins (content d reader.contents) (capacity-output.length))
    (fuel : ℕ) : PackfileReader.inflateFrom D capacity fuel d reader output = .error .outOfFuel := by
  induction fuel generalizing d reader output with
  | zero => rfl
  | succ fuel ih =>
    cases hi : D.decompressVec d reader.fillBuf (capacity-output.length)
        (if reader.fillBuf = [] then .Finish else .None) with
    | error e =>
      obtain ⟨data,e',hcorrupt,hle⟩ := h.error hi reader.ahead
      rw [← reader.contents_eq] at hcorrupt
      rw [hcorrupt] at hspins
      rcases hspins with ⟨data',hshort⟩ | hlt
      · cases hshort
      · exact absurd hlt (not_lt.mpr hle)
    | ok i =>
      have hstep := h.content_step hi
      have hproduced := h.room hi
      have hnext : Spins (content i.next (reader.consume i.consumed).contents) (capacity-(output++i.produced).length) := by
        rcases hspins with ⟨data,hshort⟩ | hlt
        · obtain ⟨data',-,hshort'⟩ := Content.after_eq_short (hstep.symm.trans hshort)
          exact .inl ⟨data',hshort'⟩
        · rw [hstep,Content.data_after,List.length_append] at hlt
          exact .inr (by rw [List.length_append]; omega)
      by_cases hstatus : i.status = .StreamEnd
      · rw [h.ends hi hstatus] at hnext
        rcases hnext with ⟨data,hshort⟩ | hlt
        · cases hshort
        · exact absurd hlt (Nat.not_lt_zero _)
      · rw [inflateFrom_next hi hstatus]
        exact ih hnext

end Lawful

/-! ### The outcome -/

/-- The loop ends, with as many bytes as are asked for or with an error that is returned. -/
def Stops {δ : Type} (D : Decompress δ) (size : ℕ) (reader : BufReader) : Prop :=
  ∃ fuel, match PackfileReader.inflate D fuel size reader with
    | .ok (output,_) => output.length = size
    | .error e => Returned e

/-- The declared size is that of the stream, or an error comes before there is more data than that. -/
def Content.Fits (size : ℕ) : Content → Prop
  | .ends data _ => data.length = size
  | .short _ => False
  | .corrupt data _ => data.length ≤ size

instance (size : ℕ) (c : Content) : Decidable (c.Fits size) :=
  match c with
  | .ends data _ => inferInstanceAs (Decidable (data.length = size))
  | .short _ => inferInstanceAs (Decidable False)
  | .corrupt data _ => inferInstanceAs (Decidable (data.length ≤ size))

section Inflate
variable {δ : Type} {D : Decompress δ} {content : δ → Bytes → Content} {reader : BufReader} {data rest : Bytes} {size : ℕ}

/-- The check that follows the loop. -/
def checked (size : ℕ) (x : Bytes × BufReader) : Except IndexFile.Error (Bytes × BufReader) := do
  ensure (.panic "assertion failed: output.len() as u64 == size") (x.1.length = size)
  pure x

theorem inflate_eq (hsize : size < 2^63) (fuel : ℕ) : PackfileReader.inflate D fuel size reader =
    PackfileReader.inflateFrom D size fuel D.new reader [] >>= checked size := by
  rw [PackfileReader.inflate,ensure,if_pos hsize]
  rfl

theorem inflate_overflow (hsize : ¬size < 2^63) (fuel : ℕ) :
    PackfileReader.inflate D fuel size reader = .error (.panic "capacity overflow") := by
  rw [PackfileReader.inflate,ensure,if_neg hsize]
  rfl

namespace Lawful

theorem inflate_spins (h : Lawful D content) (hsize : size < 2^63) (hspins : Spins (content D.new reader.contents) size)
    (fuel : ℕ) : PackfileReader.inflate D fuel size reader = .error .outOfFuel := by
  have hspins' : Spins (content D.new reader.contents) (size-([] : Bytes).length) := hspins
  rw [inflate_eq hsize,h.inflateFrom_spins hspins']
  rfl

theorem inflate_corrupt (h : Lawful D content) (hsize : size < 2^63) {e : String}
    (hcontent : content D.new reader.contents = .corrupt data e) (hle : data.length ≤ size) (fuel : ℕ) :
    (PackfileReader.inflate D fuel size reader = .error .outOfFuel ∧ fuel ≤ reader.contents.length+size) ∨
      ∃ e', PackfileReader.inflate D fuel size reader = .error (.bail e') := by
  have hroom : data.length ≤ size-([] : Bytes).length := hle
  rw [inflate_eq hsize]
  rcases h.inflateFrom_corrupt hcontent hroom fuel with ⟨hfuel,hbound⟩ | ⟨e',hrun⟩
  · rw [hfuel]
    exact .inl ⟨rfl,hbound⟩
  · rw [hrun]
    exact .inr ⟨e',rfl⟩

theorem inflate_ends (h : Lawful D content) (hsize : size < 2^63) (hcontent : content D.new reader.contents = .ends data rest)
    (hle : data.length ≤ size) (fuel : ℕ) :
    (PackfileReader.inflate D fuel size reader = .error .outOfFuel ∧ fuel ≤ reader.contents.length+size) ∨
      ∃ reader', reader'.contents = rest ∧ PackfileReader.inflate D fuel size reader = checked size (data,reader') := by
  have hroom : data.length ≤ size-([] : Bytes).length := hle
  rw [inflate_eq hsize]
  rcases h.inflateFrom_ends hcontent hroom fuel with ⟨hfuel,hbound⟩ | ⟨reader',hrest,hrun⟩
  · rw [hfuel]
    exact .inl ⟨rfl,hbound⟩
  · rw [hrun]
    exact .inr ⟨reader',hrest,rfl⟩

end Lawful

theorem checked_ok {x : Bytes × BufReader} (h : x.1.length = size) : checked size x = .ok x := by
  rw [checked,ensure,if_pos h]
  rfl

theorem checked_panics {x : Bytes × BufReader} (h : x.1.length ≠ size) :
    checked size x = .error (.panic "assertion failed: output.len() as u64 == size") := by
  rw [checked,ensure,if_neg h]
  rfl

/-- What the pack reader takes a stream for. -/
def zlibOf (content : Bytes → Content) : IndexFile.Parser Bytes := fun bs =>
  match content bs with
  | .ends data rest => .ok (data,rest)
  | .short _ => .error .outOfFuel
  | .corrupt _ e => .error (.bail e)

theorem run_inflate_zlibOf {f : Bytes → Content} {bs : Bytes} : (inflate (zlibOf f) size).run bs = .ok (data,rest) ↔
    size < 2^63 ∧ f bs = .ends data rest ∧ data.length = size := by
  unfold inflate IndexFile.assertThat Reader.require
  by_cases hsize : size < 2^63
  · rw [if_pos hsize,and_iff_right hsize]
    change (zlibOf f bs >>= fun x => ((if x.1.length = size then pure () else throw _ : IndexFile.Parser Unit) >>=
      fun _ => pure x.1).run x.2) = _ ↔ _
    unfold zlibOf
    cases f bs with
    | short data' => exact iff_of_false nofun nofun
    | corrupt data' e => exact iff_of_false nofun nofun
    | ends data' rest' =>
      by_cases hlen : data'.length = size
      · change (StateT.run (if data'.length = size then _ else _ : IndexFile.Parser Unit) rest' >>= _) = _ ↔ _
        rw [if_pos hlen]
        constructor
        · rintro ⟨⟩
          exact ⟨rfl,hlen⟩
        · rintro ⟨h,-⟩
          cases h
          rfl
      · change (StateT.run (if data'.length = size then _ else _ : IndexFile.Parser Unit) rest' >>= _) = _ ↔ _
        rw [if_neg hlen]
        refine iff_of_false nofun ?_
        rintro ⟨h,hlen'⟩
        cases h
        exact hlen hlen'
  · rw [if_neg hsize]
    exact iff_of_false nofun fun h => hsize h.1

/-- The loop inflates what the pack reader is said to. -/
theorem inflate_ok_iff (h : Lawful D content) (size : ℕ) (reader : BufReader) (data rest : Bytes) :
    (∃ fuel reader', PackfileReader.inflate D fuel size reader = .ok (data,reader') ∧ reader'.contents = rest) ↔
      (inflate (zlibOf (content D.new)) size).run reader.contents = .ok (data,rest) := by
  rw [run_inflate_zlibOf]
  constructor
  · rintro ⟨fuel,reader',hrun,rfl⟩
    have hsize : size < 2^63 := by
      by_contra hsize
      rw [inflate_overflow hsize] at hrun
      cases hrun
    have hspins : ¬Lawful.Spins (content D.new reader.contents) size := by
      intro hspins
      rw [h.inflate_spins hsize hspins] at hrun
      cases hrun
    obtain ⟨hshort,hle⟩ := not_or.mp hspins
    refine ⟨hsize,?_⟩
    cases hcontent : content D.new reader.contents with
    | short data' => exact absurd ⟨data',hcontent⟩ hshort
    | corrupt data' e =>
      rw [hcontent] at hle
      rcases h.inflate_corrupt hsize hcontent (not_lt.mp hle) fuel with ⟨hrun',-⟩ | ⟨e',hrun'⟩ <;> rw [hrun'] at hrun <;> cases hrun
    | ends data' rest' =>
      rw [hcontent] at hle
      rcases h.inflate_ends hsize hcontent (not_lt.mp hle) fuel with ⟨hrun',-⟩ | ⟨reader'',rfl,hrun'⟩
      · rw [hrun'] at hrun
        cases hrun
      · by_cases hlen : data'.length = size
        · rw [hrun',checked_ok hlen] at hrun
          cases hrun
          exact ⟨rfl,hlen⟩
        · rw [hrun',checked_panics hlen] at hrun
          cases hrun
  · rintro ⟨hsize,hcontent,hlen⟩
    rcases h.inflate_ends hsize hcontent hlen.le (reader.contents.length+size+1) with ⟨-,hbound⟩ | ⟨reader',hrest,hrun⟩
    · omega
    · exact ⟨_,reader',hrun.trans (checked_ok hlen),hrest⟩

end Inflate

/-! ### A decompressor that goes byte by byte -/

/-- Each byte gives a byte of the data or none. -/
structure Automaton (σ : Type) where
  start : σ
  step : σ → Byte → Except String (σ × Option Byte)
  done : σ → Bool

namespace Automaton
variable {σ : Type} (A : Automaton σ)

def feed : σ → Bytes → ℕ → Except String (Inflated σ)
  | s, [], _ => .ok ⟨if A.done s then .StreamEnd else .BufError,0,[],s⟩
  | s, b::bs, room =>
    if A.done s then .ok ⟨.StreamEnd,0,[],s⟩
    else
      match A.step s b with
      | .error e => .error e
      | .ok (s',none) => do
        let i ← feed s' bs room
        pure ⟨i.status,i.consumed+1,i.produced,i.next⟩
      | .ok (s',some o) =>
        if room = 0 then .ok ⟨.BufError,0,[],s⟩
        else do
          let i ← feed s' bs (room-1)
          pure ⟨i.status,i.consumed+1,o::i.produced,i.next⟩

def decompress : Decompress σ where
  new := A.start
  decompressVec s input room _ := A.feed s input room

def content : σ → Bytes → Content
  | s, [] => if A.done s then .ends [] [] else .short []
  | s, b::bs =>
    if A.done s then .ends [] (b::bs)
    else
      match A.step s b with
      | .error e => .corrupt [] e
      | .ok (s',o) => (content s' bs).after o.toList

variable {A} {s : σ} {input : Bytes} {room : ℕ} {i : Inflated σ}

theorem content_done (h : A.done s) (rest : Bytes) : A.content s rest = .ends [] rest := by
  cases rest <;> simp [content,h]

/-- What a call did. -/
structure Fed (A : Automaton σ) (s : σ) (input : Bytes) (room : ℕ) (i : Inflated σ) : Prop where
  produced_le : i.produced.length ≤ room
  consumed_le : i.consumed ≤ input.length
  content_eq : ∀ rest, A.content s (input++rest) = (A.content i.next (input.drop i.consumed++rest)).after i.produced
  done : i.status = .StreamEnd → A.done i.next
  progress : i.status ≠ .StreamEnd → i.consumed = 0 → i.produced = [] →
    (input = [] ∧ ∃ data, A.content s [] = .short data) ∨ room = 0 ∧ ∀ rest, (A.content s (input++rest)).data ≠ []

theorem content_step {b : Byte} {bs : Bytes} {s' : σ} {o : Option Byte} (hdone : ¬A.done s) (hstep : A.step s b = .ok (s',o)) :
    A.content s (b::bs) = (A.content s' bs).after o.toList := by
  rw [content,if_neg hdone,hstep]

theorem fed (h : A.feed s input room = .ok i) : Fed A s input room i := by
  induction input generalizing s room i with
  | nil =>
    cases h
    refine ⟨Nat.zero_le _,le_rfl,fun rest => (Content.after_nil _).symm,fun hend => ?_,fun hend _ _ => .inl ⟨rfl,[],?_⟩⟩
    · by_contra hdone
      rw [if_neg hdone] at hend
      cases hend
    · rw [content,if_neg fun hdone => hend (if_pos hdone)]
  | cons b bs ih =>
    rw [feed] at h
    split at h
    · rename_i hdone
      cases h
      exact ⟨Nat.zero_le _,Nat.zero_le _,fun rest => (Content.after_nil _).symm,fun _ => hdone,fun hend => absurd rfl hend⟩
    · rename_i hdone
      split at h
      · cases h
      · rename_i s' hstep
        obtain ⟨j,hj,h⟩ := except_bind_eq_ok.mp h
        cases h
        have hrest := ih hj
        refine ⟨hrest.produced_le,Nat.succ_le_succ hrest.consumed_le,fun rest => ?_,hrest.done,fun _ h0 => (nomatch h0)⟩
        rw [List.cons_append,content_step hdone hstep,hrest.content_eq,Content.after_after]
        rfl
      · rename_i s' o hstep
        split at h
        · rename_i hroom
          cases h
          refine ⟨Nat.zero_le _,Nat.zero_le _,fun rest => (Content.after_nil _).symm,nofun,fun _ _ _ => .inr ⟨hroom,fun rest => ?_⟩⟩
          rw [List.cons_append,content_step hdone hstep,Content.data_after]
          exact List.cons_ne_nil o _
        · rename_i hroom
          obtain ⟨j,hj,h⟩ := except_bind_eq_ok.mp h
          cases h
          have hrest := ih hj
          have hproduced := hrest.produced_le
          refine ⟨?_,Nat.succ_le_succ hrest.consumed_le,fun rest => ?_,hrest.done,fun _ h0 => (nomatch h0)⟩
          · rw [List.length_cons]
            omega
          · rw [List.cons_append,content_step hdone hstep,hrest.content_eq,Content.after_after]
            rfl

theorem feed_error {e : String} (h : A.feed s input room = .error e) (rest : Bytes) :
    ∃ data e', A.content s (input++rest) = .corrupt data e' ∧ data.length ≤ room := by
  induction input generalizing s room with
  | nil => cases h
  | cons b bs ih =>
    rw [feed] at h
    split at h
    · cases h
    · rename_i hdone
      split at h
      · rename_i e' hstep
        refine ⟨[],e',?_,Nat.zero_le _⟩
        rw [List.cons_append,content,if_neg hdone,hstep]
      · rename_i s' hstep
        rcases except_bind_eq_error.mp h with h | ⟨j,-,h⟩
        · obtain ⟨data,e',hcontent,hle⟩ := ih h
          refine ⟨data,e',?_,hle⟩
          rw [List.cons_append,content_step hdone hstep,hcontent]
          rfl
        · cases h
      · rename_i s' o hstep
        split at h
        · cases h
        · rcases except_bind_eq_error.mp h with h | ⟨j,-,h⟩
          · obtain ⟨data,e',hcontent,hle⟩ := ih h
            refine ⟨o::data,e',?_,by rw [List.length_cons]; omega⟩
            rw [List.cons_append,content_step hdone hstep,hcontent]
            rfl
          · cases h

theorem lawful (A : Automaton σ) : Lawful A.decompress A.content where
  error h := feed_error h
  room h := (fed h).produced_le
  consumed h := (fed h).consumed_le
  step h := (fed h).content_eq
  ends h hend rest := content_done ((fed h).done hend) rest
  progress h := (fed h).progress

end Automaton

/-! A stream of one block that is stored as it is. -/

def adler32 (data : Bytes) : Bytes :=
  let (a,b) := data.foldl (fun (a,b) c => ((a+c.val)%65521,(b+a+c.val)%65521)) (1,0)
  bigEndian 2 b++bigEndian 2 a

def storedLen (seen : Bytes) : ℕ := (seen.getD 3 0).val+256*(seen.getD 4 0).val

/-- The state is all that was read. -/
def storedStep (seen : Bytes) (b : Byte) : Except String (Bytes × Option Byte) :=
  let n := seen.length
  let len := storedLen seen
  if n < 3 then if b = [0x78,0x01,0x01].getD n 0 then .ok (seen++[b],none) else .error "corrupt deflate stream"
  else if n < 5 then .ok (seen++[b],none)
  else if n < 7 then
    if b.val+(seen.getD (n-2) 0).val = 255 then .ok (seen++[b],none) else .error "corrupt deflate stream"
  else if n < 7+len then .ok (seen++[b],some b)
  else if b = (adler32 ((seen.drop 7).take len)).getD (n-7-len) 0 then .ok (seen++[b],none) else .error "corrupt deflate stream"

def storedAutomaton : Automaton Bytes where
  start := []
  step := storedStep
  done seen := decide (11 ≤ seen.length ∧ seen.length = 11+storedLen seen)

/-- A blob with the byte `a`, read in two chunks. -/
def storedReader : BufReader where
  chunks := [[0x78,0x01,0x01,0x01,0x00],[0xfe,0xff,0x61,0x00,0x62,0x00,0x62,0x99]]
  ne_nil := by decide

/-- The stream is cut off within its data. -/
def truncatedReader : BufReader where
  chunks := [[0x78,0x01,0x01,0x01,0x00,0xfe,0xff]]
  ne_nil := by decide

end Packfile
end Libbit
