import Libbit.Transport
import Libbit.ProtocolSpec
import Libbit.OdbSpec

/-! What one end of a fetch makes of what the other one writes. -/
namespace Libbit
namespace Transport

open Lib Lib.Reader
open Protocol (writeMessage recvMessage recvPacket packetText Payload DONE recvMessage_decodes flush_decodes
  writeMessage_eq_ok U16_MAX)
open Refs (Text)

variable {debug : Bool}

/-! ### Messages -/

theorem Decodes.receive {α : Type} {p : IndexFile.Parser α} {bs : Bytes} {a : α} (h : Decodes p bs a) :
    Decodes (Transport.receive p) bs a := by
  intro rest
  change (p.run (bs++rest)).mapError _ = _
  rw [h.run]
  rfl

theorem answer_decodes {α : Type} {r : Except Error α} {a : α} (h : r = .ok a) : Decodes (answer r) [] a := by
  intro rest
  rw [h]
  rfl

theorem fromUtf8_encodeUtf8 (s : Text) : fromUtf8 (encodeUtf8 s) = .ok s := by rw [fromUtf8,decodeUtf8_encodeUtf8]

theorem utf8Len_toHex (oid : Oid) : utf8Len (Packfile.Oid.toHex oid) = 40 :=
  (Packfile.utf8Len_of_digits (Packfile.Oid.digits_toHex oid)).trans (Packfile.Oid.length_toHex oid)

/-- The whitespace after an oid does not count. -/
theorem parseOid_trimEnd (s t : Text) (h : trimEnd s = trimEnd t) : parseOid s = parseOid t := by
  simp only [parseOid,Packfile.Oid.fromStr,h]

/-- The error of a text that is no oid for its length. -/
def wrongLength : Error := .oid (.message "creating SHA1 with invalid hex string (incorrect length)")

theorem parseOid_wrongLength {s : Text} (h : utf8Len (trimEnd s) ≠ 40) : parseOid s = .error wrongLength := by
  rw [parseOid,Packfile.Oid.fromStr,if_pos h]
  rfl

theorem parseOid_line (oid : Oid) : parseOid (Packfile.Oid.toHex oid++['\n']) = .ok oid := by
  rw [parseOid_trimEnd _ _ (trimEnd_concat (by decide) _),parseOid,Packfile.Oid.fromStr_toHex]
  rfl

theorem parseCmdLine_eq {cmd : Text} (hcmd : ' ' ∉ cmd) (s : Text) :
    parseCmdLine cmd (encodeUtf8 (cmd++ ' '::s)) = parseOid s := by
  rw [parseCmdLine,fromUtf8_encodeUtf8]
  simp only [bind,Except.bind,splitOnce_char hcmd,ensure,if_pos]

/-! ### Haves -/

theorem haveLine_eq (oid : Oid) : haveLine oid = encodeUtf8 ("have".toList++ ' '::(Packfile.Oid.toHex oid++['\n'])) := rfl

/-- A line of an oid and a few more bytes. -/
theorem line_payload {s : Text} (h : 4 < utf8Len s) (h' : utf8Len s < 1000) :
    Payload (encodeUtf8 s) ∧ 4+(encodeUtf8 s).length < 2^16 := by
  have hlen := length_encodeUtf8 s
  refine ⟨⟨fun heq => ?_,fun heq => ?_⟩,by omega⟩ <;> rw [heq] at hlen <;> simp [DONE] at hlen <;> omega

theorem haveLine_payload (oid : Oid) : Payload (haveLine oid) ∧ 4+(haveLine oid).length < 2^16 := by
  have hlen : utf8Len ("have".toList++ ' '::(Packfile.Oid.toHex oid++['\n'])) = 46 := by
    rw [utf8Len_append,show ' '::(Packfile.Oid.toHex oid++['\n']) = [' ']++(Packfile.Oid.toHex oid++['\n']) from rfl,
      utf8Len_append,utf8Len_append,utf8Len_toHex]
    decide
  rw [haveLine_eq]
  exact line_payload (by omega) (by omega)

theorem parse_haveLine (oid : Oid) : parseCmdLine "have".toList (haveLine oid) = .ok oid := by
  rw [haveLine_eq,parseCmdLine_eq (by decide),parseOid_line]

/-- A message of lines that fit is written, and read to its end. -/
theorem message_decodes (debug : Bool) {payloads : List Bytes} (h : ∀ p ∈ payloads, Payload p ∧ 4+p.length < 2^16) :
    ∃ bytes, writeMessage debug payloads = .ok bytes ∧ Decodes recvMessage bytes payloads := by
  refine ⟨_,writeMessage_eq_ok.mpr ⟨fun p hp => ⟨?_,fun _ => (h p hp).2⟩,rfl⟩,?_⟩
  · have hlen := (h p hp).2
    rw [U16_MAX]
    omega
  · exact recvMessage_decodes h (.inl rfl) flush_decodes

/-- The server reads a batch of haves as the client sent it. -/
theorem haves_understood (debug : Bool) (batch : List Oid) :
    ∃ bytes, writeHaves debug batch = .ok bytes ∧ Decodes recvHas bytes batch := by
  have hall : ∀ p ∈ batch.map haveLine, Payload p ∧ 4+p.length < 2^16 := by
    intro p hp
    obtain ⟨oid,-,rfl⟩ := List.mem_map.mp hp
    exact haveLine_payload oid
  obtain ⟨bytes,hwrite,hread⟩ := message_decodes debug hall
  refine ⟨bytes,hwrite,?_⟩
  exact (Decodes.receive hread).bindPure (answer_decodes (mapM_map_ok fun oid _ => parse_haveLine oid))

/-! ### Batches -/

theorem nextBatch_eq (n : ℕ) (walk : List Oid) :
    nextBatch n walk = (walk.take n,if n ≤ walk.length then some (walk.drop n) else none) := by
  induction n generalizing walk with
  | zero => rfl
  | succ n ih =>
    cases walk with
    | nil => rfl
    | cons commit walk =>
      rw [nextBatch,ih]
      simp only [List.take_succ_cons,List.drop_succ_cons,List.length_cons,Nat.add_le_add_iff_right]

/-- Every commit of the walk is sent, in order, in batches of 32 and one that is shorter. -/
theorem batches_eq {fuel : ℕ} {walk : List Oid} (h : walk.length < fuel) :
    (batches fuel walk).flatten = walk ∧ ∃ full last, batches fuel walk = full++[last] ∧
      (∀ batch ∈ full, batch.length = MULTI_ACK_BATCH_SIZE) ∧ last.length < MULTI_ACK_BATCH_SIZE := by
  induction fuel generalizing walk with
  | zero => exact absurd h (Nat.not_lt_zero _)
  | succ fuel ih =>
    rw [batches,nextBatch_eq]
    by_cases hle : MULTI_ACK_BATCH_SIZE ≤ walk.length
    · have hpos : 0 < MULTI_ACK_BATCH_SIZE := by decide
      have hdrop : (walk.drop MULTI_ACK_BATCH_SIZE).length < fuel := by
        rw [List.length_drop]
        omega
      obtain ⟨hflat,full,last,heq,hfull,hlast⟩ := ih hdrop
      rw [if_pos hle]
      refine ⟨?_,walk.take MULTI_ACK_BATCH_SIZE::full,last,congrArg (_::·) heq,?_,hlast⟩
      · exact (congrArg (_++·) hflat).trans (List.take_append_drop _ walk)
      · exact List.forall_mem_cons.mpr ⟨List.length_take_of_le hle,hfull⟩
    · have htake : walk.take MULTI_ACK_BATCH_SIZE = walk := List.take_of_length_le (Nat.le_of_not_le hle)
      rw [if_neg hle,htake]
      exact ⟨List.append_nil walk,[],walk,rfl,by simp,Nat.not_le.mp hle⟩

theorem haveBatches_flatten (commits : List Oid) : (haveBatches commits).flatten = commits :=
  (batches_eq (Nat.lt_succ_self _)).1

/-! ### Wants -/

theorem firstWantLine_eq (oid : Oid) : wantLine 0 oid =
    encodeUtf8 ("want".toList++ ' '::(Packfile.Oid.toHex oid++(' '::([' '].intercalate CAPABILITIES_WANTED++['\n'])))) := rfl

theorem nextWantLine_eq {i : ℕ} (hi : i ≠ 0) (oid : Oid) :
    wantLine i oid = encodeUtf8 ("want".toList++ ' '::(Packfile.Oid.toHex oid++['\n'])) := if_neg hi

theorem wantLine_payload (i : ℕ) (oid : Oid) : Payload (wantLine i oid) ∧ 4+(wantLine i oid).length < 2^16 := by
  have hcons (s : Text) : utf8Len (' '::s) = 1+utf8Len s := utf8Len_append [' '] s
  have hwant : utf8Len "want".toList = 4 := by decide
  have hnewline : utf8Len ['\n'] = 1 := by decide
  have hcaps : utf8Len ([' '].intercalate CAPABILITIES_WANTED) = 42 := by decide
  by_cases hi : i = 0
  · subst hi
    rw [firstWantLine_eq]
    refine line_payload ?_ ?_ <;> simp only [utf8Len_append,hcons,hwant,hnewline,hcaps,utf8Len_toHex] <;> omega
  · rw [nextWantLine_eq hi]
    refine line_payload ?_ ?_ <;> simp only [utf8Len_append,hcons,hwant,hnewline,utf8Len_toHex] <;> omega

/-- A line without capabilities is read as it was sent. -/
theorem parse_nextWantLine {i : ℕ} (hi : i ≠ 0) (oid : Oid) : parseCmdLine "want".toList (wantLine i oid) = .ok oid := by
  rw [nextWantLine_eq hi,parseCmdLine_eq (by decide),parseOid_line]

/-- The capabilities of the first line are taken for a part of the oid. -/
theorem parse_firstWantLine (oid : Oid) : parseCmdLine "want".toList (wantLine 0 oid) =
    .error wrongLength := by
  have hend : trimEnd (Packfile.Oid.toHex oid++(' '::([' '].intercalate CAPABILITIES_WANTED++['\n']))) =
      Packfile.Oid.toHex oid++(' '::[' '].intercalate CAPABILITIES_WANTED) := by
    have hlast : [' '].intercalate CAPABILITIES_WANTED = "multi_ack_detailed ofs-delta side-band-64".toList++['k'] := by decide
    have hline : trimEnd (Packfile.Oid.toHex oid++(' '::([' '].intercalate CAPABILITIES_WANTED++['\n']))) =
        trimEnd (Packfile.Oid.toHex oid++(' '::[' '].intercalate CAPABILITIES_WANTED)++['\n']) := by
      rw [List.append_assoc,List.cons_append]
    rw [hline,trimEnd_concat (by decide),hlast,← List.cons_append,← List.append_assoc,trimEnd_concat_of_not (by decide)]
  have hlen : utf8Len (Packfile.Oid.toHex oid++(' '::[' '].intercalate CAPABILITIES_WANTED)) ≠ 40 := by
    rw [utf8Len_append,utf8Len_toHex]
    have hpos := utf8Len_pos (List.cons_ne_nil ' ' ([' '].intercalate CAPABILITIES_WANTED))
    omega
  rw [firstWantLine_eq,parseCmdLine_eq (by decide)]
  exact parseOid_wrongLength (hend ▸ hlen)

/-- The server reads the wants as the client sent them, and so every batch of haves. -/
structure Understood (debug : Bool) (wanted commits : List Oid) : Prop where
  wants : ∃ bytes, writeWants debug wanted = .ok bytes ∧ ∀ rest, recvWanted.run (bytes++rest) = .ok (wanted,rest)
  haves : ∀ batch ∈ haveBatches commits, ∃ bytes, writeHaves debug batch = .ok bytes ∧
    ∀ rest, recvHas.run (bytes++rest) = .ok (batch,rest)

theorem recvWanted_error (debug : Bool) (oid : Oid) (wanted : List Oid) : ∃ bytes,
    writeWants debug (oid::wanted) = .ok bytes ∧ ∀ rest, recvWanted.run (bytes++rest) =
      .error wrongLength := by
  have hall : ∀ p ∈ (oid::wanted).mapIdx wantLine, Payload p ∧ 4+p.length < 2^16 := by
    intro p hp
    obtain ⟨i,hi,rfl⟩ := List.mem_mapIdx.mp hp
    exact wantLine_payload i _
  obtain ⟨bytes,hwrite,hread⟩ := message_decodes debug hall
  have hfail : ((oid::wanted).mapIdx wantLine).mapM (parseCmdLine "want".toList) =
      .error wrongLength := by
    rw [List.mapIdx_cons,List.mapM_cons,parse_firstWantLine]
    rfl
  refine ⟨bytes,hwrite,fun rest => ?_⟩
  rw [recvWanted,StateT.run_bind,(Decodes.receive hread).run]
  change (answer (((oid::wanted).mapIdx wantLine).mapM (parseCmdLine "want".toList))).run rest = _
  rw [hfail]
  rfl

theorem not_understood_cons (debug : Bool) (oid : Oid) (wanted commits : List Oid) :
    ¬Understood debug (oid::wanted) commits := by
  intro h
  obtain ⟨bytes,hwrite,hread⟩ := h.wants
  obtain ⟨bytes',hwrite',hread'⟩ := recvWanted_error debug oid wanted
  obtain rfl : bytes = bytes' := Except.ok.inj (hwrite.symm.trans hwrite')
  exact nomatch (hread []).symm.trans (hread' [])

/-- The defect: the server takes the capabilities of the first want for a part of its oid, whatever is wanted. -/
theorem not_understood (debug : Bool) (wanted commits : List Oid) (hne : wanted ≠ []) : ¬Understood debug wanted commits := by
  obtain ⟨oid,wanted,rfl⟩ := List.exists_cons_of_ne_nil hne
  exact not_understood_cons debug oid wanted commits

theorem not_understood_one : [IndexFile.Oid.UNKNOWN] ≠ [] ∧ ¬Understood false [IndexFile.Oid.UNKNOWN] [] :=
  ⟨by decide,not_understood false _ [] (by decide)⟩

/-- One oid is wanted, and there is no commit yet. -/
theorem clone_not_understood : ¬∃ debug, Understood debug [IndexFile.Oid.UNKNOWN] [] := by
  rintro ⟨debug,h⟩
  exact not_understood_cons debug _ [] [] h

end Transport
end Libbit
