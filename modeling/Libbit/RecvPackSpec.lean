import Libbit.RecvPack

/-! The pack that is received is what came over its side band. Which headers make the reader of packets panic. -/
namespace Libbit
namespace Protocol

open Lib Lib.Reader
open IndexFile (Error Parser isUtf8)
open Packfile (PackIndex PackIndexer)

/-! ### Packets on the wire -/

/-- Four hexadecimal digits count themselves and what follows them. -/
structure Packet where
  header : Bytes
  contents : Bytes
  length_header : header.length = 4
  digits : header.foldlM (Radix.pushDigit 16) 0 = some (4+contents.length)

namespace Packet

def text (p : Packet) : Bytes := p.header++p.contents

/-- A line of the negotiation. -/
def Acknowledges (p : Packet) : Prop := isUtf8 p.contents ∧ (ACK <+: p.contents ∨ NAK <+: p.contents)

/-- A packet with a part of the pack, or with text for the user. -/
def OnSideband (p : Packet) : Prop :=
  (∃ data, data ≠ [] ∧ p.contents = SIDEBAND_DATA::data) ∨ ∃ data, isUtf8 data ∧ p.contents = SIDEBAND_PROGRESS::data

/-- What a packet carries over one of the bands. -/
def onBand (sideband : Byte) (p : Packet) : Bytes := if p.contents.head? = some sideband then p.contents.tail else []

theorem text_ne_nil (p : Packet) : p.text ≠ [] := by
  intro h
  have hlen := congrArg List.length h
  rw [text,List.length_append,p.length_header] at hlen
  simp at hlen

theorem ascii_toDigit {c : Byte} {d : ℕ} (h : Radix.toDigit 16 c = some d) : c.val < 0x80 := by
  have hall : ∀ c : Byte, (Radix.toDigit 16 c).isSome → c.val < 0x80 := by decide +kernel
  exact hall c (by rw [h]; rfl)

theorem decodes (p : Packet) : Decodes recvPacket p.text p.contents := by
  have hutf8 : isUtf8 p.header := isUtf8_of_ascii fun c hc => by
    obtain ⟨d,hd⟩ := Radix.toDigit_of_mem p.digits hc
    exact ascii_toDigit hd
  have hne : p.header ≠ [] := List.ne_nil_of_length_pos (by rw [p.length_header]; norm_num)
  have hsmall : 4+p.contents.length < 2^64 := by
    have hlt := Radix.foldlM_lt p.digits
    rw [p.length_header] at hlt
    exact hlt.trans (by norm_num)
  have hparse : (Radix.parse 16 p.header).filter (· < 2^64) = some (4+p.contents.length) := by
    rw [Radix.parse_digits (by norm_num) hne p.digits]
    exact Option.filter_some_pos (decide_eq_true hsmall)
  refine (Decodes.readExact p.length_header).bind ?_
  refine (Decodes.require hutf8).andThen <| (Decodes.orFail hparse).andThen ?_
  rw [readContentsWithParsedLen,if_neg (by omega)]
  exact (Decodes.require (by omega)).andThen (Decodes.readExact (by omega))

end Packet

theorem recv_of_decodes {s : Reception} {text packet rest : Bytes} (h : Decodes recvPacket text packet)
    (hstream : s.stream = text++rest) : recv s = .ok packet { s with stream := rest } := by
  rw [recv,hstream,h.run rest]

theorem readFile_of_some {s : Reception} {path : PackPath} {bytes : Bytes} (h : s.packObjectsDir path = some bytes) :
    readFile path s = .ok bytes s := by
  rw [readFile,run_getBind,h]
  rfl

theorem renameFile_of_some {s : Reception} {old new : PackPath} {bytes : Bytes} (h : s.packObjectsDir old = some bytes) :
    renameFile old new s = .ok () { s with
      packObjectsDir := Function.update (Function.update s.packObjectsDir old none) new (some bytes) } := by
  rw [renameFile,bind_of_ok (readFile_of_some h)]
  rfl

/-! ### The writer -/

/-- What has been written so far is in the file, but for what the writer still holds. No other file changed. -/
structure Wrote (dir : PackDir) (written : Bytes) (s : Reception) : Prop where
  exists_file : ∃ file, s.packObjectsDir = Function.update dir .tmp (some file) ∧ file++s.held = written
  held_le : s.held.length ≤ DEFAULT_BUF_SIZE

theorem PackWriter.new_wrote (s : Reception) : ∃ t, PackWriter.new s = .ok () t ∧ Wrote s.packObjectsDir [] t ∧
    t.stream = s.stream ∧ t.stderr = s.stderr :=
  ⟨_,rfl,⟨⟨[],rfl,rfl⟩,Nat.zero_le _⟩,rfl,rfl⟩

theorem PackWriter.call_wrote {dir : PackDir} {written : Bytes} {s : Reception} (h : Wrote dir written s)
    (op : BufWriter.Op Byte) : ∃ t, PackWriter.call op s = .ok () t ∧ Wrote dir (written++BufWriter.bytes op) t ∧
      t.stream = s.stream ∧ t.stderr = s.stderr ∧ t.held = (BufWriter.call DEFAULT_BUF_SIZE s.held op).2 := by
  obtain ⟨file,hdir,hwritten⟩ := h.exists_file
  have hfile : s.packObjectsDir .tmp = some file := by rw [hdir,Function.update_self]
  have hcall := BufWriter.call_bytes h.held_le op
  have hle := BufWriter.length_held_le h.held_le op
  refine ⟨⟨s.stream,Function.update s.packObjectsDir .tmp
    (some (file++(BufWriter.call DEFAULT_BUF_SIZE s.held op).1.flatten)),(BufWriter.call DEFAULT_BUF_SIZE s.held op).2,s.stderr⟩,
    ?_,⟨⟨file++(BufWriter.call DEFAULT_BUF_SIZE s.held op).1.flatten,?_,?_⟩,hle⟩,rfl,rfl,rfl⟩
  · simp only [PackWriter.call,run_getBind]
    rw [bind_of_ok (readFile_of_some hfile)]
    rfl
  · rw [hdir,Function.update_idem]
  · rw [List.append_assoc,hcall,← List.append_assoc,hwritten]

/-! ### The packets -/

variable {dir : PackDir} {written rest : Bytes} {s : Reception} {acks bands : List Packet} {n : ℕ}

/-- The next packet belongs to the pack. -/
def Starts (packet : Bytes) : Prop := ¬(isUtf8 packet ∧ (ACK <+: packet ∨ NAK <+: packet))

theorem skipAcks_starts {text packet : Bytes} (hacks : ∀ p ∈ acks, p.Acknowledges) (hn : acks.length < n)
    (hpacket : Decodes recvPacket text packet) (hstart : Starts packet)
    (hstream : s.stream = acks.flatMap Packet.text++(text++rest)) :
    (recv >>= skipAcks n) s = .ok packet { s with stream := rest } := by
  induction acks generalizing n s with
  | nil =>
    obtain ⟨n,rfl⟩ := Nat.exists_eq_add_of_lt hn
    rw [bind_of_ok (recv_of_decodes hpacket hstream),skipAcks,if_neg hstart]
    rfl
  | cons p acks ih =>
    rw [List.length_cons] at hn
    obtain ⟨n,rfl⟩ := Nat.exists_eq_add_of_le' (by omega : 1 ≤ n)
    rw [List.flatMap_cons,List.append_assoc] at hstream
    have hack : isUtf8 p.contents ∧ (ACK <+: p.contents ∨ NAK <+: p.contents) := hacks p List.mem_cons_self
    rw [bind_of_ok (recv_of_decodes p.decodes hstream),skipAcks,if_pos hack]
    exact ih (fun q hq => hacks q (List.mem_cons_of_mem p hq)) (by omega) rfl

theorem onBand_cons {p : Packet} {sideband b : Byte} {data : Bytes} (h : p.contents = b::data) :
    p.onBand sideband = if b = sideband then data else [] := by
  simp only [Packet.onBand,h,List.head?_cons,Option.some.injEq,List.tail_cons]

theorem recvSideband_wrote {p : Packet} (hp : p.OnSideband) (h : Wrote dir written s) : ∃ b data t, p.contents = b::data ∧
    recvSideband b data s = .ok () t ∧ Wrote dir (written++p.onBand SIDEBAND_DATA) t ∧
      t.stream = s.stream ∧ t.stderr = s.stderr++p.onBand SIDEBAND_PROGRESS := by
  rcases hp with ⟨data,-,hp⟩ | ⟨data,hutf8,hp⟩
  · obtain ⟨t,hrun,hwrote,hstream,hstderr,-⟩ := PackWriter.call_wrote h (.write data)
    refine ⟨_,data,t,hp,?_,?_,hstream,?_⟩
    · rw [recvSideband,if_pos rfl,hrun]
    · rw [onBand_cons hp,if_pos rfl]
      exact hwrote
    · rw [onBand_cons hp,if_neg (by decide),List.append_nil,hstderr]
  · refine ⟨_,data,{ s with stderr := s.stderr++data },hp,?_,?_,rfl,?_⟩
    · rw [recvSideband,if_neg (by decide),if_pos rfl,if_pos hutf8]
      rfl
    · rw [onBand_cons hp,if_neg (by decide),List.append_nil]
      exact ⟨h.exists_file,h.held_le⟩
    · rw [onBand_cons hp,if_pos rfl]

theorem recvSidebands_wrote (hbands : ∀ p ∈ bands, p.OnSideband) (hn : bands.length < n) (h : Wrote dir written s)
    (hstream : s.stream = bands.flatMap Packet.text++(writeFlushPacket++rest)) :
    ∃ t, (recv >>= recvSidebands n) s = .ok () t ∧ Wrote dir (written++bands.flatMap (Packet.onBand SIDEBAND_DATA)) t ∧
      t.stream = rest ∧ t.stderr = s.stderr++bands.flatMap (Packet.onBand SIDEBAND_PROGRESS) := by
  induction bands generalizing n written s with
  | nil =>
    obtain ⟨n,rfl⟩ := Nat.exists_eq_add_of_lt hn
    refine ⟨{ s with stream := rest },?_,?_,rfl,?_⟩
    · rw [bind_of_ok (recv_of_decodes flush_decodes hstream)]
      rfl
    · rw [List.flatMap_nil,List.append_nil]
      exact ⟨h.exists_file,h.held_le⟩
    · rw [List.flatMap_nil,List.append_nil]
  | cons p bands ih =>
    rw [List.length_cons] at hn
    obtain ⟨n,rfl⟩ := Nat.exists_eq_add_of_le' (by omega : 1 ≤ n)
    rw [List.flatMap_cons,List.append_assoc] at hstream
    have hread := recv_of_decodes p.decodes hstream
    obtain ⟨b,data,t,hp,hrun,hwrote,htstream,htstderr⟩ := recvSideband_wrote (hbands p List.mem_cons_self)
      (s := { s with stream := bands.flatMap Packet.text++(writeFlushPacket++rest) }) ⟨h.exists_file,h.held_le⟩
    obtain ⟨t',hrun',hwrote',htstream',htstderr'⟩ :=
      ih (n := n) (fun q hq => hbands q (List.mem_cons_of_mem p hq)) (by omega) hwrote htstream
    refine ⟨t',?_,?_,htstream',?_⟩
    · rw [bind_of_ok hread,hp,recvSidebands,bind_of_ok hrun]
      exact hrun'
    · rw [List.flatMap_cons,← List.append_assoc]
      exact hwrote'
    · rw [htstderr',htstderr,List.flatMap_cons,List.append_assoc]

/-- What comes first in the rest of the stream, once the negotiation is over. -/
theorem exists_first (hbands : ∀ p ∈ bands, p.OnSideband) (rest : Bytes) : ∃ text packet more,
    Decodes recvPacket text packet ∧ Starts packet ∧ bands.flatMap Packet.text++(writeFlushPacket++rest) = text++more := by
  cases bands with
  | nil => exact ⟨_,_,rest,flush_decodes,by simp [Starts,ACK,NAK],rfl⟩
  | cons p bands =>
    refine ⟨p.text,p.contents,bands.flatMap Packet.text++(writeFlushPacket++rest),p.decodes,?_,?_⟩
    · rcases hbands p List.mem_cons_self with ⟨data,-,hp⟩ | ⟨data,-,hp⟩
      · simp [Starts,hp,ACK,NAK,SIDEBAND_DATA]
      · simp [Starts,hp,ACK,NAK,SIDEBAND_PROGRESS]
    · rw [List.flatMap_cons,List.append_assoc]

/-! ### The pack -/

section Index
variable (sha1 : Bytes → Packfile.Oid) (crc32 : Bytes → UInt32) (zlib : Parser Bytes) (refreshOdb : PackDir → Except Error Unit)

/-- The end of a reception: the pack is in the file, which has its name once it is indexed. -/
structure Received (pack progress rest : Bytes) (s : Reception) (r : EStateM.Result Error Reception Unit) : Prop where
  indexed : ∀ index, PackIndexer.indexPack sha1 crc32 zlib pack = .ok index →
    (final r).packObjectsDir (.pack index.packHash) = some pack ∧ outcome r = refreshOdb (final r).packObjectsDir
  kept : ∀ e, PackIndexer.indexPack sha1 crc32 zlib pack = .error e →
    (final r).packObjectsDir .tmp = some pack ∧ outcome r = .error e
  stream : (final r).stream = rest
  stderr : (final r).stderr = s.stderr++progress

theorem installPack_received {pack progress rest : Bytes} {s t : Reception} (hfile : t.packObjectsDir .tmp = some pack)
    (hstream : t.stream = rest) (hstderr : t.stderr = s.stderr++progress) :
    Received sha1 crc32 zlib refreshOdb pack progress rest s (installPack sha1 crc32 zlib refreshOdb t) := by
  have hread := readFile_of_some hfile
  cases hindex : PackIndexer.indexPack sha1 crc32 zlib pack with
  | error e =>
    have hrun : installPack sha1 crc32 zlib refreshOdb t = .error e t := by
      apply bind_of_error
      rw [writePackIndex,bind_of_ok hread,hindex]
      rfl
    rw [hrun]
    refine ⟨fun index h => ?_,fun e' h => ?_,hstream,hstderr⟩
    · rw [hindex] at h
      cases h
    · rw [hindex] at h
      cases h
      exact ⟨hfile,rfl⟩
  | ok index =>
    let indexed : Reception :=
      { t with packObjectsDir := Function.update t.packObjectsDir .tmpIdx (some (index.serialize sha1)) }
    have hwrite : writePackIndex sha1 crc32 zlib t = .ok index indexed := by
      rw [writePackIndex,bind_of_ok hread,hindex]
      rfl
    have hpack : indexed.packObjectsDir .tmp = some pack := hfile
    let named : Reception := { indexed with
      packObjectsDir := Function.update (Function.update indexed.packObjectsDir .tmp none) (.pack index.packHash) (some pack) }
    have hidx : named.packObjectsDir .tmpIdx = some (index.serialize sha1) := rfl
    have hrun : installPack sha1 crc32 zlib refreshOdb t =
        (renameFile .tmpIdx (.idx index.packHash) >>= fun _ => refresh refreshOdb) named := by
      rw [installPack,bind_of_ok hwrite,bind_of_ok (renameFile_of_some hpack)]
    rw [hrun,bind_of_ok (renameFile_of_some hidx),refresh]
    refine ⟨fun index' h => ?_,fun e h => ?_,?_,?_⟩
    · rw [hindex] at h
      cases h
      rw [final_ended,outcome_ended]
      exact ⟨by simp [named],rfl⟩
    · rw [hindex] at h
      cases h
    · rw [final_ended]
      exact hstream
    · rw [final_ended]
      exact hstderr

/-- What recvPack makes of the packets of a fetch. -/
theorem recvPack_received {acks bands : List Packet} {rest : Bytes} {s : Reception} (hacks : ∀ p ∈ acks, p.Acknowledges)
    (hbands : ∀ p ∈ bands, p.OnSideband)
    (hstream : s.stream = acks.flatMap Packet.text++(bands.flatMap Packet.text++(writeFlushPacket++rest))) :
    Received sha1 crc32 zlib refreshOdb (bands.flatMap (Packet.onBand SIDEBAND_DATA))
      (bands.flatMap (Packet.onBand SIDEBAND_PROGRESS)) rest s (recvPack sha1 crc32 zlib refreshOdb s) := by
  obtain ⟨t,hnew,hwrote,htstream,htstderr⟩ := PackWriter.new_wrote s
  obtain ⟨text,packet,more,hpacket,hstart,hsplit⟩ := exists_first hbands rest
  have hfuel : acks.length < s.stream.length+1 ∧ bands.length < s.stream.length+1 := by
    have hlacks := length_le_flatMap fun p (_ : p ∈ acks) => p.text_ne_nil
    have hlbands := length_le_flatMap fun p (_ : p ∈ bands) => p.text_ne_nil
    rw [hstream,List.length_append,List.length_append]
    omega
  have hskip : (recv >>= skipAcks (s.stream.length+1)) t = .ok packet { t with stream := more } :=
    skipAcks_starts hacks hfuel.1 hpacket hstart (by rw [htstream,hstream,hsplit])
  obtain ⟨t',hrun,hwrote',htstream',htstderr'⟩ := recvSidebands_wrote hbands hfuel.2
    (s := { t with stream := text++more }) ⟨hwrote.exists_file,hwrote.held_le⟩ hsplit.symm
  rw [bind_of_ok (recv_of_decodes hpacket rfl)] at hrun
  rw [List.nil_append] at hwrote'
  obtain ⟨u,hflush,hwroteu,hustream,hustderr,huheld⟩ := PackWriter.call_wrote hwrote' .flush
  obtain ⟨file,hdir,hfile⟩ := hwroteu.exists_file
  have hpack : u.packObjectsDir .tmp = some (bands.flatMap (Packet.onBand SIDEBAND_DATA)) := by
    rw [huheld,BufWriter.call,BufWriter.bytes,List.append_nil,List.append_nil] at hfile
    rw [hdir,Function.update_self,hfile]
  have hinstall : recvPack sha1 crc32 zlib refreshOdb s = installPack sha1 crc32 zlib refreshOdb u := by
    rw [recvPack,run_getBind,bind_of_ok hnew,← bind_assoc,bind_of_ok hskip,bind_of_ok hrun,bind_of_ok hflush]
  rw [hinstall]
  apply installPack_received
  · exact hpack
  · rw [hustream,htstream']
  · rw [hustderr,htstderr',htstderr]

end Index

/-! ### Headers -/

/-- `0001` to `0003`, and these numbers with a plus sign. -/
def SHORT_HEADERS : List Bytes :=
  [[0x30,0x30,0x30,0x31],[0x30,0x30,0x30,0x32],[0x30,0x30,0x30,0x33],
    [0x2B,0x30,0x30,0x31],[0x2B,0x30,0x30,0x32],[0x2B,0x30,0x30,0x33]]

theorem readContents_run (header rest : Bytes) : (readContents header).run rest =
    if isUtf8 header then
      match (Radix.parse 16 header).filter (· < 2^64) with
      | none => .error (.bail "invalid digit found in string")
      | some n => (readContentsWithParsedLen n).run rest
    else .error .invalidUtf8 := by
  rw [readContents,require]
  by_cases hutf8 : isUtf8 header
  · rw [if_pos hutf8,if_pos hutf8]
    cases (Radix.parse 16 header).filter (· < 2^64) <;> rfl
  · rw [if_neg hutf8,if_neg hutf8]
    rfl

theorem readContentsWithParsedLen_panics {n : ℕ} {rest : Bytes} {message : String} :
    (readContentsWithParsedLen n).run rest = .error (.panic message) ↔
      (0 < n ∧ n < 4) ∧ message = "attempt to subtract with overflow" := by
  rcases Nat.eq_zero_or_pos n with rfl | hpos
  · constructor
    · intro h
      cases h
    · intro h
      omega
  · rw [readContentsWithParsedLen,if_neg (by omega),require]
    rcases Nat.lt_or_ge n 4 with hn | hn
    · rw [if_neg (by omega)]
      constructor
      · intro h
        cases h
        exact ⟨⟨hpos,hn⟩,rfl⟩
      · rintro ⟨-,rfl⟩
        rfl
    · rw [if_pos hn]
      change (if n-4 ≤ rest.length then (.ok (rest.take (n-4),rest.drop (n-4)) : Except Error _) else .error .unexpectedEof) = _ ↔ _
      constructor
      · intro h
        split at h <;> cases h
      · intro h
        omega

theorem byte_of_toDigit {c : Byte} {d : ℕ} (hd : d < 4) (h : Radix.toDigit 16 c = some d) : c = Fin.ofNat 256 (0x30+d) := by
  have hall : ∀ c : Byte, ∀ d < 4, Radix.toDigit 16 c = some d → c = Fin.ofNat 256 (0x30+d) := by decide +kernel
  exact hall c d hd h

/-- Digits of a number below four. -/
theorem digits_of_small {m n : ℕ} {cs : Bytes} {c : Byte} (hn : n < 4) (h : (cs++[c]).foldlM (Radix.pushDigit 16) m = some n) :
    m = 0 ∧ cs = List.replicate cs.length 0x30 ∧ c = Fin.ofNat 256 (0x30+n) := by
  induction cs generalizing m with
  | nil =>
    obtain ⟨d,hd,h⟩ := Radix.foldlM_cons_eq_some h
    cases h
    have hm : m = 0 := by omega
    rw [hm,Nat.mul_zero,Nat.zero_add] at hn ⊢
    exact ⟨rfl,rfl,byte_of_toDigit hn hd⟩
  | cons b cs ih =>
    obtain ⟨d,hd,h⟩ := Radix.foldlM_cons_eq_some h
    obtain ⟨hzero,hcs,hc⟩ := ih h
    obtain rfl : d = 0 := by omega
    have hb : b = 0x30 := byte_of_toDigit (by norm_num) hd
    refine ⟨by omega,?_,hc⟩
    rw [List.length_cons,List.replicate_succ,← hcs,hb]

theorem short_of_parse {header : Bytes} {n : ℕ} (hlen : header.length = 4) (hn : 0 < n ∧ n < 4)
    (h : Radix.parse 16 header = some n) : header ∈ SHORT_HEADERS := by
  have hthree : n = 1 ∨ n = 2 ∨ n = 3 := by omega
  obtain ⟨a,b,c,d,rfl⟩ := List.length_eq_four.mp hlen
  rw [Radix.parse] at h
  by_cases hplus : a = 43
  · subst hplus
    have hdigits : ([b,c]++[d]).foldlM (Radix.pushDigit 16) 0 = some n := h
    obtain ⟨-,hzeros,hd⟩ := digits_of_small hn.2 hdigits
    cases hzeros
    rcases hthree with rfl | rfl | rfl <;> · subst hd; decide
  · have hhead : ([a,b,c,d] : Bytes).head? ≠ some 43 := by simpa using hplus
    rw [if_neg hhead] at h
    have hdigits : ([a,b,c]++[d]).foldlM (Radix.pushDigit 16) 0 = some n := h
    obtain ⟨-,hzeros,hd⟩ := digits_of_small hn.2 hdigits
    cases hzeros
    rcases hthree with rfl | rfl | rfl <;> · subst hd; decide

theorem parse_of_short {header : Bytes} (h : header ∈ SHORT_HEADERS) : header.length = 4 ∧ isUtf8 header ∧
    ∃ n, (Radix.parse 16 header).filter (· < 2^64) = some n ∧ 0 < n ∧ n < 4 := by
  have hall : ∀ header ∈ SHORT_HEADERS, header.length = 4 ∧ isUtf8 header ∧
      ∃ n ∈ [1,2,3], (Radix.parse 16 header).filter (· < 2^64) = some n := by decide
  obtain ⟨hlen,hutf8,n,hn,hparse⟩ := hall header h
  refine ⟨hlen,hutf8,n,hparse,?_⟩
  simp only [List.mem_cons,List.not_mem_nil,or_false] at hn
  omega

/-- The only headers that make the reader of packets panic. -/
theorem recvPacket_panics (stream : Bytes) :
    (∃ message, recvPacket.run stream = .error (.panic message)) ↔ ∃ header ∈ SHORT_HEADERS, header <+: stream := by
  have hrun (header rest : Bytes) (hlen : header.length = 4) :
      recvPacket.run (header++rest) = (readContents header).run rest := by
    rw [recvPacket,StateT.run_bind,readExact_eq_ok.mpr ⟨rfl,hlen⟩]
    rfl
  constructor
  · rintro ⟨message,h⟩
    rcases Nat.lt_or_ge stream.length 4 with hshort | hlong
    · have heof : recvPacket.run stream = .error .unexpectedEof := by
        rw [recvPacket,StateT.run_bind]
        change ((if 4 ≤ stream.length then .ok (stream.take 4,stream.drop 4) else .error .unexpectedEof : Except Error _) >>= _) = _
        rw [if_neg (by omega)]
        rfl
      rw [heof] at h
      cases h
    · have hlen : (stream.take 4).length = 4 := List.length_take_of_le hlong
      rw [← List.take_append_drop 4 stream,hrun _ _ hlen,readContents_run] at h
      by_cases hutf8 : isUtf8 (stream.take 4)
      · rw [if_pos hutf8] at h
        cases hparse : (Radix.parse 16 (stream.take 4)).filter (· < 2^64) with
        | none =>
          rw [hparse] at h
          cases h
        | some n =>
          rw [hparse] at h
          have hn := (readContentsWithParsedLen_panics.mp h).1
          exact ⟨_,short_of_parse hlen hn (Option.filter_eq_some_iff.mp hparse).1,List.take_prefix 4 stream⟩
      · rw [if_neg hutf8] at h
        cases h
  · rintro ⟨header,hshort,rest,rfl⟩
    obtain ⟨hlen,hutf8,n,hparse,hn⟩ := parse_of_short hshort
    refine ⟨"attempt to subtract with overflow",?_⟩
    rw [hrun _ _ hlen,readContents_run,if_pos hutf8,hparse]
    exact readContentsWithParsedLen_panics.mpr ⟨hn,rfl⟩

/-- The pack is what came over its band. A packet is read or refused, unless its header says that it is shorter than
the header. -/
theorem recvPack_reassembles_iff (sha1 : Bytes → Packfile.Oid) (crc32 : Bytes → UInt32) (zlib : Parser Bytes)
    (refreshOdb : PackDir → Except Error Unit) (s : Reception) (stream : Bytes) :
    (∀ (acks bands : List Packet) (rest : Bytes), (∀ p ∈ acks, p.Acknowledges) → (∀ p ∈ bands, p.OnSideband) →
      s.stream = acks.flatMap Packet.text++(bands.flatMap Packet.text++(writeFlushPacket++rest)) →
      Received sha1 crc32 zlib refreshOdb (bands.flatMap (Packet.onBand SIDEBAND_DATA))
        (bands.flatMap (Packet.onBand SIDEBAND_PROGRESS)) rest s (recvPack sha1 crc32 zlib refreshOdb s)) ∧
    ((∀ message, recvPacket.run stream ≠ .error (.panic message)) ↔ ∀ header ∈ SHORT_HEADERS, ¬header <+: stream) := by
  refine ⟨fun acks bands rest hacks hbands hstream => recvPack_received sha1 crc32 zlib refreshOdb hacks hbands hstream,?_⟩
  have hpanics := not_congr (recvPacket_panics stream)
  push Not at hpanics
  exact hpanics

/-- The header `0001`. -/
theorem short_header_panics : ¬∀ stream message, recvPacket.run stream ≠ .error (.panic message) := by
  intro h
  exact h [0x30,0x30,0x30,0x31] "attempt to subtract with overflow" (by decide)

end Protocol
end Libbit
