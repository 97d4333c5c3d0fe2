import Libbit.Odb

/-! Signatures and times (`signature.rs`), as they stand in commits and in reflogs. -/
namespace Libbit
namespace CommitFormat

open Lib

inductive Error
  | panic (message : String)
  /-- `unwrap` of a `None` or an `Err`, or a slice that does not fit -/
  | unwrap
  | oid (e : Packfile.BitError)
  | message (text : String)
  deriving DecidableEq

/-- `Option::unwrap`. -/
def unwrap {α : Type*} : Option α → Except Error α
  | some a => .ok a
  | none => .error .unwrap

structure BitEpochTime where
  time : ℤ
  /-- an `i64` -/
  inRange : -2^63 ≤ time ∧ time < 2^63
  deriving DecidableEq

theorem epoch_inRange : -2^63 ≤ (0 : ℤ) ∧ (0 : ℤ) < 2^63 := by decide

/-- Timezone offset in minutes. -/
structure BitTimeZoneOffset where
  offset : ℤ
  /-- an `i32` that has an absolute value -/
  inRange : offset.natAbs < 2^31
  deriving DecidableEq

structure BitTime where
  time : BitEpochTime
  offset : BitTimeZoneOffset
  deriving DecidableEq

structure BitSignature where
  name : List Char
  email : List Char
  time : BitTime
  deriving DecidableEq

/-! ### Display -/

def BitEpochTime.display (t : BitEpochTime) : List Char := showInt t.time

def BitTimeZoneOffset.display (t : BitTimeZoneOffset) : List Char :=
  let sign := if 0 ≤ t.offset then '+' else '-'
  let offset := t.offset.natAbs
  sign::(pad2 (offset/60)++pad2 (offset%60))

def BitTime.display (t : BitTime) : List Char := t.time.display++ ' '::t.offset.display

def BitSignature.display (s : BitSignature) : List Char :=
  s.name++ ' ':: '<'::s.email++ '>':: ' '::s.time.display

/-! ### `FromStr` -/

def BitEpochTime.fromStr (s : List Char) : Except Error BitEpochTime :=
  match parseInt s with
  | some time => if h : -2^63 ≤ time ∧ time < 2^63 then .ok ⟨time,h⟩ else .error .unwrap
  | none => .error .unwrap

/-- The first byte, which must be a sign. -/
def parseSign (s : List Char) : Except Error ℤˣ :=
  match s with
  | [] => .error .unwrap
  | '+'::_ => .ok 1
  | '-'::_ => .ok (-1)
  | c::_ => .error (if c.utf8Size = 1 then .panic ("invalid timezone format "++String.ofList s) else .unwrap)

theorem offset_lt {hours minutes : ℤ} {h₁ h₂ m₁ m₂ : Char} (sign : ℤˣ) (hhours : parseInt [h₁,h₂] = some hours)
    (hminutes : parseInt [m₁,m₂] = some minutes) : ((sign : ℤ)*(minutes+hours*60)).natAbs < 2^31 := by
  have hh : hours.natAbs < 10^2 := natAbs_parseInt_lt hhours
  have hm : minutes.natAbs < 10^2 := natAbs_parseInt_lt hminutes
  rw [Int.natAbs_mul,Int.units_natAbs,Nat.one_mul]
  omega

/-- The format is `(+|-)0200`. -/
def BitTimeZoneOffset.fromStr (s : List Char) : Except Error BitTimeZoneOffset := do
  let sign ← parseSign s
  match s with
  | _::h₁::h₂::m₁::m₂::_ =>
    match hhours : parseInt [h₁,h₂], hminutes : parseInt [m₁,m₂] with
    | some hours, some minutes => .ok ⟨sign*(minutes+hours*60),offset_lt sign hhours hminutes⟩
    | _, _ => .error .unwrap
  | _ => .error .unwrap

def BitTime.fromStr (s : List Char) : Except Error BitTime := do
  let splits := splitAsciiWhitespace s
  let time ← unwrap splits[0]? >>= BitEpochTime.fromStr
  let offset ← unwrap splits[1]? >>= BitTimeZoneOffset.fromStr
  .ok ⟨time,offset⟩

/-- The text without its last byte, which may not be a part of a longer character. -/
def dropLastByte (s : List Char) : Option (List Char) :=
  match s.getLast? with
  | some c => if c.utf8Size = 1 then some s.dropLast else none
  | none => none

/-- The name is assumed to have no `<` or `>`. -/
def BitSignature.fromStr (s : List Char) : Except Error BitSignature := do
  let emailStart ← unwrap (s.idxOf? '<')
  let emailEnd ← unwrap (s.idxOf? '>')
  let name ← unwrap (dropLastByte (s.take emailStart))
  let email ← if emailStart < emailEnd then .ok ((s.take emailEnd).drop (emailStart+1)) else .error .unwrap
  let time ← BitTime.fromStr (s.drop (emailEnd+1))
  .ok ⟨name,email,time⟩

/-! ### Reading a signature back -/

theorem BitEpochTime.fromStr_display (t : BitEpochTime) : BitEpochTime.fromStr t.display = .ok t := by
  rw [BitEpochTime.fromStr,BitEpochTime.display,parseInt_showInt]
  exact dif_pos t.inRange

section Offset
variable {c h₁ h₂ m₁ m₂ : Char} {rest : List Char} {sign : ℤˣ} {hours minutes : ℤ}

theorem BitTimeZoneOffset.fromStr_cons (hsign : parseSign (c::h₁::h₂::m₁::m₂::rest) = .ok sign)
    (hhours : parseInt [h₁,h₂] = some hours) (hminutes : parseInt [m₁,m₂] = some minutes) :
    BitTimeZoneOffset.fromStr (c::h₁::h₂::m₁::m₂::rest) =
      .ok ⟨sign*(minutes+hours*60),offset_lt sign hhours hminutes⟩ := by
  rw [BitTimeZoneOffset.fromStr,hsign]
  show (match hh : parseInt [h₁,h₂], hm : parseInt [m₁,m₂] with
    | some hours, some minutes => Except.ok (BitTimeZoneOffset.mk (sign*(minutes+hours*60)) (offset_lt sign hh hm))
    | _, _ => Except.error Error.unwrap) = _
  split
  · rename_i hh hm
    obtain rfl := Option.some.inj (hhours.symm.trans hh)
    obtain rfl := Option.some.inj (hminutes.symm.trans hm)
    rfl
  · rename_i hno
    exact absurd hminutes (hno hours minutes hhours)

theorem BitTimeZoneOffset.fromStr_display {t : BitTimeZoneOffset} (ht : t.offset.natAbs < 100*60) :
    BitTimeZoneOffset.fromStr t.display = .ok t := by
  obtain ⟨h₁,h₂,hhours,hparse⟩ := pad2_of_lt (n := t.offset.natAbs/60) (by omega)
  obtain ⟨m₁,m₂,hminutes,hparse'⟩ := pad2_of_lt (n := t.offset.natAbs%60) (by omega)
  have hdisplay : t.display = (if 0 ≤ t.offset then '+' else '-')::h₁::h₂::m₁::m₂::[] := by
    simp [BitTimeZoneOffset.display,hhours,hminutes]
  have hvalue : ((t.offset.natAbs%60 : ℕ) : ℤ)+(t.offset.natAbs/60 : ℕ)*60 = t.offset.natAbs := by omega
  rw [hdisplay]
  rcases le_or_gt 0 t.offset with hsign | hsign
  · have hoffset : ((1 : ℤˣ) : ℤ)*((t.offset.natAbs%60 : ℕ)+(t.offset.natAbs/60 : ℕ)*60) = t.offset := by
      rw [hvalue,Units.val_one]
      omega
    rw [if_pos hsign,fromStr_cons (show parseSign _ = .ok 1 from rfl) hparse hparse']
    simp only [hoffset]
  · have hoffset : ((-1 : ℤˣ) : ℤ)*((t.offset.natAbs%60 : ℕ)+(t.offset.natAbs/60 : ℕ)*60) = t.offset := by
      rw [hvalue,Units.val_neg,Units.val_one]
      omega
    rw [if_neg (by omega),fromStr_cons (show parseSign _ = .ok (-1) from rfl) hparse hparse']
    simp only [hoffset]

end Offset

theorem isAsciiWhitespace_of_isDigit {c : Char} (h : c = '-' ∨ c = '+' ∨ c.isDigit) : isAsciiWhitespace c = false := by
  rcases h with rfl | rfl | h
  · decide
  · decide
  · have hle : '0'.toNat ≤ c.toNat := (Char.isDigit_iff_toNat.mp h).1
    refine decide_eq_false fun hmem => ?_
    simp only [List.mem_cons,List.not_mem_nil,or_false] at hmem
    rcases hmem with rfl | rfl | rfl | rfl | rfl <;> exact absurd hle (by decide)

section Display
variable {c : Char}

theorem BitEpochTime.mem_display {t : BitEpochTime} (h : c ∈ t.display) : c = '-' ∨ c = '+' ∨ c.isDigit :=
  (mem_showInt h).imp_right Or.inr

theorem BitTimeZoneOffset.mem_display {t : BitTimeZoneOffset} (h : c ∈ t.display) : c = '-' ∨ c = '+' ∨ c.isDigit := by
  rcases List.mem_cons.mp h with rfl | h
  · split
    · exact Or.inr (Or.inl rfl)
    · exact Or.inl rfl
  · exact Or.inr (Or.inr ((List.mem_append.mp h).elim isDigit_of_mem_pad2 isDigit_of_mem_pad2))

end Display

/-- The text of a zone has no blanks in it. -/
theorem BitTime.fromStr_text {time : BitEpochTime} {zone : List Char} {offset : BitTimeZoneOffset}
    (hne : zone ≠ []) (hzone : ∀ c ∈ zone, isAsciiWhitespace c = false) (hoffset : BitTimeZoneOffset.fromStr zone = .ok offset) :
    BitTime.fromStr (' '::(time.display++ ' '::zone)) = .ok ⟨time,offset⟩ := by
  have hsplits : splitAsciiWhitespace (' '::(time.display++ ' '::zone)) = [time.display,zone] :=
    splitAsciiWhitespace_pair (fun c hc => isAsciiWhitespace_of_isDigit (BitEpochTime.mem_display hc)) hzone
      (showInt_ne_nil time.time) hne
  rw [BitTime.fromStr,hsplits]
  show (BitEpochTime.fromStr time.display >>= fun time =>
    BitTimeZoneOffset.fromStr zone >>= fun offset => Except.ok (BitTime.mk time offset)) = .ok ⟨time,offset⟩
  rw [BitEpochTime.fromStr_display,hoffset]
  rfl

theorem BitTime.fromStr_display {t : BitTime} (ht : t.offset.offset.natAbs < 100*60) :
    BitTime.fromStr (' '::t.display) = .ok t :=
  BitTime.fromStr_text (List.cons_ne_nil _ _) (fun _ hc => isAsciiWhitespace_of_isDigit (BitTimeZoneOffset.mem_display hc))
    (BitTimeZoneOffset.fromStr_display ht)

/-- What the format of a signature relies on: the name and the email keep clear of the brackets, and the hours of the
offset have two digits. -/
structure BitSignature.Plain (s : BitSignature) : Prop where
  name : '<' ∉ s.name ∧ '>' ∉ s.name
  email : '<' ∉ s.email ∧ '>' ∉ s.email
  offset : s.time.offset.offset.natAbs < 100*60

theorem BitSignature.fromStr_text {name email time : List Char} {t : BitTime} (hname : '<' ∉ name ∧ '>' ∉ name)
    (hemail : '>' ∉ email) (htime : BitTime.fromStr (' '::time) = .ok t) :
    BitSignature.fromStr (name++ ' ':: '<'::email++ '>':: ' '::time) = .ok ⟨name,email,t⟩ := by
  generalize htext : name++ ' ':: '<'::email++ '>':: ' '::time = text
  have hstart : text = (name++[' '])++ '<'::(email++ '>':: ' '::time) := by simp [← htext]
  have hend : text = (name++ ' ':: '<'::email)++ '>'::(' '::time) := htext.symm
  have hlt : text.idxOf? '<' = some (name++[' ']).length := by
    rw [hstart]
    exact idxOf?_append (by simpa using hname.1) _
  have hgt : text.idxOf? '>' = some (name++ ' ':: '<'::email).length := by
    rw [hend]
    exact idxOf?_append (by simpa using ⟨hname.2,hemail⟩) _
  have hbefore : dropLastByte (text.take (name++[' ']).length) = some name := by
    rw [hstart,List.take_left' rfl,dropLastByte,List.getLast?_concat,List.dropLast_concat]
    rfl
  have hbetween : (text.take (name++ ' ':: '<'::email).length).drop ((name++[' ']).length+1) = email := by
    have hopen : name++ ' ':: '<'::email = (name++[' ','<'])++email := by simp
    rw [hend,List.take_left' rfl,hopen]
    exact List.drop_left' (by simp)
  have hafter : text.drop ((name++ ' ':: '<'::email).length+1) = ' '::time := by
    have hclose : text = (name++ ' ':: '<'::email++['>'])++ ' '::time := by simp [← htext]
    rw [hclose]
    exact List.drop_left' (by simp; omega)
  have hlength : (name++[' ']).length < (name++ ' ':: '<'::email).length := by simp
  simp only [BitSignature.fromStr,hlt,hgt,unwrap,bind,Except.bind]
  simp only [hbefore,hbetween,hafter,if_pos hlength,htime]

theorem BitSignature.fromStr_display {s : BitSignature} (hs : s.Plain) : BitSignature.fromStr s.display = .ok s :=
  BitSignature.fromStr_text hs.name hs.email.2 (BitTime.fromStr_display hs.offset)

end CommitFormat
end Libbit
