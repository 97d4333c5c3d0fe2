import Libbit.Lib.Codec

/-! Numbers in ASCII in a base up to sixteen, with small letters for the digits from ten on. A reader takes
capital letters too, and a plus sign. -/
namespace Libbit
namespace Lib
namespace Radix

variable {b d m n : ℕ} {c : Fin 256} {cs : List (Fin 256)}

def digitByte (d : ℕ) : Fin 256 := Fin.ofNat 256 (Nat.digitChar d).toNat

/-- `char::to_digit` -/
def toDigit (b : ℕ) (c : Fin 256) : Option ℕ :=
  (List.range b).find? fun d => c = digitByte d ∨ c = Fin.ofNat 256 (Nat.digitChar d).toUpper.toNat

def text (b n : ℕ) : List (Fin 256) := (Nat.toDigits b n).map fun c => Fin.ofNat 256 c.toNat

/-- One more digit. -/
def pushDigit (b n : ℕ) (c : Fin 256) : Option ℕ := (toDigit b c).map (b*n+·)

/-- `from_str_radix` of an unsigned type without its bound. -/
def parse (b : ℕ) (cs : List (Fin 256)) : Option ℕ :=
  let digits := if cs.head? = some 43 then cs.tail else cs
  if digits = [] then none else digits.foldlM (pushDigit b) 0

theorem toDigit_digitByte (hd : d < b) (hb : b ≤ 16) : toDigit b (digitByte d) = some d := by
  have hall : ∀ b ≤ 16, ∀ d < b, toDigit b (digitByte d) = some d := by decide +kernel
  exact hall b hb d hd

theorem digitByte_ne_plus (hd : d < 16) : digitByte d ≠ 43 := by
  have hall : ∀ d < 16, digitByte d ≠ 43 := by decide
  exact hall d hd

theorem pushDigit_digitByte (hd : d < b) (hb : b ≤ 16) (n : ℕ) : pushDigit b n (digitByte d) = some (b*n+d) := by
  rw [pushDigit,toDigit_digitByte hd hb,Option.map_some]

theorem text_of_lt (h : n < b) : text b n = [digitByte n] := by
  rw [text,Nat.toDigits_of_lt_base h]
  rfl

theorem text_of_le (hb : 1 < b) (h : b ≤ n) : text b n = text b (n/b)++[digitByte (n%b)] := by
  rw [text,Nat.toDigits_of_base_le hb h,List.map_append]
  rfl

theorem text_ne_nil (b n : ℕ) : text b n ≠ [] := by simp [text]

theorem exists_of_mem_text (hb : 1 < b) (h : c ∈ text b n) : ∃ d < b, c = digitByte d := by
  induction n using Nat.strongRecOn with
  | _ n ih =>
    rcases Nat.lt_or_ge n b with hn | hn
    · rw [text_of_lt hn,List.mem_singleton] at h
      exact ⟨n,hn,h⟩
    · rw [text_of_le hb hn,List.mem_append,List.mem_singleton] at h
      rcases h with h | rfl
      · exact ih (n/b) (Nat.div_lt_self (by omega) hb) h
      · exact ⟨n%b,Nat.mod_lt n (by omega),rfl⟩

theorem foldlM_text (hb : 1 < b) (hb' : b ≤ 16) (n : ℕ) : (text b n).foldlM (pushDigit b) 0 = some n := by
  induction n using Nat.strongRecOn with
  | _ n ih =>
    rcases Nat.lt_or_ge n b with hn | hn
    · rw [text_of_lt hn,List.foldlM_cons,pushDigit_digitByte hn hb']
      simp
    · rw [text_of_le hb hn,List.foldlM_append,ih (n/b) (Nat.div_lt_self (by omega) hb),Option.bind_eq_bind,
        Option.bind_some,List.foldlM_cons,pushDigit_digitByte (Nat.mod_lt n (by omega)) hb',Nat.div_add_mod]
      rfl

theorem foldlM_zeros (hb : 1 < b) (hb' : b ≤ 16) (k : ℕ) (cs : List (Fin 256)) :
    (List.replicate k 48++cs).foldlM (pushDigit b) 0 = cs.foldlM (pushDigit b) 0 := by
  induction k with
  | zero => rfl
  | succ k ih =>
    have hzero : pushDigit b 0 48 = some 0 := by
      have h := pushDigit_digitByte (show 0 < b by omega) hb' 0
      rwa [Nat.mul_zero] at h
    rw [List.replicate_succ,List.cons_append,List.foldlM_cons,hzero,Option.bind_eq_bind,Option.bind_some,ih]

/-- A number padded with zeros is read back. -/
theorem parse_padded (hb : 1 < b) (hb' : b ≤ 16) (k n : ℕ) : parse b (List.replicate k 48++text b n) = some n := by
  have hplus : (List.replicate k 48++text b n).head? ≠ some 43 := by
    intro h
    rcases List.mem_append.mp (List.mem_of_mem_head? h) with h | h
    · exact absurd (List.eq_of_mem_replicate h) (by decide)
    · obtain ⟨d,hd,hc⟩ := exists_of_mem_text hb h
      exact digitByte_ne_plus (by omega) hc.symm
  rw [parse,if_neg hplus,if_neg (by simp [text_ne_nil]),foldlM_zeros hb hb',foldlM_text hb hb']

theorem parse_text (hb : 1 < b) (hb' : b ≤ 16) (n : ℕ) : parse b (text b n) = some n := parse_padded hb hb' 0 n

/-- The value of digits. -/
def value (b : ℕ) (ds : List ℕ) : ℕ := ds.foldl (fun n d => b*n+d) 0

/-- Without leading zeros there is one way to write a number. -/
theorem text_value (hb : 1 < b) {ds : List ℕ} (hds : ∀ d ∈ ds, d < b) (hne : ds ≠ []) (hhead : ds.head? ≠ some 0) :
    text b (value b ds) = ds.map digitByte ∧ value b ds ≠ 0 := by
  induction ds using List.reverseRecOn with
  | nil => exact absurd rfl hne
  | append_singleton ds d ih =>
    have hd : d < b := hds d (by simp)
    have hval : value b (ds++[d]) = b*value b ds+d := by rw [value,List.foldl_append]; rfl
    rw [hval]
    rcases eq_or_ne ds [] with rfl | hds'
    · have hd0 : d ≠ 0 := by simpa using hhead
      rw [show b*value b []+d = d by rw [value,List.foldl_nil,Nat.mul_zero,Nat.zero_add],text_of_lt hd]
      exact ⟨rfl,hd0⟩
    · obtain ⟨x,xs,rfl⟩ := List.exists_cons_of_ne_nil hds'
      obtain ⟨htext,hne0⟩ := ih (fun d hd => hds d (List.mem_append_left _ hd)) hds' hhead
      have hle : b ≤ b*value b (x::xs)+d :=
        (Nat.le_mul_of_pos_right b (Nat.pos_of_ne_zero hne0)).trans (Nat.le_add_right _ d)
      have hdiv : (b*value b (x::xs)+d)/b = value b (x::xs) := by
        rw [Nat.mul_add_div (by omega),Nat.div_eq_of_lt hd,Nat.add_zero]
      have hmod : (b*value b (x::xs)+d)%b = d := by rw [Nat.mul_add_mod,Nat.mod_eq_of_lt hd]
      rw [text_of_le hb hle,hdiv,hmod,htext,List.map_append]
      exact ⟨rfl,by omega⟩

/-! ### Digits of both cases -/

theorem toDigit_lt (h : toDigit b c = some d) : d < b := List.mem_range.mp (List.mem_of_find?_eq_some h)

theorem foldlM_cons_eq_some {m : ℕ} (h : (c::cs).foldlM (pushDigit b) m = some n) :
    ∃ d, toDigit b c = some d ∧ cs.foldlM (pushDigit b) (b*m+d) = some n := by
  rw [List.foldlM_cons,Option.bind_eq_bind,Option.bind_eq_some_iff] at h
  obtain ⟨k,hk,h⟩ := h
  obtain ⟨d,hd,rfl⟩ := Option.map_eq_some_iff.mp hk
  exact ⟨d,hd,h⟩

theorem toDigit_of_mem {m : ℕ} (h : cs.foldlM (pushDigit b) m = some n) (hc : c ∈ cs) : ∃ d, toDigit b c = some d := by
  induction cs generalizing m with
  | nil => cases hc
  | cons c' cs ih =>
    obtain ⟨d,hd,h⟩ := foldlM_cons_eq_some h
    rcases List.mem_cons.mp hc with rfl | hc
    · exact ⟨d,hd⟩
    · exact ih h hc

theorem foldlM_lt {m : ℕ} (h : cs.foldlM (pushDigit b) m = some n) : n < (m+1)*b^cs.length := by
  induction cs generalizing m with
  | nil =>
    cases h
    simp
  | cons c cs ih =>
    obtain ⟨d,hd,h⟩ := foldlM_cons_eq_some h
    calc n
      _ < (b*m+d+1)*b^cs.length := ih h
      _ ≤ ((m+1)*b)*b^cs.length := by
        apply Nat.mul_le_mul_right
        have hlt := toDigit_lt hd
        rw [Nat.add_mul,Nat.one_mul,Nat.mul_comm m b]
        omega
      _ = (m+1)*b^(c::cs).length := by
        rw [List.length_cons,pow_succ]
        ring

theorem toDigit_plus (hb : b ≤ 16) : toDigit b 43 = none := by
  have hall : ∀ b ≤ 16, toDigit b 43 = none := by decide
  exact hall b hb

/-- What is read of digits. -/
theorem parse_digits (hb : b ≤ 16) (hne : cs ≠ []) (h : cs.foldlM (pushDigit b) 0 = some n) : parse b cs = some n := by
  have hplus : cs.head? ≠ some 43 := by
    intro hhead
    obtain ⟨d,hd⟩ := toDigit_of_mem h (List.mem_of_mem_head? hhead)
    rw [toDigit_plus hb] at hd
    cases hd
  rw [parse,if_neg hplus,if_neg hne,h]

end Radix
end Lib
end Libbit
