import Libbit.Lib.Codec

/-! Hexadecimal text: bytes are written with lower-case digits and read with digits of either case. -/
namespace Libbit
namespace Lib

section Digits
variable {c : Char} {m n : ℕ}

/-- The value of a hexadecimal digit of either case. -/
def hexValue (c : Char) : Option ℕ := (List.range 16).find? fun n => Nat.digitChar n = c.toLower

theorem digitChar_inj (hm : m < 16) (hn : n < 16) (h : Nat.digitChar m = Nat.digitChar n) : m = n := by
  have hall : ∀ m < 16, ∀ n < 16, Nat.digitChar m = Nat.digitChar n → m = n := by decide
  exact hall m hm n hn h

theorem digitChar_lt (hm : m < 16) (hn : n < 16) : Nat.digitChar m < Nat.digitChar n ↔ m < n := by
  have hall : ∀ m < 16, ∀ n < 16, (Nat.digitChar m < Nat.digitChar n ↔ m < n) := by decide
  exact hall m hm n hn

theorem toLower_digitChar (hn : n < 16) : (Nat.digitChar n).toLower = Nat.digitChar n := by
  have hall : ∀ n < 16, (Nat.digitChar n).toLower = Nat.digitChar n := by decide
  exact hall n hn

theorem hexValue_eq_some : hexValue c = some n ↔ n < 16 ∧ Nat.digitChar n = c.toLower := by
  constructor
  · intro h
    exact ⟨List.mem_range.mp (List.mem_of_find?_eq_some h),by simpa using List.find?_some h⟩
  · rintro ⟨hn,hc⟩
    cases h : hexValue c with
    | none => exact absurd hc (by simpa using List.find?_eq_none.mp h n (List.mem_range.mpr hn))
    | some m =>
      have hm : Nat.digitChar m = c.toLower := by simpa using List.find?_some h
      rw [digitChar_inj (List.mem_range.mp (List.mem_of_find?_eq_some h)) hn (hm.trans hc.symm)]

theorem utf8Size_of_hexValue (h : hexValue c = some n) : c.utf8Size = 1 := by
  obtain ⟨hn,hc⟩ := hexValue_eq_some.mp h
  rw [Char.utf8Size_eq_one_iff]
  by_cases hupper : c.val ≥ 'A'.val ∧ c.val ≤ 'Z'.val
  · exact UInt32.le_trans hupper.2 (by decide)
  · rw [Char.toLower,dif_neg hupper] at hc
    have hall : ∀ n < 16, (Nat.digitChar n).val ≤ 127 := by decide
    exact hc ▸ hall n hn

theorem hexValue_digitChar (hn : n < 16) : hexValue (Nat.digitChar n) = some n :=
  hexValue_eq_some.mpr ⟨hn,(toLower_digitChar hn).symm⟩

end Digits

section Text
variable {bs bs' : List (Fin 256)} {cs : List Char}

def hexOfByte (b : Fin 256) : List Char := [Nat.digitChar (b.val/16),Nat.digitChar (b.val%16)]

def toHex (bs : List (Fin 256)) : List Char := bs.flatMap hexOfByte

def fromHex : List Char → Option (List (Fin 256))
  | [] => some []
  | [_] => none
  | c::d::cs => do
    let high ← hexValue c
    let low ← hexValue d
    let bs ← fromHex cs
    pure (Fin.ofNat 256 (high*16+low)::bs)

theorem length_toHex (bs : List (Fin 256)) : (toHex bs).length = 2*bs.length :=
  length_flatMap_const (fun b => show (hexOfByte b).length = 2 from rfl) bs

/-- What is written for the bytes that are read is the text in lower case. -/
theorem fromHex_eq_some : fromHex cs = some bs ↔ toHex bs = cs.map Char.toLower := by
  induction cs using fromHex.induct generalizing bs with
  | case1 => cases bs <;> simp [fromHex,toHex,hexOfByte]
  | case2 c =>
    refine iff_of_false (by simp [fromHex]) fun h => ?_
    have hlen := congrArg List.length h
    rw [length_toHex,List.length_map,List.length_singleton] at hlen
    omega
  | case3 c d cs ih =>
    simp only [fromHex,Option.bind_eq_bind,Option.bind_eq_some_iff,hexValue_eq_some,ih,Option.pure_def,Option.some.injEq,
      List.map_cons]
    constructor
    · rintro ⟨high,⟨hhigh,hc⟩,low,⟨hlow,hd⟩,rest,hrest,rfl⟩
      have hval : (Fin.ofNat 256 (high*16+low)).val = high*16+low := Nat.mod_eq_of_lt (by omega)
      have hdiv : (high*16+low)/16 = high := by omega
      have hmod : (high*16+low)%16 = low := by omega
      rw [toHex,List.flatMap_cons,hexOfByte,hval,hdiv,hmod,hc,hd,← toHex,hrest]
      rfl
    · intro h
      cases bs with
      | nil => cases h
      | cons b bs =>
        obtain ⟨hc,hd,hrest⟩ : Nat.digitChar (b.val/16) = c.toLower ∧ Nat.digitChar (b.val%16) = d.toLower ∧
            toHex bs = cs.map Char.toLower := by simpa [toHex,hexOfByte] using h
        have hb := b.isLt
        refine ⟨b.val/16,⟨by omega,hc⟩,b.val%16,⟨by omega,hd⟩,bs,hrest,?_⟩
        rw [show b.val/16*16+b.val%16 = b.val by omega]
        exact congrArg (· :: bs) (Fin.ext (Nat.mod_eq_of_lt hb))

theorem toLower_toHex (bs : List (Fin 256)) : (toHex bs).map Char.toLower = toHex bs := by
  induction bs with
  | nil => rfl
  | cons b bs ih =>
    have hb := b.isLt
    rw [toHex,List.flatMap_cons,List.map_append,← toHex,ih,hexOfByte,List.map_cons,List.map_singleton,
      toLower_digitChar (by omega),toLower_digitChar (by omega)]

theorem fromHex_toHex (bs : List (Fin 256)) : fromHex (toHex bs) = some bs := fromHex_eq_some.mpr (toLower_toHex bs).symm

theorem exists_of_mem_toHex {c : Char} (h : c ∈ toHex bs) : ∃ n < 16, c = Nat.digitChar n := by
  obtain ⟨b,-,hc⟩ := List.mem_flatMap.mp h
  have hb := b.isLt
  rcases List.mem_cons.mp hc with rfl | hc
  · exact ⟨b.val/16,by omega,rfl⟩
  · exact ⟨b.val%16,by omega,List.mem_singleton.mp hc⟩

/-- Digits in pairs are read. -/
theorem exists_fromHex (hcs : ∀ c ∈ cs, (hexValue c).isSome) (heven : cs.length%2 = 0) : ∃ bs, fromHex cs = some bs := by
  induction cs using fromHex.induct with
  | case1 => exact ⟨[],rfl⟩
  | case2 c => cases heven
  | case3 c d cs ih =>
    obtain ⟨high,hhigh⟩ := Option.isSome_iff_exists.mp (hcs c (by simp))
    obtain ⟨low,hlow⟩ := Option.isSome_iff_exists.mp (hcs d (by simp))
    obtain ⟨bs,hbs⟩ := ih (fun c hc => hcs c (by simp [hc])) (by simp only [List.length_cons] at heven; omega)
    exact ⟨Fin.ofNat 256 (high*16+low)::bs,by rw [fromHex,hhigh,hlow,hbs]; rfl⟩

theorem toHex_injective : Function.Injective toHex := by
  intro bs bs' h
  exact Option.some.inj ((fromHex_toHex bs).symm.trans ((congrArg fromHex h).trans (fromHex_toHex bs')))

theorem hexOfByte_lt {a b : Fin 256} (h : a < b) (s t : List Char) : hexOfByte a++s < hexOfByte b++t := by
  have ha := a.isLt
  have hb := b.isLt
  have hlt : a.val < b.val := h
  simp only [hexOfByte,List.cons_append,List.nil_append,List.cons_lt_cons_iff]
  rcases Nat.lt_or_ge (a.val/16) (b.val/16) with hdiv | hdiv
  · exact Or.inl ((digitChar_lt (by omega) (by omega)).mpr hdiv)
  · have heq : a.val/16 = b.val/16 := by omega
    exact Or.inr ⟨by rw [heq],Or.inl ((digitChar_lt (by omega) (by omega)).mpr (by omega))⟩

/-- The order of the texts is that of the bytes. -/
theorem toHex_strictMono : StrictMono toHex := by
  intro bs
  induction bs with
  | nil =>
    intro bs' h
    cases bs' with
    | nil => exact absurd h (lt_irrefl _)
    | cons b bs' => exact List.nil_lt_cons _ _
  | cons b bs ih =>
    intro bs' h
    cases bs' with
    | nil => exact absurd h (List.not_lt_nil _)
    | cons b' bs' =>
      rcases List.cons_lt_cons_iff.mp h with hb | ⟨rfl,hbs⟩
      · exact hexOfByte_lt hb _ _
      · exact List.append_left_lt (ih hbs)

theorem take_toHex (bs : List (Fin 256)) (n : ℕ) : (toHex bs).take (2*n) = toHex (bs.take n) := by
  induction bs generalizing n with
  | nil => simp [toHex]
  | cons b bs ih =>
    cases n with
    | zero => rfl
    | succ n =>
      have hmul : 2*(n+1) = (2*n+1)+1 := by ring
      rw [hmul,List.take_succ_cons,toHex,toHex,List.flatMap_cons,List.flatMap_cons,hexOfByte,List.cons_append,
        List.cons_append,List.take_succ_cons,List.take_succ_cons,List.nil_append,← toHex,← toHex,ih]
      rfl

theorem getElem?_toHex {b : Fin 256} {n : ℕ} (h : bs[n]? = some b) :
    (toHex bs)[2*n]? = some (Nat.digitChar (b.val/16)) ∧ (toHex bs)[2*n+1]? = some (Nat.digitChar (b.val%16)) := by
  induction bs generalizing n with
  | nil => cases h
  | cons a bs ih =>
    have htext : toHex (a::bs) = Nat.digitChar (a.val/16)::Nat.digitChar (a.val%16)::toHex bs := rfl
    cases n with
    | zero =>
      obtain rfl : a = b := by simpa using h
      exact ⟨rfl,rfl⟩
    | succ n =>
      rw [htext]
      exact ih (by simpa using h)

end Text
end Lib
end Libbit
