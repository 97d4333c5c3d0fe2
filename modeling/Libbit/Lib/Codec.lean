import Mathlib

/-! Readers of a list of symbols. `Decodes` says what a reader returns on the text of a value, no matter
what follows; its rules go along the way a reader is put together. `Yields` is what holds of every value
that a reader returns. Numbers are written big endian, or in decimal. -/
namespace Libbit
namespace Lib

/-- The numerals of a byte share this one instance. -/
instance instNeZeroByte : NeZero 256 := ⟨by decide⟩

abbrev Reader (β ε : Type) := StateT (List β) (Except ε)

/-- Go on only if the condition holds. -/
def ensure {ε : Type} (e : ε) (c : Prop) [Decidable c] : Except ε Unit := if c then .ok () else .error e

theorem ensure_eq_ok {ε : Type} {e : ε} {c : Prop} [Decidable c] {u : Unit} : ensure e c = .ok u ↔ c := by
  unfold ensure
  split <;> simp_all

theorem except_bind_eq_ok {ε α γ : Type} {x : Except ε α} {f : α → Except ε γ} {c : γ} :
    x >>= f = .ok c ↔ ∃ a, x = .ok a ∧ f a = .ok c := by
  cases x with
  | ok a => exact ⟨fun h => ⟨a,rfl,h⟩,fun ⟨_,ha,h⟩ => Except.ok.inj ha ▸ h⟩
  | error e => exact ⟨fun h => (nomatch h),fun ⟨_,ha,_⟩ => (nomatch ha)⟩

theorem mapError_eq_ok {ε ε' α : Type} {f : ε → ε'} {r : Except ε α} {a : α} : r.mapError f = .ok a ↔ r = .ok a := by
  cases r <;> simp [Except.mapError]

theorem mem_of_mapM {α β ε : Type} {f : α → Except ε β} {l : List α} {m : List β} (h : l.mapM f = .ok m) {b : β} (hb : b ∈ m) :
    ∃ a ∈ l, f a = .ok b := by
  induction l generalizing m with
  | nil =>
    cases h
    cases hb
  | cons a l ih =>
    rw [List.mapM_cons] at h
    obtain ⟨c,hc,h⟩ := except_bind_eq_ok.mp h
    obtain ⟨cs,hcs,h⟩ := except_bind_eq_ok.mp h
    cases h
    rcases List.mem_cons.mp hb with rfl | hb
    · exact ⟨a,List.mem_cons_self,hc⟩
    · obtain ⟨x,hx,hfx⟩ := ih hcs hb
      exact ⟨x,List.mem_cons_of_mem a hx,hfx⟩

theorem foldlM_mono {α β ε : Type} {f g : β → α → Except ε β} (h : ∀ b a c, f b a = .ok c → g b a = .ok c)
    {l : List α} {b c : β} (hf : l.foldlM f b = .ok c) : l.foldlM g b = .ok c := by
  induction l generalizing b with
  | nil => exact hf
  | cons a l ih =>
    rw [List.foldlM_cons] at hf ⊢
    obtain ⟨x,hx,hf⟩ := except_bind_eq_ok.mp hf
    rw [h b a x hx]
    exact ih hf

/-- What every step keeps holds at the end. -/
theorem foldlM_keeps {α β ε : Type} {f : β → α → Except ε β} {P : β → Prop} (h : ∀ b a c, P b → f b a = .ok c → P c)
    {l : List α} {b c : β} (hb : P b) (hf : l.foldlM f b = .ok c) : P c := by
  induction l generalizing b with
  | nil =>
    cases hf
    exact hb
  | cons a l ih =>
    rw [List.foldlM_cons] at hf
    obtain ⟨x,hx,hf⟩ := except_bind_eq_ok.mp hf
    exact ih (h b a x hb hx) hf

theorem except_bind_eq_error {ε α γ : Type} {x : Except ε α} {f : α → Except ε γ} {e : ε} :
    x >>= f = .error e ↔ x = .error e ∨ ∃ a, x = .ok a ∧ f a = .error e := by
  cases x with
  | ok a => simp [bind,Except.bind]
  | error e' => simp [bind,Except.bind]

theorem mapM_map_ok {ε α γ : Type} {f : α → γ} {g : γ → Except ε α} {l : List α} (h : ∀ a ∈ l, g (f a) = .ok a) :
    (l.map f).mapM g = .ok l := by
  induction l with
  | nil => rfl
  | cons a l ih =>
    rw [List.map_cons,List.mapM_cons,h a List.mem_cons_self,ih fun b hb => h b (List.mem_cons_of_mem a hb)]
    rfl

theorem length_of_mapM {ε α γ : Type} {f : α → Except ε γ} {l : List α} {m : List γ} (h : l.mapM f = .ok m) :
    m.length = l.length := by
  induction l generalizing m with
  | nil =>
    cases h
    rfl
  | cons a l ih =>
    rw [List.mapM_cons] at h
    obtain ⟨b,-,h⟩ := except_bind_eq_ok.mp h
    obtain ⟨bs,hbs,h⟩ := except_bind_eq_ok.mp h
    cases h
    rw [List.length_cons,ih hbs,List.length_cons]

theorem exists_mapM {ε α γ : Type} {f : α → Except ε γ} {l : List α} (h : ∀ a ∈ l, ∃ c, f a = .ok c) :
    ∃ m, l.mapM f = .ok m := by
  induction l with
  | nil => exact ⟨[],rfl⟩
  | cons a l ih =>
    obtain ⟨c,hc⟩ := h a List.mem_cons_self
    obtain ⟨m,hm⟩ := ih fun b hb => h b (List.mem_cons_of_mem a hb)
    rw [List.mapM_cons,hc,hm]
    exact ⟨c::m,rfl⟩

theorem mapM_eq_ok_some {ε α γ : Type} {o : Option α} {f : α → Except ε γ} {c : γ} (h : o.mapM f = .ok (some c)) :
    ∃ a, o = some a ∧ f a = .ok c := by
  cases o with
  | none => cases h
  | some a =>
    rw [Option.mapM_some,map_eq_pure_bind,except_bind_eq_ok] at h
    obtain ⟨b,hb,h⟩ := h
    cases h
    exact ⟨a,rfl,hb⟩

namespace Reader
variable {β ε α γ : Type}

/-- The symbols up to and with the first `sep`, or all there are. -/
def splitAfter [DecidableEq β] (sep : β) : List β → List β × List β
  | [] => ([],[])
  | b::bs => if b = sep then ([b],bs) else let r := splitAfter sep bs; (b::r.1,r.2)

/-- As many symbols as are asked for. -/
def readExact (eof : ε) (n : ℕ) : Reader β ε (List β) := fun bs =>
  if n ≤ bs.length then .ok (bs.take n,bs.drop n) else .error eof

def readUntil [DecidableEq β] (sep : β) : Reader β ε (List β) := fun bs => .ok (splitAfter sep bs)

/-- All there is. -/
def readToEnd : Reader β ε (List β) := fun bs => .ok (bs,[])

def require (e : ε) (c : Prop) [Decidable c] : Reader β ε Unit := if c then pure () else throw e

/-- A value that may be missing. -/
def orFail (e : ε) : Option α → Reader β ε α
  | some a => pure a
  | none => throw e

def times (p : Reader β ε α) : ℕ → Reader β ε (List α)
  | 0 => pure []
  | n+1 => do
    let a ← p
    let as ← times p n
    pure (a::as)

/-- As many as there are up to the end. The fuel is the number of rounds. -/
def toEnd (p : Reader β ε α) (outOfFuel : ε) : ℕ → Reader β ε (List α)
  | 0 => throw outOfFuel
  | n+1 => do
    let rest ← get
    if rest.isEmpty then pure []
    else
      let a ← p
      let as ← toEnd p outOfFuel n
      pure (a::as)

/-- What a sequence of two readers did. -/
theorem bind_eq_ok {p : Reader β ε α} {f : α → Reader β ε γ} {bs rest : List β} {c : γ}
    (h : (p >>= f).run bs = .ok (c,rest)) : ∃ a mid, p.run bs = .ok (a,mid) ∧ (f a).run mid = .ok (c,rest) := by
  rw [StateT.run_bind] at h
  cases hp : p.run bs with
  | error e =>
    rw [hp] at h
    cases h
  | ok r =>
    rw [hp] at h
    exact ⟨r.1,r.2,rfl,h⟩

theorem splitAfter_append [DecidableEq β] (sep : β) (bs : List β) : (splitAfter sep bs).1++(splitAfter sep bs).2 = bs := by
  induction bs with
  | nil => rfl
  | cons b bs ih => by_cases hb : b = sep <;> simp [splitAfter,hb,ih]

theorem splitAfter_of_notMem [DecidableEq β] {sep : β} {bs : List β} (h : sep ∉ bs) (rest : List β) :
    splitAfter sep (bs++sep::rest) = (bs++[sep],rest) := by
  induction bs with
  | nil => simp [splitAfter]
  | cons b bs ih =>
    obtain ⟨hb,hbs⟩ : sep ≠ b ∧ sep ∉ bs := by simpa using h
    simp [splitAfter,hb.symm,ih hbs]

theorem readExact_eq_ok {eof : ε} {n : ℕ} {bs a rest : List β} :
    (readExact eof n : Reader β ε (List β)).run bs = .ok (a,rest) ↔ bs = a++rest ∧ a.length = n := by
  change (if n ≤ bs.length then (.ok (bs.take n,bs.drop n) : Except ε _) else .error eof) = _ ↔ _
  split
  · rename_i h
    simp only [Except.ok.injEq,Prod.mk.injEq]
    constructor
    · rintro ⟨rfl,rfl⟩
      exact ⟨(List.take_append_drop n bs).symm,by simp [h]⟩
    · rintro ⟨rfl,rfl⟩
      simp
  · rename_i h
    simp only [reduceCtorEq,false_iff,not_and]
    rintro rfl hl
    simp [hl] at h

theorem readUntil_eq_ok [DecidableEq β] {sep : β} {bs a rest : List β}
    (h : (readUntil sep : Reader β ε (List β)).run bs = .ok (a,rest)) : bs = a++rest := by
  have hs := splitAfter_append sep bs
  simp only [readUntil,StateT.run,Except.ok.injEq] at h
  rw [h] at hs
  exact hs.symm

theorem require_eq_ok {e : ε} {c : Prop} [Decidable c] {u : Unit} {bs rest : List β}
    (h : (require e c : Reader β ε Unit).run bs = .ok (u,rest)) : c ∧ rest = bs := by
  unfold require at h
  split at h
  · rename_i hc
    cases h
    exact ⟨hc,rfl⟩
  · cases h

theorem orFail_eq_ok {e : ε} {o : Option α} {a : α} {bs rest : List β}
    (h : (orFail e o : Reader β ε α).run bs = .ok (a,rest)) : o = some a ∧ rest = bs := by
  cases o with
  | none => cases h
  | some b =>
    cases h
    exact ⟨rfl,rfl⟩

theorem pure_eq_ok {a b : α} {bs rest : List β} (h : (pure a : Reader β ε α).run bs = .ok (b,rest)) : b = a ∧ rest = bs := by
  cases h
  exact ⟨rfl,rfl⟩

end Reader

open Reader
variable {β ε α γ : Type}

/-- On `bs` the outcome of the reader is `r`, and what follows is left. -/
def Runs (p : Reader β ε α) (bs : List β) (r : Except ε α) : Prop := ∀ rest, p.run (bs++rest) = r.map fun a => (a,rest)

abbrev Decodes (p : Reader β ε α) (bs : List β) (a : α) : Prop := Runs p bs (.ok a)

abbrev Fails (p : Reader β ε α) (bs : List β) (e : ε) : Prop := Runs p bs (.error e)

theorem Fails.bind {p : Reader β ε α} {bs : List β} {e : ε} (hp : Fails p bs e) (f : α → Reader β ε γ) (cs : List β) :
    Fails (p >>= f) (bs++cs) e := by
  intro rest
  rw [List.append_assoc,StateT.run_bind,hp (cs++rest)]
  rfl

theorem Fails.throw (e : ε) : Fails (MonadExcept.throw e : Reader β ε α) [] e := fun _ => rfl

namespace Decodes
variable {p : Reader β ε α} {f : α → Reader β ε γ} {bs cs : List β} {a : α} {c : γ} {r : Except ε γ}

theorem run (h : Decodes p bs a) (rest : List β) : p.run (bs++rest) = .ok (a,rest) := h rest

theorem pure (a : α) : Decodes (Pure.pure a : Reader β ε α) [] a := fun _ => rfl

theorem bind (hp : Decodes p bs a) (hf : Runs (f a) cs r) : Runs (p >>= f) (bs++cs) r := by
  intro rest
  rw [List.append_assoc,StateT.run_bind,hp (cs++rest)]
  exact hf rest

/-- A reader that reads nothing comes first. -/
theorem andThen (hp : Decodes p [] a) (hf : Runs (f a) cs r) : Runs (p >>= f) cs r := hp.bind hf

/-- A reader that reads nothing comes last. -/
theorem bindPure (hp : Decodes p bs a) (hf : Runs (f a) [] r) : Runs (p >>= f) bs r := by
  simpa using hp.bind hf

theorem readExact {eof : ε} {n : ℕ} (h : bs.length = n) : Decodes (readExact eof n) bs bs :=
  fun _ => readExact_eq_ok.mpr ⟨rfl,h⟩

theorem readUntil [DecidableEq β] {sep : β} (h : sep ∉ bs) :
    Decodes (Reader.readUntil sep : Reader β ε (List β)) (bs++[sep]) (bs++[sep]) := by
  intro rest
  simp [Reader.readUntil,StateT.run,splitAfter_of_notMem h,Except.map]

theorem require {e : ε} {c : Prop} [Decidable c] (h : c) : Decodes (require e c : Reader β ε Unit) [] () := by
  unfold Reader.require
  rw [if_pos h]
  exact Decodes.pure ()

theorem orFail {e : ε} {o : Option α} (h : o = some a) : Decodes (orFail e o : Reader β ε α) [] a := by
  subst h
  exact Decodes.pure a

end Decodes

theorem Fails.require {e : ε} {c : Prop} [Decidable c] (h : ¬c) : Fails (require e c : Reader β ε Unit) [] e := by
  unfold Reader.require
  rw [if_neg h]
  exact Fails.throw e

/-- One bad value spoils the sequence. -/
theorem Runs.times {p : Reader β ε α} {text : α → List β} {good : α → Prop} [DecidablePred good] {e : ε} {as : List α}
    (h : ∀ a ∈ as, Runs p (text a) (if good a then .ok a else .error e)) :
    Runs (times p as.length) (as.flatMap text) (if ∀ a ∈ as, good a then .ok as else .error e) := by
  induction as with
  | nil => exact Decodes.pure []
  | cons a as ih =>
    have ha := h a List.mem_cons_self
    by_cases hgood : good a
    · rw [if_pos hgood] at ha
      have has := ih fun b hb => h b (List.mem_cons_of_mem a hb)
      by_cases hall : ∀ b ∈ as, good b
      · rw [if_pos hall] at has
        rw [if_pos (List.forall_mem_cons.mpr ⟨hgood,hall⟩)]
        exact Decodes.bind ha (Decodes.bindPure has (Decodes.pure _))
      · rw [if_neg hall] at has
        rw [if_neg fun hh => hall (List.forall_mem_cons.mp hh).2,List.flatMap_cons,← List.append_nil (as.flatMap text)]
        exact Decodes.bind ha (Fails.bind has _ [])
    · rw [if_neg hgood] at ha
      rw [if_neg fun hh => hgood (List.forall_mem_cons.mp hh).1]
      exact Fails.bind ha _ _

theorem Decodes.times {p : Reader β ε α} {text : α → List β} {as : List α} (h : ∀ a ∈ as, Decodes p (text a) a) :
    Decodes (times p as.length) (as.flatMap text) as := by
  induction as with
  | nil => exact Decodes.pure []
  | cons a as ih =>
    have ha := h a List.mem_cons_self
    have has := ih fun b hb => h b (List.mem_cons_of_mem a hb)
    exact ha.bind (has.bindPure (Decodes.pure (a::as)))

theorem toEnd_eq {p : Reader β ε α} {text : α → List β} {as : List α} (h : ∀ a ∈ as, Decodes p (text a) a)
    (hne : ∀ a ∈ as, text a ≠ []) (e : ε) {n : ℕ} (hn : as.length < n) :
    (toEnd p e n).run (as.flatMap text) = .ok (as,[]) := by
  induction as generalizing n with
  | nil =>
    obtain ⟨n,rfl⟩ := Nat.exists_eq_succ_of_ne_zero (Nat.ne_of_gt hn)
    rfl
  | cons a as ih =>
    obtain ⟨n,rfl⟩ := Nat.exists_eq_succ_of_ne_zero (Nat.ne_of_gt (Nat.zero_lt_of_lt hn))
    have hmore : ¬((a::as).flatMap text).isEmpty := by
      rw [List.isEmpty_iff,List.flatMap_cons,List.append_eq_nil_iff]
      exact fun h => hne a List.mem_cons_self h.1
    have hrest := ih (fun b hb => h b (List.mem_cons_of_mem a hb)) (fun b hb => hne b (List.mem_cons_of_mem a hb))
      (Nat.lt_of_succ_lt_succ hn)
    have hround : (toEnd p e (n+1)).run ((a::as).flatMap text) =
        (do let a ← p; let as ← toEnd p e n; pure (a::as) : Reader β ε (List α)).run ((a::as).flatMap text) :=
      congrFun (if_neg hmore) _
    rw [hround,List.flatMap_cons,StateT.run_bind,(h a List.mem_cons_self).run]
    change (toEnd p e n).run (as.flatMap text) >>= _ = _
    rw [hrest]
    rfl

theorem length_le_flatMap {text : α → List β} {as : List α} (hne : ∀ a ∈ as, text a ≠ []) :
    as.length ≤ (as.flatMap text).length := by
  rw [List.length_flatMap]
  refine (List.card_nsmul_le_sum _ 1 fun n hn => ?_).trans' (by simp)
  obtain ⟨a,ha,rfl⟩ := List.mem_map.mp hn
  exact List.length_pos_iff.mpr (hne a ha)

theorem length_flatMap_const {text : α → List β} {w : ℕ} (hw : ∀ a, (text a).length = w) (as : List α) :
    (as.flatMap text).length = w*as.length := by
  rw [List.length_flatMap,List.map_congr_left fun a _ => hw a,List.map_const',List.sum_replicate,smul_eq_mul,Nat.mul_comm]

/-- What is left from the record `i` on, when all records have one width. -/
theorem drop_flatMap {text : α → List β} {w : ℕ} (hw : ∀ a, (text a).length = w) {as : List α} {i : ℕ} (hi : i ≤ as.length)
    (before after : List β) :
    (before++as.flatMap text++after).drop (before.length+i*w) = (as.drop i).flatMap text++after := by
  rw [List.append_assoc,List.drop_length_add_append]
  induction as generalizing i with
  | nil =>
    obtain rfl : i = 0 := by simpa using hi
    simp
  | cons a as ih =>
    cases i with
    | zero => simp
    | succ i =>
      rw [List.flatMap_cons,List.append_assoc,show (i+1)*w = (text a).length+i*w by rw [hw]; ring,
        List.drop_length_add_append,List.drop_succ_cons,ih (by simpa using hi)]

/-- Whatever the reader returns has the property. -/
def Yields (p : Reader β ε α) (Q : α → Prop) : Prop := ∀ bs a rest, p.run bs = .ok (a,rest) → Q a

namespace Yields
variable {Q : α → Prop} {R : γ → Prop}

theorem pure {a : α} (h : Q a) : Yields (Pure.pure a : Reader β ε α) Q := by
  intro bs b rest hb
  rw [(pure_eq_ok hb).1]
  exact h

theorem bind {p : Reader β ε α} {f : α → Reader β ε γ} (h : ∀ a, Yields (f a) R) : Yields (p >>= f) R := by
  intro bs c rest hc
  obtain ⟨a,mid,-,hf⟩ := bind_eq_ok hc
  exact h a mid c rest hf

theorem bindYields {p : Reader β ε α} {f : α → Reader β ε γ} (hp : Yields p Q) (h : ∀ a, Q a → Yields (f a) R) :
    Yields (p >>= f) R := by
  intro bs c rest hc
  obtain ⟨a,mid,ha,hf⟩ := bind_eq_ok hc
  exact h a (hp bs a mid ha) mid c rest hf

theorem require {e : ε} {c : Prop} [Decidable c] : Yields (require e c : Reader β ε Unit) fun _ => c :=
  fun _ _ _ h => (require_eq_ok h).1

theorem times {p : Reader β ε α} (h : Yields p Q) (n : ℕ) :
    Yields (times p n) fun as => as.length = n ∧ ∀ a ∈ as, Q a := by
  induction n with
  | zero => exact Yields.pure ⟨rfl,by simp⟩
  | succ n ih =>
    refine h.bindYields fun a ha => ih.bindYields fun as has => Yields.pure ⟨by simp [has.1],?_⟩
    rintro b (_ | ⟨_,hb⟩)
    · exact ha
    · exact has.2 b hb

end Yields

/-! Big endian numbers of a fixed width. -/
section BigEndian
variable {b : ℕ} [NeZero b]

def bigEndian : ℕ → ℕ → List (Fin b)
  | 0, _ => []
  | k+1, n => Fin.ofNat b (n/b^k)::bigEndian k n

def ofBigEndian (bs : List (Fin b)) : ℕ := bs.foldl (fun n d => n*b+d.val) 0

@[simp] theorem length_bigEndian (k n : ℕ) : (bigEndian k n : List (Fin b)).length = k := by
  induction k <;> simp_all [bigEndian]

theorem foldl_bigEndian (k n m : ℕ) :
    (bigEndian k n : List (Fin b)).foldl (fun n d => n*b+d.val) m = m*b^k+n%b^k := by
  induction k generalizing m with
  | zero => simp [bigEndian,Nat.mod_one]
  | succ k ih =>
    have hmod : n%b^(k+1) = (n/b^k%b)*b^k+n%b^k := by
      rw [pow_succ,Nat.mod_mul,Nat.add_comm,Nat.mul_comm (b^k)]
    simp only [bigEndian,List.foldl_cons,ih,Fin.val_ofNat,hmod]
    ring

theorem ofBigEndian_bigEndian (k n : ℕ) : ofBigEndian (bigEndian k n : List (Fin b)) = n%b^k := by
  rw [ofBigEndian,foldl_bigEndian,Nat.zero_mul,Nat.zero_add]

end BigEndian

/-! Decimal numbers in ASCII. -/
section Decimal

def decimal (n : ℕ) : List (Fin 256) := (Nat.toDigits 10 n).map fun c => Fin.ofNat 256 c.toNat

def decimalInt : ℤ → List (Fin 256)
  | .ofNat n => decimal n
  | .negSucc n => 45::decimal (n+1)

def digit? (c : Fin 256) : Option ℕ := if 48 ≤ c.val ∧ c.val ≤ 57 then some (c.val-48) else none

/-- One more digit. -/
def pushDigit (n : ℕ) (c : Fin 256) : Option ℕ := (digit? c).map (10*n+·)

def parseDecimal? (bs : List (Fin 256)) : Option ℕ := if bs = [] then none else bs.foldlM pushDigit 0

/-- A sign, or none, then digits. -/
def parseInt? : List (Fin 256) → Option ℤ
  | 45::bs => (parseDecimal? bs).map fun n : ℕ => -(n : ℤ)
  | 43::bs => (parseDecimal? bs).map fun n : ℕ => (n : ℤ)
  | bs => (parseDecimal? bs).map fun n : ℕ => (n : ℤ)

theorem decimal_of_lt {n : ℕ} (h : n < 10) : decimal n = [Fin.ofNat 256 (48+n)] := by
  rw [decimal,Nat.toDigits_of_lt_base h,List.map_singleton,Nat.toNat_digitChar_of_lt_ten h]

theorem decimal_of_le {n : ℕ} (h : 10 ≤ n) : decimal n = decimal (n/10)++[Fin.ofNat 256 (48+n%10)] := by
  rw [decimal,Nat.toDigits_of_base_le (by omega) h,List.map_append,List.map_singleton,
    Nat.toNat_digitChar_of_lt_ten (Nat.mod_lt n (by omega))]
  rfl

theorem decimal_ne_nil (n : ℕ) : decimal n ≠ [] := by simp [decimal]

theorem pushDigit_digit {d : ℕ} (h : d < 10) (n : ℕ) : pushDigit n (Fin.ofNat 256 (48+d)) = some (10*n+d) := by
  have hval : (Fin.ofNat 256 (48+d)).val = 48+d := Nat.mod_eq_of_lt (by omega)
  have hdigit : digit? (Fin.ofNat 256 (48+d)) = some d := by
    rw [digit?,hval,if_pos ⟨by omega,by omega⟩,Nat.add_sub_cancel_left]
  rw [pushDigit,hdigit,Option.map_some]

/-- Every byte of a decimal is a digit. -/
theorem digit_of_mem_decimal {n : ℕ} {c : Fin 256} (h : c ∈ decimal n) : 48 ≤ c.val ∧ c.val ≤ 57 := by
  induction n using Nat.strongRecOn with
  | _ n ih =>
    have hd : ∀ d < 10, (Fin.ofNat 256 (48+d)).val = 48+d := fun d hd => Nat.mod_eq_of_lt (by omega)
    rcases Nat.lt_or_ge n 10 with hn | hn
    · rw [decimal_of_lt hn,List.mem_singleton] at h
      subst h
      rw [hd n hn]
      omega
    · rw [decimal_of_le hn,List.mem_append,List.mem_singleton] at h
      rcases h with h | rfl
      · exact ih (n/10) (by omega) h
      · rw [hd (n%10) (Nat.mod_lt n (by omega))]
        omega

theorem parseDecimal?_decimal (n : ℕ) : parseDecimal? (decimal n) = some n := by
  rw [parseDecimal?,if_neg (decimal_ne_nil n)]
  induction n using Nat.strongRecOn with
  | _ n ih =>
    rcases Nat.lt_or_ge n 10 with hn | hn
    · rw [decimal_of_lt hn,List.foldlM_cons,pushDigit_digit hn]
      simp
    · have hlast : pushDigit (n/10) (Fin.ofNat 256 (48+n%10)) = some n := by
        rw [pushDigit_digit (Nat.mod_lt n (by omega)),Nat.div_add_mod]
      rw [decimal_of_le hn,List.foldlM_append,ih (n/10) (by omega),Option.bind_eq_bind,Option.bind_some,
        List.foldlM_cons,hlast]
      rfl

theorem parseInt?_decimalInt (i : ℤ) : parseInt? (decimalInt i) = some i := by
  cases i with
  | negSucc n =>
    rw [decimalInt,parseInt?,parseDecimal?_decimal]
    rfl
  | ofNat n =>
    rw [decimalInt]
    unfold parseInt?
    split
    · rename_i bs h
      exact absurd (digit_of_mem_decimal (h ▸ List.mem_cons_self : (45 : Fin 256) ∈ decimal n)) (by decide)
    · rename_i bs h
      exact absurd (digit_of_mem_decimal (h ▸ List.mem_cons_self : (43 : Fin 256) ∈ decimal n)) (by decide)
    · rw [parseDecimal?_decimal]
      rfl

theorem length_decimal_le {n k : ℕ} (hk : 0 < k) (h : n < 10^k) : (decimal n).length ≤ k := by
  rw [decimal,List.length_map]
  exact (Nat.length_toDigits_le_iff (by omega) hk).mpr h

theorem lt_pow_length_decimal (n : ℕ) : n < 10^(decimal n).length := by
  rw [decimal,List.length_map]
  exact (Nat.length_toDigits_le_iff (by omega) Nat.length_toDigits_pos).mp le_rfl

theorem length_decimal_mono {m n : ℕ} (h : m ≤ n) : (decimal m).length ≤ (decimal n).length :=
  length_decimal_le (List.length_pos_iff.mpr (decimal_ne_nil n)) (h.trans_lt (lt_pow_length_decimal n))

theorem foldlM_pushDigit_lt {bs : List (Fin 256)} {m n : ℕ} (h : bs.foldlM pushDigit m = some n) :
    n < (m+1)*10^bs.length := by
  induction bs generalizing m with
  | nil =>
    cases h
    simp
  | cons c bs ih =>
    rw [List.foldlM_cons,Option.bind_eq_bind,Option.bind_eq_some_iff] at h
    obtain ⟨k,hk,h⟩ := h
    obtain ⟨d,hd,rfl⟩ := Option.map_eq_some_iff.mp hk
    have hd10 : d < 10 := by
      unfold digit? at hd
      split at hd
      · cases hd
        omega
      · cases hd
    calc n < (10*m+d+1)*10^bs.length := ih h
      _ ≤ ((m+1)*10)*10^bs.length := Nat.mul_le_mul_right _ (by omega)
      _ = (m+1)*10^(c::bs).length := by rw [List.length_cons,pow_succ]; ring

/-- No text of a number is shorter than the one that is written. -/
theorem length_decimal_of_parse {bs : List (Fin 256)} {n : ℕ} (h : parseDecimal? bs = some n) :
    (decimal n).length ≤ bs.length := by
  unfold parseDecimal? at h
  split at h
  · cases h
  · rename_i hne
    have hlt := foldlM_pushDigit_lt h
    rw [Nat.zero_add,Nat.one_mul] at hlt
    exact length_decimal_le (List.length_pos_iff.mpr hne) hlt

theorem length_decimalInt_neg (n : ℕ) : (decimalInt (-n)).length ≤ (decimal n).length+1 := by
  cases n with
  | zero =>
    change (decimal 0).length ≤ _
    omega
  | succ n => exact le_rfl

theorem length_decimalInt_of_parse {bs : List (Fin 256)} {i : ℤ} (h : parseInt? bs = some i) :
    (decimalInt i).length ≤ bs.length := by
  unfold parseInt? at h
  split at h <;> obtain ⟨n,hn,rfl⟩ := Option.map_eq_some_iff.mp h <;> have hlen := length_decimal_of_parse hn
  · exact (length_decimalInt_neg n).trans (Nat.succ_le_succ hlen)
  · exact hlen.trans (Nat.le_succ _)
  · exact hlen

/-- The text of a number is in no place a separator. -/
theorem notMem_decimalInt {sep : Fin 256} (h : sep.val < 43) (i : ℤ) : sep ∉ decimalInt i := by
  cases i with
  | ofNat n => exact fun hs => absurd (digit_of_mem_decimal hs).1 (by omega)
  | negSucc n =>
    rw [decimalInt,List.mem_cons,not_or]
    refine ⟨?_,fun hs => absurd (digit_of_mem_decimal hs).1 (by omega)⟩
    rintro rfl
    exact absurd h (by decide)

end Decimal

end Lib
end Libbit
