import Mathlib

/-! Following references. A place holds a value, or it refers to another place and says what is to be made of the
value from there. Looking at a place may change the state. A chase ends if and only if no place comes twice, when
there are finitely many places that refer to another one and looking at one again says the same. -/
namespace Libbit
namespace Lib

open Relation

section Chase
variable {σ ι ε α β : Type} (look : ι → EStateM ε σ (α ⊕ ι × β)) (finish : β → α → Except ε α) (keep : ι → α → σ → σ)

/-- The fuel is the number of places that are looked at. -/
def chase (outOfFuel : ε) : ℕ → ι → EStateM ε σ α
  | 0, _ => throw outOfFuel
  | fuel+1, i => do
    match ← look i with
    | .inl a => pure a
    | .inr (j,b) =>
      let base ← chase outOfFuel fuel j
      match finish b base with
      | .ok a =>
        modify (keep i a)
        pure a
      | .error e => throw e

/-- A place refers to another one. -/
inductive Refers : σ × ι → β → σ × ι → Prop
  | mk {s s' : σ} {i j : ι} {b : β} (h : look i s = .ok (.inr (j,b)) s') : Refers (s,i) b (s',j)

def Follows (c c' : σ × ι) : Prop := ∃ b, Refers look c b c'

/-- The chase comes to an end in so many steps. -/
inductive EndsIn : ℕ → σ × ι → Prop
  | stop {n : ℕ} {c : σ × ι} (h : ∀ c', ¬Follows look c c') : EndsIn n c
  | step {n : ℕ} {c c' : σ × ι} {b : β} (h : Refers look c b c') (hrest : EndsIn n c') : EndsIn (n+1) c

/-- No place comes again. -/
def Acyclic (c : σ × ι) : Prop :=
  ∀ c₁ c₂, ReflTransGen (Follows look) c c₁ → TransGen (Follows look) c₁ c₂ → c₁.2 ≠ c₂.2

/-- The value at a place. -/
inductive Value : σ × ι → α → Prop
  | found {s s' : σ} {i : ι} {a : α} (h : look i s = .ok (.inl a) s') : Value (s,i) a
  | made {c c' : σ × ι} {b : β} {base a : α} (h : Refers look c b c') (hbase : Value c' base) (ha : finish b base = .ok a) :
      Value c a

/-- What every place on the way says when it fails. -/
structure FailsWith (E : ε → Prop) (c : σ × ι) : Prop where
  looks : ∀ c', ReflTransGen (Follows look) c c' → ∀ e s', look c'.2 c'.1 = .error e s' → E e
  finishes : ∀ c' b c'' base, ReflTransGen (Follows look) c c' → Refers look c' b c'' → Value look finish c'' base →
    ∀ e, finish b base = .error e → E e

variable {look finish keep} {c c' c'' : σ × ι} {b b' : β} {a a' : α} {n : ℕ} {E : ε → Prop} {outOfFuel : ε}

theorem Refers.unique (h : Refers look c b c') (h' : Refers look c b' c'') : b = b' ∧ c' = c'' := by
  obtain ⟨h⟩ := h
  obtain ⟨h'⟩ := h'
  rw [h] at h'
  cases h'
  exact ⟨rfl,rfl⟩

theorem Follows.unique (h : Follows look c c') (h' : Follows look c c'') : c' = c'' := by
  obtain ⟨b,h⟩ := h
  obtain ⟨b',h'⟩ := h'
  exact (h.unique h').2

variable (look) in
/-- Whatever is looked at again refers to the same place. What came later is `later`. -/
structure Settled (later : σ → σ → Prop) : Prop where
  refl : ∀ s, later s s
  trans : ∀ {s s' s''}, later s s' → later s' s'' → later s s''
  moves : ∀ {s i b s' j}, Refers look (s,i) b (s',j) → later s s'
  again : ∀ {s i b s' j t}, Refers look (s,i) b (s',j) → later s' t → ∃ t', Refers look (t,i) b (t',j)

theorem Settled.later {later : σ → σ → Prop} (h : Settled look later) (hreach : ReflTransGen (Follows look) c c') :
    later c.1 c'.1 := by
  induction hreach with
  | refl => exact h.refl _
  | @tail d d' _ hstep ih =>
    obtain ⟨b,hstep⟩ := hstep
    exact h.trans ih (h.moves hstep)

theorem EndsIn.mono {m : ℕ} (h : EndsIn look n c) (hle : n ≤ m) : EndsIn look m c := by
  induction h generalizing m with
  | stop h => exact .stop h
  | step h _ ih =>
    obtain ⟨m,rfl⟩ := Nat.exists_eq_add_of_le' (Nat.one_le_of_lt hle)
    exact .step h (ih (Nat.le_of_succ_le_succ hle))

theorem EndsIn.of_follows (h : EndsIn look n c) (hstep : Follows look c c') : EndsIn look n c' := by
  cases h with
  | stop h => exact absurd hstep (h c')
  | step h hrest =>
    obtain rfl := hstep.unique ⟨_,h⟩
    exact hrest.mono (Nat.le_succ _)

/-- A place that came again would lead on for ever. -/
theorem EndsIn.ne {later : σ → σ → Prop} (hset : Settled look later) (h : EndsIn look n c) (hgo : TransGen (Follows look) c c') :
    c.2 ≠ c'.2 := by
  induction h generalizing c' with
  | stop h =>
    obtain ⟨d,hstep,-⟩ := TransGen.head'_iff.mp hgo
    exact absurd hstep (h d)
  | @step n c d b h hrest ih =>
    obtain ⟨d',hstep,hreach⟩ := TransGen.head'_iff.mp hgo
    obtain rfl := hstep.unique ⟨b,h⟩
    obtain ⟨s,i⟩ := c
    obtain ⟨t,i'⟩ := c'
    obtain ⟨s',j⟩ := d'
    rintro (rfl : i = i')
    obtain ⟨t',hagain⟩ := hset.again h (hset.later hreach)
    exact ih (TransGen.tail' hreach ⟨b,hagain⟩) rfl

theorem EndsIn.acyclic {later : σ → σ → Prop} (hset : Settled look later) (h : EndsIn look n c) : Acyclic look c := by
  intro c₁ c₂ hreach hgo
  have hends : EndsIn look n c₁ := by
    induction hreach with
    | refl => exact h
    | tail _ hstep ih => exact (ih (TransGen.head hstep hgo)).of_follows hstep
  exact hends.ne hset hgo

/-- The places that refer to another one are among those that have not come yet. -/
theorem Acyclic.endsIn [DecidableEq ι] (h : Acyclic look c) (left : Finset ι)
    (hleft : ∀ c₁ c₂, ReflTransGen (Follows look) c c₁ → Follows look c₁ c₂ → c₁.2 ∈ left) : EndsIn look left.card c := by
  induction hn : left.card generalizing c left with
  | zero =>
    refine .stop fun c' hstep => ?_
    rw [Finset.card_eq_zero.mp hn] at hleft
    exact absurd (hleft c c' .refl hstep) (Finset.notMem_empty _)
  | succ n ih =>
    by_cases hnext : ∃ c', Follows look c c'
    · obtain ⟨c',b,hstep⟩ := hnext
      have hmem := hleft c c' .refl ⟨b,hstep⟩
      have hrest : EndsIn look n c' := by
        refine ih (fun c₁ c₂ hreach => h c₁ c₂ (.head ⟨b,hstep⟩ hreach)) (left.erase c.2) (fun c₁ c₂ hreach hgo => ?_) ?_
        · refine Finset.mem_erase.mpr ⟨?_,hleft c₁ c₂ (.head ⟨b,hstep⟩ hreach) hgo⟩
          exact (h c c₁ .refl (TransGen.head' ⟨b,hstep⟩ hreach)).symm
        · rw [Finset.card_erase_of_mem hmem,hn,Nat.add_sub_cancel]
      exact .step hstep hrest
    · exact .stop fun c' hstep => hnext ⟨c',hstep⟩

/-- The operation returns, or it fails with an error of `E`. -/
def ReturnsOr (E : ε → Prop) : EStateM.Result ε σ α → Prop
  | .ok _ _ => True
  | .error e _ => E e

theorem FailsWith.next (h : FailsWith look finish E c) (hstep : Follows look c c') : FailsWith look finish E c' where
  looks d hreach := h.looks d (.head hstep hreach)
  finishes d b d' base hreach := h.finishes d b d' base (.head hstep hreach)

/-- A round that found the value. -/
theorem chase_found {s s' : σ} {i : ι} (h : look i s = .ok (.inl a) s') (fuel : ℕ) :
    chase look finish keep outOfFuel (fuel+1) i s = .ok a s' := by
  simp only [chase,bind,EStateM.bind,h,pure,EStateM.pure]

theorem chase_failed {s s' : σ} {i : ι} {e : ε} (h : look i s = .error e s') (fuel : ℕ) :
    chase look finish keep outOfFuel (fuel+1) i s = .error e s' := by
  simp only [chase,bind,EStateM.bind,h]

/-- A round that goes on to the base. -/
theorem chase_refers {s s' : σ} {i j : ι} (h : look i s = .ok (.inr (j,b)) s') (fuel : ℕ) :
    chase look finish keep outOfFuel (fuel+1) i s = match chase look finish keep outOfFuel fuel j s' with
      | .error e s'' => .error e s''
      | .ok base s'' => match finish b base with
        | .ok a => .ok a (keep i a s'')
        | .error e => .error e s'' := by
  simp only [chase,bind,EStateM.bind,h]
  cases chase look finish keep outOfFuel fuel j s' with
  | error e s'' => rfl
  | ok base s'' =>
    simp only
    cases finish b base <;> rfl

theorem value_of_chase {fuel : ℕ} {t : σ} (h : chase look finish keep outOfFuel fuel c.2 c.1 = .ok a t) :
    Value look finish c a := by
  induction fuel generalizing c a t with
  | zero => cases h
  | succ fuel ih =>
    obtain ⟨s,i⟩ := c
    cases hlook : look i s with
    | error e s' =>
      rw [chase_failed hlook] at h
      cases h
    | ok r s' =>
      rcases r with a' | ⟨j,b⟩
      · rw [chase_found hlook] at h
        cases h
        exact .found hlook
      · rw [chase_refers hlook] at h
        cases hbase : chase look finish keep outOfFuel fuel j s' with
        | error e s'' =>
          rw [hbase] at h
          cases h
        | ok base s'' =>
          rw [hbase] at h
          simp only at h
          cases hfinish : finish b base with
          | error e =>
            rw [hfinish] at h
            cases h
          | ok a' =>
            rw [hfinish] at h
            cases h
            exact .made (.mk hlook) (ih (c := (s',j)) hbase) hfinish

theorem EndsIn.returns (h : EndsIn look n c) (hfails : FailsWith look finish E c) {fuel : ℕ} (hfuel : n < fuel) :
    ReturnsOr E (chase look finish keep outOfFuel fuel c.2 c.1) := by
  induction h generalizing fuel with
  | @stop n c h =>
    obtain ⟨fuel,rfl⟩ := Nat.exists_eq_add_of_le' (Nat.one_le_of_lt hfuel)
    obtain ⟨s,i⟩ := c
    cases hlook : look i s with
    | error e s' =>
      rw [chase_failed hlook]
      exact hfails.looks _ .refl e s' hlook
    | ok r s' =>
      rcases r with a | ⟨j,b⟩
      · rw [chase_found hlook]
        trivial
      · exact absurd ⟨b,.mk hlook⟩ (h (s',j))
  | @step n c c' b h _ ih =>
    obtain ⟨fuel,rfl⟩ := Nat.exists_eq_add_of_le' (Nat.one_le_of_lt hfuel)
    have hrest := ih (hfails.next ⟨b,h⟩) (Nat.lt_of_succ_lt_succ hfuel)
    cases h with
    | @mk s s' i j b hlook =>
      rw [chase_refers hlook]
      cases hbase : chase look finish keep outOfFuel fuel j s' with
      | error e s'' =>
        rw [hbase] at hrest
        exact hrest
      | ok base s'' =>
        simp only
        cases hfinish : finish b base with
        | error e =>
          exact hfails.finishes (s,i) b (s',j) base .refl (.mk hlook) (value_of_chase (c := (s',j)) hbase) e hfinish
        | ok a => trivial

variable (keep outOfFuel) in
/-- Only the fuel can keep a chase from the value. -/
theorem Value.chase_eq (h : Value look finish c a) (fuel : ℕ) : ∃ t,
    chase look finish keep outOfFuel fuel c.2 c.1 = .ok a t ∨ chase look finish keep outOfFuel fuel c.2 c.1 = .error outOfFuel t := by
  induction h generalizing fuel with
  | @found s s' i a h =>
    cases fuel with
    | zero => exact ⟨s,.inr rfl⟩
    | succ fuel => exact ⟨s',.inl (chase_found h fuel)⟩
  | @made c c' b base a h _ ha ih =>
    cases h with
    | @mk s s' i j b h =>
      cases fuel with
      | zero => exact ⟨s,.inr rfl⟩
      | succ fuel =>
        obtain ⟨t,hbase | hbase⟩ := ih fuel
        · refine ⟨keep i a t,.inl ?_⟩
          rw [chase_refers h,hbase]
          simp only [ha]
        · refine ⟨t,.inr ?_⟩
          rw [chase_refers h,hbase]

theorem not_follows {s : σ} {i : ι} {r : EStateM.Result ε σ (α ⊕ ι × β)} (h : look i s = r)
    (hr : ∀ j b s', r ≠ .ok (.inr (j,b)) s') (c' : σ × ι) : ¬Follows look (s,i) c' := by
  rintro ⟨b,⟨h'⟩⟩
  exact hr _ _ _ (h.symm.trans h')

/-- A place that refers to no other one is all there is. -/
theorem failsWith_of_stop {s : σ} {i : ι} (hstop : ∀ c', ¬Follows look (s,i) c')
    (h : ∀ e s', look i s = .error e s' → E e) : FailsWith look finish E (s,i) := by
  have hself {c' : σ × ι} (hreach : ReflTransGen (Follows look) (s,i) c') : c' = (s,i) := by
    rcases hreach.cases_head with rfl | ⟨d,hstep,-⟩
    · rfl
    · exact absurd hstep (hstop d)
  refine ⟨fun c' hreach e s' he => ?_,fun c' b c'' base hreach hstep => ?_⟩
  · obtain rfl := hself hreach
    exact h e s' he
  · obtain rfl := hself hreach
    exact absurd ⟨b,hstep⟩ (hstop c'')

theorem EndsIn.of_returns {fuel : ℕ} (hE : ¬E outOfFuel) (h : ReturnsOr E (chase look finish keep outOfFuel fuel c.2 c.1)) :
    EndsIn look fuel c ∧ FailsWith look finish E c := by
  induction fuel generalizing c with
  | zero => exact absurd h hE
  | succ fuel ih =>
    obtain ⟨s,i⟩ := c
    cases hlook : look i s with
    | error e s' =>
      have hstop := not_follows hlook nofun
      rw [chase_failed hlook] at h
      refine ⟨.stop hstop,failsWith_of_stop hstop fun e' t he => ?_⟩
      rw [hlook] at he
      cases he
      exact h
    | ok r s' =>
      rcases r with a | ⟨j,b⟩
      · have hstop := not_follows hlook nofun
        refine ⟨.stop hstop,failsWith_of_stop hstop fun e' t he => ?_⟩
        rw [hlook] at he
        cases he
      · rw [chase_refers hlook] at h
        have hbase : ReturnsOr E (chase look finish keep outOfFuel fuel j s') := by
          cases hbase : chase look finish keep outOfFuel fuel j s' with
          | ok base t => trivial
          | error e t =>
            rw [hbase] at h
            exact h
        obtain ⟨hends,hfails⟩ := ih (c := (s',j)) hbase
        have hrefers : Refers look (s,i) b (s',j) := .mk hlook
        refine ⟨.step hrefers hends,fun c' hreach e t he => ?_,fun c' b' c'' base hreach hrefers' hvalue e he => ?_⟩
        · rcases hreach.cases_head with rfl | ⟨d,hstep,hreach⟩
          · rw [hlook] at he
            cases he
          · obtain rfl := hstep.unique ⟨b,hrefers⟩
            exact hfails.looks c' hreach e t he
        · rcases hreach.cases_head with rfl | ⟨d,hstep,hreach⟩
          · obtain ⟨rfl,rfl⟩ := hrefers'.unique hrefers
            obtain ⟨t,hchase | hchase⟩ := hvalue.chase_eq keep outOfFuel fuel
            · change chase look finish keep outOfFuel fuel j s' = _ at hchase
              rw [hchase] at h
              simp only [he] at h
              exact h
            · change chase look finish keep outOfFuel fuel j s' = _ at hchase
              rw [hchase] at hbase
              exact absurd hbase hE
          · obtain rfl := hstep.unique ⟨b,hrefers⟩
            exact hfails.finishes c' b' c'' base hreach hrefers' hvalue e he

/-- Which chases return. -/
theorem chase_returns_iff [DecidableEq ι] {later : σ → σ → Prop} (hset : Settled look later) (hE : ¬E outOfFuel)
    {left : Finset ι} (hleft : ∀ c₁ c₂, ReflTransGen (Follows look) c c₁ → Follows look c₁ c₂ → c₁.2 ∈ left) :
    (∃ fuel, ReturnsOr E (chase look finish keep outOfFuel fuel c.2 c.1)) ↔ Acyclic look c ∧ FailsWith look finish E c := by
  constructor
  · rintro ⟨fuel,h⟩
    obtain ⟨hends,hfails⟩ := EndsIn.of_returns hE h
    exact ⟨hends.acyclic hset,hfails⟩
  · rintro ⟨hacyclic,hfails⟩
    exact ⟨left.card+1,(hacyclic.endsIn left hleft).returns hfails (Nat.lt_succ_self _)⟩

end Chase

end Lib
end Libbit
