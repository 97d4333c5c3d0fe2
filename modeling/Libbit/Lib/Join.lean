import Mathlib

/-! Joining lists of keys that need not be sorted. Each turn takes the least key among the heads from
every list that starts with it. A key that two lists have is taken from both in one turn exactly if
the last greater key that comes before it is the same in both. -/
namespace Libbit
namespace Lib
namespace Join

variable {κ : Type} [LinearOrder κ]

/-- The last key before `n` in the list that is greater than `n`. -/
def before : List κ → κ → Option κ
  | [], _ => none
  | m::l, n => if m = n then none else (before l n).or (if n < m then some m else none)

@[simp] theorem before_self (n : κ) (l : List κ) : before (n::l) n = none := by simp [before]

theorem before_cons {m n : κ} (h : m ≠ n) (l : List κ) :
    before (m::l) n = (before l n).or (if n < m then some m else none) := by simp [before,h]

theorem mem_of_before {l : List κ} {n z : κ} (h : before l n = some z) : z ∈ l := by
  induction l with
  | nil => simp [before] at h
  | cons m l ih =>
    by_cases hm : m = n
    · subst hm
      simp at h
    · rw [before_cons hm,Option.or_eq_some_iff] at h
      rcases h with h | ⟨-,h⟩
      · exact List.mem_cons_of_mem _ (ih h)
      · split at h
        · exact Option.some.inj h ▸ List.mem_cons_self
        · simp at h

/-- A key that waits behind a greater one. -/
theorem before_of_head {y n : κ} {l : List κ} (h : n < y) : ∃ z, before (y::l) n = some z := by
  rw [before_cons h.ne',if_pos h]
  cases before l n <;> simp

/-- Nothing changes before a key unless the key that is taken is the only greater one. -/
theorem before_tail {m n z : κ} {l : List κ} (hm : m ≠ n) (h : before (m::l) n = some z) :
    before l n = some z ∨ before l n = none ∧ z = m ∧ n < m := by
  rw [before_cons hm,Option.or_eq_some_iff] at h
  refine h.imp_right fun h => ⟨h.1,?_⟩
  split at h
  · exact ⟨(Option.some.inj h.2).symm,‹_›⟩
  · simp at h

theorem before_tail_none {m n : κ} {l : List κ} (hm : m ≠ n) (h : before (m::l) n = none) : before l n = none := by
  rw [before_cons hm,Option.or_eq_none_iff] at h
  exact h.1

/-- What comes first does not matter if a greater key follows it. -/
theorem before_append_of_some {l r : List κ} {n z : κ} (hn : n ∉ l) (h : before r n = some z) : before (l++r) n = some z := by
  induction l with
  | nil => exact h
  | cons m l ih =>
    obtain ⟨hm,hl⟩ : n ≠ m ∧ n ∉ l := by simpa using hn
    rw [List.cons_append,before_cons hm.symm,ih hl]
    rfl

/-- Lesser keys that come first do not matter. -/
theorem before_append_of_lt {l r : List κ} {n : κ} (h : ∀ m ∈ l, m < n) : before (l++r) n = before r n := by
  induction l with
  | nil => rfl
  | cons m l ih =>
    have hm : m < n := h m List.mem_cons_self
    rw [List.cons_append,before_cons hm.ne,ih fun x hx => h x (List.mem_cons_of_mem _ hx),if_neg hm.asymm,Option.or_none]

/-- A greater key comes from what stands first if there is none in the rest. -/
theorem mem_of_before_append {l r : List κ} {n z : κ} (hn : n ∉ l) (h : before (l++r) n = some z) (hr : before r n = none) : z ∈ l := by
  induction l with
  | nil => simp [hr] at h
  | cons m l ih =>
    obtain ⟨hm,hl⟩ : n ≠ m ∧ n ∉ l := by simpa using hn
    rcases before_tail hm.symm h with h | ⟨-,rfl,-⟩
    · exact List.mem_cons_of_mem _ (ih hl h)
    · exact List.mem_cons_self

theorem le_of_before {y n : κ} {l : List κ} (h : before (y::l) n = none) : y ≤ n := by
  by_contra hlt
  obtain ⟨z,hz⟩ := before_of_head (l := l) (lt_of_not_ge hlt)
  simp [h] at hz

/-- The keys of a kind that both lists have come after the same greater key, which is of that kind. -/
def EvenOn (P : κ → Prop) (l l' : List κ) : Prop :=
  ∀ n, P n → n ∈ l → n ∈ l' → before l n = before l' n ∧ ∀ z ∈ before l n, P z

namespace EvenOn
variable {P : κ → Prop} {l l' : List κ} {m : κ}

theorem symm (h : EvenOn P l l') : EvenOn P l' l := fun n hn hl hl' => by
  obtain ⟨heq,hz⟩ := h n hn hl' hl
  exact ⟨heq.symm,heq ▸ hz⟩

/-- Both lists start with the key. -/
theorem tail_tail (h : EvenOn P (m::l) (m::l')) (hl : m ∉ l) (hl' : m ∉ l') : EvenOn P l l' := by
  intro n hn hnl hnl'
  have hm : m ≠ n := fun he => hl (he ▸ hnl)
  obtain ⟨heq,hz⟩ := h n hn (List.mem_cons_of_mem _ hnl) (List.mem_cons_of_mem _ hnl')
  cases hb : before (m::l) n with
  | none => simp [before_tail_none hm hb,before_tail_none hm (heq ▸ hb)]
  | some z =>
    rcases before_tail hm hb with h₁ | ⟨h₁,rfl,-⟩ <;> rcases before_tail hm (heq ▸ hb) with h₂ | ⟨h₂,h₃,-⟩
    · exact ⟨h₁.trans h₂.symm,fun w hw => hz w (hb.trans (h₁.symm.trans hw))⟩
    · exact absurd (mem_of_before h₁) (h₃ ▸ hl)
    · exact absurd (mem_of_before h₂) hl'
    · simp [h₁,h₂]

/-- A key of the kind is not taken from one list while the other still has it. -/
theorem not_mem (h : EvenOn P (m::l) l') (hl' : ∀ y ∈ l'.head?, m < y) (hm : P m) : m ∉ l' := by
  intro hmem
  cases l' with
  | nil => simp at hmem
  | cons y l' =>
    have hlt : m < y := hl' y rfl
    obtain ⟨z,hz⟩ := before_of_head (l := l') hlt
    obtain ⟨heq,-⟩ := h m hm List.mem_cons_self hmem
    simp [hz] at heq

/-- What is taken from one list has no key of the kind that the other has. -/
theorem of_append {r : List κ} (h : EvenOn P (l++r) l') (hl : ∀ z ∈ l, P z → z ∉ l') (hd : List.Disjoint l r) : EvenOn P r l' := by
  intro n hn hnr hnl'
  obtain ⟨heq,hz⟩ := h n hn (List.mem_append_right _ hnr) hnl'
  have hnl : n ∉ l := fun hmem => hd hmem hnr
  cases hb : before r n with
  | some z =>
    rw [before_append_of_some hnl hb] at heq hz
    exact ⟨heq,hz⟩
  | none =>
    cases hall : before (l++r) n with
    | none => exact ⟨hall.symm.trans heq,by simp⟩
    | some z =>
      rw [hall] at heq
      exact absurd (mem_of_before heq.symm) (hl z (mem_of_before_append hnl hall hb) (hz z hall))

/-- Only one list starts with the key. -/
theorem tail (h : EvenOn P (m::l) l') (hl : m ∉ l) (hl' : ∀ y ∈ l'.head?, m < y) : EvenOn P l l' := by
  refine of_append (l := [m]) h (fun z hz hP => ?_) (by simpa using hl)
  obtain rfl := List.mem_singleton.mp hz
  exact h.not_mem hl' hP

end EvenOn

/-- All keys that both lists have come after the same greater key. -/
def Even (l l' : List κ) : Prop := EvenOn (fun _ => True) l l'

namespace Even
variable {l l' : List κ} {m : κ}

theorem before_eq (h : Even l l') {n : κ} (hl : n ∈ l) (hl' : n ∈ l') : before l n = before l' n := (h n trivial hl hl').1

theorem of_before (h : ∀ n ∈ l, n ∈ l' → before l n = before l' n) : Even l l' :=
  fun n _ hl hl' => ⟨h n hl hl',fun _ _ => trivial⟩

instance (l l' : List κ) : Decidable (Even l l') :=
  decidable_of_iff (∀ n ∈ l, n ∈ l' → before l n = before l' n) ⟨of_before,fun h _ hl hl' => h.before_eq hl hl'⟩

theorem symm (h : Even l l') : Even l' l := EvenOn.symm h

/-- If both lists start with the key, what follows decides. -/
theorem cons_cons (h : Even l l') : Even (m::l) (m::l') := by
  refine of_before fun n hn hn' => ?_
  by_cases hm : m = n
  · subst hm
    simp
  · have heq := h.before_eq ((List.mem_cons.mp hn).resolve_left (Ne.symm hm)) ((List.mem_cons.mp hn').resolve_left (Ne.symm hm))
    rw [before_cons hm,before_cons hm,heq]

/-- If one list starts with a key that the other does not have and whose head is greater. -/
theorem cons (h : Even l l') (hm : m ∉ l') (hl' : ∀ y ∈ l'.head?, m < y) : Even (m::l) l' := by
  refine of_before fun n hn hn' => ?_
  have hne : m ≠ n := fun he => hm (he ▸ hn')
  have heq := h.before_eq ((List.mem_cons.mp hn).resolve_left (Ne.symm hne)) hn'
  rw [before_cons hne]
  by_cases hlt : n < m
  · -- the other list has a greater key before `n`, its head
    cases l' with
    | nil => simp at hn'
    | cons y l' =>
      obtain ⟨z,hz⟩ := before_of_head (l := l') (hlt.trans (hl' y rfl))
      rw [heq,hz]
      rfl
  · rw [if_neg hlt,Option.or_none,heq]

end Even
end Join
end Lib
end Libbit
