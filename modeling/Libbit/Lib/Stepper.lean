import Libbit.Lib.Eff

/-! Iterators that can look at the next item and step over all that lies below it. What such an iterator has still to
yield is a list, and it implements the list when each method does to its state what is done to the list. -/
namespace Libbit
namespace Lib

variable {ε σ α : Type}

/-- What an iterator yields from a state on, to the end. -/
inductive Enumerates (next : EStateM ε σ (Option α)) : σ → List α → Prop
  | nil {s t : σ} (h : next s = .ok none t) : Enumerates next s []
  | cons {s t : σ} {a : α} {l : List α} (h : next s = .ok (some a) t) (hl : Enumerates next t l) : Enumerates next s (a::l)

theorem Enumerates.unique {next : EStateM ε σ (Option α)} {s : σ} {l m : List α} (h : Enumerates next s l) (h' : Enumerates next s m) :
    l = m := by
  induction h generalizing m with
  | nil h =>
    cases h' with
    | nil => rfl
    | cons h' _ => simp [h] at h'
  | cons h _ ih =>
    cases h' with
    | nil h' => simp [h] at h'
    | cons h' hl' =>
      rw [h] at h'
      cases h'
      rw [ih hl']

/-- Where each call takes the first item of a list, the list is yielded. -/
theorem Enumerates.of_step {next : EStateM ε σ (Option α)} {R : σ → List α → Prop}
    (h : ∀ s l, R s l → ∃ t, next s = .ok l.head? t ∧ R t l.tail) {s : σ} {l : List α} (hs : R s l) : Enumerates next s l := by
  induction l generalizing s with
  | nil =>
    obtain ⟨t,ht,-⟩ := h s [] hs
    exact .nil ht
  | cons a l ih =>
    obtain ⟨t,ht,hr⟩ := h s (a::l) hs
    exact .cons ht (ih hr)

/-- The methods of the iterator. -/
structure Stepper (ε σ α : Type) where
  next : EStateM ε σ (Option α)
  peek : EStateM ε σ (Option α)
  stepOver : EStateM ε σ (Option α)

inductive Call
  | next | peek | stepOver
  deriving DecidableEq, Repr

namespace Stepper

def call (it : Stepper ε σ α) : Call → EStateM ε σ (Option α)
  | .next => it.next
  | .peek => it.peek
  | .stepOver => it.stepOver

abbrev Drains (it : Stepper ε σ α) : σ → List α → Prop := Enumerates it.next

/-- Calls that all return. The third method is called only where it may be. -/
inductive Runs (it : Stepper ε σ α) (may : σ → Prop) : List Call → σ → σ → Prop
  | nil (s : σ) : Runs it may [] s s
  | cons {c : Call} {cs : List Call} {s t u : σ} {r : Option α} (hc : c = .stepOver → may s) (h : it.call c s = .ok r t)
      (hr : Runs it may cs t u) : Runs it may (c::cs) s u

/-- What is left after the first item and all that lies below it. -/
def without (below : α → α → Bool) : List α → List α
  | [] => []
  | a::l => l.filter fun x => !below x a

/-- In a state that stands for a list the methods return the first item of the list. -/
structure Implements (it : Stepper ε σ α) (below : α → α → Bool) (R : σ → List α → Prop) (may : σ → Prop) : Prop where
  next : ∀ s l, R s l → ∃ t, it.next s = .ok l.head? t ∧ R t l.tail
  peek : ∀ s l, R s l → ∃ t, it.peek s = .ok l.head? t ∧ R t l
  stepOver : ∀ s l, R s l → may s → ∃ t, it.stepOver s = .ok l.head? t ∧ R t (without below l)

/-- To step over is to go on without what lies below: the third method returns what `next` would return, and what
is yielded after it is what would be yielded after `next`, without the items below the one returned. -/
def OverIsNext (it : Stepper ε σ α) (below : α → α → Bool) (s : σ) : Prop :=
  ∃ r t u l, it.stepOver s = .ok r t ∧ it.next s = .ok r u ∧ it.Drains u l ∧
    it.Drains t (l.filter fun x => r.all fun a => !below x a)

section
variable {it : Stepper ε σ α} {below : α → α → Bool} {R : σ → List α → Prop} {may : σ → Prop} {s t : σ} {l m : List α}

theorem Implements.drains (h : it.Implements below R may) (hs : R s l) : it.Drains s l := .of_step h.next hs

/-- A state stands for at most one list. -/
theorem Implements.unique (h : it.Implements below R may) (hs : R s l) (hs' : R s m) : l = m :=
  (h.drains hs).unique (h.drains hs')

theorem Implements.call (h : it.Implements below R may) (c : Call) (hs : R s l) (hc : c = .stepOver → may s) :
    ∃ t m, it.call c s = .ok l.head? t ∧ R t m := by
  cases c with
  | next => exact (h.next s l hs).imp fun t ht => ⟨_,ht⟩
  | peek => exact (h.peek s l hs).imp fun t ht => ⟨_,ht⟩
  | stepOver => exact (h.stepOver s l hs (hc rfl)).imp fun t ht => ⟨_,ht⟩

theorem Implements.runs (h : it.Implements below R may) {cs : List Call} (hr : it.Runs may cs s t) (hs : R s l) :
    ∃ m, R t m := by
  induction hr generalizing l with
  | nil s => exact ⟨l,hs⟩
  | cons hc hcall _ ih =>
    obtain ⟨u,m,hu,hm⟩ := h.call _ hs hc
    rw [hcall] at hu
    cases hu
    exact ih hm

/-- Calls of the first two methods go on as often as the first is called. -/
theorem Implements.exists_runs (h : it.Implements below R may) {cs : List Call} (hcs : .stepOver ∉ cs) (hs : R s l) :
    ∃ t, it.Runs may cs s t ∧ R t (l.drop (cs.count .next)) := by
  induction cs generalizing s l with
  | nil => exact ⟨s,.nil s,hs⟩
  | cons c cs ih =>
    have hrest := List.not_mem_of_not_mem_cons hcs
    cases c with
    | next =>
      obtain ⟨u,hu,hru⟩ := h.next s l hs
      obtain ⟨t,ht,hrt⟩ := ih hrest hru
      refine ⟨t,.cons nofun hu ht,?_⟩
      rwa [List.count_cons_self,← List.drop_tail]
    | peek =>
      obtain ⟨u,hu,hru⟩ := h.peek s l hs
      obtain ⟨t,ht,hrt⟩ := ih hrest hru
      refine ⟨t,.cons nofun hu ht,?_⟩
      rwa [List.count_cons_of_ne (by decide)]
    | stepOver => exact absurd List.mem_cons_self hcs

theorem Implements.overIsNext (h : it.Implements below R may) (hs : R s l) (hc : may s) : it.OverIsNext below s := by
  obtain ⟨t,ht,hrt⟩ := h.stepOver s l hs hc
  obtain ⟨u,hu,hru⟩ := h.next s l hs
  refine ⟨l.head?,t,u,l.tail,ht,hu,h.drains hru,?_⟩
  cases l with
  | nil => exact h.drains hrt
  | cons a l => simpa [without] using h.drains hrt

/-- After any calls that may be made, a further one returns. -/
theorem Implements.overIsNext_of_runs (h : it.Implements below R may) {cs : List Call} (hr : it.Runs may cs s t)
    (hs : R s l) (hc : may t) : it.OverIsNext below t := by
  obtain ⟨m,hm⟩ := h.runs hr hs
  exact h.overIsNext hm hc

end
end Stepper
end Lib
end Libbit
