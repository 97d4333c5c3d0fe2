import Mathlib

/-! Invariants of operations with a state and errors, where what was done before an error stays
done. The rules go along the way an operation is put together. -/
namespace Libbit
namespace Lib

variable {ε σ α β γ : Type}

/-- Started where `P` holds the operation ends where `P` holds, whether it returns or fails,
and it fails with errors of `E` only. -/
def Keeps (P : σ → Prop) (E : ε → Prop) (m : EStateM ε σ α) : Prop :=
  ∀ s, P s → match m s with
    | .ok _ s' => P s'
    | .error e s' => P s' ∧ E e

namespace Keeps
variable {P : σ → Prop} {E : ε → Prop}

theorem pure (a : α) : Keeps P E (Pure.pure a : EStateM ε σ α) := fun _ hs => hs

theorem throw {e : ε} (he : E e) : Keeps P E (MonadExcept.throw e : EStateM ε σ α) := fun _ hs => ⟨hs,he⟩

theorem get : Keeps P E (MonadState.get : EStateM ε σ σ) := fun _ hs => hs

theorem set {s : σ} (h : P s) : Keeps P E (MonadStateOf.set s : EStateM ε σ PUnit) := fun _ _ => h

theorem modify {f : σ → σ} (h : ∀ s, P s → P (f s)) : Keeps P E (modify f : EStateM ε σ PUnit) := h

theorem bind {m : EStateM ε σ α} {f : α → EStateM ε σ β} (hm : Keeps P E m) (hf : ∀ a, Keeps P E (f a)) :
    Keeps P E (m >>= f) := by
  intro s hs
  have h := hm s hs
  simp only [Bind.bind,EStateM.bind]
  cases hr : m s with
  | ok a s' =>
    rw [hr] at h
    exact hf a s' h
  | error e s' =>
    rw [hr] at h
    exact h

/-- The rest may use that the state was read where the invariant holds. -/
theorem getBind {f : σ → EStateM ε σ β} (hf : ∀ s, P s → Keeps P E (f s)) :
    Keeps P E (MonadState.get >>= f) := fun s hs => hf s hs s hs

theorem seq {m : EStateM ε σ α} {k : EStateM ε σ β} (hm : Keeps P E m) (hk : Keeps P E k) :
    Keeps P E (m >>= fun _ => k) := hm.bind fun _ => hk

theorem ite {c : Prop} [Decidable c] {m k : EStateM ε σ α} (hm : c → Keeps P E m) (hk : ¬c → Keeps P E k) :
    Keeps P E (if c then m else k) := by
  split
  · exact hm ‹_›
  · exact hk ‹_›

theorem tryCatch {m : EStateM ε σ α} {h : ε → EStateM ε σ α} (hm : Keeps P E m) (hh : ∀ e, Keeps P E (h e)) :
    Keeps P E (MonadExcept.tryCatch m h) := by
  intro s hs
  have hr := hm s hs
  change match EStateM.tryCatch m h s with
    | .ok _ s' => P s'
    | .error e s' => P s' ∧ E e
  cases hm' : m s with
  | ok a s' =>
    rw [hm'] at hr
    simpa only [EStateM.tryCatch,hm'] using hr
  | error e s' =>
    rw [hm'] at hr
    simp only [EStateM.tryCatch,hm']
    exact hh e s' hr.1

theorem forM {l : List γ} {f : γ → EStateM ε σ PUnit} (hf : ∀ x ∈ l, Keeps P E (f x)) : Keeps P E (l.forM f) := by
  induction l with
  | nil => exact pure _
  | cons x l ih =>
    exact (hf x List.mem_cons_self).seq (ih fun y hy => hf y (List.mem_cons_of_mem _ hy))

theorem foldlM {l : List γ} {f : β → γ → EStateM ε σ β} (hf : ∀ x ∈ l, ∀ b, Keeps P E (f b x)) (b : β) :
    Keeps P E (l.foldlM f b) := by
  induction l generalizing b with
  | nil => exact pure _
  | cons x l ih =>
    rw [List.foldlM_cons]
    exact (hf x List.mem_cons_self b).bind fun b' => ih (fun y hy => hf y (List.mem_cons_of_mem _ hy)) b'

theorem ok {m : EStateM ε σ α} (h : Keeps P E m) {s s' : σ} {a : α} (hs : P s) (hr : m s = .ok a s') : P s' := by
  have := h s hs
  rw [hr] at this
  exact this

theorem error {m : EStateM ε σ α} (h : Keeps P E m) {s s' : σ} {e : ε} (hs : P s) (hr : m s = .error e s') :
    P s' ∧ E e := by
  have := h s hs
  rw [hr] at this
  exact this

theorem and {Q : σ → Prop} {m : EStateM ε σ α} (h : Keeps P E m) (h' : Keeps Q E m) : Keeps (fun s => P s ∧ Q s) E m := by
  rintro s ⟨hs,hs'⟩
  cases hm : m s with
  | ok a t => exact ⟨h.ok hs hm,h'.ok hs' hm⟩
  | error e t => exact ⟨⟨(h.error hs hm).1,(h'.error hs' hm).1⟩,(h.error hs hm).2⟩

theorem mono {Q : σ → Prop} {E' : ε → Prop} {m : EStateM ε σ α} (h : Keeps P E m) (hP : ∀ s, P s ↔ Q s)
    (hE : ∀ e, E e → E' e) : Keeps Q E' m := by
  intro s hs
  have hr := h s ((hP s).mpr hs)
  cases hm : m s with
  | ok a s' =>
    rw [hm] at hr
    exact (hP s').mp hr
  | error e s' =>
    rw [hm] at hr
    exact ⟨(hP s').mp hr.1,hE e hr.2⟩

end Keeps

/-- The state in which an operation ends, whether it returns or fails. -/
def final : EStateM.Result ε σ α → σ
  | .ok _ s => s
  | .error _ s => s

/-- What an operation returns or fails with. -/
def outcome : EStateM.Result ε σ α → Except ε α
  | .ok a _ => .ok a
  | .error e _ => .error e

/-- The state after an operation that returns. -/
def endState : EStateM.Result ε σ α → Except ε σ
  | .ok _ s => .ok s
  | .error e _ => .error e

/-- The end of an operation in the state `s`. -/
def ended (s : σ) : Except ε α → EStateM.Result ε σ α
  | .ok a => .ok a s
  | .error e => .error e s

@[simp] theorem outcome_ended (s : σ) (x : Except ε α) : outcome (ended s x) = x := by cases x <;> rfl

@[simp] theorem final_ended (s : σ) (x : Except ε α) : final (ended s x) = s := by cases x <;> rfl

/-- The error with which an operation ends. -/
def failure? : EStateM.Result ε σ α → Option ε
  | .ok _ _ => none
  | .error e _ => some e

section Runs
variable {m : EStateM ε σ α} {f : α → EStateM ε σ β} {s s' : σ}

theorem bind_ok {b : β} : (m >>= f) s = .ok b s' ↔ ∃ a t, m s = .ok a t ∧ f a t = .ok b s' := by
  simp only [Bind.bind,EStateM.bind]
  cases m s <;> simp

theorem bind_error {e : ε} :
    (m >>= f) s = .error e s' ↔ m s = .error e s' ∨ ∃ a t, m s = .ok a t ∧ f a t = .error e s' := by
  simp only [Bind.bind,EStateM.bind]
  cases m s <;> simp

theorem bind_of_ok {a : α} {t : σ} (h : m s = .ok a t) : (m >>= f) s = f a t := by
  simp only [Bind.bind,EStateM.bind,h]

theorem bind_of_error {e : ε} {t : σ} (h : m s = .error e t) : (m >>= f) s = .error e t := by
  simp only [Bind.bind,EStateM.bind,h]

@[simp] theorem run_pure (a : α) (s : σ) : (Pure.pure a : EStateM ε σ α) s = .ok a s := rfl

@[simp] theorem run_throw (e : ε) (s : σ) : (MonadExcept.throw e : EStateM ε σ α) s = .error e s := rfl

@[simp] theorem run_get (s : σ) : (MonadState.get : EStateM ε σ σ) s = .ok s s := rfl

@[simp] theorem run_modify (g : σ → σ) (s : σ) : (modify g : EStateM ε σ PUnit) s = .ok ⟨⟩ (g s) := rfl

/-- The rest of an operation that reads the state. -/
@[simp] theorem run_getBind (k : σ → EStateM ε σ β) (s : σ) : (MonadState.get >>= k) s = k s s := rfl

theorem failure?_eq_some {x : EStateM.Result ε σ α} {e : ε} : failure? x = some e ↔ x = .error e (final x) := by
  cases x <;> simp [failure?,final]

theorem ok_of_failure?_eq_none {x : EStateM.Result ε σ α} (h : failure? x = none) : ∃ a, x = .ok a (final x) := by
  cases x with
  | ok a s => exact ⟨a,rfl⟩
  | error e s => simp [failure?] at h

end Runs

/-- The operation ends with a value and a state of `Q`, or fails in a state of `R`. -/
def Ends (Q : α → σ → Prop) (R : σ → Prop) : EStateM.Result ε σ α → Prop
  | .ok a s => Q a s
  | .error _ s => R s

namespace Ends
variable {Q : α → σ → Prop} {R : σ → Prop} {m : EStateM ε σ α} {s : σ}

theorem bind {Q' : β → σ → Prop} {f : α → EStateM ε σ β} (hm : Ends Q R (m s)) (hf : ∀ a t, Q a t → Ends Q' R (f a t)) :
    Ends Q' R ((m >>= f) s) := by
  cases hr : m s with
  | ok a t =>
    rw [hr] at hm
    rw [bind_of_ok hr]
    exact hf a t hm
  | error e t =>
    rw [hr] at hm
    rw [bind_of_error hr]
    exact hm

theorem ite {c : Prop} [Decidable c] {k : EStateM ε σ α} (hm : c → Ends Q R (m s)) (hk : ¬c → Ends Q R (k s)) :
    Ends Q R ((if c then m else k) s) := by
  by_cases h : c
  · rw [if_pos h]
    exact hm h
  · rw [if_neg h]
    exact hk h

theorem mono {Q' : α → σ → Prop} {R' : σ → Prop} {x : EStateM.Result ε σ α} (h : Ends Q R x) (hQ : ∀ a t, Q a t → Q' a t)
    (hR : ∀ t, R t → R' t) : Ends Q' R' x := by
  cases x with
  | ok a t => exact hQ a t h
  | error e t => exact hR t h

theorem of_keeps {E : ε → Prop} (hm : Keeps R E m) (hs : R s) : Ends (fun _ => R) R (m s) := by
  cases hr : m s with
  | ok a t => exact hm.ok hs hr
  | error e t => exact (hm.error hs hr).1

theorem final {x : EStateM.Result ε σ α} (h : Ends Q R x) (hQ : ∀ a t, Q a t → R t) : R (final x) := by
  cases x with
  | ok a t => exact hQ a t h
  | error e t => exact h

end Ends

/-- Started where `P` holds, whatever the operation returns stands with a state of `Q`. -/
def Returns (P : σ → Prop) (m : EStateM ε σ α) (Q : α → σ → Prop) : Prop :=
  ∀ s, P s → ∀ a s', m s = .ok a s' → Q a s'

namespace Returns
variable {P : σ → Prop} {Q : α → σ → Prop} {m : EStateM ε σ α}

theorem pure {a : α} (h : ∀ s, P s → Q a s) : Returns P (Pure.pure a : EStateM ε σ α) Q := by
  rintro s hs _ _ ⟨⟩
  exact h s hs

theorem throw (e : ε) : Returns P (MonadExcept.throw e : EStateM ε σ α) Q := by
  rintro s hs _ _ ⟨⟩

theorem bind {R : β → σ → Prop} {f : α → EStateM ε σ β} (hm : Returns P m Q) (hf : ∀ a, Returns (Q a) (f a) R) :
    Returns P (m >>= f) R := by
  intro s hs b s' h
  obtain ⟨a,t,ha,hb⟩ := bind_ok.mp h
  exact hf a t (hm s hs a t ha) b s' hb

/-- What never comes back needs no care for the rest. -/
theorem never {R : β → σ → Prop} {f : α → EStateM ε σ β} (hm : Returns P m fun _ _ => False) :
    Returns P (m >>= f) R := hm.bind fun _ _ hs => hs.elim

theorem getBind {R : β → σ → Prop} {f : σ → EStateM ε σ β} (hf : ∀ s, P s → Returns P (f s) R) :
    Returns P (MonadState.get >>= f) R := fun s hs => hf s hs s hs

theorem ite {c : Prop} [Decidable c] {m k : EStateM ε σ α} (hm : c → Returns P m Q) (hk : ¬c → Returns P k Q) :
    Returns P (if c then m else k) Q := by
  split
  · exact hm ‹_›
  · exact hk ‹_›

theorem of_keeps {E : ε → Prop} (h : Keeps P E m) : Returns P m fun _ => P := fun _ hs _ _ hr => h.ok hs hr

theorem mono {P' : σ → Prop} {Q' : α → σ → Prop} (h : Returns P m Q) (hP : ∀ s, P' s → P s)
    (hQ : ∀ a s, Q a s → Q' a s) : Returns P' m Q' := fun s hs a s' hr => hQ a s' (h s (hP s hs) a s' hr)

theorem foldlM {l : List γ} {f : β → γ → EStateM ε σ β} {I : σ → Prop}
    (hf : ∀ x ∈ l, ∀ b, Returns I (f b x) fun _ => I) (b : β) : Returns I (l.foldlM f b) fun _ => I := by
  induction l generalizing b with
  | nil => exact pure fun s hs => hs
  | cons x l ih =>
    rw [List.foldlM_cons]
    exact (hf x List.mem_cons_self b).bind fun b' => ih (fun y hy => hf y (List.mem_cons_of_mem _ hy)) b'

end Returns
end Lib
end Libbit
