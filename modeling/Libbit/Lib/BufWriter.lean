import Mathlib

/-! A buffered writer (Rust's `BufWriter`): what it passes on to the writer below at each call, and what it still
holds. -/
namespace Libbit
namespace Lib
namespace BufWriter

variable {β : Type} (cap : ℕ)

inductive Op (β : Type)
  | write (buf : List β)
  | flush
  deriving DecidableEq

/-- One call, with the bytes that are held before it: the writes that are passed on, and the bytes held after it. -/
def call (held : List β) : Op β → List (List β) × List β
  | .flush => (if held = [] then [] else [held],[])
  | .write buf =>
    if buf.length < cap-held.length then ([],held++buf)
    else
      let spilt := if cap-held.length < buf.length ∧ held ≠ [] then ([held],[]) else ([],held)
      -- what does not fit into an empty buffer goes past it
      if cap ≤ buf.length then (spilt.1++[buf],spilt.2) else (spilt.1,spilt.2++buf)

/-- The writes that a sequence of calls passes on, and what is held at its end. -/
def calls (held : List β) : List (Op β) → List (List β) × List β
  | [] => ([],held)
  | op::ops =>
    let now := call cap held op
    let later := calls now.2 ops
    (now.1++later.1,later.2)

def bytes : Op β → List β
  | .write buf => buf
  | .flush => []

def written (ops : List (Op β)) : List β := ops.flatMap bytes

/-- Nothing is held after this call. -/
def Empties : Op β → Prop
  | .write buf => cap ≤ buf.length
  | .flush => True

/-- After each write that may stay in the buffer there is a call that empties it. -/
def Settled (ops : List (Op β)) : Prop :=
  ∀ pre buf post, ops = pre++.write buf::post → buf ≠ [] → buf.length < cap → ∃ op ∈ post, Empties cap op

variable {cap : ℕ} {held : List β} {op : Op β} {ops ops' : List (Op β)}

/-- A write that is smaller than the buffer stays in it, maybe after what was there is passed on. A larger one goes past
it. -/
theorem call_write (hheld : held.length ≤ cap) (buf : List β) :
    (buf.length < cap ∧ held.length+buf.length ≤ cap ∧ call cap held (.write buf) = ([],held++buf)) ∨
    (buf.length < cap ∧ cap < held.length+buf.length ∧ call cap held (.write buf) = ([held],buf)) ∨
    (cap ≤ buf.length ∧ call cap held (.write buf) = ((if held = [] then [] else [held])++[buf],[])) := by
  simp only [call]
  by_cases hfits : buf.length < cap-held.length
  · rw [if_pos hfits]
    exact Or.inl ⟨by omega,by omega,rfl⟩
  rw [if_neg hfits]
  by_cases hlarge : cap ≤ buf.length
  · refine Or.inr (Or.inr ⟨hlarge,?_⟩)
    rw [if_pos hlarge]
    by_cases hempty : held = []
    · simp [hempty]
    · have hpos := List.length_pos_iff.mpr hempty
      simp only [if_pos (⟨by omega,hempty⟩ : cap-held.length < buf.length ∧ held ≠ []),if_neg hempty]
  · rw [if_neg hlarge]
    by_cases hover : cap < held.length+buf.length
    · have hne : held ≠ [] := by
        rintro rfl
        simp only [List.length_nil] at hover
        omega
      rw [if_pos ⟨by omega,hne⟩]
      exact Or.inr (Or.inl ⟨by omega,hover,rfl⟩)
    · rw [if_neg fun h => absurd h.1 (by omega)]
      exact Or.inl ⟨by omega,by omega,rfl⟩

theorem length_held_le (hheld : held.length ≤ cap) (op : Op β) : (call cap held op).2.length ≤ cap := by
  cases op with
  | flush => exact Nat.zero_le _
  | write buf =>
    rcases call_write hheld buf with ⟨-,hle,hcall⟩ | ⟨hlt,-,hcall⟩ | ⟨-,hcall⟩
    · rw [hcall,List.length_append]
      exact hle
    · rw [hcall]
      exact hlt.le
    · rw [hcall]
      exact Nat.zero_le _

/-- Nothing is lost or reordered. -/
theorem call_bytes (hheld : held.length ≤ cap) (op : Op β) :
    (call cap held op).1.flatten++(call cap held op).2 = held++bytes op := by
  have hspilt : (if held = [] then [] else [held]).flatten = held := by
    by_cases hempty : held = []
    · simp [hempty]
    · simp [hempty]
  cases op with
  | flush => rw [call,bytes,hspilt]
  | write buf =>
    rcases call_write hheld buf with ⟨-,-,hcall⟩ | ⟨-,-,hcall⟩ | ⟨-,hcall⟩
    · rw [hcall]
      rfl
    · rw [hcall,List.flatten_singleton]
      rfl
    · rw [hcall,List.flatten_append,hspilt,List.flatten_singleton,List.append_nil]
      rfl

theorem calls_bytes (hheld : held.length ≤ cap) (ops : List (Op β)) :
    (calls cap held ops).1.flatten++(calls cap held ops).2 = held++written ops := by
  induction ops generalizing held with
  | nil => simp [calls,written]
  | cons op ops ih =>
    have hnow := call_bytes hheld op
    have hlater := ih (length_held_le hheld op)
    have hwritten : written (op::ops) = bytes op++written ops := rfl
    simp only [calls,List.flatten_append]
    rw [List.append_assoc,hlater,← List.append_assoc,hnow,List.append_assoc,hwritten]

theorem held_le (hheld : held.length ≤ cap) (ops : List (Op β)) : (calls cap held ops).2.length ≤ cap := by
  induction ops generalizing held with
  | nil => exact hheld
  | cons op ops ih => exact ih (length_held_le hheld op)

theorem calls_concat (held : List β) (ops : List (Op β)) (op : Op β) : calls cap held (ops++[op]) =
    ((calls cap held ops).1++(call cap (calls cap held ops).2 op).1,(call cap (calls cap held ops).2 op).2) := by
  induction ops generalizing held with
  | nil => simp [calls]
  | cons op' ops ih => simp only [List.cons_append,calls,ih,List.append_assoc]

theorem call_eq_nil (hheld : held.length ≤ cap) (op : Op β) :
    (call cap held op).2 = [] ↔ Empties cap op ∨ (bytes op = [] ∧ held = []) := by
  cases op with
  | flush => exact iff_of_true rfl (Or.inl trivial)
  | write buf =>
    rcases call_write hheld buf with ⟨hlt,-,hcall⟩ | ⟨hlt,hover,hcall⟩ | ⟨hle,hcall⟩
    · rw [hcall,List.append_eq_nil_iff,Empties,or_iff_right (by omega),and_comm]
      rfl
    · rw [hcall,Empties,or_iff_right (by omega)]
      refine iff_of_false ?_ ?_
      · rintro rfl
        simp only [List.length_nil] at hover
        omega
      · rintro ⟨-,rfl⟩
        simp only [List.length_nil] at hover
        omega
    · exact iff_of_true (by rw [hcall]) (Or.inl hle)

theorem settled_concat (ops : List (Op β)) (op : Op β) :
    Settled cap (ops++[op]) ↔ Empties cap op ∨ (bytes op = [] ∧ Settled cap ops) := by
  constructor
  · intro h
    by_cases hempties : Empties cap op
    · exact Or.inl hempties
    · refine Or.inr ⟨?_,fun pre buf post heq hne hlt => ?_⟩
      · cases op with
        | flush => rfl
        | write buf =>
          by_contra hne
          obtain ⟨_,hop,-⟩ := h ops buf [] rfl hne (not_le.mp hempties)
          cases hop
      · obtain ⟨op',hop,hempties'⟩ := h pre buf (post++[op]) (by rw [heq]; simp) hne hlt
        rcases List.mem_append.mp hop with hop | hop
        · exact ⟨op',hop,hempties'⟩
        · exact absurd (List.mem_singleton.mp hop ▸ hempties') hempties
  · intro h pre buf post heq hne hlt
    rcases List.eq_nil_or_concat post with rfl | ⟨post,last,rfl⟩
    · -- the write is the last call
      obtain ⟨-,rfl⟩ := List.append_singleton_inj.mp heq
      rcases h with hle | ⟨hnil,-⟩
      · exact absurd hlt (not_lt.mpr hle)
      · exact absurd hnil hne
    · rw [List.concat_eq_append,← List.cons_append,← List.append_assoc] at heq
      obtain ⟨hops,rfl⟩ := List.append_singleton_inj.mp heq
      rcases h with hempties | ⟨-,hsettled⟩
      · exact ⟨op,by simp,hempties⟩
      · obtain ⟨op',hop,hempties⟩ := hsettled pre buf post hops hne hlt
        exact ⟨op',by simp [hop],hempties⟩

/-- The buffer is empty at the end exactly if every small write was followed by a call that empties it. -/
theorem calls_eq_nil (ops : List (Op β)) : (calls cap [] ops).2 = [] ↔ Settled cap ops := by
  induction ops using List.reverseRecOn with
  | nil => exact iff_of_true rfl fun pre buf post h => absurd h (by simp)
  | append_singleton ops op ih =>
    rw [calls_concat,settled_concat,← ih]
    exact call_eq_nil (held_le (Nat.zero_le _) ops) op

end BufWriter
end Lib
end Libbit
