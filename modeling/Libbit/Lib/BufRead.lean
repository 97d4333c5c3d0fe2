import Libbit.Lib.Eff

/-! Buffered readers (Rust's `Read` and `BufRead`): what an implementation promises, and what a caller sees of it in any
order of calls. -/
namespace Libbit
namespace Lib

inductive ReadError
  | io (message : String)
  | panic (message : String)
  deriving DecidableEq

/-- What `read` puts into the slice that it is given, of the length `n`, is its result. -/
class BufRead (β : outParam Type) (σ : Type) where
  read (n : ℕ) : EStateM ReadError σ (List β)
  fillBuf : EStateM ReadError σ (List β)
  consume (n : ℕ) : EStateM ReadError σ Unit

/-- The contract: what is in the buffer stays there, and comes next, until it is read or consumed. More may come after it
at any time. Nothing is said about what happens when the buffer is empty, or when more is consumed than is in it. -/
class LawfulBufRead (β : outParam Type) (σ : Type) [BufRead β σ] where
  /-- What is in the buffer. -/
  unread : σ → List β
  fill {s s' : σ} {b : List β} : BufRead.fillBuf s = .ok b s' → b <+: unread s'
  refill {s : σ} : unread s ≠ [] → ∃ b s', BufRead.fillBuf s = .ok b s' ∧ unread s <+: b
  read_ok {s s' : σ} {n : ℕ} {b : List β} : BufRead.read n s = .ok b s' →
    unread s <+: b ∨ b <+: unread s ∧ (unread s).drop b.length <+: unread s'
  read_io {s s' : σ} {n : ℕ} {e : String} : BufRead.read n s = .error (.io e) s' → unread s <+: unread s'
  consume_ok {s s' : σ} {n : ℕ} : unread s ≠ [] → n ≤ (unread s).length → BufRead.consume n s = .ok () s' →
    (unread s).drop n <+: unread s'

/-- What a caller knows: what is left of the buffer that was filled last, and everything that was delivered so far. -/
structure View (β : Type) where
  seen : List β
  delivered : List β

namespace View
variable {β : Type}

def start : View β := ⟨[],[]⟩

/-- The same buffer, and nothing delivered. -/
def restart (v : View β) : View β := ⟨v.seen,[]⟩

/-- What came before is delivered as well. -/
def after (pre : List β) (v : View β) : View β := ⟨v.seen,pre++v.delivered⟩

end View

/-- A call that returns or fails, without a panic. -/
inductive Step {β σ : Type} [BufRead β σ] : σ × View β → σ × View β → Prop
  | read {s s' : σ} {v : View β} {n : ℕ} {b : List β} (h : BufRead.read n s = .ok b s') :
      Step (s,v) (s',⟨v.seen.drop b.length,v.delivered++b⟩)
  | readFails {s s' : σ} {v : View β} {n : ℕ} {e : String} (h : BufRead.read n s = .error (.io e) s') : Step (s,v) (s',v)
  | fill {s s' : σ} {v : View β} {b : List β} (h : BufRead.fillBuf s = .ok b s') : Step (s,v) (s',⟨b,v.delivered⟩)
  | fillFails {s s' : σ} {v : View β} {e : String} (h : BufRead.fillBuf s = .error (.io e) s') :
      Step (s,v) (s',⟨[],v.delivered⟩)
  | consume {s s' : σ} {v : View β} {n : ℕ} (hn : n ≤ v.seen.length) (h : BufRead.consume n s = .ok () s') :
      Step (s,v) (s',⟨v.seen.drop n,v.delivered++v.seen.take n⟩)
  /-- Whether or not it was seen, what a reader that fills its buffer once more would give is consumed. -/
  | consumeUnseen {s s' t : σ} {v : View β} {n : ℕ} {b : List β} (hfill : BufRead.fillBuf s = .ok b t) (hn : n ≤ b.length)
      (h : BufRead.consume n s = .ok () s') : Step (s,v) (s',⟨[],v.delivered++b.take n⟩)

section
variable {β σ : Type} [BufRead β σ]

open LawfulBufRead (unread)

/-- What is left of what the caller saw comes next. -/
def Sees [LawfulBufRead β σ] (x : σ × View β) : Prop := x.2.seen <+: unread x.1

/-- An invariant of a reader, and of what it has delivered. -/
def Kept [LawfulBufRead β σ] (K : σ → List β → Prop) : Prop :=
  ∀ x y : σ × View β, Sees x → Step x y → K x.1 x.2.delivered → K y.1 y.2.delivered

theorem Step.sees [LawfulBufRead β σ] {x y : σ × View β} (h : Step x y) (hsees : Sees x) : Sees y := by
  cases h with
  | @read s s' v n b h =>
    rcases LawfulBufRead.read_ok h with hle | ⟨-,hrest⟩
    · have hdrop : v.seen.drop b.length = [] := List.drop_eq_nil_of_le (hsees.trans hle).length_le
      exact hdrop ▸ List.nil_prefix
    · exact (hsees.drop b.length).trans hrest
  | readFails h => exact hsees.trans (LawfulBufRead.read_io h)
  | fill h => exact LawfulBufRead.fill h
  | fillFails h => exact List.nil_prefix
  | @consume s s' v n hn h =>
    by_cases hempty : unread s = []
    · have hseen : v.seen = [] := List.prefix_nil.mp (hempty ▸ hsees)
      rw [Sees,hseen,List.drop_nil]
      exact List.nil_prefix
    · exact (hsees.drop n).trans (LawfulBufRead.consume_ok hempty (hn.trans hsees.length_le) h)
  | consumeUnseen hfill hn h => exact List.nil_prefix

/-- The buffer is filled and then consumed. -/
theorem Kept.fillConsume [LawfulBufRead β σ] {K : σ → List β → Prop} (hK : Kept K) {s s' t : σ} {v : View β} {n : ℕ}
    {b : List β} (hsees : Sees (s,v)) (hfill : BufRead.fillBuf s = .ok b t) (hn : n ≤ b.length)
    (hconsume : BufRead.consume n t = .ok () s') (hs : K s v.delivered) : K s' (v.delivered++b.take n) := by
  have hstep : Step (s,v) (t,⟨b,v.delivered⟩) := .fill hfill
  exact hK (t,⟨b,v.delivered⟩) _ (hstep.sees hsees) (.consume hn hconsume) (hK _ _ hsees hstep hs)

end

end Lib
end Libbit
