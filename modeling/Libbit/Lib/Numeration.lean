import Mathlib

/-! Numbers in a base whose digits are counted from one, so that each number is written in exactly one way. -/
namespace Libbit
namespace Lib
namespace Numeration

variable {b : ℕ} {ds ds' : List (Fin b)}

def value (ds : List (Fin b)) : ℕ := ds.foldl (fun n d => n*b+d.val+1) 0

/-- The least number of so many digits. -/
def least (b : ℕ) : ℕ → ℕ
  | 0 => 0
  | k+1 => least b k*b+1

@[simp] theorem value_nil : value ([] : List (Fin b)) = 0 := rfl

@[simp] theorem value_append (ds : List (Fin b)) (d : Fin b) : value (ds++[d]) = value ds*b+d.val+1 := by
  rw [value,List.foldl_append]
  rfl

/-- The range of the numbers of a length. -/
theorem value_range (ds : List (Fin b)) : least b ds.length ≤ value ds ∧ value ds < least b (ds.length+1) := by
  induction ds using List.reverseRecOn with
  | nil => exact ⟨le_rfl,Nat.succ_pos _⟩
  | append_singleton ds d ih =>
    have hd := d.isLt
    have hlow : least b ds.length*b ≤ value ds*b := Nat.mul_le_mul_right b ih.1
    have hhigh : (value ds+1)*b ≤ least b (ds.length+1)*b := Nat.mul_le_mul_right b ih.2
    rw [Nat.add_mul,Nat.one_mul] at hhigh
    rw [value_append,List.length_append,List.length_singleton]
    constructor
    · rw [least]
      omega
    · rw [least]
      omega

theorem least_mono : Monotone (least b) := by
  apply monotone_nat_of_le_succ
  intro k
  rcases Nat.eq_zero_or_pos b with rfl | hb
  · cases k <;> simp [least]
  · rw [least]
    exact (Nat.le_mul_of_pos_right _ hb).trans (Nat.le_succ _)

/-- A longer text has a larger value. -/
theorem value_lt_of_length_lt (h : ds.length < ds'.length) : value ds < value ds' :=
  ((value_range ds).2.trans_le (least_mono h)).trans_le (value_range ds').1

theorem value_injective : Function.Injective (value (b := b)) := by
  intro ds
  induction ds using List.reverseRecOn with
  | nil =>
    intro ds' h
    cases ds' using List.reverseRecOn with
    | nil => rfl
    | append_singleton ds' d' =>
      rw [value_nil,value_append] at h
      omega
  | append_singleton ds d ih =>
    intro ds' h
    cases ds' using List.reverseRecOn with
    | nil =>
      rw [value_nil,value_append] at h
      omega
    | append_singleton ds' d' =>
      rw [value_append,value_append] at h
      have hsum : value ds*b+d.val = value ds'*b+d'.val := by omega
      have hb : 0 < b := Fin.pos d
      have hd : d.val = d'.val := by
        have hmod := congrArg (·%b) hsum
        simpa [Nat.mul_add_mod_self_right,Nat.mod_eq_of_lt] using hmod
      have hds : value ds = value ds' := by
        rw [hd] at hsum
        exact Nat.eq_of_mul_eq_mul_right hb (Nat.add_right_cancel hsum)
      rw [ih hds,Fin.ext hd]

end Numeration
end Lib
end Libbit
