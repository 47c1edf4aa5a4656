import Mathlib.Algebra.Order.Ring.Int
import Mathlib.Tactic.Linarith

/-! Giving away equal shares one at a time: from what is left, each receiver gets
the whole part of an equal division among those still to be served and the giver.
The shares come out as equal as they can be, and never get smaller. -/
namespace Tasking.EqualShares

/-- The shares of `m` receivers, in the order in which they are served. -/
def shares : (m : ℕ) → (left : ℤ) → List ℤ
  | 0, _ => []
  | m + 1, left => left / (m + 2) :: shares m (left - left / (m + 2))

/-- What the giver keeps. -/
def kept : (m : ℕ) → (left : ℤ) → ℤ
  | 0, left => left
  | m + 1, left => kept m (left - left / (m + 2))

/-- Everyone's part of an equal division among `m` receivers and the giver, rounded
down or rounded up. -/
def Balanced (m : ℕ) (left part : ℤ) : Prop :=
  part = left / (m + 1) ∨ part = (left + m) / (m + 1)

variable {m : ℕ} {left part : ℤ}

/-- The two roundings differ by at most one. -/
theorem up_le_down (left : ℤ) (m : ℕ) : (left + m) / (m + 1) ≤ left / (m + 1) + 1 := by
  have below := Int.lt_ediv_add_one_mul_self left (b := m + 1) (by omega)
  rw [← Int.lt_add_one_iff]
  apply Int.ediv_lt_of_lt_mul (by omega)
  linarith

theorem balanced_iff : Balanced m left part ↔
    left / (m + 1) ≤ part ∧ part ≤ (left + m) / (m + 1) := by
  have order : left / (m + 1) ≤ (left + m) / (m + 1) :=
    Int.ediv_le_ediv (by omega) (by omega)
  have close := up_le_down left m
  unfold Balanced
  omega

/-- After one receiver was served, the parts of the others still lie between the same
bounds. -/
theorem next_bounds (left : ℤ) (m : ℕ) :
    left / (m + 2) ≤ (left - left / (m + 2)) / (m + 1) ∧
      (left - left / (m + 2) + m) / (m + 1) ≤ (left + (m + 1)) / (m + 2) := by
  have above := Int.ediv_mul_le left (b := m + 2) (by omega)
  have below := Int.lt_ediv_add_one_mul_self left (b := m + 2) (by omega)
  have upAbove := Int.lt_ediv_add_one_mul_self (left + (m + 1)) (b := m + 2) (by omega)
  have order : left / (m + 2) ≤ (left + (m + 1)) / (m + 2) := Int.ediv_le_ediv (by omega) (by omega)
  generalize left / (m + 2) = down at *
  generalize (left + (m + 1)) / (m + 2) = up at *
  constructor
  · apply Int.le_ediv_of_mul_le (by omega)
    linarith
  · rw [← Int.lt_add_one_iff]
    apply Int.ediv_lt_of_lt_mul (by omega)
    rcases order.eq_or_lt with rfl | less
    · linarith
    · have : (down + 1) * (m + 1) ≤ up * (m + 1) := by
        apply mul_le_mul_of_nonneg_right <;> omega
      linarith

/-- The parts of a later division are parts of the earlier one. -/
theorem Balanced.of_next (balanced : Balanced m (left - left / (m + 2)) part) :
    Balanced (m + 1) left part := by
  obtain ⟨down, up⟩ := next_bounds left m
  rw [balanced_iff] at balanced ⊢
  push_cast
  rw [show (m : ℤ) + 1 + 1 = m + 2 by omega]
  omega

theorem kept_balanced : Balanced m left (kept m left) := by
  induction m generalizing left with
  | zero => exact .inl (by simp [kept])
  | succ m ih => exact ih.of_next

theorem shares_balanced (member : part ∈ shares m left) : Balanced m left part := by
  induction m generalizing left with
  | zero => simp [shares] at member
  | succ m ih =>
    rcases List.mem_cons.mp member with rfl | later
    · exact .inl (by push_cast; rw [show (m : ℤ) + 1 + 1 = m + 2 by omega])
    · exact (ih later).of_next

/-- Nobody is served less than someone before: what the rounding leaves over goes to those who
come later. -/
theorem shares_sorted : (shares m left).Pairwise (· ≤ ·) := by
  induction m generalizing left with
  | zero => exact .nil
  | succ m ih =>
    rw [shares, List.pairwise_cons]
    refine ⟨fun part member => ?_, ih⟩
    exact (next_bounds left m).1.trans (balanced_iff.mp (shares_balanced member)).1

theorem sum_shares_add_kept : (shares m left).sum + kept m left = left := by
  induction m generalizing left with
  | zero => simp [shares, kept]
  | succ m ih =>
    rw [shares, kept, List.sum_cons, add_assoc, ih]
    omega

end Tasking.EqualShares
