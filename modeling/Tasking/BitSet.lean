import Mathlib.Algebra.Ring.Parity
import Mathlib.Data.List.Perm.Subperm
import Mathlib.Data.Nat.BitIndices
import Mathlib.Tactic.Common

/-! Sets of small numbers as bit vectors: membership is a bit, and the usual ways of
taking an element out, of counting and of listing the elements, in terms of it. -/
namespace Tasking.BitSet

variable {w : ℕ} {v : BitVec w} {n i : ℕ}

theorem getLsbD_one_shiftLeft : (1#w <<< n).getLsbD i = (decide (i < w) && decide (i = n)) := by
  rw [← BitVec.twoPow_eq, BitVec.getLsbD_twoPow]
  by_cases inside : i < w <;> by_cases same : i = n
  · simp [same]
  · simp [same, Ne.symm same]
  · subst same
    simp [inside]
  · simp [same, Ne.symm same, inside]

theorem getLsbD_clear : (v &&& ~~~ (1#w <<< n)).getLsbD i = (v.getLsbD i && decide (i ≠ n)) := by
  rw [BitVec.getLsbD_and, BitVec.getLsbD_not, getLsbD_one_shiftLeft]
  by_cases inside : i < w
  · simp [inside]
  · simp [BitVec.getLsbD_of_ge v i (by omega)]

theorem and_one_shiftLeft_ne_zero : (v &&& 1#w <<< n != 0#w) = v.getLsbD n := by
  cases known : v.getLsbD n with
  | true =>
    have inside : n < w := BitVec.lt_of_getLsbD known
    rw [bne_iff_ne]
    intro zero
    have bit : (v &&& 1#w <<< n).getLsbD n = true := by
      rw [BitVec.getLsbD_and, getLsbD_one_shiftLeft, known]
      simp [inside]
    rw [zero, BitVec.getLsbD_zero] at bit
    cases bit
  | false =>
    rw [bne_eq_false_iff_eq]
    apply BitVec.eq_of_getLsbD_eq
    intro j inside
    rw [BitVec.getLsbD_and, getLsbD_one_shiftLeft, BitVec.getLsbD_zero]
    by_cases same : j = n
    · subst same
      simp [known]
    · simp [same]

/-- The set of all numbers below `n`. -/
theorem getLsbD_low (fits : n < w) : (1#w <<< n - 1#w).getLsbD i = decide (i < n) := by
  have power : (1#w <<< n).toNat = 2 ^ n := by
    rw [← BitVec.twoPow_eq, BitVec.toNat_twoPow_of_lt fits]
  have low : (1#w <<< n - 1#w).toNat = 2 ^ n - 1 := by
    have positive : 0 < 2 ^ n := Nat.two_pow_pos n
    have small : 2 ^ n < 2 ^ w := Nat.pow_lt_pow_right (by omega) fits
    have one : (1#w).toNat = 1 := BitVec.toNat_one (by omega)
    rw [BitVec.toNat_sub_of_le]
    · rw [power, one]
    · rw [BitVec.le_def, power, one]
      exact positive
  rw [BitVec.getLsbD, low, Nat.testBit_two_pow_sub_one]

theorem eq_zero_iff : v = 0#w ↔ ∀ i, v.getLsbD i = false := by
  constructor
  · rintro rfl i
    exact BitVec.getLsbD_zero
  · intro empty
    apply BitVec.eq_of_getLsbD_eq
    intro i _
    rw [empty i, BitVec.getLsbD_zero]

/-! ## Counting and listing -/

theorem land_pred_even {n : ℕ} (positive : 0 < n) : 2 * n &&& (2 * n - 1) =
    2 * (n &&& (n - 1)) := by
  apply Nat.eq_of_testBit_eq
  intro i
  have odd : 2 * n - 1 = 2 * (n - 1) + 1 := by omega
  cases i with
  | zero => simp [odd]
  | succ i =>
    rw [Nat.testBit_and, odd]
    simp [Nat.testBit_succ, Nat.mul_add_div]

theorem land_pred_odd {n : ℕ} : (2 * n + 1) &&& (2 * n + 1 - 1) = 2 * n := by
  apply Nat.eq_of_testBit_eq
  intro i
  cases i with
  | zero => simp
  | succ i =>
    rw [Nat.testBit_and, Nat.add_sub_cancel]
    simp [Nat.testBit_succ, Nat.mul_add_div]

/-- `n & (n - 1)` has one element less: the lowest bit is borrowed from, and those above it
stay. -/
theorem length_bitIndices_land_pred {n : ℕ} (positive : 0 < n) :
    (n &&& (n - 1)).bitIndices.length + 1 = n.bitIndices.length := by
  induction n using Nat.strong_induction_on with
  | _ n ih =>
    rcases Nat.even_or_odd' n with ⟨k, rfl | rfl⟩
    · rw [land_pred_even (by omega), Nat.bitIndices_two_mul, Nat.bitIndices_two_mul,
        List.length_map, List.length_map]
      exact ih k (by omega) (by omega)
    · rw [land_pred_odd, Nat.bitIndices_two_mul, Nat.bitIndices_two_mul_add_one]
      simp

/-- The same at a fixed width. -/
theorem length_bitIndices_and_sub_one (some_ : v ≠ 0#w) :
    (v &&& (v - 1#w)).toNat.bitIndices.length + 1 = v.toNat.bitIndices.length := by
  have positive : 0 < v.toNat := by
    rw [Nat.pos_iff_ne_zero]
    exact fun zero => some_ (BitVec.eq_of_toNat_eq zero)
  have wide : 0 < w := by
    rw [Nat.pos_iff_ne_zero]
    rintro rfl
    exact some_ (BitVec.eq_nil v)
  have one : (1#w).toNat = 1 := BitVec.toNat_one wide
  have less : (v &&& (v - 1#w)).toNat = v.toNat &&& (v.toNat - 1) := by
    rw [BitVec.toNat_and, BitVec.toNat_sub_of_le, one]
    rw [BitVec.le_def, one]
    exact positive
  rw [less]
  exact length_bitIndices_land_pred positive

/-- The elements of a set, shifted up by `i`, from those of the set shifted down by one. -/
theorem bitIndices_shift (v : BitVec w) (i : ℕ) : v.toNat.bitIndices.map (· + i) =
    if v.getLsbD 0 then i :: (v >>> 1).toNat.bitIndices.map (· + (i + 1))
    else (v >>> 1).toNat.bitIndices.map (· + (i + 1)) := by
  have half : (v >>> 1).toNat = v.toNat / 2 := by
    rw [BitVec.toNat_ushiftRight, Nat.shiftRight_one]
  have shifted (l : List ℕ) : l.map (· + (i + 1)) = (l.map (· + 1)).map (· + i) := by
    rw [List.map_map]
    apply List.map_congr_left
    intro j _
    simp only [Function.comp]
    omega
  rw [half, shifted, BitVec.getLsbD, Nat.testBit_zero]
  rcases Nat.mod_two_eq_zero_or_one v.toNat with even | odd
  · have whole : v.toNat = 2 * (v.toNat / 2) := by omega
    rw [even]
    conv_lhs => rw [whole, Nat.bitIndices_two_mul]
    rfl
  · have whole : v.toNat = 2 * (v.toNat / 2) + 1 := by omega
    rw [odd]
    conv_lhs => rw [whole, Nat.bitIndices_two_mul_add_one]
    simp

theorem length_bitIndices_le {n k : ℕ} (small : n < 2 ^ k) : n.bitIndices.length ≤ k := by
  have within : n.bitIndices ⊆ List.range k := by
    intro i known
    rw [List.mem_range]
    have power := Nat.two_pow_le_of_mem_bitIndices known
    exact (Nat.pow_lt_pow_iff_right (by omega)).mp (power.trans_lt small)
  simpa using (List.subperm_of_subset Nat.bitIndices_nodup within).length_le

end Tasking.BitSet
