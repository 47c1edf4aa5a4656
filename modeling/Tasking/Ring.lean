import Mathlib.Data.Nat.ModEq
import Mathlib.Tactic.Common

/-! Positions in a ring of `size` slots.  Items are numbered from the first one
ever inserted, and item `i` goes to slot `i % size`; so two counters that never
wrap describe a ring whose indices do. -/
namespace Tasking.Ring

variable {size i j h t : ℕ}

/-- Fewer than `size` consecutive items are in different slots. -/
theorem slot_injective (order : i ≤ j) (near : j - i < size) (same : i % size = j % size) :
    i = j := by
  have divides : size ∣ j - i := (Nat.modEq_iff_dvd' order).mp same
  have none : j - i = 0 := Nat.eq_zero_of_dvd_of_lt divides near
  omega

theorem slot_ne (order : i < j) (near : j - i < size) : i % size ≠ j % size :=
  fun same => absurd (slot_injective order.le near same) order.ne

theorem slot_succ : (i % size + 1) % size = (i + 1) % size := Nat.mod_add_mod i size 1

/-- The next index, computed in 32 bits: it cannot overflow before the remainder
is taken. -/
theorem toNat_next {index width : UInt32} (sized : width.toNat = size)
    (here : index.toNat = i % size) (positive : 0 < size) :
    ((index + 1) % width).toNat = (i + 1) % size := by
  have small : index.toNat < size := here ▸ Nat.mod_lt i positive
  have bound : width.toNat < 2 ^ 32 := width.toNat_lt
  have exact : (index + 1).toNat = index.toNat + 1 := by
    rw [UInt32.toNat_add, UInt32.toNat_one]
    omega
  rw [UInt32.toNat_mod, exact, sized, here, slot_succ]

/-- The occupancy computed from the two indices. -/
def distance (size tail head : ℕ) : ℕ := (size + tail - head) % size

theorem distance_lt (positive : 0 < size) (tail head : ℕ) : distance size tail head < size :=
  Nat.mod_lt _ positive

/-- The computed occupancy is the number of items, up to full rounds: the indices do not tell a
full ring from an empty one. -/
theorem distance_modEq (positive : 0 < size) (order : h ≤ t) :
    distance size (t % size) (h % size) ≡ t - h [MOD size] := by
  have below : h % size ≤ size + t % size := (Nat.mod_lt h positive).le.trans (Nat.le_add_right _ _)
  apply Nat.ModEq.trans (Nat.mod_modEq _ _)
  apply Nat.ModEq.add_right_cancel (Nat.mod_modEq h size)
  rw [Nat.sub_add_cancel below, Nat.sub_add_cancel order]
  simpa using Nat.mod_modEq t size

/-- The computed occupancy is exact while there are fewer items than slots. -/
theorem distance_eq (order : h ≤ t) (room : t - h < size) :
    distance size (t % size) (h % size) = t - h := by
  have positive : 0 < size := Nat.zero_lt_of_lt room
  exact (distance_modEq positive order).eq_of_lt_of_lt (distance_lt positive _ _) room

end Tasking.Ring
