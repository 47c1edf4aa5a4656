import Mathlib.Data.List.Basic
import Mathlib.Data.List.GetD
import Mathlib.Tactic.Common

/-! Reading and overwriting a stretch of a buffer, or of memory that is known by its
addresses. -/
namespace Tasking.Bytes

variable {α : Type} {buffer data : List α} {at_ from_ size : ℕ}

/-- The stretch of `size` elements at an offset. -/
def slice (buffer : List α) (offset size : ℕ) : List α := (buffer.drop offset).take size

/-- The buffer with a stretch overwritten. -/
def patch (buffer : List α) (offset : ℕ) (data : List α) : List α :=
  buffer.take offset ++ data ++ buffer.drop (offset + data.length)

@[simp] theorem length_patch (inside : at_ + data.length ≤ buffer.length) :
    (patch buffer at_ data).length = buffer.length := by
  simp only [patch, List.length_append, List.length_take, List.length_drop]
  omega

theorem slice_patch_same (inside : at_ + data.length ≤ buffer.length) :
    slice (patch buffer at_ data) at_ data.length = data := by
  have before : (buffer.take at_).length = at_ := by
    rw [List.length_take]
    omega
  rw [slice, patch, List.append_assoc, List.drop_append, before, Nat.sub_self, List.drop_zero,
    List.drop_eq_nil_of_le (Nat.le_of_eq before), List.nil_append, List.take_left']
  rfl

theorem slice_patch_apart (inside : at_ + data.length ≤ buffer.length)
    (apart : from_ + size ≤ at_ ∨ at_ + data.length ≤ from_) :
    slice (patch buffer at_ data) from_ size = slice buffer from_ size := by
  apply List.ext_getElem?
  intro i
  simp only [slice, List.getElem?_take, List.getElem?_drop, patch]
  split
  · next small =>
    rw [List.append_assoc, List.getElem?_append, List.length_take]
    rcases apart with before | after
    · rw [if_pos (by omega), List.getElem?_take, if_pos (by omega)]
    · rw [if_neg (by omega), List.getElem?_append, if_neg (by omega), List.getElem?_drop]
      congr 1
      omega
  · rfl

theorem take_slice {k : ℕ} (short : k ≤ size) :
    (slice buffer at_ size).take k = slice buffer at_ k := by
  rw [slice, List.take_take, Nat.min_eq_left short, slice]

/-! ### Memory by address -/

section Addresses

variable {bytes : ℕ → α} {offset i : ℕ}

/-- The memory with a stretch overwritten. -/
def poke (bytes : ℕ → α) (offset : ℕ) (data : List α) : ℕ → α :=
  fun i => if offset ≤ i then data.getD (i - offset) (bytes i) else bytes i

/-- The stretch of `size` elements at an offset. -/
def peek (bytes : ℕ → α) (offset size : ℕ) : List α :=
  (List.range size).map fun i => bytes (offset + i)

@[simp] theorem length_peek (bytes : ℕ → α) (offset size : ℕ) :
    (peek bytes offset size).length = size := by
  simp [peek]

theorem poke_inside (below : i < data.length) : poke bytes offset data (offset + i) = data[i] := by
  simp [poke, below]

theorem poke_outside (outside : i < offset ∨ offset + data.length ≤ i) :
    poke bytes offset data i = bytes i := by
  simp only [poke]
  split
  · rw [List.getD_eq_default]
    omega
  · rfl

theorem peek_poke_same : peek (poke bytes offset data) offset data.length = data := by
  apply List.ext_getElem
  · simp
  · intro i _ below
    simp only [peek, List.getElem_map, List.getElem_range]
    exact poke_inside below

theorem peek_poke_apart (apart : from_ + size ≤ offset ∨ offset + data.length ≤ from_) :
    peek (poke bytes offset data) from_ size = peek bytes from_ size := by
  apply List.map_congr_left
  intro i member
  rw [List.mem_range] at member
  exact poke_outside (by omega)

end Addresses

end Tasking.Bytes
