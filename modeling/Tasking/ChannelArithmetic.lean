import Tasking.Channel

/-!
The arithmetic of a channel is done in `unsigned int`s: the number of slots `n + 1`,
the size of the buffer, the offset of a slot, and the number of items between `head`
and `tail`.  `channel_alloc` takes any `size` and `n`.

`exact_of_fits` says that within two bounds all of it is exact, and `fits_of_exact`
that these are the only bounds: past the first the last slots lie outside the buffer,
and past the second `NUM_ITEMS` miscounts a ring that is filled far enough.
-/
namespace Tasking.Channels
open Fallible

/-- The channel `c` has been used, and as many more items were sent than received. -/
inductive Stored (new : Channel) : Channel → ℤ → Prop where
  | new : Stored new new 0
  | sent {c c' : Channel} {k : ℤ} {data : Payload} : Stored new c k →
      data.length ≤ c.itemsize.toNat → channelSend c data = .ok (true, c') → Stored new c' (k + 1)
  | refused {c c' : Channel} {k : ℤ} {data : Payload} : Stored new c k →
      data.length ≤ c.itemsize.toNat → channelSend c data = .ok (false, c') → Stored new c' k
  | received {c c' : Channel} {k : ℤ} {size : ℕ} {data : Payload} : Stored new c k →
      size ≤ c.itemsize.toNat → channelReceive c size = .ok (some data, c') → Stored new c' (k - 1)
  | empty {c c' : Channel} {k : ℤ} {size : ℕ} : Stored new c k →
      size ≤ c.itemsize.toNat → channelReceive c size = .ok (none, c') → Stored new c' k

/-- Where `channel_send` and `channel_receive` find slot `i`. -/
def Channel.offset (c : Channel) (i : UInt32) : ℕ := (i * c.itemsize).toNat

/-- Nothing wraps around in a channel that was allocated as `new`. -/
structure Exact (n : UInt32) (new : Channel) : Prop where
  size : new.size.toNat = n.toNat + 1
  inside : ∀ i ≤ n, new.offset i + new.itemsize.toNat ≤ new.buffer.length
  apart : ∀ i ≤ n, ∀ j ≤ n, i ≠ j → new.offset i + new.itemsize.toNat ≤ new.offset j ∨
    new.offset j + new.itemsize.toNat ≤ new.offset i
  /-- `NUM_ITEMS` is right, whatever was done, and so is `channel_peek`, which does not
  use it for an unbuffered channel. -/
  items : ∀ c k, Stored new c k → c.size = new.size ∧ ((channelPeek c).toNat : ℤ) = k ∧
    (0 < n → ((numItems c).toNat : ℤ) = k)

/-- The bounds within which it is so. -/
def Fits (size n : UInt32) : Prop :=
  (n.toNat + 1) * size.toNat < 2 ^ 32 ∧ 2 * (n.toNat + 1) ≤ 2 ^ 32

variable {size n : UInt32} {impl : Impl} {memory : ℕ → UInt8} {c : Channel}

/-! ## Within the bounds -/

/-- The oldest item may be read in any size: what lies behind the payload that was sent
is read along with it. -/
theorem Holds.resize {m first width : ℕ} {x : Payload} {rest : List Payload}
    (holds : Holds c m first (x :: rest)) (short : width ≤ c.itemsize.toNat) :
    ∃ y : Payload, y.length = width ∧ Holds c m first (y :: rest) := by
  have inside := holds.inside (Nat.mod_lt first (Nat.succ_pos m)) short
  have length : (Bytes.slice c.buffer (first % (m + 1) * c.itemsize.toNat) width).length =
    width := by
    simp only [Bytes.slice, List.length_take, List.length_drop]
    omega
  refine ⟨_, length, holds.size, holds.double, holds.fits, holds.length, holds.room, holds.indices,
    holds.flag, holds.unused, ?_⟩
  intro k y stored
  cases k with
  | zero =>
    cases stored
    rw [length]
    exact ⟨short, rfl⟩
  | succ k => exact holds.contents (k + 1) y stored

theorem stored_holds (fits : Fits size n) {k : ℤ}
    (stored : Stored (channelAlloc size n impl memory) c k) :
    ∃ first items, Holds c n.toNat first items ∧ (items.length : ℤ) = k := by
  induction stored with
  | new => exact ⟨0, [], channelAlloc_holds fits.1 fits.2, rfl⟩
  | sent _ sized ran ih =>
    obtain ⟨first, items, holds, count⟩ := ih
    have sends := channelSend_refines holds sized
    rw [SendsAs, ran] at sends
    split at sends
    · obtain ⟨c', same, holds', -⟩ := sends
      cases same
      exact ⟨first, _, holds', by rw [List.length_append, List.length_singleton]; omega⟩
    · cases sends
  | refused _ sized ran ih =>
    obtain ⟨first, items, holds, count⟩ := ih
    have sends := channelSend_refines holds sized
    rw [SendsAs, ran] at sends
    split at sends
    · obtain ⟨c', same, -⟩ := sends
      cases same
    · cases sends
      exact ⟨first, items, holds, count⟩
  | @received c c' k width data _ sized ran ih =>
    obtain ⟨first, items, holds, count⟩ := ih
    cases items with
    | nil =>
      have receives : channelReceive c width = .ok (none, c) :=
        channelReceive_refines holds (by simp)
      rw [ran] at receives
      cases receives
    | cons x rest =>
      obtain ⟨y, length, holds⟩ := holds.resize sized
      obtain ⟨c', same, holds', -⟩ := channelReceive_refines holds (by simpa using length.symm)
      rw [ran] at same
      cases same
      exact ⟨first + 1, rest, holds', by rw [List.length_cons] at count; omega⟩
  | @empty c c' k width _ sized ran ih =>
    obtain ⟨first, items, holds, count⟩ := ih
    cases items with
    | nil =>
      have receives : channelReceive c width = .ok (none, c) :=
        channelReceive_refines holds (by simp)
      rw [ran] at receives
      cases receives
      exact ⟨first, [], holds, count⟩
    | cons x rest =>
      obtain ⟨y, length, holds⟩ := holds.resize sized
      obtain ⟨c', same, -⟩ := channelReceive_refines holds (by simpa using length.symm)
      rw [ran] at same
      cases same

theorem exact_of_fits (fits : Fits size n) : Exact n (channelAlloc size n impl memory) := by
  have holds := @channelAlloc_holds size n impl memory fits.1 fits.2
  have offset (i : UInt32) (below : i ≤ n) :
      (channelAlloc size n impl memory).offset i = i.toNat * size.toNat :=
    holds.offset (Nat.lt_succ_of_le (UInt32.le_iff_toNat_le.mp below))
  refine ⟨holds.size, ?_, ?_, ?_⟩
  · intro i below
    rw [offset i below]
    exact holds.inside (Nat.lt_succ_of_le (UInt32.le_iff_toNat_le.mp below)) le_rfl
  · intro i below j below' differ
    rw [offset i below, offset j below']
    exact slots_apart (fun same => differ (UInt32.toNat_inj.mp same)) le_rfl
  · intro c k stored
    obtain ⟨first, items, holds', count⟩ := stored_holds fits stored
    refine ⟨UInt32.toNat_inj.mp (holds'.size.trans holds.size.symm), ?_, ?_⟩
    · rw [channelPeek_refines holds', count]
    · intro buffered
      rw [holds'.numItems (UInt32.lt_iff_toNat_lt.mp buffered), count]

/-! ## Outside the bounds -/

/-- A slot that would end past the largest `unsigned int` is outside the buffer. -/
theorem slots_outside (positive : 1 ≤ size) (large : 2 ^ 32 ≤ (n.toNat + 1) * size.toNat) :
    ∃ i ≤ n, (channelAlloc size n impl memory).buffer.length <
      (channelAlloc size n impl memory).offset i + size.toNat := by
  have some : 1 ≤ size.toNat := UInt32.le_iff_toNat_le.mp positive
  have above := Nat.div_mul_le_self (2 ^ 32 - 1) size.toNat
  have below : 2 ^ 32 - 1 < ((2 ^ 32 - 1) / size.toNat + 1) * size.toNat :=
    Nat.lt_mul_of_div_lt (Nat.lt_succ_self _) some
  generalize (2 ^ 32 - 1) / size.toNat = i at above below
  have few : i ≤ n.toNat := by
    by_contra many
    have : (n.toNat + 1) * size.toNat ≤ i * size.toNat := Nat.mul_le_mul_right _ (by omega)
    omega
  have known : (UInt32.ofNat i).toNat = i := by
    have := n.toNat_lt
    rw [UInt32.toNat_ofNat']
    omega
  refine ⟨UInt32.ofNat i, ?_, ?_⟩
  · rw [UInt32.le_iff_toNat_le, known]
    exact few
  · have offset : (channelAlloc size n impl memory).offset (UInt32.ofNat i) = i * size.toNat := by
      change (UInt32.ofNat i * size).toNat = _
      rw [UInt32.toNat_mul, known]
      omega
    have short := ((n + 1) * size).toNat_lt
    rw [offset, channelAlloc_length]
    rw [Nat.succ_mul] at below
    omega

/-- A ring of one-byte items, filled from the start. -/
structure Filled (n : UInt32) (c : Channel) (k : ℕ) : Prop where
  size : c.size.toNat = n.toNat + 1
  itemsize : c.itemsize = 1
  length : c.buffer.length = n.toNat + 1
  head : c.head = 0
  tail : c.tail.toNat = k

theorem Filled.width {k : ℕ} (filled : Filled n c k) : (c.size - 1).toNat = n.toNat := by
  have size := filled.size
  have := c.size.toNat_lt
  rw [UInt32.toNat_sub, UInt32.toNat_one]
  omega

theorem Filled.numItems {k : ℕ} (filled : Filled n c k) :
    (numItems c).toNat = (n.toNat + 1 + k) % 2 ^ 32 % (n.toNat + 1) := by
  rw [Channels.numItems, filled.head, UInt32.sub_zero, UInt32.toNat_mod, UInt32.toNat_add,
    filled.size, filled.tail]

/-- As long as `size + tail` does not wrap around, one more item is accepted. -/
theorem Filled.send {k : ℕ} (filled : Filled n c k) (many : 2 ^ 31 ≤ n.toNat)
    (more : n.toNat + 1 + k < 2 ^ 32) :
    ∃ c', channelSend c [0] = .ok (true, c') ∧ Filled n c' (k + 1) := by
  have width := filled.width
  have buffered : channelBuffered c = true := by
    simp only [channelBuffered, UInt32.lt_iff_toNat_lt, width, UInt32.toNat_zero, decide_eq_true_eq]
    omega
  have count : (Channels.numItems c).toNat = k := by
    rw [filled.numItems, Nat.mod_eq_of_lt more, Nat.add_mod_left, Nat.mod_eq_of_lt (by omega)]
  have room : isFull c = false := by
    rw [isFull, beq_eq_false_iff_ne, ne_eq, ← UInt32.toNat_inj, count, width]
    omega
  have offset : (c.tail * c.itemsize).toNat = k := by
    rw [filled.itemsize, UInt32.mul_one, filled.tail]
  have copied : c.copyIn (c.tail * c.itemsize) [0] =
      .ok { c with buffer := Bytes.patch c.buffer k [0] } := by
    rw [copyIn_eq (by rw [offset, filled.length, List.length_singleton]; omega), offset]
  have next : (inc c.tail c.size).toNat = k + 1 := by
    rw [inc, UInt32.toNat_mod, UInt32.toNat_add, filled.size, filled.tail, UInt32.toNat_one,
      Nat.mod_eq_of_lt (a := k + 1) (by omega), Nat.mod_eq_of_lt (by omega)]
  refine ⟨{ c with buffer := Bytes.patch c.buffer k [0], tail := inc c.tail c.size }, ?_,
    filled.size, filled.itemsize, ?_, filled.head, next⟩
  · have one : ([0] : Payload).length ≤ c.itemsize.toNat := by
      rw [filled.itemsize]
      exact le_rfl
    have mpmc : channelSendMpmc c [0] =
        .ok (true, { c with buffer := Bytes.patch c.buffer k [0], tail := inc c.tail c.size }) := by
      simp only [channelSendMpmc, buffered, Bool.not_true, Bool.false_eq_true, if_false,
        room, check, Bool.not_false, if_true, if_pos one, ok_bind, copied]
      rfl
    have spsc : channelSendSpsc c [0] =
        .ok (true, { c with buffer := Bytes.patch c.buffer k [0], tail := inc c.tail c.size }) := by
      simp only [channelSendSpsc, buffered, Bool.not_true, Bool.false_eq_true, if_false,
        room, check, Bool.not_false, if_true, if_pos one, ok_bind, copied]
      rfl
    unfold channelSend
    split
    · exact mpmc
    · exact mpmc
    · exact spsc
  · rw [Bytes.length_patch (by rw [filled.length, List.length_singleton]; omega)]
    exact filled.length

/-- So a ring that is large enough can be filled up to the point where it does. -/
theorem stored_filled (many : 2 ^ 31 ≤ n.toNat) (fits : n.toNat + 1 < 2 ^ 32) {k : ℕ}
    (few : n.toNat + 1 + k ≤ 2 ^ 32) :
    ∃ c, Stored (channelAlloc 1 n impl memory) c k ∧ Filled n c k := by
  induction k with
  | zero =>
    have next : (n + 1).toNat = n.toNat + 1 := by
      rw [UInt32.toNat_add, UInt32.toNat_one]
      omega
    refine ⟨_, .new, next, rfl, ?_, rfl, rfl⟩
    rw [channelAlloc_length, UInt32.mul_one, next]
  | succ k ih =>
    obtain ⟨c, stored, filled⟩ := ih (by omega)
    obtain ⟨c', ran, filled'⟩ := filled.send many (by omega)
    have one : ([0] : Payload).length ≤ c.itemsize.toNat := by
      rw [filled.itemsize]
      exact le_rfl
    refine ⟨c', ?_, filled'⟩
    push_cast
    exact .sent stored one ran

/-- Outside the bounds something is not exact: a slot lies outside the buffer, or a ring is
filled past the point where its count wraps around. -/
theorem fits_of_exact (positive : 1 ≤ size) (exact_ : Exact n (channelAlloc size n impl memory)) :
    Fits size n := by
  have some : 1 ≤ size.toNat := UInt32.le_iff_toNat_le.mp positive
  have bytes : (n.toNat + 1) * size.toNat < 2 ^ 32 := by
    by_contra large
    obtain ⟨i, below, outside⟩ := @slots_outside size n impl memory positive (not_lt.mp large)
    exact absurd (exact_.inside i below) (not_le.mpr outside)
  refine ⟨bytes, ?_⟩
  by_contra large
  -- more than half of the `unsigned int`s are slots, so a slot has one byte
  have one : size = 1 := by
    have : size.toNat < 2 := by
      by_contra two
      have : (n.toNat + 1) * 2 ≤ (n.toNat + 1) * size.toNat := Nat.mul_le_mul_left _ (by omega)
      omega
    apply UInt32.toNat_inj.mp
    rw [UInt32.toNat_one]
    omega
  subst one
  rw [UInt32.toNat_one, Nat.mul_one] at bytes
  have many : 2 ^ 31 ≤ n.toNat := by omega
  obtain ⟨c, stored, filled⟩ := @stored_filled n impl memory many bytes (2 ^ 32 - (n.toNat + 1))
    (by omega)
  have counted := (exact_.items c _ stored).2.2 (UInt32.lt_iff_toNat_lt.mpr (by
    rw [UInt32.toNat_zero]
    omega))
  rw [filled.numItems, Nat.add_sub_cancel' (by omega), Nat.mod_self, Nat.zero_mod] at counted
  omega

/-- The arithmetic of a new channel is exact if and only if the buffer's bytes and twice
its slots can be counted in an `unsigned int`. -/
theorem channel_arithmetic_exact (size n : UInt32) (positive : 1 ≤ size) (impl : Impl)
    (memory : ℕ → UInt8) :
    Exact n (channelAlloc size n impl memory) ↔
      (n.toNat + 1) * size.toNat < 2 ^ 32 ∧ 2 * (n.toNat + 1) ≤ 2 ^ 32 :=
  ⟨fits_of_exact positive, exact_of_fits⟩

theorem channel_arithmetic_exact_four :
    1 ≤ (4 : UInt32) ∧ Exact 3 (channelAlloc 4 3 .mpsc fun _ => 0) :=
  ⟨by decide, (channel_arithmetic_exact 4 3 (by decide) .mpsc fun _ => 0).mpr (by decide)⟩

/-- `channel_alloc` accepts 65535 items of 65536 bytes each with a buffer of no bytes, so
that the first send leaves it; and with the largest `n` there is no slot to divide by. -/
theorem buffer_size_wraps :
    (channelAlloc 65536 65535 .spsc fun _ => 0).buffer.length = 0 ∧
    channelSend (channelAlloc 65536 65535 .spsc fun _ => 0) [7] = .error (.fault .bounds) ∧
    ¬ Exact 65535 (channelAlloc 65536 65535 .spsc fun _ => 0) ∧
    (channelAlloc 1 4294967295 .spsc fun _ => 0).size = 0 := by
  refine ⟨by decide, by decide, ?_, by decide⟩
  intro exact_
  have inside := exact_.inside 0 (by decide)
  revert inside
  decide

end Tasking.Channels
