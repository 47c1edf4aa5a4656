import Mathlib.Algebra.Order.Ring.Int
import Mathlib.Tactic.Linarith
import Tasking.Faults

/-! Loop tasks: the iteration range a splittable task carries, `SPLITTABLE`, and
the three strategies for cutting a range in two.  Iteration bounds are C `long`s;
every sum and difference the source computes is wrapped to 64 bits, so that a
statement about these functions is a statement about the machine arithmetic. -/
namespace Tasking.Loops
open Fallible

/-- The value a 64-bit two's complement `long` holds after computing `x`. -/
def long (x : ℤ) : ℤ := x.bmod (2 ^ 64)

/-- `x` is representable in a `long`. -/
def InLong (x : ℤ) : Prop := -2 ^ 63 ≤ x ∧ x < 2 ^ 63

instance (x : ℤ) : Decidable (InLong x) := inferInstanceAs (Decidable (_ ∧ _))

theorem long_eq {x : ℤ} (fits : InLong x) : long x = x := by
  obtain ⟨low, high⟩ := fits
  exact Int.bmod_eq_of_le (by norm_num; omega) (by norm_num; omega)

/-- Computing one past the largest `long` wraps to the smallest. -/
theorem long_overflow : long (2 ^ 63) = -2 ^ 63 := by decide

/-- C's `labs`. -/
def labs (x : ℤ) : ℤ := long |x|

/-- The fields `start`, `cur` and `end` of a task. -/
structure LoopRange where
  start : ℤ
  cur : ℤ
  stop : ℤ
  deriving DecidableEq, Repr

/-- `labs(task->end - task->cur)`. -/
def itersLeft (r : LoopRange) : ℤ := labs (long (r.stop - r.cur))

/-- `SPLITTABLE(t)` of a loop task. -/
def splittable (r : LoopRange) : Prop := 1 < itersLeft r

instance (r : LoopRange) : Decidable (splittable r) := inferInstanceAs (Decidable (_ < _))

/-- `split_half`: C's division rounds toward zero. -/
def splitHalf (r : LoopRange) : ℤ := long (r.cur + (long (r.stop - r.cur)).tdiv 2)

/-- `split_guided`. -/
def splitGuided (numWorkers : ℕ) (r : LoopRange) : Checked ℤ := do
  check (1 < itersLeft r) .splitItersLeft
  let chunk := max ((labs (long (r.stop - r.start))).tdiv numWorkers) 1
  if itersLeft r ≤ chunk then return splitHalf r
  return long (r.stop - chunk)

/-- `split_adaptive`, where `pending` is what the `channel_peek`s and `COUNT_REQ`s
add up to. -/
def splitAdaptive (pending : ℕ) (r : LoopRange) : Checked ℤ := do
  check (1 < itersLeft r) .splitItersLeft
  let numIdle : ℤ := pending + 1
  let chunk := max ((itersLeft r).tdiv (numIdle + 1)) 1
  check (chunk < itersLeft r) .splitChunk
  return long (r.stop - chunk)

/-- `-DSPLIT=[half|guided|adaptive]`. -/
inductive SplitStrategy where
  | half | guided | adaptive
  deriving DecidableEq, Repr

/-- `SPLIT_FUNC`. -/
def splitFunc (strategy : SplitStrategy) (numWorkers pending : ℕ) (r : LoopRange) : Checked ℤ :=
  match strategy with
  | .half => return splitHalf r
  | .guided => splitGuided numWorkers r
  | .adaptive => splitAdaptive pending r

/-- What `split_loop` leaves to the task being split. -/
def LoopRange.lower (r : LoopRange) (split : ℤ) : LoopRange := { r with stop := split }

/-- What `split_loop` gives to the duplicate it sends away. -/
def LoopRange.upper (r : LoopRange) (split : ℤ) : LoopRange := ⟨split, split, r.stop⟩

/-! ### Ranges that run upward

A range of a loop with `lo ≤ hi` is split while `cur` lies below `end`, and then
every difference the strategies compute is exact. -/

variable {r : LoopRange} {numWorkers pending : ℕ}

/-- The range runs upward and all of it fits in a `long`. -/
structure Ascending (r : LoopRange) : Prop where
  start_cur : r.start ≤ r.cur
  cur_stop : r.cur ≤ r.stop
  start_fits : InLong r.start
  stop_fits : InLong r.stop
  width_fits : InLong (r.stop - r.start)

theorem Ascending.left_fits (up : Ascending r) : InLong (r.stop - r.cur) := by
  obtain ⟨startCur, curStop, -, -, -, high⟩ := up
  exact ⟨by omega, by omega⟩

theorem Ascending.itersLeft_eq (up : Ascending r) : itersLeft r = r.stop - r.cur := by
  have exact := up.left_fits
  have upward := up.cur_stop
  rw [itersLeft, long_eq exact, labs, abs_of_nonneg (by omega), long_eq exact]

/-- A cut strictly inside the range needs no wrapping, so that both parts have the bounds that
were computed. -/
theorem Ascending.cut_fits (up : Ascending r) {split : ℤ} (above : r.cur ≤ split)
    (below : split ≤ r.stop) : InLong split := by
  obtain ⟨startCur, -, ⟨low, -⟩, ⟨-, high⟩, -⟩ := up
  exact ⟨by omega, by omega⟩

theorem splitHalf_strict (up : Ascending r) (more : splittable r) :
    r.cur < splitHalf r ∧ splitHalf r < r.stop := by
  rw [splittable, up.itersLeft_eq] at more
  have halved : (r.stop - r.cur).tdiv 2 = (r.stop - r.cur) / 2 :=
    Int.tdiv_eq_ediv_of_nonneg (by omega)
  rw [splitHalf, long_eq up.left_fits, halved, long_eq (up.cut_fits (by omega) (by omega))]
  omega

/-- Cutting off a chunk of at least one and fewer than all iterations. -/
private theorem chunk_strict (up : Ascending r) {chunk : ℤ} (some : 1 ≤ chunk)
    (notAll : chunk < r.stop - r.cur) :
    r.cur < long (r.stop - chunk) ∧ long (r.stop - chunk) < r.stop := by
  rw [long_eq (up.cut_fits (by omega) (by omega))]
  omega

theorem splitGuided_strict (up : Ascending r) (more : splittable r) :
    ∃ split, splitGuided numWorkers r = .ok split ∧ r.cur < split ∧ split < r.stop := by
  have left : 1 < itersLeft r := more
  simp only [splitGuided, check, if_pos left]
  split
  · exact ⟨_, rfl, splitHalf_strict up more⟩
  · rename_i tooMany
    rw [up.itersLeft_eq] at tooMany
    exact ⟨_, rfl, chunk_strict up (le_max_right _ _) (not_le.mp tooMany)⟩

/-- Dividing among the worker itself and at least one thief leaves some of it. -/
private theorem chunk_lt_left (idle : ℕ) {left : ℤ} (more : 1 < left) :
    max (left.tdiv ((idle : ℤ) + 1 + 1)) 1 < left := by
  have share : left.tdiv ((idle : ℤ) + 1 + 1) < left := by
    rw [Int.tdiv_eq_ediv_of_nonneg (by omega)]
    apply Int.ediv_lt_of_lt_mul (by omega)
    nlinarith
  exact max_lt share more

theorem splitAdaptive_strict (up : Ascending r) (more : splittable r) :
    ∃ split, splitAdaptive pending r = .ok split ∧ r.cur < split ∧ split < r.stop := by
  have left : 1 < itersLeft r := more
  have notAll := chunk_lt_left pending left
  refine ⟨long (r.stop - max ((itersLeft r).tdiv ((pending : ℤ) + 1 + 1)) 1), ?_, ?_⟩
  · simp only [splitAdaptive, check, if_pos left, if_pos notAll]
    rfl
  · exact chunk_strict up (le_max_right _ _) (by rwa [up.itersLeft_eq] at notAll ⊢)

/-- Every strategy cuts a splittable range strictly inside, and none of its
assertions fails. -/
theorem splitFunc_strict (strategy : SplitStrategy) (numWorkers pending : ℕ) (up : Ascending r)
    (more : splittable r) :
    ∃ split, splitFunc strategy numWorkers pending r = .ok split ∧
      r.cur < split ∧ split < r.stop := by
  cases strategy with
  | half => exact ⟨_, rfl, splitHalf_strict up more⟩
  | guided => exact splitGuided_strict up more
  | adaptive => exact splitAdaptive_strict up more

end Tasking.Loops
