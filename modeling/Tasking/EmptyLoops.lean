import Tasking.LoopSplitting

/-!
Loops whose lower bound lies above their upper bound.  `ASYNC_FOR` runs no
iteration of such a loop, but `SPLITTABLE` and the splitting strategies look at
`labs(end - cur)`, so the runtime splits it like any other.

A cut in the middle leaves two fragments that run downward again
(`splitHalf_between`).  A cut at `end - chunk` does not: it lies below `end`, and
the fragment above it runs upward (`chunk_runs_upward`).  So splits that halve
are harmless (`Spent.step`), and the others are not.
-/
namespace Tasking.LoopSplitting
open Loops Fallible Transition

variable {lo hi : ℤ} {strategy : SplitStrategy} {numWorkers pending : ℕ} {f : Fragment} {m : Move}
  {pool pool' : Pool} {r : LoopRange}

/-- Downward bounds for which no sum or difference of the runtime leaves the `long`s. -/
structure Downward (lo hi : ℤ) : Prop where
  downward : hi < lo
  hi_fits : InLong hi
  lo_fits : InLong (lo + 1)
  width_fits : InLong (hi - (lo + 1))

/-- The strategy cuts the range in the middle: `split_half` always does, and
`split_guided` when there is no more than one chunk left. -/
def Halves (strategy : SplitStrategy) (numWorkers : ℕ) (r : LoopRange) : Prop :=
  match strategy with
  | .half => True
  | .guided => itersLeft r ≤ max ((labs (long (r.stop - r.start))).tdiv numWorkers) 1
  | .adaptive => False

theorem Halves.cut (halves : Halves strategy numWorkers r) (more : splittable r) :
    splitFunc strategy numWorkers pending r = .ok (splitHalf r) := by
  have left : 1 < itersLeft r := more
  cases strategy with
  | half => rfl
  | guided =>
    simp only [Halves] at halves
    simp only [splitFunc, splitGuided, check, if_pos left, if_pos halves]
    rfl
  | adaptive => exact absurd halves id

/-- The runs in which every split is made in the middle. -/
def halving (strategy : SplitStrategy) (numWorkers : ℕ) (lo hi : ℤ) : System Pool where
  init pool := pool = whole lo hi
  step pool pool' := ∃ k m, stepAt strategy numWorkers pool k m = .ok pool' ∧
    ∀ pending f, m = .split pending → pool.frags[k]? = some f → Halves strategy numWorkers f.range

/-- A fragment without iterations: `cur` is where the range starts, or one past it
once the loop was entered. -/
structure Spent (lo hi : ℤ) (f : Fragment) : Prop where
  low : hi ≤ f.range.stop
  empty : f.range.stop ≤ f.range.start
  high : f.range.start ≤ lo
  place : match f.phase with
    | .waiting | .started => f.range.cur = f.range.start
    | .looping i => i = f.range.start ∧ f.range.cur = f.range.start + 1
    | .body _ => False
    | .done => f.range.cur = f.range.start + 1

theorem Spent.cur (spent : Spent lo hi f) :
    f.range.start ≤ f.range.cur ∧ f.range.cur ≤ f.range.start + 1 := by
  have place := spent.place
  cases phase : f.phase with
  | waiting | started =>
    simp only [phase] at place
    omega
  | looping i =>
    simp only [phase] at place
    omega
  | body i =>
    simp only [phase] at place
  | done =>
    simp only [phase] at place
    omega

/-- The middle of a downward range lies strictly inside it, for C's division rounds toward zero
and more than one iteration is left. -/
theorem splitHalf_between (bounds : Downward lo hi) (low : hi ≤ r.stop) (down : r.stop ≤ r.cur)
    (high : r.cur ≤ lo + 1) (more : splittable r) : r.stop < splitHalf r ∧ splitHalf r < r.cur := by
  obtain ⟨-, ⟨hiLow, -⟩, ⟨-, loHigh⟩, ⟨widthLow, -⟩⟩ := bounds
  have exact : long (r.stop - r.cur) = -(r.cur - r.stop) := by
    rw [long_eq ⟨by omega, by omega⟩]
    omega
  have two : 1 < r.cur - r.stop := by
    by_contra few
    have : itersLeft r = r.cur - r.stop := by
      rw [itersLeft, exact, labs, abs_neg, abs_of_nonneg (by omega), long_eq ⟨by omega, by omega⟩]
    rw [splittable, this] at more
    exact few more
  have half : (-(r.cur - r.stop)).tdiv 2 = -((r.cur - r.stop) / 2) := by
    rw [Int.neg_tdiv, Int.tdiv_eq_ediv_of_nonneg (by omega)]
  rw [splitHalf, exact, half, long_eq ⟨by omega, by omega⟩]
  omega

/-- A cut in the middle leaves two fragments without iterations. -/
theorem Spent.split (bounds : Downward lo hi) (spent : Spent lo hi f) (more : splittable f.range) :
    Spent lo hi { f with range := f.range.lower (splitHalf f.range) } ∧
      Spent lo hi ⟨f.range.upper (splitHalf f.range), .waiting⟩ := by
  obtain ⟨curLow, curHigh⟩ := spent.cur
  obtain ⟨low, empty, high, place⟩ := spent
  obtain ⟨above, below⟩ :=
    splitHalf_between bounds low (by omega) (by omega) more
  constructor
  · exact ⟨by simp only [LoopRange.lower]; omega, by simp only [LoopRange.lower]; omega,
      high, place⟩
  · exact ⟨low, above.le, by simp only [LoopRange.upper]; omega, rfl⟩

/-- What one move makes of a fragment without iterations: it executes nothing, and
no assertion fails. -/
theorem Spent.move (bounds : Downward lo hi) (spent : Spent lo hi f)
    (halves : ∀ pending, m = .split pending → Halves strategy numWorkers f.range) :
    Ensures (fun _ => False) (f.move strategy numWorkers m) fun (pieces, ran) =>
      (∀ g ∈ pieces, Spent lo hi g) ∧ ran = [] := by
  have whole := spent
  obtain ⟨low, empty, high, place⟩ := spent
  have next : long (f.range.start + 1) = f.range.start + 1 := by
    obtain ⟨-, ⟨hiLow, -⟩, ⟨-, loHigh⟩, -⟩ := bounds
    exact long_eq ⟨by omega, by omega⟩
  cases m with
  | start =>
    simp only [Fragment.move, ensures_bind, ensures_await, ensures_pure, List.mem_singleton,
      forall_eq, and_true]
    intro phase
    simp only [phase] at place
    exact ⟨low, empty, high, place⟩
  | enter =>
    simp only [Fragment.move, ensures_bind, ensures_await, ensures_check, ensures_pure,
      List.mem_singleton, forall_eq, and_true]
    intro phase
    simp only [phase] at place
    refine ⟨?_, fun different => different place.symm⟩
    intro _
    exact ⟨low, empty, high, rfl, by rw [← next, place]⟩
  | iterate =>
    -- the comparison `i < this->end` fails
    simp only [Fragment.move]
    split
    · next i phase =>
      simp only [phase] at place
      simp only [ensures_bind, ensures_await, ensures_pure]
      intro within
      omega
    · trivial
  | leave =>
    simp only [Fragment.move]
    split
    · next i phase =>
      simp only [phase] at place
      simp only [ensures_bind, ensures_await, ensures_pure, List.mem_singleton, forall_eq, and_true]
      intro _
      exact ⟨low, empty, high, place.2⟩
    · trivial
  | advance =>
    simp only [Fragment.move]
    split
    · next i phase => simp only [phase] at place
    · trivial
  | split pending =>
    simp only [Fragment.move, ensures_bind, ensures_await]
    intro more
    have cut : splitFunc strategy numWorkers pending f.range = .ok (splitHalf f.range) :=
      (halves pending rfl).cut more
    simp only [cut, ensures_ok, ensures_pure, List.mem_cons, List.not_mem_nil, or_false, and_true]
    rintro g (rfl | rfl)
    · exact (whole.split bounds more).1
    · exact (whole.split bounds more).2

theorem Spent.step (bounds : Downward lo hi) (spent : ∀ f ∈ pool.frags, Spent lo hi f) {k : ℕ}
    (halves : ∀ pending f, m = .split pending → pool.frags[k]? = some f →
      Halves strategy numWorkers f.range) :
    Ensures (fun _ => False) (stepAt strategy numWorkers pool k m) fun pool' =>
      (∀ f ∈ pool'.frags, Spent lo hi f) ∧ pool'.executed = pool.executed := by
  unfold stepAt
  split
  · trivial
  · next f atIndex =>
    have member : f ∈ pool.frags := List.mem_of_getElem? atIndex
    have moved := (spent f member).move bounds fun pending same => halves pending f same atIndex
    refine (ensures_bind).mpr (moved.mono ?_)
    rintro ⟨pieces, ran⟩ ⟨spentPieces, rfl⟩
    refine ⟨?_, List.append_nil _⟩
    intro g present
    simp only [List.mem_append] at present
    rcases present with (before | cut) | after
    · exact spent g (List.mem_of_mem_take before)
    · exact spentPieces g cut
    · exact spent g (List.mem_of_mem_drop after)

/-- A strategy that does not halve cuts off a chunk at the upper end. -/
theorem cut_of_not_halves (notHalves : ¬ Halves strategy numWorkers r) {split : ℤ}
    (cut : splitFunc strategy numWorkers pending r = .ok split) :
    ∃ chunk, 1 ≤ chunk ∧ chunk < itersLeft r ∧ split = long (r.stop - chunk) := by
  cases strategy with
  | half => exact absurd trivial notHalves
  | guided =>
    simp only [Halves, not_le] at notHalves
    simp only [splitFunc, splitGuided, check] at cut
    split at cut
    · rw [ok_bind, if_neg (not_le.mpr notHalves)] at cut
      exact ⟨_, le_max_right _ _, notHalves, (Except.ok.inj cut).symm⟩
    · cases cut
  | adaptive =>
    simp only [splitFunc, splitAdaptive, check] at cut
    split at cut
    · rw [ok_bind] at cut
      split at cut
      · next fewer => exact ⟨_, le_max_right _ _, fewer, (Except.ok.inj cut).symm⟩
      · cases cut
    · cases cut

/-- Whatever the direction of the range, the fragment cut off as a chunk runs upward:
it has iterations to execute. -/
theorem chunk_runs_upward (notHalves : ¬ Halves strategy numWorkers r) {split : ℤ}
    (cut : splitFunc strategy numWorkers pending r = .ok split) (fits : InLong r.stop)
    (room : -2 ^ 63 ≤ r.stop - itersLeft r) : (r.upper split).start < (r.upper split).stop := by
  obtain ⟨chunk, some, fewer, rfl⟩ := cut_of_not_halves notHalves cut
  obtain ⟨low, high⟩ := fits
  simp only [LoopRange.upper]
  rw [long_eq ⟨by omega, by omega⟩]
  omega

/-- The loop from 4 down to 0 is cut, and the part cut off is run. -/
def cutOff (strategy : SplitStrategy) : Pool :=
  System.follow (fun (m : ℕ × Move) pool => stepAt strategy 2 pool m.1 m.2)
    [(0, .split 0), (1, .start), (1, .enter), (1, .iterate), (1, .advance), (1, .iterate)]
    (whole 4 0)

theorem cutOff_reachable (strategy : SplitStrategy) :
    (system strategy 2 4 0).Reachable (cutOff strategy) :=
  (System.reachable_of_init rfl).follow fun m _ _ _ moved => ⟨m.1, m.2, moved⟩

/-- As long as every split is made in the middle, no fragment of a loop with
`lo > hi` ever executes an iteration. -/
theorem empty_loop_runs_nothing (strategy : SplitStrategy) (numWorkers : ℕ) (lo hi : ℤ)
    (bounds : Downward lo hi) :
    ∀ pool, (halving strategy numWorkers lo hi).Reachable pool →
      pool.executed = [] ∧
        ∀ f ∈ pool.frags, f.range.stop ≤ f.range.start ∧ ∀ i, f.phase ≠ .body i := by
  intro pool reached
  have invariant : pool.executed = [] ∧ ∀ f ∈ pool.frags, Spent lo hi f := by
    refine @System.Reachable.invariant _ _
      (fun pool => pool.executed = [] ∧ ∀ f ∈ pool.frags, Spent lo hi f) ?_ ?_ pool reached
    · rintro pool rfl
      refine ⟨rfl, ?_⟩
      simp only [whole, List.mem_singleton, forall_eq]
      exact ⟨le_rfl, bounds.downward.le, le_rfl, rfl⟩
    · rintro pool pool' - ⟨nothing, spent⟩ ⟨k, m, ran, halves⟩
      obtain ⟨spent', same⟩ := (Spent.step bounds spent halves).value ran
      exact ⟨same.trans nothing, spent'⟩
  refine ⟨invariant.1, ?_⟩
  intro f member
  have spent := invariant.2 f member
  refine ⟨spent.empty, ?_⟩
  intro i phase
  have place := spent.place
  simp only [phase] at place

/-- The loop from 4 down to 0, split by halves. -/
theorem empty_loop_runs_nothing_half :
    Downward 4 0 ∧ ∀ pool, (halving .half 2 4 0).Reachable pool → pool.executed = [] :=
  have bounds : Downward 4 0 := ⟨by decide, by decide, by decide, by decide⟩
  ⟨bounds, fun pool reached => (empty_loop_runs_nothing .half 2 4 0 bounds pool reached).1⟩

/-- The loop from 4 down to 0 again: both other strategies cut it at -2, and the
fragment over [-2, 0) is run. -/
theorem empty_loop_runs_iterations :
    (∃ pool, (system .guided 2 4 0).Reachable pool ∧ pool.executed = [-2, -1]) ∧
    ∃ pool, (system .adaptive 2 4 0).Reachable pool ∧ pool.executed = [-2, -1] :=
  ⟨⟨_, cutOff_reachable .guided, by decide⟩, _, cutOff_reachable .adaptive, by decide⟩

end Tasking.LoopSplitting
