import Mathlib.Order.Interval.Multiset
import Mathlib.Data.Int.Interval
import Mathlib.Algebra.BigOperators.Group.Multiset.Basic
import Mathlib.Tactic.Abel
import Tasking.Loops
import Tasking.Transition

/-!
What becomes of one loop task.  The task and the fragments `split_loop` cuts off
it form a pool; a step moves one fragment of the pool through `ASYNC_FOR`, or
splits it.  Which worker runs a fragment, how it got there and when requests
arrive is left open: any fragment may take any step that its own state allows, so
every interleaving of the runtime is an interleaving here.

- `stepAt_sound`: a step never fails an assertion, and preserves `Sound`: the
  iterations executed together with those the fragments still hold are the
  iteration space, each once.
- `weight_decreases`: every step uses up some of a finite weight, so a loop
  cannot be split or run for ever, and `unfinished_moves` says that it only stops
  with every fragment done.
-/
namespace Tasking.LoopSplitting
open Loops Fallible Transition

/-- The order of the integers with which their intervals compute; the library has
another one that it would take first. -/
@[reducible] def intervalOrder : Preorder ℤ := Int.instLinearOrder.toPreorder

attribute [local instance] intervalOrder

/-- Where a fragment is in its task function. -/
inductive Phase where
  /-- In a deque, in a channel, or just popped: not passed to `run_task` yet. -/
  | waiting
  /-- Running, `ASYNC_FOR` not reached. -/
  | started
  /-- About to compare `i` with `end`, or polling just before. -/
  | looping (i : ℤ)
  /-- In the loop body. -/
  | body (i : ℤ)
  /-- Past the loop. -/
  | done
  deriving DecidableEq, Repr

structure Fragment where
  range : LoopRange
  phase : Phase
  deriving DecidableEq, Repr

structure Pool where
  frags : List Fragment
  /-- The iterations whose body has been entered, in order. -/
  executed : List ℤ
  deriving DecidableEq, Repr

inductive Move where
  | start | enter | iterate | leave | advance
  /-- A steal request is served; `pending` is what `split_adaptive` counts. -/
  | split (pending : ℕ)
  deriving DecidableEq, Repr

/-- `for (i = this->start, this->cur++; i < this->end; i++, this->cur++, POLL())`
of `ASYNC_FOR_EACH`, cut at the points where the runtime may intervene, and
`split_loop`.  Returns what the fragment becomes, with the fragment split off it
if there is one, and the iterations it executed. -/
def Fragment.move (strategy : SplitStrategy) (numWorkers : ℕ) (f : Fragment) :
    Move → Checked (List Fragment × List ℤ)
  | .start => do
    await (f.phase = .waiting)
    return ([{ f with phase := .started }], [])
  | .enter => do
    await (f.phase = .started)
    check (f.range.start = f.range.cur) .asyncForStart
    return ([⟨{ f.range with cur := long (f.range.cur + 1) }, .looping f.range.start⟩], [])
  | .iterate =>
    match f.phase with
    | .looping i => do
      await (i < f.range.stop)
      return ([{ f with phase := .body i }], [i])
    | _ => .error .disabled
  | .leave =>
    match f.phase with
    | .looping i => do
      await (¬ i < f.range.stop)
      return ([{ f with phase := .done }], [])
    | _ => .error .disabled
  | .advance =>
    match f.phase with
    | .body i =>
      return ([⟨{ f.range with cur := long (f.range.cur + 1) }, .looping (long (i + 1))⟩], [])
    | _ => .error .disabled
  | .split pending => do
    await (splittable f.range)
    let split ← splitFunc strategy numWorkers pending f.range
    return ([{ f with range := f.range.lower split }, ⟨f.range.upper split, .waiting⟩], [])

def stepAt (strategy : SplitStrategy) (numWorkers : ℕ) (pool : Pool) (k : ℕ) (m : Move) :
    Checked Pool :=
  match pool.frags[k]? with
  | none => .error .disabled
  | some f => do
    let (pieces, ran) ← f.move strategy numWorkers m
    return ⟨pool.frags.take k ++ pieces ++ pool.frags.drop (k + 1), pool.executed ++ ran⟩

/-- `ASYNC(fun, (lo, hi), …)`: the loop before anything happens to it. -/
def whole (lo hi : ℤ) : Pool := ⟨[⟨⟨lo, lo, hi⟩, .waiting⟩], []⟩

/-- The loop over `[lo, hi)`, run and split in every possible way. -/
def system (strategy : SplitStrategy) (numWorkers : ℕ) (lo hi : ℤ) : System Pool where
  init pool := pool = whole lo hi
  step pool pool' := ∃ k m, stepAt strategy numWorkers pool k m = .ok pool'

/-! ## What a fragment still has to execute -/

/-- The iterations a fragment will execute if it is not split any more. -/
def Fragment.remaining (f : Fragment) : Multiset ℤ :=
  match f.phase with
  | .waiting | .started => Multiset.Ico f.range.start f.range.stop
  | .looping i => Multiset.Ico i f.range.stop
  | .body i => Multiset.Ico (i + 1) f.range.stop
  | .done => 0

/-- What the runtime relies on about a fragment of a loop over `[lo, hi)`.  Once
in the loop, `cur` runs one ahead of the loop variable; it may only wrap around
when the loop is over. -/
def Fragment.Ok (lo hi : ℤ) (f : Fragment) : Prop :=
  lo ≤ f.range.start ∧ f.range.stop ≤ hi ∧
    match f.phase with
    | .waiting | .started => f.range.cur = f.range.start ∧ f.range.start ≤ f.range.stop
    | .looping i => f.range.cur = long (i + 1) ∧ f.range.start ≤ i ∧ i ≤ f.range.stop
    | .body i => f.range.cur = long (i + 1) ∧ f.range.start ≤ i ∧ i < f.range.stop
    | .done => f.range.cur = long (f.range.stop + 1) ∧ f.range.start ≤ f.range.stop

/-- The loop bounds considered: an upward range whose width is a `long`. -/
structure Bounds (lo hi : ℤ) : Prop where
  upward : lo ≤ hi
  lo_fits : InLong lo
  hi_fits : InLong hi
  width_fits : InLong (hi - lo)

variable {lo hi : ℤ} {strategy : SplitStrategy} {numWorkers : ℕ} {f : Fragment} {m : Move}
  {pieces : List Fragment} {ran : List ℤ} {pool pool' : Pool}

/-- A fragment that has used up its range cannot be split: `cur` is one past
`end`, or has wrapped around to the other end of the `long`s. -/
private theorem exhausted_not_splittable {r : LoopRange} (fits : InLong r.stop)
    (ahead : r.cur = long (r.stop + 1)) : ¬ splittable r := by
  have one : itersLeft r = 1 := by
    by_cases last : r.stop = 2 ^ 63 - 1
    · have wrapped : r.cur = -2 ^ 63 := by
        rw [ahead, last]
        exact long_overflow
      rw [itersLeft, wrapped, last]
      decide
    · obtain ⟨low, high⟩ := fits
      rw [long_eq ⟨by omega, by omega⟩] at ahead
      rw [itersLeft, ahead, show r.stop - (r.stop + 1) = -1 by omega]
      decide
  rw [splittable, one]
  decide

/-- A fragment that can be split has its range ahead of it: nothing has wrapped,
and the iteration it is at stays with it. -/
theorem splittable_ascending (bounds : Bounds lo hi) (ok : f.Ok lo hi) (more : splittable f.range) :
    Ascending f.range ∧
      (∀ i, f.phase = .looping i ∨ f.phase = .body i → f.range.cur = i + 1) := by
  obtain ⟨-, ⟨loLow, -⟩, ⟨-, hiHigh⟩, ⟨-, widthHigh⟩⟩ := bounds
  obtain ⟨above, below, inPhase⟩ := ok
  have stopFits : f.range.start ≤ f.range.stop → InLong f.range.stop :=
    fun upward => ⟨by omega, by omega⟩
  cases phase : f.phase with
  | waiting | started =>
    simp only [phase] at inPhase
    obtain ⟨fresh, upward⟩ := inPhase
    exact ⟨⟨by omega, by omega, ⟨by omega, by omega⟩, stopFits upward, ⟨by omega, by omega⟩⟩,
      by simp⟩
  | looping i =>
    simp only [phase] at inPhase
    obtain ⟨ahead, started, within⟩ := inPhase
    have notLast : i < f.range.stop := by
      by_contra past
      obtain rfl : i = f.range.stop := by omega
      exact exhausted_not_splittable (stopFits (by omega)) ahead more
    rw [long_eq ⟨by omega, by omega⟩] at ahead
    exact ⟨⟨by omega, by omega, ⟨by omega, by omega⟩, stopFits (by omega), ⟨by omega, by omega⟩⟩,
      by rintro j (same | same) <;> cases same; exact ahead⟩
  | body i =>
    simp only [phase] at inPhase
    obtain ⟨ahead, started, within⟩ := inPhase
    rw [long_eq ⟨by omega, by omega⟩] at ahead
    exact ⟨⟨by omega, by omega, ⟨by omega, by omega⟩, stopFits (by omega), ⟨by omega, by omega⟩⟩,
      by rintro j (same | same) <;> cases same; exact ahead⟩
  | done =>
    simp only [phase] at inPhase
    exact absurd more (exhausted_not_splittable (stopFits inPhase.2) inPhase.1)

/-! ## One step -/

def Fragment.count (f : Fragment) : ℕ := f.remaining.card

/-- An upper bound on the moves a fragment and everything cut off it can still
make: two per iteration, the moves around the loop, and room for every cut. -/
def Fragment.weight (f : Fragment) : ℕ :=
  2 * f.count + 4 * (f.count - 1) +
    match f.phase with
    | .waiting => 3
    | .started => 2
    | .looping _ => 1
    | .body _ => 2
    | .done => 0

private theorem fragment_bounds (bounds : Bounds lo hi) (ok : f.Ok lo hi) :
    InLong f.range.start ∧ InLong f.range.stop ∧ f.range.start ≤ f.range.stop := by
  obtain ⟨-, ⟨loLow, -⟩, ⟨-, hiHigh⟩, -⟩ := bounds
  obtain ⟨above, below, inPhase⟩ := ok
  have upward : f.range.start ≤ f.range.stop := by
    cases phase : f.phase <;> simp only [phase] at inPhase <;> omega
  exact ⟨⟨by omega, by omega⟩, ⟨by omega, by omega⟩, upward⟩

/-- Cutting a fragment leaves two fragments that hold its iterations between them. -/
private theorem split_sound (bounds : Bounds lo hi) (ok : f.Ok lo hi) {split : ℤ}
    (more : splittable f.range) (above : f.range.cur < split) (below : split < f.range.stop) :
    let kept : Fragment := { f with range := f.range.lower split }
    let sent : Fragment := ⟨f.range.upper split, .waiting⟩
    kept.Ok lo hi ∧ sent.Ok lo hi ∧ kept.remaining + sent.remaining = f.remaining ∧
      kept.weight + sent.weight < f.weight := by
  intro kept sent
  obtain ⟨up, ahead⟩ := splittable_ascending bounds ok more
  have startCur := up.start_cur
  obtain ⟨lower, upper, inPhase⟩ := ok
  have sentOk : sent.Ok lo hi := ⟨by simp only [sent, LoopRange.upper]; omega, upper, rfl, below.le⟩
  have sentRest : sent.remaining = Multiset.Ico split f.range.stop := rfl
  have sentCount : sent.count = (f.range.stop - split).toNat := by
    simp [Fragment.count, sentRest, Multiset.Ico]
  -- The kept fragment holds what lies between its place in the loop and the cut.
  have parts : ∀ from_ : ℤ, from_ ≤ f.range.cur → f.remaining = Multiset.Ico from_ f.range.stop →
      kept.remaining = Multiset.Ico from_ split →
      kept.remaining + sent.remaining = f.remaining ∧ kept.weight + sent.weight < f.weight := by
    intro from_ before all part
    have joined : kept.remaining + sent.remaining = f.remaining := by
      rw [part, sentRest, all]
      exact Multiset.Ico_add_Ico_eq_Ico (by omega) (by omega)
    have allCount : f.count = (f.range.stop - from_).toNat := by
      simp [Fragment.count, all, Multiset.Ico]
    have keptCount : kept.count = (split - from_).toNat := by
      simp [Fragment.count, part, Multiset.Ico]
    have samePhase : kept.phase = f.phase := rfl
    have sentPhase : sent.phase = .waiting := rfl
    refine ⟨joined, ?_⟩
    simp only [Fragment.weight, keptCount, sentCount, allCount, samePhase, sentPhase]
    omega
  cases phase : f.phase with
  | waiting | started =>
    simp only [phase] at inPhase
    refine ⟨⟨lower, ?_, ?_⟩, sentOk, parts f.range.start (by omega) ?_ ?_⟩
    · simp only [kept, LoopRange.lower]
      omega
    · simp only [kept, LoopRange.lower, phase]
      omega
    · simp [Fragment.remaining, phase]
    · simp [Fragment.remaining, kept, LoopRange.lower, phase]
  | looping i =>
    simp only [phase] at inPhase
    have next := ahead i (.inl phase)
    refine ⟨⟨lower, ?_, ?_⟩, sentOk, parts i (by omega) ?_ ?_⟩
    · simp only [kept, LoopRange.lower]
      omega
    · simp only [kept, LoopRange.lower, phase]
      exact ⟨inPhase.1, inPhase.2.1, by omega⟩
    · simp [Fragment.remaining, phase]
    · simp [Fragment.remaining, kept, LoopRange.lower, phase]
  | body i =>
    simp only [phase] at inPhase
    have next := ahead i (.inr phase)
    refine ⟨⟨lower, ?_, ?_⟩, sentOk, parts (i + 1) (by omega) ?_ ?_⟩
    · simp only [kept, LoopRange.lower]
      omega
    · simp only [kept, LoopRange.lower, phase]
      exact ⟨inPhase.1, inPhase.2.1, by omega⟩
    · simp [Fragment.remaining, phase]
    · simp [Fragment.remaining, kept, LoopRange.lower, phase]
  | done =>
    have finished : f.range.cur = long (f.range.stop + 1) := by
      simp only [phase] at inPhase
      exact inPhase.1
    exact absurd more (exhausted_not_splittable up.stop_fits finished)

/-- What one move does to the iterations a fragment holds.  No assertion of
`ASYNC_FOR` or of a splitting strategy fails. -/
theorem move_sound (bounds : Bounds lo hi) (ok : f.Ok lo hi) :
    Ensures (fun _ => False) (f.move strategy numWorkers m) fun (pieces, ran) =>
      (∀ g ∈ pieces, g.Ok lo hi) ∧
        (pieces.map Fragment.remaining).sum + (ran : Multiset ℤ) = f.remaining ∧
        (pieces.map Fragment.weight).sum < f.weight := by
  obtain ⟨startFits, stopFits, upward⟩ := fragment_bounds bounds ok
  have whole := ok
  obtain ⟨lower, upper, inPhase⟩ := ok
  cases m with
  | start =>
    simp only [Fragment.move, ensures_bind, ensures_await, ensures_pure]
    intro phase
    simp only [phase] at inPhase
    refine ⟨?_, ?_, ?_⟩
    · simpa [Fragment.Ok, phase] using ⟨lower, upper, inPhase⟩
    · simp [Fragment.remaining, phase]
    · simp [Fragment.weight, Fragment.count, Fragment.remaining, phase]
  | enter =>
    simp only [Fragment.move, ensures_bind, ensures_await, ensures_check, ensures_pure]
    intro phase
    simp only [phase] at inPhase
    refine ⟨fun _ => ⟨?_, ?_, ?_⟩, fun different => different inPhase.1.symm⟩
    · simp only [List.mem_singleton, forall_eq, Fragment.Ok]
      exact ⟨lower, upper, by rw [inPhase.1], le_refl _, inPhase.2⟩
    · simp [Fragment.remaining, phase]
    · simp [Fragment.weight, Fragment.count, Fragment.remaining, phase]
  | iterate =>
    simp only [Fragment.move]
    split
    · rename_i i phase
      simp only [phase] at inPhase
      simp only [ensures_bind, ensures_await, ensures_pure]
      intro within
      have first : Multiset.Ico i f.range.stop = i ::ₘ Multiset.Ico (i + 1) f.range.stop := by
        rw [← Multiset.Ico_add_Ico_eq_Ico (b := i + 1) (by omega) (by omega)]
        have single : Finset.Ico i (i + 1) = {i} := by
          ext j
          simp only [Finset.mem_Ico, Finset.mem_singleton]
          omega
        rw [Multiset.Ico, single, Finset.singleton_val, Multiset.singleton_add]
      refine ⟨?_, ?_, ?_⟩
      · simp only [List.mem_singleton, forall_eq, Fragment.Ok]
        exact ⟨lower, upper, inPhase.1, inPhase.2.1, within⟩
      · simp only [List.map_cons, List.map_nil, List.sum_cons, List.sum_nil, Fragment.remaining,
          phase, first, Multiset.coe_singleton, add_zero]
        rw [add_comm, Multiset.singleton_add]
      · simp only [Fragment.weight, Fragment.count, Fragment.remaining, phase, first, List.map_cons,
          List.map_nil, List.sum_cons, List.sum_nil, Multiset.card_cons]
        omega
    · trivial
  | leave =>
    simp only [Fragment.move]
    split
    · rename_i i phase
      simp only [phase] at inPhase
      simp only [ensures_bind, ensures_await, ensures_pure]
      intro past
      obtain rfl : i = f.range.stop := by omega
      refine ⟨?_, ?_, ?_⟩
      · simp only [List.mem_singleton, forall_eq, Fragment.Ok]
        exact ⟨lower, upper, inPhase.1, upward⟩
      · simp [Fragment.remaining, phase]
      · simp [Fragment.weight, Fragment.count, Fragment.remaining, phase]
    · trivial
  | advance =>
    simp only [Fragment.move]
    split
    · rename_i i phase
      simp only [phase] at inPhase
      obtain ⟨ahead, started, within⟩ := inPhase
      obtain ⟨-, stopHigh⟩ := stopFits
      obtain ⟨startLow, -⟩ := startFits
      have exact : long (i + 1) = i + 1 := long_eq ⟨by omega, by omega⟩
      simp only [ensures_pure, ahead, exact]
      refine ⟨?_, ?_, ?_⟩
      · simp only [List.mem_singleton, forall_eq, Fragment.Ok]
        exact ⟨lower, upper, by simp, by omega, by omega⟩
      · simp [Fragment.remaining, phase]
      · simp [Fragment.weight, Fragment.count, Fragment.remaining, phase]
    · trivial
  | split pending =>
    simp only [Fragment.move, ensures_bind, ensures_await]
    intro more
    obtain ⟨up, -⟩ := splittable_ascending bounds whole more
    obtain ⟨split, cut, above, below⟩ :=
      splitFunc_strict strategy numWorkers pending up more
    obtain ⟨keptOk, sentOk, joined, lighter⟩ := split_sound bounds whole more above below
    simp only [cut, ensures_ok, ensures_pure]
    refine ⟨?_, ?_, ?_⟩
    · simp only [List.mem_cons, List.not_mem_nil, or_false]
      rintro g (rfl | rfl)
      · exact keptOk
      · exact sentOk
    · simpa using joined
    · simpa using lighter

/-! ## Whole runs -/

/-- The iterations executed so far, and those the fragments hold, make up the
iteration space; every fragment is as the runtime expects it. -/
structure Sound (lo hi : ℤ) (pool : Pool) : Prop where
  frags : ∀ f ∈ pool.frags, f.Ok lo hi
  partition : (pool.executed : Multiset ℤ) + (pool.frags.map Fragment.remaining).sum =
    Multiset.Ico lo hi

/-- The moves a pool can still make.  Every step lowers it, which is why no run of a loop goes
on for ever. -/
def Pool.weight (pool : Pool) : ℕ := (pool.frags.map Fragment.weight).sum

private theorem whole_sound (bounds : Bounds lo hi) : Sound lo hi (whole lo hi) where
  frags := by
    simp only [whole, List.mem_singleton, forall_eq]
    exact ⟨le_refl _, le_refl _, rfl, bounds.upward⟩
  partition := by simp [whole, Fragment.remaining]

/-- One step of the pool: no assertion fails, the iteration space is still
partitioned, and the pool has become lighter. -/
theorem stepAt_sound (bounds : Bounds lo hi) (sound : Sound lo hi pool) (k : ℕ) :
    Ensures (fun _ => False) (stepAt strategy numWorkers pool k m) fun pool' =>
      Sound lo hi pool' ∧ pool'.weight < pool.weight := by
  unfold stepAt
  split
  · trivial
  · rename_i f atIndex
    obtain ⟨frags, partition⟩ := sound
    have split : pool.frags = pool.frags.take k ++ f :: pool.frags.drop (k + 1) := by
      obtain ⟨inside, rfl⟩ := List.getElem?_eq_some_iff.mp atIndex
      simp
    have member : f ∈ pool.frags := List.mem_of_getElem? atIndex
    refine (ensures_bind).mpr ((move_sound bounds (frags f member)).mono ?_)
    rintro ⟨pieces, ran⟩ ⟨piecesOk, covered, lighter⟩
    refine ⟨⟨?_, ?_⟩, ?_⟩
    · intro g present
      simp only [List.mem_append] at present
      rcases present with (before | cut) | after
      · exact frags g (List.mem_of_mem_take before)
      · exact piecesOk g cut
      · exact frags g (List.mem_of_mem_drop after)
    · rw [← partition]
      conv_rhs => rw [split]
      simp only [List.map_append, List.map_cons, List.sum_append, List.sum_cons, ← covered,
        ← Multiset.coe_add]
      abel
    · simp only [Pool.weight]
      conv_rhs => rw [split]
      simp only [List.map_append, List.map_cons, List.sum_append, List.sum_cons]
      omega

theorem reachable_sound (bounds : Bounds lo hi)
    (reached : (system strategy numWorkers lo hi).Reachable pool) : Sound lo hi pool := by
  refine reached.invariant ?_ ?_
  · rintro pool rfl
    exact whole_sound bounds
  · rintro pool pool' - sound ⟨k, m, ran⟩
    exact ((stepAt_sound bounds sound k).value ran).1

theorem weight_decreases (bounds : Bounds lo hi) (sound : Sound lo hi pool)
    (next : (system strategy numWorkers lo hi).step pool pool') : pool'.weight < pool.weight := by
  obtain ⟨k, m, ran⟩ := next
  exact ((stepAt_sound bounds sound k).value ran).2

/-- The loop only comes to rest when every fragment has left its loop. -/
theorem unfinished_moves (sound : Sound lo hi pool) {f : Fragment} (member : f ∈ pool.frags)
    (unfinished : f.phase ≠ .done) :
    ∃ pool', (system strategy numWorkers lo hi).step pool pool' := by
  obtain ⟨k, inside, atIndex⟩ := List.getElem_of_mem member
  have found : pool.frags[k]? = some f := by rw [List.getElem?_eq_getElem inside, atIndex]
  have moves : ∀ m result, f.move strategy numWorkers m = .ok result →
      ∃ pool', (system strategy numWorkers lo hi).step pool pool' := by
    rintro m ⟨pieces, ran⟩ moved
    refine ⟨⟨pool.frags.take k ++ pieces ++ pool.frags.drop (k + 1), pool.executed ++ ran⟩,
      k, m, ?_⟩
    simp only [stepAt, found, moved]
    rfl
  obtain ⟨-, -, inPhase⟩ := sound.frags f member
  cases phase : f.phase with
  | waiting =>
    apply moves .start ([{ f with phase := .started }], [])
    simp [Fragment.move, await, phase]
  | started =>
    simp only [phase] at inPhase
    apply moves .enter
      ([⟨{ f.range with cur := long (f.range.cur + 1) }, .looping f.range.start⟩], [])
    simp only [Fragment.move, await, phase, check, inPhase.1]
    rfl
  | looping i =>
    by_cases within : i < f.range.stop
    · apply moves .iterate ([{ f with phase := .body i }], [i])
      simp [Fragment.move, await, phase, within]
    · apply moves .leave ([{ f with phase := .done }], [])
      simp [Fragment.move, await, phase, within]
  | body i =>
    apply moves .advance
      ([⟨{ f.range with cur := long (f.range.cur + 1) }, .looping (long (i + 1))⟩], [])
    simp only [Fragment.move, phase]
    rfl
  | done => exact absurd phase unfinished

/-- A loop task over `[lo, hi)`, run and split in any way: at every moment the
iterations executed are distinct and inside the bounds; no run goes on for ever,
and when no step is left every iteration has been executed exactly once.  Every
cut lies strictly between `cur` and `end`, above the iteration the fragment is
at, and no assertion fails. -/
theorem loop_runs_every_iteration_once (strategy : SplitStrategy) (numWorkers : ℕ) (lo hi : ℤ)
    (bounds : Bounds lo hi) :
    WellFounded (fun pool' pool => (system strategy numWorkers lo hi).Reachable pool ∧
      (system strategy numWorkers lo hi).step pool pool') ∧
    ∀ pool, (system strategy numWorkers lo hi).Reachable pool →
      pool.executed.Nodup ∧ (∀ i ∈ pool.executed, lo ≤ i ∧ i < hi) ∧
      ((∀ pool', ¬ (system strategy numWorkers lo hi).step pool pool') →
        ∀ i, pool.executed.count i = if lo ≤ i ∧ i < hi then 1 else 0) ∧
      (∀ f ∈ pool.frags, splittable f.range → ∀ pending, ∃ split,
        splitFunc strategy numWorkers pending f.range = .ok split ∧
          f.range.cur < split ∧ split < f.range.stop ∧
          ∀ i, f.phase = .looping i ∨ f.phase = .body i → i < split) ∧
      (∀ f ∈ pool.frags, f.phase = .started → f.range.start = f.range.cur) ∧
      ∀ k m which, stepAt strategy numWorkers pool k m ≠ .error (.fault which) := by
  constructor
  · apply Subrelation.wf _ (InvImage.wf Pool.weight Nat.lt_wfRel.wf)
    rintro pool' pool ⟨reached, next⟩
    exact weight_decreases bounds (reachable_sound bounds reached) next
  intro pool reached
  have sound := reachable_sound bounds reached
  have nodup : ((pool.executed : Multiset ℤ) +
      (pool.frags.map Fragment.remaining).sum).Nodup := by
    rw [sound.partition]
    exact Multiset.nodup_Ico
  have inside : ∀ i ∈ pool.executed, lo ≤ i ∧ i < hi := by
    intro i member
    have present : i ∈ (pool.executed : Multiset ℤ) + (pool.frags.map Fragment.remaining).sum :=
      Multiset.mem_add.mpr (.inl (Multiset.mem_coe.mpr member))
    rw [sound.partition] at present
    exact Multiset.mem_Ico.mp present
  refine ⟨?_, inside, ?_, ?_, ?_, ?_⟩
  · exact Multiset.coe_nodup.mp (Multiset.nodup_add.mp nodup).1
  · intro stopped i
    have finished : ∀ f ∈ pool.frags, f.remaining = 0 := by
      intro f member
      by_contra left
      have unfinished : f.phase ≠ .done := by
        intro phase
        exact left (by simp [Fragment.remaining, phase])
      obtain ⟨pool', next⟩ := unfinished_moves sound member unfinished
      exact stopped pool' next
    have nothing : (pool.frags.map Fragment.remaining).sum = 0 := by
      apply List.sum_eq_zero
      intro rest member
      obtain ⟨f, present, rfl⟩ := List.mem_map.mp member
      exact finished f present
    have all : (pool.executed : Multiset ℤ) = Multiset.Ico lo hi := by
      rw [← sound.partition, nothing, add_zero]
    rw [← Multiset.coe_count, all]
    split
    · rename_i within
      exact Multiset.count_eq_one_of_mem Multiset.nodup_Ico (Multiset.mem_Ico.mpr within)
    · rename_i outside
      exact Multiset.count_eq_zero.mpr fun member => outside (Multiset.mem_Ico.mp member)
  · intro f member more pending
    obtain ⟨up, ahead⟩ := splittable_ascending bounds (sound.frags f member) more
    obtain ⟨split, cut, above, below⟩ := splitFunc_strict strategy numWorkers pending up more
    refine ⟨split, cut, above, below, fun i place => ?_⟩
    have next := ahead i place
    omega
  · intro f member phase
    obtain ⟨-, -, inPhase⟩ := sound.frags f member
    simp only [phase] at inPhase
    exact inPhase.1.symm
  · intro k m which faulted
    exact (stepAt_sound bounds sound k).tolerates faulted

/-- A loop that ends at the largest `long`, where `cur` does wrap around. -/
theorem loop_runs_every_iteration_once_at_limit :
    Bounds (2 ^ 63 - 3) (2 ^ 63 - 1) ∧
      ∀ pool, (system .adaptive 4 (2 ^ 63 - 3) (2 ^ 63 - 1)).Reachable pool →
        pool.executed.Nodup :=
  have bounds : Bounds (2 ^ 63 - 3) (2 ^ 63 - 1) :=
    ⟨by decide, by decide, by decide, by decide⟩
  ⟨bounds, fun pool reached => ((loop_runs_every_iteration_once _ _ _ _ bounds).2 pool reached).1⟩

end Tasking.LoopSplitting
