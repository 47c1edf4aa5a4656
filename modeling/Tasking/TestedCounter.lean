import Mathlib.Tactic.Common

/-! A counter that is tested for equality with its limit, and set back when the test
succeeds.  Counting past the limit between two tests would disable the test for good;
a log of what happens to the counter is punctual if this cannot occur, because it is
tested after every count.  Logs are listed newest first. -/
namespace Tasking.TestedCounter

inductive Event where
  | counts
  /-- The counter is compared with its limit, and `met` says whether they are equal. -/
  | tests (met : Bool)
  deriving DecidableEq, Repr

variable {limit : ℕ} {event : Event} {later earlier log : List Event} {met : Bool}

/-- The counter: how often it counted since the test last succeeded. -/
def since : List Event → ℕ
  | [] => 0
  | .counts :: earlier => since earlier + 1
  | .tests true :: _ => 0
  | .tests false :: earlier => since earlier

/-- The counter is tested between two counts, and the tests are those for equality. -/
def Punctual (limit : ℕ) : List Event → Prop
  | [] => True
  | .counts :: earlier => earlier.head? ≠ some .counts ∧ Punctual limit earlier
  | .tests met :: earlier => met = decide (since earlier = limit) ∧ Punctual limit earlier

theorem Punctual.before (punctual : Punctual limit (later ++ earlier)) :
    Punctual limit earlier := by
  induction later with
  | nil => exact punctual
  | cons event later ih =>
    cases event with
    | counts => exact ih punctual.2
    | tests met => exact ih punctual.2

/-- No two counts without a test in between. -/
theorem Punctual.apart (punctual : Punctual limit log) :
    log ≠ later ++ .counts :: .counts :: earlier := by
  rintro rfl
  exact punctual.before.1 rfl

theorem Punctual.met_iff (punctual : Punctual limit (later ++ .tests met :: earlier)) :
    met = true ↔ since earlier = limit := by
  rw [punctual.before.1, decide_eq_true_iff]

/-- The counter is at its limit only right after it counted, and never past it. -/
theorem Punctual.bounded (punctual : Punctual limit log) (positive : 0 < limit) :
    since log ≤ limit ∧ (since log = limit → log.head? = some .counts) := by
  induction log with
  | nil => exact ⟨Nat.zero_le limit, fun zero => absurd zero (Nat.ne_of_lt positive)⟩
  | cons event earlier ih =>
    cases event with
    | counts =>
      obtain ⟨tested, before⟩ := punctual
      obtain ⟨bound, top⟩ := ih before
      have below : since earlier ≠ limit := fun same => tested (top same)
      exact ⟨Nat.lt_of_le_of_ne bound below, fun _ => rfl⟩
    | tests met =>
      obtain ⟨compared, before⟩ := punctual
      obtain ⟨bound, -⟩ := ih before
      cases met with
      | true => exact ⟨Nat.zero_le limit, fun zero => absurd zero (Nat.ne_of_lt positive)⟩
      | false => exact ⟨bound, fun same => absurd same (of_decide_eq_false compared.symm)⟩

/-- Once the counter has reached its limit, the next event is the test that succeeds. -/
theorem Punctual.caught (punctual : Punctual limit (later ++ event :: earlier))
    (positive : 0 < limit) (reached : since earlier = limit) : event = .tests true := by
  have after := punctual.before
  cases event with
  | counts => exact absurd ((after.2.bounded positive).2 reached) after.1
  | tests met => rw [after.1, decide_eq_true reached]

end Tasking.TestedCounter
