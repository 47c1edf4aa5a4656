import Mathlib.Data.Nat.Bitwise
import Tasking.Lineage

/-! The worker tree of `worker_tree.h`: a complete binary tree of worker IDs
with worker 0 at the root, and the walks over it that receive requests on behalf
of a subtree.  The source writes -1 for "no such worker"; here that is `none`. -/
namespace Tasking.WorkerTree
open Lineage

/-- `worker_tree.h::left_child`. -/
def leftChild (ID maxID : ℕ) : Option ℕ :=
  let child := 2 * ID + 1
  if child ≤ maxID then some child else none

/-- `worker_tree.h::right_child`. -/
def rightChild (ID maxID : ℕ) : Option ℕ :=
  let child := 2 * ID + 2
  if child ≤ maxID then some child else none

/-- `worker_tree.h::parent`.  For worker 0 the source computes `(0 - 2) / 2 = -1`. -/
def parent (ID : ℕ) : Option ℕ :=
  if ID % 2 ≠ 0 then some ((ID - 1) / 2)
  else if ID = 0 then none
  else some ((ID - 2) / 2)

/-- The subtree of a worker: everyone whose chain of parents reaches it. -/
abbrev Subtree (top i : ℕ) : Prop := Below parent top i

theorem leftChild_eq_some {n w c : ℕ} (positive : 0 < n) :
    leftChild w (n - 1) = some c ↔ c = 2 * w + 1 ∧ c < n := by
  simp only [leftChild, Option.ite_none_right_eq_some, Option.some.injEq]
  omega

theorem rightChild_eq_some {n w c : ℕ} (positive : 0 < n) :
    rightChild w (n - 1) = some c ↔ c = 2 * w + 2 ∧ c < n := by
  simp only [rightChild, Option.ite_none_right_eq_some, Option.some.injEq]
  omega

theorem leftChild_eq_none {n w : ℕ} (positive : 0 < n) :
    leftChild w (n - 1) = none ↔ n ≤ 2 * w + 1 := by
  simp only [leftChild, ite_eq_right_iff, reduceCtorEq, imp_false]
  omega

theorem rightChild_eq_none {n w : ℕ} (positive : 0 < n) :
    rightChild w (n - 1) = none ↔ n ≤ 2 * w + 2 := by
  simp only [rightChild, ite_eq_right_iff, reduceCtorEq, imp_false]
  omega

/-- The two ways of having a parent. -/
theorem parent_eq_some {i p : ℕ} : parent i = some p ↔ i = 2 * p + 1 ∨ i = 2 * p + 2 := by
  unfold parent
  split
  · simp only [Option.some.injEq]
    omega
  · split
    · simp only [reduceCtorEq, false_iff]
      omega
    · simp only [Option.some.injEq]
      omega

@[simp] theorem parent_left (p : ℕ) : parent (2 * p + 1) = some p := parent_eq_some.mpr (.inl rfl)

@[simp] theorem parent_right (p : ℕ) : parent (2 * p + 2) = some p := parent_eq_some.mpr (.inr rfl)

theorem parent_lt {i p : ℕ} (climbs : parent i = some p) : p < i := by
  rcases parent_eq_some.mp climbs with rfl | rfl <;> omega

theorem exists_parent {i : ℕ} (notMaster : i ≠ 0) : ∃ p, parent i = some p := by
  rcases Nat.even_or_odd' i with ⟨k, rfl | rfl⟩
  · exact ⟨k - 1, parent_eq_some.mpr (.inr (by omega))⟩
  · exact ⟨k, parent_left k⟩

theorem subtree_le {top i : ℕ} (below : Subtree top i) : top ≤ i := by
  induction below with
  | here => exact le_refl _
  | child _ climbs ih => exact ih.trans (parent_lt climbs).le

theorem subtree_master (i : ℕ) : Subtree 0 i := by
  induction i using Nat.strong_induction_on with
  | _ i ih =>
    by_cases master : i = 0
    · subst master
      exact .here
    · obtain ⟨p, climbs⟩ := exists_parent master
      exact (ih p (parent_lt climbs)).child climbs

/-- `runtime.c::RECV_REQ(req, worker, lvl)` and `PEEK_REQ(worker, lvl)`: the
workers examined, in order, when every channel on the way is empty.  Level `lvl`
covers `worker, …, worker + 2^lvl - 1` clipped to the existing workers, and the
walk goes on at the left child of the first of them.  Each level starts further
right than the one before, so as many levels as workers are always enough. -/
def levelWalk (numWorkers : ℕ) : (levels worker lvl : ℕ) → List ℕ
  | 0, _, _ => []
  | levels + 1, worker, lvl =>
    (List.range' worker (min (worker + 2 ^ lvl) numWorkers - worker)) ++
      match leftChild worker (numWorkers - 1) with
      | none => []
      | some next => levelWalk numWorkers levels next (lvl + 1)

/-- The first worker `lvl` levels below `top`. -/
private def leftmost (top lvl : ℕ) : ℕ := 2 ^ lvl * top + (2 ^ lvl - 1)

private theorem leftmost_succ (top lvl : ℕ) : leftmost top (lvl + 1) =
    2 * leftmost top lvl + 1 := by
  have positive : 0 < 2 ^ lvl := Nat.two_pow_pos lvl
  have regroup : 2 * 2 ^ lvl * top = 2 * (2 ^ lvl * top) := Nat.mul_assoc ..
  simp only [leftmost, Nat.pow_succ', regroup]
  omega

/-- Everyone in the block of workers `lvl` levels below `top` is in its subtree. -/
private theorem level_below (top lvl i : ℕ) (low : leftmost top lvl ≤ i)
    (high : i < leftmost top lvl + 2 ^ lvl) : Subtree top i := by
  induction lvl generalizing i with
  | zero =>
    simp only [leftmost, pow_zero, one_mul, Nat.sub_self, Nat.add_zero] at low high
    obtain rfl : i = top := by omega
    exact .here
  | succ lvl ih =>
    rw [leftmost_succ] at low high
    rw [Nat.pow_succ] at high
    obtain ⟨p, climbs⟩ := exists_parent (i := i) (by omega)
    refine (ih p ?_ ?_).child climbs
    · rcases parent_eq_some.mp climbs with rfl | rfl <;> omega
    · rcases parent_eq_some.mp climbs with rfl | rfl <;> omega

private theorem levelWalk_below_from {n levels top lvl i : ℕ} (positive : 0 < n)
    (member : i ∈ levelWalk n levels (leftmost top lvl) lvl) : i < n ∧ Subtree top i := by
  induction levels generalizing lvl with
  | zero => simp [levelWalk] at member
  | succ levels ih =>
    simp only [levelWalk, List.mem_append, List.mem_range'_1] at member
    rcases member with inLevel | deeper
    · exact ⟨by omega, level_below top lvl i inLevel.1 (by omega)⟩
    · cases next : leftChild (leftmost top lvl) (n - 1) with
      | none => simp [next] at deeper
      | some child =>
        rw [next] at deeper
        obtain ⟨rfl, -⟩ := (leftChild_eq_some positive).mp next
        exact ih (by rwa [leftmost_succ])

/-- The walk that starts at a worker stays inside its subtree. -/
theorem levelWalk_below {n levels top i : ℕ} (positive : 0 < n)
    (member : i ∈ levelWalk n levels top 0) : i < n ∧ Subtree top i := by
  have start : top = leftmost top 0 := by simp [leftmost]
  rw [start] at member
  exact levelWalk_below_from positive member

private theorem leftmost_mono {top lvl lvl' : ℕ} (deeper : lvl ≤ lvl') :
    leftmost top lvl ≤ leftmost top lvl' := by
  induction lvl', deeper using Nat.le_induction with
  | base => exact le_rfl
  | succ lvl' _ ih =>
    rw [leftmost_succ]
    omega

private theorem level_before_next (top lvl : ℕ) :
    leftmost top lvl + 2 ^ lvl ≤ leftmost top (lvl + 1) := by
  have positive : 0 < 2 ^ lvl := Nat.two_pow_pos lvl
  rw [leftmost_succ]
  simp only [leftmost]
  omega

/-- Everyone in the subtree of `top` is in the block of some level. -/
private theorem exists_level {top i : ℕ} (below : Subtree top i) :
    ∃ lvl, leftmost top lvl ≤ i ∧ i < leftmost top lvl + 2 ^ lvl := by
  induction below with
  | here => exact ⟨0, by simp [leftmost], by simp [leftmost]⟩
  | child _ climbs ih =>
    obtain ⟨lvl, low, high⟩ := ih
    refine ⟨lvl + 1, ?_, ?_⟩
    · rw [leftmost_succ]
      rcases parent_eq_some.mp climbs with rfl | rfl <;> omega
    · rw [leftmost_succ, Nat.pow_succ]
      rcases parent_eq_some.mp climbs with rfl | rfl <;> omega

private theorem mem_levelWalk_from {n levels top from_ lvl i : ℕ} (inside : i < n)
    (deeper : from_ ≤ lvl) (low : leftmost top lvl ≤ i) (high : i < leftmost top lvl + 2 ^ lvl)
    (enough : n ≤ leftmost top from_ + levels) : i ∈ levelWalk n levels (leftmost top from_)
    from_ := by
  induction levels generalizing from_ with
  | zero =>
    have := @leftmost_mono top from_ lvl deeper
    omega
  | succ levels ih =>
    rw [levelWalk, List.mem_append]
    rcases Nat.eq_or_lt_of_le deeper with rfl | deeper
    · left
      rw [List.mem_range'_1]
      omega
    · right
      have above := @leftmost_mono top (from_ + 1) lvl deeper
      have next : leftChild (leftmost top from_) (n - 1) = some (leftmost top (from_ + 1)) := by
        rw [leftChild_eq_some (by omega), leftmost_succ]
        rw [leftmost_succ] at above
        omega
      rw [next]
      apply ih deeper
      rw [leftmost_succ]
      omega

/-- The walk that starts at a worker goes over its subtree. -/
theorem mem_levelWalk {n levels top i : ℕ} (enough : n ≤ top + levels) :
    i ∈ levelWalk n levels top 0 ↔ i < n ∧ Subtree top i := by
  have start : top = leftmost top 0 := by simp [leftmost]
  constructor
  · intro member
    have positive : 0 < n := by
      by_contra none
      cases levels with
      | zero => simp [levelWalk] at member
      | succ levels =>
        obtain rfl : n = 0 := by omega
        simp [levelWalk, leftChild] at member
    exact levelWalk_below positive member
  · rintro ⟨inside, below⟩
    obtain ⟨lvl, low, high⟩ := exists_level below
    rw [start]
    exact mem_levelWalk_from inside (Nat.zero_le lvl) low high (by rwa [← start])

private theorem levelWalk_ge {n levels top lvl i : ℕ} (positive : 0 < n)
    (member : i ∈ levelWalk n levels (leftmost top lvl) lvl) : leftmost top lvl ≤ i := by
  induction levels generalizing lvl with
  | zero => simp [levelWalk] at member
  | succ levels ih =>
    simp only [levelWalk, List.mem_append, List.mem_range'_1] at member
    rcases member with inLevel | deeper
    · exact inLevel.1
    · cases next : leftChild (leftmost top lvl) (n - 1) with
      | none => simp [next] at deeper
      | some child =>
        rw [next] at deeper
        obtain ⟨rfl, -⟩ := (leftChild_eq_some positive).mp next
        rw [← leftmost_succ] at deeper
        exact (leftmost_mono (Nat.le_succ lvl)).trans (ih deeper)

/-- The walk goes upward, so it meets nobody twice. -/
theorem levelWalk_sorted {n levels top : ℕ} (positive : 0 < n) :
    (levelWalk n levels top 0).Pairwise (· < ·) := by
  have from_ (lvl : ℕ) : (levelWalk n levels (leftmost top lvl) lvl).Pairwise (· < ·) := by
    induction levels generalizing lvl with
    | zero => exact .nil
    | succ levels ih =>
      rw [levelWalk, List.pairwise_append]
      refine ⟨List.pairwise_lt_range', ?_, ?_⟩
      · cases next : leftChild (leftmost top lvl) (n - 1) with
        | none => exact .nil
        | some child =>
          obtain ⟨rfl, -⟩ := (leftChild_eq_some positive).mp next
          dsimp only
          rw [← leftmost_succ]
          exact ih (lvl + 1)
      · intro i inLevel j deeper
        cases next : leftChild (leftmost top lvl) (n - 1) with
        | none => simp [next] at deeper
        | some child =>
          rw [next] at deeper
          obtain ⟨rfl, -⟩ := (leftChild_eq_some positive).mp next
          rw [← leftmost_succ] at deeper
          have later := levelWalk_ge positive deeper
          have apart := level_before_next top lvl
          rw [List.mem_range'_1] at inLevel
          omega
  simpa [leftmost] using from_ 0

/-- More levels than there are make no difference. -/
theorem levelWalk_levels {n w lvl levels levels' : ℕ} (worker : w < n) (enough : n ≤ w + levels)
    (enough' : n ≤ w + levels') : levelWalk n levels w lvl = levelWalk n levels' w lvl := by
  induction levels generalizing w lvl levels' with
  | zero => omega
  | succ levels ih =>
    cases levels' with
    | zero => omega
    | succ levels' =>
      rw [levelWalk, levelWalk]
      cases next : leftChild w (n - 1) with
      | none => rfl
      | some c =>
        obtain ⟨rfl, inside⟩ := (leftChild_eq_some (by omega)).mp next
        exact congrArg _ (ih inside (by omega) (by omega))

/-- The two subtrees below a worker have nobody in common. -/
theorem subtrees_disjoint {w i : ℕ} (left : Subtree (2 * w + 1) i) :
    ¬ Subtree (2 * w + 2) i := by
  intro right
  rcases left.comparable right with under | under
  · rcases under.eq_or_parent with same | ⟨p, climbs, upper⟩
    · omega
    · rw [parent_right] at climbs
      cases climbs
      have := subtree_le upper
      omega
  · have := subtree_le under
    omega

end Tasking.WorkerTree
