import Mathlib.Algebra.BigOperators.Group.Finset.Basic
import Mathlib.Algebra.Order.BigOperators.Group.Multiset
import Mathlib.Data.Multiset.Count

/-! Items spread over numbered containers.  `gather n f` is everything in the
containers `0 … n-1`; moving an item between two containers leaves it alone, and
an operation on container `i` is reasoned about with the contents of every other
container (`others`) as a frame. -/
namespace Tasking.Family
open Function

variable {α β : Type} {n i : ℕ} {f g : ℕ → Multiset α} {x : α}

/-- Everything in containers `0 … n-1`, with multiplicity. -/
def gather (n : ℕ) (f : ℕ → Multiset α) : Multiset α := ∑ i ∈ Finset.range n, f i

/-- Everything in containers `0 … n-1` other than container `i`. -/
def others (n : ℕ) (f : ℕ → Multiset α) (i : ℕ) : Multiset α :=
  ∑ j ∈ (Finset.range n).erase i, f j

theorem gather_split (inside : i < n) : gather n f = f i + others n f i :=
  (Finset.add_sum_erase _ _ (Finset.mem_range.mpr inside)).symm

/-- What container `i` holds does not matter to the others. -/
theorem others_congr (same : ∀ j, j ≠ i → f j = g j) : others n f i = others n g i :=
  Finset.sum_congr rfl fun j member => same j (Finset.ne_of_mem_erase member)

theorem mem_gather : x ∈ gather n f ↔ ∃ i < n, x ∈ f i := by
  simp [gather, Multiset.mem_sum]

theorem gather_eq_zero : gather n f = 0 ↔ ∀ i < n, f i = 0 := by
  simp only [Multiset.eq_zero_iff_forall_notMem, mem_gather, not_exists, not_and]
  exact ⟨fun h i inside x => h x i inside, fun h x i inside => h i inside x⟩

theorem map_gather (g : α → β) : (gather n f).map g = gather n fun i => (f i).map g :=
  map_sum (Multiset.mapAddMonoidHom g) f (Finset.range n)

theorem filter_gather (p : α → Prop) [DecidablePred p] :
    (gather n f).filter p = gather n fun i => (f i).filter p := by
  induction n with
  | zero => simp [gather]
  | succ n ih =>
    simp only [gather, Finset.sum_range_succ, Multiset.filter_add] at ih ⊢
    rw [ih]

theorem gather_single (inside : i < n) (empty : ∀ j, j ≠ i → f j = 0) : gather n f = f i := by
  have none : others n f i = 0 :=
    Finset.sum_eq_zero fun j member => empty j (Finset.ne_of_mem_erase member)
  rw [gather_split inside, none, add_zero]

/-- Some of the containers hold their own number. -/
theorem gather_numbers (p : ℕ → Prop) [DecidablePred p] :
    (gather n fun i => if p i then {i} else 0) = (Multiset.range n).filter p := by
  induction n with
  | zero => simp [gather]
  | succ n ih =>
    simp only [gather, Finset.sum_range_succ, Multiset.range_succ] at ih ⊢
    rw [ih]
    by_cases holds : p n
    · rw [if_pos holds, Multiset.filter_cons_of_pos _ holds, ← Multiset.singleton_add, add_comm]
    · rw [if_neg holds, Multiset.filter_cons_of_neg _ holds, add_zero]

theorem gather_add : gather n (fun i => f i + g i) = gather n f + gather n g :=
  Finset.sum_add_distrib

theorem gather_update {h : ℕ → β → Multiset α} {c : ℕ → β} {y : β}
    (inside : i < n) :
    gather n (fun j => h j (update c i y j)) =
      h i y + others n (fun j => h j (c j)) i := by
  rw [gather_split inside, update_self]
  congr 1
  exact others_congr fun j differs => by rw [update_of_ne differs]

/-- Containers numbered by two coordinates: what all but one of them hold. -/
theorem gather_update₂ {m j : ℕ} (h : ℕ → ℕ → β → Multiset α) (c : ℕ → ℕ → β) (inside : i < n)
    (inside' : j < m) :
    ∃ rest, (gather n fun a => gather m fun b => h a b (c a b)) = h i j (c i j) + rest ∧
      ∀ y, (gather n fun a => gather m fun b =>
        h a b (update c i (update (c i) j y) a b)) = h i j y + rest := by
  refine ⟨others m (fun b => h i b (c i b)) j +
    others n (fun a => gather m fun b => h a b (c a b)) i, ?_, fun y => ?_⟩
  · rw [gather_split inside, gather_split inside', add_assoc]
  · have row := gather_update (h := fun a (d : ℕ → β) => gather m fun b => h a b (d b)) (c := c)
      (y := update (c i) j y) inside
    have cell := gather_update (h := h i) (c := c i) (y := y) inside'
    rw [row, cell, add_assoc]

end Tasking.Family
