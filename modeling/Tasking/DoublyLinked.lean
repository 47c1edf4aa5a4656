import Mathlib.Data.List.Basic
import Mathlib.Logic.Function.Basic
import Mathlib.Tactic.Common

/-! Doubly linked lists in a memory of cells.  `Linked l before xs after` says that
the cells `xs` are linked in this order, where `before` and `after` are what the
outermost links point to.  A list is taken apart and put together by changing the
links of the cells at the seam; the rules here follow the usual order of those
assignments. -/
namespace Tasking.DoublyLinked

variable {α : Type*}

/-- The links of all cells of a memory. -/
structure Links (α : Type*) where
  prev : α → Option α
  next : α → Option α

/-- The first cell, or what comes after an empty list. -/
def first : List α → Option α → Option α
  | [], after => after
  | x :: _, _ => some x

/-- The last cell, or what comes before an empty list. -/
def last : Option α → List α → Option α
  | before, [] => before
  | _, x :: xs => last (some x) xs

def Linked (l : Links α) : Option α → List α → Option α → Prop
  | _, [], _ => True
  | before, x :: xs, after =>
    l.prev x = before ∧ l.next x = first xs after ∧ Linked l (some x) xs after

instance decidableLinked [DecidableEq α] (l : Links α) :
    (before : Option α) → (xs : List α) → (after : Option α) → Decidable (Linked l before xs after)
  | _, [], _ => isTrue trivial
  | before, x :: xs, after =>
    have := decidableLinked l (some x) xs after
    inferInstanceAs (Decidable (l.prev x = before ∧ l.next x = first xs after ∧ _))

variable {l l' : Links α} {before after p : Option α} {x y : α} {xs ys zs : List α}

@[simp] theorem first_append : first (xs ++ ys) after = first xs (first ys after) := by
  cases xs <;> rfl

@[simp] theorem last_append : last before (xs ++ ys) = last (last before xs) ys := by
  induction xs generalizing before with
  | nil => rfl
  | cons x xs ih => exact ih

@[simp] theorem last_singleton : last before [x] = some x := rfl

theorem last_eq_some (nonempty : xs ≠ []) : ∃ z ∈ xs, ∀ before, last before xs = some z := by
  obtain ⟨front, z, rfl⟩ : ∃ front z, xs = front ++ [z] :=
    ⟨xs.dropLast, xs.getLast nonempty, (List.dropLast_append_getLast nonempty).symm⟩
  exact ⟨z, by simp, fun before => by simp⟩

theorem linked_append : Linked l before (xs ++ ys) after ↔
    Linked l before xs (first ys after) ∧ Linked l (last before xs) ys after := by
  induction xs generalizing before with
  | nil => simp [Linked, last]
  | cons x xs ih => simp [Linked, last, ih, and_assoc]

/-- Only the links of the cells matter. -/
theorem Linked.congr (linked : Linked l before xs after)
    (same : ∀ x ∈ xs, l'.prev x = l.prev x ∧ l'.next x = l.next x) :
    Linked l' before xs after := by
  induction xs generalizing before with
  | nil => trivial
  | cons x xs ih =>
    obtain ⟨prev, next⟩ := same x List.mem_cons_self
    refine ⟨prev.trans linked.1, next.trans linked.2.1, ih linked.2.2 ?_⟩
    intro y later
    exact same y (List.mem_cons_of_mem x later)

/-- The two links of neighbouring cells point at each other. -/
theorem Linked.prev_of_next (linked : Linked l before xs none) (known : x ∈ xs)
    (link : l.next x = some y) : y ∈ xs ∧ l.prev y = some x := by
  induction xs generalizing before with
  | nil => cases known
  | cons z zs ih =>
    rcases List.mem_cons.mp known with rfl | later
    · have next := linked.2.1
      rw [link] at next
      cases zs with
      | nil => cases next
      | cons w ws =>
        obtain rfl : y = w := Option.some.inj next
        exact ⟨by simp, linked.2.2.1⟩
    · obtain ⟨mem, back⟩ := ih linked.2.2 later
      exact ⟨List.mem_cons_of_mem z mem, back⟩

theorem Linked.next_of_prev (linked : Linked l none xs after) (known : y ∈ xs)
    (link : l.prev y = some x) : x ∈ xs ∧ l.next x = some y := by
  obtain ⟨front, back, rfl⟩ := List.append_of_mem known
  obtain ⟨left, right⟩ := linked_append.mp linked
  have prev : last none front = some x := right.1.symm.trans link
  obtain ⟨ws, w, rfl⟩ : ∃ ws w, front = ws ++ [w] := by
    refine ⟨_, _, (List.dropLast_append_getLast ?_).symm⟩
    rintro rfl
    cases prev
  obtain rfl : w = x := by simpa using prev
  exact ⟨by simp, (linked_append.mp left).2.2.1⟩

/-! ## Changing a link -/

section Updates

variable [DecidableEq α]

def Links.setPrev (l : Links α) (x : α) (p : Option α) : Links α :=
  { l with prev := Function.update l.prev x p }

def Links.setNext (l : Links α) (x : α) (p : Option α) : Links α :=
  { l with next := Function.update l.next x p }

theorem Linked.setPrev_other (linked : Linked l before xs after) (other : x ∉ xs) :
    Linked (l.setPrev x p) before xs after := by
  apply linked.congr
  intro y known
  have differ : y ≠ x := fun same => other (same ▸ known)
  simp [Links.setPrev, differ]

theorem Linked.setNext_other (linked : Linked l before xs after) (other : x ∉ xs) :
    Linked (l.setNext x p) before xs after := by
  apply linked.congr
  intro y known
  have differ : y ≠ x := fun same => other (same ▸ known)
  simp [Links.setNext, differ]

theorem Linked.setPrev_head (linked : Linked l before (x :: xs) after) (other : x ∉ xs) :
    Linked (l.setPrev x p) p (x :: xs) after := by
  refine ⟨by simp [Links.setPrev], ?_, linked.2.2.setPrev_other other⟩
  exact linked.2.1

theorem Linked.setNext_last (linked : Linked l before (xs ++ [x]) after) (other : x ∉ xs) :
    Linked (l.setNext x p) before (xs ++ [x]) p := by
  rw [linked_append] at linked ⊢
  refine ⟨linked.1.setNext_other other, ?_, ?_, trivial⟩
  · exact linked.2.1
  · simp [Links.setNext, first]

/-! ## Joining and cutting lists -/

/-- Put a list in front of another: its last cell and the first cell `y` of the other
are linked. -/
theorem Linked.join (left : Linked l before (xs ++ [x]) p) (right : Linked l none (y :: ys) after)
    (distinct : (xs ++ [x] ++ y :: ys).Nodup) :
    Linked ((l.setNext x (some y)).setPrev y (some x)) before (xs ++ [x] ++ y :: ys) after := by
  rw [List.nodup_append] at distinct
  obtain ⟨leftDistinct, rightDistinct, apart⟩ := distinct
  have xNew : x ∉ xs := by
    rw [List.nodup_append] at leftDistinct
    exact fun known => leftDistinct.2.2 x known x (by simp) rfl
  have yNew : y ∉ ys := (List.nodup_cons.mp rightDistinct).1
  have yRight : y ∉ xs ++ [x] := fun known => apart y known y List.mem_cons_self rfl
  have xLeft : x ∉ y :: ys := fun known => apart x (by simp) x known rfl
  rw [linked_append]
  constructor
  · exact (left.setNext_last xNew).setPrev_other yRight
  · rw [last_append, last_singleton]
    exact (right.setNext_other xLeft).setPrev_head yNew

theorem Linked.uncons (linked : Linked l none (x :: y :: ys) after)
    (distinct : (x :: y :: ys).Nodup) :
    Linked ((l.setPrev y none).setNext x none) none [x] none ∧
      Linked ((l.setPrev y none).setNext x none) none (y :: ys) after := by
  obtain ⟨xNew, distinct⟩ := List.nodup_cons.mp distinct
  have yNew : y ∉ ys := (List.nodup_cons.mp distinct).1
  constructor
  · have alone : Linked l none ([] ++ [x]) (some y) := ⟨linked.1, linked.2.1, trivial⟩
    exact (alone.setPrev_other (by simpa using fun same => xNew (by simp [same]))).setNext_last
      (by simp)
  · exact (linked.2.2.setPrev_head yNew).setNext_other xNew

/-- Cut the cells `y :: ys`, of which `z` is the last, out of a list in front of its
last cell `x`.  The link from `xs` to `x` is left for afterwards (`Linked.close`). -/
theorem Linked.cut (linked : Linked l none (xs ++ (y :: ys ++ [x])) after)
    (distinct : (xs ++ (y :: ys ++ [x])).Nodup) {z : α} (final : last none (y :: ys) = some z) :
    Linked (((l.setNext z none).setPrev x (last none xs)).setPrev y none) none xs (some y) ∧
    Linked (((l.setNext z none).setPrev x (last none xs)).setPrev y none) none (y :: ys) none ∧
    Linked (((l.setNext z none).setPrev x (last none xs)).setPrev y none) (last none xs) [x]
      after := by
  rw [linked_append, linked_append] at linked
  obtain ⟨front, middle, back⟩ := linked
  obtain ⟨-, distinct, frontApart⟩ := List.nodup_append.mp distinct
  obtain ⟨middleDistinct, -, backApart⟩ := List.nodup_append.mp distinct
  obtain ⟨z', zMem, zLast⟩ := @last_eq_some α (y :: ys) (by simp)
  obtain rfl : z' = z := Option.some.inj ((zLast none).symm.trans final)
  have zFront : z' ∉ xs :=
    fun known => frontApart z' known z' (List.mem_append_left [x] zMem) rfl
  have xFront : x ∉ xs := fun known => frontApart x known x (by simp) rfl
  have yFront : y ∉ xs := fun known => frontApart y known y (by simp) rfl
  have xMiddle : x ∉ y :: ys := fun known => backApart x known x (by simp) rfl
  have zBack : z' ∉ [x] := fun known => backApart z' zMem z' known rfl
  have yBack : y ∉ [x] := fun known => xMiddle (by simp [List.mem_singleton.mp known])
  have yNew : y ∉ ys := (List.nodup_cons.mp middleDistinct).1
  refine ⟨?_, ?_, ?_⟩
  · exact ((front.setNext_other zFront).setPrev_other xFront).setPrev_other yFront
  · have ended : Linked (l.setNext z' none) (last none xs) (y :: ys) none := by
      obtain ⟨ws, w, split⟩ : ∃ ws w, y :: ys = ws ++ [w] :=
        ⟨_, _, (List.dropLast_append_getLast (by simp)).symm⟩
      rw [split] at middle middleDistinct zLast ⊢
      obtain rfl : w = z' := by simpa using zLast none
      have new : w ∉ ws := fun known =>
        (List.nodup_append.mp middleDistinct).2.2 w known w (by simp) rfl
      exact middle.setNext_last new
    exact (ended.setPrev_other xMiddle).setPrev_head yNew
  · exact ((back.setNext_other zBack).setPrev_head (by simp)).setPrev_other yBack

/-- Link the cell before a gap to the cell after it. -/
theorem Linked.close (left : Linked l none (xs ++ [y]) p) (right : Linked l (some y) [x] after)
    (new : y ∉ xs) (differ : y ≠ x) :
    Linked (l.setNext y (some x)) none (xs ++ [y] ++ [x]) after := by
  rw [linked_append]
  constructor
  · exact left.setNext_last new
  · rw [last_append, last_singleton]
    exact right.setNext_other (by simpa using differ)

end Updates

end Tasking.DoublyLinked
