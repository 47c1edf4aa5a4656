import Mathlib.Data.List.Nodup
import Mathlib.Data.List.Perm.Basic
import Mathlib.Logic.Function.Basic

/-! Things that are each in one place.  A distribution gives every place its list of
things; it is separate if no thing occurs twice, in one place or in two.  Things move
between two places, or appear in one. -/
namespace Tasking.Ownership
open Function

variable {P α : Type*}

structure Separate (content : P → List α) : Prop where
  nodup : ∀ p, (content p).Nodup
  disjoint : ∀ p q, p ≠ q → List.Disjoint (content p) (content q)

variable {content : P → List α} {p q : P} {a : α} {xs ys : List α}

theorem Separate.unique (separate : Separate content) (here : a ∈ content p)
    (there : a ∈ content q) : p = q := by
  by_contra differ
  exact separate.disjoint p q differ here there

theorem Separate.sublist {content' : P → List α} (separate : Separate content)
    (less : ∀ p, (content' p).Sublist (content p)) : Separate content' where
  nodup p := (separate.nodup p).sublist (less p)
  disjoint p q differ _ here there :=
    separate.disjoint p q differ ((less p).subset here) ((less q).subset there)

variable [DecidableEq P]

/-- Two places get new contents. -/
def exchange (content : P → List α) (p : P) (xs : List α) (q : P) (ys : List α) : P → List α :=
  update (update content p xs) q ys

theorem exchange_left (differ : p ≠ q) : exchange content p xs q ys p = xs := by
  simp [exchange, differ]

theorem exchange_right : exchange content p xs q ys q = ys := by
  simp [exchange]

theorem exchange_other {r : P} (left : r ≠ p) (right : r ≠ q) :
    exchange content p xs q ys r = content r := by
  simp [exchange, left, right]

theorem mem_exchange_iff (differ : p ≠ q) {r : P} : a ∈ exchange content p xs q ys r ↔
    r = p ∧ a ∈ xs ∨ r = q ∧ a ∈ ys ∨ r ≠ p ∧ r ≠ q ∧ a ∈ content r := by
  by_cases right : r = q
  · subst right
    simp [exchange_right, differ.symm]
  · by_cases left : r = p
    · subst left
      simp [exchange_left differ, differ]
    · simp [exchange_other left right, left, right]

/-- What was at the two places is still there. -/
theorem mem_exchange (differ : p ≠ q) (same : (xs ++ ys).Perm (content p ++ content q)) :
    (∃ r, a ∈ exchange content p xs q ys r) ↔ ∃ r, a ∈ content r := by
  have both : a ∈ xs ∨ a ∈ ys ↔ a ∈ content p ∨ a ∈ content q := by
    simpa using same.mem_iff
  constructor
  · rintro ⟨r, known⟩
    rcases (mem_exchange_iff differ).mp known with ⟨-, here⟩ | ⟨-, here⟩ | ⟨-, -, here⟩
    · rcases both.mp (.inl here) with there | there
      · exact ⟨p, there⟩
      · exact ⟨q, there⟩
    · rcases both.mp (.inr here) with there | there
      · exact ⟨p, there⟩
      · exact ⟨q, there⟩
    · exact ⟨r, here⟩
  · rintro ⟨r, known⟩
    by_cases either : r = p ∨ r = q
    · have here : a ∈ xs ∨ a ∈ ys := by
        rw [both]
        rcases either with rfl | rfl
        · exact .inl known
        · exact .inr known
      rcases here with here | here
      · exact ⟨p, (mem_exchange_iff differ).mpr (.inl ⟨rfl, here⟩)⟩
      · exact ⟨q, (mem_exchange_iff differ).mpr (.inr (.inl ⟨rfl, here⟩))⟩
    · rw [not_or] at either
      exact ⟨r, (mem_exchange_iff differ).mpr (.inr (.inr ⟨either.1, either.2, known⟩))⟩

theorem Separate.exchange (separate : Separate content) (differ : p ≠ q)
    (same : (xs ++ ys).Perm (content p ++ content q)) :
    Separate (exchange content p xs q ys) := by
  have whole : (content p ++ content q).Nodup :=
    List.nodup_append'.mpr ⟨separate.nodup p, separate.nodup q, separate.disjoint p q differ⟩
  obtain ⟨leftNodup, rightNodup, apart⟩ := List.nodup_append'.mp (same.nodup_iff.mpr whole)
  have away : ∀ r, r ≠ p → r ≠ q → ∀ a, a ∈ xs ∨ a ∈ ys → a ∉ content r := by
    intro r left right a known there
    rcases List.mem_append.mp (same.mem_iff.mp (List.mem_append.mpr known)) with here | here
    · exact separate.disjoint p r left.symm here there
    · exact separate.disjoint q r right.symm here there
  constructor
  · intro r
    by_cases right : r = q
    · subst right
      rwa [exchange_right]
    · by_cases left : r = p
      · subst left
        rwa [exchange_left differ]
      · rw [exchange_other left right]
        exact separate.nodup r
  · intro r r' unlike a here there
    rw [mem_exchange_iff differ] at here there
    rcases here with ⟨rfl, here⟩ | ⟨rfl, here⟩ | ⟨left, right, here⟩ <;>
      rcases there with ⟨rfl, there⟩ | ⟨rfl, there⟩ | ⟨left', right', there⟩
    · exact unlike rfl
    · exact apart here there
    · exact away r' left' right' a (.inl here) there
    · exact apart there here
    · exact unlike rfl
    · exact away r' left' right' a (.inr here) there
    · exact away r left right a (.inl there) here
    · exact away r left right a (.inr there) here
    · exact separate.disjoint r r' unlike here there

theorem Separate.add (separate : Separate content) (new : ∀ r, a ∉ content r)
    (same : xs.Perm (a :: content p)) : Separate (update content p xs) := by
  constructor
  · intro r
    by_cases here : r = p
    · subst here
      rw [update_self]
      exact same.nodup_iff.mpr (List.nodup_cons.mpr ⟨new r, separate.nodup r⟩)
    · rw [update_of_ne here]
      exact separate.nodup r
  · have apart : ∀ r, r ≠ p → List.Disjoint xs (content r) := by
      intro r other b here there
      rcases List.mem_cons.mp (same.mem_iff.mp here) with rfl | old
      · exact new r there
      · exact separate.disjoint p r other.symm old there
    intro r r' unlike
    by_cases left : r = p
    · subst left
      rw [update_self, update_of_ne unlike.symm]
      exact apart r' unlike.symm
    · by_cases right : r' = p
      · subst right
        rw [update_self, update_of_ne left]
        exact fun b here there => apart r left there here
      · rw [update_of_ne left, update_of_ne right]
        exact separate.disjoint r r' unlike

end Tasking.Ownership
