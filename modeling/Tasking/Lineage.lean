import Mathlib.Tactic.Common

/-! Trees given by a parent function.  `Below up top i` says that climbing from
`i` reaches `top`, so the nodes below `top` are its subtree, `top` included. -/
namespace Tasking.Lineage

variable {α : Type} {up : α → Option α} {a b c i p : α}

/-- Climbing from the node zero or more times reaches `top`.  What is above a node is found
without knowing the children. -/
inductive Below (up : α → Option α) (top : α) : α → Prop where
  | here : Below up top top
  | child {p i : α} : Below up top p → up i = some p → Below up top i

theorem Below.trans (upper : Below up a b) (lower : Below up b c) : Below up a c := by
  induction lower with
  | here => exact upper
  | child _ climbs ih => exact ih.child climbs

/-- A node other than the top of a subtree has its parent in it. -/
theorem Below.eq_or_parent (below : Below up a i) :
    i = a ∨ ∃ p, up i = some p ∧ Below up a p := by
  cases below with
  | here => exact .inl rfl
  | child upper climbs => exact .inr ⟨_, climbs, upper⟩

/-- A node other than the top of a subtree is below some child of the top. -/
theorem Below.eq_or_under_child (below : Below up a i) :
    i = a ∨ ∃ c, up c = some a ∧ Below up c i := by
  induction below with
  | here => exact .inl rfl
  | @child p i _ climbs ih =>
    rcases ih with rfl | ⟨c, under, lower⟩
    · exact .inr ⟨i, climbs, .here⟩
    · exact .inr ⟨c, under, lower.child climbs⟩

/-- Two nodes above a third lie on one path: a parent function leaves no choice
of where to climb. -/
theorem Below.comparable (first : Below up a i) (second : Below up b i) :
    Below up a b ∨ Below up b a := by
  induction first with
  | here => exact .inr second
  | @child p i upper climbs ih =>
    cases second with
    | here => exact .inl (upper.child climbs)
    | child upper' climbs' =>
      rw [climbs] at climbs'
      cases climbs'
      exact ih upper'

end Tasking.Lineage
