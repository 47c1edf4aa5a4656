import Mathlib.Logic.Relation

/-! Transition systems: reachable states, the invariant rule, and systems given by
the moves of their parties.  Nothing here knows what the states are.

Interleaving is not a separate notion: a system of several parties is a
transition system whose step picks the party that moves. -/
namespace Tasking.Transition

/-- Where a system may start, and what one atomic step may do. -/
structure System (σ : Type*) where
  /-- The initial states. -/
  init : σ → Prop
  /-- One step, by whichever party moves. -/
  step : σ → σ → Prop

namespace System

variable {σ : Type*} {S : System σ}

/-- A state some finite run reaches. -/
def Reachable (S : System σ) (s : σ) : Prop :=
  ∃ first, S.init first ∧ Relation.ReflTransGen S.step first s

theorem reachable_of_init {s : σ} (initial : S.init s) : S.Reachable s :=
  ⟨s, initial, .refl⟩

theorem Reachable.tail {s s' : σ} (reached : S.Reachable s) (next : S.step s s') :
    S.Reachable s' := by
  obtain ⟨first, initial, run⟩ := reached
  exact ⟨first, initial, run.tail next⟩

theorem Reachable.trans {s s' : σ} (reached : S.Reachable s)
    (run : Relation.ReflTransGen S.step s s') : S.Reachable s' := by
  obtain ⟨first, initial, before⟩ := reached
  exact ⟨first, initial, before.trans run⟩

/-- What holds initially and survives every step holds in every reachable state.
The step may use that the state it leaves is reachable. -/
theorem Reachable.invariant {Inv : σ → Prop} (initial : ∀ s, S.init s → Inv s)
    (preserved : ∀ s s', S.Reachable s → Inv s → S.step s s' → Inv s')
    {s : σ} (reached : S.Reachable s) : Inv s := by
  obtain ⟨first, start, run⟩ := reached
  induction run with
  | refl => exact initial first start
  | tail before next ih => exact preserved _ _ ⟨first, start, before⟩ ih next

/-! ### Systems given by the moves of their parties -/

section Moves

variable {π ε : Type*} {start : σ} {move : π → σ → Except ε σ}

/-- In a step one of the parties makes its move. -/
def ofMoves (start : σ) (move : π → σ → Except ε σ) : System σ where
  init s := s = start
  step s s' := ∃ party, move party s = .ok s'

/-- The state after a schedule.  A party that cannot move is passed over, so that every schedule
has a state. -/
def follow (move : π → σ → Except ε σ) (schedule : List π) (s : σ) : σ :=
  match schedule with
  | [] => s
  | party :: rest => follow move rest ((move party s).toOption.getD s)

/-- Following a schedule is a run of every system that can copy the moves, on states of its
own that show the ones of the parties. -/
theorem follow_lift {τ : Type*} {view : τ → σ} {step : τ → τ → Prop} {schedule : List π}
    (lift : ∀ party ∈ schedule, ∀ d s', move party (view d) = .ok s' →
      ∃ d', step d d' ∧ view d' = s') (d : τ) :
    ∃ d', Relation.ReflTransGen step d d' ∧ view d' = follow move schedule (view d) := by
  induction schedule generalizing d with
  | nil => exact ⟨d, .refl, rfl⟩
  | cons party rest ih =>
    have later := ih fun other member => lift other (List.mem_cons_of_mem _ member)
    rw [follow]
    cases moved : move party (view d) with
    | ok s' =>
      obtain ⟨next, first, rfl⟩ := lift party List.mem_cons_self d s' moved
      obtain ⟨d', run, same⟩ := later next
      exact ⟨d', .head first run, same⟩
    | error _ => exact later d

theorem Reachable.follow {s : σ} (reached : S.Reachable s) {schedule : List π}
    (copies : ∀ party ∈ schedule, ∀ s s', move party s = .ok s' → S.step s s') :
    S.Reachable (follow move schedule s) := by
  obtain ⟨_, run, rfl⟩ := @follow_lift σ π ε move σ id S.step schedule
    (fun party member s s' moved => ⟨s', copies party member s s' moved, rfl⟩) s
  exact reached.trans run

theorem follow_reachable (schedule : List π) :
    (ofMoves start move).Reachable (follow move schedule start) :=
  (reachable_of_init rfl).follow fun party _ _ _ moved => ⟨party, moved⟩

end Moves

end System
end Tasking.Transition
