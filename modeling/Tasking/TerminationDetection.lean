import Tasking.Shutdown

/-! Termination detection is never premature: when the master concludes that all
work is done, it is. -/
namespace Tasking.Runtime
open Fallible Family TokenProtocol Custody

variable {cfg : Config} {s : State}

/-- Everybody but the master waits, no task is anywhere, and every task that was
ever created has finished. -/
structure AllDone (cfg : Config) (s : State) : Prop where
  others : ∀ w < cfg.numWorkers, w ≠ 0 →
    (s.workers w).waitingForTasks = true ∧ (s.workers w).frames = []
  deques : ∀ w < cfg.numWorkers, (s.workers w).deque = []
  channels : ∀ v c, s.net.chanTasks v c = none
  finished : s.net.finished.Perm s.net.created

/-- Nobody holds a task in a state the master takes for quiescent. -/
theorem Refines.rested (ok : Refines cfg s) (several : 2 ≤ cfg.numWorkers)
    (quiescent : (s.workers 0).quiescent = true) {w : ℕ} (worker : w < cfg.numWorkers) :
    (w ≠ 0 → (s.workers w).waitingForTasks = true) ∧ (s.workers w).deque = [] ∧
      (s.workers w).frames = [] ∧ (s.workers w).pc.held = none := by
  have inv := TokenProtocol.reachable_inv cfg.someSteal ok.ring
  obtain ⟨-, idle, -⟩ := inv.quiet several quiescent
  by_cases master : w = 0
  · subst master
    obtain ⟨deque, rets, held⟩ := (ok.loc 0 worker).quiescent_empty quiescent several
    exact ⟨absurd rfl, deque, List.map_eq_nil_iff.mp rets, held⟩
  · have waiting := (inv.all_wait cfg.someWorker idle worker master).1
    obtain ⟨-, deque, frames, isIdle, -⟩ := ok.waits worker waiting
    exact ⟨fun _ => waiting, deque, frames, Pc.held_of_isIdle isIdle⟩

theorem Refines.no_message (ok : Refines cfg s) (several : 2 ≤ cfg.numWorkers)
    (quiescent : (s.workers 0).quiescent = true) (v c : ℕ) : s.net.chanTasks v c = none := by
  have inv := TokenProtocol.reachable_inv cfg.someSteal ok.ring
  cases slot : s.net.chanTasks v c with
  | none => rfl
  | some message =>
    obtain ⟨inside, chan, batch, state, -, rfl⟩ := ok.net.slots v c message slot
    have answer : (⟨v, c, state⟩ : Token) ∈ (s.ring cfg).answers :=
      mem_answers.mpr ⟨batch, inside, chan, slot⟩
    simp [(inv.quiet several quiescent).2.2] at answer

/-- Nobody has a task, and no task is under way. -/
theorem custody_empty (rested : ∀ w < cfg.numWorkers, (s.workers w).deque = [] ∧
      (s.workers w).frames = [] ∧ (s.workers w).pc.held = none)
    (channels : ∀ v c, s.net.chanTasks v c = none) : (s.custody cfg).tasks = 0 := by
  have sent : s.net.tasks cfg = 0 := by
    refine gather_eq_zero.mpr fun v _ => gather_eq_zero.mpr fun c _ => ?_
    rw [channels]
    rfl
  have held : (gather cfg.numWorkers fun w => (s.workers w).tasks w) = 0 := by
    refine gather_eq_zero.mpr fun w worker => ?_
    obtain ⟨deque, frames, held⟩ := rested w worker
    simp only [Worker.tasks, deque, frames, held]
    rfl
  simp only [State.custody, sent, held, add_zero]

theorem Refines.all_done (ok : Refines cfg s) (several : 2 ≤ cfg.numWorkers)
    (quiescent : (s.workers 0).quiescent = true) : AllDone cfg s := by
  have rested {w : ℕ} := ok.rested several quiescent (w := w)
  have channels := ok.no_message several quiescent
  refine ⟨fun w worker other => ?_, fun w worker => (rested worker).2.1, channels, ?_⟩
  · exact ⟨(rested worker).1 other, (rested worker).2.2.1⟩
  · -- No task is left anywhere, so all that were created have finished.
    have none : (s.custody cfg).tasks = 0 :=
      custody_empty (fun w worker => (rested worker).2) channels
    have conserved := (Custody.reachable_inv ok.custody).1.created
    rw [none] at conserved
    exact (Multiset.coe_eq_coe.mp (conserved.trans (by simp [ids, State.custody]))).symm

/-- After `RT_EXIT` the master only walks out. -/
theorem Closed.master_out (closed : Closed cfg s) : (s.workers 0).pc = .exitLeft ∨
    (s.workers 0).pc = .exitRight ∨ (s.workers 0).pc = .finished := by
  cases (closed.leaves 0 cfg.someWorker).way with
  | out here => exact here
  | told other _ _ => exact absurd rfl other
  | waits other _ _ _ _ => exact absurd rfl other

theorem notifyChild_quiescent (child : Option ℕ) (n : Node) :
    Ensures (fun _ => True) (notifyChild child n) fun n' =>
      n'.self.quiescent = n.self.quiescent := by
  cases child with
  | none => rfl
  | some c =>
    simp only [notifyChild, ensures_bind, ensures_check, ensures_pure, implies_true, and_true]
    exact fun _ => (taskAlloc_alike n).1.quiescent

/-- After `RT_EXIT` the master does not detect termination. -/
theorem Closed.quiescent_kept (closed : Closed cfg s) {s' : State} (moved : Moves cfg 0 s s') :
    (s'.workers 0).quiescent = (s.workers 0).quiescent := by
  obtain ⟨c, n, ran, rfl⟩ := moved
  have kept : Ensures (fun _ => True) (wstep cfg 0 c (s.node 0)) fun n' =>
      n'.self.quiescent = (s.workers 0).quiescent := by
    rcases closed.master_out with here | here | here
    · simp only [wstep, State.node, here, ensures_bind]
      exact (notifyChild_quiescent _ _).mono fun _ same => same
    · simp only [wstep, State.node, here, ensures_bind]
      exact (notifyChild_quiescent _ _).mono fun _ same => same
    · simp only [wstep, State.node, here, ensures_disabled]
  simpa [State.put] using kept.value ran

/-- Whenever the master executes `detect_termination`, and whenever `RT_barrier` is
about to return, all work is done.  With several workers `detect_termination` is
the only place where `quiescent` is set. -/
theorem detect_termination_not_premature (several : 2 ≤ cfg.numWorkers)
    (reached : (system cfg).Reachable s) :
    (∀ s', Moves cfg 0 s s' → (s.workers 0).quiescent = false →
      (s'.workers 0).quiescent = true → AllDone cfg s') ∧
    ((s.workers 0).pc = .barrierExit → AllDone cfg s) := by
  constructor
  · intro s' moved before after
    rcases reachable_cases reached with ok | closed
    · obtain ⟨c, n, ran, rfl⟩ := moved
      rcases ok.step cfg.someWorker ran with exits | next
      · exact absurd (exits.quiescent.symm.trans before) (by simp)
      · exact next.all_done several after
    · exact absurd ((closed.quiescent_kept moved).symm.trans after) (by simp [before])
  · intro here
    rcases reachable_cases reached with ok | closed
    · exact ok.all_done several ((ok.loc 0 cfg.someWorker).leaves_quiescent here)
    · rcases closed.master_out with out | out | out <;> simp [here] at out

/-- The master pushes a task and runs it in `RT_barrier`.  Then the requests of
both workers go round until worker 1 fails, and the master sees its own again. -/
def barrierSchedule : List (ℕ × Choice) :=
  (0, .plain (.spawn none false)) :: runsOn 0 3 ++ (0, .plain .barrier) :: runsOn 0 5 ++
    (0, .plain (.finish [])) :: runsOn 1 7 ++ runsOn 0 9 ++ runsOn 1 8 ++ runsOn 0 10

theorem barrier_returns_when_done :
    ((after (.makefile 2 two_pos) barrierSchedule).workers 0).pc = .barrierExit ∧
      (after (.makefile 2 two_pos) barrierSchedule).net.created = [0] ∧
      AllDone (.makefile 2 two_pos) (after (.makefile 2 two_pos) barrierSchedule) :=
  ⟨by decide +kernel, by decide +kernel,
    (detect_termination_not_premature le_rfl (after_reachable _ _)).2 (by decide +kernel)⟩

end Tasking.Runtime
