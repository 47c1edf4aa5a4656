import Tasking.FutureDelivery
import Tasking.ProgramRefinement

/-!
What programs on the runtime compute.

Whoever steals what, and wherever a loop is cut: the tasks are the threads of the program.
So the sequential run, in which a task is executed where it is created, foretells all
parallel runs.  It foretells the value of every future, the result of the main program, and,
up to their order, the effects of all tasks.
-/
namespace Tasking.Runtime
open Fallible ForkJoin Loops

section Runs

variable {ε : Type}

/-! ## Schedules -/

def Programmed.turn (cfg : Config) (w : ℕ) (d : Programmed ε) : Checked (Programmed ε) := do
  await (w < cfg.numWorkers)
  d.move cfg w ⟨List.replicate 8 0, 0⟩

/-- The state of a program after some turns of the workers. -/
def Programmed.after (cfg : Config) (main : Program Bounds ε Value) (turns : List ℕ) :
    Programmed ε := Transition.System.follow (Programmed.turn cfg) turns (.init cfg main)

def rounds (cfg : Config) (count : ℕ) : List ℕ :=
  (List.replicate count (List.range cfg.numWorkers)).flatten

variable {cfg : Config} {main : Program Bounds ε Value} {d : Programmed ε}

theorem programmed_reachable (cfg : Config) (main : Program Bounds ε Value) (turns : List ℕ) :
    (programmed cfg main).Reachable (.after cfg main turns) := by
  refine (Transition.System.reachable_of_init rfl).follow fun w _ d d' taken => ?_
  have ran := returns_of_ok taken
  simp only [Programmed.turn, returns_bind, returns_await] at ran
  obtain ⟨_, moved, rfl⟩ := ran.2.exists_ok
  exact ⟨w, ran.1, _, moved⟩

/-! ## Results -/

/-- Whatever the workers do, the tasks are the threads of the program: a step of a worker is a
step of a thread, or concerns the runtime only. -/
theorem programs_refine (reached : (programmed cfg main).Reachable d) :
    (parallel main).Reachable (d.pool cfg) ∧ ∀ d', (programmed cfg main).step d d' →
      Relation.ReflGen (parallel main).step (d.pool cfg) (d'.pool cfg) := by
  obtain ⟨ok, run⟩ := reachable_ok reached
  refine ⟨run, ?_⟩
  rintro d' ⟨w, worker, o, moved⟩
  exact (ok.move worker moved).2

/-- A loop whose iterations have an effect each, beside a task with a future. -/
def loopBesideFuture : Program Bounds ℕ Value :=
  .each ⟨0, 3, by decide, by decide, by decide, by decide⟩ (fun i => .emit i.toNat (.ret []))
    (.future (.emit 7 (.ret [5])) fun k => .await k fun v => .ret v)

/-- The loop is split while the second worker is idle. -/
theorem split_loop_refines :
    (Programmed.after (.makefile 2 two_pos) loopBesideFuture
      (rounds (.makefile 2 two_pos) 35)).log = [0, 7, 1, 2] ∧
    (parallel loopBesideFuture).Reachable ((Programmed.after (.makefile 2 two_pos) loopBesideFuture
      (rounds (.makefile 2 two_pos) 35)).pool (.makefile 2 two_pos)) :=
  ⟨by decide +kernel, (programs_refine (programmed_reachable _ _ _)).1⟩

/-- If the main program has a sequential run then so has the function of every future that was
created, and what `FUTURE_SET` is given and `RT_force_future` returns is the result of
that run. -/
theorem futures_sequential {o : ForkJoin.Outcome ε Value} (ran : main.run [] = some o)
    (reached : (programmed cfg main).Reachable d) {f : ℕ} (known : f < d.state.net.nextFuture)
    {v : Value} (delivered : (d.state.net.futures f).passed = some v ∨
      (d.state.net.futures f).result = some v) :
    ∃ run, (d.source f).run [] = some run ∧ run.value = v := by
  obtain ⟨ok, run⟩ := reachable_ok reached
  have passed : (d.state.net.futures f).passed = some v := by
    refine delivered.elim id fun result => ?_
    have sound := (Custody.reachable_inv ok.refines.custody).2.sound f known
    exact (LazyFuture.Sound.delivers sound).value v result
  have worth := ((reachable_sound ran run).resolved f v passed).2
  exact Option.map_eq_some_iff.mp worth

theorem first_future_sequential :
    ∃ run, ((Programmed.after (.makefile 2 two_pos) loopBesideFuture
        (rounds (.makefile 2 two_pos) 35)).source 0).run [] = some run ∧ run.value = [5] :=
  futures_sequential (o := ⟨[5], [[5]], [0, 1, 2, 7]⟩) (by decide +kernel)
    (programmed_reachable _ _ _) (by decide +kernel) (.inr (by decide +kernel))

/-- A main program that ends with a barrier returns what it returns sequentially.  No task is
left then, and the effects of all tasks are those of the sequential run. -/
theorem programs_sequential {o : ForkJoin.Outcome ε Value} (ran : main.run [] = some o)
    (reached : (programmed cfg main.closed).Reachable d) {v : Value}
    (returned : d.root.program.result = some v) :
    d.state.pieces cfg = 0 ∧ v = o.value ∧ d.log.Perm o.events := by
  obtain ⟨through, value, events⟩ := closed_through ran (reachable_ok reached).2 returned
  exact ⟨Multiset.map_eq_zero.mp through, value, events⟩

theorem loopBesideFuture_sequential :
    (Programmed.after (.makefile 2 two_pos) loopBesideFuture.closed
      (rounds (.makefile 2 two_pos) 70)).log.Perm [0, 1, 2, 7] :=
  (programs_sequential (o := ⟨[5], [[5]], [0, 1, 2, 7]⟩) (v := [5]) (by decide +kernel)
    (programmed_reachable _ _ _) (by decide +kernel)).2.2

end Runs

end Tasking.Runtime
