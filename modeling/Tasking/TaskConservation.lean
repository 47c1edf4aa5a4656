import Tasking.RequestAccounting

/-! No task is lost, and none runs twice: a task that was created and has not
started is in exactly one place. -/
namespace Tasking.Runtime
open Family TokenProtocol Custody

variable {cfg : Config} {s : State}

/-! ## Where tasks wait -/

def State.inDeques (cfg : Config) (s : State) : Multiset ℕ :=
  gather cfg.numWorkers fun w => ↑((s.workers w).deque.map Task.id)

/-- The tasks that were popped or received and are about to be run. -/
def State.aboutToRun (cfg : Config) (s : State) : Multiset ℕ :=
  gather cfg.numWorkers fun w => ↑((s.workers w).pc.held.toList.map Task.id)

def Message.taskIds : Option Message → Multiset ℕ
  | some (.tasks batch _) => ↑(batch.map Task.id)
  | _ => 0

def State.inChannels (cfg : Config) (s : State) : Multiset ℕ :=
  gather cfg.numWorkers fun w => gather cfg.maxSteal fun chan =>
    Message.taskIds (s.net.chanTasks w chan)

theorem waitingIds_add (first second : Multiset (Spot × Tag)) :
    waitingIds (first + second) = waitingIds first + waitingIds second := by
  simp only [waitingIds, Multiset.filter_add, Multiset.map_add]

theorem waitingIds_gather (n : ℕ) (f : ℕ → Multiset (Spot × Tag)) :
    waitingIds (gather n f) = gather n fun i => waitingIds (f i) := by
  simp only [waitingIds, filter_gather, map_gather]

theorem waitingIds_place (spot : Spot) (tasks : List Task) :
    waitingIds (place spot (tagsOf tasks)) = if spot.isRunning then 0 else
    ↑(tasks.map Task.id) := by
  have shape : (place spot (tagsOf tasks)).filter (fun e => ¬ e.1.isRunning) =
      if spot.isRunning then 0 else place spot (tagsOf tasks) := by
    cases running : spot.isRunning with
    | true =>
      refine Multiset.filter_eq_nil.mpr fun e member => ?_
      obtain ⟨t, -, rfl⟩ := Multiset.mem_map.mp member
      simp [running]
    | false =>
      refine Multiset.filter_eq_self.mpr fun e member => ?_
      obtain ⟨t, -, rfl⟩ := Multiset.mem_map.mp member
      simp [running]
  rw [waitingIds, shape]
  split
  · rfl
  · simp [place, tagsOf, Function.comp_def, Task.tag]

theorem waitingIds_custody (cfg : Config) (s : State) :
    waitingIds (s.custody cfg).tasks = s.inDeques cfg + s.inChannels cfg + s.aboutToRun cfg := by
  have message (v c : ℕ) (slot : Option Message) :
      waitingIds (Message.tasksIn v c slot) = Message.taskIds slot := by
    match slot with
    | none | some (.exit _) => rfl
    | some (.tasks batch state) => exact waitingIds_place _ _
  have worker (w : ℕ) (x : Worker) : waitingIds (x.tasks w) =
      ↑(x.pc.held.toList.map Task.id) + ↑(x.deque.map Task.id) := by
    rw [Worker.tasks, waitingIds_add, waitingIds_place, waitingIds_place]
    simp [Spot.isRunning]
  simp only [State.custody, Network.tasks, waitingIds_add, waitingIds_gather, message, worker,
    gather_add, State.inDeques, State.inChannels, State.aboutToRun]
  abel

/-- The target of every live request is empty, so that sending to it succeeds. -/
theorem Refines.target_empty (ok : Refines cfg s) {req : StealRequest}
    (member : req ∈ s.requests cfg) : s.net.chanTasks req.ID req.chan = none := by
  have token : req.token ∈ (s.ring cfg).tokens.map Prod.snd := by
    rw [ring_tokens_snd]
    exact Multiset.mem_map_of_mem _ member
  obtain ⟨⟨p, r⟩, held, same⟩ := Multiset.mem_map.mp token
  obtain rfl : r = req.token := same
  have pre := ok.pre cfg.someWorker
  rw [ring_node cfg.someWorker] at held
  exact (pre.slot_empty held).2.2

/-- Before `RT_EXIT` the tasks that have not started are those in the deques, in the
channels, and about to be run; no unchecked `channel_send` ever fails; and no task
is run twice. -/
theorem no_task_lost_or_run_twice (reached : (system cfg).Reachable s)
    (running : s.net.exiting = false) :
    (s.net.created : Multiset ℕ).filter (fun id => id ∉ s.net.started) =
        s.inDeques cfg + s.inChannels cfg + s.aboutToRun cfg ∧
      (s.inDeques cfg + s.inChannels cfg + s.aboutToRun cfg).Nodup ∧
      (∀ req ∈ s.requests cfg, s.net.chanTasks req.ID req.chan = none) ∧ s.net.lost = [] ∧
      s.net.started.Nodup ∧ ∀ id ∈ s.net.started, id ∈ s.net.created := by
  have ok := reachable_refines reached running
  obtain ⟨conserved, -⟩ := Custody.reachable_inv ok.custody
  have created : (s.net.created : Multiset ℕ) = ↑s.net.started +
      (s.inDeques cfg + s.inChannels cfg + s.aboutToRun cfg) := by
    rw [← waitingIds_custody]
    exact conserved.created_eq
  have nodup : (s.net.created : Multiset ℕ).Nodup := conserved.nodup
  rw [created] at nodup
  obtain ⟨started, waiting, apart⟩ := Multiset.nodup_add.mp nodup
  refine ⟨?_, waiting, fun req => ok.target_empty, ok.net.lossless, Multiset.coe_nodup.mp started,
    fun id member => ?_⟩
  · have none : (s.net.started : Multiset ℕ).filter (fun id => id ∉ s.net.started) = 0 :=
      Multiset.filter_eq_nil.mpr fun id member => not_not_intro (Multiset.mem_coe.mp member)
    have all : (s.inDeques cfg + s.inChannels cfg + s.aboutToRun cfg).filter
        (fun id => id ∉ s.net.started) = s.inDeques cfg + s.inChannels cfg + s.aboutToRun cfg :=
      Multiset.filter_eq_self.mpr fun id member started =>
        Multiset.disjoint_left.mp apart (Multiset.mem_coe.mpr started) member
    rw [created, Multiset.filter_add, none, all, zero_add]
  · have member : id ∈ (s.net.created : Multiset ℕ) := by
      rw [created]
      exact Multiset.mem_add.mpr (.inl (Multiset.mem_coe.mpr member))
    exact Multiset.mem_coe.mp member

/-- The master pushes two tasks, and worker 1 steals the older one. -/
def stealSchedule : List (ℕ × Choice) :=
  (0, .plain (.spawn none false)) :: runsOn 0 3 ++ runsOn 1 6 ++
    (0, .plain (.spawn none false)) :: runsOn 0 3

/-- One task is left in the master's deque, the other is on its way to worker 1. -/
theorem stolen_task_conserved :
    (after (.makefile 2 two_pos) stealSchedule).net.created = [0, 1] ∧
      (after (.makefile 2 two_pos) stealSchedule).inChannels (.makefile 2 two_pos) = {0} ∧
      ((after (.makefile 2 two_pos) stealSchedule).net.created : Multiset ℕ).filter
          (fun id => id ∉ (after (.makefile 2 two_pos) stealSchedule).net.started) =
        (after (.makefile 2 two_pos) stealSchedule).inDeques (.makefile 2 two_pos) +
          (after (.makefile 2 two_pos) stealSchedule).inChannels (.makefile 2 two_pos) +
          (after (.makefile 2 two_pos) stealSchedule).aboutToRun (.makefile 2 two_pos) :=
  ⟨by decide +kernel, by decide +kernel,
    (no_task_lost_or_run_twice (after_reachable _ _) (by decide +kernel)).1⟩

end Tasking.Runtime
