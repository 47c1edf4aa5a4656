import Tasking.Shutdown

/-! Lazy futures deliver the value they were set to, however often their task is
stolen before it runs. -/
namespace Tasking.Runtime
open Fallible Family TokenProtocol Custody

variable {cfg : Config} {s : State}

/-- The worker has the task: in its deque, in its hands, or on its stack. -/
def Worker.Has (x : Worker) (t : Task) : Prop :=
  t ∈ x.deque ∨ x.pc.held = some t ∨ ∃ frame ∈ x.frames, frame.task = t

/-- What the fields of a future promise. -/
structure LazyFuture.Delivers (f : LazyFuture) : Prop where
  /-- What `RT_force_future` returned is what `FUTURE_SET` was given. -/
  value : ∀ v, f.result = some v → f.passed = some v
  /-- The union is what the flags say. -/
  channel : f.hasChannel = true → f.cell = .chan
  buffer : f.hasChannel = false → f.set = true → ∃ v, f.cell = .buf v ∧ f.passed = some v
  allocated : f.allocs = if f.hasChannel then 1 else 0
  /-- The channel is freed when the value is returned, and only then. -/
  freed : f.frees = if f.result.isSome then f.allocs else 0

/-- Without a channel the task of a future is still with the worker that created
it. -/
def AtCreator (cfg : Config) (s : State) (f : ℕ) : Prop :=
  (s.net.futures f).hasChannel = false → ∀ t : Task, t.future = some f →
    (∀ w < cfg.numWorkers, (s.workers w).Has t → w = (s.net.futures f).creator) ∧
    ∀ v < cfg.numWorkers, ∀ c < cfg.maxSteal, ∀ batch state,
      s.net.chanTasks v c = some (.tasks batch state) → t ∉ batch

/-- The assertions about futures, and the readings of the union. -/
def futureFaults : List Fault :=
  [.futureSetNull, .futureNotSet, .futureChanNull, .futureUnion, .futureFreed]

/-! ## Between steps -/

theorem reachable_kept (reached : (system cfg).Reachable s) : Kept (s.custody cfg) := by
  rcases reachable_cases reached with ok | closed
  · exact (Custody.reachable_inv ok.custody).2
  · exact (Custody.reachable_inv closed.custody).2

theorem mem_custody_of_has {w : ℕ} {t : Task} (worker : w < cfg.numWorkers)
    (has : (s.workers w).Has t) : (Spot.ready w, t.tag) ∈ (s.custody cfg).tasks ∨
      (Spot.running w, t.tag) ∈ (s.custody cfg).tasks := by
  have own (e : Spot × Tag) (member : e ∈ (s.workers w).tasks w) : e ∈ (s.custody cfg).tasks :=
    Multiset.mem_of_le (tasks_le_custody worker) member
  rcases has with inDeque | held | ⟨frame, onStack, rfl⟩
  · refine .inl (own _ (Multiset.mem_add.mpr (.inl (Multiset.mem_map_of_mem _ ?_))))
    exact Multiset.mem_coe.mpr (List.mem_map_of_mem (List.mem_append_right _ inDeque))
  · refine .inl (own _ (Multiset.mem_add.mpr (.inl (Multiset.mem_map_of_mem _ ?_))))
    exact Multiset.mem_coe.mpr (List.mem_map_of_mem (List.mem_append_left _ (by simp [held])))
  · refine .inr (own _ (Multiset.mem_add.mpr (.inr (Multiset.mem_map_of_mem _ ?_))))
    exact Multiset.mem_coe.mpr (List.mem_map_of_mem (List.mem_map_of_mem onStack))

theorem mem_custody_of_sent {v c : ℕ} {batch : List Task} {state : ReqState} {t : Task}
    (worker : v < cfg.numWorkers) (inside : c < cfg.maxSteal)
    (slot : s.net.chanTasks v c = some (.tasks batch state)) (member : t ∈ batch) :
    (Spot.sent v c, t.tag) ∈ (s.custody cfg).tasks := by
  refine Multiset.mem_of_le (tasksIn_le_custody worker inside) ?_
  rw [slot]
  exact Multiset.mem_map_of_mem _ (Multiset.mem_coe.mpr (List.mem_map_of_mem member))

theorem LazyFuture.Sound.delivers {f : LazyFuture} (sound : f.Sound) : f.Delivers := by
  cases sound <;> constructor <;> simp

theorem at_creator (kept : Kept (s.custody cfg)) (f : ℕ) : AtCreator cfg s f := by
  refine fun lazy t future => ⟨fun w worker has => ?_, fun v worker c inside batch state slot => ?_⟩
  · rcases mem_custody_of_has worker has with member | member <;>
      rcases (kept.home _ member f future).2.2 lazy with here | here <;> cases here <;> rfl
  · intro member
    rcases (kept.home _ (mem_custody_of_sent worker inside slot member) f future).2.2 lazy with
      here | here <;> cases here

/-! ## During a step -/

/-- What a step does to the tasks and futures is a run of the custody protocol. -/
theorem custody_moves (reached : (system cfg).Reachable s) {s' : State} {w : ℕ}
    (worker : w < cfg.numWorkers) (moved : Moves cfg w s s') :
    Relation.ReflTransGen (Custody.Step w) (s.custody cfg) (s'.custody cfg) := by
  obtain ⟨c, n, ran, rfl⟩ := moved
  rw [custody_node worker, custody_put worker]
  rcases reachable_cases reached with ok | closed
  · rcases ((ok.pre worker).wstep c).value ran with exits | sim
    · rw [exits.custody]
    · exact sim.custody
  · rw [((closed.ensures worker c).value ran).custody]

/-- Once `FUTURE_SET` was called, the next test of `READY` makes `RT_force_future`
return the value. -/
theorem Refines.returns (ok : Refines cfg s) {w f : ℕ} {point : ReadyPoint} {v : Value}
    (worker : w < cfg.numWorkers) (here : (s.workers w).pc = .forceReady (.own f) point)
    (passed : (s.net.futures f).passed = some v) (c : Choice) :
    ∃ n, wstep cfg w c (s.node w) = .ok n ∧ n.self.pc = .user ∧
      (n.net.futures f).result = some v := by
  have pre := ok.pre worker
  obtain ⟨known, -, unread, asked⟩ := (ok.depends w worker).futures f (by
    simp only [Local.awaiting, Worker.loc, here]
    exact List.mem_append_left _ List.mem_cons_self)
  obtain ⟨read, forced, result⟩ := (pre.kept.sound f known).force_set asked unread passed
  have forced : (s.net.futures f).force = .ok (some read) := forced
  refine ⟨Node.goto ⟨s.workers w, s.net.setFuture f read⟩ .user, ?_, rfl, ?_⟩
  · simp only [wstep, State.node, here, forceStep, forced]
    rfl
  · simpa [Node.goto, Network.setFuture] using result

/-- After `RT_EXIT` nobody awaits a future. -/
theorem Closed.not_forcing (closed : Closed cfg s) {w : ℕ} {f : Awaited} {point : ReadyPoint}
    (worker : w < cfg.numWorkers) : (s.workers w).pc ≠ .forceReady f point := by
  intro here
  cases (closed.leaves w worker).way with
  | out out => rcases out with out | out | out <;> simp [here] at out
  | told _ _ told => simp [here] at told
  | waits _ _ idle _ _ =>
    rw [here] at idle
    cases idle

/-- In every reachable state, futures have delivered or will deliver the value they
are set to: the union is only read as what it is, the channel is allocated and
freed at most once, without a channel the task never left its creator, nobody else
writes to the future, and once it is set the next test returns the value. -/
theorem lazy_futures_deliver (reached : (system cfg).Reachable s) :
    (∀ f < s.net.nextFuture, (s.net.futures f).Delivers ∧ AtCreator cfg s f) ∧
    (∀ f < s.net.nextFuture, ∀ w < cfg.numWorkers, ∀ s', Moves cfg w s s' →
      ((s.net.futures f).hasChannel = true → (s'.net.futures f).hasChannel = true) ∧
      (w ≠ (s.net.futures f).creator → (s'.net.futures f).cell = (s.net.futures f).cell ∧
        (s'.net.futures f).hasChannel = (s.net.futures f).hasChannel ∧
        (s'.net.futures f).set = (s.net.futures f).set)) ∧
    (∀ w < cfg.numWorkers, ∀ f point v, (s.workers w).pc = .forceReady (.own f) point →
      (s.net.futures f).passed = some v → ∀ c, ∃ n, wstep cfg w c (s.node w) = .ok n ∧
        n.self.pc = .user ∧ (n.net.futures f).result = some v) ∧
    ∀ which ∈ futureFaults, ¬ Faults cfg s which := by
  have kept := reachable_kept reached
  refine ⟨fun f known => ⟨(kept.sound f known).delivers, at_creator kept f⟩,
    fun f known w worker s' moved => ⟨fun channel => ?_, fun other => ?_⟩,
    fun w worker f point v here passed c => ?_, fun which member fault => ?_⟩
  · exact kept.channel_kept_run (custody_moves reached worker moved) known channel
  · have untouched := kept.untouched_run (custody_moves reached worker moved) known other.symm
    exact ⟨untouched.cell, untouched.hasChannel, untouched.set⟩
  · rcases reachable_cases reached with ok | closed
    · exact ok.returns worker here passed c
    · exact absurd here (closed.not_forcing worker)
  · have excluded : ∀ which ∈ futureFaults, ¬ Late which := by decide
    refine excluded which member ?_
    rcases reachable_cases reached with ok | closed
    · exact .inl (ok.faults fault)
    · exact closed.faults fault

/-- The master creates a future; worker 1 steals its task and sets it to 42 before
the master awaits it. -/
def futureSchedule : List (ℕ × Choice) :=
  (0, .plain (.spawn none true)) :: runsOn 0 3 ++ runsOn 1 5 ++
    (0, .plain (.spawn none false)) :: runsOn 0 5 ++ runsOn 1 2 ++
    (1, .plain (.finish [42])) :: (0, .plain (.await (.own 0))) :: runsOn 0 1

theorem stolen_future_delivers :
    ((after (.makefile 2 two_pos) futureSchedule).net.futures 0).result = some [42] ∧
      ((after (.makefile 2 two_pos) futureSchedule).net.futures 0).Delivers :=
  ⟨by decide +kernel,
    ((lazy_futures_deliver (after_reachable _ futureSchedule)).1 0 (by decide +kernel)).1⟩

end Tasking.Runtime
