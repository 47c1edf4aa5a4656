import Tasking.CirculationHistory
import Tasking.ProgramMeaning

/-!
No assertion of the runtime fails while it executes a program.

The bookkeeping of steal requests and futures accounts for most assertions, and the path of a
request for those of `next_victim`.  The rest depends on the program: a loop is split where
there is something to split, a task with a loop is at its start when it enters it, and the
barrier is called by the root task.  One assertion depends on where tasks come from:
a worker that remembers its last victim never remembers itself.
-/
namespace Tasking.Runtime
open Fallible Loops ForkJoin Function

/-- The assertions that depend on the program, and on where stolen tasks come from. -/
def ProgramFault (which : Fault) : Prop :=
  which ∈ [.lastVictimSelf, .splitItersLeft, .splitChunk, .splitLoopNullTask, .asyncForSplittable,
    .asyncForStart, .barrierRoot, .exitFinished, .exitSubtreesIdle, .exitQuiescent, .exitSend]

instance : DecidablePred ProgramFault := fun which => inferInstanceAs (Decidable (which ∈ _))

def Routine (which : Fault) : Prop := ¬ ProgramFault which

instance : DecidablePred Routine := fun _ => inferInstanceAs (Decidable (¬ _))

/-- The first task of a message was stolen from somebody other than the thief. -/
def Network.Marked (cfg : Config) (net : Network) : Prop :=
  cfg.victims = .lastVictim → ∀ owner chan t rest state,
    net.chanTasks owner chan = some (.tasks (t :: rest) state) → t.victim ≠ owner

/-- Tasks that are split have iterations to spare, and no future. -/
def Worker.Sliceable (x : Worker) : Prop :=
  ∀ t, x.splits = some t → t.canSplit = true → Ascending t.range ∧ t.future = none

/-- What user code asks for is in order. -/
structure Proper (w : ℕ) (x : Worker) (act : UserAct) : Prop where
  stays : act ≠ .exit
  loop : act = .asyncFor → ∃ t, x.currentTask = some t ∧ t.splittable = true ∧
    t.range.start = t.range.cur
  root : act = .barrier → w = 0 → x.frames = []

section Steps

variable {cfg : Config} {w : ℕ} {n n' : Node} {x : Worker} {net net' : Network} {o : Oracle}
  {req : StealRequest} {k : ReqCont}

/-! ## Messages -/

theorem Network.Marked.same (marked : net.Marked cfg) (same : net'.chanTasks = net.chanTasks) :
    net'.Marked cfg := by
  rw [Network.Marked, same]
  exact marked

theorem Network.Marked.put (marked : net.Marked cfg) {owner chan : ℕ} {message : Option Message}
    (first : cfg.victims = .lastVictim → ∀ t rest state, message = some (.tasks (t :: rest) state) →
      t.victim ≠ owner) : (net.putTask owner chan message).Marked cfg := by
  intro last owner' chan' t rest state slot
  simp only [Network.putTask] at slot
  by_cases same : owner' = owner
  · subst same
    rw [update_self] at slot
    by_cases here : chan' = chan
    · subst here
      rw [update_self] at slot
      exact first last t rest state slot
    · rw [update_of_ne here] at slot
      exact marked last owner' chan' t rest state slot
  · rw [update_of_ne same] at slot
    exact marked last owner' chan' t rest state slot

/-- Stolen tasks are sent to somebody else. -/
theorem Network.Marked.send (marked : net.Marked cfg) {owner chan : ℕ} {batch : List Task}
    {answers : ReqState} (other : owner ≠ w)
    (first : cfg.victims = .lastVictim → ∀ t rest, batch = t :: rest → t.victim = w) :
    (net.sendTasks owner chan batch answers).Marked cfg := by
  unfold Network.sendTasks
  split
  · refine marked.put fun last t rest state sent => ?_
    obtain ⟨rfl, -⟩ : batch = t :: rest ∧ answers = state := by simpa using sent
    rw [first last t rest rfl]
    exact fun same => other (by exact_mod_cast same.symm)
  · exact marked.same rfl

/-! ## Functions of the runtime -/

theorem channelPush_routine {chan : ℕ} :
    Ensures Routine (channelPush cfg chan x) fun _ => True := by
  simp only [channelPush, ensures_bind, ensures_check, ensures_pure]
  exact ⟨fun _ => trivial, fun _ => by decide⟩

theorem forgetReq_routine : Ensures Routine (forgetReq cfg w req x) fun _ => True := by
  simp only [forgetReq, ensures_bind, ensures_check]
  exact ⟨fun _ => ⟨fun _ => channelPush_routine, fun _ => by decide⟩, fun _ => by decide⟩

theorem sendReq_routine {target : ℕ} : Ensures Routine (sendReq cfg target req n) fun n' =>
    n'.net.chanTasks = n.net.chanTasks := by
  simp only [sendReq, ensures_ite, ensures_pure]
  refine ⟨fun _ => rfl, fun _ => ⟨fun _ => trivial, fun _ => ?_⟩⟩
  exact (by decide : Routine .sendReqCapacity)

theorem nextVictim_routine {rand : List ℕ} :
    Ensures Routine (nextVictim cfg rand w x req) fun _ => True := by
  have routine : ∀ which, VictimFault which → Routine which := by
    unfold VictimFault
    decide
  exact ((nextVictim_ensures cfg rand w x req).weaken routine).mono fun _ _ => trivial

theorem goQuiescent_routine : Ensures Routine (goQuiescent cfg w req n) fun n' =>
    n'.net.chanTasks = n.net.chanTasks := by
  unfold goQuiescent
  split
  · simp only [detectTermination, ensures_bind, ensures_check, ensures_pure]
    exact ⟨fun _ => ⟨fun _ => ⟨fun _ => forgetReq_routine, fun _ => by decide⟩,
      fun _ => by decide⟩, fun _ => by decide⟩
  · simp only [ensures_bind]
    refine sendReq_routine.mono fun n' same => ?_
    simp only [ensures_check, ensures_pure]
    exact ⟨fun _ => same, fun _ => by decide⟩

theorem declineStealRequest_routine : Ensures Routine (declineStealRequest cfg o w req n) fun n' =>
    n'.net.chanTasks = n.net.chanTasks := by
  simp only [declineStealRequest, ensures_bind, ensures_check, ensures_ite, ensures_pure]
  refine ⟨fun _ => ⟨fun _ => ⟨fun _ => ⟨fun _ => ⟨fun _ => ⟨fun _ => goQuiescent_routine, ?_⟩,
    fun _ => ⟨fun _ => channelPush_routine, ?_⟩⟩, fun _ => goQuiescent_routine⟩,
    fun _ => nextVictim_routine.mono fun out _ => ⟨fun _ => sendReq_routine, fun _ =>
      ⟨fun _ => forgetReq_routine, ?_⟩⟩⟩,
    fun _ => nextVictim_routine.mono fun out _ => sendReq_routine⟩, ?_⟩
  all_goals exact fun _ => by decide

theorem markVictim_first {batch : List Task} (last : cfg.victims = .lastVictim) {t : Task}
    {rest : List Task} (first : markVictim cfg w batch = t :: rest) : t.victim = w := by
  cases batch with
  | nil => cases first
  | cons head tail =>
    simp only [markVictim, last, if_true, List.cons.injEq] at first
    rw [← first.1]

theorem handleStealRequest_routine (marked : n.net.Marked cfg) :
    Ensures Routine (handleStealRequest cfg o w req n) fun n' => n'.net.Marked cfg := by
  simp only [handleStealRequest, ensures_bind, ensures_check, ensures_ite, ensures_pure]
  refine ⟨fun _ => ⟨fun _ => ⟨fun _ => forgetReq_routine.mono fun _ _ => marked, fun _ =>
    declineStealRequest_routine.mono fun _ => marked.same⟩, fun _ => by decide⟩, fun other =>
    ⟨fun _ => declineStealRequest_routine.mono fun _ => marked.same, fun _ => ?_⟩⟩
  have kept : Network.Marked cfg { n.net with
      futures := convertFutures (takeLoot cfg req n.self.deque).1 n.net.futures } := marked
  exact kept.send other fun last t rest => markVictim_first last

/-- `split_loop` finds a cut, and the task has no future, so that nothing has to be registered.
-/
theorem splitLoop_routine {t : Task} (marked : n.net.Marked cfg) (can : t.canSplit = true)
    (up : Ascending t.range) (future : t.future = none) :
    Ensures Routine (splitLoop cfg o w t req n) fun out => out.2.net.Marked cfg := by
  have more : splittable t.range := by simpa [Task.canSplit] using (Bool.and_eq_true_iff.mp can).2
  obtain ⟨split, cut, -⟩ := splitFunc_strict cfg.split cfg.numWorkers o.pending up more
  have slots : (taskAlloc n).2.net.chanTasks = n.net.chanTasks := by
    unfold taskAlloc
    split <;> rfl
  simp only [splitLoop, cut, patchFuture, future, ensures_bind, ensures_check, ensures_ok,
    ensures_pure]
  refine ⟨fun other => ?_, fun _ => by decide⟩
  refine Network.Marked.send ?_ other fun last t' rest same => ?_
  · exact marked.same slots
  · simp only [last, if_true, List.cons.injEq] at same
    rw [← same.1]

theorem handle_routine (marked : n.net.Marked cfg)
    (slices : ∀ t, n.self.currentTask = some t → t.canSplit = true →
      Ascending t.range ∧ t.future = none) :
    Ensures Routine (handle cfg o w req n) fun out => out.2.net.Marked cfg := by
  unfold handle
  split
  · simp only [ensures_bind, ensures_pure]
    exact handleStealRequest_routine marked
  · split
    · next t this =>
      obtain ⟨current, can⟩ := Option.filter_eq_some_iff.mp this
      obtain ⟨up, future⟩ := slices t current can
      simp only [ensures_ite, ensures_bind, ensures_pure]
      exact ⟨fun _ => (splitLoop_routine marked can up future).mono fun _ marked => marked,
        fun _ => forgetReq_routine.mono fun _ _ => marked⟩
    · simp only [ensures_ite, ensures_bind, ensures_check, ensures_pure]
      exact ⟨fun _ => ⟨fun _ => marked, fun _ => by decide⟩,
        fun _ => declineStealRequest_routine.mono fun _ => marked.same⟩

theorem clearLifeline_routine {child : ℕ} :
    Ensures Routine (clearLifeline cfg w child x) fun _ => True := by
  simp only [clearLifeline, ensures_bind, ensures_ite, ensures_check, ensures_pure]
  exact ⟨fun _ => ⟨fun _ => trivial, fun _ => by decide⟩,
    fun _ => ⟨fun _ => trivial, fun _ => by decide⟩⟩

theorem shareRound_routine (marked : n.net.Marked cfg)
    (slices : ∀ t, n.self.currentTask = some t → t.canSplit = true →
      Ascending t.range ∧ t.future = none) :
    Ensures Routine (shareRound cfg o w n) fun out => out.2.net.Marked cfg := by
  unfold shareRound
  split
  · exact marked
  · simp only [ensures_bind, ensures_check]
    refine ⟨fun _ => (handle_routine marked slices).mono fun out kept => ?_, fun _ => by decide⟩
    simp only [ensures_ite, ensures_bind, ensures_pure]
    exact ⟨fun _ => clearLifeline_routine.mono fun _ _ => kept, fun _ => kept⟩

theorem holdOn_routine : Ensures Routine (holdOn cfg w req x) fun _ => True := by
  simp only [holdOn, ensures_bind, ensures_ite, ensures_check, ensures_pure]
  refine ⟨fun _ => ⟨fun _ => ⟨fun _ => ⟨fun _ => trivial, ?_⟩, ?_⟩,
    fun _ => ⟨fun _ => ⟨fun _ => trivial, ?_⟩, ?_⟩⟩, ?_⟩
  all_goals exact fun _ => by decide

theorem receivedTask_routine {chan : ℕ} :
    Ensures Routine (receivedTask cfg chan x) fun _ => True := by
  simp only [receivedTask, ensures_bind]
  refine channelPush_routine.mono fun x _ => ?_
  simp only [ensures_ite, ensures_bind, ensures_check, ensures_pure]
  refine ⟨fun _ => ⟨fun _ => ⟨fun _ => ⟨fun _ => ⟨fun _ => trivial, ?_⟩, ?_⟩, ?_⟩, ?_⟩,
    fun _ => ⟨fun _ => ⟨fun _ => ⟨fun _ => ⟨fun _ => trivial, ?_⟩, ?_⟩, ?_⟩,
      fun _ => ⟨fun _ => ⟨fun _ => trivial, ?_⟩, ?_⟩⟩⟩
  all_goals exact fun _ => by decide

theorem trySendStealRequest_routine {idle : Bool} :
    Ensures Routine (trySendStealRequest cfg o w idle n) fun n' =>
      n'.net.chanTasks = n.net.chanTasks := by
  unfold trySendStealRequest
  split
  · unfold channelPop
    split
    · exact (by decide : Routine .boundedStackPop)
    · simp only [ensures_bind, ensures_pure]
      exact nextVictim_routine.mono fun _ _ => sendReq_routine
  · rfl

/-! ## Steps -/

theorem shareStep_routine {k : ShareCont} (marked : n.net.Marked cfg)
    (slices : ∀ t, n.self.currentTask = some t → t.canSplit = true →
      Ascending t.range ∧ t.future = none) (stays : ∀ addr, k ≠ .exit addr) :
    Ensures Routine (shareStep cfg o w k n) fun n' => n'.net.Marked cfg := by
  simp only [shareStep, ensures_bind]
  refine (shareRound_routine marked slices).mono fun out kept => ?_
  simp only [ensures_ite, ensures_pure]
  refine ⟨fun _ => kept, fun _ => ?_⟩
  cases k with
  | push | poll | pop site task | got site t => exact kept
  | exit addr => exact absurd rfl (stays addr)

theorem noRequest_chanTasks :
    (noRequest cfg k n).net.chanTasks = n.net.chanTasks := by
  unfold noRequest
  split <;> try rfl
  · unfold popFailed
    split <;> try rfl
    split
    · rfl
    · split <;> rfl
  · unfold declined
    split <;> rfl

theorem received_chanTasks :
    (received w k req n).net.chanTasks = n.net.chanTasks := by
  unfold received
  split
  · split <;> rfl
  · rfl

theorem recvReqStep_routine (marked : n.net.Marked cfg) :
    Ensures Routine (recvReqStep cfg w k n) fun n' => n'.net.Marked cfg := by
  unfold recvReqStep
  split
  · have kept : (n.net.dropRequest w).Marked cfg := marked
    simp only [ensures_ite, ensures_bind, ensures_pure]
    exact ⟨fun _ => holdOn_routine.mono fun _ _ => kept, fun _ => kept.same received_chanTasks⟩
  · simp only [ensures_ite, ensures_pure]
    exact ⟨fun _ => marked.same noRequest_chanTasks, fun _ => marked⟩

theorem recvReqForStep_marked {scan : List ℕ} (marked : n.net.Marked cfg) :
    (recvReqForStep cfg w k scan n).net.Marked cfg := by
  cases scan with
  | nil => exact marked.same noRequest_chanTasks
  | cons i rest =>
    have kept : (n.net.dropRequest i).Marked cfg := marked
    simp only [recvReqForStep]
    split
    · exact kept.same received_chanTasks
    · exact marked

theorem popHandle_routine {site : Site} {task : Option Task} (marked : n.net.Marked cfg)
    (slices : ∀ t, task = some t → t.canSplit = true → Ascending t.range ∧ t.future = none) :
    Ensures Routine (popHandle cfg o w site task req n) fun n' => n'.net.Marked cfg := by
  unfold popHandle
  split
  · next t this =>
    split at this
    · obtain ⟨held, can⟩ := Option.filter_eq_some_iff.mp this
      obtain ⟨up, future⟩ := slices t held can
      simp only [ensures_ite, ensures_bind, ensures_pure]
      exact ⟨fun _ => (splitLoop_routine marked can up future).mono fun _ kept => kept,
        fun _ => forgetReq_routine.mono fun _ _ => marked⟩
    · cases this
  · simp only [ensures_bind, ensures_pure]
    exact handleStealRequest_routine marked

theorem handleStep_routine (marked : n.net.Marked cfg) (here : n.self.pc = .handle k req)
    (slices : n.self.Sliceable) :
    Ensures Routine (handleStep cfg o w k req n) fun n' => n'.net.Marked cfg := by
  cases k with
  | push | force f =>
    simp only [handleStep, ensures_bind, ensures_pure]
    exact handleStealRequest_routine marked
  | poll =>
    simp only [handleStep, ensures_bind, ensures_pure]
    refine handle_routine marked fun t current => slices t ?_
    simp [Worker.splits, here, current]
  | pop site task =>
    refine popHandle_routine marked fun t held => slices t ?_
    simp [Worker.splits, here, held]
  | declineAll site =>
    simp only [handleStep, ensures_bind, ensures_pure]
    refine declineStealRequest_routine.mono fun n' same => marked.same ?_
    unfold declined
    split <;> exact same

theorem sendStep_routine {k : SendCont} (marked : n.net.Marked cfg) :
    Ensures Routine (sendStep cfg o w k n) fun n' => n'.net.Marked cfg := by
  cases k with
  | enter site =>
    simp only [sendStep, ensures_bind]
    refine trySendStealRequest_routine.mono fun n' same => ?_
    split
    · simp only [ensures_bind, ensures_check, ensures_pure]
      exact ⟨fun _ => marked.same same, fun _ => by decide⟩
    · exact marked.same same
  | failed site =>
    simp only [sendStep, ensures_bind]
    refine trySendStealRequest_routine.mono fun n' same => ?_
    cases site with
    | force f => exact marked.same same
    | schedule | barrier =>
      simp only [taskMissing, ensures_bind, ensures_ite, ensures_check, ensures_pure]
      exact ⟨fun _ => ⟨fun _ => ⟨fun _ => marked.same same, fun _ => marked.same same⟩,
        fun _ => by decide⟩, fun _ => by decide⟩
  | again f | early site t =>
    simp only [sendStep, ensures_bind, ensures_pure]
    exact trySendStealRequest_routine.mono fun n' same => marked.same same

theorem recvTaskStep_routine {site : Site} {i : ℕ} (marked : n.net.Marked cfg) :
    Ensures Routine (recvTaskStep cfg w site i n) fun n' => n'.net.Marked cfg := by
  unfold recvTaskStep
  split
  · simp only [ensures_bind, ensures_await, ensures_pure]
    exact fun _ => marked
  · split
    · next message slot =>
      have taken : (n.net.putTask w i none).Marked cfg := marked.put (by simp)
      simp only [ensures_bind]
      refine receivedTask_routine.mono fun x _ => ?_
      unfold unpack
      cases message with
      | exit addr => exact taken
      | tasks batch state =>
        cases batch with
        | nil => trivial
        | cons t rest =>
          simp only [ensures_ite, ensures_bind, ensures_check, ensures_pure]
          refine ⟨fun remembers => ⟨fun _ => taken, fun self => absurd ?_ self⟩, fun _ => taken⟩
          exact marked remembers.1 w i t rest state slot
    · simp only [ensures_ite, ensures_pure]
      exact ⟨fun _ => marked, fun _ => marked⟩

theorem force_routine (f : LazyFuture) : Ensures Routine f.force fun _ => True := by
  have received : Ensures Routine f.receive fun _ => True := by
    unfold LazyFuture.receive
    split
    · simp only [ensures_bind, ensures_check]
      refine ⟨fun _ => ⟨fun _ => ?_, fun _ => by decide⟩, fun _ => by decide⟩
      split <;> trivial
    · trivial
  simp only [LazyFuture.force, ensures_bind]
  refine received.mono fun out _ => ?_
  split
  · trivial
  · unfold LazyFuture.collect
    split
    · simp only [ensures_bind, ensures_check, ensures_pure]
      exact ⟨fun _ => ⟨fun _ => trivial, fun _ => by decide⟩, fun _ => by decide⟩
    · simp only [ensures_bind, ensures_check, ensures_pure]
      refine ⟨fun _ => ?_, fun _ => by decide⟩
      split
      · trivial
      · exact (by decide : Routine .futureUnion)

theorem write_routine (f : LazyFuture) (value : Value) :
    Ensures Routine (f.write value) fun _ => True := by
  unfold LazyFuture.write
  split
  · simp only [ensures_bind, ensures_check, ensures_pure]
    exact ⟨fun _ => ⟨fun _ => ⟨fun _ => trivial, fun _ => by decide⟩, fun _ => by decide⟩,
      fun _ => by decide⟩
  · trivial

theorem forceStep_routine {f : Awaited} {point : ReadyPoint} {ready : Bool}
    (marked : n.net.Marked cfg) :
    Ensures Routine (forceStep f point ready n) fun n' => n'.net.Marked cfg := by
  cases f with
  | foreign => exact marked
  | own f =>
    simp only [forceStep, ensures_bind]
    refine (force_routine (n.net.futures f)).mono fun content _ => ?_
    cases content <;> exact marked

theorem newTask_chanTasks {loop : Option (ℤ × ℤ)} {future : Bool} :
    (newTask w loop future n).2.net.chanTasks = n.net.chanTasks := by
  have slots : (taskAlloc n).2.net.chanTasks = n.net.chanTasks := by
    unfold taskAlloc
    split <;> rfl
  simp only [newTask]
  split <;> exact slots

theorem userStep_routine {act : UserAct} (marked : n.net.Marked cfg)
    (proper : Proper w n.self act) :
    Ensures Routine (userStep w act n) fun n' => n'.net.Marked cfg := by
  cases act with
  | spawn loop future =>
    have kept : (newTask w loop future n).2.net.Marked cfg := marked.same newTask_chanTasks
    simp only [userStep, push, ensures_bind, ensures_ite, ensures_check, ensures_pure]
    exact ⟨fun _ => ⟨fun _ => kept, fun _ => by decide⟩, fun _ => kept⟩
  | poll => exact marked
  | await f =>
    cases f with
    | foreign => exact marked
    | own f =>
      simp only [userStep, ensures_bind, ensures_await, ensures_pure]
      exact fun _ => marked
  | reduce =>
    simp only [userStep, ensures_pure, reduce]
    split
    · exact marked
    · split <;> exact marked
  | barrier =>
    simp only [userStep, ensures_ite, ensures_bind, ensures_check, ensures_pure]
    exact ⟨fun _ => marked, fun master => ⟨fun _ => marked, fun inside =>
      absurd (proper.root rfl (not_not.mp master)) inside⟩⟩
  | exit => exact absurd rfl proper.stays
  | asyncFor =>
    obtain ⟨t, current, splittable, start⟩ := proper.loop rfl
    obtain ⟨ret, tail, frames⟩ := exists_frames current
    simp only [userStep, asyncFor, frames, ensures_bind, ensures_check, ensures_pure]
    exact ⟨fun _ => ⟨fun _ => marked, fun wrong => absurd start wrong⟩,
      fun wrong => absurd splittable wrong⟩
  | iterate =>
    simp only [userStep, iterate, ensures_bind]
    split
    · trivial
    · split
      · trivial
      · simp only [ensures_bind, ensures_await, ensures_pure]
        exact fun _ => marked
  | finish value =>
    simp only [userStep, finish]
    split
    · trivial
    · split
      · exact marked
      · simp only [ensures_bind, ensures_await, ensures_pure]
        exact fun _ => (write_routine _ value).mono fun _ _ => marked

/-- No step fails an assertion that depends on the program. -/
theorem wstep_routine {c : Choice} (marked : n.net.Marked cfg) (slices : n.self.Sliceable)
    (stays : n.self.pc.leaving = false) (proper : n.self.pc = .user → Proper w n.self c.act) :
    Ensures Routine (wstep cfg w c n) fun n' => n'.net.Marked cfg := by
  unfold wstep
  split
  · next here => exact userStep_routine marked (proper here)
  · simp only [popStep, ensures_pure]
    split
    · exact marked
    · split <;> exact marked
  · next here =>
    refine shareStep_routine marked (fun t current => slices t ?_) fun addr exits => ?_
    · rw [Worker.splits, here]
      exact current
    · rw [here, exits] at stays
      cases stays
  · next scan _ =>
    cases scan with
    | nil => exact marked
    | cons i rest =>
      simp only [peekStep, ensures_pure]
      split <;> exact marked
  · exact recvReqStep_routine marked
  · exact recvReqForStep_marked marked
  · next here => exact handleStep_routine marked here slices
  · exact sendStep_routine marked
  · exact recvTaskStep_routine marked
  · exact forceStep_routine marked
  · simp only [ensures_bind, ensures_check, ensures_pure]
    exact ⟨fun _ => marked, fun _ => by decide⟩
  all_goals
    next here =>
    rw [here] at stays
    cases stays

end Steps

/-- Assertions that depend neither on the program nor on where tasks come from do not fail:
what the bookkeeping does not exclude is excluded by the path of the requests. -/
theorem no_routineFault {cfg : Config} (few : cfg.numWorkers ≤ 32) {s : State}
    (reached : (system cfg).Reachable s) (running : s.net.exiting = false) {which : Fault}
    (routine : Routine which) : ¬ Faults cfg s which := by
  intro fails
  rcases (reachable_refines reached running).faults fails with victim | other
  · have path : ∀ which, VictimFault which → which ∈ circulationFaults := by
      unfold VictimFault
      decide
    exact no_circulationFault few reached (path which victim) fails
  · have rest : ∀ which ∈ [Fault.declineTry, .declineWorking, .lastVictimSelf, .splitItersLeft,
        .splitChunk, .splitLoopNullTask, .asyncForSplittable, .asyncForStart, .barrierRoot,
        .exitFinished, .exitSubtreesIdle, .exitQuiescent, .exitSend],
        which ∈ circulationFaults ∨ ProgramFault which := by decide
    exact (rest which other).elim (fun path => no_circulationFault few reached path fails) routine

/-! ## Programs -/

section Programs

variable {ε : Type} {cfg : Config} {d d' : Programmed ε} {w : ℕ} {o : Oracle}
  {main : Program Bounds ε Value} {code : Code Bounds ε Value}

/-- What a step asks of the runtime: nothing, or one call, unless it cannot be taken. -/
inductive Asks (cfg : Config) (w : ℕ) (o : Oracle) (d : Programmed ε) :
    Checked (Programmed ε) → Prop
  | nothing {d' : Programmed ε} (state : d'.state = d.state) : Asks cfg w o d (.ok d')
  | blocked : Asks cfg w o d (.error .disabled)
  | calls (act : UserAct) (f : State → Programmed ε) (state : ∀ s, (f s).state = s)
      (proper : (d.state.workers w).pc = .user → Proper w (d.state.workers w) act) :
      Asks cfg w o d (do let s ← d.call cfg w o act; return f s)

theorem proper_plain {x : Worker} {act : UserAct} (plain : act ≠ .exit ∧ act ≠ .asyncFor ∧
    act ≠ .barrier) : Proper w x act :=
  ⟨plain.1, fun loop => absurd loop plain.2.1, fun barrier => absurd barrier plain.2.2⟩

/-- Tasks do not call the barrier. -/
theorem Programmed.Ok.joins_root (ok : d.Ok cfg) (flat : (d.pool cfg).Flat)
    (worker : w < cfg.numWorkers) {rest : Program Bounds ε Value} {fs : List ℕ}
    (runs : d.code w = some ⟨.join rest, fs⟩) : (d.state.workers w).frames = [] := by
  rcases ok.code_current worker runs with ⟨frames, -⟩ | ⟨frame, tail, others, -, job, pieces, -⟩
  · exact frames
  · have member : (d.job frame.task.id).thread frame.task.piece ∈ (d.pool cfg).threads := by
      rw [Programmed.pool, pieces, threadsOf_cons]
      exact Multiset.mem_cons_self _ _
    have quiet := flat.threads _ member
    cases plain : d.job frame.task.id with
    | plain code =>
      rw [plain] at quiet job
      obtain rfl : code = ⟨.join rest, fs⟩ := Option.some.inj job
      exact absurd quiet id
    | loop body current =>
      rw [plain] at quiet job
      obtain rfl : current = some ⟨.join rest, fs⟩ := job
      exact absurd (quiet.2 _ rfl) id

theorem Programmed.Ok.asks_request (ok : d.Ok cfg) (flat : (d.pool cfg).Flat)
    (worker : w < cfg.numWorkers) (runs : d.code w = some code) :
    Asks cfg w o d (d.request cfg w o code) := by
  obtain ⟨program, fs⟩ := code
  cases program with
  | ret value =>
    simp only [Programmed.request, Programmed.finish]
    split
    · exact .blocked
    · split
      · exact .calls _ _ (fun _ => rfl) fun _ => proper_plain (by simp)
      · exact .calls _ _ (fun _ => rfl) fun _ => proper_plain (by simp)
  | emit e rest => exact .nothing Programmed.resume_state
  | async child rest | each b body rest | future child rest | skip rest =>
    exact .calls _ _ (fun _ => rfl) fun _ => proper_plain (by simp)
  | await k rest =>
    simp only [Programmed.request]
    split
    · exact .blocked
    · exact .calls _ _ (fun _ => rfl) fun _ => proper_plain (by simp)
  | join rest =>
    have one : d.request cfg w o ⟨.join rest, fs⟩ = (do
        let s ← d.call cfg w o .barrier
        return if w = 0 then { d with state := s }
          else { d.resume w ⟨rest, fs⟩ with state := s }) := by
      simp only [Programmed.request, apply_ite]
    rw [one]
    refine .calls _ _ (fun s => by split <;> rfl) fun _ => ⟨by simp, by simp, fun _ _ => ?_⟩
    exact ok.joins_root flat worker runs

theorem Programmed.Ok.asks (ok : d.Ok cfg) (flat : (d.pool cfg).Flat)
    (worker : w < cfg.numWorkers) : Asks cfg w o d (d.move cfg w o) := by
  unfold Programmed.move
  split
  · unfold Programmed.userStep
    split
    · next none => exact ok.asks_request flat worker (by rw [Programmed.code, none])
    · next t current =>
      have runs := code_of_task current
      split
      · next code job => exact ok.asks_request flat worker (runs.trans (congrArg Job.code job))
      · next code job => exact ok.asks_request flat worker (runs.trans (congrArg Job.code job))
      · next body job =>
        unfold Programmed.iterate
        split
        · next start =>
          obtain ⟨splittable, -, loop⟩ := job ▸ ok.fits_current worker current
          refine .calls _ _ (fun _ => rfl) fun _ => ⟨by simp, fun _ => ⟨t, current, splittable, ?_⟩,
            by simp⟩
          exact (loop.before start).2.1.symm
        · split
          · exact .nothing rfl
          · exact .calls _ _ (fun _ => rfl) fun _ => proper_plain (by simp)
  · next away => exact .calls _ _ (fun _ => rfl) fun here => absurd here away

/-- The tasks a worker may split are loops. -/
theorem Programmed.Ok.sliceable (ok : d.Ok cfg) (worker : w < cfg.numWorkers) :
    (d.state.workers w).Sliceable := by
  intro t mine can
  have member : t.piece ∈ d.state.pieces cfg := by
    unfold Worker.splits at mine
    split at mine
    · next task _ here =>
      rw [pieces_node worker, Node.pieces, Worker.pieces]
      simp [State.node, here, Pc.held, mine]
    · exact current_mem_pieces worker mine
  have fits := ok.fits t.piece member
  obtain ⟨loop, more⟩ := Bool.and_eq_true_iff.mp can
  cases job : d.job t.piece.id with
  | plain code =>
    rw [job] at fits
    exact absurd (show t.splittable = false from fits) (by simp [loop])
  | loop body current =>
    rw [job] at fits
    exact ⟨fits.2.2.ascending (of_decide_eq_true more), fits.2.1⟩

theorem Asks.of_fault {run : Checked (Programmed ε)} {which : Fault} (asks : Asks cfg w o d run)
    (faulted : run = .error (.fault which)) : ∃ act,
      ((d.state.workers w).pc = .user → Proper w (d.state.workers w) act) ∧
      wstep cfg w ⟨act, o, false⟩ (d.state.node w) = .error (.fault which) := by
  cases asks with
  | nothing | blocked => cases faulted
  | calls act f _ proper =>
    refine ⟨act, proper, ?_⟩
    unfold Programmed.call at faulted
    cases moved : wstep cfg w ⟨act, o, false⟩ (d.state.node w) with
    | ok n => simp [moved, bind, Except.bind, pure, Except.pure] at faulted
    | error stop => simpa [moved, bind, Except.bind] using faulted

theorem Asks.of_ok {run : Checked (Programmed ε)} (asks : Asks cfg w o d run)
    (stepped : run = .ok d') : d'.state = d.state ∨ ∃ act n,
      ((d.state.workers w).pc = .user → Proper w (d.state.workers w) act) ∧
      wstep cfg w ⟨act, o, false⟩ (d.state.node w) = .ok n ∧ d'.state = d.state.put w n := by
  cases asks with
  | nothing state =>
    obtain rfl := Except.ok.inj stepped
    exact .inl state
  | blocked => cases stepped
  | calls act f state proper =>
    obtain ⟨n, moved, rfl⟩ := called stepped
    exact .inr ⟨act, n, proper, moved, state _⟩

theorem Programmed.Ok.routine (ok : d.Ok cfg) (worker : w < cfg.numWorkers)
    (marked : d.state.net.Marked cfg) {act : UserAct}
    (proper : (d.state.workers w).pc = .user → Proper w (d.state.workers w) act) :
    Ensures Routine (wstep cfg w ⟨act, o, false⟩ (d.state.node w)) fun n' => n'.net.Marked cfg :=
  wstep_routine marked (ok.sliceable worker) (ok.refines.loc w worker).stays proper

/-- A run of a program is a run of the runtime, and its messages are marked. -/
theorem reachable_marked (flat : main.Flat) (reached : (programmed cfg main).Reachable d) :
    (system cfg).Reachable d.state ∧ d.state.net.Marked cfg := by
  obtain ⟨first, rfl, run⟩ := reached
  induction run with
  | refl => exact ⟨Transition.System.reachable_of_init rfl, fun _ _ _ _ _ _ slot => by cases slot⟩
  | tail before step ih =>
    obtain ⟨reached, marked⟩ := ih
    obtain ⟨ok, pool⟩ := reachable_ok ⟨_, rfl, before⟩
    obtain ⟨w, worker, o, moved⟩ := step
    rcases (ok.asks (reachable_flat flat pool) worker).of_ok moved with
      same | ⟨act, n, proper, moved, after⟩
    · exact same ▸ ⟨reached, marked⟩
    · rw [after]
      exact ⟨reached.tail ⟨w, worker, _, n, moved, rfl⟩,
        (ok.routine worker marked proper).value moved⟩

/-- With at most 32 workers, no assertion of the runtime fails in any run of a program whose
tasks do not call the barrier. -/
theorem programs_never_fail (few : cfg.numWorkers ≤ 32) (flat : main.Flat)
    (reached : (programmed cfg main).Reachable d) (worker : w < cfg.numWorkers) (o : Oracle)
    (which : Fault) : d.move cfg w o ≠ .error (.fault which) := by
  intro faulted
  obtain ⟨ok, pool⟩ := reachable_ok reached
  obtain ⟨system, marked⟩ := reachable_marked flat reached
  obtain ⟨act, proper, fault⟩ := (ok.asks (reachable_flat flat pool) worker).of_fault faulted
  exact no_routineFault few system ok.refines.net.running
    ((ok.routine worker marked proper).tolerates fault) ⟨w, worker, _, fault⟩

theorem loopBesideFuture_flat : loopBesideFuture.Flat :=
  ⟨fun _ => trivial, trivial, fun _ _ => trivial⟩

/-- The second worker has the upper half of the loop. -/
theorem split_loop_never_fails :
    (Programmed.after (.makefile 2 two_pos) loopBesideFuture (rounds (.makefile 2 two_pos) 35)).move
      (.makefile 2 two_pos) 1 ⟨[0], 0⟩ ≠ .error (.fault .asyncForStart) :=
  programs_never_fail (by decide) loopBesideFuture_flat (programmed_reachable _ _ _) (by decide) _ _

end Programs

end Tasking.Runtime
