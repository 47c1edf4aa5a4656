import Tasking.Handling
import Tasking.TestedCounter

/-!
With `STEAL == adaptive` a worker counts in `num_recent_steals` the times it received
tasks, and `try_send_steal_request` compares the counter with
`STEAL_ADAPTIVE_INTERVAL`, but only if the worker may send another request.  The
counter goes up in all three loops that look for work, and the tasks run in between
may start such loops of their own.

`wstep_steals` says what one step does to the counter and to `requested`.  After a
worker has received tasks it may send a request, and it is out of the loop; it can
only look for work again through the call before the loop, and that call finds
`requested` as low as it was (`Watched`).  So the counter is tested between two counts,
in every run (`adaptive_strategy_reevaluated`).
-/
namespace Tasking.Runtime
open Fallible TestedCounter Transition

/-! ## Events -/

/-- What the next step of worker `w` means for `num_recent_steals`: tasks are
received, or `try_send_steal_request` is called while there may be more requests. -/
def stealEvent (cfg : Config) (w : ℕ) (n : Node) : Option Event :=
  match n.self.pc with
  | .trySend _ =>
    if n.self.requested < cfg.maxSteal then
      some (.tests (n.self.numRecentSteals = cfg.stealAdaptiveInterval))
    else none
  | .recvTask _ i =>
    if n.self.inWait then none else (n.net.chanTasks w i).map fun _ => .counts
  | _ => none

def ReqCont.searching : ReqCont → Bool
  | .declineAll _ | .force _ => true
  | .push | .poll | .pop _ _ => false

/-- The worker is inside a loop that looks for work, behind the call of
`try_send_steal_request` before that loop. -/
def Pc.searching : Pc → Bool
  | .recvTask _ _ => true
  | .trySend (.failed _) | .trySend (.again _) => true
  | .recvReq k | .recvReqFor k _ | .handle k _ => k.searching
  | .forceReady _ .inner => true
  | _ => false

/-! ## What the functions leave alone -/

/-- No request more, and the counter is the same: a call that may send a request still may, and
its test of the counter comes out the same. -/
structure Calms (x x' : Worker) : Prop where
  pc : x'.pc = x.pc
  requested : x'.requested ≤ x.requested
  recent : x'.numRecentSteals = x.numRecentSteals

section Calms

variable {cfg : Config} {o : Oracle} {w : ℕ} {req : StealRequest} {n n' : Node} {x x' x'' : Worker}

theorem Calms.refl : Calms x x := ⟨rfl, le_rfl, rfl⟩

theorem Calms.of_eq (pc : x'.pc = x.pc) (requested : x'.requested = x.requested)
    (recent : x'.numRecentSteals = x.numRecentSteals) : Calms x x' :=
  ⟨pc, requested.le, recent⟩

theorem Calms.trans (first : Calms x x') (second : Calms x' x'') : Calms x x'' :=
  ⟨second.pc.trans first.pc, second.requested.trans first.requested,
    second.recent.trans first.recent⟩

theorem Sheds.calms (same : Sheds n n') : Calms n.self n'.self :=
  ⟨same.pc, same.requested, same.recent⟩

theorem forgetReq_calms : Ensures (fun _ => True) (forgetReq cfg w req n.self) (Calms n.self) :=
  forgetReq_sheds.mono fun _ same => same.calms

theorem holdOn_calms : Ensures (fun _ => True) (holdOn cfg w req x) (Calms x) := by
  simp only [holdOn, ensures_bind, ensures_check, ensures_ite, ensures_pure, implies_true, and_true]
  exact fun _ => ⟨fun _ _ _ => .of_eq rfl rfl rfl, fun _ _ _ => .of_eq rfl rfl rfl⟩

theorem clearLifeline_calms {child : ℕ} :
    Ensures (fun _ => True) (clearLifeline cfg w child x) (Calms x) := by
  simp only [clearLifeline, ensures_bind, ensures_check, ensures_ite, ensures_pure, implies_true,
    and_true]
  exact ⟨fun _ _ => .of_eq rfl rfl rfl, fun _ _ => .of_eq rfl rfl rfl⟩

theorem declineStealRequest_calms : Ensures (fun _ => True) (declineStealRequest cfg o w req n)
    fun n' => Calms n.self n'.self :=
  declineStealRequest_sheds.mono fun _ same => same.calms

theorem handleStealRequest_calms : Ensures (fun _ => True) (handleStealRequest cfg o w req n)
    fun n' => Calms n.self n'.self := by
  unfold handleStealRequest
  split
  · simp only [ensures_bind, ensures_check, ensures_ite, ensures_pure, implies_true, and_true]
    exact fun _ => ⟨fun _ => forgetReq_calms, fun _ => declineStealRequest_calms⟩
  · split
    · exact declineStealRequest_calms
    · exact .of_eq rfl rfl rfl

theorem taskAlloc_calms (n : Node) : Calms n.self (taskAlloc n).2.self := by
  unfold taskAlloc
  split <;> exact .of_eq rfl rfl rfl

theorem registerFuture_calms {f : ℕ} :
    Ensures (fun _ => True) (registerFuture w f x) (Calms x) := by
  unfold registerFuture
  split
  · exact .of_eq rfl rfl rfl
  · split
    · exact .of_eq rfl rfl rfl
    · trivial

theorem splitLoop_calms {t : Task} : Ensures (fun _ => True) (splitLoop cfg o w t req n)
    fun out => Calms n.self out.2.self := by
  have alloc := taskAlloc_calms n
  simp only [splitLoop, ensures_bind, ensures_check, implies_true, and_true]
  refine fun _ => Ensures.any.mono fun split _ => ?_
  unfold patchFuture
  split
  · exact alloc.trans (.of_eq rfl rfl rfl)
  · rw [ensures_bind]
    exact registerFuture_calms.mono fun x same => (alloc.trans same).trans (.of_eq rfl rfl rfl)

theorem shortenCurrent_calms {split : ℤ} : Calms x (x.shortenCurrent split) := by
  unfold Worker.shortenCurrent
  split <;> exact .of_eq rfl rfl rfl

theorem handle_calms : Ensures (fun _ => True) (handle cfg o w req n)
    fun out => Calms n.self out.2.self := by
  unfold handle
  split
  · rw [ensures_bind]
    exact handleStealRequest_calms
  · dsimp only
    split
    · split
      · rw [ensures_bind]
        exact splitLoop_calms.mono fun out same => same.trans shortenCurrent_calms
      · rw [ensures_bind]
        exact forgetReq_calms
    · split
      · simp only [ensures_bind, ensures_check, ensures_pure, implies_true, and_true]
        exact fun _ => .refl
      · rw [ensures_bind]
        exact declineStealRequest_calms

end Calms

/-! ## Steps -/

/-- A step without an event.  It can lead into a loop that looks for work only if the
call before the loop was refused. -/
structure Quiet (cfg : Config) (n n' : Node) : Prop where
  requested : n'.self.requested ≤ n.self.requested
  recent : n'.self.numRecentSteals = n.self.numRecentSteals
  search : n.self.requested < cfg.maxSteal → n'.self.pc.searching = true →
    n.self.pc.searching = true

/-- The call of `try_send_steal_request` has looked at its strategy. -/
structure Adapts (cfg : Config) (x x' : Worker) : Prop where
  recent : x'.numRecentSteals = (adaptStrategy cfg x).numRecentSteals
  checkpoint : x'.checkpoint = (adaptStrategy cfg x).checkpoint
  stealhalf : x'.stealhalf = (adaptStrategy cfg x).stealhalf

/-- What a step does, by its event. -/
def StealStep (cfg : Config) (w : ℕ) (n n' : Node) : Prop :=
  match stealEvent cfg w n with
  | none => Quiet cfg n n'
  | some (.tests _) => Adapts cfg n.self n'.self
  | some .counts =>
    n'.self.numRecentSteals =
        (if cfg.steal = .adaptive then n.self.numRecentSteals + 1 else n.self.numRecentSteals) ∧
      n'.self.requested < cfg.maxSteal ∧ n'.self.pc.searching = false

section Steps

variable {cfg : Config} {o : Oracle} {w : ℕ} {req : StealRequest} {n n' : Node} {x x' : Worker}
  {site : Site} {k : ReqCont}

theorem StealStep.of_quiet (none : stealEvent cfg w n = none) (quiet : Quiet cfg n n') :
    StealStep cfg w n n' := by
  rw [StealStep, none]
  exact quiet

theorem StealStep.of_tests {met : Bool} (event : stealEvent cfg w n = some (.tests met))
    (adapts : Adapts cfg n.self n'.self) : StealStep cfg w n n' := by
  rw [StealStep, event]
  exact adapts

theorem StealStep.of_counts (event : stealEvent cfg w n = some .counts)
    (recent : n'.self.numRecentSteals =
      if cfg.steal = .adaptive then n.self.numRecentSteals + 1 else n.self.numRecentSteals)
    (fewer : n'.self.requested < cfg.maxSteal) (out : n'.self.pc.searching = false) :
    StealStep cfg w n n' := by
  rw [StealStep, event]
  exact ⟨recent, fewer, out⟩

theorem Calms.goes (same : Calms n.self n'.self) {pc : Pc}
    (search : pc.searching = true → n.self.pc.searching = true) : Quiet cfg n (n'.goto pc) :=
  ⟨same.requested, same.recent, fun _ => search⟩

/-- The step ends outside the loops that look for work. -/
theorem Calms.leaves (same : Calms n.self x) (requested : n'.self.requested = x.requested)
    (recent : n'.self.numRecentSteals = x.numRecentSteals)
    (out : n'.self.pc.searching = false) : Quiet cfg n n' :=
  ⟨requested.trans_le same.requested, recent.trans same.recent,
    fun _ inside => absurd inside (out ▸ Bool.false_ne_true)⟩

theorem Calms.stays (same : Calms n.self n'.self) : Quiet cfg n n' :=
  ⟨same.requested, same.recent, fun _ inside => same.pc ▸ inside⟩

/-! ### User code -/

theorem spawn_quiet {loop : Option (ℤ × ℤ)} {future : Bool} :
    Ensures (fun _ => True) (userStep w (.spawn loop future) n) (Quiet cfg n) := by
  have alloc : Calms n.self (newTask w loop future n).2.self := taskAlloc_calms n
  simp only [userStep, push, ensures_bind, ensures_ite, ensures_check, ensures_pure, implies_true,
    and_true]
  exact ⟨fun _ _ => alloc.leaves rfl rfl rfl, fun _ => alloc.leaves rfl rfl rfl⟩

theorem Ret.next_searching (ret : Ret) : ret.next.searching = false := by
  cases ret <;> rfl

theorem finish_quiet {value : Value} :
    Ensures (fun _ => True) (finish value n) (Quiet cfg n) := by
  unfold finish
  split
  · trivial
  · next frame rest _ =>
    have returned (net : Network) : Quiet cfg n ⟨n.self.popFrame frame rest, net⟩ :=
      Calms.refl.leaves rfl rfl frame.ret.next_searching
    split
    · exact returned _
    · simp only [ensures_bind, ensures_await, ensures_pure]
      exact fun _ => Ensures.any.mono fun written _ => returned _

theorem reduce_quiet : Quiet cfg n (reduce w n) := by
  unfold reduce
  split
  · exact Calms.refl.stays
  · next f rest _ =>
    have taken : Calms n.self (n.self.setCurrentFutures rest) := by
      unfold Worker.setCurrentFutures
      split <;> exact .of_eq rfl rfl rfl
    dsimp only
    split
    · exact taken.leaves rfl rfl rfl
    · exact taken.leaves rfl rfl rfl

theorem userStep_quiet {act : UserAct} :
    Ensures (fun _ => True) (userStep w act n) (Quiet cfg n) := by
  cases act with
  | spawn loop future => exact spawn_quiet
  | poll => exact Calms.refl.leaves rfl rfl rfl
  | await f =>
    cases f with
    | foreign => exact Calms.refl.leaves rfl rfl rfl
    | own f =>
      simp only [userStep, ensures_bind, ensures_await, ensures_pure]
      exact fun _ => Calms.refl.leaves rfl rfl rfl
  | reduce => exact reduce_quiet
  | barrier =>
    simp only [userStep, ensures_ite, ensures_bind, ensures_check, ensures_pure, implies_true,
      and_true]
    exact ⟨fun _ => Calms.refl.stays, fun _ _ => Calms.refl.leaves rfl rfl rfl⟩
  | exit =>
    simp only [userStep, exitFn, ensures_bind, ensures_await, ensures_check, ensures_pure,
      implies_true, and_true]
    exact fun _ _ _ _ => Calms.refl.leaves rfl rfl rfl
  | asyncFor =>
    simp only [userStep, asyncFor, ensures_bind]
    split
    · trivial
    · simp only [ensures_bind, ensures_check, ensures_pure, implies_true, and_true]
      exact fun _ _ => ⟨le_rfl, rfl, fun _ => id⟩
  | iterate =>
    simp only [userStep, iterate, ensures_bind]
    split
    · trivial
    · split
      · trivial
      · simp only [ensures_bind, ensures_await, ensures_pure]
        exact fun _ => Calms.refl.leaves rfl rfl rfl
  | finish value => exact finish_quiet

/-! ### Program points of the runtime -/

theorem popStep_quiet : Quiet cfg n (popStep cfg site n) := by
  unfold popStep
  generalize dequePop site n.self = popped
  obtain ⟨task, deque⟩ := popped
  have taken : Calms n.self { n.self with deque := deque } := .of_eq rfl rfl rfl
  cases task with
  | none => exact taken.leaves rfl rfl rfl
  | some t =>
    dsimp only
    split
    · exact taken.leaves rfl rfl rfl
    · exact taken.leaves rfl rfl rfl

theorem peekStep_quiet {scan : List ℕ} : Quiet cfg n (peekStep scan n) := by
  unfold peekStep
  split
  · exact Calms.refl.leaves rfl rfl rfl
  · split
    · exact Calms.refl.leaves rfl rfl rfl
    · exact Calms.refl.leaves rfl rfl rfl

theorem exitFn_quiet (same : Calms n.self n'.self) :
    Ensures (fun _ => True) (exitFn w n') (Quiet cfg n) := by
  simp only [exitFn, ensures_bind, ensures_check, ensures_pure, implies_true, and_true]
  exact fun _ _ _ => same.leaves rfl rfl rfl

theorem shareDone_quiet {k : ShareCont} (same : Calms n.self n'.self) :
    Ensures (fun _ => True) (shareDone cfg w k n') (Quiet cfg n) := by
  cases k with
  | push => exact same.leaves rfl rfl rfl
  | poll => exact same.leaves rfl rfl rfl
  | pop site task => exact same.leaves rfl rfl rfl
  | got site t => exact same.leaves rfl rfl rfl
  | exit addr => exact exitFn_quiet same

theorem shareStep_quiet {k : ShareCont} :
    Ensures (fun _ => True) (shareStep cfg o w k n) (Quiet cfg n) := by
  simp only [shareStep, ensures_bind]
  unfold shareRound
  split
  · exact shareDone_quiet .refl
  · simp only [ensures_bind, ensures_check, implies_true, and_true]
    refine fun _ => handle_calms.mono ?_
    rintro ⟨served, n'⟩ same
    cases served with
    | false => exact shareDone_quiet same
    | true =>
      simp only [↓reduceIte, ensures_bind, ensures_pure]
      exact clearLifeline_calms.mono fun x cleared => (same.trans cleared).stays

theorem declined_quiet (same : Calms n.self n'.self) (search : n.self.pc.searching = true) :
    Quiet cfg n (declined site n') := by
  unfold declined
  split
  · exact same.leaves rfl rfl rfl
  · exact same.goes fun _ => search

/-- After `RECV_REQ` the worker goes on where it was. -/
theorem noRequest_quiet (inside : n.self.pc.searching = k.searching) :
    Quiet cfg n (noRequest cfg k n) := by
  cases k with
  | push => exact Calms.refl.leaves rfl rfl rfl
  | poll => exact Calms.refl.leaves rfl rfl rfl
  | declineAll site => exact declined_quiet .refl inside
  | force f => exact Calms.refl.goes fun _ => inside
  | pop site task =>
    cases task with
    | some t => exact Calms.refl.leaves rfl rfl rfl
    | none =>
      simp only [noRequest, popFailed]
      cases site with
      | schedule => exact Calms.refl.leaves rfl rfl rfl
      | force f => exact Calms.refl.leaves rfl rfl rfl
      | barrier =>
        dsimp only
        split
        · exact Calms.refl.leaves rfl rfl rfl
        · split
          · exact Calms.refl.leaves rfl rfl rfl
          · exact Calms.refl.leaves rfl rfl rfl

theorem received_quiet (same : Calms n.self n'.self) (inside : n.self.pc.searching = k.searching) :
    Quiet cfg n (received w k req n') := by
  have goes (req : StealRequest) : Quiet cfg n (n'.goto (.handle k req)) :=
    same.goes fun search => inside.trans search
  cases k with
  | declineAll site =>
    simp only [received]
    split
    · exact goes _
    · exact goes _
  | push => exact goes req
  | poll => exact goes req
  | pop site task => exact goes req
  | force f => exact goes req

theorem recvReqStep_quiet (here : n.self.pc = .recvReq k) :
    Ensures (fun _ => True) (recvReqStep cfg w k n) (Quiet cfg n) := by
  have inside : n.self.pc.searching = k.searching := by rw [here, Pc.searching]
  unfold recvReqStep
  split
  · split
    · rw [ensures_bind]
      exact holdOn_calms.mono fun x same => same.stays
    · exact received_quiet .refl inside
  · split
    · exact noRequest_quiet inside
    · exact Calms.refl.goes fun search => inside.trans search

theorem recvReqForStep_quiet {scan : List ℕ} (here : n.self.pc = .recvReqFor k scan) :
    Quiet cfg n (recvReqForStep cfg w k scan n) := by
  have inside : n.self.pc.searching = k.searching := by rw [here, Pc.searching]
  unfold recvReqForStep
  split
  · exact noRequest_quiet inside
  · split
    · exact received_quiet .refl inside
    · exact Calms.refl.goes fun search => inside.trans search

theorem popHandle_quiet {task : Option Task} :
    Ensures (fun _ => True) (popHandle cfg o w site task req n) (Quiet cfg n) := by
  unfold popHandle
  split
  · split
    · rw [ensures_bind]
      exact splitLoop_calms.mono fun out same => same.leaves rfl rfl rfl
    · rw [ensures_bind]
      exact forgetReq_calms.mono fun x same => same.leaves rfl rfl rfl
  · rw [ensures_bind]
    exact handleStealRequest_calms.mono fun n' same => same.leaves rfl rfl rfl

theorem handleStep_quiet (here : n.self.pc = .handle k req) :
    Ensures (fun _ => True) (handleStep cfg o w k req n) (Quiet cfg n) := by
  cases k with
  | push =>
    simp only [handleStep, ensures_bind]
    exact handleStealRequest_calms.mono fun n' same => same.leaves rfl rfl rfl
  | poll =>
    simp only [handleStep, ensures_bind]
    exact handle_calms.mono fun out same => same.leaves rfl rfl rfl
  | pop site task => exact popHandle_quiet
  | declineAll site =>
    simp only [handleStep, ensures_bind]
    refine declineStealRequest_calms.mono fun n' same => ?_
    exact declined_quiet same (by rw [here]; rfl)
  | force f =>
    simp only [handleStep, ensures_bind]
    refine handleStealRequest_calms.mono fun n' same => ?_
    exact same.goes fun _ => by rw [here]; rfl

theorem forceStep_quiet {f : Awaited} {point : ReadyPoint} {ready : Bool}
    (here : n.self.pc = .forceReady f point) :
    Ensures (fun _ => True) (forceStep f point ready n) (Quiet cfg n) := by
  have next : Quiet cfg n (n.goto (point.next f)) := by
    refine Calms.refl.goes fun search => ?_
    rw [here]
    cases point with
    | inner => rfl
    | entry => cases search
    | popped => cases search
    | outer => cases search
  cases f with
  | foreign =>
    simp only [forceStep, ensures_pure]
    split
    · exact Calms.refl.leaves rfl rfl rfl
    · exact next
  | own i =>
    simp only [forceStep, ensures_bind]
    refine Ensures.any.mono fun out _ => ?_
    cases out with
    | none => exact next
    | some content => exact Calms.refl.leaves rfl rfl rfl

theorem notifyChild_calms {child : Option ℕ} :
    Ensures (fun _ => True) (notifyChild child n) fun n' => Calms n.self n'.self := by
  cases child with
  | none => exact .refl
  | some c =>
    simp only [notifyChild, ensures_bind, ensures_check, ensures_pure, implies_true, and_true]
    exact fun _ => taskAlloc_calms n

/-! ### Asking for work -/

theorem trySendStealRequest_adapts {idle : Bool} (guard : n.self.requested < cfg.maxSteal) :
    Ensures (fun _ => True) (trySendStealRequest cfg o w idle n) fun n' =>
      Adapts cfg n.self n'.self := by
  refine trySendStealRequest_sent.mono fun n' out => ?_
  rw [if_pos guard] at out
  obtain ⟨-, stack, self⟩ := out
  rw [self]
  exact ⟨rfl, rfl, rfl⟩

theorem trySendStealRequest_refused {idle : Bool} (guard : ¬ n.self.requested < cfg.maxSteal) :
    Ensures (fun _ => True) (trySendStealRequest cfg o w idle n) (Quiet cfg n) := by
  refine trySendStealRequest_sent.mono fun n' out => ?_
  rw [if_neg guard] at out
  rw [out]
  exact Calms.refl.stays

/-- What follows the call only changes the program point. -/
theorem sendStep_after {k : SendCont} {post : Node → Prop}
    (sent : ∀ idle, Ensures (fun _ => True) (trySendStealRequest cfg o w idle n) post)
    (moved : ∀ n' pc, post n' → post (n'.goto pc)) :
    Ensures (fun _ => True) (sendStep cfg o w k n) post := by
  cases k with
  | enter site =>
    simp only [sendStep, ensures_bind]
    refine (sent site.isIdle).mono fun n' held => ?_
    simp only [ensures_ite, ensures_bind, ensures_check, ensures_pure, implies_true, and_true]
    exact ⟨fun _ _ => moved n' _ held, fun _ => moved n' _ held⟩
  | failed site =>
    simp only [sendStep, ensures_bind]
    refine (sent site.isIdle).mono fun n' held => ?_
    cases site with
    | force f => exact moved n' _ held
    | schedule | barrier =>
      simp only [taskMissing, ensures_bind, ensures_check, ensures_ite, ensures_pure, implies_true,
        and_true]
      exact fun _ _ => ⟨fun _ => moved n' _ held, fun _ => moved n' _ held⟩
  | again f =>
    simp only [sendStep, ensures_bind]
    exact (sent false).mono fun n' held => moved n' _ held
  | early site t =>
    simp only [sendStep, ensures_bind]
    exact (sent false).mono fun n' held => moved n' _ held

theorem sendStep_steals {k : SendCont} (here : n.self.pc = .trySend k) :
    Ensures (fun _ => True) (sendStep cfg o w k n) (StealStep cfg w n) := by
  by_cases guard : n.self.requested < cfg.maxSteal
  · have event : stealEvent cfg w n =
        some (.tests (n.self.numRecentSteals = cfg.stealAdaptiveInterval)) := by
      rw [stealEvent, here]
      exact if_pos guard
    have sent := @sendStep_after cfg o w n k
      (fun n' => Adapts cfg n.self n'.self) (fun idle => trySendStealRequest_adapts guard)
      (fun n' pc held => ⟨held.recent, held.checkpoint, held.stealhalf⟩)
    exact sent.mono fun n' adapts => .of_tests event adapts
  · have event : stealEvent cfg w n = none := by
      rw [stealEvent, here]
      exact if_neg guard
    have refused := @sendStep_after cfg o w n k (Quiet cfg n)
      (fun idle => trySendStealRequest_refused guard)
      (fun n' pc quiet => ⟨quiet.requested, quiet.recent, fun allowed => absurd allowed guard⟩)
    exact refused.mono fun n' quiet => .of_quiet event quiet

/-! ### Receiving tasks -/

/-- `RECV_TASK` has asserted that there may be another request, so that the next call of
`try_send_steal_request` tests the counter. -/
theorem receivedTask_calm {chan : ℕ} : Ensures (fun _ => True) (receivedTask cfg chan x) fun x' =>
    x'.requested < cfg.maxSteal ∧ x'.numRecentSteals = x.numRecentSteals := by
  simp only [receivedTask, channelPush, ensures_bind, ensures_check, ensures_ite, ensures_pure,
    implies_true, and_true]
  exact fun _ => ⟨fun _ _ _ range _ => range.2, fun _ =>
    ⟨fun _ _ range _ => range.2, fun _ range _ => range.2⟩⟩

theorem unpack_steals {message : Message} :
    Ensures (fun _ => True) (unpack cfg w site message x) fun x' =>
      x'.numRecentSteals =
          (if cfg.steal = .adaptive then x.numRecentSteals + 1 else x.numRecentSteals) ∧
        x'.requested = x.requested ∧ x'.pc.searching = false := by
  cases message with
  | exit addr => exact ⟨rfl, rfl, rfl⟩
  | tasks batch state =>
    cases batch with
    | nil => trivial
    | cons t rest =>
      simp only [unpack, ensures_ite, ensures_bind, ensures_check, implies_true, and_true]
      exact ⟨fun _ _ => ⟨rfl, rfl, rfl⟩, fun _ => ⟨rfl, rfl, rfl⟩⟩

theorem recvTaskStep_steals {i : ℕ} (here : n.self.pc = .recvTask site i) :
    Ensures (fun _ => True) (recvTaskStep cfg w site i n) (StealStep cfg w n) := by
  have search : n.self.pc.searching = true := by rw [here]; rfl
  unfold recvTaskStep
  split
  · next waits =>
    have event : stealEvent cfg w n = none := by
      rw [stealEvent, here]
      exact if_pos waits
    simp only [ensures_bind, ensures_await, ensures_pure]
    exact fun _ => .of_quiet event ⟨le_rfl, rfl, fun _ _ => search⟩
  · next awake =>
    have event : stealEvent cfg w n = (n.net.chanTasks w i).map fun _ => .counts := by
      rw [stealEvent, here]
      exact if_neg awake
    split
    · next message slot =>
      rw [slot] at event
      rw [ensures_bind]
      refine receivedTask_calm.mono fun x calm => ?_
      rw [ensures_bind]
      refine unpack_steals.mono fun x' got => ?_
      rw [calm.2] at got
      exact .of_counts event got.1 (got.2.1.trans_lt calm.1) got.2.2
    · next slot =>
      rw [slot] at event
      split
      · exact .of_quiet event (Calms.refl.goes fun _ => search)
      · exact .of_quiet event (Calms.refl.goes fun _ => search)

theorem wstep_steals (c : Choice) :
    Ensures (fun _ => True) (wstep cfg w c n) (StealStep cfg w n) := by
  have quietly {run : Checked Node} (none : stealEvent cfg w n = none)
      (quiet : Ensures (fun _ => True) run (Quiet cfg n)) :
      Ensures (fun _ => True) run (StealStep cfg w n) :=
    quiet.mono fun n' held => .of_quiet none held
  unfold wstep
  split
  · next here => exact quietly (by simp [stealEvent, here]) userStep_quiet
  · next here => exact quietly (by simp [stealEvent, here]) popStep_quiet
  · next here => exact quietly (by simp [stealEvent, here]) shareStep_quiet
  · next here => exact quietly (by simp [stealEvent, here]) peekStep_quiet
  · next here => exact quietly (by simp [stealEvent, here]) (recvReqStep_quiet here)
  · next here => exact quietly (by simp [stealEvent, here]) (recvReqForStep_quiet here)
  · next here => exact quietly (by simp [stealEvent, here]) (handleStep_quiet here)
  · next here => exact sendStep_steals here
  · next here => exact recvTaskStep_steals here
  · next here => exact quietly (by simp [stealEvent, here]) (forceStep_quiet here)
  · next here =>
    refine quietly (by simp [stealEvent, here]) ?_
    simp only [ensures_bind, ensures_check, ensures_pure, implies_true, and_true]
    exact fun _ => Calms.refl.leaves rfl rfl rfl
  · next here =>
    refine quietly (by simp [stealEvent, here]) ?_
    rw [ensures_bind]
    exact notifyChild_calms.mono fun n' same => same.leaves rfl rfl rfl
  · next here =>
    refine quietly (by simp [stealEvent, here]) ?_
    rw [ensures_bind]
    exact notifyChild_calms.mono fun n' same => same.leaves rfl rfl rfl
  · trivial

end Steps

/-! ## Runs -/

/-- A state and, for each worker, the events so far, newest first. -/
structure StealRecord where
  state : State
  log : ℕ → List Event

def StealRecord.record (cfg : Config) (d : StealRecord) (w : ℕ) (n : Node) : StealRecord where
  state := d.state.put w n
  log := Function.update d.log w ((stealEvent cfg w (d.state.node w)).toList ++ d.log w)

def stealing (cfg : Config) : System StealRecord where
  init d := d = ⟨State.init cfg, fun _ => []⟩
  step d d' := ∃ w < cfg.numWorkers, ∃ c n, wstep cfg w c (d.state.node w) = .ok n ∧
    d' = d.record cfg w n

/-- The counter is what the log says, and after tasks were received the worker may
send another request and does not look for work yet. -/
structure Watched (cfg : Config) (x : Worker) (log : List Event) : Prop where
  count : x.numRecentSteals = since log
  punctual : Punctual cfg.stealAdaptiveInterval log
  calm : log.head? = some .counts → x.requested < cfg.maxSteal ∧ x.pc.searching = false

section Runs

variable {cfg : Config} {w : ℕ} {n n' : Node} {log : List Event} {d : StealRecord} {x : Worker}

theorem adaptStrategy_recent (adaptive : cfg.steal = .adaptive) (x : Worker) :
    (adaptStrategy cfg x).numRecentSteals =
      if x.numRecentSteals = cfg.stealAdaptiveInterval then 0 else x.numRecentSteals := by
  unfold adaptStrategy
  by_cases reached : x.numRecentSteals = cfg.stealAdaptiveInterval
  · rw [if_pos ⟨adaptive, reached⟩, if_pos reached]
  · rw [if_neg fun both => reached both.2, if_neg reached]

/-- The strategy was re-evaluated: a worker that steals half goes on doing so if it
executed at least two tasks for each receipt since the last time, and one that does not
begins to if it executed exactly one. -/
structure Reevaluated (cfg : Config) (x x' : Worker) : Prop where
  recent : x'.numRecentSteals = 0
  checkpoint : x'.checkpoint = x.numTasksExec
  stealhalf : x'.stealhalf = true ↔
    x.stealhalf = true ∧
        2 * (cfg.stealAdaptiveInterval : ℤ) ≤ (x.numTasksExec - x.checkpoint).toInt ∨
      x.stealhalf = false ∧ (x.numTasksExec - x.checkpoint).toInt = cfg.stealAdaptiveInterval

theorem two_le_stealRatio : 2 ≤ stealRatio cfg x ↔
    2 * (cfg.stealAdaptiveInterval : ℤ) ≤ (x.numTasksExec - x.checkpoint).toInt := by
  have positive : (0 : ℚ) < cfg.stealAdaptiveInterval := by exact_mod_cast cfg.someInterval
  rw [stealRatio, le_div_iff₀ positive]
  exact_mod_cast Iff.rfl

theorem stealRatio_eq_one : stealRatio cfg x = 1 ↔
    (x.numTasksExec - x.checkpoint).toInt = cfg.stealAdaptiveInterval := by
  have positive : (0 : ℚ) < cfg.stealAdaptiveInterval := by exact_mod_cast cfg.someInterval
  rw [stealRatio, div_eq_one_iff_eq positive.ne']
  exact_mod_cast Iff.rfl

theorem adaptStrategy_reevaluated (adaptive : cfg.steal = .adaptive)
    (met : x.numRecentSteals = cfg.stealAdaptiveInterval) :
    Reevaluated cfg x (adaptStrategy cfg x) := by
  rw [adaptStrategy, if_pos ⟨adaptive, met⟩]
  refine ⟨rfl, rfl, ?_⟩
  rw [← two_le_stealRatio, ← stealRatio_eq_one]
  cases half : x.stealhalf <;> simp

/-- Of the three fields nothing else is left open. -/
theorem StealStep.reevaluated (took : StealStep cfg w n n') (adaptive : cfg.steal = .adaptive)
    (event : stealEvent cfg w n = some (.tests true))
    (met : n.self.numRecentSteals = cfg.stealAdaptiveInterval) :
    Reevaluated cfg n.self n'.self := by
  rw [StealStep, event] at took
  have adapted := adaptStrategy_reevaluated adaptive met
  exact ⟨took.recent.trans adapted.recent, took.checkpoint.trans adapted.checkpoint,
    by rw [took.stealhalf]; exact adapted.stealhalf⟩

theorem stealEvent_counts (event : stealEvent cfg w n = some .counts) :
    n.self.pc.searching = true := by
  unfold stealEvent at event
  split at event
  · split at event <;> cases event
  · next here =>
    rw [here]
    rfl
  · cases event

theorem stealEvent_tests {met : Bool} (event : stealEvent cfg w n = some (.tests met)) :
    met = decide (n.self.numRecentSteals = cfg.stealAdaptiveInterval) := by
  unfold stealEvent at event
  split at event
  · split at event
    · cases event
      rfl
    · cases event
  · split at event
    · cases event
    · rw [Option.map_eq_some_iff] at event
      obtain ⟨message, -, wrong⟩ := event
      cases wrong
  · cases event

theorem Watched.step (adaptive : cfg.steal = .adaptive) (watched : Watched cfg n.self log)
    (took : StealStep cfg w n n') :
    Watched cfg n'.self ((stealEvent cfg w n).toList ++ log) := by
  unfold StealStep at took
  cases event : stealEvent cfg w n with
  | none =>
    rw [event] at took
    refine ⟨took.recent.trans watched.count, watched.punctual, fun received => ?_⟩
    obtain ⟨fewer, out⟩ := watched.calm received
    refine ⟨took.requested.trans_lt fewer, Bool.eq_false_iff.mpr fun search => ?_⟩
    rw [took.search fewer search] at out
    cases out
  | some event' =>
    cases event' with
    | counts =>
      rw [event] at took
      obtain ⟨recent, fewer, out⟩ := took
      rw [if_pos adaptive, watched.count] at recent
      refine ⟨recent, ⟨fun received => ?_, watched.punctual⟩, fun _ => ⟨fewer, out⟩⟩
      have outside := (watched.calm received).2
      rw [stealEvent_counts event] at outside
      cases outside
    | tests met =>
      rw [event] at took
      have compared := stealEvent_tests event
      rw [watched.count] at compared
      refine ⟨?_, ⟨compared, watched.punctual⟩, fun wrong => by cases wrong⟩
      have adapts : Adapts cfg n.self n'.self := took
      rw [adapts.recent, adaptStrategy_recent adaptive, watched.count]
      cases met with
      | true => rw [if_pos (of_decide_eq_true compared.symm)]; rfl
      | false => rw [if_neg (of_decide_eq_false compared.symm)]; rfl

theorem reachable_watched (adaptive : cfg.steal = .adaptive) (reached : (stealing cfg).Reachable d)
    (w : ℕ) : Watched cfg (d.state.workers w) (d.log w) := by
  refine @System.Reachable.invariant _ (stealing cfg)
    (fun d => ∀ w, Watched cfg (d.state.workers w) (d.log w)) ?_ ?_ d reached w
  · rintro d rfl w
    exact ⟨rfl, trivial, fun wrong => by cases wrong⟩
  · rintro d d' - before ⟨v, -, c, n, moved, rfl⟩ w
    have took := (wstep_steals c).value moved
    by_cases same : w = v
    · subst same
      simp only [StealRecord.record, State.put, Function.update_self]
      exact (before w).step adaptive took
    · simp only [StealRecord.record, State.put, Function.update_of_ne same]
      exact before w

/-- Every run of the runtime has its log. -/
theorem reachable_stealing {s : State} (reached : (system cfg).Reachable s) :
    ∃ log, (stealing cfg).Reachable ⟨s, log⟩ := by
  refine @System.Reachable.invariant _ (system cfg)
    (fun s => ∃ log, (stealing cfg).Reachable ⟨s, log⟩) ?_ ?_ s reached
  · rintro s rfl
    exact ⟨_, System.reachable_of_init rfl⟩
  · rintro s s' - ⟨log, logged⟩ ⟨w, worker, c, n, moved, rfl⟩
    exact ⟨_, logged.tail ⟨w, worker, c, n, moved, rfl⟩⟩

/-- With the adaptive strategy, in every run and for every worker:
`try_send_steal_request` is called with `requested < MAXSTEAL` between two increments of
`num_recent_steals`; the counter is the number of increments since the strategy was last
re-evaluated and never exceeds the interval; and when it has reached the interval, the
next such call re-evaluates the strategy before tasks are received again: the counter
and the checkpoint are set, and the strategy follows from the tasks executed since. -/
theorem adaptive_strategy_reevaluated (cfg : Config) (adaptive : cfg.steal = .adaptive) :
    (∀ s, (system cfg).Reachable s → ∃ log, (stealing cfg).Reachable ⟨s, log⟩) ∧
    ∀ d, (stealing cfg).Reachable d → ∀ w,
      (∀ later earlier, d.log w ≠ later ++ .counts :: .counts :: earlier) ∧
      (d.state.workers w).numRecentSteals = since (d.log w) ∧
      (d.state.workers w).numRecentSteals ≤ cfg.stealAdaptiveInterval ∧
      (∀ later met earlier, d.log w = later ++ .tests met :: earlier →
        (met = true ↔ since earlier = cfg.stealAdaptiveInterval)) ∧
      (∀ later event earlier, d.log w = later ++ event :: earlier →
        since earlier = cfg.stealAdaptiveInterval → event = .tests true) ∧
      ∀ c n, wstep cfg w c (d.state.node w) = .ok n →
        stealEvent cfg w (d.state.node w) = some (.tests true) →
        since (d.log w) = cfg.stealAdaptiveInterval ∧
          Reevaluated cfg (d.state.workers w) n.self := by
  refine ⟨fun s reached => reachable_stealing reached, fun d reached w => ?_⟩
  have watched := reachable_watched adaptive reached w
  have positive := cfg.someInterval
  refine ⟨fun later earlier => watched.punctual.apart, watched.count, ?_, ?_, ?_, ?_⟩
  · rw [watched.count]
    exact (watched.punctual.bounded positive).1
  · intro later met earlier shape
    exact (shape ▸ watched.punctual).met_iff
  · intro later event earlier shape full
    exact (shape ▸ watched.punctual).caught positive full
  · intro c n moved event
    have met := of_decide_eq_true (stealEvent_tests event).symm
    exact ⟨watched.count.symm.trans met,
      ((wstep_steals c).value moved).reevaluated adaptive event met⟩

/-- Two workers that re-evaluate the strategy after every receipt. -/
def eagerConfig : Config :=
  { Config.makefile 2 (by decide) with stealAdaptiveInterval := 1, someInterval := Nat.one_pos }

/-- The master pushes two tasks, and worker 1 receives the older one. -/
def receiptSchedule : List (ℕ × Choice) :=
  (0, .plain (.spawn none false)) :: runsOn 0 3 ++ runsOn 1 6 ++
    (0, .plain (.spawn none false)) :: runsOn 0 3 ++ runsOn 1 4

theorem adaptive_strategy_after_receipt : ∃ log,
    (stealing eagerConfig).Reachable ⟨after eagerConfig receiptSchedule, log⟩ ∧
    since (log 1) = eagerConfig.stealAdaptiveInterval ∧
    ∀ later earlier, log 1 ≠ later ++ .counts :: .counts :: earlier := by
  obtain ⟨logs, every⟩ := adaptive_strategy_reevaluated eagerConfig rfl
  obtain ⟨log, reached⟩ := logs _ (after_reachable _ receiptSchedule)
  obtain ⟨apart, count, -⟩ := every _ reached 1
  have received : ((after eagerConfig receiptSchedule).workers 1).numRecentSteals = 1 := by
    decide +kernel
  exact ⟨log, reached, count.symm.trans received, apart⟩

end Runs

end Tasking.Runtime
