import Tasking.TerminationDetection

/-!
The time between `detect_termination` and `RT_EXIT`.

`quiescent` is set in one step of `RT_barrier`, and a step says so (`Turn`).  From then on
until a task is pushed the master sends no request, because it does not wait for anything:
all tasks have finished, so every future that it may ask for is there.  For its own futures
this is proved; the runtime model leaves other conditions to the environment, and `settled`
are the runs in which these hold as well once there is nobody left to bring them about.
-/
namespace Tasking.Runtime
open Fallible Family TokenProtocol Custody WorkerTree

/-! ## Steps that set `quiescent` -/

/-- `RECV_REQ` has found the worker's own channel empty, and goes on. -/
def Pc.scanning : Pc → Bool
  | .recvReqFor _ _ => true
  | _ => false

/-- What one step of worker `w` does to `quiescent` and to its own channels. -/
inductive Turn (cfg : Config) (w : ℕ) (n n' : Node) : Prop where
  | steady (quiescent : n'.self.quiescent = true → n.self.quiescent = true)
      (slots : ∀ i, n'.net.chanTasks w i = n.net.chanTasks w i ∨ n'.net.chanTasks w i = none)
      (scans : n'.self.pc.scanning = true → n.net.chanRequests w = n'.net.chanRequests w ∧
        (n.net.chanRequests w = [] ∨ n.self.pc.scanning = true))
  /-- `detect_termination`, in `RT_barrier`. -/
  | detects (idle : n.self.pc.isIdle = true) (slots : n'.net.chanTasks = n.net.chanTasks)
      (here : n'.self.pc = .barrierExit)
      (count : n'.self.requested = n'.self.droppedStealRequests)
  /-- A single worker has popped its last task and answered its last request. -/
  | alone (single : cfg.numWorkers = 1) (found : n.self.pc.foundNothing = true)
      (site : n.self.pc.site = some .barrier) (hand : n.self.pc.hand = none)
      (none : n.net.chanRequests w = [] ∨ n.self.pc.scanning = true)
      (after : n' = Node.goto { n with self := { n.self with quiescent := true } } .barrierExit)

section Turns

variable {cfg : Config} {ctx : Context} {o : Oracle} {w : ℕ} {n n' n'' : Node} {x x' : Worker}
  {req : StealRequest} {k : ReqCont} {site : Site}

/-- Neither `quiescent` nor the slots change. -/
structure Steady (w : ℕ) (n n' : Node) : Prop where
  quiescent : n'.self.quiescent = n.self.quiescent
  slots : n'.net.chanTasks w = n.net.chanTasks w

theorem Steady.refl : Steady w n n := ⟨rfl, rfl⟩

theorem Steady.trans (first : Steady w n n') (second : Steady w n' n'') : Steady w n n'' :=
  ⟨second.quiescent.trans first.quiescent, second.slots.trans first.slots⟩

theorem Steady.turn (steady : Steady w n n') (there : n'.self.pc.scanning = false) :
    Turn cfg w n n' :=
  .steady (fun quiet => steady.quiescent ▸ quiet) (fun i => .inl (congrFun steady.slots i))
    fun scans => absurd (there.symm.trans scans) Bool.false_ne_true

theorem Steady.goes (steady : Steady w n n') {pc : Pc} (there : pc.scanning = false) :
    Turn cfg w n (n'.goto pc) :=
  Steady.turn ⟨steady.quiescent, steady.slots⟩ there

/-- A step that does not send tasks, or sends them to somebody else. -/
theorem sendTasks_slots (net : Network) {owner chan : ℕ} (batch : List Task) (answers : ReqState)
    (other : owner ≠ w) :
    (net.sendTasks owner chan batch answers).chanTasks w = net.chanTasks w := by
  unfold Network.sendTasks
  split
  · exact Function.update_of_ne other.symm _ _
  · rfl

theorem sendLoot_steady (other : req.ID ≠ w) : Steady w n (sendLoot cfg w req n) :=
  ⟨rfl, sendTasks_slots _ _ _ other⟩

theorem SplitOff.steady {future : Bool} (done : SplitOff w future req.token n n')
    (other : req.ID ≠ w) : Steady w n n' := by
  obtain ⟨addr, dup, -, net⟩ := done.net
  have other : req.token.owner ≠ w := other
  refine ⟨done.self.quiescent, ?_⟩
  rw [net, sendTasks_slots _ _ _ other]
  rfl

theorem Outcome.steady (out : Outcome cfg w req.token n n')
    (more : req.token.owner = w → ¬ LastToken cfg.maxSteal n.self.agent req.token) :
    Steady w n n' := by
  cases out with
  | relayed | forgotten | dropped => exact ⟨rfl, rfl⟩
  | retired own last | detected own _ last => exact absurd last (more own)
  | @looted loot same other some =>
    refine sendLoot_steady ?_
    rw [show loot.ID = req.token.owner from congrArg Token.owner same]
    exact other

theorem trySendStealRequest_steady {idle : Bool} :
    Ensures (fun _ => True) (trySendStealRequest cfg o w idle n) (Steady w n) := by
  refine trySendStealRequest_sent.mono fun n' out => ?_
  split at out
  · obtain ⟨sent, stack, self⟩ := out
    refine ⟨?_, congrFun sent.tasks.1 w⟩
    rw [self]
    exact (adaptStrategy_keepsWork cfg n.self).quiescent
  · rw [out]
    exact .refl

/-! ### Handling requests -/

/-- `handle`, on a request in the worker's hand, while the worker is not idle. -/
theorem Pre.handle_steady (pre : Pre cfg ctx w n) (hand : n.self.pc.hand = some req)
    (busy : n.self.pc.isIdle = false) :
    Ensures (fun _ => True) (handle cfg o w req n) fun out => Steady w n out.2 := by
  have more (own : req.token.owner = w) := pre.not_last hand busy own
  unfold handle
  split
  · rw [ensures_bind]
    exact ((pre.handles hand).weaken fun _ _ => trivial).mono fun n' out => out.steady more
  · dsimp only
    split
    · split
      · next other =>
        rw [ensures_bind]
        refine ((splitLoop_ensures other).weaken fun _ _ => trivial).mono ?_
        rintro ⟨split, n'⟩ done
        have shortened := shortenCurrent_alike n'.self split
        exact (done.steady other).trans ⟨shortened.quiescent, rfl⟩
      · rw [ensures_bind]
        exact forgetReq_keepsWork.mono fun x same => ⟨same.quiescent, rfl⟩
    · rw [if_neg (show ¬ req.state = .failed from pre.hand_live hand), ensures_bind]
      exact ((pre.declines hand).weaken fun _ _ => trivial).mono fun n' out => out.steady more

theorem Pre.popHandle_steady (pre : Pre cfg ctx w n) {task : Option Task}
    (here : n.self.pc = .handle (.pop site task) req) :
    Ensures (fun _ => True) (popHandle cfg o w site task req n) (Turn cfg w n) := by
  have hand : n.self.pc.hand = some req := by rw [here]; rfl
  have busy : n.self.pc.isIdle = false := by rw [here]; rfl
  unfold popHandle
  split
  · split
    · next other =>
      rw [ensures_bind]
      refine ((splitLoop_ensures other).weaken fun _ _ => trivial).mono ?_
      rintro ⟨split, n'⟩ done
      exact (done.steady other).goes rfl
    · rw [ensures_bind]
      refine forgetReq_keepsWork.mono fun x same => ?_
      exact (⟨same.quiescent, rfl⟩ : Steady w n { n with self := x }).goes rfl
  · rw [ensures_bind]
    exact ((pre.handles hand).weaken fun _ _ => trivial).mono fun n' out =>
      (out.steady fun own => pre.not_last hand busy own).goes rfl

/-- Declining a request in `RT_barrier` or in `schedule`. -/
theorem Pre.declined_turn (pre : Pre cfg ctx w n)
    (here : n.self.pc = .handle (.declineAll site) req) (out : Outcome cfg w req.token n n') :
    Turn cfg w n (declined site n') := by
  have hand : n.self.pc.hand = some req := by rw [here]; rfl
  have goes (steady : Steady w n n') : Turn cfg w n (declined site n') := by
    unfold declined
    split <;> exact steady.goes rfl
  cases out with
  | relayed | forgotten | dropped => exact goes ⟨rfl, rfl⟩
  | retired => exact goes ⟨rfl, rfl⟩
  | @looted loot same other some =>
    refine goes (sendLoot_steady ?_)
    rw [show loot.ID = req.token.owner from congrArg Token.owner same]
    exact other
  | detected own master last =>
    have siteOk : SiteOk w n.self.loc.rets (some site) := by
      have := pre.loc.site
      rwa [show n.self.loc.pc = .handle (.declineAll site) req from here] at this
    obtain rfl : site = .barrier := by
      cases site with
      | barrier => rfl
      | schedule => exact absurd master siteOk.1
      | force f =>
        have request : n.self.pc.request = some (.declineAll (.force f)) := by rw [here]; rfl
        cases (pre.declining request).1
    have dropped := ((pre.hand_account hand own).last last).2.2
    have requested := last.2.2.1
    simp only [Worker.agent] at dropped requested
    simp only [declined]
    rw [if_pos (by simp)]
    refine .detects (by rw [here]; rfl) rfl rfl ?_
    simp only [Node.goto]
    omega

theorem Pre.handleStep_turn (pre : Pre cfg ctx w n) (here : n.self.pc = .handle k req) :
    Ensures (fun _ => True) (Runtime.handleStep cfg o w k req n) (Turn cfg w n) := by
  have hand : n.self.pc.hand = some req := by rw [here]; rfl
  cases k with
  | push | force f =>
    have busy : n.self.pc.isIdle = false := by rw [here]; rfl
    simp only [Runtime.handleStep, ensures_bind]
    exact ((pre.handles hand).weaken fun _ _ => trivial).mono fun n' out =>
      (out.steady fun own => pre.not_last hand busy own).goes rfl
  | poll =>
    have busy : n.self.pc.isIdle = false := by rw [here]; rfl
    simp only [Runtime.handleStep, ensures_bind]
    exact (pre.handle_steady hand busy).mono fun out steady => steady.goes rfl
  | pop site task => exact pre.popHandle_steady here
  | declineAll site =>
    simp only [Runtime.handleStep, ensures_bind]
    exact ((pre.declines hand).weaken fun _ _ => trivial).mono fun n' out =>
      pre.declined_turn here out

theorem Pre.shareRound_steady (pre : Pre cfg ctx w n) {k : ShareCont}
    (here : n.self.pc = .shareWork k) :
    Ensures (fun _ => True) (Runtime.shareRound cfg o w n) fun out =>
      Steady w n out.2 ∧ out.2.self.pc = n.self.pc := by
  have hand : n.self.pc.hand = none := by rw [here]; rfl
  unfold Runtime.shareRound
  split
  · exact ⟨.refl, rfl⟩
  · next req reqs queue =>
    obtain ⟨-, failed, side, below, -, -⟩ := pre.queued hand queue
    have other : req.ID ≠ w := by
      rw [below]
      cases side <;> simp only [child] <;> omega
    have handled : Ensures (fun _ => True) (handle cfg o w req n) fun out =>
        Steady w n out.2 ∧ out.2.self.pc = n.self.pc := by
      simp only [handle, if_pos other, if_pos failed]
      split
      · next some =>
        rw [ensures_bind, handleStealRequest, if_neg other, if_neg some]
        exact ⟨sendLoot_steady other, rfl⟩
      · split
        · rw [ensures_bind]
          refine ((splitLoop_ensures other).weaken fun _ _ => trivial).mono ?_
          rintro ⟨split, n'⟩ done
          have shortened := shortenCurrent_alike n'.self split
          exact ⟨(done.steady other).trans ⟨shortened.quiescent, rfl⟩,
            (done.self.trans shortened).pc⟩
        · simp only [ensures_bind, ensures_check, ensures_pure, implies_true, and_true]
          exact fun _ => .refl
    simp only [ensures_bind, ensures_check, implies_true, and_true]
    refine fun _ => handled.mono ?_
    rintro ⟨served, n'⟩ ⟨steady, pc⟩
    cases served with
    | false => exact ⟨steady, pc⟩
    | true =>
      simp only [↓reduceIte, ensures_bind, ensures_pure]
      exact clearLifeline_keepsWork.mono fun x same =>
        ⟨steady.trans ⟨same.quiescent, rfl⟩, same.pc.trans pc⟩

theorem Pre.shareStep_turn (pre : Pre cfg ctx w n) {k : ShareCont}
    (here : n.self.pc = .shareWork k) :
    Ensures (fun _ => True) (Runtime.shareStep cfg o w k n) (Turn cfg w n) := by
  simp only [Runtime.shareStep, ensures_bind]
  refine (pre.shareRound_steady here).mono ?_
  rintro ⟨more, n'⟩ ⟨steady, pc⟩
  cases more with
  | true => exact steady.turn (by rw [pc, here]; rfl)
  | false =>
    cases k with
    | push | poll | pop _ _ => exact steady.goes rfl
    | got site t => exact Steady.turn ⟨steady.quiescent, steady.slots⟩ rfl
    | exit addr =>
      simp only [Runtime.shareDone, exitFn, Bool.false_eq_true, ↓reduceIte, ensures_bind,
        ensures_check, ensures_pure, implies_true, and_true]
      exact fun _ _ _ => Steady.turn ⟨steady.quiescent, steady.slots⟩ rfl

/-! ### Receiving requests and tasks -/

theorem noRequest_turn (here : n.self.pc.request = some k) (hand : n.self.pc.hand = none)
    (none : n.net.chanRequests w = [] ∨ n.self.pc.scanning = true) :
    Turn cfg w n (noRequest cfg k n) := by
  have goes {pc : Pc} (there : pc.scanning = false) : Turn cfg w n (n.goto pc) :=
    Steady.refl.goes there
  cases k with
  | push | poll | force f => exact goes rfl
  | declineAll site =>
    simp only [noRequest, declined]
    split <;> exact goes rfl
  | pop site task =>
    cases task with
    | some t => exact Steady.turn ⟨rfl, rfl⟩ rfl
    | none =>
      simp only [noRequest, popFailed]
      cases site with
      | schedule => exact goes rfl
      | force f => exact goes rfl
      | barrier =>
        dsimp only
        split
        · next single =>
          obtain ⟨-, site, -, found, -⟩ := Pc.request_facts here
          exact .alone single found site hand none rfl
        · split <;> exact goes rfl

theorem received_turn (steady : Steady w n n') :
    Turn cfg w n (received w k req n') := by
  cases k with
  | push | poll | force f | pop _ _ => exact steady.goes rfl
  | declineAll site =>
    simp only [received]
    split <;> exact steady.goes rfl

theorem recvReqStep_turn (here : n.self.pc = .recvReq k) :
    Ensures (fun _ => True) (recvReqStep cfg w k n) (Turn cfg w n) := by
  unfold recvReqStep
  split
  · split
    · rw [ensures_bind]
      refine holdOn_keepsWork.mono fun x same => ?_
      refine (⟨same.quiescent, rfl⟩ : Steady w n ⟨x, n.net.dropRequest w⟩).turn ?_
      rw [same.pc, here]
      rfl
    · exact received_turn ⟨rfl, rfl⟩
  · next empty =>
    split
    · exact noRequest_turn (by rw [here]; rfl) (by rw [here]; rfl) (.inl empty)
    · exact .steady id (fun _ => .inl rfl) fun _ => ⟨rfl, .inl empty⟩

theorem recvReqForStep_turn {scan : List ℕ} (here : n.self.pc = .recvReqFor k scan) :
    Turn cfg w n (recvReqForStep cfg w k scan n) := by
  unfold recvReqForStep
  split
  · exact noRequest_turn (by rw [here]; rfl) (by rw [here]; rfl) (.inr (by rw [here]; rfl))
  · split
    · exact received_turn ⟨rfl, rfl⟩
    · exact .steady id (fun _ => .inl rfl) fun _ => ⟨rfl, .inr (by rw [here]; rfl)⟩

theorem sendStep_turn {k : SendCont} :
    Ensures (fun _ => True) (sendStep cfg o w k n) (Turn cfg w n) := by
  cases k with
  | enter site =>
    simp only [sendStep, ensures_bind]
    refine trySendStealRequest_steady.mono fun n' steady => ?_
    simp only [ensures_ite, ensures_bind, ensures_check, ensures_pure, implies_true, and_true]
    exact ⟨fun _ _ => steady.goes rfl, fun _ => steady.goes rfl⟩
  | failed site =>
    simp only [sendStep, ensures_bind]
    refine trySendStealRequest_steady.mono fun n' steady => ?_
    cases site with
    | force f => exact steady.goes rfl
    | schedule | barrier =>
      simp only [taskMissing, ensures_bind, ensures_check, ensures_ite, ensures_pure, implies_true,
        and_true]
      exact fun _ _ => ⟨fun _ => steady.goes rfl, fun _ => steady.goes rfl⟩
  | again f | early site t =>
    simp only [sendStep, ensures_bind]
    exact trySendStealRequest_steady.mono fun n' steady => steady.goes rfl

theorem recvTaskStep_turn {i : ℕ} (here : n.self.pc = .recvTask site i) :
    Ensures (fun _ => True) (recvTaskStep cfg w site i n) (Turn cfg w n) := by
  unfold recvTaskStep
  split
  · simp only [ensures_bind, ensures_await, ensures_pure]
    exact fun _ => Steady.turn ⟨rfl, rfl⟩ (by rw [here]; rfl)
  · split
    · next message slot =>
      have emptied {x : Worker} (same : x.quiescent = n.self.quiescent)
          (there : x.pc.scanning = false) : Turn cfg w n ⟨x, n.net.putTask w i none⟩ := by
        refine .steady (fun quiet => same.symm.trans quiet) (fun j => ?_)
          fun scans => absurd (there.symm.trans scans) Bool.false_ne_true
        by_cases this : j = i
        · subst this
          exact .inr (by simp [Network.putTask])
        · exact .inl (by simp [Network.putTask, this])
      simp only [ensures_bind]
      refine receivedTask_keepsWork.mono fun x same => ?_
      cases message with
      | exit addr => exact emptied same.quiescent rfl
      | tasks batch state =>
        cases batch with
        | nil => trivial
        | cons t rest =>
          simp only [unpack, ensures_ite, ensures_bind, ensures_check, ensures_pure, implies_true,
            and_true]
          exact ⟨fun _ _ => emptied same.quiescent rfl, fun _ => emptied same.quiescent rfl⟩
    · split <;> exact Steady.refl.goes rfl

/-! ### The other program points -/

theorem forceStep_turn {f : Awaited} {point : ReadyPoint} {ready : Bool} :
    Ensures (fun _ => True) (forceStep f point ready n) (Turn cfg w n) := by
  have waits {f : Awaited} : (point.next f).scanning = false := by cases point <;> rfl
  cases f with
  | foreign =>
    refine Steady.refl.goes ?_
    split
    · rfl
    · exact waits
  | own i =>
    simp only [forceStep, ensures_bind]
    refine Ensures.any.mono fun out _ => ?_
    cases out with
    | none => exact Steady.refl.goes waits
    | some content => exact Steady.turn ⟨rfl, rfl⟩ rfl

theorem userStep_turn {act : UserAct} (here : n.self.pc = .user) :
    Ensures (fun _ => True) (userStep w act n) (Turn cfg w n) := by
  have user : n.self.pc.scanning = false := by rw [here]; rfl
  cases act with
  | spawn loop future =>
    obtain ⟨alike, ⟨addr, net⟩, -⟩ := newTask_facts w loop future n
    have slots : (newTask w loop future n).2.net.chanTasks = n.net.chanTasks := by
      rw [net]
      rfl
    simp only [userStep, push, ensures_bind, ensures_ite, ensures_check, ensures_pure, implies_true,
      and_true]
    refine ⟨fun _ _ => ?_, fun _ => ?_⟩
    · refine .steady (fun quiet => absurd quiet Bool.false_ne_true) (fun i => .inl (by rw [slots]))
        fun scans => absurd scans Bool.false_ne_true
    · exact Steady.turn ⟨alike.quiescent, congrFun slots w⟩ rfl
  | poll => exact Steady.refl.goes rfl
  | await f =>
    cases f with
    | foreign => exact Steady.refl.goes rfl
    | own f =>
      simp only [userStep, ensures_bind, ensures_await, ensures_pure]
      exact fun _ => Steady.turn ⟨rfl, rfl⟩ rfl
  | reduce =>
    simp only [userStep, ensures_pure, reduce]
    split
    · exact Steady.refl.turn user
    · have taken (futures : List ℕ) := (setCurrentFutures_alike n.self futures).quiescent
      split <;> exact Steady.turn ⟨taken _, rfl⟩ rfl
  | barrier =>
    simp only [userStep, ensures_ite, ensures_bind, ensures_check, ensures_pure, implies_true,
      and_true]
    exact ⟨fun _ => Steady.refl.turn user, fun _ _ => Steady.refl.goes rfl⟩
  | exit =>
    simp only [userStep, exitFn, ensures_bind, ensures_await, ensures_check, ensures_pure,
      implies_true, and_true]
    exact fun _ _ _ _ => Steady.turn ⟨rfl, rfl⟩ rfl
  | asyncFor =>
    simp only [userStep, ensures_bind, ensures_pure]
    exact ((asyncFor_ensures n.self).weaken fun _ _ => trivial).mono fun x alike =>
      Steady.turn ⟨alike.quiescent, rfl⟩ (by rwa [alike.pc])
  | iterate =>
    simp only [userStep, ensures_bind, ensures_pure]
    refine ((iterate_ensures n.self).weaken fun _ _ => trivial).mono ?_
    rintro _ ⟨y, alike, rfl⟩
    exact Steady.turn ⟨alike.quiescent, rfl⟩ rfl
  | finish value =>
    simp only [userStep, finish]
    split
    · trivial
    · next frame rest _ =>
      have returns : frame.ret.next.scanning = false := by cases frame.ret <;> rfl
      split
      · exact Steady.turn ⟨rfl, rfl⟩ returns
      · simp only [ensures_bind, ensures_await, ensures_pure]
        exact fun _ => Ensures.any.mono fun written _ => Steady.turn ⟨rfl, rfl⟩ returns

/-- Every step of a worker before `RT_EXIT`. -/
theorem Pre.wstep_turn (pre : Pre cfg ctx w n) (c : Choice) :
    Ensures (fun _ => True) (Runtime.wstep cfg w c n) (Turn cfg w n) := by
  have stays := pre.loc.stays
  unfold Runtime.wstep
  split
  · next here => exact userStep_turn here
  · next site here =>
    simp only [ensures_pure, popStep]
    split
    · exact Steady.turn ⟨rfl, rfl⟩ rfl
    · split <;> exact Steady.turn ⟨rfl, rfl⟩ rfl
  · next here => exact pre.shareStep_turn here
  · simp only [ensures_pure, Runtime.peekStep]
    split
    · exact Steady.refl.goes rfl
    · split <;> exact Steady.refl.goes rfl
  · next here => exact recvReqStep_turn here
  · next here => exact recvReqForStep_turn here
  · next here => exact pre.handleStep_turn here
  · exact sendStep_turn
  · next here => exact recvTaskStep_turn here
  · exact forceStep_turn
  · simp only [ensures_bind, ensures_check, ensures_pure, implies_true, and_true]
    exact fun _ => Steady.refl.goes rfl
  all_goals
    next here =>
    rw [show n.self.loc.pc = _ from here] at stays
    cases stays

end Turns

/-! ## Between the barrier and `RT_EXIT` -/

/-- The runs in which a worker that is quiescent finds every condition of the
environment fulfilled that it waits for. -/
def settled (cfg : Config) : Transition.System State where
  init s := s = State.init cfg
  step s s' := ∃ ID < cfg.numWorkers, ∃ c n, wstep cfg ID c (s.node ID) = .ok n ∧
    s' = s.put ID n ∧ ∀ point, (s.workers ID).quiescent = true →
      (s.workers ID).pc = .forceReady .foreign point → c.ready = true

/-- `RT_barrier` has popped nothing. -/
def Site.poppedNothing : Site → Option Task → Bool
  | .barrier, none => true
  | _, _ => false

/-- Where the master can be while it is quiescent: in user code, in a call that has
nothing to do, or in `RT_barrier`, which finds no task and returns. -/
def Pc.calm : Pc → Bool
  | .user | .barrierExit | .pop .barrier | .peekReq _ | .forceReady _ .entry | .shareWork .poll =>
    true
  | .shareWork (.pop site task) | .recvReq (.pop site task) | .recvReqFor (.pop site task) _ =>
    site.poppedNothing task
  | _ => false

theorem Site.poppedNothing_eq {site : Site} {task : Option Task}
    (nothing : site.poppedNothing task = true) : site = .barrier ∧ task = none := by
  unfold Site.poppedNothing at nothing
  split at nothing
  · exact ⟨rfl, rfl⟩
  · cases nothing

theorem Pc.held_of_calm {pc : Pc} (calm : pc.calm = true) : pc.held = none := by
  unfold Pc.calm at calm
  split at calm <;> first | rfl | exact (Site.poppedNothing_eq calm).2 | cases calm

/-- A quiescent master: it has no task, and none of its requests is left. -/
structure Calm (x : Worker) : Prop where
  pc : x.pc.calm = true
  count : x.requested = x.droppedStealRequests
  deque : x.deque = []
  frames : x.frames = []

/-- What holds between `detect_termination` and the next `RT_push` or `RT_EXIT`.  The last
two say how a single worker comes to be quiescent. -/
structure Settles (cfg : Config) (s : State) : Prop where
  calm : (s.workers 0).quiescent = true → Calm (s.workers 0)
  slots : cfg.numWorkers = 1 → ∀ i, s.net.chanTasks 0 i = none
  scans : cfg.numWorkers = 1 → (s.workers 0).pc.scanning = true → s.net.chanRequests 0 = []

section Settled

variable {cfg : Config} {s : State} {w : ℕ} {n : Node} {c : Choice}

theorem settled_reachable (reached : (settled cfg).Reachable s) : (system cfg).Reachable s := by
  obtain ⟨first, initial, run⟩ := reached
  refine ⟨first, initial, Relation.ReflTransGen.mono ?_ _ _ run⟩
  rintro s s' ⟨ID, worker, c, n, moved, after, -⟩
  exact ⟨ID, worker, c, n, moved, after⟩

/-! ### A quiescent state -/

theorem Refines.flags_idle (ok : Refines cfg s) (quiescent : (s.workers 0).quiescent = true) :
    ∀ side, (s.workers 0).flag side = true := by
  have inv := TokenProtocol.reachable_inv cfg.someSteal ok.ring
  by_cases several : 2 ≤ cfg.numWorkers
  · exact (inv.quiet several quiescent).2.1
  · intro side
    have childless : cfg.numWorkers ≤ child 0 side := by
      cases side <;> simp only [child] <;> omega
    exact (inv.lifeline 0 cfg.someWorker side).mpr (.inl childless)

/-- Without requests of the master there are only those that parents hold on to. -/
theorem Refines.token_queued (ok : Refines cfg s) (quiescent : (s.workers 0).quiescent = true)
    (count : (s.workers 0).requested = (s.workers 0).droppedStealRequests) {p : Place} {r : Token}
    (member : (p, r) ∈ (s.ring cfg).tokens) : ∃ q, p = .queue q := by
  have inv := TokenProtocol.reachable_inv cfg.someSteal ok.ring
  by_contra away
  have owner : r.owner = 0 := by
    have left := ok.leftover (ok.flags_idle quiescent) (p, r) member
    cases p with
    | queue q => exact absurd ⟨q, rfl⟩ away
    | channel _ | hand _ => exact left.1
  have mine := TokenProtocol.Inv.mem_of_token member
  have live := (inv.account 0 cfg.someWorker).live_eq
  rw [owner] at mine
  have some := Multiset.card_pos_iff_exists_mem.mpr ⟨r, mine⟩
  simp only [State.ring, Worker.agent] at live some
  omega

theorem Refines.no_requests (ok : Refines cfg s) (quiescent : (s.workers 0).quiescent = true)
    (count : (s.workers 0).requested = (s.workers 0).droppedStealRequests) (i : ℕ) :
    s.net.chanRequests i = [] := by
  by_contra some
  obtain ⟨req, reqs, first⟩ := List.exists_cons_of_ne_nil some
  have member : (Place.channel i, req.token) ∈ (s.ring cfg).tokens := by
    refine Multiset.mem_add.mpr (.inl ?_)
    rw [tokens_dropRequest (ok.net.requests i some) first]
    exact Multiset.mem_cons_self _ _
  obtain ⟨q, wrong⟩ := ok.token_queued quiescent count member
  cases wrong

theorem Refines.no_hand (ok : Refines cfg s) (quiescent : (s.workers 0).quiescent = true)
    (count : (s.workers 0).requested = (s.workers 0).droppedStealRequests)
    (worker : w < cfg.numWorkers) : (s.workers w).pc.hand = none := by
  by_contra some
  obtain ⟨req, hand⟩ := Option.ne_none_iff_exists'.mp some
  have member : (Place.hand w, req.token) ∈ (s.ring cfg).tokens := by
    refine Multiset.mem_add.mpr (.inr (mem_gather.mpr ⟨w, worker, ?_⟩))
    simp [Worker.tokens, hand]
  obtain ⟨q, wrong⟩ := ok.token_queued quiescent count member
  cases wrong

/-- Nobody has a task, and none is under way. -/
theorem Settles.rested (settles : Settles cfg s) (ok : Refines cfg s)
    (quiescent : (s.workers 0).quiescent = true) :
    (∀ w < cfg.numWorkers, (s.workers w).deque = [] ∧ (s.workers w).frames = [] ∧
      (s.workers w).pc.held = none) ∧ ∀ v c, s.net.chanTasks v c = none := by
  by_cases several : 2 ≤ cfg.numWorkers
  · exact ⟨fun w worker => (ok.rested several quiescent worker).2,
      ok.no_message several quiescent⟩
  · have single : cfg.numWorkers = 1 := by
      have := cfg.someWorker
      omega
    obtain ⟨pc, -, deque, frames⟩ := settles.calm quiescent
    refine ⟨fun w worker => ?_, fun v c => ?_⟩
    · obtain rfl : w = 0 := by omega
      exact ⟨deque, frames, Pc.held_of_calm pc⟩
    · cases slot : s.net.chanTasks v c with
      | none => rfl
      | some message =>
        have inside := (ok.net.slots v c message slot).1
        obtain rfl : v = 0 := by omega
        simp [settles.slots single] at slot

/-- A future the master awaits is there, because its task has finished like all the others. -/
theorem Settles.own_ready (settles : Settles cfg s) (ok : Refines cfg s)
    (quiescent : (s.workers 0).quiescent = true) {f : ℕ} (asked : f ∈ (s.workers 0).loc.awaiting) :
    ∃ content, (s.net.futures f).force = .ok (some content) := by
  obtain ⟨known, -, result, awaited⟩ := (ok.depends 0 cfg.someWorker).futures f asked
  obtain ⟨rested, channels⟩ := settles.rested ok quiescent
  have none : (s.custody cfg).tasks = 0 := custody_empty rested channels
  have sound := (Custody.reachable_inv ok.custody).2.sound f known
  cases passed : (s.net.futures f).passed with
  | none =>
    have pledged := Custody.reachable_pledged ok.custody f known passed
    simp [none, futuresOf] at pledged
  | some value =>
    obtain ⟨content, forced, -⟩ := sound.force_set awaited result passed
    exact ⟨content, forced⟩

/-! ### Steps of a quiescent master -/

/-- A worker without tasks cannot serve the children it holds a request of. -/
theorem shareRound_rested {o : Oracle} (deque : n.self.deque = []) (frames : n.self.frames = [])
    (children : ∀ req ∈ n.self.workSharingRequests, req.state = .failed ∧ isChild cfg w req.ID) :
    shareRound cfg o w n = .ok (false, n) := by
  unfold shareRound
  split
  · rfl
  · next req reqs queue =>
    obtain ⟨failed, below⟩ := children req (by simp [queue])
    simp only [handle, Worker.currentTask, deque, frames, failed, below, check]
    rfl

/-- The requests a worker holds on to are those of children that gave up. -/
theorem Pre.children {ctx : Context} (pre : Pre cfg ctx w n) :
    ∀ req ∈ n.self.workSharingRequests, req.state = .failed ∧ isChild cfg w req.ID = true := by
  intro req member
  have token : (Place.queue w, req.token) ∈ (n.ring cfg ctx w).tokens := by
    have held : (Place.queue w, req.token) ∈ located (.queue w) n.self.workSharingRequests :=
      Multiset.mem_coe.mpr (List.mem_map_of_mem member)
    simp only [Node.ring, Worker.tokens, Multiset.mem_add]
    exact .inl (.inr (.inl held))
  obtain ⟨side, owner⟩ := pre.tokens.queue_child token
  have exist := pre.tokens.token_owner_lt token
  rw [owner] at exist
  refine ⟨pre.tokens.queue_failed _ _ token, ?_⟩
  rw [show req.ID = child w side from owner]
  exact isChild_child exist

/-- The master stays calm, unless it pushes a task or issues `RT_EXIT`. -/
def StaysCalm (n : Node) : Prop :=
  n.net.exiting = false → n.self.quiescent = true → Calm n.self

theorem Calm.goes (calm : Calm n.self) {pc : Pc} (there : pc.calm = true) :
    StaysCalm (n.goto pc) :=
  fun _ _ => ⟨there, calm.count, calm.deque, calm.frames⟩

theorem Calm.userStep {act : UserAct} (calm : Calm n.self) (quiescent : n.self.quiescent = true) :
    Ensures (fun _ => True) (userStep w act n) StaysCalm := by
  cases act with
  | spawn loop future =>
    have kept := (newTask_facts w loop future n).1.quiescent.trans quiescent
    simp only [Runtime.userStep, push, kept, ↓reduceIte, ensures_bind, ensures_check, ensures_pure,
      implies_true, and_true]
    exact fun _ _ wrong => absurd wrong Bool.false_ne_true
  | poll => exact calm.goes rfl
  | await f =>
    cases f with
    | foreign => exact calm.goes rfl
    | own f =>
      simp only [Runtime.userStep, ensures_bind, ensures_await, ensures_pure]
      exact fun _ _ _ => ⟨rfl, calm.count, calm.deque, calm.frames⟩
  | reduce =>
    simp only [Runtime.userStep, ensures_pure, reduce]
    split
    · exact fun _ _ => calm
    · have taken (futures : List ℕ) : Calm (n.self.setCurrentFutures futures) := by
        simp only [Worker.setCurrentFutures, calm.frames]
        exact ⟨calm.pc, calm.count, calm.deque, rfl⟩
      split <;> exact fun _ _ => ⟨rfl, (taken _).count, (taken _).deque, (taken _).frames⟩
  | barrier =>
    simp only [Runtime.userStep, ensures_ite, ensures_bind, ensures_check, ensures_pure,
      implies_true, and_true]
    exact ⟨fun _ _ _ => calm, fun _ _ => calm.goes rfl⟩
  | exit =>
    simp only [Runtime.userStep, exitFn, ensures_bind, ensures_await, ensures_check, ensures_pure,
      implies_true, and_true]
    exact fun _ _ _ _ running => absurd running.symm Bool.false_ne_true
  | asyncFor => simp [Runtime.userStep, asyncFor, calm.frames]
  | iterate => simp [Runtime.userStep, iterate, calm.frames]
  | finish value => simp [Runtime.userStep, finish, calm.frames]

/-- `RT_pop` of a quiescent `RT_barrier` finds neither a task nor a request. -/
theorem Calm.noRequest (calm : Calm n.self) (quiescent : n.self.quiescent = true) :
    StaysCalm (noRequest cfg (.pop .barrier none) n) := by
  simp only [Runtime.noRequest, popFailed]
  simp only [quiescent, ↓reduceIte]
  split
  · exact fun _ _ => ⟨rfl, calm.count, calm.deque, calm.frames⟩
  · exact calm.goes rfl

/-- Every step of a quiescent master up to `RT_EXIT`, if everything it waits for is there. -/
theorem Calm.wstep (calm : Calm n.self) (quiescent : n.self.quiescent = true)
    (empty : ∀ i, n.net.chanRequests i = [])
    (children : ∀ req ∈ n.self.workSharingRequests, req.state = .failed ∧ isChild cfg w req.ID)
    (own : ∀ f, n.self.pc = .forceReady (.own f) .entry →
      ∃ content, (n.net.futures f).force = .ok (some content))
    (foreign : ∀ point, n.self.pc = .forceReady .foreign point → c.ready = true) :
    Ensures (fun _ => True) (wstep cfg w c n) StaysCalm := by
  have there := calm.pc
  have shares : shareRound cfg c.oracle w n = .ok (false, n) :=
    shareRound_rested calm.deque calm.frames children
  cases here : n.self.pc with
  | user =>
    simp only [Runtime.wstep, here]
    exact calm.userStep quiescent
  | pop site =>
    rw [here] at there
    cases site with
    | barrier =>
      simp only [Runtime.wstep, here, ensures_pure, popStep, dequePop, calm.deque]
      exact fun _ _ => ⟨rfl, calm.count, rfl, calm.frames⟩
    | schedule | force f => cases there
  | shareWork k =>
    rw [here] at there
    simp only [Runtime.wstep, here, shareStep, shares, ensures_bind, ensures_ok,
      Bool.false_eq_true, ↓reduceIte]
    cases k with
    | poll => exact calm.goes rfl
    | pop site task =>
      obtain ⟨rfl, rfl⟩ := Site.poppedNothing_eq there
      exact calm.goes rfl
    | push | got site t | exit addr => cases there
  | peekReq scan =>
    simp only [Runtime.wstep, here, ensures_pure, peekStep]
    cases scan with
    | nil => exact calm.goes rfl
    | cons i rest =>
      simp only [empty, ne_eq, not_true_eq_false, ↓reduceIte]
      exact calm.goes rfl
  | recvReq k =>
    rw [here] at there
    cases k with
    | pop site task =>
      obtain ⟨rfl, rfl⟩ := Site.poppedNothing_eq there
      simp only [Runtime.wstep, here, recvReqStep, empty, ensures_ite, ensures_pure]
      exact ⟨fun _ => calm.noRequest quiescent, fun _ => calm.goes rfl⟩
    | push | poll | declineAll site | force f => cases there
  | recvReqFor k scan =>
    rw [here] at there
    cases k with
    | pop site task =>
      obtain ⟨rfl, rfl⟩ := Site.poppedNothing_eq there
      simp only [Runtime.wstep, here, recvReqForStep, ensures_pure]
      cases scan with
      | nil => exact calm.noRequest quiescent
      | cons i rest =>
        simp only [empty]
        exact calm.goes rfl
    | push | poll | declineAll site | force f => cases there
  | forceReady f point =>
    rw [here] at there
    cases point with
    | entry =>
      simp only [Runtime.wstep, here]
      cases f with
      | foreign =>
        rw [forceStep, foreign _ here]
        exact calm.goes rfl
      | own f =>
        obtain ⟨content, forced⟩ := own f here
        simp only [forceStep, forced, ensures_bind, ensures_ok]
        exact fun _ _ => ⟨rfl, calm.count, calm.deque, calm.frames⟩
    | popped | outer | inner => cases there
  | barrierExit =>
    simp only [Runtime.wstep, here, ensures_bind, ensures_check, ensures_pure, implies_true,
      and_true]
    exact fun _ => calm.goes rfl
  | handle k req | trySend k | recvTask site i | exitLeft | exitRight | finished =>
    rw [here] at there
    cases there

/-! ### Runs -/

/-- A single worker that finds no request has none under way. -/
theorem Settles.alone_count (settles : Settles cfg s) (ok : Refines cfg s)
    (single : cfg.numWorkers = 1) (hand : (s.workers 0).pc.hand = none)
    (empty : s.net.chanRequests 0 = []) :
    (s.workers 0).requested = (s.workers 0).droppedStealRequests := by
  have inv := TokenProtocol.reachable_inv cfg.someSteal ok.ring
  have none : (s.ring cfg).of 0 = 0 := by
    refine Multiset.eq_zero_of_forall_notMem fun r mine => ?_
    obtain ⟨live, owner⟩ := Multiset.mem_filter.mp mine
    rcases Multiset.mem_add.mp live with token | answer
    · obtain ⟨⟨p, r⟩, member, rfl⟩ := Multiset.mem_map.mp token
      rcases Multiset.mem_add.mp member with sent | held
      · obtain ⟨i, inside, there⟩ := mem_gather.mp sent
        obtain rfl : i = 0 := by omega
        simp [empty] at there
      · obtain ⟨v, inside, there⟩ := mem_gather.mp held
        obtain rfl : v = 0 := by omega
        simp only [Worker.tokens, hand, Option.toList_none, located_nil, add_zero] at there
        obtain ⟨req, -, same⟩ := List.mem_map.mp (Multiset.mem_coe.mp there)
        obtain rfl : p = .queue 0 := (congrArg Prod.fst same).symm
        obtain ⟨side, below⟩ := inv.queue_child member
        rw [show r.owner = 0 from owner] at below
        cases side <;> simp [child] at below
    · obtain ⟨batch, inside, -, slot⟩ := mem_answers.mp answer
      obtain row : r.owner = 0 := by omega
      simp [row, settles.slots single] at slot
  have live := (inv.account 0 cfg.someWorker).live_eq
  rw [none, Multiset.card_zero] at live
  simp only [State.ring, Worker.agent] at live
  omega

theorem Settles.init : Settles cfg (State.init cfg) := by
  refine ⟨fun quiescent => ?_, fun _ _ => rfl, fun _ scans => ?_⟩
  · exact absurd quiescent Bool.false_ne_true
  · exact absurd scans Bool.false_ne_true

theorem Settles.step_master (settles : Settles cfg s) (ok : Refines cfg s)
    (moved : wstep cfg 0 c (s.node 0) = .ok n) (next : Refines cfg (s.put 0 n))
    (ready : ∀ point, (s.workers 0).quiescent = true →
      (s.workers 0).pc = .forceReady .foreign point → c.ready = true) :
    Settles cfg (s.put 0 n) := by
  have pre := ok.pre cfg.someWorker
  have self := s.put_self 0 n
  have net : (s.put 0 n).net = n.net := rfl
  have running : n.net.exiting = false := next.net.running
  have loc := next.loc 0 cfg.someWorker
  rw [self] at loc
  have kept (quiescent : (s.workers 0).quiescent = true) : StaysCalm n := by
    have calm := settles.calm quiescent
    have own (f : ℕ) (here : (s.workers 0).pc = .forceReady (.own f) .entry) :
        ∃ content, (s.net.futures f).force = .ok (some content) := by
      refine settles.own_ready ok quiescent (List.mem_append_left _ ?_)
      rw [show (s.workers 0).loc.pc = _ from here]
      exact List.mem_singleton_self f
    exact (Calm.wstep calm quiescent (ok.no_requests quiescent calm.count) pre.children own
      fun point here => ready point quiescent here).value moved
  cases (pre.wstep_turn c).value moved with
  | steady quiet slots scans =>
    refine ⟨fun quiescent => ?_, fun single i => ?_, fun single scanning => ?_⟩
    · rw [self] at quiescent ⊢
      exact kept (quiet quiescent) running quiescent
    · exact (slots i).elim (fun same => same.trans (settles.slots single i)) id
    · rw [self] at scanning
      obtain ⟨same, before⟩ := scans scanning
      exact same.symm.trans (before.elim id (settles.scans single))
  | detects idle slots here count =>
    have several : cfg.numWorkers ≠ 1 := fun single =>
      absurd (idle.symm.trans (pre.loc.alone single)) Bool.false_ne_true.symm
    have := cfg.someWorker
    refine ⟨fun quiescent => ?_, fun single => absurd single several,
      fun single => absurd single several⟩
    rw [self] at quiescent ⊢
    obtain ⟨deque, rets, -⟩ := loc.quiescent_empty quiescent (by omega)
    exact ⟨by rw [here]; rfl, count, deque, List.map_eq_nil_iff.mp rets⟩
  | alone single found site hand none after =>
    have empty : s.net.chanRequests 0 = [] := none.elim id (settles.scans single)
    have count := settles.alone_count ok single hand empty
    have siteOk := pre.loc.site
    rw [show (s.node 0).self.loc.pc.site = some .barrier from site] at siteOk
    refine ⟨fun _ => ?_, fun _ i => ?_, fun _ scanning => ?_⟩
    · rw [self, after]
      exact ⟨rfl, count, pre.loc.found_nothing found, List.map_eq_nil_iff.mp siteOk.2⟩
    · rw [net, after]
      exact settles.slots single i
    · rw [self, after] at scanning
      cases scanning

theorem Settles.step (settles : Settles cfg s) (ok : Refines cfg s) (worker : w < cfg.numWorkers)
    (moved : wstep cfg w c (s.node w) = .ok n) (next : Refines cfg (s.put w n))
    (ready : ∀ point, (s.workers w).quiescent = true →
      (s.workers w).pc = .forceReady .foreign point → c.ready = true) :
    Settles cfg (s.put w n) := by
  by_cases master : w = 0
  · subst master
    exact settles.step_master ok moved next ready
  · have same : (s.put w n).workers 0 = s.workers 0 := State.put_other n (Ne.symm master)
    have several : cfg.numWorkers ≠ 1 := by omega
    refine ⟨fun quiescent => ?_, fun single => absurd single several,
      fun single => absurd single several⟩
    rw [same] at quiescent ⊢
    exact settles.calm quiescent

/-- Up to `RT_EXIT` the states of a settled run are of this form. -/
theorem settled_settles (reached : (settled cfg).Reachable s) (running : s.net.exiting = false) :
    Refines cfg s ∧ Settles cfg s := by
  refine ⟨reachable_refines (settled_reachable reached) running, ?_⟩
  have inv := @Transition.System.Reachable.invariant _ (settled cfg)
    (fun s => s.net.exiting = false → Settles cfg s) ?_ ?_ s reached
  · exact inv running
  · rintro s rfl _
    exact Settles.init
  · rintro s s' before settles ⟨w, worker, c, n, moved, rfl, ready⟩ running
    have next := reachable_refines (settled_reachable (before.tail
      ⟨w, worker, c, n, moved, rfl, ready⟩)) running
    rcases reachable_cases (settled_reachable before) with ok | closed
    · exact (settles ok.net.running).step ok worker moved next ready
    · exact absurd ((closed.step worker moved).closing.exiting.symm.trans running)
        Bool.false_ne_true.symm

end Settled

end Tasking.Runtime
