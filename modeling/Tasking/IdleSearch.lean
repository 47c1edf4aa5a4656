import Tasking.ProgramAssertions

/-!
What a worker does while nobody has a task.

All workers are then in `schedule`, and the master is in `RT_barrier`: they send steal
requests, and decline those of the others.  Most steps of a worker go on to the next
program point and leave everything else as it is.  The others are `SearchEvent`s: it takes a
request out of a channel, gets rid of the one in its hand, or sends one of its own.  A worker
that has no event ahead has `Drained` the channels it looks after (`Workless.acts_or_drained`).
-/
namespace Tasking.Runtime
open Fallible TokenProtocol WorkerTree Function

/-! ## Program points -/

/-- The loop of a worker without a task. -/
def homeSite (u : ℕ) : Site := if u = 0 then .barrier else .schedule

/-- The callers of `RECV_REQ` in the loop. -/
def SearchCont (site : Site) (k : ReqCont) : Prop := k = .pop site none ∨ k = .declineAll site

/-- The program points of the loop. -/
inductive Searching (site : Site) : Pc → Prop where
  | pop : Searching site (.pop site)
  | share : Searching site (.shareWork (.pop site none))
  | recvReq {k : ReqCont} (cont : SearchCont site k) : Searching site (.recvReq k)
  | recvReqFor {k : ReqCont} {scan : List ℕ} (cont : SearchCont site k) :
      Searching site (.recvReqFor k scan)
  | handle {k : ReqCont} {req : StealRequest} (cont : SearchCont site k) :
      Searching site (.handle k req)
  | enter : Searching site (.trySend (.enter site))
  | failed : Searching site (.trySend (.failed site))
  | recvTask {i : ℕ} : Searching site (.recvTask site i)

/-- The worker has sent its first request and declines the requests of others until it
receives a task. -/
def Pc.settled : Pc → Bool
  | .trySend (.failed _) | .recvTask _ _ | .recvReq (.declineAll _)
  | .recvReqFor (.declineAll _) _ | .handle (.declineAll _) _ => true
  | _ => false

/-- A settled worker has a request of its own in its hand that does not say so. -/
def Pc.unmarked (u : ℕ) : Pc → Bool
  | .handle (.declineAll _) req => decide (req.ID = u ∧ req.state ≠ .idle)
  | _ => false

theorem Pc.unmarked_of_hand {u : ℕ} {pc : Pc} (free : pc.hand = none) : pc.unmarked u = false := by
  unfold Pc.unmarked
  split
  · cases free
  · rfl

theorem homeSite_isIdle (u : ℕ) : (homeSite u).isIdle = true := by
  unfold homeSite
  split <;> rfl

theorem searchCont_of_site {site : Site} {k : ReqCont} (here : k.site = some site)
    (idle : site.isIdle = true) (held : ∀ other task, k = .pop other task → task = none) :
    SearchCont site k := by
  cases k with
  | pop other task =>
    cases here
    rw [held _ task rfl]
    exact .inl rfl
  | declineAll other =>
    cases here
    exact .inr rfl
  | force f =>
    cases here
    cases idle
  | push | poll => cases here

theorem searching_of_site {site : Site} {pc : Pc} (here : pc.site = some site)
    (idle : site.isIdle = true) (held : pc.held = none) :
    Searching site pc ∨ site = .barrier ∧ pc = .barrierExit := by
  cases pc with
  | pop other =>
    cases here
    exact .inl .pop
  | recvTask other i =>
    cases here
    exact .inl .recvTask
  | shareWork k =>
    cases k with
    | pop other task =>
      cases here
      cases held
      exact .inl .share
    | got other task => cases held
    | push | poll | exit addr => cases here
  | recvReq k =>
    refine .inl (.recvReq (searchCont_of_site here idle ?_))
    rintro other task rfl
    exact held
  | recvReqFor k scan =>
    refine .inl (.recvReqFor (searchCont_of_site here idle ?_))
    rintro other task rfl
    exact held
  | handle k req =>
    refine .inl (.handle (searchCont_of_site here idle ?_))
    rintro other task rfl
    exact held
  | trySend k =>
    cases k with
    | enter other =>
      cases here
      exact .inl .enter
    | failed other =>
      cases here
      exact .inl .failed
    | again f =>
      cases here
      cases idle
    | early other task => cases held
  | forceReady f point =>
    cases here
    cases idle
  | barrierExit =>
    cases here
    exact .inr ⟨rfl, rfl⟩
  | user | peekReq scan | exitLeft | exitRight | finished => cases here

theorem Searching.site {site : Site} {pc : Pc} (search : Searching site pc) :
    pc.site = some site ∧ pc.held = none := by
  cases search with
  | recvReq cont | recvReqFor cont | handle cont => rcases cont with rfl | rfl <;> exact ⟨rfl, rfl⟩
  | _ => exact ⟨rfl, rfl⟩

theorem Searching.plain {site : Site} {pc : Pc} (search : Searching site pc) :
    pc ≠ .user ∧ pc.leaving = false := by
  cases search <;> exact ⟨by simp, rfl⟩

/-! ## States without tasks -/

/-- Nobody has a task, and the master is in `RT_barrier`. -/
structure Workless (cfg : Config) (s : State) : Prop where
  reached : (system cfg).Reachable s
  running : s.net.exiting = false
  rested : ∀ u < cfg.numWorkers, (s.workers u).deque = [] ∧ (s.workers u).frames = []
  channels : ∀ v c, s.net.chanTasks v c = none
  search : ∀ u < cfg.numWorkers, Searching (homeSite u) (s.workers u).pc ∨
    u = 0 ∧ (s.workers u).pc = .barrierExit

/-- The worker takes steps: it is not backing off. -/
def Active (cfg : Config) (s : State) (u : ℕ) : Prop :=
  (s.workers u).waitingForTasks = true → cfg.backoff = .off

/-- `RT_barrier` is about to return. -/
def Returning (s : State) : Prop := (s.workers 0).pc = .barrierExit

section States

variable {cfg : Config} {s : State} {u : ℕ}

theorem Workless.refines (idle : Workless cfg s) : Refines cfg s :=
  reachable_refines idle.reached idle.running

/-- Where a worker without a task is: the master in `RT_barrier`, the others in `schedule`. -/
theorem Refines.home (ok : Refines cfg s) (worker : u < cfg.numWorkers)
    (barrier : (s.workers 0).pc.site = some .barrier) (empty : (s.workers u).frames = []) :
    (s.workers u).pc.site = some (homeSite u) := by
  unfold homeSite
  split
  · next master => rw [master, barrier]
  · next other =>
    have siteOk := (ok.loc u worker).site
    simp only [Worker.loc, empty, List.map_nil] at siteOk
    cases here : (s.workers u).pc.site with
    | none => simp [here, SiteOk, other] at siteOk
    | some site =>
      cases site with
      | schedule => rfl
      | barrier => simp [here, SiteOk, other] at siteOk
      | force f => simp [here, SiteOk, other] at siteOk

/-- All tasks that were created have finished, and the master waits for them. -/
theorem workless_of_done (reached : (system cfg).Reachable s)
    (done : s.net.finished.Perm s.net.created)
    (barrier : (s.workers 0).pc.site = some .barrier) : Workless cfg s := by
  -- after `RT_EXIT` the master does not come to a barrier
  have ok : Refines cfg s := by
    refine (reachable_cases reached).resolve_right fun closed => ?_
    cases (closed.leaves 0 cfg.someWorker).way with
    | out gone => rcases gone with here | here | here <;> simp [here, Pc.site] at barrier
    | told other | waits other => exact other rfl
  have none : (s.custody cfg).tasks = 0 := by
    have count := congrArg Multiset.card (Custody.reachable_inv ok.custody).1.created
    simp only [Custody.ids, Multiset.card_add, Multiset.card_map, State.custody,
      Multiset.coe_card] at count
    have same := done.length_eq
    exact Multiset.card_eq_zero.mp (by simp only [State.custody, Multiset.card_add]; omega)
  have tasks {u : ℕ} (worker : u < cfg.numWorkers) : (s.workers u).tasks u = 0 := by
    have part := tasks_le_custody (s := s) worker
    rwa [none, Multiset.le_zero] at part
  have rested {u : ℕ} (worker : u < cfg.numWorkers) : (s.workers u).deque = [] ∧
      (s.workers u).frames = [] ∧ (s.workers u).pc.held = .none := by
    have nothing := tasks worker
    simp only [Worker.tasks, tagsOf, Custody.place] at nothing
    simp only [add_eq_zero, Multiset.map_eq_zero, Multiset.coe_eq_zero,
      List.map_eq_nil_iff, List.append_eq_nil_iff, Option.toList_eq_nil_iff] at nothing
    exact ⟨nothing.1.2, nothing.2, nothing.1.1⟩
  refine ⟨reached, ok.net.running, fun u worker => ⟨(rested worker).1, (rested worker).2.1⟩,
    fun v c => ?_, fun u worker => ?_⟩
  · cases slot : s.net.chanTasks v c with
    | none => rfl
    | some message =>
      obtain ⟨inside, chan, batch, state, some, rfl⟩ := ok.net.slots v c message slot
      have part := tasksIn_le_custody (s := s) inside chan
      rw [none, Multiset.le_zero, slot] at part
      simp [Message.tasksIn, Custody.place, tagsOf, some] at part
  · obtain ⟨-, frames, held⟩ := rested worker
    refine (searching_of_site (ok.home worker barrier frames) (homeSite_isIdle u) held).imp_right ?_
    rintro ⟨site, exit⟩
    refine ⟨?_, exit⟩
    by_contra other
    simp [homeSite, other] at site

end States

/-! ## Steps that wait for nothing -/

section Promptness

variable {cfg : Config} {u v : ℕ} {n : Node} {x : Worker} {req : StealRequest} {o : Oracle}

theorem sendReq_prompt : Prompt (sendReq cfg v req n) := by
  unfold sendReq
  split
  · simp
  · split <;> simp

theorem channelPush_prompt {chan : ℕ} : Prompt (channelPush cfg chan x) :=
  Prompt.bind (by simp) fun _ => by simp

theorem channelPop_prompt : Prompt (channelPop x) := by
  unfold channelPop
  split <;> simp

theorem forgetReq_prompt : Prompt (forgetReq cfg u req x) :=
  Prompt.bind (by simp) fun _ => Prompt.bind (by simp) fun _ => channelPush_prompt

theorem randomVictim_prompt {numWorkers : ℕ} {rand : List ℕ} {victims : BitVec 32} :
    Prompt (randomVictim numWorkers rand victims u) := by
  refine Prompt.ite prompt_pure (Prompt.ite prompt_pure (Prompt.ite prompt_pure
    (Prompt.ite prompt_pure ?_)))
  exact prompt_check.bind fun _ => prompt_check.bind fun _ => prompt_check.bind fun _ =>
    prompt_check.bind fun _ => prompt_pure

theorem nextVictim_prompt {rand : List ℕ} : Prompt (nextVictim cfg rand u x req) := by
  have picks : Prompt (pickVictim cfg rand u x req) := by
    refine Prompt.ite prompt_pure (prompt_check.bind fun _ => prompt_check.bind fun _ => ?_)
    split
    · exact prompt_pure
    · exact randomVictim_prompt.bind fun _ => prompt_pure
  refine picks.bind fun out => Prompt.bind ?_ fun _ => prompt_check.bind fun _ =>
    prompt_check.bind fun _ => prompt_pure
  cases out.1 with
  | some victim => exact prompt_pure
  | none => exact prompt_check.bind fun _ => prompt_check.bind fun _ => prompt_pure

theorem goQuiescent_prompt : Prompt (goQuiescent cfg u req n) := by
  refine Prompt.ite ?_ (sendReq_prompt.bind fun _ => prompt_check.bind fun _ => prompt_pure)
  have detects : Prompt (detectTermination u n.self) :=
    prompt_check.bind fun _ => prompt_check.bind fun _ => prompt_check.bind fun _ => prompt_pure
  exact detects.bind fun _ => forgetReq_prompt.bind fun _ => prompt_pure

theorem declineStealRequest_prompt : Prompt (declineStealRequest cfg o u req n) := by
  refine prompt_check.bind fun _ => Prompt.ite (Prompt.ite (Prompt.ite ?_ goQuiescent_prompt) ?_) ?_
  · exact Prompt.ite (prompt_check.bind fun _ => goQuiescent_prompt)
      (prompt_check.bind fun _ => channelPush_prompt.bind fun _ => prompt_pure)
  · exact nextVictim_prompt.bind fun _ => Prompt.ite sendReq_prompt
      (prompt_check.bind fun _ => forgetReq_prompt.bind fun _ => prompt_pure)
  · exact nextVictim_prompt.bind fun _ => sendReq_prompt

theorem trySendStealRequest_prompt {idle : Bool} :
    Prompt (trySendStealRequest cfg o u idle n) :=
  Prompt.ite (channelPop_prompt.bind fun _ => nextVictim_prompt.bind fun _ =>
    sendReq_prompt.bind fun _ => prompt_pure) prompt_pure

theorem holdOn_prompt : Prompt (holdOn cfg u req x) := by
  refine prompt_check.bind fun _ => Prompt.ite ?_ ?_
  · exact prompt_check.bind fun _ => prompt_pure.bind fun _ => prompt_check.bind fun _ =>
      prompt_pure
  · exact prompt_check.bind fun _ => prompt_pure.bind fun _ => prompt_check.bind fun _ =>
      prompt_pure

end Promptness

/-! ## Declining a request -/

/-- What `decline_steal_request` does with the request of another worker, and with its own:
the request is passed on, starts over, is forgotten or dropped, or the worker concludes that
its subtree has nothing to do. -/
inductive Declines (cfg : Config) (u : ℕ) (req : StealRequest) (n : Node) : Node → Prop where
  | passes {v : ℕ} {req' : StealRequest} (other : req.ID ≠ u)
      (chosen : Chosen cfg u n.self { req with tries := req.tries + 1 } v req') :
      Declines cfg u req n { n with net := n.net.pushRequest v req' }
  | restarts {v : ℕ} {req' : StealRequest} (own : req.ID = u)
      (busy : ¬ (req.state = .idle ∧ ∀ side, n.self.flag side = true)) (away : v ≠ u)
      (chosen : Chosen cfg u n.self
        { req with tries := 0, victims := initVictims cfg.numWorkers } v req') :
      Declines cfg u req n { n with net := n.net.pushRequest v req' }
  | forgets {stack : List ℕ} (own : req.ID = u) (working : req.state = .working) :
      Declines cfg u req n { n with self :=
        { n.self with requested := n.self.requested - 1, channelStack := stack } }
  | drops {stack : List ℕ} {dropped : ℤ} (own : req.ID = u) :
      Declines cfg u req n { n with self :=
        { n.self with channelStack := stack, droppedStealRequests := dropped } }
  | retires {p : ℕ} {inWait : Bool} (own : req.ID = u) (other : u ≠ 0)
      (awake : n.self.waitingForTasks = false) :
      Declines cfg u req n
        { self := { n.self with waitingForTasks := true, inWait := inWait }
          net := n.net.pushRequest p { req with tries := req.tries + 1, state := .failed } }
  | detects {stack : List ℕ} (own : req.ID = u) (master : u = 0) :
      Declines cfg u req n { n with self := { n.self with
        quiescent := true, requested := n.self.requested - 1, channelStack := stack } }

section Declining

variable {cfg : Config} {u v : ℕ} {n n' : Node} {x : Worker} {req : StealRequest} {o : Oracle}

theorem sendReq_sends (unfinished : n.self.taskingFinished = false) :
    Ensures (fun _ => True) (sendReq cfg v req n) fun n' =>
      n' = { n with net := n.net.pushRequest v req } := by
  simp only [sendReq, ensures_ite, ensures_pure, implies_true, true_and, unfinished]
  exact fun _ => ⟨fun wrong => absurd wrong (by simp), fun _ => trivial⟩

theorem forgetReq_forgets : Ensures (fun _ => True) (forgetReq cfg u req x) fun x' =>
    ∃ stack, x' = { x with requested := x.requested - 1, channelStack := stack } := by
  simp only [forgetReq, channelPush, ensures_bind, ensures_check, ensures_pure, implies_true,
    and_true]
  exact fun _ _ _ => ⟨_, rfl⟩

theorem goQuiescent_declines (own : req.ID = u) (unfinished : n.self.taskingFinished = false) :
    Ensures (fun _ => True) (goQuiescent cfg u { req with tries := req.tries + 1 } n)
      (Declines cfg u req n) := by
  simp only [goQuiescent, ensures_ite]
  refine ⟨fun master => ?_, fun other => ?_⟩
  · simp only [detectTermination, ensures_bind, ensures_check, ensures_pure, implies_true, and_true]
    refine fun _ _ _ => forgetReq_forgets.mono ?_
    rintro x ⟨stack, rfl⟩
    exact .detects own master
  · simp only [ensures_bind]
    refine (sendReq_sends unfinished).mono ?_
    rintro n' rfl
    simp only [ensures_check, ensures_pure, implies_true, and_true]
    exact fun awake => .retires own other (by simpa using awake)

theorem declineStealRequest_declines (few : cfg.numWorkers ≤ 32) (worker : u < cfg.numWorkers)
    (inHand : InHand cfg u req) (unfinished : n.self.taskingFinished = false) :
    Ensures (fun _ => True) (declineStealRequest cfg o u req n) (Declines cfg u req n) := by
  simp only [declineStealRequest, ensures_bind, ensures_check, implies_true, and_true]
  intro _
  split
  · next own =>
    split
    · simp only [ensures_ite, ensures_bind, ensures_check, ensures_pure, implies_true, and_true]
      refine ⟨fun _ => ⟨fun _ _ => goQuiescent_declines own unfinished, fun _ _ => ?_⟩,
        fun _ => goQuiescent_declines own unfinished⟩
      simp only [channelPush, ensures_bind, ensures_check, ensures_pure, implies_true, and_true]
      exact fun _ => .drops own
    · next busy =>
      have call := @call_own cfg u { req with tries := req.tries + 1 } few worker own
      rw [ensures_bind]
      refine ((nextVictim_spec call).weaken fun _ => False.elim).mono ?_
      rintro ⟨v, req'⟩ chosen
      dsimp only at chosen
      split
      · next away =>
        refine (sendReq_sends unfinished).mono ?_
        rintro n' rfl
        refine .restarts own (fun idle => busy ?_) away chosen
        exact ⟨idle.1, idle.2 .left, idle.2 .right⟩
      · simp only [ensures_bind, ensures_check, ensures_pure, implies_true, and_true]
        refine fun working => forgetReq_forgets.mono ?_
        rintro x ⟨stack, rfl⟩
        obtain ⟨victims, rfl⟩ := chosen.same
        exact .forgets own working
  · next other =>
    rw [ensures_bind]
    refine ((nextVictim_spec (inHand.call worker other)).weaken fun _ => False.elim).mono ?_
    rintro ⟨v, req'⟩ chosen
    refine (sendReq_sends unfinished).mono ?_
    rintro n' rfl
    exact .passes other chosen

end Declining

/-! ## Steps of the loop -/

/-- The channels worker `u` may take requests from: its own, and those of workers it knows to
be idle. -/
def region (cfg : Config) (u : ℕ) (x : Worker) : List ℕ := u :: onBehalf cfg u x

/-- A step of worker `u` that changes more than its program point. -/
inductive SearchEvent (cfg : Config) (u : ℕ) (n n' : Node) : Prop where
  /-- `RT_barrier` is about to return. -/
  | leaves (master : u = 0) (here : n'.self.pc = .barrierExit)
  /-- It holds on to the last request of a child. -/
  | adopts {side : Side} {req : StealRequest} {rest : List StealRequest}
      (first : n.net.chanRequests u = req :: rest) (failed : req.state = .failed)
      (before : n.self.flag side = false)
      (flags : ∀ other, n'.self.flag other = true ↔ other = side ∨ n.self.flag other = true)
      (queue : n'.self.workSharingRequests = n.self.workSharingRequests ++ [req])
      (requested : n'.self.requested = n.self.requested)
      (waiting : n'.self.waitingForTasks = n.self.waitingForTasks)
      (free : n.self.pc.hand = none) (here : n'.self.pc.hand = none)
      (settled : n'.self.pc.settled = n.self.pc.settled)
      (after : n'.net = n.net.dropRequest u)
  | takes {i : ℕ} {req taken : StealRequest} {rest : List StealRequest} {k : ReqCont}
      (mine : i ∈ region cfg u n.self) (first : n.net.chanRequests i = req :: rest)
      (live : req.state ≠ .failed) (same : ∃ state, taken = { req with state := state })
      (free : n.self.pc.hand = none) (marked : (Pc.handle k taken).unmarked u = false)
      (settled : (Pc.handle k taken).settled = n.self.pc.settled)
      (after : n' = Node.goto { n with net := n.net.dropRequest i } (.handle k taken))
  | handles {req : StealRequest} {n₁ : Node} {pc : Pc} (hand : n.self.pc.hand = some req)
      (declines : Declines cfg u req n n₁) (after : n' = n₁.goto pc) (free : pc.hand = none)
      (settled : pc.settled = n.self.pc.settled)
      (loud : pc.settled = true → u = 0 → n₁.self.quiescent = false)
  | sends {v : ℕ} {req : StealRequest} (target : v < cfg.numWorkers) (own : req.ID = u)
      (keeps : Keeps n.self n'.self) (room : n.self.requested < cfg.maxSteal)
      (requested : n'.self.requested = n.self.requested + 1)
      (waiting : n'.self.waitingForTasks = n.self.waitingForTasks)
      (free : n.self.pc.hand = none) (here : n'.self.pc.hand = none)
      (settled : n'.self.pc.settled = true) (after : n'.net = n.net.pushRequest v req)
  /-- It enters the loop without another request. -/
  | enters {pc : Pc} (free : n.self.pc.hand = none) (here : pc.hand = none)
      (before : n.self.pc.settled = false) (settled : pc.settled = true) (after : n' = n.goto pc)

/-- What steps of the loop leave as it is. -/
structure StaysIdle (site : Site) (n n' : Node) : Prop where
  deque : n'.self.deque = n.self.deque
  frames : n'.self.frames = n.self.frames
  tasks : n'.net.chanTasks = n.net.chanTasks
  running : n'.net.exiting = n.net.exiting
  search : Searching site n'.self.pc ∨ site = .barrier ∧ n'.self.pc = .barrierExit

/-- What a worker without a task relies on in a step. -/
structure Searches (cfg : Config) (u : ℕ) (n : Node) : Prop where
  worker : u < cfg.numWorkers
  deque : n.self.deque = []
  frames : n.self.frames = []
  channels : ∀ v c, n.net.chanTasks v c = none
  fit : WorkerFit cfg u n.self
  unfinished : n.self.taskingFinished = false
  active : n.self.waitingForTasks = true → cfg.backoff = .off
  awake : n.self.inWait = false

section Steps

variable {cfg : Config} {u : ℕ} {n n' : Node} {site : Site} {k : ReqCont} {c : Choice}
  {req : StealRequest} {rest : List StealRequest} {i : ℕ}

theorem Searching.goes {pc : Pc} (search : Searching site pc) : StaysIdle site n (n.goto pc) :=
  ⟨rfl, rfl, rfl, rfl, .inl search⟩

theorem Searches.pop (idle : Searches cfg u n) (here : n.self.pc = .pop site) :
    wstep cfg u c n = .ok (n.goto (.shareWork (.pop site none))) := by
  simp only [wstep, here, popStep, dequePop, Node.goto, idle.deque]
  rfl

theorem Searches.shareRound (idle : Searches cfg u n) {o : Oracle} :
    shareRound cfg o u n = .ok (false, n) ∨
      ∃ which, shareRound cfg o u n = .error (.fault which) := by
  unfold Runtime.shareRound
  split
  · exact .inl rfl
  · next req rest queue =>
    have failed := (idle.fit.holds.queue req (by simp [queue])).1
    simp only [Runtime.handle, idle.deque, Worker.currentTask, idle.frames, failed, ne_eq,
      not_true_eq_false, ↓reduceIte, List.head?_nil, Option.map_none, Option.filter_none]
    by_cases child : isChild cfg u req.ID
    · simp only [child, check, ↓reduceIte]
      exact .inl rfl
    · simp only [child, check, Bool.false_eq_true, ↓reduceIte]
      exact .inr ⟨_, rfl⟩

theorem Searches.share (idle : Searches cfg u n) (here : n.self.pc = .shareWork (.pop site none)) :
    wstep cfg u c n = .ok (n.goto (.recvReq (.pop site none))) ∨
      ∃ which, wstep cfg u c n = .error (.fault which) := by
  simp only [wstep, here, shareStep]
  rcases idle.shareRound with shared | ⟨which, failed⟩
  · rw [shared]
    exact .inl rfl
  · rw [failed]
    exact .inr ⟨which, rfl⟩

theorem homeSite_barrier (barrier : homeSite u = .barrier) : u = 0 := by
  by_contra other
  simp [homeSite, other] at barrier

/-- The worker has looked into all the channels: it enters the loop, goes on in it, or
leaves it. -/
theorem SearchCont.noRequest (cont : SearchCont (homeSite u) k) :
    (k = .pop (homeSite u) none ∧ noRequest cfg k n = n.goto (.trySend (.enter (homeSite u)))) ∨
    (k = .declineAll (homeSite u) ∧ noRequest cfg k n = n.goto (.recvTask (homeSite u) 0)) ∨
    (u = 0 ∧ (noRequest cfg k n).self.pc = .barrierExit ∧
      StaysIdle (homeSite u) n (noRequest cfg k n)) := by
  rcases cont with rfl | rfl
  · have shape : Runtime.noRequest cfg (.pop (homeSite u) none) n = popFailed cfg (homeSite u) n :=
      rfl
    rw [shape]
    unfold popFailed
    split
    · next site => exact .inl ⟨rfl, by rw [site]⟩
    · next barrier =>
      have leaves {n' : Node} (here : n'.self.pc = .barrierExit)
          (deque : n'.self.deque = n.self.deque) (frames : n'.self.frames = n.self.frames)
          (net : n'.net = n.net) :
          u = 0 ∧ n'.self.pc = .barrierExit ∧ StaysIdle (homeSite u) n n' :=
        ⟨homeSite_barrier barrier, here, deque, frames, by rw [net], by rw [net],
          .inr ⟨barrier, here⟩⟩
      split
      · exact .inr (.inr (leaves rfl rfl rfl rfl))
      · split
        · exact .inr (.inr (leaves rfl rfl rfl rfl))
        · exact .inl ⟨rfl, by rw [barrier]⟩
    · next force =>
      have idle := homeSite_isIdle u
      rw [force] at idle
      cases idle
  · have shape : Runtime.noRequest cfg (.declineAll (homeSite u)) n = declined (homeSite u) n := rfl
    rw [shape]
    unfold declined
    split
    · next quiescent =>
      exact .inr (.inr ⟨homeSite_barrier quiescent.1, rfl, rfl, rfl, rfl, rfl,
        .inr ⟨quiescent.1, rfl⟩⟩)
    · exact .inr (.inl ⟨rfl, rfl⟩)

theorem SearchCont.settled_handle (cont : SearchCont site k) :
    (Pc.handle k req).settled = (Pc.recvReq k).settled := by
  rcases cont with rfl | rfl <;> rfl

theorem SearchCont.settled_scan (cont : SearchCont site k) {scan : List ℕ} :
    (Pc.recvReqFor k scan).settled = (Pc.recvReq k).settled := by
  rcases cont with rfl | rfl <;> rfl

theorem SearchCont.takes (cont : SearchCont site k) (mine : i ∈ region cfg u n.self)
    (first : n.net.chanRequests i = req :: rest) (live : req.state ≠ .failed)
    (free : n.self.pc.hand = none) (settled : n.self.pc.settled = (Pc.recvReq k).settled) :
    StaysIdle site n (received u k req { n with net := n.net.dropRequest i }) ∧
      SearchEvent cfg u n (received u k req { n with net := n.net.dropRequest i }) := by
  have quiet (taken : StealRequest) :
      StaysIdle site n (Node.goto { n with net := n.net.dropRequest i } (.handle k taken)) :=
    ⟨rfl, rfl, rfl, rfl, .inl (.handle cont)⟩
  have event (taken : StealRequest) (same : ∃ state, taken = { req with state := state })
      (marked : (Pc.handle k taken).unmarked u = false) :
      SearchEvent cfg u n (Node.goto { n with net := n.net.dropRequest i } (.handle k taken)) :=
    .takes mine first live same free marked (cont.settled_handle.trans settled.symm) rfl
  rcases cont with rfl | rfl
  · exact ⟨quiet req, event req ⟨req.state, rfl⟩ rfl⟩
  · simp only [received]
    split
    · exact ⟨quiet _, event _ ⟨.idle, rfl⟩ (by simp [Pc.unmarked])⟩
    · next told =>
      refine ⟨quiet req, event req ⟨req.state, rfl⟩ ?_⟩
      simp only [Pc.unmarked, decide_eq_false_iff_not, not_and, not_not]
      intro own
      cases state : req.state with
      | working => exact absurd ⟨own, state⟩ told
      | idle => rfl
      | failed => exact absurd state live

theorem SearchCont.adopts (cont : SearchCont site k)
    (here : n.self.pc = .recvReq k) (first : n.net.chanRequests u = req :: rest)
    (failed : req.state = .failed) :
    Ensures (fun _ => True) (holdOn cfg u req n.self) fun x =>
      StaysIdle site n ⟨x, n.net.dropRequest u⟩ ∧ SearchEvent cfg u n ⟨x, n.net.dropRequest u⟩ := by
  have free : n.self.pc.hand = none := by rw [here]; rfl
  have search : Searching site n.self.pc := by
    rw [here]
    exact .recvReq cont
  simp only [holdOn, ensures_bind, ensures_ite, ensures_check, ensures_pure, implies_true, and_true]
  refine fun _ => ⟨fun _ flag _ => ⟨⟨rfl, rfl, rfl, rfl, .inl search⟩, ?_⟩,
    fun _ flag _ => ⟨⟨rfl, rfl, rfl, rfl, .inl search⟩, ?_⟩⟩
  · have before : n.self.flag .left = false := by simpa [Worker.flag] using flag
    refine .adopts first failed before (fun other => ?_) rfl rfl rfl free free rfl rfl
    cases other <;> simp [Worker.flag]
  · have before : n.self.flag .right = false := by simpa [Worker.flag] using flag
    refine .adopts first failed before (fun other => ?_) rfl rfl rfl free free rfl rfl
    cases other <;> simp [Worker.flag]

/-- `RECV_REQ` finds a request in the worker's own channel. -/
theorem SearchCont.recvReq (cont : SearchCont site k)
    (here : n.self.pc = .recvReq k) (first : n.net.chanRequests u = req :: rest) :
    Ensures (fun _ => True) (wstep cfg u c n) fun n' =>
      StaysIdle site n n' ∧ SearchEvent cfg u n n' := by
  simp only [wstep, here, recvReqStep, first, ensures_ite, ensures_bind, ensures_pure]
  refine ⟨fun failed => cont.adopts here first failed, fun live => ?_⟩
  have free : n.self.pc.hand = none := by rw [here]; rfl
  exact cont.takes List.mem_cons_self first live free (by rw [here])

theorem mem_onBehalf {x : Worker} (inside : i < cfg.numWorkers) (seen : x.SeesIdle u i) :
    i ∈ onBehalf cfg u x := by
  obtain ⟨side, flag, below⟩ := seen
  have above := subtree_le below
  have walked : i ∈ levelWalk cfg.numWorkers cfg.numWorkers (child u side) 0 :=
    (mem_levelWalk (by omega)).mpr ⟨inside, below⟩
  simp only [onBehalf, List.mem_append]
  cases side with
  | left =>
    have exist := (leftChild_eq_some (c := child u .left) cfg.someWorker).mpr ⟨rfl, by omega⟩
    rw [show cfg.leftChild u = some (child u .left) from exist]
    exact .inl (by simpa only [show x.leftSubtreeIsIdle = true from flag, if_true] using walked)
  | right =>
    have exist := (rightChild_eq_some (c := child u .right) cfg.someWorker).mpr ⟨rfl, by omega⟩
    rw [show cfg.rightChild u = some (child u .right) from exist]
    exact .inr (by simpa only [show x.rightSubtreeIsIdle = true from flag, if_true] using walked)

/-- `RECV_REQ` finds a request in the channel of a worker that has backed off. -/
theorem Searches.recvReqFor (idle : Searches cfg u n) (cont : SearchCont site k) {scan : List ℕ}
    (here : n.self.pc = .recvReqFor k (i :: scan)) (first : n.net.chanRequests i = req :: rest)
    (live : req.state ≠ .failed) :
    Ensures (fun _ => True) (wstep cfg u c n) fun n' =>
      StaysIdle site n n' ∧ SearchEvent cfg u n n' := by
  have scanOk := idle.fit.scan
  rw [here] at scanOk
  obtain ⟨inside, side, flag, -, below⟩ := scanOk i List.mem_cons_self
  have mine : i ∈ region cfg u n.self :=
    List.mem_cons_of_mem _ (mem_onBehalf inside ⟨side, flag, below⟩)
  have free : n.self.pc.hand = none := by rw [here]; rfl
  simp only [wstep, here, recvReqForStep, first, ensures_pure]
  exact cont.takes mine first live free (by rw [here, cont.settled_scan])

theorem Searches.handle (idle : Searches cfg u n) (few : cfg.numWorkers ≤ 32)
    (cont : SearchCont (homeSite u) k) (here : n.self.pc = .handle k req) :
    Ensures (fun _ => True) (wstep cfg u c n) fun n' =>
      StaysIdle (homeSite u) n n' ∧ SearchEvent cfg u n n' := by
  have hand : n.self.pc.hand = some req := by rw [here]; rfl
  have inHand := idle.fit.hand req hand
  have declines := declineStealRequest_declines (o := c.oracle) few idle.worker inHand
    idle.unfinished
  have kept {n₁ : Node} (declines : Declines cfg u req n n₁) : n₁.self.deque = n.self.deque ∧
      n₁.self.frames = n.self.frames ∧ n₁.net.chanTasks = n.net.chanTasks ∧
      n₁.net.exiting = n.net.exiting := by
    cases declines <;> exact ⟨rfl, rfl, rfl, rfl⟩
  rcases cont with rfl | rfl
  · have settled : n.self.pc.settled = false := by rw [here]; rfl
    simp only [wstep, here, handleStep, popHandle, idle.deque, ↓reduceIte, Option.filter_none,
      ensures_bind, ensures_pure]
    suffices handled : Ensures (fun _ => True) (handleStealRequest cfg c.oracle u req n)
        (Declines cfg u req n) by
      refine handled.mono fun n₁ declined => ?_
      obtain ⟨deque, frames, tasks, running⟩ := kept declined
      exact ⟨⟨deque, frames, tasks, running, .inl (.recvReq (.inl rfl))⟩,
        .handles hand declined rfl rfl settled.symm
          fun wrong => absurd wrong (by simp [Pc.settled])⟩
    simp only [handleStealRequest, idle.deque, tasksLeft, Worker.currentTask, idle.frames,
      List.length_nil, not_lt_zero, List.head?_nil, Option.map_none, false_or, ensures_ite,
      ensures_bind, ensures_check, implies_true, and_true]
    refine ⟨fun _ _ => ⟨fun wrong => absurd wrong (by omega), fun _ => declines⟩, fun _ => ?_⟩
    exact ⟨fun _ => declines, fun wrong => absurd trivial wrong⟩
  · have settled : n.self.pc.settled = true := by rw [here]; rfl
    simp only [wstep, here, handleStep, ensures_bind, ensures_pure]
    refine declines.mono fun n₁ declined => ?_
    obtain ⟨deque, frames, tasks, running⟩ := kept declined
    unfold Runtime.declined
    split
    · next quiescent =>
      exact ⟨⟨deque, frames, tasks, running, .inr ⟨quiescent.1, rfl⟩⟩,
        .leaves (homeSite_barrier quiescent.1) rfl⟩
    · next loud =>
      refine ⟨⟨deque, frames, tasks, running, .inl .recvTask⟩,
        .handles hand declined rfl rfl settled.symm fun _ master => ?_⟩
      simpa [homeSite, master] using loud

/-- What `try_send_steal_request` leaves as it is. -/
structure OnlySends (n n' : Node) : Prop where
  deque : n'.self.deque = n.self.deque
  frames : n'.self.frames = n.self.frames
  waiting : n'.self.waitingForTasks = n.self.waitingForTasks
  keeps : Keeps n.self n'.self
  tasks : n'.net.chanTasks = n.net.chanTasks
  running : n'.net.exiting = n.net.exiting

theorem OnlySends.refl : OnlySends n n := ⟨rfl, rfl, rfl, .refl, rfl, rfl⟩

/-- `try_send_steal_request` sends a request, or all are under way. -/
theorem Searches.trySend (idle : Searches cfg u n) (few : cfg.numWorkers ≤ 32) {o : Oracle} :
    Ensures (fun _ => True) (trySendStealRequest cfg o u true n) fun n' =>
      OnlySends n n' ∧
        if n.self.requested < cfg.maxSteal then
          n'.self.requested = n.self.requested + 1 ∧
            ∃ v < cfg.numWorkers, ∃ req : StealRequest, req.ID = u ∧
              n'.net = n.net.pushRequest v req
        else n' = n := by
  rw [trySendStealRequest]
  split
  · next room =>
    -- the request is made by a worker that has updated its statistics and taken a channel
    have adapted : ∃ half steals checkpoint, adaptStrategy cfg n.self =
        { n.self with stealhalf := half, numRecentSteals := steals, checkpoint := checkpoint } := by
      unfold adaptStrategy
      split <;> exact ⟨_, _, _, rfl⟩
    obtain ⟨half, steals, checkpoint, adapted⟩ := adapted
    simp only [adapted, channelPop]
    split
    · trivial
    · next chan stack free =>
      simp only [ensures_bind, ensures_pure]
      have call := @call_own cfg u ⟨chan, u, 0, initVictims cfg.numWorkers, .idle, half⟩ few
        idle.worker rfl
      refine ((nextVictim_spec call).weaken fun _ => False.elim).mono ?_
      rintro ⟨v, req⟩ chosen
      refine (sendReq_sends (by exact idle.unfinished)).mono ?_
      rintro n' rfl
      obtain ⟨victims, rfl⟩ := chosen.same
      exact ⟨⟨rfl, rfl, rfl, .of_flags rfl rfl rfl, rfl, rfl⟩, rfl, v, chosen.target, _, rfl, rfl⟩
  · exact ⟨.refl, rfl⟩

/-- The first request is sent before the loop. -/
theorem Searches.enter (idle : Searches cfg u n) (few : cfg.numWorkers ≤ 32)
    (siteIdle : site.isIdle = true) (here : n.self.pc = .trySend (.enter site)) :
    Ensures (fun _ => True) (wstep cfg u c n) fun n' =>
      StaysIdle site n n' ∧ SearchEvent cfg u n n' := by
  have free : n.self.pc.hand = none := by rw [here]; rfl
  simp only [wstep, here, sendStep, siteIdle, ↓reduceIte, ensures_bind, ensures_check, ensures_pure,
    implies_true, and_true]
  refine (idle.trySend few).mono ?_
  rintro n₁ ⟨same, effect⟩ -
  refine ⟨⟨same.deque, same.frames, same.tasks, same.running, .inl .recvTask⟩, ?_⟩
  split at effect
  · next room =>
    obtain ⟨requested, v, target, req, own, net⟩ := effect
    exact .sends target own (same.keeps.trans .goto) room requested same.waiting free rfl rfl net
  · subst effect
    have before : n₁.self.pc.settled = false := by rw [here]; rfl
    exact .enters free rfl before rfl rfl

/-- A worker that received no task sends another request if it may, and goes on to decline
those of the others. -/
theorem Searches.failed (idle : Searches cfg u n) (few : cfg.numWorkers ≤ 32)
    (siteIdle : site.isIdle = true) (here : n.self.pc = .trySend (.failed site)) :
    Ensures (fun _ => True) (wstep cfg u c n) fun n' =>
      (n.self.requested < cfg.maxSteal → StaysIdle site n n' ∧ SearchEvent cfg u n n') ∧
        (¬ n.self.requested < cfg.maxSteal → n' = n.goto (.recvReq (.declineAll site))) := by
  have free : n.self.pc.hand = none := by rw [here]; rfl
  simp only [wstep, here, sendStep, siteIdle, ensures_bind]
  refine (idle.trySend few).mono ?_
  rintro n₁ ⟨same, effect⟩
  have missing : Ensures (fun _ => True) (taskMissing cfg site n₁) fun n' =>
      n' = n₁.goto (.recvReq (.declineAll site)) := by
    unfold taskMissing
    split
    · cases siteIdle
    · simp only [ensures_bind, ensures_check, ensures_ite, ensures_pure, implies_true, and_true]
      intro _ _ sleeps
      have off := idle.active (same.waiting ▸ sleeps.2)
      exact absurd (sleeps.1.symm.trans off) (by simp)
    · simp only [reduceCtorEq, and_false, ↓reduceIte, ensures_bind, ensures_check, ensures_pure,
        implies_true, and_true]
  refine missing.mono ?_
  rintro n' rfl
  refine ⟨fun room => ?_, fun full => ?_⟩
  · rw [if_pos room] at effect
    obtain ⟨requested, v, target, req, own, net⟩ := effect
    refine ⟨⟨same.deque, same.frames, same.tasks, same.running, .inl (.recvReq (.inr rfl))⟩, ?_⟩
    exact .sends target own (same.keeps.trans .goto) room requested same.waiting free rfl rfl net
  · rw [if_neg full] at effect
    rw [effect]

theorem Searches.recvTask (idle : Searches cfg u n) (here : n.self.pc = .recvTask site i) :
    wstep cfg u c n = .ok (if i + 1 < cfg.maxSteal then n.goto (.recvTask site (i + 1))
      else n.goto (.trySend (.failed site))) := by
  simp only [wstep, here, recvTaskStep, idle.awake, idle.channels, Bool.false_eq_true, ↓reduceIte]
  split <;> rfl

/-- No step of the loop waits for anything, as long as the worker is not in `WAIT`. -/
theorem Searches.prompt (idle : Searches cfg u n) (search : Searching (homeSite u) n.self.pc) :
    Prompt (wstep cfg u c n) := by
  have handled (req : StealRequest) : Prompt (handleStealRequest cfg c.oracle u req n) := by
    refine Prompt.ite (prompt_check.bind fun _ => Prompt.ite ?_ declineStealRequest_prompt)
      (Prompt.ite declineStealRequest_prompt prompt_pure)
    exact forgetReq_prompt.bind fun _ => prompt_pure
  obtain ⟨pc, here⟩ : ∃ pc, n.self.pc = pc := ⟨_, rfl⟩
  rw [here] at search
  cases search with
  | pop =>
    rw [idle.pop here]
    exact prompt_ok
  | recvTask =>
    rw [idle.recvTask here]
    exact prompt_ok
  | share =>
    rcases idle.share here with shared | ⟨which, failed⟩
    · rw [shared]
      exact prompt_ok
    · rw [failed]
      exact prompt_fault
  | recvReq cont =>
    simp only [wstep, here, recvReqStep]
    split
    · exact Prompt.ite (holdOn_prompt.bind fun _ => prompt_pure) prompt_pure
    · exact Prompt.ite prompt_pure prompt_pure
  | recvReqFor cont =>
    simp only [wstep, here]
    exact prompt_pure
  | handle cont =>
    rcases cont with rfl | rfl
    · simp only [wstep, here, handleStep, popHandle, idle.deque, ↓reduceIte, Option.filter_none]
      exact (handled _).bind fun _ => prompt_pure
    · simp only [wstep, here, handleStep]
      exact declineStealRequest_prompt.bind fun _ => prompt_pure
  | enter =>
    simp only [wstep, here, sendStep]
    exact trySendStealRequest_prompt.bind fun _ => Prompt.ite
      (prompt_check.bind fun _ => prompt_pure) prompt_pure
  | failed =>
    simp only [wstep, here, sendStep]
    refine trySendStealRequest_prompt.bind fun _ => ?_
    unfold taskMissing
    split
    · exact prompt_pure
    · exact prompt_check.bind fun _ => prompt_check.bind fun _ => Prompt.ite prompt_pure prompt_pure
    · exact prompt_check.bind fun _ => prompt_check.bind fun _ => Prompt.ite prompt_pure prompt_pure

end Steps

/-! ## Steps of a state -/

section Moves

variable {cfg : Config} {s : State} {u : ℕ} {n' : Node} {c : Choice}

theorem Workless.searches (idle : Workless cfg s) (few : cfg.numWorkers ≤ 32)
    (worker : u < cfg.numWorkers) (active : Active cfg s u) : Searches cfg u (s.node u) where
  worker := worker
  deque := (idle.rested u worker).1
  frames := (idle.rested u worker).2
  channels := idle.channels
  fit := (reachable_fit few idle.reached).workers u worker
  unfinished := (idle.refines.loc u worker).unfinished
  active := active
  awake := by
    by_contra asleep
    obtain ⟨waiting, backoff, -⟩ :=
      (idle.refines.loc u worker).in_wait (Bool.not_eq_false _ ▸ asleep)
    exact absurd ((active waiting).symm.trans backoff) (by simp)

/-- No assertion fails in the loop. -/
theorem Workless.sound (idle : Workless cfg s) (few : cfg.numWorkers ≤ 32)
    (worker : u < cfg.numWorkers) (search : Searching (homeSite u) (s.workers u).pc)
    (which : Fault) :
    wstep cfg u c (s.node u) ≠ .error (.fault which) := by
  intro fault
  have marked : s.net.Marked cfg := by
    intro _ owner chan t rest state slot
    rw [idle.channels] at slot
    cases slot
  have slices : (s.workers u).Sliceable := by
    have nothing : (s.workers u).currentTask = none := by
      rw [Worker.currentTask, (idle.rested u worker).2]
      rfl
    have none : (s.workers u).splits = none := by
      unfold Worker.splits
      split
      · next site task req here =>
        rw [here] at search
        exact search.site.2
      · exact nothing
    intro t splits
    rw [none] at splits
    cases splits
  have routine : Ensures Routine (wstep cfg u c (s.node u)) fun n' => n'.net.Marked cfg :=
    wstep_routine marked slices search.plain.2 fun user => absurd user search.plain.1
  exact no_routineFault few idle.reached idle.running (routine.tolerates fault)
    ⟨u, worker, c, fault⟩

/-- A worker in the loop can take a step. -/
theorem Workless.moves (idle : Workless cfg s) (few : cfg.numWorkers ≤ 32)
    (worker : u < cfg.numWorkers) (active : Active cfg s u)
    (search : Searching (homeSite u) (s.workers u).pc) {post : Node → Prop}
    (step : Ensures (fun _ => True) (wstep cfg u c (s.node u)) post) :
    ∃ n', wstep cfg u c (s.node u) = .ok n' ∧ post n' :=
  (step.returns ((idle.searches few worker active).prompt search)
    (idle.sound few worker search)).exists_ok

/-- After a step of the loop nobody has a task, either. -/
theorem Workless.put (idle : Workless cfg s) (worker : u < cfg.numWorkers)
    (moved : wstep cfg u c (s.node u) = .ok n') (quiet : StaysIdle (homeSite u) (s.node u) n') :
    Workless cfg (s.put u n') where
  reached := idle.reached.tail ⟨u, worker, c, n', moved, rfl⟩
  running := quiet.running.trans idle.running
  rested v inside := by
    by_cases same : v = u
    · subst same
      simp only [State.put, update_self]
      obtain ⟨deque, frames⟩ := idle.rested v inside
      exact ⟨quiet.deque.trans deque, quiet.frames.trans frames⟩
    · simpa only [State.put, update_of_ne same] using idle.rested v inside
  channels v c := by
    simp only [State.put, quiet.tasks]
    exact idle.channels v c
  search v inside := by
    by_cases same : v = u
    · subst same
      simp only [State.put, update_self]
      exact quiet.search.imp_right fun exit => ⟨homeSite_barrier exit.1, exit.2⟩
    · simpa only [State.put, update_of_ne same] using idle.search v inside

end Moves

/-! ## Going on -/

/-- The state with worker `u` at another program point. -/
def State.at (s : State) (u : ℕ) (pc : Pc) : State := s.put u ((s.node u).goto pc)

/-- Worker `u` gets to another program point without an event. -/
structure Gets (cfg : Config) (s : State) (u : ℕ) (pc : Pc) : Prop where
  run : Relation.ReflTransGen (system cfg).step s (s.at u pc)
  idle : Workless cfg (s.at u pc)
  search : Searching (homeSite u) pc

/-- Worker `u` gets to an event. -/
def Acts (cfg : Config) (s : State) (u : ℕ) : Prop :=
  ∃ n', Relation.ReflTransGen (system cfg).step s (s.put u n') ∧ Workless cfg (s.put u n') ∧
    SearchEvent cfg u (s.node u) n'

/-- A worker that has no event ahead: its requests are all under way, and the channels it
looks after are empty. -/
structure Drained (cfg : Config) (s : State) (u : ℕ) : Prop where
  settled : (s.workers u).pc.settled = true
  free : (s.workers u).pc.hand = none
  full : ¬ (s.workers u).requested < cfg.maxSteal
  own : s.net.chanRequests u = []
  behalf : cfg.backoff ≠ .off → ∀ i ∈ onBehalf cfg u (s.workers u), s.net.chanRequests i = []

section Going

variable {cfg : Config} {s : State} {u : ℕ} {pc pc' : Pc} {k : ReqCont}

theorem node_at : (s.at u pc).node u = (s.node u).goto pc := by
  simp [State.at, State.node, State.put, Node.goto]

theorem put_at {n' : Node} : (s.at u pc).put u n' = s.put u n' := by
  simp [State.at, State.put]

theorem at_self : s.at u (s.workers u).pc = s := by
  simp [State.at, State.put, State.node, Node.goto]

theorem Active.goes (active : Active cfg s u) : Active cfg (s.at u pc) u := by
  simpa [Active, State.at, State.put, State.node, Node.goto] using active

/-- An event of a worker with nothing in its hand does not depend on the program point, as
long as it is in the same part of the loop. -/
theorem SearchEvent.earlier {n n' : Node} (event : SearchEvent cfg u (n.goto pc) n')
    (here : pc.hand = none) (free : n.self.pc.hand = none)
    (settled : pc.settled = n.self.pc.settled) : SearchEvent cfg u n n' := by
  cases event with
  | leaves master exit => exact .leaves master exit
  | adopts first failed before flags queue requested waiting _ here settled' after =>
    exact .adopts first failed before flags queue requested waiting free here
      (settled'.trans settled) after
  | takes mine first live same _ marked settled' after =>
    exact .takes mine first live same free marked (settled'.trans settled) after
  | handles hand => exact absurd (here.symm.trans hand) (by simp)
  | sends target own keeps room requested waiting _ here settled' after =>
    exact .sends target own ⟨keeps.queue, keeps.flags⟩ room requested waiting free here settled'
      after
  | enters _ here before settled' after =>
    exact .enters free here (settled.symm.trans before) settled' after

theorem Gets.start (idle : Workless cfg s) (search : Searching (homeSite u) (s.workers u).pc) :
    Gets cfg s u (s.workers u).pc := by
  refine ⟨?_, ?_, search⟩
  · rw [at_self]
  · rwa [at_self]

section Rules

variable (few : cfg.numWorkers ≤ 32) (worker : u < cfg.numWorkers) (active : Active cfg s u)
  {c : Choice}
include few worker active

theorem Gets.searches (gets : Gets cfg s u pc) : Searches cfg u ((s.node u).goto pc) := by
  have searches := gets.idle.searches few worker active.goes
  rwa [node_at] at searches

theorem Gets.next (gets : Gets cfg s u pc)
    (step : Ensures (fun _ => True) (wstep cfg u c ((s.node u).goto pc)) fun n' =>
      n' = (s.node u).goto pc') (search : Searching (homeSite u) pc') : Gets cfg s u pc' := by
  have here : Searching (homeSite u) ((s.at u pc).workers u).pc := by
    simpa [State.at, State.put, Node.goto] using gets.search
  rw [← node_at] at step
  obtain ⟨n', moved, rfl⟩ := gets.idle.moves few worker active.goes here step
  have quiet : StaysIdle (homeSite u) ((s.at u pc).node u) ((s.node u).goto pc') := by
    rw [node_at]
    exact search.goes
  have idle := gets.idle.put worker moved quiet
  rw [put_at] at idle
  exact ⟨gets.run.tail ⟨u, worker, c, _, moved, put_at.symm⟩, idle, search⟩

theorem Gets.goes (gets : Gets cfg s u pc)
    (step : wstep cfg u c ((s.node u).goto pc) = .ok ((s.node u).goto pc'))
    (search : Searching (homeSite u) pc') : Gets cfg s u pc' := by
  refine gets.next few worker active (c := c) ?_ search
  rw [step]
  rfl

theorem Gets.acts (gets : Gets cfg s u pc) (free : (s.workers u).pc.hand = none)
    (here : pc.hand = none) (settled : pc.settled = (s.workers u).pc.settled)
    (step : Ensures (fun _ => True) (wstep cfg u c ((s.node u).goto pc)) fun n' =>
      StaysIdle (homeSite u) ((s.node u).goto pc) n' ∧ SearchEvent cfg u ((s.node u).goto pc) n') :
    Acts cfg s u := by
  have search : Searching (homeSite u) ((s.at u pc).workers u).pc := by
    simpa [State.at, State.put, Node.goto] using gets.search
  rw [← node_at] at step
  obtain ⟨n', moved, quiet, event⟩ := gets.idle.moves few worker active.goes search step
  have idle := gets.idle.put worker moved quiet
  rw [node_at] at event
  rw [put_at] at idle
  refine ⟨n', gets.run.tail ⟨u, worker, c, n', moved, put_at.symm⟩, idle, ?_⟩
  exact event.earlier here free settled

theorem Gets.enters (gets : Gets cfg s u (.trySend (.enter (homeSite u))))
    (free : (s.workers u).pc.hand = none) (part : (s.workers u).pc.settled = false) :
    Acts cfg s u :=
  gets.acts few worker active (c := .plain .poll) free rfl part.symm
    ((gets.searches few worker active).enter few (homeSite_isIdle u) rfl)

theorem Gets.looked (gets : Gets cfg s u pc) (cont : SearchCont (homeSite u) k)
    (free : (s.workers u).pc.hand = none) (here : pc.hand = none)
    (settled : pc.settled = (s.workers u).pc.settled)
    (part : (Pc.recvReq k).settled = (s.workers u).pc.settled)
    (step : wstep cfg u (.plain .poll) ((s.node u).goto pc) =
      .ok (noRequest cfg k ((s.node u).goto pc))) :
    Acts cfg s u ∨
      k = .declineAll (homeSite u) ∧ Gets cfg s u (.recvTask (homeSite u) 0) := by
  rcases @SearchCont.noRequest cfg u ((s.node u).goto pc) k cont with
    ⟨rfl, enters⟩ | ⟨again, goes⟩ | ⟨master, exit, quiet⟩
  · rw [enters] at step
    exact .inl ((gets.goes few worker active step .enter).enters few worker active free part.symm)
  · rw [goes] at step
    exact .inr ⟨again, gets.goes few worker active step .recvTask⟩
  · refine .inl (gets.acts few worker active (c := .plain .poll) free here settled ?_)
    rw [step]
    exact ⟨quiet, .leaves master exit⟩

theorem Gets.scans {scan : List ℕ} (gets : Gets cfg s u (.recvReqFor k scan))
    (cont : SearchCont (homeSite u) k) (free : (s.workers u).pc.hand = none)
    (part : (Pc.recvReq k).settled = (s.workers u).pc.settled) :
    Acts cfg s u ∨ (∀ i ∈ scan, s.net.chanRequests i = []) ∧ Gets cfg s u (.recvReqFor k []) := by
  induction scan with
  | nil => exact .inr ⟨by simp, gets⟩
  | cons i rest ih =>
    cases first : s.net.chanRequests i with
    | nil =>
      have step : wstep cfg u (.plain .poll) ((s.node u).goto (.recvReqFor k (i :: rest))) =
          .ok ((s.node u).goto (.recvReqFor k rest)) := by
        simp only [wstep, Node.goto, recvReqForStep, State.node, first]
        rfl
      refine (ih (gets.goes few worker active step (.recvReqFor cont))).imp_right ?_
      rintro ⟨empty, goes⟩
      exact ⟨List.forall_mem_cons.mpr ⟨first, empty⟩, goes⟩
    | cons req reqs =>
      have live : req.state ≠ .failed := by
        intro failed
        have here : ((s.at u (.recvReqFor k (i :: rest))).workers u).pc =
            .recvReqFor k (i :: rest) := by simp [State.at, State.put, Node.goto]
        have waits := (gets.idle.refines.behalf_waits worker here List.mem_cons_self).2.1
        have member : req ∈ (s.at u (.recvReqFor k (i :: rest))).net.chanRequests i := by
          simp [State.at, State.put, Node.goto, State.node, first]
        exact absurd (waits.symm.trans (gets.idle.refines.failed_in_channel member failed).2)
          (by simp)
      exact .inl (gets.acts few worker active (c := .plain .poll) free rfl
        (cont.settled_scan.trans part)
        ((gets.searches few worker active).recvReqFor cont rfl first live))

/-- `RECV_REQ`: the worker finds a request, or all the channels it looks into are empty. -/
theorem Gets.receives (gets : Gets cfg s u (.recvReq k)) (cont : SearchCont (homeSite u) k)
    (free : (s.workers u).pc.hand = none)
    (part : (Pc.recvReq k).settled = (s.workers u).pc.settled) :
    Acts cfg s u ∨ s.net.chanRequests u = [] ∧
      (cfg.backoff ≠ .off → ∀ i ∈ onBehalf cfg u (s.workers u), s.net.chanRequests i = []) ∧
      k = .declineAll (homeSite u) ∧ Gets cfg s u (.recvTask (homeSite u) 0) := by
  cases first : s.net.chanRequests u with
  | cons req reqs =>
    exact .inl (gets.acts few worker active (c := .plain .poll) free rfl part
      (cont.recvReq rfl first))
  | nil =>
    by_cases off : cfg.backoff = .off
    · have step : wstep cfg u (.plain .poll) ((s.node u).goto (.recvReq k)) =
          .ok (noRequest cfg k ((s.node u).goto (.recvReq k))) := by
        simp only [wstep, Node.goto, recvReqStep, State.node, first, off, ↓reduceIte]
        rfl
      refine (gets.looked few worker active cont free rfl part part step).imp_right fun goes => ?_
      exact ⟨rfl, fun wrong => absurd off wrong, goes⟩
    · have step : wstep cfg u (.plain .poll) ((s.node u).goto (.recvReq k)) =
          .ok ((s.node u).goto (.recvReqFor k (onBehalf cfg u (s.workers u)))) := by
        simp only [wstep, Node.goto, recvReqStep, State.node, first, off, ↓reduceIte]
        rfl
      rcases (gets.goes few worker active step (.recvReqFor cont)).scans few worker active cont free
        part with acts | ⟨empty, done⟩
      · exact .inl acts
      · have last : (Pc.recvReqFor k []).settled = (s.workers u).pc.settled :=
          cont.settled_scan.trans part
        refine (done.looked few worker active cont free rfl last part rfl).imp_right fun goes => ?_
        exact ⟨rfl, fun _ => empty, goes⟩

/-- `RECV_TASK` finds nothing in any channel. -/
theorem Gets.findsNoTask {i : ℕ} (gets : Gets cfg s u (.recvTask (homeSite u) i)) :
    Gets cfg s u (.trySend (.failed (homeSite u))) := by
  induction left : cfg.maxSteal - i generalizing i with
  | zero =>
    have step := (gets.searches few worker active).recvTask (c := .plain .poll) rfl
    rw [if_neg (by omega)] at step
    exact gets.goes few worker active step .failed
  | succ left ih =>
    have step := (gets.searches few worker active).recvTask (c := .plain .poll) rfl
    split at step
    · exact ih (gets.goes few worker active step .recvTask) (by omega)
    · exact gets.goes few worker active step .failed

theorem Gets.sendsAgain (gets : Gets cfg s u (.trySend (.failed (homeSite u))))
    (free : (s.workers u).pc.hand = none) (part : (s.workers u).pc.settled = true) :
    Acts cfg s u ∨ ¬ (s.workers u).requested < cfg.maxSteal ∧
      Gets cfg s u (.recvReq (.declineAll (homeSite u))) := by
  have step := (gets.searches few worker active).failed (c := .plain .poll) few
    (homeSite_isIdle u) rfl
  by_cases room : (s.workers u).requested < cfg.maxSteal
  · exact .inl (gets.acts few worker active free rfl part.symm
      (step.mono fun n' effect => effect.1 room))
  · exact .inr ⟨room, gets.next few worker active (step.mono fun n' effect => effect.2 room)
      (.recvReq (.inr rfl))⟩

/-- A settled worker that goes on receiving has an event ahead, or it is drained. -/
theorem Gets.settles (gets : Gets cfg s u (.trySend (.failed (homeSite u))))
    (free : (s.workers u).pc.hand = none) (part : (s.workers u).pc.settled = true) :
    Drained cfg s u ∨ Acts cfg s u := by
  rcases gets.sendsAgain few worker active free part with acts | ⟨full, goes⟩
  · exact .inr acts
  · rcases goes.receives few worker active (.inr rfl) free part.symm with
      acts | ⟨own, behalf, -, -⟩
    · exact .inr acts
    · exact .inl ⟨part, free, full, own, behalf⟩

/-- A worker without a task has an event ahead, or it is drained. -/
theorem Workless.acts_or_drained (idle : Workless cfg s)
    (search : Searching (homeSite u) (s.workers u).pc) : Drained cfg s u ∨ Acts cfg s u := by
  have start := Gets.start idle search
  obtain ⟨pc, here⟩ : ∃ pc, (s.workers u).pc = pc := ⟨_, rfl⟩
  have free (empty : pc.hand = none) : (s.workers u).pc.hand = none := by rw [here, empty]
  rw [here] at start search
  -- what follows once all the channels are found empty
  have again {k : ReqCont} (empty : pc.hand = none)
      (part : (Pc.recvReq k).settled = (s.workers u).pc.settled)
      (looked : Acts cfg s u ∨ k = .declineAll (homeSite u) ∧
        Gets cfg s u (.recvTask (homeSite u) 0)) : Drained cfg s u ∨ Acts cfg s u := by
    rcases looked with acts | ⟨rfl, goes⟩
    · exact .inr acts
    · exact (goes.findsNoTask few worker active).settles few worker active (free empty) part.symm
  have looks {k : ReqCont} (gets : Gets cfg s u (.recvReq k)) (cont : SearchCont (homeSite u) k)
      (empty : pc.hand = none) (part : (Pc.recvReq k).settled = (s.workers u).pc.settled) :
      Drained cfg s u ∨ Acts cfg s u :=
    again empty part ((gets.receives few worker active cont (free empty) part).imp_right
      fun looked => looked.2.2)
  have shares (gets : Gets cfg s u (.shareWork (.pop (homeSite u) none))) (empty : pc.hand = none)
      (part : (s.workers u).pc.settled = false) : Drained cfg s u ∨ Acts cfg s u := by
    refine looks (gets.next few worker active (c := .plain .poll) ?_ (.recvReq (.inl rfl)))
      (.inl rfl) empty part.symm
    rcases (gets.searches few worker active).share (c := .plain .poll) rfl with
      moved | ⟨which, fault⟩
    · rw [moved]
      rfl
    · rw [fault]
      trivial
  cases search with
  | pop =>
    have step := (start.searches few worker active).pop (c := .plain .poll) rfl
    exact shares (start.goes few worker active step .share) rfl (by rw [here]; rfl)
  | share => exact shares start rfl (by rw [here]; rfl)
  | recvReq cont => exact looks start cont rfl (by rw [here])
  | @recvReqFor k scan cont =>
    have part : (Pc.recvReq k).settled = (s.workers u).pc.settled := by
      rw [here, cont.settled_scan]
    rcases start.scans few worker active cont (free rfl) part with acts | ⟨-, done⟩
    · exact .inr acts
    · exact again rfl part (done.looked few worker active cont (free rfl) rfl
        (cont.settled_scan.trans part) part rfl)
  | @handle k req cont =>
    have step := (idle.searches few worker active).handle (c := .plain .poll) few cont here
    obtain ⟨n', moved, quiet, event⟩ := idle.moves few worker active (here ▸ .handle cont) step
    exact .inr ⟨n', .single ⟨u, worker, _, n', moved, rfl⟩, idle.put worker moved quiet, event⟩
  | enter => exact .inr (start.enters few worker active (free rfl) (by rw [here]; rfl))
  | failed => exact start.settles few worker active (free rfl) (by rw [here]; rfl)
  | recvTask =>
    exact (start.findsNoTask few worker active).settles few worker active (free rfl)
      (by rw [here]; rfl)

end Rules

end Going

end Tasking.Runtime
