import Tasking.Broadcast
import Tasking.Quiescence

/-! From `RT_EXIT` on.

When `RT_barrier` has returned, and no task was pushed since, every worker but the master
sleeps in `schedule`, and its last request is with its parent.  The pseudo-task of `RT_EXIT`
is then handed down the tree of workers through their first task channels; this is the
message of `Broadcast`, and its guarantees are those of the shutdown. -/
namespace Tasking.Runtime
open Fallible Family TokenProtocol WorkerTree Function Transition

/-! ## The tree -/

section Tree

variable {cfg : Config} {w c : ℕ}

/-- The workers `RT_EXIT_FN` notifies, in this order. -/
def Config.exitChildren (cfg : Config) (ID : ℕ) : List ℕ :=
  (cfg.leftChild ID).toList ++ (cfg.rightChild ID).toList

theorem mem_exitChildren :
    c ∈ cfg.exitChildren w ↔ c < cfg.numWorkers ∧ ∃ side, c = child w side := by
  simp only [Config.exitChildren, List.mem_append, Option.mem_toList]
  constructor
  · rintro (left | right)
    · obtain ⟨same, inside⟩ := (leftChild_eq_some cfg.someWorker).mp left
      exact ⟨inside, .left, same⟩
    · obtain ⟨same, inside⟩ := (rightChild_eq_some cfg.someWorker).mp right
      exact ⟨inside, .right, same⟩
  · rintro ⟨inside, side, rfl⟩
    cases side with
    | left => exact .inl (leftChild_eq_child inside)
    | right => exact .inr (rightChild_eq_child inside)

/-- The tree of the workers, as `RT_EXIT_FN` walks it. -/
def Config.exitTree (cfg : Config) : Broadcast.Tree ℕ where
  root := 0
  children := cfg.exitChildren
  nodup p := by
    refine List.nodup_append.mpr ⟨Option.toList_nodup _, Option.toList_nodup _, ?_⟩
    intro a left b right same
    have first := ((leftChild_eq_some cfg.someWorker).mp (Option.mem_toList.mp left)).1
    have second := ((rightChild_eq_some cfg.someWorker).mp (Option.mem_toList.mp right)).1
    omega
  one_parent {p q c} below above := by
    obtain ⟨-, side, here⟩ := mem_exitChildren.mp below
    obtain ⟨-, other, there⟩ := mem_exitChildren.mp above
    have first : parent c = some p := here ▸ child_parent
    have second : parent c = some q := there ▸ child_parent
    exact Option.some.inj (first.symm.trans second)
  root_orphan p below := by
    obtain ⟨-, side, same⟩ := mem_exitChildren.mp below
    cases side <;> simp [child] at same

theorem exitTree_node (worker : w < cfg.numWorkers) : cfg.exitTree.Node w := by
  induction w using Nat.strong_induction_on with
  | _ w ih =>
    by_cases master : w = 0
    · subst master
      exact .root
    · obtain ⟨p, climbs⟩ := exists_parent master
      obtain ⟨side, same⟩ := exists_child climbs
      have smaller := parent_lt climbs
      exact .child (ih p smaller (by omega)) (mem_exitChildren.mpr ⟨worker, side, same⟩)

/-- How far a worker is, as the message sees it. -/
def Pc.exitStage (cfg : Config) (ID : ℕ) : Pc → Broadcast.Stage ℕ
  | .shareWork (.exit _) => .told
  | .exitLeft => .telling (cfg.exitChildren ID)
  | .exitRight => .telling (cfg.rightChild ID).toList
  | .finished => .telling []
  | _ => .asleep

end Tree

/-! ## One worker -/

/-- A worker that waits to be told, in `schedule`. -/
structure Asleep (cfg : Config) (ID : ℕ) (x : Worker) : Prop where
  other : ID ≠ 0
  waiting : x.waitingForTasks = true
  requested : x.requested = cfg.maxSteal
  stack : x.channelStack.length + 1 = cfg.maxSteal
  idle : x.pc.isIdle = true
  site : x.pc.site = some .schedule
  hand : x.pc.hand = none
  in_wait : x.inWait = true → x.pc = .recvTask .schedule 0

/-- A worker between `RT_EXIT` and the end; `count` is what `num_tasks_exec` was before. -/
structure Departs (cfg : Config) (ID : ℕ) (count : Int32) (x : Worker) : Prop where
  deque : x.deque = []
  frames : x.frames = []
  idle : ∀ side, x.flag side = true
  children : ∀ req ∈ x.workSharingRequests, req.state = .failed ∧ isChild cfg ID req.ID
  quiescent : ID = 0 → x.quiescent = true
  finished : x.taskingFinished = true ↔ x.pc = .finished
  executed : x.numTasksExec = count
  way : x.pc.leaving = true ∨ Asleep cfg ID x

/-- What a step does to the message. -/
inductive Departure (cfg : Config) (w : ℕ) (n n' : Node) : Prop where
  | looks (same : n'.self.pc.exitStage cfg w = n.self.pc.exitStage cfg w)
      (calls : n'.self.pc ≠ .exitLeft) (slots : n'.net.chanTasks = n.net.chanTasks)
  | receives (before : n.self.pc.exitStage cfg w = .asleep) (mail : (n.net.chanTasks w 0).isSome)
      (after : n'.self.pc.exitStage cfg w = .told) (calls : n'.self.pc ≠ .exitLeft)
      (slots : n'.net.chanTasks = (n.net.putTask w 0 none).chanTasks)
  /-- The call of `RT_EXIT_FN`. -/
  | runs (before : n.self.pc.exitStage cfg w = .told) (after : n'.self.pc = .exitLeft)
      (slots : n'.net.chanTasks = n.net.chanTasks)
  | tells {c : ℕ} {left : List ℕ} (before : n.self.pc.exitStage cfg w = .telling (c :: left))
      (after : n'.self.pc.exitStage cfg w = .telling left) (calls : n'.self.pc ≠ .exitLeft)
      {addr : ℕ} (slots : n'.net.chanTasks = (n.net.putTask c 0 (some (.exit addr))).chanTasks)

section Steps

variable {cfg : Config} {w : ℕ} {count : Int32} {n n' : Node} {x : Worker}

theorem exitStage_of_isIdle {pc : Pc} (idle : pc.isIdle = true) :
    pc.exitStage cfg w = .asleep := by
  cases pc with
  | user | pop _ | shareWork _ | peekReq _ | forceReady _ _ | barrierExit | exitLeft | exitRight
  | finished => cases idle
  | recvTask _ _ | trySend _ | recvReq _ | recvReqFor _ _ | handle _ _ => rfl

/-- What the departure of a worker asks of a step. -/
def Leads (cfg : Config) (w : ℕ) (count : Int32) (n n' : Node) : Prop :=
  Departs cfg w count n'.self ∧ n'.net.chanRequests = n.net.chanRequests ∧ Departure cfg w n n'

theorem Departs.unfinished (departs : Departs cfg w count n.self)
    (here : n.self.pc ≠ .finished) {pc : Pc} (there : pc ≠ .finished) :
    n.self.taskingFinished = true ↔ pc = .finished :=
  iff_of_false (fun done => here (departs.finished.mp done)) there

/-! ### A worker that sleeps -/

theorem Asleep.goes (asleep : Asleep cfg w n.self) (departs : Departs cfg w count n.self)
    {pc : Pc} (idle : pc.isIdle = true) (site : pc.site = some .schedule) (hand : pc.hand = none)
    {inWait : Bool} (awake : inWait = true → pc = .recvTask .schedule 0) :
    Leads cfg w count n ⟨{ n.self with inWait := inWait, pc := pc }, n.net⟩ := by
  have here : n.self.pc ≠ .finished := fun same => by simpa [same, Pc.isIdle] using asleep.idle
  have there : pc ≠ .finished := fun same => by simp [same, Pc.isIdle] at idle
  have calls : pc ≠ .exitLeft := fun same => by simp [same, Pc.isIdle] at idle
  refine ⟨?_, rfl, .looks ?_ calls rfl⟩
  · exact { departs with
      finished := departs.unfinished here there
      way := .inr { asleep with idle := idle, site := site, hand := hand, in_wait := awake } }
  · exact (exitStage_of_isIdle idle).trans (exitStage_of_isIdle asleep.idle).symm

theorem Asleep.stays (asleep : Asleep cfg w n.self) (departs : Departs cfg w count n.self)
    (awake : n.self.inWait = false) {pc : Pc} (idle : pc.isIdle = true)
    (site : pc.site = some .schedule) (hand : pc.hand = none) :
    Leads cfg w count n (n.goto pc) :=
  asleep.goes departs idle site hand fun inWait =>
    absurd (awake.symm.trans inWait) Bool.false_ne_true

/-- `RECV_TASK` of a worker that waits: all its channels are free again. -/
theorem Asleep.receivedTask (asleep : Asleep cfg w x) (chan : ℕ) :
    receivedTask cfg chan x = .ok { x with
      channelStack := chan :: x.channelStack, requested := 0, waitingForTasks := false
      droppedStealRequests := 0 } := by
  have room : x.channelStack.length ≠ cfg.maxSteal := by
    have := asleep.stack
    omega
  simp [Runtime.receivedTask, channelPush, check, room, asleep.waiting, asleep.requested,
    asleep.stack, cfg.someSteal, bind, Except.bind, pure, Except.pure]

/-- `RECV_TASK`, and the end of `WAIT`. -/
theorem Asleep.recvTaskStep (asleep : Asleep cfg w n.self) (departs : Departs cfg w count n.self)
    {i : ℕ} (here : n.self.pc = .recvTask .schedule i)
    (messages : ∀ c message, n.net.chanTasks w c = some message →
      c = 0 ∧ ∃ addr, message = .exit addr)
    (woken : n.self.inWait = true → n.net.hasTask cfg w = true) :
    Returns (recvTaskStep cfg w .schedule i n) (Leads cfg w count n) := by
  cases inWait : n.self.inWait with
  | true =>
    simp only [Runtime.recvTaskStep, inWait, ↓reduceIte, returns_bind, returns_await, returns_pure]
    refine ⟨woken inWait, ?_⟩
    have goes := @Asleep.goes cfg w count n asleep departs n.self.pc asleep.idle asleep.site
      asleep.hand false (fun wrong => absurd wrong Bool.false_ne_true)
    exact goes
  | false =>
    simp only [Runtime.recvTaskStep, inWait, Bool.false_eq_true, ↓reduceIte]
    cases slot : n.net.chanTasks w i with
    | none =>
      dsimp only
      split
      · exact asleep.stays departs inWait rfl rfl rfl
      · exact asleep.stays departs inWait rfl rfl rfl
    | some message =>
      obtain ⟨rfl, addr, rfl⟩ := messages i message slot
      have busy : n.self.pc ≠ .finished := by simp [here]
      simp only [asleep.receivedTask, unpack, returns_bind, returns_ok, returns_pure]
      have before : n.self.pc.exitStage cfg w = .asleep := exitStage_of_isIdle asleep.idle
      refine ⟨?_, rfl, .receives before (by simp [slot]) rfl (by simp) rfl⟩
      exact { departs with
        finished := departs.unfinished busy (by simp)
        way := .inl rfl }

/-- A worker that sleeps finds no request. -/
theorem Asleep.noRequest (asleep : Asleep cfg w n.self) (departs : Departs cfg w count n.self)
    (awake : n.self.inWait = false) :
    Leads cfg w count n (noRequest cfg (.declineAll .schedule) n) := by
  have stays : declined .schedule n = n.goto (.recvTask .schedule 0) := by simp [declined]
  simp only [Runtime.noRequest, stays]
  exact asleep.stays departs awake rfl rfl rfl

theorem Asleep.wstep (asleep : Asleep cfg w n.self) (departs : Departs cfg w count n.self)
    {c : Choice} (empty : ∀ i, n.net.chanRequests i = [])
    (messages : ∀ c message, n.net.chanTasks w c = some message →
      c = 0 ∧ ∃ addr, message = .exit addr)
    (woken : n.self.inWait = true → n.net.hasTask cfg w = true) :
    Returns (wstep cfg w c n) (Leads cfg w count n) := by
  have idle := asleep.idle
  have site := asleep.site
  have awake (other : ∀ i, n.self.pc ≠ .recvTask .schedule i) : n.self.inWait = false := by
    by_contra inWait
    exact other 0 (asleep.in_wait (by simpa using inWait))
  cases here : n.self.pc with
  | recvTask there i =>
    rw [here] at site
    obtain rfl : there = .schedule := Option.some.inj site
    simp only [Runtime.wstep, here]
    exact asleep.recvTaskStep departs here messages woken
  | trySend k =>
    have awake := awake (by simp [here])
    rw [here] at idle site
    simp only [Runtime.wstep, here]
    cases k with
    | enter there =>
      obtain rfl : there = .schedule := Option.some.inj site
      simp only [sendStep, Site.isIdle, trySendStealRequest_full asleep.requested, returns_bind,
        returns_ok, ↓reduceIte, returns_check, returns_pure]
      exact ⟨requested_ne_zero asleep.requested, asleep.stays departs awake rfl rfl rfl⟩
    | failed there =>
      obtain rfl : there = .schedule := Option.some.inj site
      simp only [sendStep, taskMissing, Site.isIdle, trySendStealRequest_full asleep.requested,
        returns_bind, returns_ok, returns_check]
      refine ⟨departs.deque, requested_ne_zero asleep.requested, ?_⟩
      split
      · exact asleep.stays departs awake rfl rfl rfl
      · exact asleep.stays departs awake rfl rfl rfl
    | again _ | early _ _ => cases idle
  | recvReq k =>
    have awake := awake (by simp [here])
    rw [here] at idle site
    cases k with
    | declineAll there =>
      obtain rfl : there = .schedule := Option.some.inj site
      simp only [Runtime.wstep, here, recvReqStep, empty]
      split
      · exact asleep.noRequest departs awake
      · exact asleep.stays departs awake rfl rfl rfl
    | push | poll | pop _ _ | force _ => cases idle
  | recvReqFor k scan =>
    have awake := awake (by simp [here])
    rw [here] at idle site
    cases k with
    | declineAll there =>
      obtain rfl : there = .schedule := Option.some.inj site
      simp only [Runtime.wstep, here, returns_pure]
      cases scan with
      | nil => exact asleep.noRequest departs awake
      | cons i rest =>
        simp only [recvReqForStep, empty]
        exact asleep.stays departs awake rfl rfl rfl
    | push | poll | pop _ _ | force _ => cases idle
  | handle k req =>
    have hand := asleep.hand
    rw [here] at hand
    cases hand
  | user | pop _ | shareWork _ | peekReq _ | forceReady _ _ | barrierExit | exitLeft | exitRight
  | finished =>
    rw [here] at idle
    cases idle

/-! ### A worker that was told -/

/-- `share_work` with nothing to share, and the call of `RT_EXIT_FN`. -/
theorem Departs.called (departs : Departs cfg w count n.self) {o : Oracle} {addr : ℕ}
    (here : n.self.pc = .shareWork (.exit addr)) :
    Returns (shareStep cfg o w (.exit addr) n) (Leads cfg w count n) := by
  have rested : shareRound cfg o w n = .ok (false, n) :=
    shareRound_rested departs.deque departs.frames departs.children
  have busy : n.self.pc ≠ .finished := by simp [here]
  have unfinished : n.self.taskingFinished = false := by
    simpa using fun done => busy (departs.finished.mp done)
  have left : n.self.leftSubtreeIsIdle = true := departs.idle .left
  have right : n.self.rightSubtreeIsIdle = true := departs.idle .right
  simp only [shareStep, rested, shareDone, exitFn, unfinished, left, right, Bool.false_eq_true,
    ↓reduceIte, Bool.not_false, Bool.and_self, returns_bind, returns_ok, returns_check,
    returns_pure, true_and]
  refine ⟨departs.quiescent, ?_, rfl, .runs (by rw [here]; rfl) rfl rfl⟩
  exact { departs with
    finished := departs.unfinished busy (by simp [Node.goto])
    way := .inl rfl }

/-- `async_action`, to a child whose channel is empty. -/
theorem notifyChild_returns {child : Option ℕ} (free : ∀ c ∈ child, n.net.chanTasks c 0 = none) :
    Returns (notifyChild child n) fun n' =>
      (∃ freelist, n'.self = { n.self with freelist := freelist }) ∧
      n'.net.chanRequests = n.net.chanRequests ∧
      (child = none → n'.net.chanTasks = n.net.chanTasks) ∧
      ∀ c ∈ child, ∃ addr,
        n'.net.chanTasks = (n.net.putTask c 0 (some (.exit addr))).chanTasks := by
  cases child with
  | none => exact ⟨⟨_, rfl⟩, rfl, fun _ => rfl, by simp⟩
  | some c =>
    obtain ⟨addr, freelist, next, alloc⟩ := taskAlloc_eq n
    simp only [notifyChild, alloc, returns_bind, returns_check, returns_pure]
    refine ⟨free c rfl, ⟨freelist, rfl⟩, rfl, by simp, ?_⟩
    rintro _ ⟨⟩
    exact ⟨addr, rfl⟩

/-- A worker notifies a child, or has none on this side. -/
theorem Departs.notifies (departs : Departs cfg w count n.self) {child : Option ℕ} {left : List ℕ}
    (there : Pc) (before : n.self.pc.exitStage cfg w = .telling (child.toList ++ left))
    (after : there.exitStage cfg w = .telling left) (leaving : there.leaving = true)
    (calls : there ≠ .exitLeft)
    (free : ∀ c rest, n.self.pc.exitStage cfg w = .telling (c :: rest) →
      n.net.chanTasks c 0 = none) :
    Returns (notifyChild child n) fun n' =>
      n'.self.taskingFinished = n.self.taskingFinished ∧ ∀ done executed,
        (done = true ↔ there = .finished) → executed = n'.self.numTasksExec →
        Leads cfg w count n ⟨{ n'.self with
          taskingFinished := done, numTasksExec := executed, pc := there }, n'.net⟩ := by
  have empty : ∀ c ∈ child, n.net.chanTasks c 0 = none := by
    rintro c rfl
    exact free c left before
  refine (notifyChild_returns empty).mono ?_
  rintro ⟨self, net⟩ ⟨⟨freelist, rfl⟩, requests, quiet, sent⟩
  refine ⟨rfl, fun done executed finished same => ⟨?_, requests, ?_⟩⟩
  · exact { departs with
      finished := finished
      executed := same.trans departs.executed
      way := .inl leaving }
  · cases child with
    | none => exact .looks (after.trans before.symm) calls (quiet rfl)
    | some c =>
      obtain ⟨addr, slots⟩ := sent c rfl
      exact .tells before after calls slots

theorem exitCount_eq (ID : ℕ) (executed : Int32) : exitCount ID executed = executed := by
  unfold exitCount
  split
  · rfl
  · have weight : (Task.zero 0).weight = 1 := rfl
    rw [weight, Int32.sub_add_cancel]

theorem Departs.wstep (departs : Departs cfg w count n.self) {c : Choice}
    (empty : ∀ i, n.net.chanRequests i = [])
    (messages : ∀ c message, n.net.chanTasks w c = some message →
      c = 0 ∧ ∃ addr, message = .exit addr)
    (free : ∀ c rest, n.self.pc.exitStage cfg w = .telling (c :: rest) →
      n.net.chanTasks c 0 = none)
    (woken : n.self.inWait = true → n.self.pc.isIdle = true → n.net.hasTask cfg w = true)
    (unfinished : n.self.pc ≠ .finished) :
    Returns (wstep cfg w c n) (Leads cfg w count n) := by
  rcases departs.way with leaving | asleep
  · cases here : n.self.pc with
    | shareWork k =>
      rw [here] at leaving
      cases k with
      | exit addr =>
        simp only [Runtime.wstep, here]
        exact departs.called here
      | push | poll | pop _ _ | got _ _ => cases leaving
    | exitLeft =>
      simp only [Runtime.wstep, here, returns_bind, returns_pure]
      have stage : n.self.pc.exitStage cfg w =
          .telling ((cfg.leftChild w).toList ++ (cfg.rightChild w).toList) := by rw [here]; rfl
      refine (departs.notifies .exitRight stage rfl rfl (by simp) free).mono fun n' leads => ?_
      refine leads.2 n'.self.taskingFinished n'.self.numTasksExec ?_ rfl
      rw [leads.1]
      exact departs.unfinished unfinished (by simp)
    | exitRight =>
      simp only [Runtime.wstep, here, returns_bind, returns_pure]
      have stage : n.self.pc.exitStage cfg w = .telling ((cfg.rightChild w).toList ++ []) := by
        rw [here, List.append_nil]
        rfl
      refine (departs.notifies .finished stage rfl rfl (by simp) free).mono fun n' leads => ?_
      exact leads.2 true (exitCount w n'.self.numTasksExec) (by simp) (exitCount_eq w _)
    | finished => exact absurd here unfinished
    | user | pop _ | peekReq _ | recvReq _ | recvReqFor _ _ | handle _ _ | trySend _ | recvTask _ _
    | forceReady _ _ | barrierExit =>
      rw [here] at leaving
      cases leaving
  · exact asleep.wstep departs empty messages fun inWait => woken inWait asleep.idle

end Steps

/-! ## Runs -/

/-- A state after `RT_EXIT`, and how often each worker has called `RT_EXIT_FN`. -/
structure Exit where
  state : State
  calls : ℕ → ℕ

/-- Worker `ID` moves; a step that arrives at the beginning of `RT_EXIT_FN` is a call. -/
def Exit.record (d : Exit) (ID : ℕ) (n : Node) : Exit where
  state := d.state.put ID n
  calls := if n.self.pc = .exitLeft then update d.calls ID (d.calls ID + 1) else d.calls

/-- The master runs `RT_EXIT`, and then any interleaving of the workers' steps. -/
def exits (cfg : Config) (s : State) : System Exit where
  init d := ∃ c n, c.act = .exit ∧ wstep cfg 0 c (s.node 0) = .ok n ∧
    d = Exit.record ⟨s, fun _ => 0⟩ 0 n
  step d d' := ∃ ID < cfg.numWorkers, ∃ c n, wstep cfg ID c (d.state.node ID) = .ok n ∧
    d' = d.record ID n

/-- What the message sees of a state. -/
def Exit.view (cfg : Config) (d : Exit) : Broadcast.State ℕ where
  stage w := if w < cfg.numWorkers then (d.state.workers w).pc.exitStage cfg w else .asleep
  mail w := (d.state.net.chanTasks w 0).isSome
  runs := d.calls

/-- What holds of every state after `RT_EXIT`; `s` is the state before. -/
structure Departing (cfg : Config) (s : State) (d : Exit) : Prop where
  view : (Broadcast.system cfg.exitTree).Reachable (d.view cfg)
  workers : ∀ w < cfg.numWorkers,
    Departs cfg w (s.workers w).numTasksExec (d.state.workers w)
  requests : ∀ i, d.state.net.chanRequests i = []
  messages : ∀ v c message, d.state.net.chanTasks v c = some message →
    c = 0 ∧ ∃ addr, message = .exit addr

section Runs

variable {cfg : Config} {s : State} {d : Exit} {w : ℕ} {n : Node}

theorem view_record (worker : w < cfg.numWorkers) : (d.record w n).view cfg =
    { stage := update (d.view cfg).stage w (n.self.pc.exitStage cfg w)
      mail := fun v => (n.net.chanTasks v 0).isSome
      runs := (d.record w n).calls } := by
  simp only [Exit.view, Exit.record, State.put, Broadcast.State.mk.injEq, and_true]
  funext v
  by_cases same : v = w
  · subst same
    simp [worker]
  · simp [same]

/-- A message is put into a first channel, or taken from it. -/
theorem mail_putTask (net : Network) (v : ℕ) (message : Option Message) :
    (fun u => ((net.putTask v 0 message).chanTasks u 0).isSome) =
      update (fun u => (net.chanTasks u 0).isSome) v message.isSome := by
  funext u
  by_cases same : u = v
  · subst same
    simp [Network.putTask]
  · simp [Network.putTask, same]

theorem messages_putTask {net : Network} {v : ℕ} {message : Option Message}
    (before : ∀ v c found, net.chanTasks v c = some found → c = 0 ∧ ∃ addr, found = .exit addr)
    (kind : ∀ found ∈ message, ∃ addr, found = .exit addr) :
    ∀ u c found, (net.putTask v 0 message).chanTasks u c = some found →
      c = 0 ∧ ∃ addr, found = .exit addr := by
  intro u c found slot
  by_cases row : u = v
  · subst row
    by_cases column : c = 0
    · subst column
      exact ⟨rfl, kind found (by simpa [Network.putTask] using slot)⟩
    · exact before u c found (by simpa [Network.putTask, column] using slot)
  · exact before u c found (by simpa [Network.putTask, row] using slot)

/-! ### Steps -/

theorem Departing.inv (departing : Departing cfg s d) :
    Broadcast.Inv cfg.exitTree (d.view cfg) :=
  Broadcast.reachable_inv departing.view

theorem view_stage (worker : w < cfg.numWorkers) :
    (d.view cfg).stage w = (d.state.workers w).pc.exitStage cfg w := if_pos worker

/-- The message of a step of the runtime. -/
theorem Departing.step_view (departing : Departing cfg s d) (worker : w < cfg.numWorkers)
    (step : Departure cfg w (d.state.node w) n) :
    (Broadcast.system cfg.exitTree).Reachable ((d.record w n).view cfg) := by
  have stage : (d.view cfg).stage w = (d.state.node w).self.pc.exitStage cfg w :=
    view_stage worker
  have quiet (calls : n.self.pc ≠ .exitLeft) : (d.record w n).calls = (d.view cfg).runs :=
    if_neg calls
  rw [view_record worker]
  cases step with
  | looks same calls slots =>
    rw [same, ← stage, update_eq_self, slots, quiet calls]
    exact departing.view
  | receives before mail after calls slots =>
    rw [after, slots, mail_putTask, quiet calls]
    exact departing.view.tail (.receive (stage.trans before) mail)
  | runs before after slots =>
    have calls : (d.record w n).calls =
        update (d.view cfg).runs w ((d.view cfg).runs w + 1) := if_pos after
    rw [after, slots, calls]
    exact departing.view.tail (.run (stage.trans before))
  | tells before after calls slots =>
    rw [after, slots, mail_putTask, quiet calls]
    exact departing.view.tail (.tell (stage.trans before))

/-- What a worker needs to move. -/
structure Able (cfg : Config) (w : ℕ) (n : Node) : Prop where
  unfinished : n.self.pc ≠ .finished
  woken : n.self.inWait = true → n.self.pc.isIdle = true → n.net.hasTask cfg w = true

theorem Pc.not_leaving_of_isIdle {pc : Pc} (idle : pc.isIdle = true) : pc.leaving = false := by
  cases pc with
  | user | pop _ | shareWork _ | peekReq _ | forceReady _ _ | barrierExit | exitLeft | exitRight
  | finished => cases idle
  | recvTask _ _ | trySend _ | recvReq _ | recvReqFor _ _ | handle _ _ => rfl

/-- A worker that cannot move is through, or sleeps without a message. -/
theorem Departing.able (departing : Departing cfg s d) (worker : w < cfg.numWorkers) (c : Choice) :
    Able cfg w (d.state.node w) ∨ wstep cfg w c (d.state.node w) = .error .disabled := by
  have departs : Departs cfg w _ (d.state.node w).self := departing.workers w worker
  by_cases finished : (d.state.node w).self.pc = .finished
  · exact .inr (by simp only [wstep, finished])
  · by_cases woken : (d.state.node w).self.inWait = true → (d.state.node w).self.pc.isIdle = true →
        (d.state.node w).net.hasTask cfg w = true
    · exact .inl ⟨finished, woken⟩
    · obtain ⟨inWait, idle, nothing⟩ : (d.state.node w).self.inWait = true ∧
          (d.state.node w).self.pc.isIdle = true ∧ ¬ (d.state.node w).net.hasTask cfg w = true := by
        simpa only [Classical.not_imp] using woken
      have asleep := departs.way.resolve_left fun leaving =>
        absurd (leaving.symm.trans (Pc.not_leaving_of_isIdle idle)) Bool.false_ne_true.symm
      refine .inr ?_
      simp only [wstep, asleep.in_wait inWait, recvTaskStep, inWait, ↓reduceIte, await, nothing]
      rfl

theorem Departing.returns (departing : Departing cfg s d) (worker : w < cfg.numWorkers)
    (able : Able cfg w (d.state.node w)) (c : Choice) :
    Returns (wstep cfg w c (d.state.node w))
      (Leads cfg w (s.workers w).numTasksExec (d.state.node w)) := by
  refine (departing.workers w worker).wstep departing.requests (departing.messages w)
    (fun v rest telling => ?_) able.woken able.unfinished
  have free : (d.state.net.chanTasks v 0).isSome = false :=
    departing.inv.mailbox_free ((view_stage worker).trans telling)
  exact Option.isNone_iff_eq_none.mp (Option.isSome_eq_false_iff.mp free)

theorem Departing.step (departing : Departing cfg s d) (worker : w < cfg.numWorkers) {c : Choice}
    (moved : wstep cfg w c (d.state.node w) = .ok n) : Departing cfg s (d.record w n) := by
  have able : Able cfg w (d.state.node w) := by
    refine (departing.able worker c).resolve_right fun stuck => ?_
    exact absurd (moved.symm.trans stuck) (by simp)
  obtain ⟨n', ran, leads⟩ := (departing.returns worker able c).exists_ok
  obtain rfl : n = n' := Except.ok.inj (moved.symm.trans ran)
  obtain ⟨departs, requests, step⟩ := leads
  refine ⟨departing.step_view worker step, fun v inside => ?_, ?_, ?_⟩
  · by_cases same : v = w
    · subst same
      simpa [Exit.record, State.put] using departs
    · simpa [Exit.record, State.put, same] using departing.workers v inside
  · exact fun i => (congrFun requests i).trans (departing.requests i)
  · cases step with
    | looks _ _ slots | runs _ _ slots =>
      intro v c message slot
      exact departing.messages v c message (slots ▸ slot)
    | receives _ _ _ _ slots =>
      intro v c message slot
      exact messages_putTask departing.messages (by simp) v c message (slots ▸ slot)
    | tells _ _ _ slots =>
      intro v c message slot
      exact messages_putTask departing.messages (by simp) v c message (slots ▸ slot)

/-! ### The beginning -/

/-- Before `RT_EXIT` every worker but the master sleeps. -/
theorem Settles.asleep (settles : Settles cfg s) (ok : Refines cfg s)
    (quiescent : (s.workers 0).quiescent = true) (worker : w < cfg.numWorkers) (other : w ≠ 0) :
    Asleep cfg w (s.workers w) ∧ ∀ side, (s.workers w).flag side = true := by
  have inv := TokenProtocol.reachable_inv cfg.someSteal ok.ring
  have waiting := (inv.all_wait cfg.someWorker (ok.flags_idle quiescent) worker other).1
  have account := inv.account w worker
  obtain ⟨-, -, -, idle, site, requested⟩ := ok.waits worker waiting
  have stack : (s.workers w).channelStack.length + 1 = cfg.maxSteal := by
    have total := account.card_free
    rw [account.waiting_single waiting] at total
    simpa [State.ring, Worker.agent] using total
  refine ⟨⟨other, waiting, requested, stack, idle, site, ?_, fun inWait => ?_⟩, ?_⟩
  · exact ok.no_hand quiescent (settles.calm quiescent).count worker
  · exact ((ok.loc w worker).in_wait inWait).2.2
  · exact (inv.waits w waiting).2.2

/-- The master after its call of `RT_EXIT_FN`. -/
def State.exitNode (s : State) : Node :=
  ⟨{ s.workers 0 with pc := .exitLeft }, { s.net with exiting := true }⟩

theorem Refines.exit_runs (ok : Refines cfg s) (quiescent : (s.workers 0).quiescent = true)
    (user : (s.workers 0).pc = .user) (frames : (s.workers 0).frames = []) {c : Choice}
    (exit : c.act = .exit) : wstep cfg 0 c (s.node 0) = .ok s.exitNode := by
  have flags := ok.flags_idle quiescent
  have left : (s.workers 0).leftSubtreeIsIdle = true := flags .left
  have right : (s.workers 0).rightSubtreeIsIdle = true := flags .right
  have unfinished : (s.workers 0).taskingFinished = false := (ok.loc 0 cfg.someWorker).unfinished
  simp only [wstep, State.node, user, exit, userStep, await, frames, exitFn, check, left, right,
    unfinished, quiescent]
  rfl

/-- The message is with the master, and everybody else sleeps. -/
theorem Settles.view_exit (settles : Settles cfg s) (ok : Refines cfg s)
    (quiescent : (s.workers 0).quiescent = true) :
    (Exit.record ⟨s, fun _ => 0⟩ 0 s.exitNode).view cfg = .init cfg.exitTree := by
  have channels := (settles.rested ok quiescent).2
  have asleep {v : ℕ} (other : v ≠ 0) :
      (if v < cfg.numWorkers then (s.workers v).pc.exitStage cfg v else .asleep) =
        Broadcast.Stage.asleep := by
    split
    · next worker => exact exitStage_of_isIdle (settles.asleep ok quiescent worker other).1.idle
    · rfl
  rw [view_record cfg.someWorker]
  simp only [Broadcast.State.init, Broadcast.State.mk.injEq]
  refine ⟨?_, ?_, ?_⟩
  · funext v
    by_cases master : v = 0
    · subst master
      rfl
    · have other : v ≠ cfg.exitTree.root := master
      rw [update_of_ne master, update_of_ne other]
      exact asleep master
  · funext v
    exact congrArg Option.isSome (channels v 0)
  · rfl

theorem Settles.departing (settles : Settles cfg s) (ok : Refines cfg s)
    (quiescent : (s.workers 0).quiescent = true) :
    Departing cfg s (Exit.record ⟨s, fun _ => 0⟩ 0 s.exitNode) := by
  obtain ⟨rested, channels⟩ := settles.rested ok quiescent
  have count := (settles.calm quiescent).count
  refine ⟨?_, fun w worker => ?_, ok.no_requests quiescent count, fun v c message slot => ?_⟩
  · exact System.reachable_of_init (settles.view_exit ok quiescent)
  · obtain ⟨deque, frames, -⟩ := rested w worker
    have unfinished : (s.workers w).taskingFinished = false := (ok.loc w worker).unfinished
    by_cases master : w = 0
    · subst master
      rw [show (Exit.record ⟨s, fun _ => 0⟩ 0 s.exitNode).state.workers 0 = s.exitNode.self by
        simp [Exit.record, State.put]]
      exact ⟨deque, frames, ok.flags_idle quiescent, (ok.pre worker).children, fun _ => quiescent,
        by simp [State.exitNode, unfinished], rfl, .inl rfl⟩
    · obtain ⟨asleep, flags⟩ := settles.asleep ok quiescent worker master
      rw [show (Exit.record ⟨s, fun _ => 0⟩ 0 s.exitNode).state.workers w = s.workers w by
        simp [Exit.record, State.put, master]]
      refine ⟨deque, frames, flags, (ok.pre worker).children, fun wrong => absurd wrong master, ?_,
        rfl, .inr asleep⟩
      refine iff_of_false (by simp [unfinished]) fun wrong => ?_
      simpa [wrong, Pc.isIdle] using asleep.idle
  · exact absurd (slot.symm.trans (channels v c)) (by simp)

/-! ### The end -/

theorem Departing.stuck (departing : Departing cfg s d) (worker : w < cfg.numWorkers)
    (halt : ∀ d', ¬ (exits cfg s).step d d') : ¬ Able cfg w (d.state.node w) := by
  intro able
  obtain ⟨n, moved, -⟩ := (departing.returns worker able (.plain .poll)).exists_ok
  exact halt _ ⟨w, worker, _, n, moved, rfl⟩

/-- A worker that is awake, and has not left, can move. -/
theorem able_of_awake (awake : n.self.pc.exitStage cfg w ≠ .asleep)
    (unfinished : n.self.pc ≠ .finished) : Able cfg w n :=
  ⟨unfinished, fun _ idle => absurd (exitStage_of_isIdle idle) awake⟩

/-- Where no worker can move, the message has come to its end as well, since each of its steps
could be made by a worker. -/
theorem Departing.message_halts (departing : Departing cfg s d)
    (halt : ∀ d', ¬ (exits cfg s).step d d') (a : Broadcast.State ℕ) :
    ¬ Broadcast.Step cfg.exitTree (d.view cfg) a := by
  -- Whoever is not asleep is a worker, and can move until it has told its children.
  have moves {v : ℕ} (awake : (d.view cfg).stage v ≠ .asleep)
      (more : (d.view cfg).stage v ≠ .telling []) : False := by
    have worker : v < cfg.numWorkers := by
      by_contra outside
      exact awake (if_neg outside)
    rw [view_stage worker] at awake more
    refine departing.stuck worker halt (able_of_awake awake fun finished => more ?_)
    rw [show (d.state.workers v).pc = .finished from finished]
    rfl
  intro next
  cases next with
  | @receive v asleep mail =>
    obtain ⟨p, below⟩ := departing.inv.mail mail
    have worker := (mem_exitChildren.mp below).1
    rw [view_stage worker] at asleep
    refine departing.stuck worker halt ⟨fun finished => ?_, fun _ _ => ?_⟩
    · rw [show (d.state.workers v).pc = .finished from finished] at asleep
      cases asleep
    · exact List.any_eq_true.mpr ⟨0, List.mem_range.mpr cfg.someSteal, mail⟩
  | @run v told => exact moves (v := v) (by simp [told]) (by simp [told])
  | @tell v c left telling => exact moves (v := v) (by simp [telling]) (by simp [telling])

/-- Everybody has left once, and nothing is left behind. -/
structure Gone (cfg : Config) (before : State) (d : Exit) : Prop where
  calls : ∀ w < cfg.numWorkers, d.calls w = 1
  finished : ∀ w < cfg.numWorkers,
    (d.state.workers w).taskingFinished = true ∧ (d.state.workers w).pc = .finished
  deques : ∀ w < cfg.numWorkers, (d.state.workers w).deque = []
  chanTasks : ∀ v c, d.state.net.chanTasks v c = none
  chanRequests : ∀ i, d.state.net.chanRequests i = []
  executed : ∀ w < cfg.numWorkers,
    (d.state.workers w).numTasksExec = (before.workers w).numTasksExec

theorem Departing.gone (departing : Departing cfg s d) (halt : ∀ d', ¬ (exits cfg s).step d d') :
    Gone cfg s d := by
  have done {w : ℕ} (worker : w < cfg.numWorkers) : (d.view cfg).stage w = .telling [] :=
    departing.inv.halted (departing.message_halts halt) (exitTree_node worker)
  have left {w : ℕ} (worker : w < cfg.numWorkers) : (d.state.workers w).pc = .finished := by
    by_contra unfinished
    have stage := done worker
    rw [view_stage worker] at stage
    refine departing.stuck worker halt (able_of_awake ?_ unfinished)
    rw [show (d.state.node w).self.pc.exitStage cfg w = .telling [] from stage]
    simp
  refine ⟨fun w worker => ?_, fun w worker => ⟨?_, left worker⟩,
    fun w worker => (departing.workers w worker).deque, fun v c => ?_, departing.requests,
    fun w worker => (departing.workers w worker).executed⟩
  · exact (departing.inv.runs w).trans (by rw [done worker]; rfl)
  · exact (departing.workers w worker).finished.mpr (left worker)
  · by_contra some
    obtain ⟨message, slot⟩ := Option.ne_none_iff_exists'.mp some
    obtain ⟨rfl, -⟩ := departing.messages v c message slot
    have mail : (d.view cfg).mail v = true := by simp [Exit.view, slot]
    obtain ⟨p, below⟩ := departing.inv.mail mail
    have asleep := departing.inv.mail_asleep mail
    rw [done (mem_exitChildren.mp below).1] at asleep
    cases asleep

/-- After `RT_EXIT` no assertion fails. -/
theorem Departing.no_fault (departing : Departing cfg s d) (which : Fault) :
    ¬ Faults cfg d.state which := by
  rintro ⟨w, worker, c, ran⟩
  rcases departing.able worker c with able | stuck
  · obtain ⟨n, moved, -⟩ := (departing.returns worker able c).exists_ok
    cases ran.symm.trans moved
  · cases ran.symm.trans stuck

theorem exits_departing (ok : Refines cfg s) (settles : Settles cfg s)
    (quiescent : (s.workers 0).quiescent = true) (user : (s.workers 0).pc = .user)
    (reached : (exits cfg s).Reachable d) : Departing cfg s d := by
  refine @System.Reachable.invariant _ (exits cfg s) (Departing cfg s) ?_ ?_ d reached
  · rintro d ⟨c, n, exit, moved, rfl⟩
    have runs := ok.exit_runs quiescent user (settles.calm quiescent).frames exit
    obtain rfl : s.exitNode = n := Except.ok.inj (runs.symm.trans moved)
    exact settles.departing ok quiescent
  · rintro d d' - departing ⟨w, worker, c, n, moved, rfl⟩
    exact departing.step worker moved

/-- `RT_barrier` has returned on the master, no task was pushed since, and the master runs
`RT_EXIT`.  It can; from then on no assertion fails, so the calls of `RT_EXIT_FN` and the sends
of `async_action` succeed, and no worker calls `RT_EXIT_FN` twice; and wherever the workers
come to a halt, everybody has left and nothing is left behind. -/
theorem exit_reaches_everybody_once (reached : (settled cfg).Reachable s)
    (user : (s.workers 0).pc = .user) (quiescent : (s.workers 0).quiescent = true) :
    (∀ c : Choice, c.act = .exit → wstep cfg 0 c (s.node 0) = .ok s.exitNode) ∧
    ∀ d, (exits cfg s).Reachable d →
      (∀ w, d.calls w ≤ 1) ∧ (∀ which, ¬ Faults cfg d.state which) ∧
      ((∀ d', ¬ (exits cfg s).step d d') → Gone cfg s d) := by
  have running : s.net.exiting = false := by
    rcases reachable_cases (settled_reachable reached) with ok | closed
    · exact ok.net.running
    · rcases closed.master_out with out | out | out <;> simp [user] at out
  obtain ⟨ok, settles⟩ := settled_settles reached running
  refine ⟨fun c exit => ok.exit_runs quiescent user (settles.calm quiescent).frames exit,
    fun d after => ?_⟩
  have departing := exits_departing ok settles quiescent user after
  exact ⟨departing.inv.runs_le_one, departing.no_fault, departing.gone⟩

/-! ### A run -/

/-- A schedule in which everything a worker waits for is there. -/
theorem after_settled {schedule : List (ℕ × Choice)} (ready : ∀ e ∈ schedule, e.2.ready = true) :
    (settled cfg).Reachable (after cfg schedule) := by
  refine (System.reachable_of_init rfl).follow fun entry member s s' taken => ?_
  obtain ⟨worker, n, moved, put⟩ := turn_ok taken
  exact ⟨entry.1, worker, entry.2, n, moved, put, fun _ _ _ => ready entry member⟩

theorem follow_exits (schedule : List (ℕ × Choice)) (d : Exit) :
    ∃ d', Relation.ReflTransGen (exits cfg s).step d d' ∧
      d'.state = System.follow (turn cfg) schedule d.state := by
  refine System.follow_lift (fun entry _ d s' taken => ?_) d
  obtain ⟨worker, n, moved, rfl⟩ := turn_ok taken
  exact ⟨d.record entry.1 n, ⟨entry.1, worker, entry.2, n, moved, rfl⟩, rfl⟩

theorem halts_of_finished (finished : ∀ w < cfg.numWorkers, (d.state.workers w).pc = .finished)
    (d' : Exit) : ¬ (exits cfg s).step d d' := by
  rintro ⟨w, worker, c, n, moved, -⟩
  simp only [wstep, State.node, finished w worker] at moved
  cases moved

/-- `RT_barrier` has returned. -/
def returned : State :=
  after (.makefile 2 two_pos)
    ((barrierSchedule ++ runsOn 0 1).map fun e => (e.1, { e.2 with ready := true }))

/-- The master leaves, and then worker 1, which is in `WAIT`. -/
def departed : State :=
  System.follow (turn (.makefile 2 two_pos)) (runsOn 0 2 ++ runsOn 1 5)
    (returned.put 0 returned.exitNode)

theorem exit_reaches_both_workers :
    (returned.workers 0).pc = .user ∧ (returned.workers 0).quiescent = true ∧
      ∃ d, (exits (.makefile 2 two_pos) returned).Reachable d ∧
        (∀ d', ¬ (exits (.makefile 2 two_pos) returned).step d d') ∧
        Gone (.makefile 2 two_pos) returned d := by
  have reached : (settled (.makefile 2 two_pos)).Reachable returned :=
    after_settled (List.forall_mem_map.mpr fun _ _ => rfl)
  have user : (returned.workers 0).pc = .user := by decide +kernel
  have quiescent : (returned.workers 0).quiescent = true := by decide +kernel
  obtain ⟨runs, ends⟩ := exit_reaches_everybody_once reached user quiescent
  have finished : (departed.workers 0).pc = .finished ∧ (departed.workers 1).pc = .finished :=
    ⟨by decide +kernel, by decide +kernel⟩
  obtain ⟨d, run, same⟩ := @follow_exits (.makefile 2 two_pos) returned (runsOn 0 2 ++ runsOn 1 5)
    (Exit.record ⟨returned, fun _ => 0⟩ 0 returned.exitNode)
  replace same : d.state = departed := same
  have left : (exits (.makefile 2 two_pos) returned).Reachable d :=
    ⟨_, ⟨.plain .exit, _, rfl, runs _ rfl, rfl⟩, run⟩
  have halt := @halts_of_finished (.makefile 2 two_pos) returned d fun w worker => by
    obtain rfl | rfl : w = 0 ∨ w = 1 := by
      have : w < 2 := worker
      omega
    · rw [same]
      exact finished.1
    · rw [same]
      exact finished.2
  exact ⟨user, quiescent, d, left, halt, (ends d left).2.2 halt⟩

end Runs

end Tasking.Runtime
