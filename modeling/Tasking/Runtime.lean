import Tasking.StealRequests
import Tasking.Transition

/-! The runtime as a transition system.  A step is one worker moving from one
program point to the next; it performs at most one channel operation, together
with the worker-local code around it.  The user's program is not fixed: at a
point of user code the environment chooses what the current task does next, so
the runs of the system are the runs of every program under every schedule. -/
namespace Tasking.Runtime
open Fallible Loops

/-- What the code of the current task does next. -/
inductive UserAct where
  /-- `ASYNC` or `FUTURE`, of a loop over the given bounds or of a plain function. -/
  | spawn (loop : Option (ℤ × ℤ)) (future : Bool)
  | poll
  | await (f : Awaited)
  /-- One round of `REDUCE`. -/
  | reduce
  | barrier
  | exit
  /-- Entering `ASYNC_FOR`. -/
  | asyncFor
  /-- The end of an iteration of `ASYNC_FOR`. -/
  | iterate
  /-- Returning from the task, with the result if it has a future. -/
  | finish (value : Value)
  deriving DecidableEq, Repr

/-- What the environment decides in a step: what user code does, the values of `rand_r`, the
requests that are counted, and when others are ready. -/
structure Choice where
  act : UserAct
  oracle : Oracle
  /-- Whether a condition other than a future of this worker holds. -/
  ready : Bool

def Node.goto (n : Node) (pc : Pc) : Node := { n with self := { n.self with pc := pc } }

def Network.setFuture (net : Network) (f : ℕ) (content : LazyFuture) : Network :=
  { net with futures := Function.update net.futures f content }

/-! ## Tasks -/

/-- `run_task` up to the call of the task's function. -/
def runTask (t : Task) (ret : Ret) (n : Node) : Node :=
  { self := { n.self with frames := ⟨t, ret⟩ :: n.self.frames, pc := .user }
    net := { n.net with started := n.net.started ++ [t.id] } }

def Site.popped : Site → Ret
  | .schedule => .schedule
  | .barrier => .barrier
  | .force f => .popped f

def Site.stolen : Site → Ret
  | .schedule => .schedule
  | .barrier => .barrier
  | .force f => .stolen f

/-- Where a worker goes on after `run_task` and `deque_task_cache`. -/
def Ret.next : Ret → Pc
  | .schedule => .pop .schedule
  | .barrier => .pop .barrier
  | .popped f => .forceReady f .popped
  | .stolen f => .forceReady f .outer

/-- `num_tasks_exec += …`, which counts the iterations of a loop in an `int`. -/
def Task.weight (t : Task) : Int32 :=
  if t.splittable then .ofInt (labs (long (t.range.stop - t.range.start))) else 1

/-- `ASYNC` and `FUTURE`: the new task object. -/
def newTask (ID : ℕ) (loop : Option (ℤ × ℤ)) (future : Bool) (n : Node) : Task × Node :=
  let (addr, n) := taskAlloc n
  let f := n.net.nextFuture
  let (lo, hi) := loop.getD (0, 0)
  let t : Task :=
    { id := n.net.nextId, addr := addr, parent := n.self.currentAddr, splittable := loop.isSome
      range := ⟨lo, lo, hi⟩, iter := none, victim := 0
      future := if future then some f else none, futures := [] }
  let net := if future then
      { n.net with futures := Function.update n.net.futures f (.alloc ID), nextFuture := f + 1 }
    else n.net
  (t, { n with net := { net with nextId := t.id + 1, created := net.created ++ [t.id] } })

/-- `RT_push`, up to the call of `share_work`. -/
def push (ID : ℕ) (t : Task) (x : Worker) : Checked Worker := do
  let x : Worker := { x with deque := t :: x.deque, pc := .shareWork .push }
  if x.quiescent then
    check (ID = 0) .pushMaster
    return { x with quiescent := false }
  else return x

/-- The worker after its innermost task returned: `run_task` counts it, and
`deque_task_cache` keeps the task object. -/
def Worker.popFrame (x : Worker) (frame : Frame) (rest : List Frame) : Worker :=
  { x with
    frames := rest
    pc := frame.ret.next
    numTasksExec := x.numTasksExec + frame.task.weight
    freelist := frame.task.addr :: x.freelist }

/-- The part of `run_task` after the task's function returned, `FUTURE_SET` at the
end of that function, and `deque_task_cache`.  There is no step for a result of more than
eight bytes, which the source would write over the flags of the future. -/
def finish (value : Value) (n : Node) : Checked Node :=
  match n.self.frames with
  | [] => .error .disabled
  | frame :: rest => do
    let net ← match frame.task.future with
      | none => pure n.net
      | some f => do
        await (value.length ≤ 8)
        let written ← (n.net.futures f).write value
        pure (n.net.setFuture f written)
    return ⟨n.self.popFrame frame rest, { net with finished := net.finished ++ [frame.task.id] }⟩

/-! ## User code -/

/-- `AWAIT` of a future this worker created and has not awaited yet. -/
def awaitOwn (f : ℕ) (n : Node) : Node :=
  { n with net := n.net.setFuture f { n.net.futures f with awaited := true } }.goto
    (.forceReady (.own f) .entry)

/-- The future may be awaited by this worker. -/
def Network.awaitable (net : Network) (ID f : ℕ) : Bool :=
  decide (f < net.nextFuture) && (net.futures f).creator == ID && !(net.futures f).awaited

/-- The `futures` of the current task. -/
def Worker.currentFutures (x : Worker) : List ℕ :=
  match x.frames with
  | frame :: _ => frame.task.futures
  | [] => x.rootFutures

def Worker.setCurrentFutures (x : Worker) (futures : List ℕ) : Worker :=
  match x.frames with
  | frame :: rest =>
    { x with frames := { frame with task := { frame.task with futures := futures } } :: rest }
  | [] => { x with rootFutures := futures }

/-- One round of `REDUCE`: remove the first future of the current task, and await
it.  A list that was copied along with its task may name a future of another
worker. -/
def reduce (ID : ℕ) (n : Node) : Node :=
  match n.self.currentFutures with
  | [] => n
  | f :: rest =>
    let n := { n with self := n.self.setCurrentFutures rest }
    if n.net.awaitable ID f then awaitOwn f n else n.goto (.forceReady .foreign .entry)

/-- Entering `ASYNC_FOR`. -/
def asyncFor (x : Worker) : Checked Worker :=
  match x.frames with
  | [] => .error (.fault .asyncForSplittable)
  | frame :: rest => do
    let t := frame.task
    check t.splittable .asyncForSplittable
    check (t.range.start = t.range.cur) .asyncForStart
    let t := { t with
      iter := some t.range.start, range := { t.range with cur := long (t.range.cur + 1) } }
    return { x with frames := { frame with task := t } :: rest }

/-- The end of the body of `ASYNC_FOR`: `i++, this->cur++, POLL()`. -/
def iterate (x : Worker) : Checked Worker :=
  match x.frames with
  | [] => .error .disabled
  | frame :: rest =>
    match frame.task.iter with
    | none => .error .disabled
    | some i => do
      let t := frame.task
      await (i < t.range.stop)
      let t := { t with
        iter := some (long (i + 1)), range := { t.range with cur := long (t.range.cur + 1) } }
      return { x with frames := { frame with task := t } :: rest, pc := .shareWork .poll }

/-- The assertions of `RT_EXIT_FN`. -/
def exitFn (ID : ℕ) (n : Node) : Checked Node := do
  check (!n.self.taskingFinished) .exitFinished
  check (n.self.leftSubtreeIsIdle && n.self.rightSubtreeIsIdle) .exitSubtreesIdle
  check (ID = 0 → n.self.quiescent) .exitQuiescent
  return { n with net := { n.net with exiting := true } }.goto .exitLeft

def userStep (ID : ℕ) (act : UserAct) (n : Node) : Checked Node :=
  match act with
  | .spawn loop future => do
    let (t, n) := newTask ID loop future n
    let x ← push ID t n.self
    return { n with self := x }
  | .poll => return n.goto (.shareWork .poll)
  | .await .foreign => return n.goto (.forceReady .foreign .entry)
  | .await (.own f) => do
    await (n.net.awaitable ID f)
    return awaitOwn f n
  | .reduce => return reduce ID n
  | .barrier =>
    if ID ≠ 0 then return n
    else do
      check (n.self.frames = []) .barrierRoot
      return n.goto (.pop .barrier)
  | .exit => do
    await (ID = 0 ∧ n.self.frames = [])
    exitFn ID n
  | .asyncFor => do
    let x ← asyncFor n.self
    return { n with self := x }
  | .iterate => do
    let x ← iterate n.self
    return { n with self := x }
  | .finish value => finish value n

/-! ## The program points of the runtime -/

/-- `deque_pop`, in its two versions. -/
def dequePop (site : Site) (x : Worker) : Option Task × List Task :=
  match x.deque with
  | [] => (none, [])
  | t :: rest =>
    match site with
    | .force _ => if t.parent = x.currentAddr then (some t, rest) else (none, t :: rest)
    | .schedule | .barrier => (some t, rest)

/-- `try_steal` sends a request at this point. -/
def stealsEarly (cfg : Config) (t : Task) (deque : List Task) : Bool :=
  match cfg.stealEarly with
  | none => false
  | some threshold =>
    !t.splittable && cfg.numWorkers != 1 && decide (deque.length ≤ threshold)

/-- `RT_pop`, up to `share_work` or the request of `try_steal`. -/
def popStep (cfg : Config) (site : Site) (n : Node) : Node :=
  let (task, deque) := dequePop site n.self
  let n := { n with self := { n.self with deque := deque } }
  match task with
  | none => n.goto (.shareWork (.pop site none))
  | some t =>
    if stealsEarly cfg t deque then n.goto (.trySend (.early site t))
    else n.goto (.shareWork (.pop site (some t)))

/-- What follows `share_work` at each of its callers. -/
def shareDone (cfg : Config) (ID : ℕ) (k : ShareCont) (n : Node) : Checked Node :=
  match k with
  | .push => return n.goto (.recvReq .push)
  | .poll =>
    let scan := if cfg.backoff = .off then [ID]
      else WorkerTree.levelWalk cfg.numWorkers cfg.numWorkers ID 0
    return n.goto (.peekReq scan)
  | .pop site task => return n.goto (.recvReq (.pop site task))
  | .got site t => return runTask t site.stolen n
  | .exit _ => exitFn ID n

def shareStep (cfg : Config) (o : Oracle) (ID : ℕ) (k : ShareCont) (n : Node) : Checked Node := do
  let (more, n) ← shareRound cfg o ID n
  if more then return n else shareDone cfg ID k n

/-- `PEEK_REQ`, at the next channel. -/
def peekStep (scan : List ℕ) (n : Node) : Node :=
  match scan with
  | [] => n.goto .user
  | i :: rest =>
    if n.net.chanRequests i ≠ [] then n.goto (.recvReq .poll) else n.goto (.peekReq rest)

/-- The test after `decline_all_steal_requests`, which may have detected termination. -/
def declined (site : Site) (n : Node) : Node :=
  if site = .barrier ∧ n.self.quiescent then n.goto .barrierExit else n.goto (.recvTask site 0)

/-- What follows a `RT_pop` that found no task. -/
def popFailed (cfg : Config) (site : Site) (n : Node) : Node :=
  match site with
  | .schedule => n.goto (.trySend (.enter .schedule))
  | .barrier =>
    if cfg.numWorkers = 1 then
      { n with self := { n.self with quiescent := true } }.goto .barrierExit
    else if n.self.quiescent then n.goto .barrierExit
    else n.goto (.trySend (.enter .barrier))
  | .force f => n.goto (.forceReady f .outer)

/-- What follows a `RECV_REQ` that found no request. -/
def noRequest (cfg : Config) (k : ReqCont) (n : Node) : Node :=
  match k with
  | .push | .poll => n.goto .user
  | .pop site (some t) => runTask t site.popped n
  | .pop site none => popFailed cfg site n
  | .declineAll site => declined site n
  | .force f => n.goto (.forceReady f .inner)

/-- A request was received; `decline_all_steal_requests` knows that its own worker
is idle. -/
def received (ID : ℕ) (k : ReqCont) (req : StealRequest) (n : Node) : Node :=
  match k with
  | .declineAll _ =>
    if req.ID = ID ∧ req.state = .working then n.goto (.handle k { req with state := .idle })
    else n.goto (.handle k req)
  | _ => n.goto (.handle k req)

/-- The channels `RECV_REQ` examines on behalf of workers that have backed off: those of the
subtrees flagged idle, level by level. -/
def onBehalf (cfg : Config) (ID : ℕ) (x : Worker) : List ℕ :=
  let walk (idle : Bool) (child : Option ℕ) : List ℕ :=
    match child with
    | some c => if idle then WorkerTree.levelWalk cfg.numWorkers cfg.numWorkers c 0 else []
    | none => []
  walk x.leftSubtreeIsIdle (cfg.leftChild ID) ++ walk x.rightSubtreeIsIdle (cfg.rightChild ID)

/-- `RECV_REQ`, at the worker's own channel. -/
def recvReqStep (cfg : Config) (ID : ℕ) (k : ReqCont) (n : Node) : Checked Node :=
  match n.net.chanRequests ID with
  | req :: _ =>
    if req.state = .failed then do
      let x ← holdOn cfg ID req n.self
      return ⟨x, n.net.dropRequest ID⟩
    else return received ID k req { n with net := n.net.dropRequest ID }
  | [] =>
    if cfg.backoff = .off then return noRequest cfg k n
    else return n.goto (.recvReqFor k (onBehalf cfg ID n.self))

/-- `RECV_REQ`, at the next channel of a worker that has backed off. -/
def recvReqForStep (cfg : Config) (ID : ℕ) (k : ReqCont) (scan : List ℕ) (n : Node) : Node :=
  match scan with
  | [] => noRequest cfg k n
  | i :: rest =>
    match n.net.chanRequests i with
    | req :: _ => received ID k req { n with net := n.net.dropRequest i }
    | [] => n.goto (.recvReqFor k rest)

/-- The body of the loop of `RT_pop` over the requests received. -/
def popHandle (cfg : Config) (o : Oracle) (ID : ℕ) (site : Site) (task : Option Task)
    (req : StealRequest) (n : Node) : Checked Node :=
  match if n.self.deque = [] then task.filter Task.canSplit else none with
  | some t =>
    if req.ID ≠ ID then do
      let (split, n) ← splitLoop cfg o ID t req n
      return n.goto (.recvReq (.pop site (some { t with range := t.range.lower split })))
    else do
      let x ← forgetReq cfg ID req n.self
      return { n with self := x }.goto (.recvReq (.pop site task))
  | none => do
    let n ← handleStealRequest cfg o ID req n
    return n.goto (.recvReq (.pop site task))

/-- Handling a request that was received, at each caller of `RECV_REQ`. -/
def handleStep (cfg : Config) (o : Oracle) (ID : ℕ) (k : ReqCont) (req : StealRequest) (n : Node) :
    Checked Node :=
  match k with
  | .push => do
    let n ← handleStealRequest cfg o ID req n
    return n.goto (.recvReq .push)
  | .poll => do
    let (_, n) ← handle cfg o ID req n
    return n.goto (.recvReq .poll)
  | .pop site task => popHandle cfg o ID site task req n
  | .declineAll site => do
    let n ← declineStealRequest cfg o ID req n
    return declined site n
  | .force f => do
    let n ← handleStealRequest cfg o ID req n
    return n.goto (.recvReq (.force f))

/-- What follows a failed `RECV_TASK`. -/
def taskMissing (cfg : Config) (site : Site) (n : Node) : Checked Node :=
  match site with
  | .force f => return n.goto (.trySend (.again f))
  | .schedule | .barrier => do
    check (n.self.deque = []) .idleDequeEmpty
    check (n.self.requested ≠ 0) .idleRequested
    if cfg.backoff = .sleepExp ∧ n.self.waitingForTasks ∧ site = .schedule then
      return n.goto (.recvTask site 0)
    else return n.goto (.recvReq (.declineAll site))

/-- `try_send_steal_request`, at each of its callers. -/
def sendStep (cfg : Config) (o : Oracle) (ID : ℕ) (k : SendCont) (n : Node) : Checked Node :=
  match k with
  | .enter site => do
    let n ← trySendStealRequest cfg o ID site.isIdle n
    if site.isIdle then
      check (n.self.requested ≠ 0) .idleRequested
    return n.goto (.recvTask site 0)
  | .failed site => do
    let n ← trySendStealRequest cfg o ID site.isIdle n
    taskMissing cfg site n
  | .again f => do
    let n ← trySendStealRequest cfg o ID false n
    return n.goto (.recvReq (.force f))
  | .early site t => do
    let n ← trySendStealRequest cfg o ID false n
    return n.goto (.shareWork (.pop site (some t)))

/-- What the search loops do with the tasks they received. -/
def unpack (cfg : Config) (ID : ℕ) (site : Site) (message : Message) (x : Worker) :
    Checked Worker := do
  let x : Worker := { x with
    numRecentSteals := if cfg.steal = .adaptive then x.numRecentSteals + 1 else x.numRecentSteals }
  match message with
  | .exit addr => return { x with pc := .shareWork (.exit addr) }
  | .tasks [] _ => .error .disabled
  | .tasks (t :: rest) _ =>
    let x : Worker := { x with deque := rest ++ x.deque, pc := .shareWork (.got site t) }
    if cfg.victims = .lastVictim ∧ t.victim ≠ -1 then
      check (t.victim ≠ ID) .lastVictimSelf
      return { x with lastVictim := t.victim }
    else return x

/-- Some task channel of the worker holds a message: `peek(chan_tasks[ID])`. -/
def Network.hasTask (cfg : Config) (net : Network) (ID : ℕ) : Bool :=
  (List.range cfg.maxSteal).any fun i => (net.chanTasks ID i).isSome

/-- `RECV_TASK` at channel `i`, and before it the end of `WAIT`. -/
def recvTaskStep (cfg : Config) (ID : ℕ) (site : Site) (i : ℕ) (n : Node) : Checked Node :=
  if n.self.inWait then do
    await (n.net.hasTask cfg ID)
    return { n with self := { n.self with inWait := false } }
  else
    match n.net.chanTasks ID i with
    | some message => do
      let x ← receivedTask cfg i n.self
      let x ← unpack cfg ID site message x
      return ⟨x, n.net.putTask ID i none⟩
    | none =>
      if i + 1 < cfg.maxSteal then return n.goto (.recvTask site (i + 1))
      else return n.goto (.trySend (.failed site))

/-- Where `RT_force_future` goes on if the future is not ready. -/
def ReadyPoint.next (f : Awaited) : ReadyPoint → Pc
  | .entry | .popped => .pop (.force f)
  | .outer => .trySend (.enter (.force f))
  | .inner => .recvTask (.force f) 0

/-- `READY`, and the return from `RT_force_future` if the future is ready. -/
def forceStep (f : Awaited) (point : ReadyPoint) (ready : Bool) (n : Node) : Checked Node :=
  match f with
  | .foreign => return n.goto (if ready then .user else point.next f)
  | .own i => do
    match ← (n.net.futures i).force with
    | none => return n.goto (point.next f)
    | some content => return { n with net := n.net.setFuture i content }.goto .user

/-- `async_action`, if the child exists. -/
def notifyChild (child : Option ℕ) (n : Node) : Checked Node :=
  match child with
  | none => return n
  | some c => do
    let (addr, n) := taskAlloc n
    check (n.net.chanTasks c 0 = none) .exitSend
    return { n with net := n.net.putTask c 0 (some (.exit addr)) }

/-- A task object as `task_zero` leaves it. -/
def Task.zero (addr : ℕ) : Task where
  id := 0
  addr := addr
  parent := 0
  splittable := false
  range := ⟨0, 0, 0⟩
  iter := none
  victim := 0
  future := none
  futures := []

/-- `num_tasks_exec` at the end of `RT_EXIT_FN`.  The master calls the function; for
the others it is the body of a task, which `run_task` counts when it returns. -/
def exitCount (ID : ℕ) (numTasksExec : Int32) : Int32 :=
  if ID = 0 then numTasksExec else numTasksExec - 1 + (Task.zero 0).weight

/-- The next step of worker `ID`. -/
def wstep (cfg : Config) (ID : ℕ) (c : Choice) (n : Node) : Checked Node :=
  match n.self.pc with
  | .user => userStep ID c.act n
  | .pop site => return popStep cfg site n
  | .shareWork k => shareStep cfg c.oracle ID k n
  | .peekReq scan => return peekStep scan n
  | .recvReq k => recvReqStep cfg ID k n
  | .recvReqFor k scan => return recvReqForStep cfg ID k scan n
  | .handle k req => handleStep cfg c.oracle ID k req n
  | .trySend k => sendStep cfg c.oracle ID k n
  | .recvTask site i => recvTaskStep cfg ID site i n
  | .forceReady f point => forceStep f point c.ready n
  | .barrierExit => do
    check n.self.quiescent .barrierQuiescent
    return n.goto .user
  | .exitLeft => do
    let n ← notifyChild (cfg.leftChild ID) n
    return n.goto .exitRight
  | .exitRight => do
    let n ← notifyChild (cfg.rightChild ID) n
    let x := { n.self with
      taskingFinished := true, numTasksExec := exitCount ID n.self.numTasksExec }
    return { n with self := x }.goto .finished
  | .finished => .error .disabled

/-! ## The system -/

/-- What worker `ID` sees of a state. -/
def State.node (s : State) (ID : ℕ) : Node := ⟨s.workers ID, s.net⟩

def State.put (s : State) (ID : ℕ) (n : Node) : State :=
  ⟨Function.update s.workers ID n.self, n.net⟩

def Moves (cfg : Config) (ID : ℕ) (s s' : State) : Prop :=
  ∃ c n, wstep cfg ID c (s.node ID) = .ok n ∧ s' = s.put ID n

/-- Any interleaving of the workers' steps. -/
def system (cfg : Config) : Transition.System State where
  init s := s = State.init cfg
  step s s' := ∃ ID < cfg.numWorkers, Moves cfg ID s s'

/-- The fault is one a worker can run into at this state. -/
def Faults (cfg : Config) (s : State) (which : Fault) : Prop :=
  ∃ ID < cfg.numWorkers, ∃ c, wstep cfg ID c (s.node ID) = .error (.fault which)

/-! ## Schedules -/

/-- A worker takes the step a schedule has for it. -/
def turn (cfg : Config) (entry : ℕ × Choice) (s : State) : Checked State := do
  await (entry.1 < cfg.numWorkers)
  let n ← wstep cfg entry.1 entry.2 (s.node entry.1)
  return s.put entry.1 n

theorem turn_ok {cfg : Config} {entry : ℕ × Choice} {s s' : State}
    (taken : turn cfg entry s = .ok s') : entry.1 < cfg.numWorkers ∧
      ∃ n, wstep cfg entry.1 entry.2 (s.node entry.1) = .ok n ∧ s' = s.put entry.1 n := by
  have ran := returns_of_ok taken
  simp only [turn, returns_bind, returns_await, returns_pure] at ran
  obtain ⟨n, moved, rfl⟩ := ran.2.exists_ok
  exact ⟨ran.1, n, moved, rfl⟩

def after (cfg : Config) (schedule : List (ℕ × Choice)) : State :=
  Transition.System.follow (turn cfg) schedule (State.init cfg)

theorem after_reachable (cfg : Config) (schedule : List (ℕ × Choice)) :
    (system cfg).Reachable (after cfg schedule) := by
  refine (Transition.System.reachable_of_init rfl).follow fun entry _ s s' taken => ?_
  obtain ⟨worker, n, moved, put⟩ := turn_ok taken
  exact ⟨entry.1, worker, entry.2, n, moved, put⟩

/-- The options set in the Makefile. -/
def Config.makefile (numWorkers : ℕ) (someWorker : 0 < numWorkers) : Config where
  numWorkers := numWorkers
  maxSteal := 1
  steal := .adaptive
  stealAdaptiveInterval := 25
  stealEarly := some 0
  split := .adaptive
  backoff := .waitCond
  victims := .random
  someWorker := someWorker
  someSteal := Nat.one_pos
  someInterval := by decide

/-- `rand_r` returns zeros, no request is pending, and no foreign condition holds. -/
def Choice.plain (act : UserAct) : Choice := ⟨act, ⟨List.replicate 8 0, 0⟩, false⟩

/-- Worker `ID` takes a number of steps outside user code. -/
def runsOn (ID count : ℕ) : List (ℕ × Choice) := List.replicate count (ID, .plain .poll)

end Tasking.Runtime
