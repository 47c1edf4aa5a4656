import Tasking.LazyFutures
import Tasking.Victims

/-! The functions of `runtime.c` that send, pass on, answer and retire steal
requests.  Each acts on what one worker can touch: its own variables and the
channels. -/
namespace Tasking.Runtime
open Fallible Loops Function

/-- One worker and the channels. -/
structure Node where
  self : Worker
  net : Network

/-- What the environment decides during a step: the values of `rand_r`, and the
number of requests `split_adaptive` counts. -/
structure Oracle where
  rand : List ℕ
  pending : ℕ

/-! ## Channels -/

/-- `channel_send` on a request channel that has room. -/
def Network.pushRequest (net : Network) (target : ℕ) (req : StealRequest) : Network :=
  { net with chanRequests := update net.chanRequests target (net.chanRequests target ++ [req]) }

/-- `channel_receive` on a request channel that is not empty. -/
def Network.dropRequest (net : Network) (target : ℕ) : Network :=
  { net with chanRequests := update net.chanRequests target (net.chanRequests target).tail }

def Network.putTask (net : Network) (owner chan : ℕ) (message : Option Message) : Network :=
  { net with chanTasks := update net.chanTasks owner (update (net.chanTasks owner) chan message) }

/-- `channel_send` on a task channel, whose result the callers ignore: a full slot
loses the batch. -/
def Network.sendTasks (net : Network) (owner chan : ℕ) (batch : List Task) (answers : ReqState) :
    Network :=
  match net.chanTasks owner chan with
  | none => net.putTask owner chan (some (.tasks batch answers))
  | some _ => { net with lost := net.lost ++ batch.map Task.id }

/-- `SEND_REQ`.  The loop retries a failed send; no step of another worker falls
between the tries here, so a full channel fails three times and trips the
assertion, unless `tasking_finished` breaks the loop. -/
def sendReq (cfg : Config) (target : ℕ) (req : StealRequest) (n : Node) : Checked Node :=
  if (n.net.chanRequests target).length < cfg.requestCapacity then
    return { n with net := n.net.pushRequest target req }
  else if n.self.taskingFinished then return n
  else .error (.fault .sendReqCapacity)

/-! ## The stack of channels -/

/-- `CHANNEL_PUSH`. -/
def channelPush (cfg : Config) (chan : ℕ) (x : Worker) : Checked Worker := do
  check (x.channelStack.length ≠ cfg.maxSteal) .boundedStackPush
  return { x with channelStack := chan :: x.channelStack }

/-- `CHANNEL_POP`. -/
def channelPop (x : Worker) : Checked (ℕ × Worker) :=
  match x.channelStack with
  | [] => .error (.fault .boundedStackPop)
  | chan :: rest => return (chan, { x with channelStack := rest })

/-- `FORGET_REQ`. -/
def forgetReq (cfg : Config) (ID : ℕ) (req : StealRequest) (x : Worker) : Checked Worker := do
  check (req.ID = ID) .forgetReqOwn
  check (x.requested ≠ 0) .forgetReqRequested
  channelPush cfg req.chan { x with requested := x.requested - 1 }

/-! ## Sending and passing on -/

/-- `detect_termination`. -/
def detectTermination (ID : ℕ) (x : Worker) : Checked Worker := do
  check (ID = 0) .detectMaster
  check (x.leftSubtreeIsIdle && x.rightSubtreeIsIdle) .detectSubtreesIdle
  check (!x.quiescent) .detectQuiescent
  return { x with quiescent := true }

/-- `ratio` in `try_send_steal_request`: tasks executed for each receipt in the last
interval.  The difference is one of `int`s; the quotient of two of them is compared with
2 and with 1 only, for which a `double` is exact. -/
def stealRatio (cfg : Config) (x : Worker) : ℚ :=
  ((x.numTasksExec - x.checkpoint).toInt : ℚ) / cfg.stealAdaptiveInterval

/-- The start of `try_send_steal_request` under `STEAL == adaptive`. -/
def adaptStrategy (cfg : Config) (x : Worker) : Worker :=
  if cfg.steal = .adaptive ∧ x.numRecentSteals = cfg.stealAdaptiveInterval then
    let ratio := stealRatio cfg x
    { x with
      stealhalf :=
        if x.stealhalf && ratio < 2 then false
        else if !x.stealhalf && ratio = 1 then true
        else x.stealhalf
      numRecentSteals := 0
      checkpoint := x.numTasksExec }
  else x

/-- `try_send_steal_request`. -/
def trySendStealRequest (cfg : Config) (o : Oracle) (ID : ℕ) (idle : Bool) (n : Node) :
    Checked Node :=
  if n.self.requested < cfg.maxSteal then do
    let (chan, x) ← channelPop (adaptStrategy cfg n.self)
    let req : StealRequest :=
      ⟨chan, ID, 0, initVictims cfg.numWorkers, if idle then .idle else .working, x.stealhalf⟩
    let (victim, req) ← nextVictim cfg o.rand ID x req
    let n ← sendReq cfg victim req { n with self := x }
    return { n with self := { n.self with requested := n.self.requested + 1 } }
  else return n

/-- What `decline_steal_request` does with the last of the worker's own requests:
the master detects termination, any other worker sends the request to its parent
and waits for an answer. -/
def goQuiescent (cfg : Config) (ID : ℕ) (req : StealRequest) (n : Node) : Checked Node :=
  if ID = 0 then do
    let x ← detectTermination ID n.self
    let x ← forgetReq cfg ID req x
    return { n with self := x }
  else do
    let n ← sendReq cfg ((WorkerTree.parent ID).getD 0) { req with state := .failed } n
    check (!n.self.waitingForTasks) .declineWaiting
    return { n with self :=
      { n.self with waitingForTasks := true, inWait := cfg.backoff = .waitCond } }

/-- `decline_steal_request`. -/
def declineStealRequest (cfg : Config) (o : Oracle) (ID : ℕ) (req : StealRequest) (n : Node) :
    Checked Node := do
  check (req.tries < cfg.maxStealAttempts + 1) .declineTry
  let req := { req with tries := req.tries + 1 }
  if req.ID = ID then
    if req.state = .idle ∧ n.self.leftSubtreeIsIdle ∧ n.self.rightSubtreeIsIdle then
      if 1 < cfg.maxSteal then
        if n.self.requested = cfg.maxSteal ∧ n.self.channelStack.length = cfg.maxSteal - 1 then
          check (n.self.droppedStealRequests = cfg.maxSteal - 1) .declineDropped
          goQuiescent cfg ID req n
        else
          check (!n.self.waitingForTasks) .declineDropWaiting
          let x ← channelPush cfg req.chan n.self
          return { n with self := { x with droppedStealRequests := x.droppedStealRequests + 1 } }
      else goQuiescent cfg ID req n
    else
      let req := { req with tries := 0, victims := initVictims cfg.numWorkers }
      let (victim, req) ← nextVictim cfg o.rand ID n.self req
      if victim ≠ ID then sendReq cfg victim req n
      else
        check (req.state = .working) .declineWorking
        let x ← forgetReq cfg ID req n.self
        return { n with self := x }
  else
    let (victim, req) ← nextVictim cfg o.rand ID n.self req
    sendReq cfg victim req n

/-! ## Answering -/

/-- `deque_steal` and `deque_steal_half` split off the last tasks of the deque. -/
def stealLast (count : ℕ) (deque : List Task) : List Task × List Task :=
  (deque.drop (deque.length - count), deque.take (deque.length - count))

/-- How many tasks are stolen for a request. -/
def lootSize (cfg : Config) (req : StealRequest) (deque : List Task) : ℕ :=
  let half := if deque.length / 2 = 0 then 1 else deque.length / 2
  match cfg.steal with
  | .one => 1
  | .half => half
  | .adaptive => if req.stealhalf then half else 1

/-- The tasks stolen for a request, and those that stay. -/
def takeLoot (cfg : Config) (req : StealRequest) (deque : List Task) : List Task × List Task :=
  stealLast (lootSize cfg req deque) deque

/-- The loop of `handle_steal_request` over the tasks about to be sent: their results come
through channels from now on. -/
def convertFutures (batch : List Task) (futures : ℕ → LazyFuture) : ℕ → LazyFuture :=
  batch.foldl (fun fs t => match t.future with
    | some f => update fs f (fs f).convert
    | none => fs) futures

/-- `task->victim = ID` for the head of the list. -/
def markVictim (cfg : Config) (ID : ℕ) : List Task → List Task
  | [] => []
  | t :: rest => (if cfg.victims = .lastVictim then { t with victim := ID } else t) :: rest

/-- The part of `handle_steal_request` that sends stolen tasks. -/
def sendLoot (cfg : Config) (ID : ℕ) (req : StealRequest) (n : Node) : Node :=
  let (loot, rest) := takeLoot cfg req n.self.deque
  { self := { n.self with
      deque := rest
      lastThief := if cfg.victims = .lastThief then req.ID else n.self.lastThief }
    net := { n.net with futures := convertFutures loot n.net.futures }.sendTasks req.ID req.chan
      (markVictim cfg ID loot) req.state }

/-- `labs(task->end - task->cur)` of the current task if that is a loop. -/
def tasksLeft (x : Worker) : ℤ :=
  match x.currentTask with
  | some t => if t.splittable then itersLeft t.range else 0
  | none => 0

/-- `handle_steal_request`. -/
def handleStealRequest (cfg : Config) (o : Oracle) (ID : ℕ) (req : StealRequest) (n : Node) :
    Checked Node :=
  if req.ID = ID then do
    check (req.state ≠ .failed) .handleOwnFailed
    let threshold := cfg.stealEarly.getD 0
    if threshold < n.self.deque.length ∨ (threshold : ℤ) < tasksLeft n.self then
      let x ← forgetReq cfg ID req n.self
      return { n with self := x }
    else declineStealRequest cfg o ID req n
  else if n.self.deque = [] then declineStealRequest cfg o ID req n
  else return sendLoot cfg ID req n

/-- `RT_task_alloc`: an object from the freelist, or a new one. -/
def taskAlloc (n : Node) : ℕ × Node :=
  match n.self.freelist with
  | addr :: rest => (addr, { n with self := { n.self with freelist := rest } })
  | [] => (n.net.nextAddr, { n with net := { n.net with nextAddr := n.net.nextAddr + 1 } })

/-- `get_current_task()->futures = p`: the current task is the innermost frame or,
on the master, the root.  A worker without a frame has none. -/
def registerFuture (ID f : ℕ) (x : Worker) : Checked Worker :=
  match x.frames with
  | frame :: rest => return { x with frames :=
      { frame with task := { frame.task with futures := f :: frame.task.futures } } :: rest }
  | [] =>
    if ID = 0 then return { x with rootFutures := f :: x.rootFutures }
    else .error (.fault .splitLoopNullTask)

/-- The part of `split_loop` that gives the duplicate a future of its own. -/
def patchFuture (ID : ℕ) (dup : Task) (n : Node) : Checked (Task × Node) :=
  match dup.future with
  | none => return (dup, n)
  | some _ => do
    let f := n.net.nextFuture
    let x ← registerFuture ID f n.self
    return ({ dup with future := some f, futures := [] },
      { self := x
        net := { n.net with
          futures := update n.net.futures f (.heap ID)
          nextFuture := f + 1 } })

/-- `split_loop`, up to the last assignment: the caller shortens the task it
split to end at the returned cut. -/
def splitLoop (cfg : Config) (o : Oracle) (ID : ℕ) (task : Task) (req : StealRequest) (n : Node) :
    Checked (ℤ × Node) := do
  check (req.ID ≠ ID) .splitLoopOwn
  let (addr, n) := taskAlloc n
  let split ← splitFunc cfg.split cfg.numWorkers o.pending task.range
  let dup : Task := { task with
    id := n.net.nextId
    addr := addr
    range := task.range.upper split
    iter := none
    victim := if cfg.victims = .lastVictim then ID else task.victim }
  let (dup, n) ← patchFuture ID dup n
  let net := { n.net with nextId := n.net.nextId + 1, created := n.net.created ++ [dup.id] }
  let net := net.sendTasks req.ID req.chan [dup] req.state
  let x := { n.self with lastThief := if cfg.victims =
    .lastThief then req.ID else n.self.lastThief }
  return (split, { self := x, net := net })

/-- `task->end = split` on the current task. -/
def Worker.shortenCurrent (x : Worker) (split : ℤ) : Worker :=
  match x.frames with
  | [] => x
  | frame :: rest => { x with frames :=
      { frame with task := { frame.task with range := frame.task.range.lower split } } :: rest }

/-- The worker is the parent of `child`. -/
def isChild (cfg : Config) (ID child : ℕ) : Bool :=
  cfg.leftChild ID == some child || cfg.rightChild ID == some child

/-- `handle`: whether work was available, and the state after. -/
def handle (cfg : Config) (o : Oracle) (ID : ℕ) (req : StealRequest) (n : Node) :
    Checked (Bool × Node) := do
  if n.self.deque ≠ [] then
    let n ← handleStealRequest cfg o ID req n
    return (true, n)
  match n.self.currentTask.filter Task.canSplit with
  | some this =>
    if req.ID ≠ ID then
      let (split, n) ← splitLoop cfg o ID this req n
      return (true, { n with self := n.self.shortenCurrent split })
    else
      let x ← forgetReq cfg ID req n.self
      return (false, { n with self := x })
  | none =>
    if req.state = .failed then
      check (isChild cfg ID req.ID) .handleChild
      return (false, n)
    else
      let n ← declineStealRequest cfg o ID req n
      return (false, n)

/-- The end of one round of `share_work`: the child that was served is not idle
any more, and its request is discarded. -/
def clearLifeline (cfg : Config) (ID child : ℕ) (x : Worker) : Checked Worker := do
  let x : Worker ← if cfg.leftChild ID = some child then do
      check x.leftSubtreeIsIdle .shareLeftIdle
      pure { x with leftSubtreeIsIdle := false }
    else do
      check x.rightSubtreeIsIdle .shareRightIdle
      pure { x with rightSubtreeIsIdle := false }
  return { x with workSharingRequests := x.workSharingRequests.tail }

/-- One round of the loop of `share_work`: whether to go on, and the state after. -/
def shareRound (cfg : Config) (o : Oracle) (ID : ℕ) (n : Node) : Checked (Bool × Node) :=
  match n.self.workSharingRequests with
  | [] => return (false, n)
  | req :: _ => do
    check (isChild cfg ID req.ID) .shareChild
    let (served, n) ← handle cfg o ID req n
    if served then
      let x ← clearLifeline cfg ID req.ID n.self
      return (true, { n with self := x })
    else return (false, n)

/-! ## Receiving -/

/-- The loop body of `RECV_REQ` for a request with `STATE_FAILED`: the child has given up, and
its request is kept until there is work to share. -/
def holdOn (cfg : Config) (ID : ℕ) (req : StealRequest) (x : Worker) : Checked Worker := do
  check (isChild cfg ID req.ID) .recvReqChild
  let x : Worker ← if cfg.leftChild ID = some req.ID then do
      check (!x.leftSubtreeIsIdle) .recvReqLeftIdle
      pure { x with leftSubtreeIsIdle := true }
    else do
      check (!x.rightSubtreeIsIdle) .recvReqRightIdle
      pure { x with rightSubtreeIsIdle := true }
  check (x.workSharingRequests.length ≠ 2) .boundedQueueEnqueue
  return { x with workSharingRequests := x.workSharingRequests ++ [req] }

/-- The bookkeeping of `RECV_TASK` after a message arrived on channel `chan`. -/
def receivedTask (cfg : Config) (chan : ℕ) (x : Worker) : Checked Worker := do
  let x ← channelPush cfg chan x
  let x : Worker ← if x.waitingForTasks then do
      check (x.requested = cfg.maxSteal) .recvTaskRequestedMax
      check (x.channelStack.length = cfg.maxSteal) .recvTaskStackMax
      pure { x with requested := 1, waitingForTasks := false, droppedStealRequests := 0 }
    else if 1 < cfg.maxSteal ∧ 0 < x.droppedStealRequests then do
      check (x.droppedStealRequests < x.requested) .recvTaskAboveDropped
      pure { x with requested := x.requested - x.droppedStealRequests, droppedStealRequests := 0 }
    else pure x
  let x : Worker := { x with requested := x.requested - 1 }
  check (0 ≤ x.requested ∧ x.requested < cfg.maxSteal) .recvTaskRequestedRange
  check (x.droppedStealRequests = 0) .recvTaskDroppedZero
  return x

end Tasking.Runtime
