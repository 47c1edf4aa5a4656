import Mathlib.Logic.Function.Basic
import Tasking.Loops
import Tasking.WorkerTree

/-!
The state of the runtime: tasks, lazy futures, steal requests, what each worker
keeps in its thread-local variables, and the channels the workers share.

Every worker also carries its program counter `Pc`.  A program point stands
before a channel operation, so that one step of the runtime performs at most one
of them; the continuation types name the caller a shared routine returns to.
Fields marked *ghost* are not in the source: they record history for the
statements.
-/
namespace Tasking.Runtime
open Loops WorkerTree

/-- `-DSTEAL=[one|half|adaptive]`. -/
inductive StealStrategy where
  | one | half | adaptive
  deriving DecidableEq, Repr

/-- `-DBACKOFF=[sleep_exp|wait_cond]`, or not defined. -/
inductive Backoff where
  | off | sleepExp | waitCond
  deriving DecidableEq, Repr

/-- `STEAL_LASTVICTIM`, `STEAL_LASTTHIEF`, or neither. -/
inductive VictimPolicy where
  | random | lastVictim | lastThief
  deriving DecidableEq, Repr

/-- The number of workers and the compile-time options. -/
structure Config where
  numWorkers : ℕ
  /-- `MAXSTEAL`. -/
  maxSteal : ℕ
  steal : StealStrategy
  stealAdaptiveInterval : ℕ
  /-- `STEAL_EARLY`, with `STEAL_EARLY_THRESHOLD`. -/
  stealEarly : Option ℕ
  split : SplitStrategy
  backoff : Backoff
  victims : VictimPolicy
  someWorker : 0 < numWorkers
  someSteal : 0 < maxSteal
  someInterval : 0 < stealAdaptiveInterval

/-- `MAX_STEAL_ATTEMPTS`, at its default. -/
def Config.maxStealAttempts (cfg : Config) : ℕ := cfg.numWorkers - 1

/-- The capacity `RT_init` gives every request channel. -/
def Config.requestCapacity (cfg : Config) : ℕ := cfg.maxSteal * cfg.numWorkers

def Config.leftChild (cfg : Config) (ID : ℕ) : Option ℕ :=
    WorkerTree.leftChild ID (cfg.numWorkers - 1)

def Config.rightChild (cfg : Config) (ID : ℕ) : Option ℕ :=
  WorkerTree.rightChild ID (cfg.numWorkers - 1)

/-! ## Steal requests -/

/-- `STATE_WORKING`, `STATE_IDLE`, `STATE_FAILED`. -/
inductive ReqState where
  | working | idle | failed
  deriving DecidableEq, Repr

/-- `struct steal_request`.  `chan` is the index of a channel of the sender. -/
structure StealRequest where
  chan : ℕ
  ID : ℕ
  tries : ℕ
  victims : BitVec 32
  state : ReqState
  stealhalf : Bool
  deriving DecidableEq, Repr

/-! ## Futures -/

/-- The bytes of a result. -/
abbrev Value := List UInt8

/-- The union of `lazy_future`: a null pointer, a pointer to the future's channel,
or the bytes of a result. -/
inductive Cell where
  | null | chan | buf (value : Value)
  deriving DecidableEq, Repr

/-- `lazy_future`, and the unbuffered channel its union may point to. -/
structure LazyFuture where
  /-- Ghost: the worker that created the future. -/
  creator : ℕ
  cell : Cell
  hasChannel : Bool
  set : Bool
  /-- What the channel holds. -/
  slot : Option Value
  /-- Ghost: how often a channel was allocated for the future, and freed. -/
  allocs : ℕ
  frees : ℕ
  /-- Ghost: the value passed to `FUTURE_SET`. -/
  passed : Option Value
  /-- Ghost: `RT_force_future` was called. -/
  awaited : Bool
  /-- Ghost: what `RT_force_future` returned. -/
  result : Option Value
  deriving DecidableEq, Repr

/-! ## Tasks -/

/-- `struct task`.  Every task but the root has a parent, so `parent` is an
address; the root is not a value of this type. -/
structure Task where
  /-- Ghost: never reused, unlike the address of the task object. -/
  id : ℕ
  addr : ℕ
  parent : ℕ
  splittable : Bool
  range : LoopRange
  /-- The variable of `ASYNC_FOR`, once the loop is entered. -/
  iter : Option ℤ
  victim : ℤ
  /-- `has_future`, and the future at the start of `data`. -/
  future : Option ℕ
  /-- The futures of the parts split off this task. -/
  futures : List ℕ
  deriving DecidableEq, Repr

/-- The address of the root task. -/
def rootAddr : ℕ := 0

/-- What travels in a task channel: a list of tasks linked by `next`, or the
pseudo-task of `RT_EXIT`.  Ghost: the state of the request a batch answers. -/
inductive Message where
  | tasks (batch : List Task) (answers : ReqState)
  | exit (addr : ℕ)
  deriving DecidableEq, Repr

/-! ## Program points -/

/-- What `RT_force_future` waits for: a future this worker created and awaits
once, or any other condition a program may wait for, which the environment
decides at every test. -/
inductive Awaited where
  | own (f : ℕ)
  | foreign
  deriving DecidableEq, Repr

/-- The loops that look for work: `schedule`, `RT_barrier` and `RT_force_future`. -/
inductive Site where
  | schedule
  | barrier
  | force (f : Awaited)
  deriving DecidableEq, Repr

/-- Where `run_task` returns to. -/
inductive Ret where
  | schedule
  | barrier
  /-- `RT_force_future`, after running a child it popped. -/
  | popped (f : Awaited)
  /-- `RT_force_future`, after running a task it received. -/
  | stolen (f : Awaited)
  deriving DecidableEq, Repr

/-- A task being run by `run_task`, innermost first on a worker's stack. -/
structure Frame where
  task : Task
  ret : Ret
  deriving DecidableEq, Repr

/-- The callers of `share_work`. -/
inductive ShareCont where
  | push
  | poll
  | pop (site : Site) (task : Option Task)
  | got (site : Site) (task : Task)
  | exit (addr : ℕ)
  deriving DecidableEq, Repr

/-- The callers of `RECV_REQ`.  What is done with a request, or without one, depends on them. -/
inductive ReqCont where
  | push
  | poll
  | pop (site : Site) (task : Option Task)
  | declineAll (site : Site)
  | force (f : Awaited)
  deriving DecidableEq, Repr

/-- The calls of `try_send_steal_request`: before a search loop, inside
`RECV_TASK`, again inside `RT_force_future`, and from `try_steal`. -/
inductive SendCont where
  | enter (site : Site)
  | failed (site : Site)
  | again (f : Awaited)
  | early (site : Site) (task : Task)
  deriving DecidableEq, Repr

/-- The evaluations of `READY` in `RT_force_future`. -/
inductive ReadyPoint where
  | entry | popped | outer | inner
  deriving DecidableEq, Repr

inductive Pc where
  /-- In the code of the current task. -/
  | user
  /-- Entering `RT_pop`. -/
  | pop (site : Site)
  | shareWork (k : ShareCont)
  /-- `PEEK_REQ` in `RT_poll`, with the channels still to be examined. -/
  | peekReq (scan : List ℕ)
  /-- `RECV_REQ`, on the worker's own channel. -/
  | recvReq (k : ReqCont)
  /-- `RECV_REQ`, on behalf of workers that have backed off. -/
  | recvReqFor (k : ReqCont) (scan : List ℕ)
  /-- A request was received and is about to be handled. -/
  | handle (k : ReqCont) (req : StealRequest)
  | trySend (k : SendCont)
  /-- `RECV_TASK`, at channel `i`. -/
  | recvTask (site : Site) (i : ℕ)
  | forceReady (f : Awaited) (point : ReadyPoint)
  | barrierExit
  /-- `RT_EXIT_FN`, before notifying the left and the right child. -/
  | exitLeft
  | exitRight
  | finished
  deriving DecidableEq, Repr

/-! ## Workers and channels -/

/-- The thread-local variables of a worker. -/
structure Worker where
  deque : List Task
  /-- The tasks it is running, innermost first; the root is not among them. -/
  frames : List Frame
  pc : Pc
  /-- It sits in `WAIT()`. -/
  inWait : Bool
  requested : ℤ
  droppedStealRequests : ℤ
  channelStack : List ℕ
  leftSubtreeIsIdle : Bool
  rightSubtreeIsIdle : Bool
  waitingForTasks : Bool
  workSharingRequests : List StealRequest
  quiescent : Bool
  lastVictim : ℤ
  lastThief : ℤ
  numRecentSteals : ℕ
  stealhalf : Bool
  checkpoint : Int32
  numTasksExec : Int32
  freelist : List ℕ
  /-- The `futures` of the root task, on the master.  `tasking_init` does not set the
  field; it is taken to be `NULL`. -/
  rootFutures : List ℕ
  taskingFinished : Bool
  deriving DecidableEq, Repr

/-- Everything the workers share. -/
structure Network where
  chanRequests : ℕ → List StealRequest
  /-- `chan_tasks[ID][i]`: one slot each. -/
  chanTasks : ℕ → ℕ → Option Message
  futures : ℕ → LazyFuture
  nextFuture : ℕ
  /-- What `malloc` hands out next. -/
  nextAddr : ℕ
  nextId : ℕ
  /-- Ghost: the tasks pushed by `RT_push` or created by `split_loop`. -/
  created : List ℕ
  /-- Ghost: the tasks passed to `run_task`, and those it has returned from. -/
  started : List ℕ
  finished : List ℕ
  /-- Ghost: the tasks of batches whose `channel_send` returned false. -/
  lost : List ℕ
  /-- Ghost: `RT_EXIT` has been issued. -/
  exiting : Bool

structure State where
  workers : ℕ → Worker
  net : Network

/-- A worker after `RT_init`, with the flags `worker_tree_init` sets. -/
def Worker.init (cfg : Config) (ID : ℕ) : Worker where
  deque := []
  frames := []
  pc := if ID = 0 then .user else .pop .schedule
  inWait := false
  requested := 0
  droppedStealRequests := 0
  channelStack := (List.range cfg.maxSteal).reverse
  leftSubtreeIsIdle := (cfg.leftChild ID).isNone
  rightSubtreeIsIdle := (cfg.rightChild ID).isNone
  waitingForTasks := false
  workSharingRequests := []
  quiescent := false
  lastVictim := -1
  lastThief := -1
  numRecentSteals := 0
  stealhalf := false
  checkpoint := 0
  numTasksExec := 0
  freelist := []
  rootFutures := []
  taskingFinished := false

/-- `FUTURE_ALLOC`. -/
def LazyFuture.alloc (creator : ℕ) : LazyFuture where
  creator := creator
  cell := .null
  hasChannel := false
  set := false
  slot := none
  allocs := 0
  frees := 0
  passed := none
  awaited := false
  result := none

def Network.init : Network where
  chanRequests _ := []
  chanTasks _ _ := none
  futures _ := .alloc 0
  nextFuture := 0
  nextAddr := rootAddr + 1
  nextId := 0
  created := []
  started := []
  finished := []
  lost := []
  exiting := false

/-- The state after `tasking_init`. -/
def State.init (cfg : Config) : State := ⟨Worker.init cfg, .init⟩

/-! ## Looking at a worker -/

/-- `get_current_task()`, where that is a task other than the root. -/
def Worker.currentTask (x : Worker) : Option Task := x.frames.head?.map Frame.task

/-- The address of the current task; on a worker without one the source has NULL,
and only the master asks for it then. -/
def Worker.currentAddr (x : Worker) : ℕ := (x.currentTask.map Task.addr).getD rootAddr

/-- `SPLITTABLE(t)`. -/
def Task.canSplit (t : Task) : Bool := t.splittable && decide (Loops.splittable t.range)

/-- The request a worker has in its hands. -/
def Pc.hand : Pc → Option StealRequest
  | .handle _ req => some req
  | _ => none

/-- The task a worker has popped or received and is about to run. -/
def Pc.held : Pc → Option Task
  | .shareWork (.pop _ task) | .recvReq (.pop _ task) | .recvReqFor (.pop _ task) _
  | .handle (.pop _ task) _ => task
  | .shareWork (.got _ task) => some task
  | .trySend (.early _ task) => some task
  | _ => none

/-- The site is one of the two idle loops. -/
def Site.isIdle : Site → Bool
  | .schedule | .barrier => true
  | .force _ => false

/-- The worker has run out of tasks and is looking for more, in `schedule` or in
`RT_barrier`: from the first steal request it sends until it receives a task. -/
def Pc.isIdle : Pc → Bool
  | .trySend (.enter site) | .trySend (.failed site) | .recvTask site _
  | .recvReq (.declineAll site) | .recvReqFor (.declineAll site) _
  | .handle (.declineAll site) _ => site.isIdle
  | _ => false

end Tasking.Runtime
