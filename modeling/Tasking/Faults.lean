import Tasking.Fallible

/-! The assertions of the runtime, and the few ways it can misuse memory that
the model keeps track of.  Each constructor is one `assert` of the source, named
after the function it stands in. -/
namespace Tasking

/-- What can stop a worker other than waiting. -/
inductive Fault where
  /-- `bounded_stack_push`: `channel_stack` is not full. -/
  | boundedStackPush
  | boundedStackPop
  /-- `bounded_queue_enqueue`: `work_sharing_requests` is not full. -/
  | boundedQueueEnqueue
  /-- `SEND_REQ`: `Check channel capacities!` -/
  | sendReqCapacity
  /-- `RECV_REQ`: a failed request is a child's, whose subtree was not idle before. -/
  | recvReqChild
  | recvReqLeftIdle
  | recvReqRightIdle
  /-- `RECV_TASK`, when the worker has waited: all its requests were out. -/
  | recvTaskRequestedMax
  /-- Then no channel is in use. -/
  | recvTaskStackMax
  /-- `RECV_TASK`, when requests were dropped: another one was answered. -/
  | recvTaskAboveDropped
  | recvTaskRequestedRange
  | recvTaskDroppedZero
  /-- `FORGET_REQ`: the request is the worker's own. -/
  | forgetReqOwn
  | forgetReqRequested
  /-- `detect_termination`: the master calls it, once, when both subtrees are idle. -/
  | detectMaster
  | detectSubtreesIdle
  | detectQuiescent
  /-- `random_victim`: there are victims, and not all workers are. -/
  | randomVictimCount
  /-- The victims are the bits that are set. -/
  | randomVictimBits
  | randomVictimResult
  /-- `next_victim`: only the first try is the thief's own. -/
  | nextVictimTry
  | nextVictimSelf
  /-- A request is returned when no victims are left. -/
  | nextVictimEmpty
  | nextVictimReturn
  | nextVictimRange
  | nextVictimAttempts
  /-- `decline_steal_request`: the attempts are counted. -/
  | declineTry
  /-- The last request is passed on when all others were dropped. -/
  | declineDropped
  /-- A worker that waits for tasks has no request of its own in hand. -/
  | declineWaiting
  | declineDropWaiting
  | declineWorking
  /-- `handle_steal_request`: a request of its own that comes back has not failed. -/
  | handleOwnFailed
  /-- `handle` and `share_work`: the queue has the requests of idle children. -/
  | handleChild
  | shareChild
  | shareLeftIdle
  | shareRightIdle
  /-- `schedule`, `RT_barrier` and `RT_force_future`: a worker without tasks has asked. -/
  | idleRequested
  | idleDequeEmpty
  | lastVictimSelf
  /-- `RT_barrier` is called by the root task, and left when all is quiet. -/
  | barrierRoot
  | barrierQuiescent
  /-- `RT_push`: the master is the one that knows of quiescence. -/
  | pushMaster
  /-- `split_loop`: the thief is another worker. -/
  | splitLoopOwn
  /-- The strategies: more than one iteration is left, and not all go. -/
  | splitItersLeft
  | splitChunk
  /-- A reduction is registered with the current task, which may be `NULL`. -/
  | splitLoopNullTask
  /-- `ASYNC_FOR` is entered by a loop task that has not begun. -/
  | asyncForSplittable
  | asyncForStart
  /-- `FUTURE_SET`, and the end of `RT_force_future`. -/
  | futureSetNull
  | futureNotSet
  | futureChanNull
  /-- The union is read as what it is not. -/
  | futureUnion
  /-- The channel was freed before. -/
  | futureFreed
  /-- `RT_EXIT_FN`: nobody has left yet, and all is quiet. -/
  | exitFinished
  | exitSubtreesIdle
  | exitQuiescent
  /-- `async_action`: the message is sent. -/
  | exitSend
  deriving DecidableEq, Repr

/-- A step of the modelled runtime. -/
abbrev Checked (α : Type) := Fallible.Checked Fault α

end Tasking
