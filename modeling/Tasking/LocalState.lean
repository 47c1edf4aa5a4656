import Tasking.Abstraction

/-! What holds of one worker's variables and of the channels between any two
steps, as far as neither protocol sees it: which loop a program point belongs
to, what is on the stack then, and where a worker that backs off can be. -/
namespace Tasking.Runtime
open TokenProtocol WorkerTree

/-! ## Program points and the loops they belong to -/

def Ret.site : Ret → Site
  | .schedule => .schedule
  | .barrier => .barrier
  | .popped f | .stolen f => .force f

def ShareCont.site : ShareCont → Option Site
  | .pop site _ | .got site _ => some site
  | .push | .poll | .exit _ => none

def ReqCont.site : ReqCont → Option Site
  | .pop site _ | .declineAll site => some site
  | .force f => some (.force f)
  | .push | .poll => none

def SendCont.site : SendCont → Site
  | .enter site | .failed site | .early site _ => site
  | .again f => .force f

/-- The loop a worker is in; `none` is user code, or a routine called from it. -/
def Pc.site : Pc → Option Site
  | .pop site | .recvTask site _ => some site
  | .shareWork k => k.site
  | .recvReq k | .recvReqFor k _ | .handle k _ => k.site
  | .trySend k => some k.site
  | .forceReady f _ => some (.force f)
  | .barrierExit => some .barrier
  | .user | .peekReq _ | .exitLeft | .exitRight | .finished => none

/-- The loops of `schedule` and `RT_barrier` run with an empty stack, on the
workers and on the master; user code runs in a task, or on the master. -/
def SiteOk (ID : ℕ) (rets : List Ret) : Option Site → Prop
  | some .schedule => ID ≠ 0 ∧ rets = []
  | some .barrier => ID = 0 ∧ rets = []
  | some (.force _) | none => ID = 0 ∨ rets ≠ []

def StackOk (ID : ℕ) : List Ret → Prop
  | [] => True
  | ret :: rest => SiteOk ID rest (some ret.site) ∧ StackOk ID rest

/-! ## Futures being awaited -/

def Awaited.futures : Awaited → List ℕ
  | .own f => [f]
  | .foreign => []

def Site.futures : Option Site → List ℕ
  | some (.force f) => f.futures
  | _ => []

/-! ## The invariants -/

/-- The part of a worker these invariants are about; its requests and tasks are the concern of
the protocols. -/
structure Local where
  pc : Pc
  deque : List Task
  /-- Where the tasks on the stack return to, innermost first. -/
  rets : List Ret
  flag : Side → Bool
  waiting : Bool
  inWait : Bool
  quiescent : Bool
  finished : Bool

def Worker.loc (x : Worker) : Local where
  pc := x.pc
  deque := x.deque
  rets := x.frames.map Frame.ret
  flag := x.flag
  waiting := x.waitingForTasks
  inWait := x.inWait
  quiescent := x.quiescent
  finished := x.taskingFinished

/-- The futures whose `RT_force_future` is on the stack. -/
def Local.awaiting (l : Local) : List ℕ :=
  Site.futures l.pc.site ++ l.rets.flatMap fun ret => Site.futures (some ret.site)

/-- `RT_pop` found no task in one of the two idle loops. -/
def Pc.foundNothing : Pc → Bool
  | .shareWork (.pop site none) | .recvReq (.pop site none) | .recvReqFor (.pop site none) _
  | .handle (.pop site none) _ => site.isIdle
  | _ => false

/-- The worker is on its way out, after `RT_EXIT`. -/
def Pc.leaving : Pc → Bool
  | .shareWork (.exit _) | .exitLeft | .exitRight | .finished => true
  | _ => false

/-- `decline_all_steal_requests` is only called in an idle loop. -/
def Pc.declining : Pc → Prop
  | .recvReq (.declineAll site) | .recvReqFor (.declineAll site) _
  | .handle (.declineAll site) _ => site.isIdle = true
  | _ => True

/-- The channels examined on behalf of others belong to subtrees flagged idle. -/
def Pc.scanOk (cfg : Config) (ID : ℕ) (flag : Side → Bool) : Pc → Prop
  | .recvReqFor _ scan => ∀ i ∈ scan, i < cfg.numWorkers ∧
      ∃ side, flag side = true ∧ child ID side < cfg.numWorkers ∧ Subtree (child ID side) i
  | _ => True

/-- Where a worker that waits for tasks can be: receiving, or finding that it has
no request left to send. -/
def Pc.mayWait : Pc → Bool
  | .recvTask .schedule _ | .trySend (.failed .schedule) => true
  | _ => false

structure LocalOk (cfg : Config) (ID : ℕ) (l : Local) : Prop where
  site : SiteOk ID l.rets l.pc.site
  stack : StackOk ID l.rets
  declining : l.pc.declining
  idle_empty : l.pc.isIdle = true → l.deque = []
  found_nothing : l.pc.foundNothing = true → l.deque = []
  scan : l.pc.scanOk cfg ID l.flag
  alone : cfg.numWorkers = 1 → l.pc.isIdle = false
  waits : l.waiting = true → cfg.backoff ≠ .off → l.pc.mayWait = true
  in_wait : l.inWait = true →
    l.waiting = true ∧ cfg.backoff = .waitCond ∧ l.pc = .recvTask .schedule 0
  quiescent_master : l.quiescent = true → ID = 0
  quiescent_empty : l.quiescent = true → 2 ≤ cfg.numWorkers →
    l.deque = [] ∧ l.rets = [] ∧ l.pc.held = none
  leaves_quiescent : l.pc = .barrierExit → l.quiescent = true
  stays : l.pc.leaving = false
  unfinished : l.finished = false
  awaiting : l.awaiting.Nodup
  recv_index : ∀ site i, l.pc = .recvTask site i → i < cfg.maxSteal

structure NetOk (cfg : Config) (net : Network) : Prop where
  running : net.exiting = false
  lossless : net.lost = []
  requests : ∀ i, net.chanRequests i ≠ [] → i < cfg.numWorkers
  slots : ∀ owner chan message, net.chanTasks owner chan = some message →
    owner < cfg.numWorkers ∧ chan < cfg.maxSteal ∧
      ∃ batch state, batch ≠ [] ∧ message = .tasks batch state

/-- What a worker relies on in the channels: its own futures are there and not
yet read, and if it was woken up then there is a message for it. -/
structure Depends (cfg : Config) (ID : ℕ) (l : Local) (net : Network) : Prop where
  futures : ∀ f ∈ l.awaiting, f < net.nextFuture ∧ (net.futures f).creator = ID ∧
    (net.futures f).result = none ∧ (net.futures f).awaited = true
  woken : cfg.backoff = .waitCond → l.waiting = true → l.inWait = false →
    ∃ i, l.pc = .recvTask .schedule i ∧ ∃ j, i ≤ j ∧ j < cfg.maxSteal ∧
      (net.chanTasks ID j).isSome

theorem localOk_init (cfg : Config) (ID : ℕ) : LocalOk cfg ID (Worker.init cfg ID).loc := by
  by_cases master : ID = 0
  · refine ⟨?_, trivial, ?_, ?_, ?_, ?_, ?_, ?_, ?_, ?_, ?_, ?_, ?_, rfl, ?_, ?_⟩ <;>
      simp [Pc.site, SiteOk, master, Pc.declining, Pc.isIdle, Pc.foundNothing, Pc.scanOk,
        Worker.init, Worker.loc, Pc.leaving, Local.awaiting, Site.futures]
  · refine ⟨?_, trivial, ?_, ?_, ?_, ?_, ?_, ?_, ?_, ?_, ?_, ?_, ?_, rfl, ?_, ?_⟩ <;>
      simp [Pc.site, SiteOk, master, Pc.declining, Pc.isIdle, Pc.foundNothing, Pc.scanOk,
        Worker.init, Worker.loc, Pc.leaving, Local.awaiting, Site.futures]

theorem netOk_init (cfg : Config) : NetOk cfg Network.init := by
  refine ⟨rfl, rfl, ?_, ?_⟩ <;> simp [Network.init]

theorem depends_init (cfg : Config) (ID : ℕ) :
    Depends cfg ID (Worker.init cfg ID).loc Network.init := by
  refine ⟨?_, ?_⟩
  · by_cases master : ID = 0 <;>
      simp [Local.awaiting, Worker.init, Worker.loc, master, Pc.site, Site.futures]
  · simp [Worker.init, Worker.loc]

end Tasking.Runtime
