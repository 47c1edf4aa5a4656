import Tasking.TaskAddresses

/-!
What one step of a worker does to the work.  A task counts here as a piece of work: an
identity, a future and a range of iterations, whoever has it.  `WorkStep` lists everything a
step can do to the pieces, to the stack of the worker and to the ledger of what was created,
finished and delivered; `Pre.works` says that the list is complete.

Most of the runtime only moves pieces between a deque and the channels (`Shuffles`).
-/
namespace Tasking.Runtime
open Fallible Family TokenProtocol Loops Function

/-! ## Pieces of work -/

structure Piece where
  id : ℕ
  future : Option ℕ
  splittable : Bool
  range : LoopRange
  iter : Option ℤ
  deriving DecidableEq

def Task.piece (t : Task) : Piece := ⟨t.id, t.future, t.splittable, t.range, t.iter⟩

def piecesOf (tasks : List Task) : Multiset Piece := tasks.map Task.piece

/-- The tasks a worker has in its hands, in its deque and on its stack. -/
def Worker.pieces (x : Worker) : Multiset Piece :=
  piecesOf x.pc.held.toList + piecesOf x.deque + piecesOf (x.frames.map Frame.task)

def Message.pieces : Option Message → Multiset Piece
  | some (.tasks batch _) => piecesOf batch
  | _ => 0

def Network.pieces (cfg : Config) (net : Network) : Multiset Piece :=
  gather cfg.numWorkers fun owner => gather cfg.maxSteal fun chan =>
    Message.pieces (net.chanTasks owner chan)

def Node.pieces (cfg : Config) (n : Node) : Multiset Piece := n.self.pieces + n.net.pieces cfg

/-- All unfinished work. -/
def State.pieces (cfg : Config) (s : State) : Multiset Piece :=
  s.net.pieces cfg + gather cfg.numWorkers fun v => (s.workers v).pieces

/-! ## Stacks -/

/-- The call user code is suspended in; `schedule` is not called by user code. -/
def Site.awaits : Option Site → Option Site
  | some .schedule => none
  | site => site

/-- The tasks on a worker's stack, innermost first.  With each comes the call in which the code
below it is suspended, since that call runs the task. -/
structure Stack where
  awaits : Option Site
  below : List (ℕ × Option Site)

def Frame.link (frame : Frame) : ℕ × Option Site :=
  (frame.task.id, Site.awaits (some frame.ret.site))

def Worker.stack (x : Worker) : Stack := ⟨Site.awaits x.pc.site, x.frames.map Frame.link⟩

/-! ## The ledger -/

structure Ledger where
  created : List ℕ
  finished : List ℕ
  nextId : ℕ
  nextFuture : ℕ
  /-- What was passed to `FUTURE_SET`, and what `RT_force_future` returned. -/
  passed : ℕ → Option Value
  result : ℕ → Option Value
  numTasksExec : Int32

def Node.ledger (n : Node) : Ledger where
  created := n.net.created
  finished := n.net.finished
  nextId := n.net.nextId
  nextFuture := n.net.nextFuture
  passed f := (n.net.futures f).passed
  result f := (n.net.futures f).result
  numTasksExec := n.self.numTasksExec

/-- A task is created, with a future or without. -/
def Ledger.create (l : Ledger) (future : Bool) : Ledger :=
  { l with
    created := l.created ++ [l.nextId]
    nextId := l.nextId + 1
    nextFuture := if future then l.nextFuture + 1 else l.nextFuture
    passed := if future then update l.passed l.nextFuture none else l.passed
    result := if future then update l.result l.nextFuture none else l.result }

def Ledger.finish (l : Ledger) (t : Task) (value : Value) : Ledger :=
  { l with
    finished := l.finished ++ [t.id]
    passed := match t.future with
      | some f => update l.passed f (some value)
      | none => l.passed
    numTasksExec := l.numTasksExec + t.weight }

/-! ## Steps -/

/-- The task `ASYNC` or `FUTURE` makes. -/
def Ledger.newPiece (l : Ledger) (loop : Option (ℤ × ℤ)) (future : Bool) : Piece where
  id := l.nextId
  future := if future then some l.nextFuture else none
  splittable := loop.isSome
  range := ⟨(loop.getD (0, 0)).1, (loop.getD (0, 0)).1, (loop.getD (0, 0)).2⟩
  iter := none

/-- The part `split_loop` cuts off. -/
def Ledger.upper (l : Ledger) (t : Task) (split : ℤ) : Piece where
  id := l.nextId
  future := if t.future.isSome then some l.nextFuture else none
  splittable := t.splittable
  range := t.range.upper split
  iter := none

/-- What is left of a task that was split. -/
def Task.lower (t : Task) (split : ℤ) : Piece := { t.piece with range := t.range.lower split }

/-- `ASYNC_FOR` is entered. -/
def Task.entered (t : Task) : Piece :=
  { t.piece with
    iter := some t.range.start, range := { t.range with cur := long (t.range.cur + 1) } }

/-- `i++, this->cur++`. -/
def Task.advanced (t : Task) (i : ℤ) : Piece :=
  { t.piece with
    iter := some (long (i + 1)), range := { t.range with cur := long (t.range.cur + 1) } }

/-- `split_loop` cuts a task in two. -/
structure Cuts (cfg : Config) (o : Oracle) (t : Task) (split : ℤ) (n n' : Node) : Prop where
  can : t.canSplit = true
  cut : splitFunc cfg.split cfg.numWorkers o.pending t.range = .ok split
  parts : ∃ rest, n.pieces cfg = t.piece ::ₘ rest ∧
    n'.pieces cfg = t.lower split ::ₘ n.ledger.upper t split ::ₘ rest
  stack : n'.self.stack = n.self.stack
  ledger : n'.ledger = n.ledger.create t.future.isSome

/-- Everything a step can do to the work. -/
inductive WorkStep (cfg : Config) (w : ℕ) (c : Choice) (n n' : Node) : Prop where
  /-- Pieces are moved at most. -/
  | idles (act : n.self.pc = .user → c.act = .poll ∨ c.act = .barrier ∧ w ≠ 0)
      (pieces : n'.pieces cfg = n.pieces cfg) (stack : n'.self.stack = n.self.stack)
      (ledger : n'.ledger = n.ledger)
  /-- `ASYNC` and `FUTURE`. -/
  | spawns {loop : Option (ℤ × ℤ)} {future : Bool} (here : n.self.pc = .user)
      (act : c.act = .spawn loop future)
      (pieces : n'.pieces cfg = n.ledger.newPiece loop future ::ₘ n.pieces cfg)
      (stack : n'.self.stack = n.self.stack) (ledger : n'.ledger = n.ledger.create future)
  /-- `split_loop`. -/
  | splits {t : Task} {split : ℤ} (away : n.self.pc ≠ .user) (given : n.self.splits = some t)
      (cuts : Cuts cfg c.oracle t split n n')
  /-- `run_task` calls the function of a task. -/
  | runs {t : Task} (away : n.self.pc ≠ .user) (held : n.self.pc.held = some t)
      (pieces : n'.pieces cfg = n.pieces cfg)
      (stack : n'.self.stack = ⟨none, (t.id, n.self.stack.awaits) :: n.self.stack.below⟩)
      (ledger : n'.ledger = n.ledger)
  | enters {t : Task} {rest : Multiset Piece} (here : n.self.pc = .user) (act : c.act = .asyncFor)
      (top : n.self.currentTask = some t) (loop : t.splittable = true)
      (start : t.range.start = t.range.cur) (before : n.pieces cfg = t.piece ::ₘ rest)
      (after : n'.pieces cfg = t.entered ::ₘ rest) (stack : n'.self.stack = n.self.stack)
      (ledger : n'.ledger = n.ledger)
  | iterates {t : Task} {i : ℤ} {rest : Multiset Piece} (here : n.self.pc = .user)
      (act : c.act = .iterate) (top : n.self.currentTask = some t) (iter : t.iter = some i)
      (inside : i < t.range.stop) (before : n.pieces cfg = t.piece ::ₘ rest)
      (after : n'.pieces cfg = t.advanced i ::ₘ rest) (stack : n'.self.stack = n.self.stack)
      (ledger : n'.ledger = n.ledger)
  /-- `AWAIT`. -/
  | asks {f : ℕ} (here : n.self.pc = .user) (act : c.act = .await (.own f))
      (pieces : n'.pieces cfg = n.pieces cfg)
      (stack : n'.self.stack = ⟨some (.force (.own f)), n.self.stack.below⟩)
      (ledger : n'.ledger = n.ledger)
  /-- `RT_force_future` returns. -/
  | collects {f : ℕ} {value : Value} {point : ReadyPoint}
      (here : n.self.pc = .forceReady (.own f) point) (passed : n.ledger.passed f = some value)
      (pieces : n'.pieces cfg = n.pieces cfg) (stack : n'.self.stack = ⟨none, n.self.stack.below⟩)
      (ledger : n'.ledger = { n.ledger with
        result := update n.ledger.result f (some value) })
  | finishes {frame : Frame} {rest : List Frame} {value : Value} (here : n.self.pc = .user)
      (act : c.act = .finish value) (frames : n.self.frames = frame :: rest)
      (pieces : n.pieces cfg = frame.task.piece ::ₘ n'.pieces cfg)
      (stack : n'.self.stack = ⟨frame.link.2, rest.map Frame.link⟩)
      (ledger : n'.ledger = n.ledger.finish frame.task value)
  /-- The master calls `RT_barrier`, and returns from it. -/
  | waits (here : n.self.pc = .user) (act : c.act = .barrier) (master : w = 0)
      (pieces : n'.pieces cfg = n.pieces cfg)
      (stack : n'.self.stack = ⟨some .barrier, n.self.stack.below⟩) (ledger : n'.ledger = n.ledger)
  | leaves (here : n.self.pc = .barrierExit) (pieces : n'.pieces cfg = n.pieces cfg)
      (stack : n'.self.stack = ⟨none, n.self.stack.below⟩) (ledger : n'.ledger = n.ledger)
  /-- `REDUCE`, waiting for anything but a future, and leaving. -/
  | strays (foreign : n.self.pc = .user ∧
        (c.act = .reduce ∨ c.act = .await .foreign ∨ c.act = .exit) ∨
      ∃ point, n.self.pc = .forceReady .foreign point)
      (pieces : n'.pieces cfg = n.pieces cfg) (ledger : n'.ledger = n.ledger)

section Requested

variable {cfg : Config} {w : ℕ} {c : Choice} {n n' : Node}

/-! What a step of user code does is decided by what the code asks for. -/

theorem WorkStep.spawned {loop : Option (ℤ × ℤ)} {future : Bool} (step : WorkStep cfg w c n n')
    (here : n.self.pc = .user) (asked : c.act = .spawn loop future) :
    n'.pieces cfg = n.ledger.newPiece loop future ::ₘ n.pieces cfg ∧
      n'.self.stack = n.self.stack ∧ n'.ledger = n.ledger.create future := by
  cases step <;> simp_all

theorem WorkStep.polled (step : WorkStep cfg w c n n') (here : n.self.pc = .user)
    (asked : c.act = .poll) : n'.pieces cfg = n.pieces cfg ∧ n'.self.stack = n.self.stack ∧
      n'.ledger = n.ledger := by
  cases step <;> simp_all

theorem WorkStep.barrier (step : WorkStep cfg w c n n') (here : n.self.pc = .user)
    (asked : c.act = .barrier) : n'.pieces cfg = n.pieces cfg ∧ n'.ledger = n.ledger ∧
      (w ≠ 0 ∧ n'.self.stack = n.self.stack ∨
        w = 0 ∧ n'.self.stack = ⟨some .barrier, n.self.stack.below⟩) := by
  cases step <;> simp_all

theorem WorkStep.asked {f : ℕ} (step : WorkStep cfg w c n n') (here : n.self.pc = .user)
    (asked : c.act = .await (.own f)) : n'.pieces cfg = n.pieces cfg ∧
      n'.self.stack = ⟨some (.force (.own f)), n.self.stack.below⟩ ∧ n'.ledger = n.ledger := by
  cases step <;> simp_all

theorem WorkStep.entered (step : WorkStep cfg w c n n') (here : n.self.pc = .user)
    (asked : c.act = .asyncFor) : ∃ t rest, n.self.currentTask = some t ∧ t.splittable = true ∧
      t.range.start = t.range.cur ∧ n.pieces cfg = t.piece ::ₘ rest ∧
      n'.pieces cfg = t.entered ::ₘ rest ∧ n'.self.stack = n.self.stack ∧ n'.ledger = n.ledger := by
  cases step with
  | enters _ _ top loop start before after stack ledger =>
    exact ⟨_, _, top, loop, start, before, after, stack, ledger⟩
  | _ => simp_all

theorem WorkStep.iterated (step : WorkStep cfg w c n n') (here : n.self.pc = .user)
    (asked : c.act = .iterate) : ∃ t i rest, n.self.currentTask = some t ∧ t.iter = some i ∧
      i < t.range.stop ∧ n.pieces cfg = t.piece ::ₘ rest ∧ n'.pieces cfg = t.advanced i ::ₘ rest ∧
      n'.self.stack = n.self.stack ∧ n'.ledger = n.ledger := by
  cases step with
  | iterates _ _ top iter inside before after stack ledger =>
    exact ⟨_, _, _, top, iter, inside, before, after, stack, ledger⟩
  | _ => simp_all

theorem WorkStep.finished {value : Value} (step : WorkStep cfg w c n n') (here : n.self.pc = .user)
    (asked : c.act = .finish value) : ∃ frame rest, n.self.frames = frame :: rest ∧
      n.pieces cfg = frame.task.piece ::ₘ n'.pieces cfg ∧
      n'.self.stack = ⟨frame.link.2, rest.map Frame.link⟩ ∧
      n'.ledger = n.ledger.finish frame.task value := by
  cases step with
  | finishes _ act frames pieces stack ledger =>
    obtain rfl : _ = value := by simpa using act.symm.trans asked
    exact ⟨_, _, frames, pieces, stack, ledger⟩
  | _ => simp_all

end Requested

/-! ## Lists of tasks -/

section Pieces

variable {cfg : Config} {n n' n'' : Node} {x x' : Worker} {net : Network}

@[simp] theorem piecesOf_nil : piecesOf [] = 0 := rfl

@[simp] theorem piecesOf_cons (t : Task) (tasks : List Task) :
    piecesOf (t :: tasks) = t.piece ::ₘ piecesOf tasks := rfl

@[simp] theorem piecesOf_append (first second : List Task) :
    piecesOf (first ++ second) = piecesOf first + piecesOf second := by
  simp [piecesOf]

theorem piecesOf_markVictim (w : ℕ) (batch : List Task) :
    piecesOf (markVictim cfg w batch) = piecesOf batch := by
  cases batch with
  | nil => rfl
  | cons t rest =>
    simp only [markVictim, piecesOf_cons]
    split <;> rfl

theorem piecesOf_takeLoot (req : StealRequest) (deque : List Task) :
    piecesOf (takeLoot cfg req deque).1 + piecesOf (takeLoot cfg req deque).2 = piecesOf deque := by
  conv_rhs => rw [← List.take_append_drop (deque.length - lootSize cfg req deque) deque]
  rw [piecesOf_append, add_comm]
  rfl

theorem Network.pieces_putTask {owner chan : ℕ} {batch : List Task} {state : ReqState}
    (worker : owner < cfg.numWorkers) (inside : chan < cfg.maxSteal)
    (empty : net.chanTasks owner chan = none) :
    (net.putTask owner chan (some (.tasks batch state))).pieces cfg =
      piecesOf batch + net.pieces cfg := by
  obtain ⟨rest, before, after⟩ :=
    gather_update₂ (fun _ _ => Message.pieces) net.chanTasks worker inside
  rw [empty] at before
  simp only [Network.pieces, Network.putTask, before, after]
  simp [Message.pieces]

theorem Network.pieces_takeTask {owner chan : ℕ} {message : Message}
    (worker : owner < cfg.numWorkers) (inside : chan < cfg.maxSteal)
    (held : net.chanTasks owner chan = some message) :
    net.pieces cfg = Message.pieces (some message) + (net.putTask owner chan none).pieces cfg := by
  obtain ⟨rest, before, after⟩ :=
    gather_update₂ (fun _ _ => Message.pieces) net.chanTasks worker inside
  rw [held] at before
  simp only [Network.pieces, Network.putTask, before, after]
  simp [Message.pieces]

theorem held_user : Pc.user.held = none := rfl

theorem passed_update (futures : ℕ → LazyFuture) (f : ℕ) (content : LazyFuture) :
    (fun g => (update futures f content g).passed) =
      update (fun g => (futures g).passed) f content.passed :=
  Function.comp_update LazyFuture.passed futures f content

theorem result_update (futures : ℕ → LazyFuture) (f : ℕ) (content : LazyFuture) :
    (fun g => (update futures f content g).result) =
      update (fun g => (futures g).result) f content.result :=
  Function.comp_update LazyFuture.result futures f content

/-! ## Moving pieces -/

/-- How a frame looks to those who count work. -/
def Frame.view (frame : Frame) : Piece × Ret := (frame.task.piece, frame.ret)

/-- Pieces are moved between the deque and the channels at most. -/
structure Shuffles (cfg : Config) (n n' : Node) : Prop where
  loose : piecesOf n'.self.deque + n'.net.pieces cfg = piecesOf n.self.deque + n.net.pieces cfg
  frames : n'.self.frames.map Frame.view = n.self.frames.map Frame.view
  pc : n'.self.pc = n.self.pc
  ledger : n'.ledger = n.ledger

theorem Shuffles.refl : Shuffles cfg n n := ⟨rfl, rfl, rfl, rfl⟩

theorem Shuffles.trans (first : Shuffles cfg n n') (second : Shuffles cfg n' n'') :
    Shuffles cfg n n'' :=
  ⟨second.loose.trans first.loose, second.frames.trans first.frames, second.pc.trans first.pc,
    second.ledger.trans first.ledger⟩

theorem pieces_of_view {frames frames' : List Frame}
    (same : frames'.map Frame.view = frames.map Frame.view) :
    piecesOf (frames'.map Frame.task) = piecesOf (frames.map Frame.task) := by
  have pieces := congrArg (List.map Prod.fst) same
  simp only [List.map_map] at pieces
  simp only [piecesOf, List.map_map]
  exact congrArg _ pieces

theorem links_of_view {frames frames' : List Frame}
    (same : frames'.map Frame.view = frames.map Frame.view) :
    frames'.map Frame.link = frames.map Frame.link := by
  have links := congrArg (List.map fun view : Piece × Ret =>
    (view.1.id, Site.awaits (some view.2.site))) same
  simp only [List.map_map] at links
  exact links

theorem stack_of_view (frames : x'.frames.map Frame.view = x.frames.map Frame.view)
    (site : Site.awaits x'.pc.site = Site.awaits x.pc.site) : x'.stack = x.stack := by
  rw [Worker.stack, Worker.stack, links_of_view frames, site]

theorem Shuffles.pieces (moved : Shuffles cfg n n') : n'.pieces cfg = n.pieces cfg := by
  have loose := moved.loose
  simp only [Node.pieces, Worker.pieces, moved.pc, pieces_of_view moved.frames]
  calc piecesOf n.self.pc.held.toList + piecesOf n'.self.deque +
        piecesOf (n.self.frames.map Frame.task) + n'.net.pieces cfg
      = piecesOf n.self.pc.held.toList + piecesOf (n.self.frames.map Frame.task) +
        (piecesOf n'.self.deque + n'.net.pieces cfg) := by abel
    _ = _ := by rw [loose]; abel

/-! ## Handling requests -/

/-- What the bookkeeping of requests leaves alone in a worker. -/
structure Still (x x' : Worker) : Prop where
  pc : x'.pc = x.pc
  deque : x'.deque = x.deque
  frames : x'.frames = x.frames
  numTasksExec : x'.numTasksExec = x.numTasksExec

theorem Still.refl : Still x x := ⟨rfl, rfl, rfl, rfl⟩

/-- What it leaves alone in the channels. -/
structure Untold (net net' : Network) : Prop where
  chanTasks : net'.chanTasks = net.chanTasks
  ledger : ∀ x, Node.ledger ⟨x, net'⟩ = Node.ledger ⟨x, net⟩

theorem Still.shuffles {net' : Network} (still : Still x x') (untold : Untold net net') :
    Shuffles cfg ⟨x, net⟩ ⟨x', net'⟩ := by
  refine ⟨?_, by rw [still.frames], still.pc, ?_⟩
  · simp only [still.deque, Network.pieces, untold.chanTasks]
  · rw [untold.ledger, Node.ledger, Node.ledger, still.numTasksExec]

theorem Untold.refl : Untold net net := ⟨rfl, fun _ => rfl⟩

theorem Network.Sent.untold {net' : Network} (sent : net.Sent net') : Untold net net' := by
  rcases sent with rfl | ⟨target, req, rfl⟩
  · exact .refl
  · exact ⟨rfl, fun _ => rfl⟩

section Requests

variable {o : Oracle} {w : ℕ} {req : StealRequest} {t : Task} {split : ℤ}

theorem forgetReq_still : Ensures (fun _ => True) (forgetReq cfg w req x) (Still x) := by
  simp only [forgetReq, channelPush, ensures_bind, ensures_check, ensures_pure, implies_true,
    and_true]
  exact fun _ _ _ => ⟨rfl, rfl, rfl, rfl⟩

theorem holdOn_still : Ensures (fun _ => True) (holdOn cfg w req x) (Still x) := by
  simp only [holdOn, ensures_bind, ensures_check, ensures_ite, ensures_pure, implies_true, and_true]
  exact fun _ => ⟨fun _ _ _ => ⟨rfl, rfl, rfl, rfl⟩, fun _ _ _ => ⟨rfl, rfl, rfl, rfl⟩⟩

theorem clearLifeline_still {child : ℕ} :
    Ensures (fun _ => True) (clearLifeline cfg w child x) (Still x) := by
  simp only [clearLifeline, ensures_bind, ensures_check, ensures_ite, ensures_pure, implies_true,
    and_true]
  exact ⟨fun _ _ => ⟨rfl, rfl, rfl, rfl⟩, fun _ _ => ⟨rfl, rfl, rfl, rfl⟩⟩

theorem receivedTask_still {chan : ℕ} :
    Ensures (fun _ => True) (receivedTask cfg chan x) (Still x) := by
  simp only [receivedTask, channelPush, ensures_bind, ensures_check, ensures_ite, ensures_pure,
    implies_true, and_true]
  exact fun _ => ⟨fun _ _ _ _ _ => ⟨rfl, rfl, rfl, rfl⟩, fun _ =>
    ⟨fun _ _ _ _ => ⟨rfl, rfl, rfl, rfl⟩, fun _ _ _ => ⟨rfl, rfl, rfl, rfl⟩⟩⟩

theorem adaptStrategy_still : Still x (adaptStrategy cfg x) := by
  unfold adaptStrategy
  split <;> exact ⟨rfl, rfl, rfl, rfl⟩

theorem sendReq_shuffles {target : ℕ} :
    Ensures (fun _ => True) (sendReq cfg target req n) (Shuffles cfg n) := by
  refine sendReq_sent.mono fun n' sent => ?_
  have still : Still n.self n'.self := by
    rw [sent.1]
    exact .refl
  exact still.shuffles sent.2.untold

theorem forgetReq_shuffles : Ensures (fun _ => True) (forgetReq cfg w req n.self) fun x =>
    Shuffles cfg n { n with self := x } :=
  forgetReq_still.mono fun _ still => still.shuffles .refl

theorem goQuiescent_shuffles :
    Ensures (fun _ => True) (goQuiescent cfg w req n) (Shuffles cfg n) := by
  unfold goQuiescent
  split
  · simp only [detectTermination, ensures_bind, ensures_check, ensures_pure, implies_true, and_true]
    refine fun _ _ _ => forgetReq_still.mono fun x still => ?_
    exact Still.shuffles ⟨still.pc, still.deque, still.frames, still.numTasksExec⟩ .refl
  · rw [ensures_bind]
    refine sendReq_shuffles.mono fun n' moved => ?_
    simp only [ensures_bind, ensures_check, ensures_pure, implies_true, and_true]
    exact fun _ => ⟨moved.loose, moved.frames, moved.pc, moved.ledger⟩

theorem declineStealRequest_shuffles :
    Ensures (fun _ => True) (declineStealRequest cfg o w req n) (Shuffles cfg n) := by
  simp only [declineStealRequest, ensures_bind, ensures_check, implies_true, and_true]
  intro _
  split
  · split
    · split
      · split
        · simp only [ensures_bind, ensures_check, implies_true, and_true]
          exact fun _ => goQuiescent_shuffles
        · simp only [channelPush, ensures_bind, ensures_check, ensures_pure, implies_true, and_true]
          exact fun _ _ => Still.shuffles ⟨rfl, rfl, rfl, rfl⟩ .refl
      · exact goQuiescent_shuffles
    · rw [ensures_bind]
      refine Ensures.any.mono fun chosen _ => ?_
      split
      · exact sendReq_shuffles
      · simp only [ensures_bind, ensures_check, implies_true, and_true]
        exact fun _ => forgetReq_shuffles
  · rw [ensures_bind]
    exact Ensures.any.mono fun chosen _ => sendReq_shuffles

theorem trySendStealRequest_shuffles {idle : Bool} :
    Ensures (fun _ => True) (trySendStealRequest cfg o w idle n) (Shuffles cfg n) := by
  have adapted := @adaptStrategy_still cfg n.self
  refine trySendStealRequest_sent.mono fun n' out => ?_
  split at out
  · obtain ⟨sent, stack, self⟩ := out
    have still : Still n.self n'.self := by
      rw [self]
      exact ⟨adapted.pc, adapted.deque, adapted.frames, adapted.numTasksExec⟩
    exact still.shuffles sent.untold
  · rw [out]
    exact .refl

/-- The channel a request names is there, and empty. -/
def Vacant (cfg : Config) (net : Network) (req : StealRequest) : Prop :=
  req.ID < cfg.numWorkers ∧ req.chan < cfg.maxSteal ∧ net.chanTasks req.ID req.chan = none

theorem Pre.vacant {ctx : Context} {p : Place} (pre : Pre cfg ctx w n)
    (member : (p, req.token) ∈ (n.ring cfg ctx w).tokens) : Vacant cfg n.net req :=
  pre.slot_empty member

theorem convertFutures_ledger (batch : List Task) (x : Worker) (net : Network) :
    Node.ledger ⟨x, { net with futures := convertFutures batch net.futures }⟩ =
      Node.ledger ⟨x, net⟩ := by
  have same (f : ℕ) : (convertFutures batch net.futures f).passed = (net.futures f).passed ∧
      (convertFutures batch net.futures f).result = (net.futures f).result := by
    rw [convertFutures_eq, Custody.convertAll]
    split <;> simp
  simp only [Node.ledger, fun f => (same f).1, fun f => (same f).2]

theorem sendLoot_shuffles (vacant : Vacant cfg n.net req) :
    Shuffles cfg n (sendLoot cfg w req n) := by
  obtain ⟨worker, inside, empty⟩ := vacant
  rw [sendLoot_eq empty]
  refine ⟨?_, rfl, rfl, ?_⟩
  · have sent := @Network.pieces_putTask cfg
      { n.net with futures := convertFutures (takeLoot cfg req n.self.deque).1 n.net.futures }
      req.ID req.chan (markVictim cfg w (takeLoot cfg req n.self.deque).1) req.state
      worker inside empty
    have same : Network.pieces cfg
        { n.net with futures := convertFutures (takeLoot cfg req n.self.deque).1 n.net.futures } =
        n.net.pieces cfg := rfl
    rw [sent, piecesOf_markVictim, same, ← @piecesOf_takeLoot cfg req n.self.deque]
    abel
  · exact convertFutures_ledger _ n.self n.net

theorem handleStealRequest_shuffles (vacant : Vacant cfg n.net req) :
    Ensures (fun _ => True) (handleStealRequest cfg o w req n) (Shuffles cfg n) := by
  unfold handleStealRequest
  split
  · simp only [ensures_bind, ensures_check, ensures_ite, implies_true, and_true]
    exact fun _ => ⟨fun _ => forgetReq_shuffles, fun _ => declineStealRequest_shuffles⟩
  · split
    · exact declineStealRequest_shuffles
    · exact sendLoot_shuffles vacant

/-! ## Splitting -/

theorem taskAlloc_still : Still n.self (taskAlloc n).2.self ∧ Untold n.net (taskAlloc n).2.net := by
  unfold taskAlloc
  split
  · exact ⟨⟨rfl, rfl, rfl, rfl⟩, .refl⟩
  · exact ⟨.refl, ⟨rfl, fun _ => rfl⟩⟩

theorem taskAlloc_ledger : (taskAlloc n).2.ledger = n.ledger := by
  unfold taskAlloc
  split <;> rfl

/-- What `split_loop` does, apart from shortening the task it was given. -/
structure CutOff (cfg : Config) (t : Task) (split : ℤ) (n n' : Node) : Prop where
  loose : piecesOf n'.self.deque + n'.net.pieces cfg =
    n.ledger.upper t split ::ₘ (piecesOf n.self.deque + n.net.pieces cfg)
  frames : n'.self.frames.map Frame.view = n.self.frames.map Frame.view
  pc : n'.self.pc = n.self.pc
  ledger : n'.ledger = n.ledger.create t.future.isSome

/-- The duplicate gets a future of its own if the task has one. -/
theorem patchFuture_ledger {dup : Task} :
    Ensures (fun _ => True) (patchFuture w dup n) fun out =>
      out.1.piece = { dup.piece with
        future := if dup.future.isSome then some n.ledger.nextFuture else none } ∧
      out.2.self.frames.map Frame.view = n.self.frames.map Frame.view ∧
      out.2.self.pc = n.self.pc ∧ out.2.self.deque = n.self.deque ∧
      out.2.net.chanTasks = n.net.chanTasks ∧
      out.2.ledger = { n.ledger.create dup.future.isSome with
        created := n.ledger.created, nextId := n.ledger.nextId } := by
  unfold patchFuture
  split
  · next none =>
    rw [ensures_pure]
    refine ⟨?_, rfl, rfl, rfl, rfl, ?_⟩
    · simp only [Task.piece, none, Option.isSome_none, Bool.false_eq_true, ↓reduceIte]
    · simp only [none, Ledger.create, Option.isSome_none, Bool.false_eq_true, ↓reduceIte]
  · next f some =>
    have registers : Ensures (fun _ => True) (registerFuture w n.net.nextFuture n.self) fun x =>
        x.frames.map Frame.view = n.self.frames.map Frame.view ∧ x.pc = n.self.pc ∧
          x.deque = n.self.deque ∧ x.numTasksExec = n.self.numTasksExec := by
      unfold registerFuture
      split
      · next frame rest frames =>
        rw [ensures_pure, frames]
        exact ⟨rfl, rfl, rfl, rfl⟩
      · next frames =>
        split
        · exact ⟨rfl, rfl, rfl, rfl⟩
        · trivial
    rw [ensures_bind]
    refine registers.mono ?_
    rintro x ⟨frames, pc, deque, exec⟩
    rw [ensures_pure]
    refine ⟨by rw [some]; rfl, frames, pc, deque, rfl, ?_⟩
    simp only [some, Node.ledger, Ledger.create, exec, passed_update, result_update,
      Option.isSome_some, ↓reduceIte, LazyFuture.heap, LazyFuture.alloc]

theorem splitLoop_cutOff (vacant : Vacant cfg n.net req) :
    Ensures (fun _ => True) (splitLoop cfg o w t req n) fun out =>
      splitFunc cfg.split cfg.numWorkers o.pending t.range = .ok out.1 ∧
        CutOff cfg t out.1 n out.2 := by
  obtain ⟨still, untold⟩ := @taskAlloc_still n
  obtain ⟨worker, inside, empty⟩ := vacant
  have start := @taskAlloc_ledger n
  simp only [splitLoop, ensures_bind, ensures_check, implies_true, and_true]
  refine fun _ => ensures_answer fun split cut => ?_
  refine patchFuture_ledger.mono ?_
  rintro ⟨dup, n'⟩ ⟨piece, frames, pc, deque, chanTasks, ledger⟩
  have channels : n'.net.chanTasks = n.net.chanTasks := chanTasks.trans untold.chanTasks
  have free : n'.net.chanTasks req.ID req.chan = none := by
    rw [channels]
    exact empty
  have sent := @Network.pieces_putTask cfg
    { n'.net with nextId := n'.net.nextId + 1, created := n'.net.created ++ [dup.id] }
    req.ID req.chan [dup] req.state worker inside free
  have loose : Network.pieces cfg
      { n'.net with nextId := n'.net.nextId + 1, created := n'.net.created ++ [dup.id] } =
      n.net.pieces cfg := by
    simp only [Network.pieces, channels]
  have id : dup.id = n.ledger.nextId := by
    have := congrArg Piece.id piece
    rw [← start]
    exact this
  rw [start] at ledger piece
  rw [ensures_pure]
  refine ⟨cut, ?_, frames.trans (by rw [still.frames]), pc.trans still.pc, ?_⟩
  · rw [sendTasks_eq (by exact free), sent, loose, piecesOf_cons, piecesOf_nil, deque, still.deque,
      piece]
    simp only [Multiset.cons_add, zero_add, Multiset.add_cons]
    congr 1
    simp only [Ledger.upper, Task.piece, ← id]
    have dupId := congrArg Piece.id piece
    simp only [Task.piece] at dupId
    rw [dupId]
  · rw [sendTasks_eq (by exact free)]
    simp only [Node.ledger, Network.putTask, Ledger.mk.injEq, Ledger.create] at ledger id ⊢
    obtain ⟨created, finished, nextId, nextFuture, passed, result, exec⟩ := ledger
    rw [created, nextId, id]
    exact ⟨rfl, finished, rfl, nextFuture, passed, result, exec⟩

/-- What the pieces are when one is taken out of the loose ones and one out of the frames. -/
theorem CutOff.pieces (done : CutOff cfg t split n n') :
    piecesOf n'.self.deque + piecesOf (n'.self.frames.map Frame.task) + n'.net.pieces cfg =
      n.ledger.upper t split ::ₘ
        (piecesOf n.self.deque + piecesOf (n.self.frames.map Frame.task) + n.net.pieces cfg) := by
  rw [pieces_of_view done.frames, add_right_comm, done.loose, add_right_comm, Multiset.cons_add]

theorem CutOff.held {pc : Pc} (done : CutOff cfg t split n n') (can : t.canSplit = true)
    (cut : splitFunc cfg.split cfg.numWorkers o.pending t.range = .ok split)
    (before : n.self.pc.held = some t)
    (after : pc.held = some { t with range := t.range.lower split })
    (site : Site.awaits pc.site = Site.awaits n.self.pc.site) :
    Cuts cfg o t split n (n'.goto pc) := by
  refine ⟨can, cut, ⟨piecesOf n.self.deque + piecesOf (n.self.frames.map Frame.task) +
    n.net.pieces cfg, ?_, ?_⟩, stack_of_view done.frames site, done.ledger⟩
  · simp only [Node.pieces, Worker.pieces, before, Option.toList_some, piecesOf_cons, piecesOf_nil,
      Multiset.cons_add, zero_add]
  · simp only [Node.pieces, Worker.pieces, Node.goto, after, Option.toList_some, piecesOf_cons,
      piecesOf_nil, Multiset.cons_add, zero_add, done.pieces]
    rfl

theorem CutOff.current (done : CutOff cfg t split n n') (can : t.canSplit = true)
    (cut : splitFunc cfg.split cfg.numWorkers o.pending t.range = .ok split)
    (top : n.self.currentTask = some t) :
    Cuts cfg o t split n { n' with self := n'.self.shortenCurrent split } := by
  have pieces := done.pieces
  have frames := done.frames
  cases stack : n.self.frames with
  | nil => simp [Worker.currentTask, stack] at top
  | cons frame rest =>
    obtain rfl : frame.task = t := by simpa [Worker.currentTask, stack] using top
    cases stack' : n'.self.frames with
    | nil => simp [stack, stack'] at frames
    | cons frame' rest' =>
      rw [stack, stack', List.map_cons, List.map_cons] at frames
      obtain ⟨first, others⟩ := List.cons.inj frames
      have piece : frame'.task.piece = frame.task.piece := congrArg Prod.fst first
      have short : n'.self.shortenCurrent split = { n'.self with
          frames := { frame' with
            task := { frame'.task with range := frame'.task.range.lower split } } :: rest' } := by
        simp only [Worker.shortenCurrent, stack']
      have lower : Task.piece { frame'.task with range := frame'.task.range.lower split } =
          frame.task.lower split := by
        have range : frame'.task.range = frame.task.range := congrArg Piece.range piece
        rw [Task.lower, ← piece, ← range]
        rfl
      rw [stack, stack'] at pieces
      simp only [List.map_cons, piecesOf_cons, piece, Multiset.add_cons,
        Multiset.cons_add] at pieces
      rw [Multiset.cons_swap, Multiset.cons_inj_right] at pieces
      refine ⟨can, cut, ⟨piecesOf n.self.pc.held.toList + (piecesOf n.self.deque +
        piecesOf (rest.map Frame.task) + n.net.pieces cfg), ?_, ?_⟩, ?_, ?_⟩
      · simp only [Node.pieces, Worker.pieces, stack, List.map_cons, piecesOf_cons,
          Multiset.add_cons, Multiset.cons_add, add_assoc]
      · rw [short, ← Multiset.add_cons, ← pieces]
        simp only [Node.pieces, Worker.pieces, List.map_cons, piecesOf_cons, lower, done.pc,
          Multiset.add_cons, Multiset.cons_add, add_assoc]
      · rw [short, Worker.stack, Worker.stack, done.pc, stack, List.map_cons, List.map_cons,
          links_of_view others]
        have link : frame'.link = frame.link := congrArg
          (fun view : Piece × Ret => (view.1.id, Site.awaits (some view.2.site))) first
        exact congrArg (Stack.mk _ <| · :: _) link
      · rw [short]
        exact done.ledger

/-- `handle`: the current task is split, or tasks are moved. -/
theorem handle_works (vacant : Vacant cfg n.net req) :
    Ensures (fun _ => True) (handle cfg o w req n) fun out =>
      Shuffles cfg n out.2 ∨ out.1 = true ∧ out.2.self.pc = n.self.pc ∧
        ∃ t split, n.self.currentTask = some t ∧ Cuts cfg o t split n out.2 := by
  unfold handle
  split
  · rw [ensures_bind]
    exact (handleStealRequest_shuffles vacant).mono fun n' moved => .inl moved
  · dsimp only
    split
    · next t some =>
      obtain ⟨current, can⟩ := Option.filter_eq_some_iff.mp some
      split
      · rw [ensures_bind]
        refine (splitLoop_cutOff vacant).mono ?_
        rintro ⟨split, n'⟩ ⟨cut, done⟩
        refine .inr ⟨rfl, ?_, t, split, current, done.current can cut current⟩
        refine Eq.trans ?_ done.pc
        simp only [Worker.shortenCurrent]
        split <;> rfl
      · rw [ensures_bind]
        exact forgetReq_shuffles.mono fun x moved => .inl moved
    · split
      · simp only [ensures_bind, ensures_check, ensures_pure, implies_true, and_true]
        exact fun _ => .inl .refl
      · rw [ensures_bind]
        exact declineStealRequest_shuffles.mono fun n' moved => .inl moved

end Requests

/-! ## Program points -/

section Points

variable {ctx : Context} {w : ℕ} {c : Choice} {req : StealRequest} {k : ReqCont} {site : Site}
  {t : Task} {i : ℕ}

theorem Shuffles.goes (moved : Shuffles cfg n n') {pc : Pc} (away : n.self.pc ≠ .user)
    (held : pc.held = n.self.pc.held) (site : Site.awaits pc.site = Site.awaits n.self.pc.site) :
    WorkStep cfg w c n (n'.goto pc) := by
  refine .idles (fun here => absurd here away) ?_ (stack_of_view moved.frames site) moved.ledger
  rw [← moved.pieces]
  simp only [Node.pieces, Worker.pieces, Node.goto, held, moved.pc]

theorem Shuffles.stays (moved : Shuffles cfg n n') (away : n.self.pc ≠ .user) :
    WorkStep cfg w c n n' := by
  have goes : WorkStep cfg w c n (n'.goto n.self.pc) := moved.goes away rfl rfl
  rwa [← moved.pc] at goes

theorem Shuffles.runs (moved : Shuffles cfg n n') {ret : Ret} (away : n.self.pc ≠ .user)
    (held : n.self.pc.held = some t) (site : n.self.pc.site = some ret.site) :
    WorkStep cfg w c n (runTask t ret n') := by
  refine .runs away held ?_ ?_ moved.ledger
  · rw [← moved.pieces]
    simp only [Node.pieces, Worker.pieces, runTask, moved.pc, held, held_user, Network.pieces,
      Option.toList_none, Option.toList_some, List.map_cons, piecesOf_cons, piecesOf_nil,
      Multiset.add_cons, Multiset.cons_add, zero_add]
  · simp only [Worker.stack, runTask, List.map_cons, links_of_view moved.frames, Frame.link, site]
    rfl

theorem popStep_works (here : n.self.pc = .pop site) :
    WorkStep cfg w c n (popStep cfg site n) := by
  obtain ⟨parts, -⟩ := dequePop_facts site n.self
  have goes {pc : Pc} (held : pc.held = (dequePop site n.self).1) (awaits : pc.site = some site) :
      WorkStep cfg w c n
        (Node.goto { n with self := { n.self with deque := (dequePop site n.self).2 } } pc) := by
    refine .idles (by simp [here]) ?_ (stack_of_view rfl ?_) rfl
    · simp only [Node.pieces, Worker.pieces, Node.goto, held, ← parts, piecesOf_append, here]
      simp [Pc.held]
    · rw [here]
      exact congrArg Site.awaits awaits
  unfold popStep
  generalize dequePop site n.self = popped at goes
  obtain ⟨task, deque⟩ := popped
  cases task with
  | none => exact goes rfl rfl
  | some t =>
    dsimp only
    split <;> exact goes rfl rfl

theorem noRequest_works (away : n.self.pc ≠ .user) (held : n.self.pc.held = (Pc.recvReq k).held)
    (inside : n.self.pc.site = k.site) :
    WorkStep cfg w c n (noRequest cfg k n) := by
  have goes {pc : Pc} (empty : pc.held = (Pc.recvReq k).held)
      (same : Site.awaits pc.site = Site.awaits k.site) : WorkStep cfg w c n (n.goto pc) :=
    Shuffles.refl.goes away (empty.trans held.symm) (by rw [inside, same])
  cases k with
  | push | poll | force f => exact goes rfl rfl
  | declineAll site =>
    simp only [noRequest, declined]
    split
    · next leaves => exact goes rfl (by rw [leaves.1]; rfl)
    · exact goes rfl rfl
  | pop site task =>
    cases task with
    | some t => exact Shuffles.refl.runs away held (by rw [inside]; cases site <;> rfl)
    | none =>
      simp only [noRequest, popFailed]
      cases site with
      | schedule | force f => exact goes rfl rfl
      | barrier =>
        dsimp only
        split
        · have moved : Shuffles cfg n { n with self := { n.self with quiescent := true } } :=
            Still.shuffles ⟨rfl, rfl, rfl, rfl⟩ .refl
          exact moved.goes away held.symm (by rw [inside]; rfl)
        · split <;> exact goes rfl rfl

theorem received_works (moved : Shuffles cfg n n') (away : n.self.pc ≠ .user)
    (held : n.self.pc.held = (Pc.recvReq k).held) (inside : n.self.pc.site = k.site) :
    WorkStep cfg w c n (received w k req n') := by
  obtain ⟨req', eq, -⟩ := received_eq w k req n'
  rw [eq]
  refine moved.goes away (Eq.trans ?_ held.symm) (by rw [inside]; rfl)
  cases k <;> rfl

theorem dropRequest_shuffles : Shuffles cfg n { n with net := n.net.dropRequest i } :=
  Still.refl.shuffles ⟨rfl, fun _ => rfl⟩

theorem recvReqStep_works (here : n.self.pc = .recvReq k) :
    Ensures (fun _ => True) (recvReqStep cfg w k n) (WorkStep cfg w c n) := by
  have away : n.self.pc ≠ .user := by simp [here]
  have held : n.self.pc.held = (Pc.recvReq k).held := by rw [here]
  have site : n.self.pc.site = k.site := by rw [here]; rfl
  unfold recvReqStep
  split
  · split
    · rw [ensures_bind]
      refine holdOn_still.mono fun x still => Shuffles.stays ?_ away
      exact still.shuffles ⟨rfl, fun _ => rfl⟩
    · exact received_works dropRequest_shuffles away held site
  · split
    · exact noRequest_works away held site
    · exact Shuffles.refl.goes away (Eq.trans (by cases k <;> rfl) held.symm) (by rw [site]; rfl)

theorem recvReqForStep_works {scan : List ℕ} (here : n.self.pc = .recvReqFor k scan) :
    WorkStep cfg w c n (recvReqForStep cfg w k scan n) := by
  have away : n.self.pc ≠ .user := by simp [here]
  have held : n.self.pc.held = (Pc.recvReq k).held := by
    rw [here]
    cases k <;> rfl
  have site : n.self.pc.site = k.site := by rw [here]; rfl
  unfold recvReqForStep
  split
  · exact noRequest_works away held site
  · split
    · exact received_works dropRequest_shuffles away held site
    · exact Shuffles.refl.goes away (Eq.trans (by cases k <;> rfl) held.symm) (by rw [site]; rfl)

theorem Cuts.moves {o : Oracle} {split : ℤ} (done : Cuts cfg o t split n n')
    (moved : Shuffles cfg n' n'') : Cuts cfg o t split n n'' := by
  obtain ⟨rest, before, after⟩ := done.parts
  exact ⟨done.can, done.cut, ⟨rest, before, moved.pieces.trans after⟩,
    (stack_of_view moved.frames (by rw [moved.pc])).trans done.stack,
    moved.ledger.trans done.ledger⟩

theorem Cuts.goes {o : Oracle} {split : ℤ} (done : Cuts cfg o t split n n') {pc : Pc}
    (held : pc.held = n'.self.pc.held) (site : Site.awaits pc.site = Site.awaits n'.self.pc.site) :
    Cuts cfg o t split n (n'.goto pc) := by
  obtain ⟨rest, before, after⟩ := done.parts
  refine ⟨done.can, done.cut, ⟨rest, before, ?_⟩,
    (stack_of_view rfl site : (n'.goto pc).self.stack = n'.self.stack).trans done.stack,
    done.ledger⟩
  rw [← after]
  simp only [Node.pieces, Worker.pieces, Node.goto, held]

theorem popHandle_works {task : Option Task} (vacant : Vacant cfg n.net req)
    (here : n.self.pc = .handle (.pop site task) req) :
    Ensures (fun _ => True) (popHandle cfg c.oracle w site task req n) (WorkStep cfg w c n) := by
  have held : n.self.pc.held = task := by rw [here]; rfl
  have away : n.self.pc ≠ .user := by simp [here]
  have inside : n.self.pc.site = some site := by rw [here]; rfl
  unfold popHandle
  split
  · next t some =>
    obtain ⟨rfl, can⟩ : task = Option.some t ∧ t.canSplit = true := by
      split at some
      · exact Option.filter_eq_some_iff.mp some
      · cases some
    split
    · rw [ensures_bind]
      refine (splitLoop_cutOff vacant).mono ?_
      rintro ⟨split, n'⟩ ⟨cut, done⟩
      refine .splits away (by rw [Worker.splits, here]) (done.held can cut held rfl ?_)
      rw [inside]
      rfl
    · rw [ensures_bind]
      exact forgetReq_shuffles.mono fun x moved => moved.goes away held.symm (by rw [inside]; rfl)
  · rw [ensures_bind]
    exact (handleStealRequest_shuffles vacant).mono fun n' moved =>
      moved.goes away held.symm (by rw [inside]; rfl)

theorem handleStep_works (vacant : Vacant cfg n.net req) (here : n.self.pc = .handle k req) :
    Ensures (fun _ => True) (handleStep cfg c.oracle w k req n) (WorkStep cfg w c n) := by
  have away : n.self.pc ≠ .user := by simp [here]
  cases k with
  | push | force f =>
    simp only [handleStep, ensures_bind]
    exact (handleStealRequest_shuffles vacant).mono fun n' moved =>
      moved.goes away (by rw [here]; rfl) (by rw [here]; rfl)
  | poll =>
    simp only [handleStep, ensures_bind]
    refine (handle_works vacant).mono ?_
    rintro out (moved | ⟨-, pc, t, split, current, done⟩)
    · exact moved.goes away (by rw [here]; rfl) (by rw [here]; rfl)
    · refine .splits away (by rw [Worker.splits, here, current]) (done.goes ?_ ?_)
      · rw [pc, here]
        rfl
      · rw [pc, here]
        rfl
  | pop site task => exact popHandle_works vacant here
  | declineAll site =>
    simp only [handleStep, ensures_bind]
    refine declineStealRequest_shuffles.mono fun n' moved => ?_
    simp only [ensures_pure, declined]
    split
    · next leaves => exact moved.goes away (by rw [here]; rfl) (by rw [here, leaves.1]; rfl)
    · exact moved.goes away (by rw [here]; rfl) (by rw [here]; rfl)

theorem shareDone_works {k : ShareCont} (here : n.self.pc = .shareWork k)
    (remains : n.self.pc.leaving = false) (moved : Shuffles cfg n n') :
    Ensures (fun _ => True) (shareDone cfg w k n') (WorkStep cfg w c n) := by
  have away : n.self.pc ≠ .user := by simp [here]
  cases k with
  | push | poll | pop site task =>
    exact moved.goes away (by rw [here]; rfl) (by rw [here]; rfl)
  | got site t => exact moved.runs away (by rw [here]; rfl) (by rw [here]; cases site <;> rfl)
  | exit addr => simp [here, Pc.leaving] at remains

theorem Pre.shareStep_works (pre : Pre cfg ctx w n) {k : ShareCont}
    (here : n.self.pc = .shareWork k) :
    Ensures (fun _ => True) (Runtime.shareStep cfg c.oracle w k n) (WorkStep cfg w c n) := by
  have away : n.self.pc ≠ .user := by simp [here]
  have which : n.self.splits = n.self.currentTask := by rw [Worker.splits, here]
  simp only [Runtime.shareStep, ensures_bind]
  unfold Runtime.shareRound
  split
  · exact shareDone_works here pre.loc.stays .refl
  · next req rest queue =>
    have vacant := pre.vacant (pre.queued (by rw [here]; rfl) queue).1
    simp only [ensures_bind, ensures_check, implies_true, and_true]
    refine fun _ => (handle_works vacant).mono ?_
    rintro ⟨served, n'⟩ handled
    cases served with
    | false =>
      have moved : Shuffles cfg n n' := handled.resolve_right fun both => Bool.false_ne_true both.1
      exact shareDone_works here pre.loc.stays moved
    | true =>
      simp only [↓reduceIte, ensures_bind, ensures_pure]
      refine clearLifeline_still.mono fun x still => ?_
      have cleared : Shuffles cfg n' { n' with self := x } := still.shuffles .refl
      rcases handled with moved | ⟨-, -, t, split, current, done⟩
      · exact (moved.trans cleared).stays away
      · exact .splits away (which.trans current) (done.moves cleared)

theorem peekStep_works {scan : List ℕ} (here : n.self.pc = .peekReq scan) :
    WorkStep cfg w c n (peekStep scan n) := by
  have away : n.self.pc ≠ .user := by simp [here]
  unfold peekStep
  split
  · exact Shuffles.refl.goes away (by rw [here]; rfl) (by rw [here]; rfl)
  · split <;> exact Shuffles.refl.goes away (by rw [here]; rfl) (by rw [here]; rfl)

theorem sendStep_works {k : SendCont} (here : n.self.pc = .trySend k) :
    Ensures (fun _ => True) (sendStep cfg c.oracle w k n) (WorkStep cfg w c n) := by
  have away : n.self.pc ≠ .user := by simp [here]
  cases k with
  | enter site =>
    simp only [sendStep, ensures_bind]
    refine trySendStealRequest_shuffles.mono fun n' moved => ?_
    have goes : WorkStep cfg w c n (n'.goto (.recvTask site 0)) :=
      moved.goes away (by rw [here]; rfl) (by rw [here]; rfl)
    simp only [ensures_ite, ensures_bind, ensures_check, ensures_pure, implies_true, and_true]
    exact ⟨fun _ _ => goes, fun _ => goes⟩
  | failed site =>
    simp only [sendStep, ensures_bind]
    refine trySendStealRequest_shuffles.mono fun n' moved => ?_
    cases site with
    | force f => exact moved.goes away (by rw [here]; rfl) (by rw [here]; rfl)
    | schedule | barrier =>
      simp only [taskMissing, ensures_bind, ensures_check, ensures_ite, ensures_pure, implies_true,
        and_true]
      exact fun _ _ => ⟨fun _ => moved.goes away (by rw [here]; rfl) (by rw [here]; rfl),
        fun _ => moved.goes away (by rw [here]; rfl) (by rw [here]; rfl)⟩
  | again f | early site t =>
    simp only [sendStep, ensures_bind]
    exact trySendStealRequest_shuffles.mono fun n' moved =>
      moved.goes away (by rw [here]; rfl) (by rw [here]; rfl)

/-- The tasks of a message go to the deque and to the worker's hands. -/
theorem Pre.unpack_works (pre : Pre cfg ctx w n) {message : Message}
    (here : n.self.pc = .recvTask site i) (slot : n.net.chanTasks w i = some message)
    (still : Still n.self x) :
    Ensures (fun _ => True) (unpack cfg w site message x) fun x' =>
      WorkStep cfg w c n ⟨x', n.net.putTask w i none⟩ := by
  obtain ⟨worker, inside, batch, state, some, rfl⟩ := pre.net.slots _ _ _ slot
  cases batch with
  | nil => exact absurd rfl some
  | cons t rest =>
    have taken := Network.pieces_takeTask worker inside slot
    have lands {x' : Worker} (deque : x'.deque = rest ++ x.deque) (frames : x'.frames = x.frames)
        (pc : x'.pc = .shareWork (.got site t)) (exec : x'.numTasksExec = x.numTasksExec) :
        WorkStep cfg w c n ⟨x', n.net.putTask w i none⟩ := by
      refine .idles (by simp [here]) ?_ (stack_of_view (by rw [frames, still.frames]) ?_) ?_
      · simp only [Node.pieces, Worker.pieces, taken, deque, frames, pc, here, Pc.held, still.deque,
          still.frames, Message.pieces, piecesOf_append, piecesOf_cons, piecesOf_nil,
          Option.toList_some, Option.toList_none, Multiset.cons_add, Multiset.add_cons, zero_add]
        congr 1
        abel
      · rw [pc, here]
        rfl
      · simp only [Node.ledger, Network.putTask, exec, still.numTasksExec]
    simp only [unpack, ensures_ite, ensures_bind, ensures_check, ensures_pure, implies_true,
      and_true]
    exact ⟨fun _ _ => lands rfl rfl rfl rfl, fun _ => lands rfl rfl rfl rfl⟩

theorem Pre.recvTaskStep_works (pre : Pre cfg ctx w n) (here : n.self.pc = .recvTask site i) :
    Ensures (fun _ => True) (Runtime.recvTaskStep cfg w site i n) (WorkStep cfg w c n) := by
  have away : n.self.pc ≠ .user := by simp [here]
  unfold Runtime.recvTaskStep
  split
  · simp only [ensures_bind, ensures_await, ensures_pure]
    have woken : Shuffles cfg n { n with self := { n.self with inWait := false } } :=
      Still.shuffles ⟨rfl, rfl, rfl, rfl⟩ .refl
    exact fun _ => woken.stays away
  · split
    · next message slot =>
      simp only [ensures_bind]
      exact receivedTask_still.mono fun x still => pre.unpack_works here slot still
    · split <;> exact Shuffles.refl.goes away (by rw [here]; rfl) (by rw [here]; rfl)

theorem Pre.forceStep_works (pre : Pre cfg ctx w n) {f : Awaited} {point : ReadyPoint}
    (here : n.self.pc = .forceReady f point) :
    Ensures (fun _ => True) (Runtime.forceStep f point c.ready n) (WorkStep cfg w c n) := by
  have away : n.self.pc ≠ .user := by simp [here]
  have next : WorkStep cfg w c n (n.goto (point.next f)) := by
    refine Shuffles.refl.goes away ?_ ?_ <;>
    · rw [here]
      cases point <;> rfl
  cases f with
  | foreign =>
    simp only [Runtime.forceStep, ensures_pure]
    split
    · refine .strays (.inr ⟨point, here⟩) ?_ rfl
      simp only [Node.pieces, Worker.pieces, Node.goto, here, Pc.held]
    · exact next
  | own f =>
    have awaiting : f ∈ n.self.loc.awaiting := by
      simp [Local.awaiting, Worker.loc, here, Pc.site, Site.futures, Awaited.futures]
    obtain ⟨known, -, fresh, asked⟩ := pre.depends.futures f awaiting
    have forced := LazyFuture.Sound.force
      (show (n.net.futures f).Sound from pre.kept.sound f known) asked fresh
    simp only [Runtime.forceStep, ensures_bind]
    refine (forced.weaken fun _ _ => trivial).mono fun out ready => ?_
    cases out with
    | none => exact next
    | some content =>
      obtain ⟨-, isSome, result, passed, -⟩ := ready content rfl
      obtain ⟨value, got⟩ := Option.isSome_iff_exists.mp isSome
      refine .collects here got ?_ ?_ ?_
      · simp only [Node.pieces, Worker.pieces, Node.goto, here, Pc.held, Network.pieces,
          Network.setFuture]
      · rfl
      · simp only [Node.ledger, Node.goto, Network.setFuture, passed_update, result_update, passed,
          result.trans got, update_eq_self]

/-! ## User code -/

theorem spawn_works {loop : Option (ℤ × ℤ)} {future : Bool} (here : n.self.pc = .user)
    (act : c.act = .spawn loop future) :
    Ensures (fun _ => True) (userStep w (.spawn loop future) n) (WorkStep cfg w c n) := by
  obtain ⟨still, untold⟩ := @taskAlloc_still n
  have start := @taskAlloc_ledger n
  have piece : (newTask w loop future n).1.piece = n.ledger.newPiece loop future := by
    rw [← start]
    rfl
  have pushed {x : Worker} (deque : x.deque = (newTask w loop future n).1 ::
      (newTask w loop future n).2.self.deque)
      (frames : x.frames = (newTask w loop future n).2.self.frames)
      (pc : x.pc = .shareWork .push)
      (exec : x.numTasksExec = (newTask w loop future n).2.self.numTasksExec) :
      WorkStep cfg w c n { (newTask w loop future n).2 with self := x } := by
    refine .spawns here act ?_ (stack_of_view ?_ ?_) ?_
    · have channels : (newTask w loop future n).2.net.chanTasks = n.net.chanTasks := by
        rw [← untold.chanTasks]
        cases future <;> rfl
      simp only [Node.pieces, Worker.pieces, Network.pieces, deque, frames, pc, here, Pc.held,
        piecesOf_cons, piece, channels, Multiset.cons_add, Multiset.add_cons]
      rw [show (newTask w loop future n).2.self.deque = n.self.deque from still.deque,
        show (newTask w loop future n).2.self.frames = n.self.frames from still.frames]
    · rw [frames]
      exact congrArg _ still.frames
    · rw [pc, here]
      rfl
    · have made : (newTask w loop future n).2.ledger = n.ledger.create future := by
        rw [← start]
        cases future with
        | false => rfl
        | true =>
          simp only [newTask, Node.ledger, Ledger.create, ↓reduceIte, passed_update, result_update,
            LazyFuture.alloc]
      rw [← made, Node.ledger, Node.ledger, exec]
  simp only [userStep, push, ensures_bind, ensures_ite, ensures_check, ensures_pure, implies_true,
    and_true]
  exact ⟨fun _ _ => pushed rfl rfl rfl rfl, fun _ => pushed rfl rfl rfl rfl⟩

theorem awaitOwn_works {f : ℕ} (here : n.self.pc = .user) (act : c.act = .await (.own f)) :
    WorkStep cfg w c n (awaitOwn f n) := by
  refine .asks here act ?_ rfl ?_
  · simp only [Node.pieces, Worker.pieces, awaitOwn, Node.goto, here, Pc.held, Network.pieces,
      Network.setFuture]
  · simp only [Node.ledger, awaitOwn, Node.goto, Network.setFuture, passed_update, result_update,
      update_eq_self]

theorem reduce_works (here : n.self.pc = .user) (act : c.act = .reduce) :
    WorkStep cfg w c n (reduce w n) := by
  have strays {n' : Node} (deque : n'.self.deque = n.self.deque)
      (frames : n'.self.frames.map Frame.view = n.self.frames.map Frame.view)
      (held : n'.self.pc.held = none) (channels : n'.net.chanTasks = n.net.chanTasks)
      (ledger : n'.ledger = n.ledger) : WorkStep cfg w c n n' := by
    refine .strays (.inl ⟨here, .inl act⟩) ?_ ledger
    simp only [Node.pieces, Worker.pieces, Network.pieces, deque, pieces_of_view frames, channels,
      held, here, held_user]
  unfold reduce
  split
  · exact strays rfl rfl (by rw [here]; rfl) rfl rfl
  · next f rest _ =>
    have set : (n.self.setCurrentFutures rest).deque = n.self.deque ∧
        (n.self.setCurrentFutures rest).frames.map Frame.view = n.self.frames.map Frame.view ∧
        (n.self.setCurrentFutures rest).numTasksExec = n.self.numTasksExec := by
      unfold Worker.setCurrentFutures
      split
      · next frame rest' frames =>
        rw [frames]
        exact ⟨rfl, rfl, rfl⟩
      · next frames =>
        rw [frames]
        exact ⟨rfl, rfl, rfl⟩
    obtain ⟨deque, frames, exec⟩ := set
    dsimp only
    split
    · refine strays deque frames rfl rfl ?_
      simp only [Node.ledger, awaitOwn, Node.goto, Network.setFuture, passed_update, result_update,
        update_eq_self, exec]
    · refine strays deque frames rfl rfl ?_
      simp only [Node.ledger, Node.goto, exec]

theorem pieces_top {frame : Frame} {rest : List Frame} {x' : Worker} (t : Task)
    (frames : n.self.frames = frame :: rest)
    (held : x'.pc.held = n.self.pc.held) (deque : x'.deque = n.self.deque)
    (top : x'.frames = { frame with task := t } :: rest) :
    ∃ others, n.pieces cfg = frame.task.piece ::ₘ others ∧
      Node.pieces cfg ⟨x', n.net⟩ = t.piece ::ₘ others := by
  refine ⟨piecesOf n.self.pc.held.toList + piecesOf n.self.deque + piecesOf (rest.map Frame.task) +
    n.net.pieces cfg, ?_, ?_⟩ <;>
  · simp only [Node.pieces, Worker.pieces, frames, top, held, deque, List.map_cons, piecesOf_cons,
      Multiset.add_cons, Multiset.cons_add]

theorem asyncFor_works (here : n.self.pc = .user) (act : c.act = .asyncFor) :
    Ensures (fun _ => True) (asyncFor n.self) fun x => WorkStep cfg w c n { n with self := x } := by
  unfold asyncFor
  split
  · trivial
  · next frame rest frames =>
    simp only [ensures_bind, ensures_check, ensures_pure, implies_true, and_true]
    intro loop start
    obtain ⟨others, before, after⟩ := @pieces_top cfg n frame rest
      { n.self with frames := { frame with task := { frame.task with
        iter := some frame.task.range.start
        range := { frame.task.range with cur := long (frame.task.range.cur + 1) } } } :: rest }
      _ frames rfl rfl rfl
    refine .enters here act ?_ loop start before after ?_ rfl
    · simp only [Worker.currentTask, frames, List.head?_cons, Option.map_some]
    · simp only [Worker.stack, frames]
      rfl

theorem iterate_works (here : n.self.pc = .user) (act : c.act = .iterate) :
    Ensures (fun _ => True) (iterate n.self) fun x => WorkStep cfg w c n { n with self := x } := by
  unfold iterate
  split
  · trivial
  · next frame rest frames =>
    split
    · trivial
    · next i iter =>
      simp only [ensures_bind, ensures_await, ensures_pure]
      intro inside
      obtain ⟨others, before, after⟩ := @pieces_top cfg n frame rest
        { n.self with
          frames := { frame with task := { frame.task with
            iter := some (long (i + 1))
            range := { frame.task.range with cur := long (frame.task.range.cur + 1) } } } :: rest
          pc := .shareWork .poll }
        _ frames (by rw [here]; rfl) rfl rfl
      refine .iterates here act ?_ iter inside before after ?_ rfl
      · simp only [Worker.currentTask, frames, List.head?_cons, Option.map_some]
      · simp only [Worker.stack, frames, here]
        rfl

theorem finish_works {value : Value} (here : n.self.pc = .user) (act : c.act = .finish value) :
    Ensures (fun _ => True) (finish value n) (WorkStep cfg w c n) := by
  unfold finish
  split
  · trivial
  · next frame rest frames =>
    obtain ⟨site, -, -, held, -⟩ := frame.ret.next_facts
    have returned {net : Network} (tasks : net.chanTasks = n.net.chanTasks)
        (ledger : Node.ledger ⟨n.self.popFrame frame rest,
          { net with finished := net.finished ++ [frame.task.id] }⟩ =
          n.ledger.finish frame.task value) :
        WorkStep cfg w c n ⟨n.self.popFrame frame rest,
          { net with finished := net.finished ++ [frame.task.id] }⟩ := by
      refine .finishes here act frames ?_ ?_ ledger
      · simp only [Node.pieces, Worker.pieces, Network.pieces, Worker.popFrame, tasks, held, frames,
          here, held_user, List.map_cons, piecesOf_cons, Multiset.add_cons, Multiset.cons_add]
      · simp only [Worker.stack, Worker.popFrame, site]
        rfl
    split
    · next none =>
      refine returned rfl ?_
      simp only [Node.ledger, Ledger.finish, Worker.popFrame, none]
    · next f some =>
      simp only [ensures_bind, ensures_await, ensures_pure]
      intro _
      have writes : Ensures (fun _ => True) ((n.net.futures f).write value) fun written =>
          written.passed = Option.some value ∧ written.result = (n.net.futures f).result := by
        simp only [LazyFuture.write, ensures_ite, ensures_bind, ensures_check, ensures_pure,
          implies_true, and_true]
      refine writes.mono ?_
      rintro written ⟨passed, result⟩
      refine returned rfl ?_
      simp only [Node.ledger, Ledger.finish, Worker.popFrame, Network.setFuture, passed_update,
        result_update, passed, result, some, update_eq_self]

theorem userStep_works (here : n.self.pc = .user) :
    Ensures (fun _ => True) (userStep w c.act n) (WorkStep cfg w c n) := by
  have goes {pc : Pc} (held : pc.held = none) : (n.goto pc).pieces cfg = n.pieces cfg := by
    simp only [Node.pieces, Worker.pieces, Node.goto, held, here, held_user]
  cases act : c.act with
  | spawn loop future => exact spawn_works here act
  | poll => exact .idles (fun _ => .inl act) (goes rfl) (stack_of_view rfl (by rw [here]; rfl)) rfl
  | await f =>
    cases f with
    | foreign => exact .strays (.inl ⟨here, .inr (.inl act)⟩) (goes rfl) rfl
    | own f =>
      simp only [userStep, ensures_bind, ensures_await, ensures_pure]
      exact fun _ => awaitOwn_works here act
  | reduce => exact reduce_works here act
  | barrier =>
    simp only [userStep, ensures_ite, ensures_bind, ensures_check, ensures_pure, implies_true,
      and_true]
    exact ⟨fun other => .idles (fun _ => .inr ⟨act, other⟩) rfl rfl rfl,
      fun master _ => .waits here act (not_not.mp master) (goes rfl) rfl rfl⟩
  | exit =>
    simp only [userStep, exitFn, ensures_bind, ensures_await, ensures_check, ensures_pure,
      implies_true, and_true]
    refine fun _ _ _ _ => .strays (.inl ⟨here, .inr (.inr act)⟩) ?_ rfl
    simp only [Node.pieces, Worker.pieces, Node.goto, here, Pc.held, Network.pieces]
  | asyncFor =>
    simp only [userStep, ensures_bind, ensures_pure]
    exact asyncFor_works here act
  | iterate =>
    simp only [userStep, ensures_bind, ensures_pure]
    exact iterate_works here act
  | finish value => exact finish_works here act

theorem Pre.works (pre : Pre cfg ctx w n) (c : Choice) :
    Ensures (fun _ => True) (Runtime.wstep cfg w c n) (WorkStep cfg w c n) := by
  have remains := pre.loc.stays
  unfold Runtime.wstep
  split
  · next here => exact userStep_works here
  · next here => exact popStep_works here
  · next here => exact pre.shareStep_works here
  · next here => exact peekStep_works here
  · next here => exact recvReqStep_works here
  · next here => exact recvReqForStep_works here
  · next here => exact handleStep_works (pre.vacant (hand_member (by rw [here]; rfl))) here
  · next here => exact sendStep_works here
  · next here => exact pre.recvTaskStep_works here
  · next here => exact pre.forceStep_works here
  · next here =>
    simp only [ensures_bind, ensures_check, ensures_pure, implies_true, and_true]
    refine fun _ => .leaves here ?_ rfl rfl
    simp only [Node.pieces, Worker.pieces, Node.goto, here, Pc.held]
  all_goals
    next here => simp [Worker.loc, here, Pc.leaving] at remains

/-- Only `RT_EXIT` ends the program. -/
theorem userStep_exiting {act : UserAct} (stays : act ≠ .exit) :
    Ensures (fun _ => True) (userStep w act n) fun n' => n'.net.exiting = n.net.exiting := by
  cases act with
  | spawn loop future =>
    have made : (newTask w loop future n).2.net.exiting = n.net.exiting := by
      have alloc : (taskAlloc n).2.net.exiting = n.net.exiting := by
        unfold taskAlloc
        split <;> rfl
      rw [← alloc]
      cases future <;> rfl
    simp only [userStep, ensures_bind]
    exact Ensures.any.mono fun _ _ => made
  | poll => rfl
  | await f =>
    cases f with
    | foreign => rfl
    | own f =>
      simp only [userStep, ensures_bind, ensures_await, ensures_pure]
      exact fun _ => rfl
  | reduce =>
    simp only [userStep, ensures_pure, reduce]
    split
    · rfl
    · split <;> rfl
  | barrier =>
    simp only [userStep, ensures_ite, ensures_bind, ensures_check, ensures_pure, implies_true,
      and_true]
    exact ⟨trivial, fun _ _ => rfl⟩
  | exit => exact absurd rfl stays
  | asyncFor | iterate =>
    simp only [userStep, ensures_bind]
    exact Ensures.any.mono fun _ _ => rfl
  | finish value =>
    simp only [userStep, finish]
    split
    · trivial
    · split
      · rfl
      · simp only [ensures_bind, ensures_await]
        exact fun _ => Ensures.any.mono fun _ _ => rfl

end Points

end Pieces

/-! ## States -/

section States

variable {cfg : Config} {s : State} {w : ℕ} {n : Node}

theorem pieces_put (worker : w < cfg.numWorkers) (n : Node) : (s.put w n).pieces cfg =
    n.pieces cfg + others cfg.numWorkers (fun v => (s.workers v).pieces) w := by
  have workers := gather_update (h := fun _ x => Worker.pieces x) (c := s.workers) (y := n.self)
    worker
  simp only [State.pieces, State.put, Node.pieces, workers]
  abel

theorem pieces_node (worker : w < cfg.numWorkers) : s.pieces cfg =
    (s.node w).pieces cfg + others cfg.numWorkers (fun v => (s.workers v).pieces) w := by
  rw [← pieces_put worker, State.put_node]

/-- Pieces of work are the tasks in custody. -/
theorem ids_pieces (cfg : Config) (s : State) :
    Custody.ids (s.custody cfg).tasks = (s.pieces cfg).map Piece.id := by
  have placed (spot : Custody.Spot) (tasks : List Task) :
      Custody.ids (Custody.place spot (tagsOf tasks)) = (piecesOf tasks).map Piece.id := by
    simp [Custody.ids, Custody.place, tagsOf, piecesOf, comp_def, Task.tag, Task.piece]
  have worker (v : ℕ) (x : Worker) : Custody.ids (x.tasks v) = x.pieces.map Piece.id := by
    rw [Worker.tasks, Custody.ids, Multiset.map_add, ← Custody.ids, ← Custody.ids, placed, placed,
      Worker.pieces, Multiset.map_add, piecesOf_append]
  have message (v c : ℕ) (slot : Option Message) :
      Custody.ids (Message.tasksIn v c slot) = (Message.pieces slot).map Piece.id := by
    rcases slot with _ | ⟨batch, state⟩ | addr
    · rfl
    · exact placed _ _
    · rfl
  have all (m : ℕ) (f : ℕ → Multiset (Custody.Spot × Custody.Tag)) :
      Custody.ids (gather m f) = gather m fun i => Custody.ids (f i) := map_gather _
  simp only [State.custody, State.pieces, Network.tasks, Network.pieces, Multiset.map_add,
    map_gather]
  rw [Custody.ids, Multiset.map_add, ← Custody.ids, ← Custody.ids, all, all]
  simp only [all, message, worker]

theorem Refines.pieces_nodup (ok : Refines cfg s) : ((s.pieces cfg).map Piece.id).Nodup := by
  have conserved := (Custody.reachable_inv ok.custody).1
  have nodup := conserved.nodup
  rw [conserved.created, ids_pieces] at nodup
  exact (Multiset.nodup_add.mp nodup).1

theorem Refines.pieces_lt (ok : Refines cfg s) {p : Piece} (member : p ∈ s.pieces cfg) :
    p.id < s.net.nextId := by
  have conserved := (Custody.reachable_inv ok.custody).1
  refine conserved.id_lt p.id ?_
  rw [conserved.created, ids_pieces]
  exact Multiset.mem_add.mpr (.inl (Multiset.mem_map_of_mem _ member))

/-- A step before `RT_EXIT`, and what it does to the work. -/
theorem Refines.works (ok : Refines cfg s) (worker : w < cfg.numWorkers) {c : Choice}
    (moved : wstep cfg w c (s.node w) = .ok n) (stays : (s.workers w).pc = .user → c.act ≠ .exit) :
    WorkStep cfg w c (s.node w) n ∧ Refines cfg (s.put w n) := by
  have pre := ok.pre worker
  refine ⟨(pre.works c).value moved, (ok.step worker moved).resolve_left fun exits => ?_⟩
  rw [wstep, exits.here] at moved
  have same := (userStep_exiting (stays exits.here)).value moved
  rw [exits.after] at same
  exact absurd (same.trans ok.net.running) (by simp [Node.goto])

end States

end Tasking.Runtime
