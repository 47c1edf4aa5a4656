import Tasking.Custody
import Tasking.Family
import Tasking.Runtime
import Tasking.TokenInvariant

/-! What the two protocols see of a state of the runtime.  A step of worker `w`
changes its own variables and the channels, so the views are written as
functions of the worker's node, with everything the other workers hold as a fixed
context. -/
namespace Tasking.Runtime
open Family TokenProtocol Custody

/-! ## What a worker contributes -/

def StealRequest.token (req : StealRequest) : Token := ⟨req.ID, req.chan, req.state⟩

def Task.tag (t : Task) : Tag := ⟨t.id, t.future⟩

def Worker.flag (x : Worker) : Side → Bool
  | .left => x.leftSubtreeIsIdle
  | .right => x.rightSubtreeIsIdle

def Worker.agent (x : Worker) : Agent where
  busy := !x.pc.isIdle
  waiting := x.waitingForTasks
  idle := x.flag
  requested := x.requested
  dropped := x.droppedStealRequests
  free := x.channelStack

def located (p : Place) (reqs : List StealRequest) : Multiset (Place × Token) :=
  reqs.map fun req => (p, req.token)

/-- The requests a worker holds on to, and the one in its hand. -/
def Worker.tokens (w : ℕ) (x : Worker) : Multiset (Place × Token) :=
  located (.queue w) x.workSharingRequests + located (.hand w) x.pc.hand.toList

def tagsOf (tasks : List Task) : Multiset Tag := tasks.map Task.tag

/-- The tasks a worker has, and those it runs. -/
def Worker.tasks (w : ℕ) (x : Worker) : Multiset (Spot × Tag) :=
  place (.ready w) (tagsOf (x.pc.held.toList ++ x.deque)) +
    place (.running w) (tagsOf (x.frames.map Frame.task))

/-! ## What the channels contribute -/

def Network.tokens (cfg : Config) (net : Network) : Multiset (Place × Token) :=
  gather cfg.numWorkers fun i => located (.channel i) (net.chanRequests i)

def Message.answer (owner chan : ℕ) : Option Message → Multiset Token
  | some (.tasks _ state) => {⟨owner, chan, state⟩}
  | _ => 0

def Message.tasksIn (owner chan : ℕ) : Option Message → Multiset (Spot × Tag)
  | some (.tasks batch _) => place (.sent owner chan) (tagsOf batch)
  | _ => 0

def Network.answers (cfg : Config) (net : Network) : Multiset Token :=
  gather cfg.numWorkers fun owner => gather cfg.maxSteal fun chan =>
    Message.answer owner chan (net.chanTasks owner chan)

def Network.tasks (cfg : Config) (net : Network) : Multiset (Spot × Tag) :=
  gather cfg.numWorkers fun owner => gather cfg.maxSteal fun chan =>
    Message.tasksIn owner chan (net.chanTasks owner chan)

/-! ## The views -/

/-- What the other workers hold.  A step of one worker leaves it alone, so that it has to be
compared with the protocols for that worker and the channels only. -/
structure Context where
  agents : ℕ → Agent
  quiescent : Bool
  tokens : Multiset (Place × Token)
  tasks : Multiset (Spot × Tag)

/-- Everybody but worker `w`. -/
def State.context (cfg : Config) (s : State) (w : ℕ) : Context where
  agents v := (s.workers v).agent
  quiescent := (s.workers 0).quiescent
  tokens := others cfg.numWorkers (fun v => (s.workers v).tokens v) w
  tasks := others cfg.numWorkers (fun v => (s.workers v).tasks v) w

/-- The token protocol's view of worker `w` in a context. -/
def Node.ring (cfg : Config) (ctx : Context) (w : ℕ) (n : Node) : TokenProtocol.State where
  agent := Function.update ctx.agents w n.self.agent
  quiescent := if w = 0 then n.self.quiescent else ctx.quiescent
  tokens := n.net.tokens cfg + n.self.tokens w + ctx.tokens
  answers := n.net.answers cfg

/-- The custody view of worker `w` in a context. -/
def Node.custody (cfg : Config) (ctx : Context) (w : ℕ) (n : Node) : Custody.State where
  tasks := n.net.tasks cfg + n.self.tasks w + ctx.tasks
  created := n.net.created
  started := n.net.started
  finished := n.net.finished
  nextId := n.net.nextId
  nextFuture := n.net.nextFuture
  futures := n.net.futures

/-- The token protocol's view of a state. -/
def State.ring (cfg : Config) (s : State) : TokenProtocol.State where
  agent v := (s.workers v).agent
  quiescent := (s.workers 0).quiescent
  tokens := s.net.tokens cfg + gather cfg.numWorkers fun v => (s.workers v).tokens v
  answers := s.net.answers cfg

/-- The custody view of a state. -/
def State.custody (cfg : Config) (s : State) : Custody.State where
  tasks := s.net.tasks cfg + gather cfg.numWorkers fun v => (s.workers v).tasks v
  created := s.net.created
  started := s.net.started
  finished := s.net.finished
  nextId := s.net.nextId
  nextFuture := s.net.nextFuture
  futures := s.net.futures

section Views

variable {cfg : Config} {s : State} {w : ℕ}

theorem ring_put (worker : w < cfg.numWorkers) (n : Node) :
    (s.put w n).ring cfg = n.ring cfg (s.context cfg w) w := by
  have tokens := gather_update (h := fun v x => Worker.tokens v x) (c := s.workers) (y := n.self)
    worker
  simp only [State.ring, State.put, Node.ring, State.context, tokens, TokenProtocol.State.mk.injEq,
    add_assoc, and_true]
  refine ⟨?_, ?_⟩
  · funext v
    by_cases same : v = w
    · subst same
      simp
    · simp [same]
  · by_cases master : w = 0
    · subst master
      simp
    · simp [master, Ne.symm master]

theorem custody_put (worker : w < cfg.numWorkers) (n : Node) :
    (s.put w n).custody cfg = n.custody cfg (s.context cfg w) w := by
  have tasks := gather_update (h := fun v x => Worker.tasks v x) (c := s.workers) (y := n.self)
    worker
  simp only [State.custody, State.put, Node.custody, State.context, tasks, add_assoc]

theorem State.put_node (s : State) (w : ℕ) : s.put w (s.node w) = s := by
  simp [State.put, State.node]

theorem State.put_self (s : State) (w : ℕ) (n : Node) : (s.put w n).workers w = n.self :=
  Function.update_self ..

theorem State.put_other {v : ℕ} (n : Node) (other : v ≠ w) :
    (s.put w n).workers v = s.workers v :=
  Function.update_of_ne other ..

theorem ring_node (worker : w < cfg.numWorkers) :
    s.ring cfg = (s.node w).ring cfg (s.context cfg w) w := by
  rw [← ring_put worker, State.put_node]

theorem custody_node (worker : w < cfg.numWorkers) :
    s.custody cfg = (s.node w).custody cfg (s.context cfg w) w := by
  rw [← custody_put worker, State.put_node]

theorem tasks_le_custody (worker : w < cfg.numWorkers) :
    (s.workers w).tasks w ≤ (s.custody cfg).tasks := by
  simp only [State.custody, gather_split worker]
  exact (Multiset.le_add_right _ _).trans (Multiset.le_add_left _ _)

theorem tasksIn_le_custody {c : ℕ} (worker : w < cfg.numWorkers) (inside : c < cfg.maxSteal) :
    Message.tasksIn w c (s.net.chanTasks w c) ≤ (s.custody cfg).tasks := by
  simp only [State.custody, Network.tasks, gather_split worker, gather_split inside]
  exact ((Multiset.le_add_right _ _).trans (Multiset.le_add_right _ _)).trans
    (Multiset.le_add_right _ _)

end Views

/-! ## Channel operations -/

section Channels

variable {cfg : Config} {net : Network} {i : ℕ} {req : StealRequest} {reqs : List StealRequest}

@[simp] theorem located_nil (p : Place) : located p [] = 0 := rfl

@[simp] theorem located_cons (p : Place) :
    located p (req :: reqs) = (p, req.token) ::ₘ located p reqs := rfl

theorem located_concat (p : Place) :
    located p (reqs ++ [req]) = (p, req.token) ::ₘ located p reqs := by
  simp [located, ← Multiset.coe_add, Multiset.add_comm]

theorem tokens_pushRequest (target : i < cfg.numWorkers) :
    (net.pushRequest i req).tokens cfg = (.channel i, req.token) ::ₘ net.tokens cfg := by
  have after := gather_update (h := fun v reqs => located (.channel v) reqs)
    (c := net.chanRequests) (y := net.chanRequests i ++ [req]) target
  have before := gather_split (f := fun v => located (.channel v) (net.chanRequests v)) target
  simp only [Network.tokens, Network.pushRequest, after, before, located_concat,
    Multiset.cons_add]

theorem tokens_dropRequest (target : i < cfg.numWorkers)
    (held : net.chanRequests i = req :: reqs) :
    net.tokens cfg = (.channel i, req.token) ::ₘ (net.dropRequest i).tokens cfg := by
  have after := gather_update (h := fun v reqs => located (.channel v) reqs)
    (c := net.chanRequests) (y := (net.chanRequests i).tail) target
  have before := gather_split (f := fun v => located (.channel v) (net.chanRequests v)) target
  simp only [Network.tokens, Network.dropRequest, after, before]
  simp only [held, List.tail_cons, located_cons, Multiset.cons_add]

variable {owner chan : ℕ} {batch : List Task} {state : ReqState}

theorem answers_putTask (worker : owner < cfg.numWorkers) (inside : chan < cfg.maxSteal)
    (empty : net.chanTasks owner chan = none) :
    (net.putTask owner chan (some (.tasks batch state))).answers cfg =
      ⟨owner, chan, state⟩ ::ₘ net.answers cfg := by
  obtain ⟨rest, before, after⟩ :=
    gather_update₂ Message.answer net.chanTasks worker inside
  rw [empty] at before
  simp only [Network.answers, Network.putTask, before, after]
  simp [Message.answer]

theorem tasks_putTask (worker : owner < cfg.numWorkers) (inside : chan < cfg.maxSteal)
    (empty : net.chanTasks owner chan = none) :
    (net.putTask owner chan (some (.tasks batch state))).tasks cfg =
      place (.sent owner chan) (tagsOf batch) + net.tasks cfg := by
  obtain ⟨rest, before, after⟩ :=
    gather_update₂ Message.tasksIn net.chanTasks worker inside
  rw [empty] at before
  simp only [Network.tasks, Network.putTask, before, after]
  simp [Message.tasksIn]

theorem answers_takeTask (worker : owner < cfg.numWorkers) (inside : chan < cfg.maxSteal)
    (held : net.chanTasks owner chan = some (.tasks batch state)) :
    net.answers cfg = ⟨owner, chan, state⟩ ::ₘ (net.putTask owner chan none).answers cfg := by
  obtain ⟨rest, before, after⟩ :=
    gather_update₂ Message.answer net.chanTasks worker inside
  rw [held] at before
  simp only [Network.answers, Network.putTask, before, after]
  simp [Message.answer]

theorem tasks_takeTask (worker : owner < cfg.numWorkers) (inside : chan < cfg.maxSteal)
    (held : net.chanTasks owner chan = some (.tasks batch state)) :
    net.tasks cfg = place (.sent owner chan) (tagsOf batch) +
      (net.putTask owner chan none).tasks cfg := by
  obtain ⟨rest, before, after⟩ :=
    gather_update₂ Message.tasksIn net.chanTasks worker inside
  rw [held] at before
  simp only [Network.tasks, Network.putTask, before, after]
  simp [Message.tasksIn]

/-- An answer to a worker is a message in one of its channels. -/
theorem mem_answers {r : Token} : r ∈ net.answers cfg ↔
    ∃ batch, r.owner < cfg.numWorkers ∧ r.chan < cfg.maxSteal ∧
      net.chanTasks r.owner r.chan = some (.tasks batch r.state) := by
  simp only [Network.answers, mem_gather]
  constructor
  · rintro ⟨owner, worker, chan, inside, member⟩
    cases held : net.chanTasks owner chan with
    | none => simp [held, Message.answer] at member
    | some message =>
      cases message with
      | exit addr => simp [held, Message.answer] at member
      | tasks batch state =>
        simp only [held, Message.answer, Multiset.mem_singleton] at member
        subst member
        exact ⟨batch, worker, inside, held⟩
  · rintro ⟨batch, worker, inside, held⟩
    exact ⟨r.owner, worker, r.chan, inside, by simp [held, Message.answer]⟩

end Channels

end Tasking.Runtime
