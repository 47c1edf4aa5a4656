import Tasking.Circulation

/-!
The circulation of a steal request, hop by hop.

A circulation begins when its sender calls `next_victim` with no attempts made, and
goes on until the request is back with the sender, or answered.  The state of the
runtime does not remember where a request has been, so the system is run with a log
beside it: `recorded` takes exactly the steps of `system` and keeps, for each request
in a channel and for the one in a worker's hand, the hops of its present circulation,
the last one first.  A hop is a call of `next_victim`: who handled the request, what
it knew of its subtrees, whom it chose, and the request it sent.
-/
namespace Tasking.Runtime
open Fallible TokenProtocol WorkerTree Function Transition

/-- The workers a request may still be sent to. -/
def StealRequest.victimSet (req : StealRequest) : Set ℕ :=
  {i | potentialVictim req.victims i = true}

structure Hop where
  handler : ℕ
  /-- The handler's `left_subtree_is_idle` and `right_subtree_is_idle`. -/
  idle : Side → Bool
  target : ℕ
  /-- The request as it was sent. -/
  req : StealRequest

/-- The handler saw worker `i` in an idle subtree. -/
def Hop.SawIdle (h : Hop) (i : ℕ) : Prop :=
  ∃ side, h.idle side = true ∧ Subtree (child h.handler side) i

/-! ## The log -/

/-- What a step does to the request channels. -/
inductive Event where
  | nothing
  /-- A request is taken out of channel `i`. -/
  | took (i : ℕ)
  | sent (target : ℕ) (req : StealRequest)

def Event.Happens (net net' : Network) : Event → Prop
  | .nothing => net'.chanRequests = net.chanRequests
  | .took i => net.chanRequests i ≠ [] ∧ net'.chanRequests = (net.dropRequest i).chanRequests
  | .sent target req => net'.chanRequests = (net.pushRequest target req).chanRequests

structure Log where
  /-- One list of hops for each request in a channel. -/
  trails : ℕ → List (List Hop)
  /-- The hops of the request a worker took last. -/
  hand : ℕ → List Hop

/-- The hops of a request that is being sent.  A request without attempts starts to
circulate, and a failed one has ceased to. -/
def Log.trail (log : Log) (h : Hop) : List Hop :=
  if h.req.state = .failed then []
  else if h.req.tries = 0 then [h]
  else h :: log.hand h.handler

/-- What the log says after a step of worker `w`. -/
def Log.record (log : Log) (w : ℕ) (idle : Side → Bool) : Event → Log
  | .nothing => log
  | .took i =>
    { trails := update log.trails i (log.trails i).tail
      hand := update log.hand w ((log.trails i).headD []) }
  | .sent target req =>
    let trail := log.trail ⟨w, idle, target, req⟩
    { log with trails := update log.trails target (log.trails target ++ [trail]) }

structure Recorded where
  state : State
  log : Log

def recorded (cfg : Config) : System Recorded where
  init r := r.state = State.init cfg ∧ r.log = ⟨fun _ => [], fun _ => []⟩
  step r r' := ∃ w < cfg.numWorkers, ∃ c n event, wstep cfg w c (r.state.node w) = .ok n ∧
    event.Happens r.state.net n.net ∧
    r' = ⟨r.state.put w n, r.log.record w (r.state.workers w).flag event⟩

/-- Leaving out the log leaves a run of the runtime. -/
theorem state_reachable {cfg : Config} {r : Recorded} (reached : (recorded cfg).Reachable r) :
    (system cfg).Reachable r.state := by
  refine @System.Reachable.invariant _ (recorded cfg)
    (fun r => (system cfg).Reachable r.state) ?_ ?_ r reached
  · rintro r ⟨initial, -⟩
    exact System.reachable_of_init initial
  · rintro r r' - before ⟨w, worker, c, n, event, moved, -, rfl⟩
    exact before.tail ⟨w, worker, c, n, moved, rfl⟩

/-! ## A step shows one event -/

section Events

variable {net net' : Network} {event event' : Event} {i : ℕ} {req : StealRequest}

/-- How many requests an event takes out of a channel, and puts into it. -/
def Event.outgoing (i : ℕ) : Event → ℕ
  | .took j => if i = j then 1 else 0
  | _ => 0

def Event.incoming (i : ℕ) : Event → ℕ
  | .sent target _ => if i = target then 1 else 0
  | _ => 0

theorem Event.Happens.length (happens : event.Happens net net') (i : ℕ) :
    (net'.chanRequests i).length + event.outgoing i =
      (net.chanRequests i).length + event.incoming i := by
  cases event with
  | nothing => rw [show net'.chanRequests = net.chanRequests from happens]; rfl
  | took j =>
    obtain ⟨some, after⟩ := happens
    rw [after]
    by_cases same : i = j
    · subst same
      have := List.length_pos_of_ne_nil some
      simp only [Network.dropRequest, update_self, List.length_tail, outgoing, incoming,
        ↓reduceIte]
      omega
    · simp [Network.dropRequest, outgoing, incoming, same]
  | sent target req =>
    rw [show net'.chanRequests = _ from happens]
    by_cases same : i = target
    · subst same
      simp [Network.pushRequest, outgoing, incoming]
    · simp [Network.pushRequest, outgoing, incoming, same]

theorem Event.Happens.unique (happens : event.Happens net net')
    (happens' : event'.Happens net net') : event = event' := by
  have lengths (i : ℕ) : event.outgoing i + event'.incoming i =
      event'.outgoing i + event.incoming i := by
    have := happens.length i
    have := happens'.length i
    omega
  cases event with
  | nothing =>
    cases event' with
    | nothing => rfl
    | took j => simpa [outgoing, incoming] using lengths j
    | sent target req => simpa [outgoing, incoming] using lengths target
  | took i =>
    cases event' with
    | nothing => simpa [outgoing, incoming] using lengths i
    | took j =>
      have := lengths i
      by_cases same : i = j
      · rw [same]
      · simp [outgoing, incoming, same] at this
    | sent target req => simpa [outgoing, incoming] using lengths i
  | sent target req =>
    cases event' with
    | nothing => simpa [outgoing, incoming] using lengths target
    | took j =>
      have := lengths j
      simp only [outgoing, incoming, ↓reduceIte] at this
      omega
    | sent target' req' =>
      have := lengths target
      by_cases same : target = target'
      · subst same
        have ends := congrFun (happens.symm.trans happens') target
        simp only [Network.pushRequest, update_self] at ends
        rw [List.singleton_inj.mp (List.append_cancel_left ends)]
      · simp [outgoing, incoming, same] at this

end Events

/-! ## Circulations -/

/-- What is known of hop `h` after the hops `earlier`. -/
structure Hop.Sent (cfg : Config) (h : Hop) (earlier : List Hop) : Prop where
  sender : ∀ g ∈ earlier, g.req.ID = h.req.ID ∧ g.req.chan = h.req.chan
  first : h.handler = h.req.ID ↔ earlier = []
  onward : ∀ g ∈ earlier, g.target ≠ g.req.ID
  tries : h.req.tries = earlier.length
  attempts : h.req.tries ≤ cfg.maxStealAttempts
  unset : h.req.ID ∉ h.req.victimSet
  choice : h.target = h.req.ID ∨ h.target ∈ h.req.victimSet
  limit : h.req.tries = cfg.maxStealAttempts → h.target = h.req.ID
  away : h.handler = h.req.ID → h.req.ID ≠ 0 → 1 < cfg.numWorkers → h.target ≠ h.req.ID
  /-- The handlers so far are crossed out, -/
  handlers : ∀ g ∈ h :: earlier, g.handler ∉ h.req.victimSet
  /-- so are the workers they saw idle, -/
  seen : h.req.tries ≠ cfg.maxStealAttempts → ∀ g ∈ h :: earlier, ∀ i, g.SawIdle i →
    i ∉ h.req.victimSet
  /-- and those that were asked. -/
  asked : h.req.tries ≠ cfg.maxStealAttempts → ∀ g ∈ earlier, g.target ∉ h.req.victimSet
  subset : ∀ g ∈ earlier, h.req.victimSet ⊆ g.req.victimSet

/-- The hops of a circulation, the last one first. -/
def Circuit (cfg : Config) (trail : List Hop) : Prop :=
  ∀ h earlier, h :: earlier <:+ trail → h.Sent cfg earlier

section Circuits

variable {cfg : Config} {w v : ℕ} {x : Worker} {req req' : StealRequest} {h g : Hop}
  {earlier : List Hop}

theorem circuit_nil : Circuit cfg [] := by
  intro h earlier suffix
  cases List.suffix_nil.mp suffix

theorem Circuit.cons (circuit : Circuit cfg earlier) (sent : h.Sent cfg earlier) :
    Circuit cfg (h :: earlier) := by
  intro g rest suffix
  rcases List.suffix_cons_iff.mp suffix with same | suffix
  · cases same
    exact sent
  · exact circuit g rest suffix

theorem Circuit.head (circuit : Circuit cfg (h :: earlier)) : h.Sent cfg earlier :=
  circuit h earlier List.suffix_rfl

theorem mem_victimSet {i : ℕ} : i ∈ req.victimSet ↔ potentialVictim req.victims i = true := Iff.rfl

theorem not_mem_victimSet {i : ℕ} :
    i ∉ req.victimSet ↔ potentialVictim req.victims i = false := by
  rw [mem_victimSet, Bool.not_eq_true]

/-- Whoever is seen idle is crossed out, so that no later hop of the circulation leads there. -/
theorem Chosen.seen (chosen : Chosen cfg w x req v req') (call : Call cfg w req)
    (more : req.tries ≠ cfg.maxStealAttempts) {i : ℕ} (sees : x.SeesIdle w i) :
    i ∉ req'.victimSet := by
  intro known
  have inside := call.below i (chosen.subset i known)
  exact ((chosen.pruned more i inside).mp known).2.2 sees

/-- The sender starts a circulation. -/
theorem Chosen.starts (chosen : Chosen cfg w x req v req') (call : Call cfg w req)
    (own : req.ID = w) : Hop.Sent cfg ⟨w, x.flag, v, req'⟩ [] := by
  have unset := chosen.sender_unset call
  have seen := fun more i => @Chosen.seen cfg w v x req req' chosen call more i
  obtain ⟨victims, rfl⟩ := chosen.same
  refine ⟨by simp, ?_, by simp, ?_, call.tries, ?_, chosen.choice, chosen.limit, ?_, ?_, ?_,
    by simp, by simp⟩
  · simpa using own.symm
  · exact call.own_iff.mp own
  · exact not_mem_victimSet.mpr unset
  · intro _ other several
    exact own ▸ chosen.not_self call own (own ▸ other) several
  · simpa using not_mem_victimSet.mpr chosen.self
  · intro more g member i saw
    obtain rfl := List.mem_singleton.mp member
    exact seen more i saw

/-- Another worker passes the request on, having received it itself or on behalf of a
worker it sees idle. -/
theorem Chosen.continues (chosen : Chosen cfg w x req v req') (call : Call cfg w req)
    (other : req.ID ≠ w) (before : g.Sent cfg earlier) {state : ReqState}
    (same : req = { g.req with state := state, tries := g.req.tries + 1 })
    (received : g.target = w ∨ g.req.ID ≠ g.target ∧ x.SeesIdle w g.target) :
    Hop.Sent cfg ⟨w, x.flag, v, req'⟩ (g :: earlier) := by
  have unset := chosen.sender_unset call
  have seen := fun more i => @Chosen.seen cfg w v x req req' chosen call more i
  have smaller : req'.victimSet ⊆ g.req.victimSet := by
    intro i known
    have := chosen.subset i known
    rwa [same] at this
  have fewer : g.req.tries < cfg.maxStealAttempts := by
    have := call.tries
    rw [same] at this
    exact this
  obtain ⟨victims, rfl⟩ := chosen.same
  refine ⟨?_, ?_, ?_, ?_, call.tries, not_mem_victimSet.mpr unset, chosen.choice, chosen.limit, ?_,
    ?_, ?_, ?_, ?_⟩
  · intro f member
    rcases List.mem_cons.mp member with rfl | member
    · simp [same]
    · simpa [same] using before.sender f member
  · simpa using fun own => other own.symm
  · intro f member
    rcases List.mem_cons.mp member with rfl | member
    · rcases received with here | ⟨foreign, -⟩
      · rw [here]
        exact fun own => other (by rw [same]; exact own.symm)
      · exact foreign.symm
    · exact before.onward f member
  · simp [same, before.tries]
  · exact fun own => absurd own.symm other
  · intro f member
    rcases List.mem_cons.mp member with rfl | member
    · exact not_mem_victimSet.mpr chosen.self
    · exact fun known => before.handlers f member (smaller known)
  · intro more f member i saw
    rcases List.mem_cons.mp member with rfl | member
    · exact seen more i saw
    · exact fun known => before.seen fewer.ne f member i saw (smaller known)
  · intro more f member
    rcases List.mem_cons.mp member with rfl | member
    · rcases received with here | ⟨-, sees⟩
      · rw [here]
        exact not_mem_victimSet.mpr chosen.self
      · exact seen more f.target sees
    · exact fun known => before.asked fewer.ne f member (smaller known)
  · intro f member
    rcases List.mem_cons.mp member with rfl | member
    · exact smaller
    · exact smaller.trans (before.subset f member)

end Circuits

/-! ## Runs -/

/-- The trail of a request in channel `i` ends there. -/
def OnWay (i : ℕ) (req : StealRequest) (trail : List Hop) : Prop :=
  req.state ≠ .failed → ∃ h earlier, trail = h :: earlier ∧ h.req = req ∧ h.target = i

/-- The trail of a request in a worker's hand ends with that worker, or with one the
worker sees idle. -/
def InHandOf (w : ℕ) (x : Worker) (req : StealRequest) (trail : List Hop) : Prop :=
  ∃ h earlier, trail = h :: earlier ∧ (∃ state, req = { h.req with state := state }) ∧
    (h.target = w ∨ h.req.ID ≠ h.target ∧ x.SeesIdle w h.target)

/-- The log describes the requests of the state. -/
structure Logged (cfg : Config) (r : Recorded) : Prop where
  channels : ∀ i, List.Forall₂ (OnWay i) (r.state.net.chanRequests i) (r.log.trails i)
  hands : ∀ w < cfg.numWorkers, ∀ req, (r.state.workers w).pc.hand = some req →
    InHandOf w (r.state.workers w) req (r.log.hand w)
  trails : ∀ i, ∀ trail ∈ r.log.trails i, Circuit cfg trail
  held : ∀ w, Circuit cfg (r.log.hand w)

section Runs

variable {cfg : Config} {w : ℕ} {n : Node} {r : Recorded} {net net' : Network}

theorem Motion.event {n n' : Node} (motion : Motion cfg w n n') :
    ∃ event : Event, event.Happens n.net n'.net := by
  cases motion with
  | took first after hand => exact ⟨.took _, by simp [first], after⟩
  | disposed disposed hand =>
    cases disposed with
    | gone after => exact ⟨.nothing, after⟩
    | passed call chosen live source after => exact ⟨.sent _ _, after⟩
    | gaveUp failed unset after => exact ⟨.sent _ _, after⟩

/-- Every run of the runtime can be logged. -/
theorem reachable_recorded (few : cfg.numWorkers ≤ 32) {s : State}
    (reached : (system cfg).Reachable s) : ∃ log, (recorded cfg).Reachable ⟨s, log⟩ := by
  refine @System.Reachable.invariant _ (system cfg)
    (fun s => ∃ log, (recorded cfg).Reachable ⟨s, log⟩) ?_ ?_ s reached
  · rintro s rfl
    exact ⟨_, System.reachable_of_init ⟨rfl, rfl⟩⟩
  · rintro s s' reached ⟨log, recordedRun⟩ ⟨w, worker, c, n, moved, rfl⟩
    obtain ⟨-, motion⟩ := (reachable_fit few reached).step few reached worker moved
    obtain ⟨event, happens⟩ := motion.event
    exact ⟨_, recordedRun.tail ⟨w, worker, c, n, event, moved, happens, rfl⟩⟩

theorem Logged.init (initial : (recorded cfg).init r) : Logged cfg r := by
  obtain ⟨state, log⟩ := r
  obtain ⟨rfl, rfl⟩ : state = State.init cfg ∧ log = ⟨fun _ => [], fun _ => []⟩ := initial
  refine ⟨fun i => .nil, fun w _ req held => ?_, fun i trail member => ?_, fun w => circuit_nil⟩
  · by_cases master : w = 0 <;> simp [State.init, Worker.init, master, Pc.hand] at held
  · cases member

/-- The hands of the other workers, if worker `w` moves and `log` still has their trails. -/
theorem Logged.hands_put (logged : Logged cfg r) {hand : ℕ → List Hop}
    (others : ∀ u, u ≠ w → hand u = r.log.hand u)
    (self : ∀ req, n.self.pc.hand = some req → InHandOf w n.self req (hand w)) :
    ∀ u < cfg.numWorkers, ∀ req, ((r.state.put w n).workers u).pc.hand = some req →
      InHandOf u ((r.state.put w n).workers u) req (hand u) := by
  intro u inside req held
  by_cases same : u = w
  · subst same
    simp only [State.put, update_self] at held ⊢
    exact self req held
  · simp only [State.put, update_of_ne same] at held ⊢
    rw [others u same]
    exact logged.hands u inside req held

theorem Logged.sends (logged : Logged cfg r) {v : ℕ} {req : StealRequest}
    (after : n.net.chanRequests = (r.state.net.pushRequest v req).chanRequests)
    (hand : n.self.pc.hand = none)
    (circuit : req.state ≠ .failed →
      Circuit cfg (r.log.trail ⟨w, (r.state.workers w).flag, v, req⟩)) :
    Logged cfg ⟨r.state.put w n, r.log.record w (r.state.workers w).flag (.sent v req)⟩ := by
  have onWay : OnWay v req (r.log.trail ⟨w, (r.state.workers w).flag, v, req⟩) := by
    intro live
    simp only [Log.trail, if_neg live]
    split
    · exact ⟨_, _, rfl, rfl, rfl⟩
    · exact ⟨_, _, rfl, rfl, rfl⟩
  have path : Circuit cfg (r.log.trail ⟨w, (r.state.workers w).flag, v, req⟩) := by
    by_cases failed : req.state = .failed
    · simp only [Log.trail, if_pos failed]
      exact circuit_nil
    · exact circuit failed
  refine ⟨fun i => ?_, ?_, fun i trail member => ?_, logged.held⟩
  · rw [show (r.state.put w n).net.chanRequests = _ from after]
    by_cases same : i = v
    · subst same
      simp only [Network.pushRequest, Log.record, update_self]
      exact List.rel_append (logged.channels i) (.cons onWay .nil)
    · simp only [Network.pushRequest, Log.record, update_of_ne same]
      exact logged.channels i
  · refine logged.hands_put (fun _ _ => rfl) fun req held => ?_
    rw [hand] at held
    cases held
  · simp only [Log.record] at member
    by_cases same : i = v
    · subst same
      rw [update_self, List.mem_append, List.mem_singleton] at member
      rcases member with member | rfl
      · exact logged.trails i trail member
      · exact path
    · rw [update_of_ne same] at member
      exact logged.trails i trail member

theorem Logged.takes (logged : Logged cfg r) {i : ℕ} {req : StealRequest} {rest : List StealRequest}
    (first : r.state.net.chanRequests i = req :: rest)
    (after : n.net.chanRequests = (r.state.net.dropRequest i).chanRequests)
    (hand : ∀ taken, n.self.pc.hand = some taken → Taken w i n.self req taken) :
    Logged cfg ⟨r.state.put w n, r.log.record w (r.state.workers w).flag (.took i)⟩ := by
  have channel := logged.channels i
  rw [first] at channel
  obtain ⟨trail, trails, onWay, others, split⟩ := List.forall₂_cons_left_iff.mp channel
  refine ⟨fun j => ?_, ?_, fun j path member => ?_, fun u => ?_⟩
  · rw [show (r.state.put w n).net.chanRequests = _ from after]
    by_cases same : j = i
    · subst same
      simp only [Network.dropRequest, Log.record, update_self, first, split,
        List.tail_cons]
      exact others
    · simp only [Network.dropRequest, Log.record, update_of_ne same]
      exact logged.channels j
  · refine logged.hands_put (fun u other => update_of_ne other _ _) fun taken held => ?_
    obtain ⟨live, ⟨state, same⟩, behalf⟩ := hand taken held
    obtain ⟨h, earlier, shape, rfl, target⟩ := onWay live
    simp only [Log.record, update_self, split, List.headD_cons]
    refine ⟨h, earlier, shape, ⟨state, same⟩, ?_⟩
    rw [target]
    exact behalf
  · simp only [Log.record] at member
    by_cases same : j = i
    · subst same
      rw [update_self] at member
      exact logged.trails j path (List.mem_of_mem_tail member)
    · rw [update_of_ne same] at member
      exact logged.trails j path member
  · simp only [Log.record]
    by_cases same : u = w
    · subst same
      rw [update_self, split, List.headD_cons]
      exact logged.trails i trail (split ▸ List.mem_cons_self)
    · rw [update_of_ne same]
      exact logged.held u

/-- A request in a worker's hand is passed on, or a new one sent. -/
theorem Logged.passes (logged : Logged cfg r) (worker : w < cfg.numWorkers) {v : ℕ}
    {req req' : StealRequest} (call : Call cfg w req)
    (chosen : Chosen cfg w (r.state.workers w) req v req') (live : req.state ≠ .failed)
    (source : req.ID = w ∨ ∃ held, (r.state.workers w).pc.hand = some held ∧
      req = { held with tries := held.tries + 1 }) :
    Circuit cfg (r.log.trail ⟨w, (r.state.workers w).flag, v, req'⟩) := by
  obtain ⟨victims, same⟩ := chosen.same
  have live' : ¬ req'.state = .failed := by rwa [same]
  have tries : req'.tries = req.tries := by rw [same]
  simp only [Log.trail, if_neg live', tries]
  by_cases own : req.ID = w
  · rw [if_pos (call.own_iff.mp own)]
    exact circuit_nil.cons (chosen.starts call own)
  · rw [if_neg (fun zero => own (call.own_iff.mpr zero))]
    obtain ⟨held, hand, passed⟩ := source.resolve_left own
    obtain ⟨g, earlier, trail, ⟨state, rfl⟩, received⟩ := logged.hands w worker held hand
    have circuit := logged.held w
    rw [trail] at circuit ⊢
    exact circuit.cons (chosen.continues call own circuit.head passed received)

theorem Logged.step (logged : Logged cfg r) (worker : w < cfg.numWorkers)
    (motion : Motion cfg w (r.state.node w) n) {event : Event}
    (happens : event.Happens r.state.net n.net) :
    Logged cfg ⟨r.state.put w n, r.log.record w (r.state.workers w).flag event⟩ := by
  cases motion with
  | @took i req rest first after hand =>
    have shown : (Event.took i).Happens r.state.net n.net :=
      ⟨by simp [show r.state.net.chanRequests i = _ from first], after⟩
    rw [happens.unique shown]
    exact logged.takes first after hand
  | disposed disposed hand =>
    cases disposed with
    | gone after =>
      rw [happens.unique (show Event.nothing.Happens r.state.net n.net from after)]
      refine ⟨fun i => ?_, ?_, logged.trails, logged.held⟩
      · rw [show (r.state.put w n).net.chanRequests = _ from after]
        exact logged.channels i
      · refine logged.hands_put (fun _ _ => rfl) fun req held => ?_
        rw [hand] at held
        cases held
    | @passed v req req' call chosen live source after =>
      rw [happens.unique (show (Event.sent v req').Happens r.state.net n.net from after)]
      exact logged.sends after hand fun _ => logged.passes worker call chosen live source
    | @gaveUp p req failed unset after =>
      rw [happens.unique (show (Event.sent p req).Happens r.state.net n.net from after)]
      exact logged.sends after hand fun live => absurd failed live

theorem reachable_logged (few : cfg.numWorkers ≤ 32) (reached : (recorded cfg).Reachable r) :
    Logged cfg r := by
  refine @System.Reachable.invariant _ (recorded cfg) (Logged cfg) ?_ ?_ r reached
  · exact fun r initial => .init initial
  · rintro r r' reached logged ⟨w, worker, c, n, event, moved, happens, rfl⟩
    have before := state_reachable reached
    obtain ⟨-, motion⟩ := (reachable_fit few before).step few before worker moved
    exact logged.step worker motion happens

end Runs

/-! ## Once around -/

/-- Hop `h` of a circulation, after the hops `earlier`. -/
structure Hop.Circulates (cfg : Config) (h : Hop) (earlier : List Hop) : Prop where
  sender : ∀ g ∈ earlier, g.req.ID = h.req.ID ∧ g.req.chan = h.req.chan
  /-- The sender is the first handler, and no other. -/
  first : h.handler = h.req.ID ↔ earlier = []
  unset : h.req.ID ∉ h.req.victimSet
  choice : h.target = h.req.ID ∨ h.target ∈ h.req.victimSet
  fresh : h.target ≠ h.req.ID → ∀ g ∈ h :: earlier, h.target ≠ g.handler ∧ ¬ g.SawIdle h.target
  once : h.target ≠ h.req.ID → ∀ g ∈ earlier, h.target ≠ g.target
  shrinks : h.target ≠ h.req.ID → ∀ g rest, earlier = g :: rest →
    h.req.victimSet ⊆ g.req.victimSet ∧ ∃ i ∈ g.req.victimSet, i ∉ h.req.victimSet
  tries : h.req.tries = earlier.length
  attempts : earlier.length ≤ cfg.numWorkers - 1
  home : earlier.length = cfg.numWorkers - 1 → h.target = h.req.ID
  ends : ∀ g ∈ earlier, g.target ≠ g.req.ID
  away : h.handler = h.req.ID → h.req.ID ≠ 0 → 1 < cfg.numWorkers → h.target ≠ h.req.ID

section Once

variable {cfg : Config} {h : Hop} {earlier : List Hop}

theorem Hop.Sent.circulates (sent : h.Sent cfg earlier) (circuit : Circuit cfg earlier) :
    h.Circulates cfg earlier := by
  have member (other : h.target ≠ h.req.ID) : h.target ∈ h.req.victimSet :=
    sent.choice.resolve_left other
  have more (other : h.target ≠ h.req.ID) : h.req.tries ≠ cfg.maxStealAttempts :=
    fun last => other (sent.limit last)
  refine ⟨sent.sender, sent.first, sent.unset, sent.choice, ?_, ?_, ?_, sent.tries,
    sent.tries ▸ sent.attempts, ?_, sent.onward, sent.away⟩
  · intro other g inside
    refine ⟨fun same => sent.handlers g inside (same ▸ member other), fun saw => ?_⟩
    exact sent.seen (more other) g inside h.target saw (member other)
  · intro other g inside same
    exact sent.asked (more other) g inside (same ▸ member other)
  · rintro other g rest rfl
    -- the worker that was asked last is crossed out
    have asked : g.target ∈ g.req.victimSet :=
      circuit.head.choice.resolve_left (sent.onward g List.mem_cons_self)
    exact ⟨sent.subset g List.mem_cons_self, g.target, asked,
      sent.asked (more other) g List.mem_cons_self⟩
  · exact fun last => sent.limit (sent.tries.trans last)

theorem Circuit.circulates {trail : List Hop} (circuit : Circuit cfg trail)
    (part : h :: earlier <:+ trail) : h.Circulates cfg earlier := by
  refine (circuit h earlier part).circulates fun g rest inside => ?_
  exact circuit g rest ((inside.trans (List.suffix_cons h earlier)).trans part)

/-- The assertions of `next_victim`, `random_victim` and `decline_steal_request`. -/
def circulationFaults : List Fault :=
  [.randomVictimCount, .randomVictimBits, .randomVictimResult, .nextVictimTry, .nextVictimSelf,
    .nextVictimEmpty, .nextVictimReturn, .nextVictimRange, .nextVictimAttempts, .declineTry,
    .declineDropped, .declineWaiting, .declineDropWaiting, .declineWorking]

theorem no_circulationFault (few : cfg.numWorkers ≤ 32) {s : State}
    (reached : (system cfg).Reachable s) {which : Fault} (member : which ∈ circulationFaults) :
    ¬ Faults cfg s which := by
  intro fault
  have split : ∀ which ∈ circulationFaults, ¬ Unrelated which ∨ ¬ Late which := by decide
  rcases split which member with related | early
  · obtain ⟨w, worker, c, ran⟩ := fault
    exact related (((reachable_fit few reached).ensures few reached worker c).tolerates ran)
  · rcases reachable_cases reached with ok | closed
    · exact early (.inl (ok.faults fault))
    · exact early (closed.faults fault)

/-- With at most 32 workers every run can be logged, and in the log a request is never
sent to a worker twice in one circulation and is back with its sender after as many
attempts as there are other workers.  No request under way has its sender among its
victims, and the assertions about its path hold. -/
theorem circulation_visits_once (few : cfg.numWorkers ≤ 32) :
    (∀ s, (system cfg).Reachable s → ∃ log, (recorded cfg).Reachable ⟨s, log⟩) ∧
    ∀ r, (recorded cfg).Reachable r →
      (system cfg).Reachable r.state ∧
      (∀ i, ∀ req ∈ r.state.net.chanRequests i, req.ID ∉ req.victimSet) ∧
      (∀ w < cfg.numWorkers, ∀ req, (r.state.workers w).pc.hand = some req ∨
        req ∈ (r.state.workers w).workSharingRequests → req.ID ∉ req.victimSet) ∧
      (∀ i, List.Forall₂ (OnWay i) (r.state.net.chanRequests i) (r.log.trails i)) ∧
      (∀ w < cfg.numWorkers, ∀ req, (r.state.workers w).pc.hand = some req →
        InHandOf w (r.state.workers w) req (r.log.hand w)) ∧
      (∀ trail, (∃ i, trail ∈ r.log.trails i) ∨ (∃ w, trail = r.log.hand w) →
        ∀ h earlier, h :: earlier <:+ trail → h.Circulates cfg earlier) ∧
      ∀ which ∈ circulationFaults, ¬ Faults cfg r.state which := by
  refine ⟨fun s reached => reachable_recorded few reached, fun r reached => ?_⟩
  have state := state_reachable reached
  have fit := reachable_fit few state
  have logged := reachable_logged few reached
  refine ⟨state, fun i req member => ?_, fun w worker req place => ?_, logged.channels,
    logged.hands, fun trail place h earlier part => ?_, fun which member =>
      no_circulationFault few state member⟩
  · exact not_mem_victimSet.mpr (fit.channels i req member).unset
  · rcases place with hand | queue
    · exact not_mem_victimSet.mpr ((fit.workers w worker).hand req hand).unset
    · exact not_mem_victimSet.mpr ((fit.workers w worker).holds.queue req queue).2
  · rcases place with ⟨i, member⟩ | ⟨w, rfl⟩
    · exact (logged.trails i trail member).circulates part
    · exact (logged.held w).circulates part

/-- The request of worker 1 goes to the master, on to worker 2, and home. -/
def circuitSchedule : List (ℕ × Choice) := runsOn 1 5 ++ runsOn 0 5 ++ runsOn 2 4

theorem circulation_of_three_workers : ∃ log h earlier,
    (recorded (.makefile 3 three_pos)).Reachable
      ⟨after (.makefile 3 three_pos) circuitSchedule, log⟩ ∧
    log.trails 1 = [h :: earlier] ∧ h.target = 1 ∧ earlier.length = 2 ∧
    h.Circulates (.makefile 3 three_pos) earlier := by
  obtain ⟨logs, every⟩ := @circulation_visits_once (.makefile 3 three_pos) (by decide)
  obtain ⟨log, reached⟩ := logs _ (after_reachable _ circuitSchedule)
  obtain ⟨-, -, -, channels, -, circulates, -⟩ := every _ reached
  have here : (after (.makefile 3 three_pos) circuitSchedule).net.chanRequests 1 =
      [⟨0, 1, 2, 0#32, .idle, false⟩] := by decide +kernel
  have channel := channels 1
  dsimp only at channel
  rw [here] at channel
  obtain ⟨trail, trails, onWay, rest, shape⟩ := List.forall₂_cons_left_iff.mp channel
  obtain rfl := List.forall₂_nil_left_iff.mp rest
  obtain ⟨h, earlier, rfl, request, target⟩ := onWay (by decide)
  have circulate := circulates (h :: earlier) (.inl ⟨1, shape ▸ List.mem_cons_self⟩) h earlier
    List.suffix_rfl
  refine ⟨log, h, earlier, reached, shape, target, ?_, circulate⟩
  rw [← circulate.tries, request]

end Once

end Tasking.Runtime
