import Tasking.Shutdown

/-! Every steal request is accounted for: how many a worker has under way, where
its channels are, and that no container of requests overflows. -/
namespace Tasking.Runtime
open Fallible Family TokenProtocol

variable {cfg : Config} {s : State} {w : ℕ}

/-! ## The requests of a state -/

/-- All steal requests: in the request channels, in the queues of workers that hold
on to them, and in the hands of workers that have received one. -/
def State.requests (cfg : Config) (s : State) : Multiset StealRequest :=
  (gather cfg.numWorkers fun i => ↑(s.net.chanRequests i)) +
    gather cfg.numWorkers fun v =>
      ↑(s.workers v).workSharingRequests + ↑(s.workers v).pc.hand.toList

def State.requestsOf (cfg : Config) (s : State) (w : ℕ) : Multiset StealRequest :=
  (s.requests cfg).filter fun req => req.ID = w

/-- The task channels of a worker that hold a message. -/
def State.messagesFor (cfg : Config) (s : State) (w : ℕ) : Multiset ℕ :=
  (Multiset.range cfg.maxSteal).filter fun chan => (s.net.chanTasks w chan).isSome

theorem located_snd (p : Place) (reqs : List StealRequest) :
    (located p reqs).map Prod.snd = (reqs : Multiset StealRequest).map StealRequest.token := by
  simp [located, Function.comp_def]

theorem ring_tokens_snd (cfg : Config) (s : State) :
    (s.ring cfg).tokens.map Prod.snd = (s.requests cfg).map StealRequest.token := by
  simp only [State.ring, State.requests, Network.tokens, Multiset.map_add, map_gather,
    Worker.tokens, located_snd]

/-- The requests of a worker, as the token protocol sees them. -/
theorem requestsOf_tokens (cfg : Config) (s : State) (w : ℕ) :
    ((s.ring cfg).tokens.map Prod.snd).filter (fun r => r.owner = w) =
      (s.requestsOf cfg w).map StealRequest.token := by
  rw [ring_tokens_snd, Multiset.filter_map]
  rfl

/-- The answers to a worker are the messages in its channels. -/
theorem messagesFor_answers (ok : NetOk cfg s.net) (worker : w < cfg.numWorkers) :
    ((s.ring cfg).answers.filter fun r => r.owner = w).map Token.chan = s.messagesFor cfg w := by
  have row : (s.ring cfg).answers.filter (fun r => r.owner = w) =
      gather cfg.maxSteal fun c => Message.answer w c (s.net.chanTasks w c) := by
    have own (c : ℕ) (slot : Option Message) :
        (Message.answer w c slot).filter (fun r => r.owner = w) = Message.answer w c slot := by
      refine Multiset.filter_eq_self.mpr fun r member => ?_
      match slot, member with
      | some (.tasks _ _), member => rw [Multiset.mem_singleton.mp member]
    have foreign (v c : ℕ) (other : v ≠ w) (slot : Option Message) :
        (Message.answer v c slot).filter (fun r => r.owner = w) = 0 := by
      refine Multiset.filter_eq_nil.mpr fun r member => ?_
      match slot, member with
      | some (.tasks _ _), member => rwa [Multiset.mem_singleton.mp member]
    simp only [State.ring, Network.answers, filter_gather]
    rw [gather_single worker]
    · simp only [own]
    · exact fun v other => gather_eq_zero.mpr fun c _ => foreign v c other _
  have cell (c : ℕ) : (Message.answer w c (s.net.chanTasks w c)).map Token.chan =
      if (s.net.chanTasks w c).isSome then {c} else 0 := by
    cases slot : s.net.chanTasks w c with
    | none => rfl
    | some message =>
      obtain ⟨-, -, batch, state, -, rfl⟩ := ok.slots w c message slot
      rfl
  rw [row, map_gather, State.messagesFor, ← gather_numbers]
  simp only [cell]

/-! ## The account of a worker -/

/-- What a worker's counters and its stack of channels say about its requests. -/
structure RequestAccount (cfg : Config) (s : State) (w : ℕ) : Prop where
  balance : (s.workers w).requested + (s.workers w).channelStack.length =
    cfg.maxSteal + (s.workers w).droppedStealRequests
  dropped_nonneg : 0 ≤ (s.workers w).droppedStealRequests
  dropped_le : (s.workers w).droppedStealRequests ≤ (s.workers w).requested
  requested_le : (s.workers w).requested ≤ cfg.maxSteal
  /-- Tokens that are still alive: requests, and answers not yet received. -/
  live : (s.workers w).requested - (s.workers w).droppedStealRequests =
    (s.requestsOf cfg w).card + (s.messagesFor cfg w).card
  /-- A channel is on the stack, carried by a request, or holds a message: one of the
  three, and once. -/
  places : ∀ chan < cfg.maxSteal, (s.workers w).channelStack.count chan +
    ((s.requestsOf cfg w).map StealRequest.chan).count chan +
    (if (s.net.chanTasks w chan).isSome then 1 else 0) = 1
  /-- There are no other channels. -/
  known : (∀ chan ∈ (s.workers w).channelStack, chan < cfg.maxSteal) ∧
    ∀ req ∈ s.requestsOf cfg w, req.chan < cfg.maxSteal

/-- The channels of a worker, wherever they are. -/
theorem Refines.channels (ok : Refines cfg s) (worker : w < cfg.numWorkers) :
    ((s.workers w).channelStack : Multiset ℕ) + (s.requestsOf cfg w).map StealRequest.chan +
      s.messagesFor cfg w = Multiset.range cfg.maxSteal := by
  have inv := TokenProtocol.reachable_inv cfg.someSteal ok.ring
  have channels := (inv.account w worker).channels
  rw [State.of_eq, bag, Multiset.filter_add, Multiset.map_add, requestsOf_tokens,
    messagesFor_answers ok.net worker, Multiset.map_map] at channels
  rw [add_assoc]
  exact channels

theorem Refines.account (ok : Refines cfg s) (worker : w < cfg.numWorkers) :
    RequestAccount cfg s w := by
  have inv := TokenProtocol.reachable_inv cfg.someSteal ok.ring
  have acc := inv.account w worker
  have channels := ok.channels worker
  have counters := acc.counters
  have nonneg := acc.dropped_nonneg
  have card := congrArg Multiset.card channels
  simp only [Multiset.card_add, Multiset.coe_card, Multiset.card_map, Multiset.card_range] at card
  simp only [State.ring, Worker.agent, Multiset.coe_card] at counters nonneg
  refine ⟨counters, nonneg, ?_, acc.requested_le, ?_, fun chan inside => ?_, ?_, ?_⟩
  · omega
  · omega
  · have count := congrArg (Multiset.count chan) channels
    rw [Multiset.count_add, Multiset.count_add, Multiset.coe_count,
      Multiset.count_eq_one_of_mem (Multiset.nodup_range _) (Multiset.mem_range.mpr inside),
      State.messagesFor, Multiset.count_filter,
      Multiset.count_eq_one_of_mem (Multiset.nodup_range _) (Multiset.mem_range.mpr inside)]
        at count
    exact count
  · intro chan member
    refine Multiset.mem_range.mp (channels ▸ ?_)
    exact Multiset.mem_add.mpr (.inl (Multiset.mem_add.mpr (.inl (Multiset.mem_coe.mpr member))))
  · intro req member
    refine Multiset.mem_range.mp (channels ▸ ?_)
    exact Multiset.mem_add.mpr (.inl (Multiset.mem_add.mpr
      (.inr (Multiset.mem_map_of_mem StealRequest.chan member))))

/-- The assertions about `requested`, `dropped_steal_requests` and the stack of
channels. -/
def accountFaults : List Fault :=
  [.boundedStackPush, .boundedStackPop, .recvTaskRequestedMax, .recvTaskStackMax,
    .recvTaskAboveDropped, .recvTaskRequestedRange, .recvTaskDroppedZero, .forgetReqOwn,
    .forgetReqRequested, .declineDropped, .idleRequested]

/-- Every worker's account is in order, and the assertions about it hold.  The requests of a
worker are its tokens, whose number the token protocol keeps. -/
theorem steal_requests_accounted (reached : (system cfg).Reachable s)
    (running : s.net.exiting = false) :
    (∀ w < cfg.numWorkers, RequestAccount cfg s w) ∧
      ∀ which ∈ accountFaults, ¬ Faults cfg s which := by
  have ok := reachable_refines reached running
  constructor
  · exact fun w worker => ok.account worker
  · intro which member fault
    have excluded : ∀ which ∈ accountFaults, ¬ Elsewhere which := by decide
    exact excluded which member (ok.faults fault)

/-- Worker 1 has run out of tasks and sent its request. -/
theorem request_of_worker_accounted :
    ((after (.makefile 2 two_pos) (runsOn 1 6)).workers 1).requested = 1 ∧
      RequestAccount (.makefile 2 two_pos) (after (.makefile 2 two_pos) (runsOn 1 6)) 1 :=
  ⟨by decide +kernel,
    (steal_requests_accounted (after_reachable _ _) (by decide +kernel)).1 1 one_lt_two⟩

/-! ## Bounds -/

/-- The worker is about to execute `SEND_REQ`, if it finds that it has to. -/
def Worker.AboutToSend (cfg : Config) (x : Worker) : Prop :=
  x.pc.hand.isSome ∨ (∃ k, x.pc = .trySend k) ∧ x.requested < cfg.maxSteal

theorem length_le_tokens (cfg : Config) (s : State) {v : ℕ} (target : v < cfg.numWorkers) :
    (s.net.chanRequests v).length ≤ (s.ring cfg).tokens.card := by
  have split := gather_split (f := fun i => located (.channel i) (s.net.chanRequests i)) target
  have card := congrArg Multiset.card split
  have here : (located (.channel v) (s.net.chanRequests v)).card =
      (s.net.chanRequests v).length := by
    simp [located]
  simp only [Multiset.card_add] at card
  simp only [State.ring, Network.tokens, Multiset.card_add]
  omega

theorem Refines.room (ok : Refines cfg s) (worker : w < cfg.numWorkers)
    (sends : (s.workers w).AboutToSend cfg) : s.net.Room cfg := by
  have pre := ok.pre worker
  rcases sends with hand | ⟨⟨k, here⟩, fewer⟩
  · obtain ⟨req, hand⟩ := Option.isSome_iff_exists.mp hand
    exact pre.room_of_hand hand
  · have hand : (s.workers w).pc.hand = none := by rw [here]; rfl
    refine pre.room_of_free hand fun empty => ?_
    -- An empty stack means that all requests are under way.
    have balance := (ok.account worker).balance
    have nonneg := (ok.account worker).dropped_nonneg
    rw [show (s.workers w).channelStack = [] from empty] at balance
    simp only [List.length_nil] at balance
    omega

theorem Closed.room (closed : Closed cfg s) (worker : w < cfg.numWorkers)
    (sends : (s.workers w).AboutToSend cfg) : s.net.Room cfg := by
  rcases sends with hand | ⟨⟨k, here⟩, fewer⟩
  · obtain ⟨req, hand⟩ := Option.isSome_iff_exists.mp hand
    have bound := closed.closing.card
    rw [ring_node worker] at bound
    exact room_of_hand bound hand
  · cases (closed.leaves w worker).way with
    | out out => rcases out with out | out | out <;> simp [here] at out
    | told _ _ told => simp [here] at told
    | waits _ _ _ _ requested => omega

/-- No request channel and no queue of requests overflows, also after `RT_EXIT`: a worker never
has more than `MAXSTEAL` requests, wherever they are. -/
theorem request_containers_never_overflow (reached : (system cfg).Reachable s) :
    (∀ w < cfg.numWorkers,
      (s.net.chanRequests w).length ≤ cfg.maxSteal * cfg.numWorkers ∧
      (s.workers w).workSharingRequests.length ≤ 2 ∧
      ((s.workers w).AboutToSend cfg → ∀ v < cfg.numWorkers,
        (s.net.chanRequests v).length < cfg.maxSteal * cfg.numWorkers)) ∧
    ¬ Faults cfg s .sendReqCapacity ∧ ¬ Faults cfg s .boundedQueueEnqueue := by
  rcases reachable_cases reached with ok | closed
  · have inv := TokenProtocol.reachable_inv cfg.someSteal ok.ring
    refine ⟨fun w worker => ⟨?_, ok.queue_length worker, ok.room worker⟩, fun fault => ?_,
      fun fault => ?_⟩
    · rw [Nat.mul_comm]
      exact (length_le_tokens cfg s worker).trans inv.card_tokens_le
    · exact absurd (ok.faults fault) (by decide)
    · exact absurd (ok.faults fault) (by decide)
  · refine ⟨fun w worker => ⟨?_, (closed.leaves w worker).queue, closed.room worker⟩,
      fun fault => ?_, fun fault => ?_⟩
    · rw [Nat.mul_comm]
      exact (length_le_tokens cfg s worker).trans closed.closing.card
    · exact absurd (closed.faults fault) (by decide)
    · exact absurd (closed.faults fault) (by decide)

/-- The master has received the request of worker 1 and is about to pass it on. -/
theorem master_about_to_send :
    ((after (.makefile 2 two_pos) (runsOn 1 6 ++ runsOn 0 4)).workers 0).pc.hand.isSome ∧
      ∀ v < 2, ((after (.makefile 2 two_pos) (runsOn 1 6 ++ runsOn 0 4)).net.chanRequests
        v).length < 1 * 2 := by
  have hand : ((after (.makefile 2 two_pos) (runsOn 1 6 ++ runsOn 0 4)).workers 0).pc.hand.isSome :=
    by decide +kernel
  exact ⟨hand, ((request_containers_never_overflow (after_reachable _ _)).1 0 two_pos).2.2
    (.inl hand)⟩

end Tasking.Runtime
