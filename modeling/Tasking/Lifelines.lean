import Tasking.RequestAccounting

/-! Lifelines: what a parent knows of its children is right, and at any time at most
one worker may receive from a request channel. -/
namespace Tasking.Runtime
open Fallible Family TokenProtocol WorkerTree

variable {cfg : Config} {s : State} {w : ℕ} {req : StealRequest} {side : Side} {i : ℕ} {r : Token}
  {p : ℕ}

/-! ## Requests and tokens -/

theorem mem_located {p q : Place} {reqs : List StealRequest} :
    (q, r) ∈ located p reqs ↔ q = p ∧ ∃ req ∈ reqs, req.token = r := by
  simp only [located, Multiset.mem_coe, List.mem_map, Prod.mk.injEq]
  constructor
  · rintro ⟨req, member, rfl, token⟩
    exact ⟨rfl, req, member, token⟩
  · rintro ⟨rfl, req, member, token⟩
    exact ⟨req, member, rfl, token⟩

theorem mem_ring_channel : (Place.channel i, r) ∈ (s.ring cfg).tokens ↔
    i < cfg.numWorkers ∧ ∃ req ∈ s.net.chanRequests i, req.token = r := by
  simp [State.ring, Network.tokens, Worker.tokens, mem_gather, mem_located]

theorem mem_ring_queue : (Place.queue w, r) ∈ (s.ring cfg).tokens ↔
    w < cfg.numWorkers ∧ ∃ req ∈ (s.workers w).workSharingRequests, req.token = r := by
  simp [State.ring, Network.tokens, Worker.tokens, mem_gather, mem_located]

/-- A request that is somewhere is one of its sender's. -/
theorem mem_requestsOf_of_channel (worker : i < cfg.numWorkers)
    (member : req ∈ s.net.chanRequests i) : req ∈ s.requestsOf cfg req.ID := by
  refine Multiset.mem_filter.mpr ⟨Multiset.mem_add.mpr (.inl ?_), rfl⟩
  exact mem_gather.mpr ⟨i, worker, Multiset.mem_coe.mpr member⟩

theorem mem_requestsOf_of_queue (worker : w < cfg.numWorkers)
    (member : req ∈ (s.workers w).workSharingRequests) : req ∈ s.requestsOf cfg req.ID := by
  refine Multiset.mem_filter.mpr ⟨Multiset.mem_add.mpr (.inr ?_), rfl⟩
  exact mem_gather.mpr ⟨w, worker, Multiset.mem_add.mpr (.inl (Multiset.mem_coe.mpr member))⟩

/-- The tokens and answers of a worker, in terms of the runtime. -/
theorem ring_of_eq (cfg : Config) (s : State) (w : ℕ) : (s.ring cfg).of w =
    (s.requestsOf cfg w).map StealRequest.token +
      (s.ring cfg).answers.filter fun r => r.owner = w := by
  rw [State.of_eq, bag, Multiset.filter_add, requestsOf_tokens]

/-! ## Parents and children -/

/-- What a parent knows of an existing child, and what the child knows. -/
structure Lifeline (cfg : Config) (s : State) (p : ℕ) (side : Side) : Prop where
  /-- The parent's flag says that it holds on to the child's failed request. -/
  flag_iff : (s.workers p).flag side = true ↔ ∃ req,
    (s.workers p).workSharingRequests.filter (fun r => r.ID = child p side) = [req] ∧
      req.state = .failed
  /-- The child waits while its only token is that request, or the answer to it. -/
  waiting_iff : (s.workers (child p side)).waitingForTasks = true ↔
    (∃ req, s.requestsOf cfg (child p side) = {req} ∧ s.messagesFor cfg (child p side) = 0 ∧
      req.state = .failed ∧
      (req ∈ s.net.chanRequests p ∨ req ∈ (s.workers p).workSharingRequests)) ∨
    ∃ chan batch, s.requestsOf cfg (child p side) = 0 ∧
      s.messagesFor cfg (child p side) = {chan} ∧
      s.net.chanTasks (child p side) chan = some (.tasks batch .failed)
  /-- Below a child flagged idle everybody waits, with nothing to do. -/
  subtree : (s.workers p).flag side = true → ∀ i < cfg.numWorkers, Subtree (child p side) i →
    (s.workers i).waitingForTasks = true ∧ (s.workers i).deque = [] ∧ (s.workers i).frames = []

theorem filter_eq_singleton {α β : Type} [DecidableEq β] {f : α → β} {l : List α} {a : α}
    (apart : (l.map f).Nodup) (member : a ∈ l) : l.filter (fun b => f b = f a) = [a] := by
  induction l with
  | nil => cases member
  | cons b l ih =>
    rw [List.map_cons, List.nodup_cons] at apart
    rcases List.mem_cons.mp member with rfl | member
    · have none : l.filter (fun b => f b = f a) = [] :=
        List.filter_eq_nil_iff.mpr fun b inside => by
          have other : f b ≠ f a := fun same => apart.1 (same ▸ List.mem_map_of_mem inside)
          simpa using other
      simp [none]
    · have other : f b ≠ f a := fun same => apart.1 (same ▸ List.mem_map_of_mem member)
      simp [other, ih apart.2 member]

/-- The requests a worker holds on to come from different children. -/
theorem Refines.queue_apart (ok : Refines cfg s) (worker : w < cfg.numWorkers) :
    ((s.workers w).workSharingRequests.map StealRequest.ID).Nodup := by
  have inv := TokenProtocol.reachable_inv cfg.someSteal ok.ring
  rw [ring_node worker] at inv
  have owners := inv.queue_nodup (ring_queue_split (s.context cfg w) w (s.node w))
  simpa [State.node, Function.comp_def, StealRequest.token] using owners

theorem Refines.flag_iff (ok : Refines cfg s) (parent : p < cfg.numWorkers)
    (exist : child p side < cfg.numWorkers) : (s.workers p).flag side = true ↔ ∃ req,
      (s.workers p).workSharingRequests.filter (fun r => r.ID = child p side) = [req] ∧
        req.state = .failed := by
  have inv := TokenProtocol.reachable_inv cfg.someSteal ok.ring
  have lifeline := inv.lifeline p parent side
  constructor
  · intro flag
    rcases lifeline.mp flag with missing | ⟨r, held, owner⟩
    · omega
    · obtain ⟨-, req, member, rfl⟩ := mem_ring_queue.mp held
      have owner : req.ID = child p side := owner
      refine ⟨req, ?_, inv.queue_failed p req.token held⟩
      rw [← owner]
      exact filter_eq_singleton (ok.queue_apart parent) member
  · rintro ⟨req, only, -⟩
    have member : req ∈ (s.workers p).workSharingRequests.filter fun r => r.ID = child p side := by
      rw [only]
      exact List.mem_singleton_self req
    obtain ⟨member, owner⟩ := List.mem_filter.mp member
    exact lifeline.mpr (.inr ⟨req.token, mem_ring_queue.mpr ⟨parent, req, member, rfl⟩,
      of_decide_eq_true owner⟩)

/-- The only token of a waiting worker is its failed request, which is on its way to
the parent or held by it. -/
theorem Refines.waits_for_parent (ok : Refines cfg s)
    (only : s.requestsOf cfg (child p side) = {req}) (failed : req.state = .failed) :
    req ∈ s.net.chanRequests p ∨ req ∈ (s.workers p).workSharingRequests := by
  have inv := TokenProtocol.reachable_inv cfg.someSteal ok.ring
  have mine : req ∈ s.requestsOf cfg (child p side) := by simp [only]
  obtain ⟨somewhere, owner⟩ := Multiset.mem_filter.mp mine
  have token : req.token ∈ (s.ring cfg).tokens.map Prod.snd := by
    rw [ring_tokens_snd]
    exact Multiset.mem_map_of_mem _ somewhere
  obtain ⟨⟨place, r⟩, held, same⟩ := Multiset.mem_map.mp token
  obtain rfl : r = req.token := same
  have single {found : StealRequest} (sent : found ∈ s.requestsOf cfg found.ID)
      (alike : found.token = req.token) : found = req := by
    have sender : found.ID = child p side := (congrArg Token.owner alike).trans owner
    rw [sender, only] at sent
    exact Multiset.mem_singleton.mp sent
  obtain ⟨q, climbs, here⟩ := inv.failed_place place req.token held failed
  obtain rfl : p = q := by
    have up : parent req.token.owner = some p := by
      rw [show req.token.owner = child p side from owner, child_parent]
    exact Option.some.inj (up.symm.trans climbs)
  rcases here with rfl | rfl
  · obtain ⟨worker, found, member, alike⟩ := mem_ring_channel.mp held
    exact .inl (single (mem_requestsOf_of_channel worker member) alike ▸ member)
  · obtain ⟨worker, found, member, alike⟩ := mem_ring_queue.mp held
    exact .inr (single (mem_requestsOf_of_queue worker member) alike ▸ member)

theorem Refines.waiting_iff (ok : Refines cfg s) (exist : child p side < cfg.numWorkers) :
    (s.workers (child p side)).waitingForTasks = true ↔
      (∃ req, s.requestsOf cfg (child p side) = {req} ∧ s.messagesFor cfg (child p side) = 0 ∧
        req.state = .failed ∧
        (req ∈ s.net.chanRequests p ∨ req ∈ (s.workers p).workSharingRequests)) ∨
      ∃ chan batch, s.requestsOf cfg (child p side) = 0 ∧
        s.messagesFor cfg (child p side) = {chan} ∧
        s.net.chanTasks (child p side) chan = some (.tasks batch .failed) := by
  have inv := TokenProtocol.reachable_inv cfg.someSteal ok.ring
  have acc := inv.account (child p side) exist
  have messages := messagesFor_answers ok.net exist
  have shape := ring_of_eq cfg s (child p side)
  constructor
  · intro waiting
    obtain ⟨-, -, -, failed⟩ := acc.waits waiting
    have single := acc.waiting_single waiting
    rw [shape, Multiset.card_add, Multiset.card_map] at single
    rw [shape] at failed
    by_cases none : (s.requestsOf cfg (child p side)).card = 0
    · -- The answer is under way.
      obtain ⟨r, only⟩ := Multiset.card_eq_one.mp (show
        ((s.ring cfg).answers.filter fun r => r.owner = child p side).card = 1 by omega)
      have member : r ∈ (s.ring cfg).answers.filter fun r => r.owner = child p side := by
        simp [only]
      obtain ⟨answer, owner⟩ := Multiset.mem_filter.mp member
      obtain ⟨batch, -, -, slot⟩ := mem_answers.mp answer
      have state := failed r (Multiset.mem_add.mpr (.inr member))
      refine .inr ⟨r.chan, batch, Multiset.card_eq_zero.mp none, ?_, ?_⟩
      · rw [← messages, only, Multiset.map_singleton]
      · rw [← owner, slot, state]
    · -- The request is with the parent, or on the way to it.
      obtain ⟨req, only⟩ := Multiset.card_eq_one.mp (show
        (s.requestsOf cfg (child p side)).card = 1 by omega)
      have empty : (s.ring cfg).answers.filter (fun r => r.owner = child p side) = 0 :=
        Multiset.card_eq_zero.mp (by omega)
      have state : req.state = .failed :=
        failed req.token (Multiset.mem_add.mpr (.inl (by simp [only])))
      refine .inl ⟨req, only, ?_, state, ok.waits_for_parent only state⟩
      rw [← messages, empty, Multiset.map_zero]
  · rintro (⟨req, only, -, state, -⟩ | ⟨chan, batch, -, only, slot⟩)
    · refine acc.failed req.token ?_ state
      rw [shape]
      exact Multiset.mem_add.mpr (.inl (by simp [only]))
    · obtain ⟨worker, inside, -⟩ := ok.net.slots _ _ _ slot
      refine acc.failed ⟨child p side, chan, .failed⟩ ?_ rfl
      rw [shape]
      refine Multiset.mem_add.mpr (.inr (Multiset.mem_filter.mpr ⟨?_, rfl⟩))
      exact mem_answers.mpr ⟨batch, worker, inside, slot⟩

theorem Refines.subtree_waits (ok : Refines cfg s) {p i : ℕ} (parent : p < cfg.numWorkers)
    (flag : (s.workers p).flag side = true) (exist : i < cfg.numWorkers)
    (below : Subtree (child p side) i) :
    (s.workers i).waitingForTasks = true :=
  (TokenProtocol.reachable_inv cfg.someSteal ok.ring).subtree_waits parent flag exist below

theorem Refines.lifeline (ok : Refines cfg s) (parent : p < cfg.numWorkers)
    (exist : child p side < cfg.numWorkers) : Lifeline cfg s p side := by
  refine ⟨ok.flag_iff parent exist, ok.waiting_iff exist, fun flag i inside below => ?_⟩
  have waiting := ok.subtree_waits parent flag inside below
  obtain ⟨-, deque, frames, -⟩ := ok.waits inside waiting
  exact ⟨waiting, deque, frames⟩

/-- A failed request is only in the channel of its sender's parent, which is awake. -/
theorem Refines.failed_in_channel (ok : Refines cfg s) (member : req ∈ s.net.chanRequests i)
    (failed : req.state = .failed) :
    parent req.ID = some i ∧ (s.workers i).waitingForTasks = false := by
  have inv := TokenProtocol.reachable_inv cfg.someSteal ok.ring
  have worker := ok.net.requests i (List.ne_nil_of_mem member)
  have held : (Place.channel i, req.token) ∈ (s.ring cfg).tokens :=
    mem_ring_channel.mpr ⟨worker, req, member, rfl⟩
  constructor
  · obtain ⟨q, climbs, here | here⟩ := inv.failed_place _ _ held failed
    · cases here
      exact climbs
    · cases here
  · by_contra waiting
    exact inv.channel_live (by simpa [State.ring, Worker.agent] using waiting) held failed

/-- The channels examined on behalf of others belong to workers that wait. -/
theorem Refines.behalf_waits (ok : Refines cfg s) {k : ReqCont} {scan : List ℕ}
    (worker : w < cfg.numWorkers) (here : (s.workers w).pc = .recvReqFor k scan)
    (member : i ∈ scan) :
    i < cfg.numWorkers ∧ (s.workers i).waitingForTasks = true ∧
      ∃ side, (s.workers w).flag side = true ∧ Subtree (child w side) i := by
  have scanOk := (ok.loc w worker).scan
  rw [show (s.workers w).loc.pc = .recvReqFor k scan from here] at scanOk
  obtain ⟨inside, side, flag, -, below⟩ := scanOk i member
  exact ⟨inside, ok.subtree_waits worker flag inside below, side, flag, below⟩

/-- The assertions about children, idle subtrees and waiting. -/
def lifelineFaults : List Fault :=
  [.recvReqChild, .recvReqLeftIdle, .recvReqRightIdle, .boundedQueueEnqueue, .handleOwnFailed,
    .handleChild, .shareChild, .shareLeftIdle, .shareRightIdle, .declineWaiting,
    .declineDropWaiting, .detectMaster, .detectSubtreesIdle, .detectQuiescent]

/-- Before `RT_EXIT` parents and children agree, a failed request is only in the
channel of a parent that is awake, receiving on behalf of others never yields one,
and the assertions that rest on this hold. -/
theorem lifelines_agree (reached : (system cfg).Reachable s) (running : s.net.exiting = false) :
    (∀ p < cfg.numWorkers, ∀ side, child p side < cfg.numWorkers → Lifeline cfg s p side) ∧
    (∀ i, ∀ req ∈ s.net.chanRequests i, req.state = .failed →
      parent req.ID = some i ∧ (s.workers i).waitingForTasks = false) ∧
    (∀ w < cfg.numWorkers, ∀ k scan, (s.workers w).pc = .recvReqFor k scan →
      ∀ i ∈ scan, ∀ req ∈ s.net.chanRequests i, req.state ≠ .failed) ∧
    ∀ which ∈ lifelineFaults, ¬ Faults cfg s which := by
  have ok := reachable_refines reached running
  refine ⟨fun p worker side exist => ok.lifeline worker exist,
    fun i req member failed => ok.failed_in_channel member failed,
    fun w worker k scan here i member req inside failed => ?_, fun which member fault => ?_⟩
  · have waiting := (ok.behalf_waits worker here member).2.1
    exact absurd (waiting.symm.trans (ok.failed_in_channel inside failed).2) (by simp)
  · have excluded : ∀ which ∈ lifelineFaults, ¬ Elsewhere which := by decide
    exact excluded which member (ok.faults fault)

/-- The request of worker 1 goes round once and fails; the master holds on to it
and starts to look into the channel of worker 1. -/
def lifelineSchedule : List (ℕ × Choice) := runsOn 1 5 ++ runsOn 0 7 ++ runsOn 1 4 ++ runsOn 0 5

theorem lifeline_of_two_workers :
    ((after (.makefile 2 two_pos) lifelineSchedule).workers 0).flag .left = true ∧
      Lifeline (.makefile 2 two_pos) (after (.makefile 2 two_pos) lifelineSchedule) 0 .left :=
  ⟨by decide +kernel,
    (lifelines_agree (after_reachable _ _) (by decide +kernel)).1 0 two_pos .left one_lt_two⟩

/-! ## One receiver for every channel -/

/-- Worker `a` may receive from channel `i`: the channel is its own, or that of
somebody in a subtree it knows to be idle. -/
def Eligible (s : State) (a i : ℕ) : Prop :=
  (s.workers a).waitingForTasks = false ∧
    (a = i ∨ ∃ side, (s.workers a).flag side = true ∧ Subtree (child a side) i)

/-- Worker `a` is about to receive from channel `i`, in either form of `RECV_REQ`. -/
def Reads (s : State) (a i : ℕ) : Prop :=
  (∃ k, (s.workers a).pc = .recvReq k ∧ a = i) ∨ ∃ k scan, (s.workers a).pc =
    .recvReqFor k (i :: scan)

/-- A worker that is awake is not in a subtree known to be idle, so neither is its
child, unless the two know of the same child. -/
theorem Refines.one_flag (ok : Refines cfg s) {a b : ℕ} {side other : Side}
    (flag : (s.workers a).flag side = true) (awake : (s.workers b).waitingForTasks = false)
    (workerA : a < cfg.numWorkers) (workerB : b < cfg.numWorkers)
    (above : Subtree (child a side) (child b other)) : a = b := by
  have up : parent (child b other) = some b := child_parent
  generalize child b other = c at above up
  cases above with
  | here => exact Option.some.inj (child_parent.symm.trans up)
  | child upper climbs =>
    obtain rfl : _ = b := Option.some.inj (climbs.symm.trans up)
    have waiting := ok.subtree_waits workerA flag workerB upper
    exact absurd (waiting.symm.trans awake) (by simp)

theorem Refines.eligible_unique (ok : Refines cfg s) {a b i : ℕ} (workerA : a < cfg.numWorkers)
    (workerB : b < cfg.numWorkers) (inside : i < cfg.numWorkers) (first : Eligible s a i)
    (second : Eligible s b i) : a = b := by
  obtain ⟨awakeA, own | ⟨side, flag, below⟩⟩ := first
  · obtain ⟨awakeB, own' | ⟨side', flag', below'⟩⟩ := second
    · rw [own, own']
    · have waiting := ok.subtree_waits workerB flag' inside below'
      rw [← own] at waiting
      exact absurd (waiting.symm.trans awakeA) (by simp)
  · obtain ⟨awakeB, own' | ⟨side', flag', below'⟩⟩ := second
    · have waiting := ok.subtree_waits workerA flag inside below
      rw [← own'] at waiting
      exact absurd (waiting.symm.trans awakeB) (by simp)
    · rcases below.comparable below' with above | above
      · exact ok.one_flag flag awakeB workerA workerB above
      · exact (ok.one_flag flag' awakeA workerB workerA above).symm

/-- A worker that waits is receiving tasks, and not requests. -/
theorem Refines.waiting_reads_nothing (ok : Refines cfg s) (backoff : cfg.backoff ≠ .off)
    (worker : w < cfg.numWorkers) (waiting : (s.workers w).waitingForTasks = true) (k : ReqCont) :
    (s.workers w).pc ≠ .recvReq k ∧ ∀ scan, (s.workers w).pc ≠ .recvReqFor k scan := by
  have receives : (s.workers w).pc.mayWait = true := (ok.loc w worker).waits waiting backoff
  constructor
  · intro here
    rw [here] at receives
    cases receives
  · intro scan here
    rw [here] at receives
    cases receives

theorem Refines.reads_eligible (ok : Refines cfg s) (backoff : cfg.backoff ≠ .off)
    (worker : w < cfg.numWorkers) (reads : Reads s w i) : i < cfg.numWorkers ∧ Eligible s w i := by
  have awake (k : ReqCont) (reading : (s.workers w).pc = .recvReq k ∨
      ∃ scan, (s.workers w).pc = .recvReqFor k scan) : (s.workers w).waitingForTasks = false := by
    by_contra waiting
    obtain ⟨own, behalf⟩ := ok.waiting_reads_nothing backoff worker (by simpa using waiting) k
    exact reading.elim own fun ⟨scan, here⟩ => behalf scan here
  rcases reads with ⟨k, here, rfl⟩ | ⟨k, scan, here⟩
  · exact ⟨worker, awake k (.inl here), .inl rfl⟩
  · obtain ⟨inside, -, side, flag, below⟩ := ok.behalf_waits worker here List.mem_cons_self
    exact ⟨inside, awake k (.inr ⟨_, here⟩), .inr ⟨side, flag, below⟩⟩

/-- A worker that waits goes on waiting until it receives a message. -/
theorem Refines.waits_until_message (ok : Refines cfg s) (backoff : cfg.backoff ≠ .off)
    (worker : w < cfg.numWorkers) (waiting : (s.workers w).waitingForTasks = true) {s' : State}
    (moved : Moves cfg w s s') : (s'.workers w).waitingForTasks = true ∨
      ∃ chan, (s.net.chanTasks w chan).isSome ∧ s'.net.chanTasks w chan = none := by
  obtain ⟨c, n, ran, rfl⟩ := moved
  obtain ⟨-, -, -, -, -, requested⟩ := ok.waits worker waiting
  have receives : (s.workers w).pc.mayWait = true := (ok.loc w worker).waits waiting backoff
  suffices step : Ensures (fun _ => True) (wstep cfg w c (s.node w)) fun n =>
      n.self.waitingForTasks = true ∨
        ∃ chan, (s.net.chanTasks w chan).isSome ∧ n.net.chanTasks w chan = none by
    simpa [State.put] using step.value ran
  cases here : (s.workers w).pc with
  | recvTask site i =>
    simp only [wstep, State.node, here, recvTaskStep]
    split
    · simp only [ensures_bind]
      exact Ensures.any.mono fun _ _ => .inl waiting
    · split
      · next message slot =>
        simp only [ensures_bind, ensures_pure]
        refine Ensures.any.mono fun x _ => Ensures.any.mono fun y _ => .inr ⟨i, ?_, ?_⟩
        · simp [slot]
        · simp [Network.putTask]
      · split
        · exact .inl waiting
        · exact .inl waiting
  | trySend k =>
    rw [here] at receives
    obtain rfl : k = .failed .schedule := by
      cases k with
      | failed site => cases site <;> first | rfl | cases receives
      | _ => cases receives
    -- All requests are under way, so none is sent.
    have sends : trySendStealRequest cfg c.oracle w true (s.node w) = .ok (s.node w) := by
      simp only [trySendStealRequest, State.node, requested, lt_irrefl, ↓reduceIte]
      rfl
    simp only [wstep, show (s.node w).self.pc = .trySend (.failed .schedule) from here, sendStep,
      Site.isIdle, sends, taskMissing, ensures_bind, ensures_ok, ensures_check, ensures_ite,
      ensures_pure, implies_true, and_true]
    exact fun _ _ => ⟨fun _ => .inl waiting, fun _ => .inl waiting⟩
  | _ =>
    rw [here] at receives
    cases receives

/-- With backoff, before `RT_EXIT`, at most one worker is eligible for a request
channel; a worker that waits does not look at request channels, and it waits until
it receives a message; so at most one worker is reading from a channel. -/
theorem single_consumer (backoff : cfg.backoff ≠ .off) (reached : (system cfg).Reachable s)
    (running : s.net.exiting = false) :
    (∀ i < cfg.numWorkers, ∀ a < cfg.numWorkers, ∀ b < cfg.numWorkers,
      Eligible s a i → Eligible s b i → a = b) ∧
    (∀ w < cfg.numWorkers, (s.workers w).waitingForTasks = true →
      (∀ i, ¬ Reads s w i) ∧ ∀ s', Moves cfg w s s' → (s'.workers w).waitingForTasks = true ∨
        ∃ chan, (s.net.chanTasks w chan).isSome ∧ s'.net.chanTasks w chan = none) ∧
    (∀ i, ∀ a < cfg.numWorkers, Reads s a i → Eligible s a i) ∧
    ∀ i, ∀ a < cfg.numWorkers, ∀ b < cfg.numWorkers, Reads s a i → Reads s b i → a = b := by
  have ok := reachable_refines reached running
  refine ⟨fun i inside a workerA b workerB first second =>
      ok.eligible_unique workerA workerB inside first second,
    fun w worker waiting => ⟨fun i reads => ?_, fun s' moved =>
      ok.waits_until_message backoff worker waiting moved⟩,
    fun i a worker reads => (ok.reads_eligible backoff worker reads).2,
    fun i a workerA b workerB first second => ?_⟩
  · have awake := (ok.reads_eligible backoff worker reads).2.1
    exact absurd (waiting.symm.trans awake) (by simp)
  · obtain ⟨inside, eligible⟩ := ok.reads_eligible backoff workerA first
    exact ok.eligible_unique workerA workerB inside eligible
      (ok.reads_eligible backoff workerB second).2

theorem master_receives_for_worker :
    ((after (.makefile 2 two_pos) lifelineSchedule).workers 0).pc = .recvReqFor .poll [1] ∧
      Eligible (after (.makefile 2 two_pos) lifelineSchedule) 0 1 := by
  have here : ((after (.makefile 2 two_pos) lifelineSchedule).workers 0).pc =
      .recvReqFor .poll [1] := by decide +kernel
  exact ⟨here, (single_consumer (by decide) (after_reachable (.makefile 2 two_pos) lifelineSchedule)
    (by decide +kernel)).2.2.1 1 0 two_pos (.inr ⟨.poll, [], here⟩)⟩

end Tasking.Runtime
