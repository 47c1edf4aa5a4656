import Tasking.Refinement

/-! After `RT_EXIT`.  Nobody has a task any more; every worker waits for the message
that tells it to leave, or is on its way out.  Requests of the master may still be
passed around, so the bounds on the request channels need an argument of their
own: the last of the requests are never more than they were. -/
namespace Tasking.Runtime
open Fallible Family TokenProtocol Custody WorkerTree

/-- Where a worker can be after `RT_EXIT`. -/
inductive Way (cfg : Config) (ID : ℕ) (x : Worker) : Prop where
  | out (here : x.pc = .exitLeft ∨ x.pc = .exitRight ∨ x.pc = .finished)
  /-- It has received the message. -/
  | told (other : ID ≠ 0) (rested : x.deque = [] ∧ x.frames = []) {addr : ℕ}
      (here : x.pc = .shareWork (.exit addr))
  | waits (other : ID ≠ 0) (rested : x.deque = [] ∧ x.frames = []) (idle : x.pc.isIdle = true)
      (site : x.pc.site = some .schedule) (requested : x.requested = cfg.maxSteal)

structure Leaves (cfg : Config) (ID : ℕ) (x : Worker) : Prop where
  way : Way cfg ID x
  queue : x.workSharingRequests.length ≤ 2

/-- The requests left after `RT_EXIT`: each parent holds the one its child failed
with, and all others are the master's. -/
def Leftover : Place × Token → Prop
  | (.queue _, r) => r.state = .failed
  | (_, r) => r.owner = 0 ∧ r.state ≠ .failed

/-- The requests and the channels after `RT_EXIT`. -/
structure Closing (cfg : Config) (tokens : Multiset (Place × Token)) (net : Network) : Prop where
  exiting : net.exiting = true
  card : tokens.card ≤ cfg.numWorkers * cfg.maxSteal
  leftover : ∀ e ∈ tokens, Leftover e
  requests : ∀ i, net.chanRequests i ≠ [] → i < cfg.numWorkers
  messages : ∀ v c message, v ≠ 0 → net.chanTasks v c = some message →
    c < cfg.maxSteal ∧ ∃ addr, message = .exit addr

/-- What a step keeps after `RT_EXIT`. -/
structure Closes (cfg : Config) (ctx : Context) (w : ℕ) (n n' : Node) : Prop where
  closing : Closing cfg (n'.ring cfg ctx w).tokens n'.net
  leaves : Leaves cfg w n'.self
  custody : n'.custody cfg ctx w = n.custody cfg ctx w

/-- The assertions that may fail after `RT_EXIT`, as far as these invariants tell. -/
def Late (which : Fault) : Prop :=
  Elsewhere which ∨ which ∈ [.shareChild, .handleChild, .boundedStackPush, .recvTaskRequestedMax,
    .recvTaskStackMax, .recvTaskAboveDropped, .recvTaskRequestedRange, .recvTaskDroppedZero]

instance : DecidablePred Late := fun _ => inferInstanceAs (Decidable (_ ∨ _))

/-- The channels differ in messages that carry no tasks. -/
structure SameTasks (cfg : Config) (net net' : Network) : Prop where
  requests : net'.chanRequests = net.chanRequests
  tasks : net'.tasks cfg = net.tasks cfg
  exiting : net'.exiting = net.exiting
  messages : ∀ v c message, v ≠ 0 → net'.chanTasks v c = some message →
    net.chanTasks v c = some message ∨ c < cfg.maxSteal ∧ ∃ addr, message = .exit addr
  ledger : net'.created = net.created ∧ net'.started = net.started ∧
    net'.finished = net.finished ∧ net'.nextId = net.nextId ∧ net'.nextFuture = net.nextFuture ∧
    net'.futures = net.futures

section Steps

variable {cfg : Config} {ctx : Context} {w : ℕ} {n n' : Node} {req : StealRequest}
  {reqs : List StealRequest} {o : Oracle} {pc : Pc} {net : Network}

theorem SameTasks.refl : SameTasks cfg net net :=
  ⟨rfl, rfl, rfl, fun _ _ _ _ same => .inl same, rfl, rfl, rfl, rfl, rfl, rfl⟩

/-- A slot without tasks is filled with a message without tasks, or emptied. -/
theorem SameTasks.put {owner chan : ℕ} {message : Option Message} (worker : owner < cfg.numWorkers)
    (inside : chan < cfg.maxSteal)
    (before : ∀ batch state, net.chanTasks owner chan ≠ some (.tasks batch state))
    (after : message = none ∨ ∃ addr, message = some (.exit addr)) :
    SameTasks cfg net (net.putTask owner chan message) := by
  refine ⟨rfl, ?_, rfl, fun v c found other slot => ?_, rfl, rfl, rfl, rfl, rfl, rfl⟩
  · obtain ⟨rest, split, put⟩ := gather_update₂ Message.tasksIn net.chanTasks worker inside
    have silent : Message.tasksIn owner chan (net.chanTasks owner chan) = 0 := by
      cases held : net.chanTasks owner chan with
      | none => rfl
      | some old =>
        cases old with
        | exit => rfl
        | tasks batch state => exact absurd held (before batch state)
    have silent' : Message.tasksIn owner chan message = 0 := by
      rcases after with rfl | ⟨addr, rfl⟩ <;> rfl
    simp only [Network.tasks, Network.putTask, split, put, silent, silent']
  · simp only [Network.putTask] at slot
    by_cases row : v = owner
    · subst row
      by_cases column : c = chan
      · subst column
        simp only [Function.update_self] at slot
        rcases after with rfl | ⟨addr, rfl⟩
        · cases slot
        · cases slot
          exact .inr ⟨inside, addr, rfl⟩
      · exact .inl (by simpa [column] using slot)
    · exact .inl (by simpa [row] using slot)

/-- A step that neither moves a request nor a task. -/
theorem Closing.closes (closing : Closing cfg (n.ring cfg ctx w).tokens n.net)
    (net : SameTasks cfg n.net n'.net) (held : n'.self.tokens w = n.self.tokens w)
    (tasks : n'.self.tasks w = n.self.tasks w) (leaves : Leaves cfg w n'.self) :
    Closes cfg ctx w n n' := by
  have tokens : (n'.ring cfg ctx w).tokens = (n.ring cfg ctx w).tokens := by
    simp only [Node.ring, Network.tokens, net.requests, held]
  refine ⟨?_, leaves, ?_⟩
  · rw [tokens]
    refine ⟨net.exiting.trans closing.exiting, closing.card, closing.leftover, ?_, ?_⟩
    · rw [net.requests]
      exact closing.requests
    · exact fun v c message other slot =>
        (net.messages v c message other slot).elim (closing.messages v c message other) id
  · obtain ⟨created, started, finished, nextId, nextFuture, futures⟩ := net.ledger
    simp only [Node.custody, net.tasks, tasks, created, started, finished, nextId, nextFuture,
      futures]

theorem Closing.goes (closing : Closing cfg (n.ring cfg ctx w).tokens n.net) {x : Worker}
    (same : SameTasks cfg n.net net)
    (worker : x.workSharingRequests = n.self.workSharingRequests ∧ x.deque = n.self.deque ∧
      x.frames = n.self.frames) (hand : pc.hand = n.self.pc.hand) (held : pc.held = n.self.pc.held)
    (way : Way cfg w { x with pc := pc }) (queue : n.self.workSharingRequests.length ≤ 2) :
    Closes cfg ctx w n ⟨{ x with pc := pc }, net⟩ := by
  obtain ⟨wsr, deque, frames⟩ := worker
  refine closing.closes same ?_ ?_ ⟨way, ?_⟩
  · simp only [Worker.tokens, hand, wsr]
  · simp only [Worker.tasks, held, deque, frames]
  · rwa [wsr]

/-- A request of the master moves between a channel and a worker's hand. -/
theorem Closing.moves {tokens rest : Multiset (Place × Token)} {net net' : Network} {p q : Place}
    {r : Token} (closing : Closing cfg tokens net) (held : tokens = (p, r) ::ₘ rest)
    (before : ∀ v, p ≠ .queue v) (after : ∀ v, q ≠ .queue v) (exiting : net'.exiting = net.exiting)
    (requests : ∀ i, net'.chanRequests i ≠ [] → i < cfg.numWorkers)
    (slots : net'.chanTasks = net.chanTasks) : Closing cfg ((q, r) ::ₘ rest) net' := by
  have masters : r.owner = 0 ∧ r.state ≠ .failed := by
    have here := closing.leftover (p, r) (by rw [held]; exact Multiset.mem_cons_self _ _)
    cases p with
    | queue v => exact absurd rfl (before v)
    | channel _ | hand _ => exact here
  refine ⟨exiting.trans closing.exiting, ?_, fun e member => ?_, requests, ?_⟩
  · have card := closing.card
    rw [held, Multiset.card_cons] at card
    rwa [Multiset.card_cons]
  · rcases Multiset.mem_cons.mp member with rfl | member
    · cases q with
      | queue v => exact absurd rfl (after v)
      | channel _ | hand _ => exact masters
    · exact closing.leftover e (by rw [held]; exact Multiset.mem_cons_of_mem member)
  · rw [slots]
    exact closing.messages

/-! ## The program points of a worker that leaves -/

theorem taskAlloc_eq (n : Node) : ∃ addr freelist next, taskAlloc n =
    (addr, ⟨{ n.self with freelist := freelist }, { n.net with nextAddr := next }⟩) := by
  unfold taskAlloc
  split
  · next addr rest _ => exact ⟨addr, rest, n.net.nextAddr, rfl⟩
  · next empty => exact ⟨n.net.nextAddr, [], n.net.nextAddr + 1, by rw [← empty]⟩

theorem notifyChild_closes (closing : Closing cfg (n.ring cfg ctx w).tokens n.net)
    (leaves : Leaves cfg w n.self) {c : Option ℕ} (exist : ∀ v, c = some v → v < cfg.numWorkers)
    (hand : n.self.pc.hand = none) (held : n.self.pc.held = none)
    (there : pc = .exitRight ∨ pc = .finished) :
    Ensures Late (notifyChild c n) fun n' => ∀ finished count, Closes cfg ctx w n
      ⟨{ n'.self with taskingFinished := finished, numTasksExec := count, pc := pc }, n'.net⟩ := by
  have way (x : Worker) : Way cfg w { x with pc := pc } := .out (.inr there)
  obtain ⟨noHand, noTask⟩ : pc.hand = n.self.pc.hand ∧ pc.held = n.self.pc.held := by
    rw [hand, held]
    rcases there with rfl | rfl <;> exact ⟨rfl, rfl⟩
  cases c with
  | none =>
    intro finished count
    exact closing.goes (x := { n.self with taskingFinished := finished, numTasksExec :=
      count }) .refl ⟨rfl, rfl, rfl⟩ noHand noTask (way _) leaves.queue
  | some v =>
    have target := exist v rfl
    obtain ⟨addr, freelist, next, alloc⟩ := taskAlloc_eq n
    simp only [notifyChild, alloc, ensures_bind, ensures_check, ensures_pure]
    refine ⟨fun empty finished count => ?_, fun _ => by simp [Late, Elsewhere]⟩
    have put : SameTasks cfg { n.net with nextAddr := next }
        (Network.putTask { n.net with nextAddr := next } v 0 (some (.exit addr))) :=
      .put target cfg.someSteal (fun batch state full => by simp [empty] at full) (.inr ⟨addr, rfl⟩)
    have same : SameTasks cfg n.net
        (Network.putTask { n.net with nextAddr := next } v 0 (some (.exit addr))) :=
      ⟨put.requests, put.tasks, put.exiting, put.messages, put.ledger⟩
    exact closing.goes (x := { n.self with
        freelist := freelist, taskingFinished := finished, numTasksExec := count })
      same ⟨rfl, rfl, rfl⟩ noHand noTask (way _) leaves.queue

/-- Whoever was told to leave finds no request it could answer. -/
theorem told_closes (closing : Closing cfg (n.ring cfg ctx w).tokens n.net)
    (leaves : Leaves cfg w n.self) {addr : ℕ} (here : n.self.pc = .shareWork (.exit addr))
    (rested : n.self.deque = [] ∧ n.self.frames = []) :
    Ensures Late (shareStep cfg o w (.exit addr) n) (Closes cfg ctx w n) := by
  have round : Ensures Late (shareRound cfg o w n) fun out => out = (false, n) := by
    unfold shareRound
    split
    · trivial
    · next req reqs queue =>
      have failed : req.state = .failed := by
        refine closing.leftover (.queue w, req.token) ?_
        simp [Node.ring, Worker.tokens, queue]
      simp only [handle, Worker.currentTask, rested, failed, ensures_bind, ensures_check,
        ensures_ite, ensures_pure, List.head?_nil, Option.map_none, Option.filter_none]
      simp [Late]
  simp only [shareStep, ensures_bind]
  refine round.mono ?_
  rintro _ rfl
  simp only [shareDone, exitFn, Bool.false_eq_true, ↓reduceIte, ensures_bind, ensures_check,
    ensures_pure]
  refine ⟨fun _ => ⟨fun _ => ⟨fun _ => ?_, ?_⟩, ?_⟩, ?_⟩
  · have same : SameTasks cfg n.net { n.net with exiting := true } :=
      ⟨rfl, rfl, closing.exiting.symm, fun _ _ _ _ slot => .inl slot, rfl, rfl, rfl, rfl, rfl, rfl⟩
    exact closing.goes same ⟨rfl, rfl, rfl⟩ (by rw [here]; rfl) (by rw [here]; rfl)
      (.out (.inl rfl)) leaves.queue
  all_goals simp [Late, Elsewhere]

/-! ## The program points of a worker that waits to be told -/

theorem Pc.held_of_isIdle (idle : pc.isIdle = true) : pc.held = none := by
  cases pc with
  | user | pop _ | shareWork _ | peekReq _ | forceReady _ _ | barrierExit | exitLeft | exitRight
  | finished => cases idle
  | recvTask _ _ => rfl
  | trySend k => cases k <;> first | rfl | cases idle
  | recvReq k | recvReqFor k _ | handle k _ => cases k <;> first | rfl | cases idle

theorem Pc.site_of_isIdle (idle : pc.isIdle = true) :
    ∃ site, pc.site = some site ∧ site.isIdle = true := by
  cases pc with
  | user | pop _ | shareWork _ | peekReq _ | forceReady _ _ | barrierExit | exitLeft | exitRight
  | finished => cases idle
  | recvTask site _ => exact ⟨site, rfl, idle⟩
  | trySend k =>
    cases k with
    | enter site | failed site => exact ⟨site, rfl, idle⟩
    | again _ | early _ _ => cases idle
  | recvReq k | recvReqFor k _ | handle k _ =>
    cases k with
    | declineAll site => exact ⟨site, rfl, idle⟩
    | push | poll | pop _ _ | force _ => cases idle

/-- A worker whose requests are all under way sends none.  Whoever waits to be told to leave is
such a worker. -/
theorem trySendStealRequest_full {idle : Bool} (full : n.self.requested = cfg.maxSteal) :
    trySendStealRequest cfg o w idle n = .ok n := by
  simp only [trySendStealRequest, full, lt_irrefl, ↓reduceIte]
  rfl

theorem requested_ne_zero {x : Worker} (full : x.requested = cfg.maxSteal) : x.requested ≠ 0 := by
  rw [full]
  exact_mod_cast cfg.someSteal.ne'

/-- What a worker that waits to be told relies on. -/
structure Idles (cfg : Config) (ctx : Context) (w : ℕ) (n : Node) : Prop where
  closing : Closing cfg (n.ring cfg ctx w).tokens n.net
  other : w ≠ 0
  worker : w < cfg.numWorkers
  rested : n.self.deque = [] ∧ n.self.frames = []
  requested : n.self.requested = cfg.maxSteal
  queue : n.self.workSharingRequests.length ≤ 2
  idle : n.self.pc.isIdle = true

theorem Idles.goes (idles : Idles cfg ctx w n) (idle : pc.isIdle = true)
    (site : pc.site = some .schedule) (hand : pc.hand = n.self.pc.hand) {inWait : Bool} :
    Closes cfg ctx w n ⟨{ n.self with inWait := inWait, pc := pc }, n.net⟩ :=
  idles.closing.goes (x := { n.self with inWait := inWait }) .refl ⟨rfl, rfl, rfl⟩ hand
    ((Pc.held_of_isIdle idle).trans (Pc.held_of_isIdle idles.idle).symm)
    (.waits idles.other idles.rested idle site idles.requested) idles.queue

theorem Idles.enters (idles : Idles cfg ctx w n) (here : n.self.pc = .trySend (.enter .schedule)) :
    Ensures Late (sendStep cfg o w (.enter .schedule) n) (Closes cfg ctx w n) := by
  have some := requested_ne_zero idles.requested
  simp only [sendStep, Site.isIdle, trySendStealRequest_full idles.requested, ensures_bind,
    ensures_ok, ↓reduceIte, ensures_check, ensures_pure]
  exact ⟨fun _ => idles.goes rfl rfl (by rw [here]; rfl), fun wrong => absurd some wrong⟩

theorem Idles.fails (idles : Idles cfg ctx w n) (here : n.self.pc = .trySend (.failed .schedule)) :
    Ensures Late (sendStep cfg o w (.failed .schedule) n) (Closes cfg ctx w n) := by
  have some := requested_ne_zero idles.requested
  simp only [sendStep, taskMissing, Site.isIdle, trySendStealRequest_full idles.requested,
    ensures_bind, ensures_ok, ensures_check, ensures_ite, ensures_pure]
  refine ⟨fun _ => ⟨fun _ => ⟨fun _ => ?_, fun _ => ?_⟩, fun wrong => absurd some wrong⟩,
    fun wrong => absurd idles.rested.1 wrong⟩
  · exact idles.goes rfl rfl (by rw [here]; rfl)
  · exact idles.goes rfl rfl (by rw [here]; rfl)

theorem receivedTask_keeps (chan : ℕ) (x : Worker) :
    Ensures Late (receivedTask cfg chan x) fun x' =>
      x'.workSharingRequests = x.workSharingRequests ∧ x'.deque = x.deque ∧
        x'.frames = x.frames := by
  simp only [receivedTask, channelPush, ensures_bind, ensures_check, ensures_ite, ensures_pure]
  simp [Late]

theorem Idles.receives (idles : Idles cfg ctx w n) {i : ℕ}
    (here : n.self.pc = .recvTask .schedule i) :
    Ensures Late (recvTaskStep cfg w .schedule i n) (Closes cfg ctx w n) := by
  have hand : n.self.pc.hand = none := by rw [here]; rfl
  unfold recvTaskStep
  split
  · simp only [ensures_bind, ensures_await, ensures_pure]
    intro _
    have goes := @Idles.goes cfg ctx w n (.recvTask .schedule i) idles rfl rfl hand.symm false
    rwa [← here] at goes
  · split
    · next message slot =>
      obtain ⟨inside, addr, rfl⟩ := idles.closing.messages w i message idles.other slot
      simp only [ensures_bind]
      refine (receivedTask_keeps i n.self).mono ?_
      rintro x ⟨queue, deque, frames⟩
      obtain ⟨recent, unpacked⟩ : ∃ recent, unpack cfg w .schedule (.exit addr) x =
          .ok { x with numRecentSteals := recent, pc := .shareWork (.exit addr) } := ⟨_, rfl⟩
      rw [unpacked]
      have same : SameTasks cfg n.net (n.net.putTask w i none) :=
        .put idles.worker inside
          (fun batch state full => by simp [slot] at full) (.inl rfl)
      refine idles.closing.goes (x := { x with numRecentSteals := recent }) same ⟨queue, deque,
        frames⟩ (by rw [hand]; rfl) (by rw [here]; rfl) (.told idles.other ?_ rfl) idles.queue
      exact ⟨deque.trans idles.rested.1, frames.trans idles.rested.2⟩
    · split
      · exact idles.goes rfl rfl (by rw [hand]; rfl)
      · exact idles.goes rfl rfl (by rw [hand]; rfl)

theorem Idles.takes (idles : Idles cfg ctx w n) {i : ℕ} (hand : n.self.pc.hand = none)
    (first : n.net.chanRequests i = req :: reqs) : req.state ≠ .failed ∧
      Closes cfg ctx w n (received w (.declineAll .schedule) req
        { n with net := n.net.dropRequest i }) := by
  have inside : i < cfg.numWorkers := idles.closing.requests i (by simp [first])
  have held := @ring_channel cfg ctx w n req reqs i hand inside first
  obtain ⟨owner, live⟩ : req.token.owner = 0 ∧ req.token.state ≠ .failed :=
    idles.closing.leftover (.channel i, req.token) (by rw [held]; exact Multiset.mem_cons_self _ _)
  have foreign : req.ID ≠ w := fun own => idles.other (own ▸ owner)
  refine ⟨live, ?_⟩
  simp only [received, foreign, false_and, ↓reduceIte]
  refine ⟨?_, ⟨?_, idles.queue⟩, ?_⟩
  · rw [ring_hand rfl]
    refine idles.closing.moves held (by simp) (by simp) rfl (fun j some => ?_) rfl
    by_cases same : j = i
    · exact same ▸ inside
    · exact idles.closing.requests j (by simpa [Network.dropRequest, Node.goto, same] using some)
  · exact .waits idles.other idles.rested rfl rfl idles.requested
  · simp only [Node.custody, Node.goto, Worker.tasks, Pc.held_of_isIdle idles.idle]
    rfl

theorem Idles.finds_nothing (idles : Idles cfg ctx w n) (hand : n.self.pc.hand = none) :
    Closes cfg ctx w n (noRequest cfg (.declineAll .schedule) n) := by
  have stays : declined .schedule n = n.goto (.recvTask .schedule 0) := by simp [declined]
  simp only [noRequest, stays]
  exact idles.goes rfl rfl (by rw [hand]; rfl)

theorem Idles.looks (idles : Idles cfg ctx w n)
    (here : n.self.pc = .recvReq (.declineAll .schedule)) :
    Ensures Late (recvReqStep cfg w (.declineAll .schedule) n) (Closes cfg ctx w n) := by
  have hand : n.self.pc.hand = none := by rw [here]; rfl
  unfold recvReqStep
  split
  · next req reqs first =>
    obtain ⟨live, closes⟩ := idles.takes hand first
    rw [if_neg live]
    exact closes
  · split
    · exact idles.finds_nothing hand
    · exact idles.goes rfl rfl (by rw [hand]; rfl)

theorem Idles.looks_on (idles : Idles cfg ctx w n) {scan : List ℕ}
    (here : n.self.pc = .recvReqFor (.declineAll .schedule) scan) :
    Closes cfg ctx w n (recvReqForStep cfg w (.declineAll .schedule) scan n) := by
  have hand : n.self.pc.hand = none := by rw [here]; rfl
  cases scan with
  | nil => exact idles.finds_nothing hand
  | cons i rest =>
    simp only [recvReqForStep]
    split
    · next req reqs first => exact (idles.takes hand first).2
    · exact idles.goes rfl rfl (by rw [hand]; rfl)

/-- A request of the master is passed on. -/
theorem Idles.declines (idles : Idles cfg ctx w n)
    (here : n.self.pc = .handle (.declineAll .schedule) req) :
    Ensures Late (handleStep cfg o w (.declineAll .schedule) req n) (Closes cfg ctx w n) := by
  have hand : n.self.pc.hand = some req := by rw [here]; rfl
  have held := @ring_hand cfg ctx w n req hand
  obtain ⟨owner, -⟩ : req.token.owner = 0 ∧ req.token.state ≠ .failed :=
    idles.closing.leftover (.hand w, req.token) (by rw [held]; exact Multiset.mem_cons_self _ _)
  have foreign : req.ID ≠ w := fun own => idles.other (own ▸ owner)
  have room := room_of_hand idles.closing.card hand
  simp only [handleStep, declineStealRequest, foreign, ↓reduceIte, ensures_bind, ensures_check,
    ensures_pure]
  refine ⟨fun _ => ?_, fun _ => by simp [Late, Elsewhere]⟩
  refine Ensures.weaken ?_ fun which fault => .inl (.inl fault)
  refine (nextVictim_ensures cfg o.rand w n.self _).mono ?_
  rintro ⟨victim, passed⟩ ⟨target, victims, rfl⟩
  rw [sendReq_eq room target]
  have stays (m : Node) : declined .schedule m = m.goto (.recvTask .schedule 0) := by
    simp [declined]
  simp only [ensures_ok, stays]
  refine ⟨?_, ⟨?_, idles.queue⟩, ?_⟩
  · have empty : (Pc.recvTask .schedule 0).hand = none := rfl
    rw [ring_empty empty]
    simp only [Node.elsewhere, Node.goto, tokens_pushRequest target, Multiset.cons_add]
    refine idles.closing.moves held (by simp) (by simp) rfl (fun j some => ?_) rfl
    by_cases same : j = victim
    · exact same ▸ target
    · exact idles.closing.requests j (by simpa [Network.pushRequest, same] using some)
  · exact .waits idles.other idles.rested rfl rfl idles.requested
  · simp only [Node.custody, Node.goto, Worker.tasks, Pc.held_of_isIdle idles.idle]
    rfl

theorem Closing.wstep (closing : Closing cfg (n.ring cfg ctx w).tokens n.net)
    (worker : w < cfg.numWorkers) (leaves : Leaves cfg w n.self) (c : Choice) :
    Ensures Late (wstep cfg w c n) (Closes cfg ctx w n) := by
  obtain ⟨way, queue⟩ := leaves
  cases way with
  | out here =>
    rcases here with here | here | here
    · simp only [Runtime.wstep, here, ensures_bind, ensures_pure]
      refine (notifyChild_closes closing ⟨.out (.inl here), queue⟩ (fun v child => ?_)
        (by rw [here]; rfl) (by rw [here]; rfl) (.inl rfl)).mono
        fun n' closes => closes n'.self.taskingFinished n'.self.numTasksExec
      exact ((leftChild_eq_some cfg.someWorker).mp child).2
    · simp only [Runtime.wstep, here, ensures_bind, ensures_pure]
      refine (notifyChild_closes closing ⟨.out (.inr (.inl here)), queue⟩ (fun v child => ?_)
        (by rw [here]; rfl) (by rw [here]; rfl) (.inr rfl)).mono fun n' closes => closes true _
      exact ((rightChild_eq_some cfg.someWorker).mp child).2
    · simp only [Runtime.wstep, here, ensures_disabled]
  | told other rested here =>
    simp only [Runtime.wstep, here]
    exact told_closes closing ⟨.told other rested here, queue⟩ here rested
  | waits other rested idle site requested =>
    have idles : Idles cfg ctx w n := ⟨closing, other, worker, rested, requested, queue, idle⟩
    cases here : n.self.pc with
    | trySend k =>
      rw [here] at idle site
      cases k with
      | enter there =>
        obtain rfl : there = .schedule := Option.some.inj site
        simp only [Runtime.wstep, here]
        exact idles.enters here
      | failed there =>
        obtain rfl : there = .schedule := Option.some.inj site
        simp only [Runtime.wstep, here]
        exact idles.fails here
      | again _ | early _ _ => cases idle
    | recvTask there i =>
      rw [here] at site
      obtain rfl : there = .schedule := Option.some.inj site
      simp only [Runtime.wstep, here]
      exact idles.receives here
    | recvReq k =>
      rw [here] at idle site
      cases k with
      | declineAll there =>
        obtain rfl : there = .schedule := Option.some.inj site
        simp only [Runtime.wstep, here]
        exact idles.looks here
      | push | poll | pop _ _ | force _ => cases idle
    | recvReqFor k scan =>
      rw [here] at idle site
      cases k with
      | declineAll there =>
        obtain rfl : there = .schedule := Option.some.inj site
        simp only [Runtime.wstep, here]
        exact idles.looks_on here
      | push | poll | pop _ _ | force _ => cases idle
    | handle k req =>
      rw [here] at idle site
      cases k with
      | declineAll there =>
        obtain rfl : there = .schedule := Option.some.inj site
        simp only [Runtime.wstep, here]
        exact idles.declines here
      | push | poll | pop _ _ | force _ => cases idle
    | user | pop _ | shareWork _ | peekReq _ | forceReady _ _ | barrierExit | exitLeft | exitRight
    | finished =>
      rw [here] at idle
      cases idle

end Steps

/-! ## Runs -/

section Runs

variable {cfg : Config} {s : State} {w : ℕ} {n : Node}

/-- What holds of every state after `RT_EXIT`. -/
structure Closed (cfg : Config) (s : State) : Prop where
  closing : Closing cfg (s.ring cfg).tokens s.net
  leaves : ∀ w < cfg.numWorkers, Leaves cfg w (s.workers w)
  custody : Custody.system.Reachable (s.custody cfg)

theorem Closed.ensures (closed : Closed cfg s) (worker : w < cfg.numWorkers) (c : Choice) :
    Ensures Late (wstep cfg w c (s.node w)) (Closes cfg (s.context cfg w) w (s.node w)) :=
  Closing.wstep (ring_node (s := s) worker ▸ closed.closing) worker (closed.leaves w worker) c

theorem Closed.faults (closed : Closed cfg s) {which : Fault} (fault : Faults cfg s which) :
    Late which := by
  obtain ⟨w, worker, c, ran⟩ := fault
  exact (closed.ensures worker c).tolerates ran

theorem Closed.step (closed : Closed cfg s) (worker : w < cfg.numWorkers) {c : Choice}
    (moved : wstep cfg w c (s.node w) = .ok n) : Closed cfg (s.put w n) := by
  obtain ⟨closing, leaves, custody⟩ := (closed.ensures worker c).value moved
  refine ⟨?_, fun v inside => ?_, ?_⟩
  · rw [ring_put worker]
    exact closing
  · by_cases same : v = w
    · subst same
      simpa [State.put] using leaves
    · simpa [State.put, same] using closed.leaves v inside
  · rw [custody_put worker, custody, ← custody_node worker]
    exact closed.custody

theorem ring_queue_split (ctx : Context) (w : ℕ) (n : Node) : (n.ring cfg ctx w).tokens =
    (n.self.workSharingRequests.map StealRequest.token : Multiset Token).map
      (Prod.mk (.queue w)) + (n.net.tokens cfg + located (.hand w) n.self.pc.hand.toList +
        ctx.tokens) := by
  simp only [Node.ring, Worker.tokens, located_eq (.queue w)]
  abel

/-- The requests a worker holds on to are at most two. -/
theorem Refines.queue_length (ok : Refines cfg s) (worker : w < cfg.numWorkers) :
    (s.workers w).workSharingRequests.length ≤ 2 := by
  have inv := TokenProtocol.reachable_inv cfg.someSteal ok.ring
  rw [ring_node worker] at inv
  simpa [State.node] using inv.queue_card (ring_queue_split (s.context cfg w) w (s.node w))

/-- In a quiescent state every request outside the queues is the master's. -/
theorem Refines.leftover (ok : Refines cfg s) (idle : ∀ side, (s.workers 0).flag side = true) :
    ∀ e ∈ (s.ring cfg).tokens, Leftover e := by
  have inv := TokenProtocol.reachable_inv cfg.someSteal ok.ring
  rintro ⟨p, r⟩ member
  have masters (away : ∀ q, p ≠ .queue q) : r.owner = 0 ∧ r.state ≠ .failed := by
    have owner : r.owner = 0 := by
      by_contra other
      obtain ⟨waiting, q, held, queued, same⟩ :=
        inv.all_wait cfg.someWorker idle (inv.token_owner_lt member) other
      -- The only token of a waiting worker is with its parent.
      obtain ⟨rest, shape⟩ := Multiset.exists_cons_of_mem member
      rw [shape] at queued
      rcases Multiset.mem_cons.mp queued with here | inRest
      · exact away q (congrArg Prod.fst here).symm
      · exact (inv.no_other shape waiting).1 _ _ inRest same
    refine ⟨owner, fun failed => ?_⟩
    obtain ⟨q, climbs, -⟩ := inv.failed_place p r member failed
    rw [owner] at climbs
    cases climbs
  cases p with
  | queue q => exact inv.queue_failed q r member
  | channel _ | hand _ => exact masters nofun

/-- A worker that waits is in `schedule`, with nothing to do. -/
theorem Refines.waits (ok : Refines cfg s) (worker : w < cfg.numWorkers)
    (waiting : (s.workers w).waitingForTasks = true) : w ≠ 0 ∧ (s.workers w).deque = [] ∧
      (s.workers w).frames = [] ∧ (s.workers w).pc.isIdle = true ∧
      (s.workers w).pc.site = some .schedule ∧ (s.workers w).requested = cfg.maxSteal := by
  have inv := TokenProtocol.reachable_inv cfg.someSteal ok.ring
  obtain ⟨other, -⟩ := inv.waits w waiting
  obtain ⟨busy, requested, -⟩ := (inv.account w worker).waits waiting
  have idle : (s.workers w).pc.isIdle = true := by simpa [State.ring, Worker.agent] using busy
  have loc := ok.loc w worker
  have siteOk := loc.site
  have site : (s.workers w).pc.site = some .schedule := by
    obtain ⟨site, here, siteIdle⟩ := Pc.site_of_isIdle idle
    rw [show (s.workers w).loc.pc.site = some site from here] at siteOk
    cases site with
    | schedule => exact here
    | barrier => exact absurd siteOk.1 other
    | force f => cases siteIdle
  rw [show (s.workers w).loc.pc.site = some .schedule from site] at siteOk
  exact ⟨other, loc.idle_empty idle, List.map_eq_nil_iff.mp siteOk.2, idle, site, requested⟩

theorem Exits.custody {ctx : Context} {n' : Node} (exits : Exits w n n') :
    n'.custody cfg ctx w = n.custody cfg ctx w := by
  obtain ⟨-, here, -, -, -, rfl⟩ := exits
  simp only [Node.custody, Node.goto, Worker.tasks, here]
  rfl

/-- With `RT_EXIT` the last phase begins. -/
theorem Refines.exits (ok : Refines cfg s) (exits : Exits w (s.node w) n) :
    Closed cfg (s.put w n) := by
  have worker := cfg.someWorker
  have custody : (s.put w n).custody cfg = s.custody cfg := by
    rw [custody_put (exits.master ▸ worker), exits.custody,
      custody_node (exits.master ▸ worker : w < cfg.numWorkers)]
  obtain ⟨rfl, here, -, idle, quiescent, after⟩ := exits
  have inv := TokenProtocol.reachable_inv cfg.someSteal ok.ring
  have busy : (s.workers 0).pc = .user := here
  have self : n.self = { s.workers 0 with pc := .exitLeft } := by rw [after]; rfl
  have net : n.net = { s.net with exiting := true } := by rw [after]; rfl
  have tokens : ((s.put 0 n).ring cfg).tokens = (s.ring cfg).tokens := by
    rw [ring_put worker, ring_node worker]
    simp only [Node.ring, self, net, State.node, Worker.tokens, busy]
    rfl
  refine ⟨?_, fun v inside => ?_, custody ▸ ok.custody⟩
  · rw [tokens, show (s.put 0 n).net = _ from net]
    refine ⟨rfl, inv.card_tokens_le, ok.leftover idle, ok.net.requests, ?_⟩
    intro v c message other slot
    -- All messages of the protocol have been received.
    obtain ⟨inside, chan, batch, state, -, rfl⟩ := ok.net.slots v c message slot
    have none := (inv.quiet (by omega) quiescent).2.2
    have answer : (⟨v, c, state⟩ : Token) ∈ (s.ring cfg).answers :=
      mem_answers.mpr ⟨batch, inside, chan, slot⟩
    simp [none] at answer
  · by_cases master : v = 0
    · subst master
      refine ⟨.out (.inl ?_), ?_⟩
      · simp [State.put, self]
      · simpa [State.put, self] using ok.queue_length worker
    · have waiting := (inv.all_wait worker idle inside master).1
      obtain ⟨-, deque, frames, isIdle, site, requested⟩ := ok.waits inside waiting
      rw [State.put_other n master]
      exact ⟨.waits master ⟨deque, frames⟩ isIdle site requested, ok.queue_length inside⟩

/-- Every state of a run is before `RT_EXIT`, and refines the protocols, or after
it, when everybody leaves. -/
theorem reachable_cases (reached : (system cfg).Reachable s) : Refines cfg s ∨ Closed cfg s := by
  refine @Transition.System.Reachable.invariant _ (system cfg)
    (fun s => Refines cfg s ∨ Closed cfg s) ?_ ?_ s reached
  · rintro s rfl
    exact .inl (.init cfg)
  · rintro s s' - before ⟨w, worker, c, n, moved, rfl⟩
    rcases before with ok | closed
    · exact (ok.step worker moved).elim (fun exits => .inr (ok.exits exits)) .inl
    · exact .inr (closed.step worker moved)

/-- Before `RT_EXIT` a run refines the protocols. -/
theorem reachable_refines (reached : (system cfg).Reachable s) (running : s.net.exiting = false) :
    Refines cfg s :=
  (reachable_cases reached).resolve_right fun closed => by
    simp [closed.closing.exiting] at running

end Runs

end Tasking.Runtime
