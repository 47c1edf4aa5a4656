import Tasking.RequestSimulation

/-! Receiving requests, for oneself and for workers that have backed off, and the
lifelines: a parent holds on to the last request of a child that gave up, and
serves it when it has work again. -/
namespace Tasking.Runtime
open Fallible Family TokenProtocol Custody WorkerTree Function

/-! ## The flags of the two subtrees -/

/-- A worker after it set the flag of one subtree and changed its queue. -/
def Worker.setLifeline (x : Worker) (value : Bool) (queue : List StealRequest) : Side → Worker
  | .left => { x with leftSubtreeIsIdle := value, workSharingRequests := queue }
  | .right => { x with rightSubtreeIsIdle := value, workSharingRequests := queue }

section Flags

variable {cfg : Config} {x : Worker} {side : Side} {value : Bool} {ID c : ℕ} {req : StealRequest}
  {queue : List StealRequest}

theorem setLifeline_flag :
    (x.setLifeline value queue side).flag = update x.flag side value := by
  funext other
  cases side <;> cases other <;> rfl

theorem setLifeline_loc : (x.setLifeline value queue side).loc =
    { x.loc with flag := update x.flag side value } := by
  rw [← @setLifeline_flag x side value queue]
  cases side <;> rfl

theorem setLifeline_agent : (x.setLifeline value queue side).agent =
    { x.agent with idle := update x.agent.idle side value } := by
  have same : x.agent.idle = x.flag := rfl
  rw [same, ← @setLifeline_flag x side value queue]
  cases side <;> rfl

@[simp] theorem setLifeline_queue :
    (x.setLifeline value queue side).workSharingRequests = queue := by
  cases side <;> rfl

@[simp] theorem setLifeline_pc : (x.setLifeline value queue side).pc = x.pc := by
  cases side <;> rfl

@[simp] theorem setLifeline_quiescent : (x.setLifeline value queue side).quiescent =
    x.quiescent := by
  cases side <;> rfl

@[simp] theorem setLifeline_tasks (w : ℕ) :
    (x.setLifeline value queue side).tasks w = x.tasks w := by
  cases side <;> rfl

theorem leftChild_eq_child (exist : child ID .left < cfg.numWorkers) :
    cfg.leftChild ID = some (child ID .left) :=
  (leftChild_eq_some cfg.someWorker).mpr ⟨rfl, exist⟩

theorem rightChild_eq_child (exist : child ID .right < cfg.numWorkers) :
    cfg.rightChild ID = some (child ID .right) :=
  (rightChild_eq_some cfg.someWorker).mpr ⟨rfl, exist⟩

theorem leftChild_ne_right : cfg.leftChild ID ≠ some (child ID .right) := by
  intro same
  have shape := ((leftChild_eq_some cfg.someWorker).mp same).1
  simp only [child] at shape
  omega

theorem isChild_child (exist : child ID side < cfg.numWorkers) :
    isChild cfg ID (child ID side) = true := by
  cases side with
  | left => simp [isChild, leftChild_eq_child exist]
  | right => simp [isChild, rightChild_eq_child exist]

theorem clearLifeline_eq (exist : child ID side < cfg.numWorkers) (flag : x.flag side = true) :
    clearLifeline cfg ID (child ID side) x =
      .ok (x.setLifeline false x.workSharingRequests.tail side) := by
  cases side with
  | left =>
    have idle : x.leftSubtreeIsIdle = true := flag
    simp only [clearLifeline, leftChild_eq_child exist, ↓reduceIte, check, idle]
    rfl
  | right =>
    have idle : x.rightSubtreeIsIdle = true := flag
    simp only [clearLifeline, leftChild_ne_right, ↓reduceIte, check, idle]
    rfl

theorem holdOn_eq (below : req.ID = child ID side) (exist : child ID side < cfg.numWorkers)
    (flag : x.flag side = false) (room : x.workSharingRequests.length < 2) :
    holdOn cfg ID req x = .ok (x.setLifeline true (x.workSharingRequests ++ [req]) side) := by
  cases side with
  | left =>
    have awake : x.leftSubtreeIsIdle = false := flag
    simp only [holdOn, below, isChild_child exist, leftChild_eq_child exist, ↓reduceIte, check,
      awake, Bool.not_false]
    simp only [bind, Except.bind, pure, Except.pure, ne_eq, room.ne, not_false_eq_true, ↓reduceIte]
    rfl
  | right =>
    have awake : x.rightSubtreeIsIdle = false := flag
    simp only [holdOn, below, isChild_child exist, leftChild_ne_right, ↓reduceIte, check,
      awake, Bool.not_false]
    simp only [bind, Except.bind, pure, Except.pure, ne_eq, room.ne, not_false_eq_true, ↓reduceIte]
    rfl

end Flags

section Lifelines

variable {cfg : Config} {ctx : Context} {w : ℕ} {n n' : Node} {req : StealRequest}
  {reqs : List StealRequest} {side : Side} {o : Oracle} {k : ReqCont} {i : ℕ}

theorem LocalOk.withFlag {ID : ℕ} {l : Local} {flag : Side → Bool} (ok : LocalOk cfg ID l)
    (scan : l.pc.scanOk cfg ID flag) : LocalOk cfg ID { l with flag := flag } :=
  ⟨ok.site, ok.stack, ok.declining, ok.idle_empty, ok.found_nothing, scan, ok.alone, ok.waits,
    ok.in_wait, ok.quiescent_master, ok.quiescent_empty, ok.leaves_quiescent, ok.stays,
    ok.unfinished, ok.awaiting, ok.recv_index⟩

/-! ## Serving a child -/

theorem ring_queue (hand : n.self.pc.hand = none)
    (queue : n.self.workSharingRequests = req :: reqs) :
    (n.ring cfg ctx w).tokens = (.queue w, req.token) ::ₘ
      (n.net.tokens cfg + located (.queue w) reqs + ctx.tokens) := by
  rw [ring_empty hand, Node.elsewhere, queue, located_cons, Multiset.add_cons, Multiset.cons_add]

/-- The child whose request is first in the queue was served. -/
theorem Gives.shared (pre : Pre cfg ctx w n) (gives : Gives cfg ctx w req.token n n')
    {k : ShareCont} (here : n.self.pc = .shareWork k)
    (queue : n.self.workSharingRequests = req :: reqs) (below : req.token.owner = child w side)
    (nothing : n.self.pc.foundNothing = true → n'.self.deque = []) :
    Simulated cfg ctx w n { n' with
      self := n'.self.setLifeline false n'.self.workSharingRequests.tail side } := by
  obtain ⟨sent, custody, agent, queue', loc, awake⟩ := gives
  have hand : n.self.pc.hand = none := by rw [here]; rfl
  have busy : n.self.pc.isIdle = false := by rw [here]; rfl
  have notWaiting := pre.not_waiting busy
  have pc : n'.self.pc = n.self.pc := congrArg Local.pc loc
  have quiescent : n'.self.quiescent = n.self.quiescent := congrArg Local.quiescent loc
  have flags : n'.self.flag = n.self.flag := congrArg Local.flag loc
  have setLoc : (n'.self.setLifeline false n'.self.workSharingRequests.tail side).loc =
      { n.self.loc with
        deque := n'.self.deque, flag := update n.self.flag side false } := by
    rw [setLifeline_loc, loc, flags]
  refine ⟨?_, ?_, ?_, sent.ok, ?_, fun v _ c => sent.slots v c⟩
  · refine tokenStep_to (.share pre.worker (ring_queue hand queue) below ?_ ?_)
      (agents_set ?_) ?_ ?_ sent.answers
    · simp [Worker.agent, busy]
    · intro master
      simp [Node.ring, master, awake]
    · rw [setLifeline_agent, agent, ring_agent]
    · simp only [Node.ring, setLifeline_quiescent, quiescent]
      rfl
    · rw [ring_empty (by simp [pc, hand])]
      simp only [Node.elsewhere, sent.tokens, setLifeline_queue, queue', queue, List.tail_cons]
  · have same : Node.custody cfg ctx w { n' with
        self := n'.self.setLifeline false n'.self.workSharingRequests.tail side } =
        n'.custody cfg ctx w := by
      simp only [Node.custody, setLifeline_tasks]
    rw [same]
    exact custody
  · rw [setLoc]
    have plain : n.self.pc.plain = true := by
      have stays := pre.loc.stays
      have before : n.self.loc.pc = .shareWork k := here
      rw [before] at stays
      rw [here]
      cases k <;> first | rfl | cases stays
    have scan : n.self.pc.scanOk cfg w (update n.self.flag side false) := by
      rw [here]
      trivial
    refine pre.loc.goPlain ⟨plain, nothing, scan, ?_⟩ pre.loc.site rfl notWaiting ?_
    · intro site i receives
      exact absurd (here.symm.trans receives) (by simp)
    · intro quiet
      exact absurd (quiet.symm.trans awake) (by simp)
  · rw [setLoc]
    exact pre.depends.goPlain notWaiting rfl sent.known sent.futures

/-- The first request in the queue: it is the last request of a child that gave
up, and the child's flag is set. -/
theorem Pre.queued (pre : Pre cfg ctx w n) (hand : n.self.pc.hand = none)
    (queue : n.self.workSharingRequests = req :: reqs) :
    (.queue w, req.token) ∈ (n.ring cfg ctx w).tokens ∧ req.state = .failed ∧
      ∃ side, req.ID = child w side ∧ child w side < cfg.numWorkers ∧ n.self.flag side = true := by
  have member : (Place.queue w, req.token) ∈ (n.ring cfg ctx w).tokens := by
    rw [ring_queue hand queue]
    exact Multiset.mem_cons_self _ _
  obtain ⟨side, owner⟩ := pre.tokens.queue_child member
  have exist := pre.tokens.token_owner_lt member
  rw [owner] at exist
  have flag := (pre.tokens.lifeline w pre.worker side).mpr (.inr ⟨_, member, owner⟩)
  refine ⟨member, pre.tokens.queue_failed _ _ member, side, owner, exist, ?_⟩
  simpa [Worker.agent] using flag

/-- One round of `share_work`: a child was served, or nothing happened. -/
theorem Pre.shareRound (pre : Pre cfg ctx w n) {k : ShareCont} (here : n.self.pc = .shareWork k) :
    Ensures Elsewhere (shareRound cfg o w n) fun out =>
      if out.1 then Simulated cfg ctx w n out.2 else out.2 = n := by
  have hand : n.self.pc.hand = none := by rw [here]; rfl
  unfold Runtime.shareRound
  split
  · rfl
  · next req reqs queue =>
    obtain ⟨member, failed, side, below, exist, flag⟩ := pre.queued hand queue
    have other : req.ID ≠ w := by
      rw [below]
      cases side <;> simp only [child] <;> omega
    have served {n' : Node} (gives : Gives cfg ctx w req.token n n')
        (nothing : n.self.pc.foundNothing = true → n'.self.deque = []) :
        Ensures Elsewhere (clearLifeline cfg w req.ID n'.self) fun x =>
          Simulated cfg ctx w n { n' with self := x } := by
      have flag' : n'.self.flag side = true := by
        have same : n'.self.flag = n.self.flag := congrArg Local.flag gives.loc
        rw [same, flag]
      rw [below, clearLifeline_eq exist flag']
      exact gives.shared pre here queue below nothing
    have childOk : isChild cfg w req.ID = true := by
      rw [below]
      exact isChild_child exist
    simp only [ensures_bind, ensures_check, childOk, forall_const, not_true_eq_false,
      false_imp_iff, and_true]
    unfold handle
    split
    · next some =>
      simp only [handleStealRequest, other, ↓reduceIte, some, ensures_bind, ensures_pure]
      refine (served (loot_gives pre member other some) ?_).mono fun x sim => sim
      exact fun nothing => absurd (pre.loc.found_nothing nothing) some
    · next none =>
      split
      · next this splits =>
        have frames : n.self.frames ≠ [] := by
          intro empty
          simp [Worker.currentTask, empty] at splits
        simp only [ensures_bind]
        refine (splitLoop_ensures other).mono ?_
        rintro ⟨split, n'⟩ out
        have gives := split_gives pre member other out (shortenCurrent_alike _ split)
          (.inr (.inl frames))
        simp only [ensures_pure, ↓reduceIte, ensures_bind]
        refine (served gives fun nothing => ?_).mono fun x sim => sim
        have deque : (n'.self.shortenCurrent split).deque = n.self.deque :=
          (out.self.trans (shortenCurrent_alike _ split)).deque
        simp only [deque]
        exact pre.loc.found_nothing nothing
      · simp only [ensures_bind, ensures_check, childOk, ensures_pure]
        exact ⟨fun _ => rfl, fun wrong => absurd trivial wrong⟩

/-! ## Receiving a request -/

theorem located_eq (p : Place) (reqs : List StealRequest) :
    located p reqs = (reqs.map StealRequest.token : Multiset Token).map (Prod.mk p) := by
  rw [Multiset.map_coe, List.map_map]
  rfl

theorem ring_channel (hand : n.self.pc.hand = none) (inside : i < cfg.numWorkers)
    (first : n.net.chanRequests i = req :: reqs) :
    (n.ring cfg ctx w).tokens = (.channel i, req.token) ::ₘ
      ((n.net.dropRequest i).tokens cfg + located (.queue w) n.self.workSharingRequests +
        ctx.tokens) := by
  rw [ring_empty hand, Node.elsewhere, tokens_dropRequest inside first, Multiset.cons_add,
    Multiset.cons_add]

/-- A parent receives the request of a child that gave up. -/
theorem Pre.adopts (pre : Pre cfg ctx w n) (here : n.self.pc = .recvReq k)
    (first : n.net.chanRequests w = req :: reqs) (failed : req.state = .failed) :
    Ensures Elsewhere (holdOn cfg w req n.self) fun x =>
      Simulated cfg ctx w n ⟨x, n.net.dropRequest w⟩ := by
  have hand : n.self.pc.hand = none := by rw [here]; rfl
  have held := @ring_channel cfg ctx w _ _ _ _ hand pre.worker first
  have member : (Place.channel w, req.token) ∈ (n.ring cfg ctx w).tokens := by
    rw [held]
    exact Multiset.mem_cons_self _ _
  obtain ⟨q, climbs, place⟩ := pre.tokens.failed_place _ _ member failed
  obtain rfl : w = q := by
    rcases place with same | same <;> cases same
    rfl
  obtain ⟨side, below⟩ := exists_child climbs
  have exist := pre.tokens.token_owner_lt member
  rw [below] at exist
  have flag : n.self.flag side = false := by
    by_contra idle
    have idle : ((n.ring cfg ctx w).agent w).idle side = true := by
      simpa [Worker.agent] using idle
    obtain ⟨-, other, queued, owner⟩ := pre.tokens.flagged_child pre.worker exist idle
    rw [held] at queued
    rcases Multiset.mem_cons.mp queued with wrong | inRest
    · cases wrong
    · exact (pre.tokens.no_other held (pre.tokens.failed_waits member failed)).1 _ _ inRest
        (owner.trans below.symm)
  have step := TokenProtocol.Step.adopt (M := cfg.maxSteal) pre.worker held failed below
  have room : n.self.workSharingRequests.length < 2 := by
    have shape : (Place.queue w, req.token) ::ₘ ((n.net.dropRequest w).tokens cfg +
        located (.queue w) n.self.workSharingRequests + ctx.tokens) =
        (req.token ::ₘ (n.self.workSharingRequests.map StealRequest.token : Multiset Token)).map
          (Prod.mk (.queue w)) + ((n.net.dropRequest w).tokens cfg + ctx.tokens) := by
      rw [located_eq, Multiset.map_cons, Multiset.cons_add]
      congr 1
      abel
    have bound := (pre.tokens.step step).queue_card shape
    simp only [Multiset.card_cons, Multiset.coe_card, List.length_map] at bound
    omega
  rw [holdOn_eq below exist flag room]
  refine ⟨?_, ?_, ?_, pre.net.dropRequest, ?_, fun _ _ _ some => some⟩
  · refine tokenStep_to step (agents_set ?_) ?_ ?_ rfl
    · rw [setLifeline_agent, ring_agent]
    · simp only [Node.ring, setLifeline_quiescent]
      rfl
    · rw [ring_empty (by simp [hand])]
      simp only [Node.elsewhere, setLifeline_queue, located_concat, Multiset.add_cons,
        Multiset.cons_add]
  · have same : Node.custody cfg ctx w
        ⟨n.self.setLifeline true (n.self.workSharingRequests ++ [req]) side, n.net.dropRequest w⟩ =
        n.custody cfg ctx w := by
      simp only [Node.custody, setLifeline_tasks]
      rfl
    rw [same]
  · rw [setLifeline_loc]
    refine pre.loc.withFlag ?_
    have before : n.self.loc.pc = .recvReq k := here
    rw [before]
    trivial
  · rw [setLifeline_loc]
    exact ⟨pre.depends.futures, pre.depends.woken⟩

theorem received_eq (ID : ℕ) (k : ReqCont) (req : StealRequest) (n : Node) :
    ∃ req', received ID k req n = n.goto (.handle k req') ∧ (req' = req ∨
      (∃ site, k = .declineAll site) ∧ req.ID = ID ∧ req.state = .working ∧
        req' = { req with state := .idle }) := by
  unfold received
  split
  · next site =>
    split
    · next own => exact ⟨_, rfl, .inr ⟨⟨site, rfl⟩, own.1, own.2, rfl⟩⟩
    · exact ⟨req, rfl, .inl rfl⟩
  · exact ⟨req, rfl, .inl rfl⟩

/-- A worker receives a request, from its own channel or on behalf of another
worker. -/
theorem Pre.receives (pre : Pre cfg ctx w n) (here : n.self.pc.request = some k)
    (hand : n.self.pc.hand = none) (first : n.net.chanRequests i = req :: reqs)
    (live : req.state ≠ .failed) :
    Simulated cfg ctx w n (received w k req { n with net := n.net.dropRequest i }) := by
  have inside : i < cfg.numWorkers := pre.net.requests i (by simp [first])
  obtain ⟨req', shape, promoted⟩ := received_eq w k req { n with net := n.net.dropRequest i }
  have facts := Pc.request_facts here
  have facts' := Pc.request_facts (show (Pc.handle k req').request = some k from rfl)
  have idle : (Pc.handle k req').isIdle = n.self.pc.isIdle := facts'.1.trans facts.1.symm
  have held : (Pc.handle k req').held = n.self.pc.held := facts'.2.2.1.trans facts.2.2.1.symm
  have promotes : Promotes (n.ring cfg ctx w) w req.token req'.token := by
    rcases promoted with rfl | ⟨⟨site, rfl⟩, own, working, rfl⟩
    · exact .inl rfl
    · refine .inr ⟨own, working, ?_, rfl⟩
      have isIdle : n.self.pc.isIdle = true := facts.1.trans (facts.2.2.2.2.1.mp pre.loc.declining)
      simp [Worker.agent, isIdle]
  rw [shape]
  refine Simulated.disposed (pre.request_moves here rfl trivial) held ?_ rfl rfl rfl
    pre.net.dropRequest
  refine tokenStep_to (.take (ring_channel hand inside first) live promotes) ?_ rfl ?_ rfl
  · simp only [Node.ring, Node.goto, Worker.agent, idle]
    rfl
  · rw [ring_hand rfl]
    rfl

theorem onBehalf_scanOk (cfg : Config) (ID : ℕ) (x : Worker) (k : ReqCont) :
    (Pc.recvReqFor k (onBehalf cfg ID x)).scanOk cfg ID x.flag := by
  intro i member
  simp only [onBehalf, List.mem_append] at member
  rcases member with left | right
  · cases exist : cfg.leftChild ID with
    | none => simp [exist] at left
    | some c =>
      obtain ⟨rfl, inside⟩ := (leftChild_eq_some cfg.someWorker).mp exist
      simp only [exist] at left
      split at left
      · next idle =>
        obtain ⟨small, below⟩ := levelWalk_below cfg.someWorker left
        exact ⟨small, .left, idle, inside, below⟩
      · cases left
  · cases exist : cfg.rightChild ID with
    | none => simp [exist] at right
    | some c =>
      obtain ⟨rfl, inside⟩ := (rightChild_eq_some cfg.someWorker).mp exist
      simp only [exist] at right
      split at right
      · next idle =>
        obtain ⟨small, below⟩ := levelWalk_below cfg.someWorker right
        exact ⟨small, .right, idle, inside, below⟩
      · cases right

/-- A request received on behalf of another worker is not the last one of a child
of that worker. -/
theorem Pre.behalf_live (pre : Pre cfg ctx w n) {scan : List ℕ}
    (here : n.self.pc = .recvReqFor k (i :: scan)) (first : n.net.chanRequests i = req :: reqs) :
    req.state ≠ .failed := by
  have scanOk : (Pc.recvReqFor k (i :: scan)).scanOk cfg w n.self.flag := by
    have := pre.loc.scan
    have before : n.self.loc.pc = .recvReqFor k (i :: scan) := here
    rwa [before] at this
  obtain ⟨inside, side, flag, -, below⟩ := scanOk i List.mem_cons_self
  have idle : ((n.ring cfg ctx w).agent w).idle side = true := by
    simpa [Worker.agent] using flag
  have waiting := pre.tokens.subtree_waits pre.worker idle inside below
  have hand : n.self.pc.hand = none := by rw [here]; rfl
  refine pre.tokens.channel_live waiting (r := req.token) ?_
  rw [ring_channel hand inside first]
  exact Multiset.mem_cons_self _ _

/-- Moving on without touching anything, inside a loop over requests. -/
theorem Pre.scans (pre : Pre cfg ctx w n) {pc : Pc} (here : n.self.pc.request = some k)
    (there : pc.request = some k) (hand : pc.hand = n.self.pc.hand)
    (scan : pc.scanOk cfg w n.self.flag) :
    Simulated cfg ctx w n (n.goto pc) := by
  have facts := Pc.request_facts here
  have facts' := Pc.request_facts there
  refine Simulated.disposed (pre.request_moves here there scan)
    (facts'.2.2.1.trans facts.2.2.1.symm) ?_ rfl rfl rfl pre.net
  rw [ring_goto hand (facts'.1.trans facts.1.symm)]

end Lifelines

end Tasking.Runtime
