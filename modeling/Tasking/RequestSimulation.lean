import Tasking.SimulationRules

/-! Handling a request that a worker has in its hand, or holds on to for a child:
every way this can go is a step of the protocols. -/
namespace Tasking.Runtime
open Fallible Family TokenProtocol Custody WorkerTree

section Handling

variable {cfg : Config} {ctx : Context} {w : ℕ} {n n' : Node} {req : StealRequest}
  {k k' : ReqCont} {o : Oracle} {site : Site} {pc : Pc}

/-- The loop over requests a program point is in. -/
def Pc.request : Pc → Option ReqCont
  | .recvReq k | .recvReqFor k _ | .handle k _ => some k
  | _ => none

/-- All program points of such a loop look the same from outside. -/
theorem Pc.request_facts (here : pc.request = some k) :
    pc.isIdle = (Pc.recvReq k).isIdle ∧ pc.site = k.site ∧ pc.held = (Pc.recvReq k).held ∧
      pc.foundNothing = (Pc.recvReq k).foundNothing ∧ (pc.declining ↔ (Pc.recvReq k).declining) ∧
      pc.mayWait = false ∧ pc.leaving = false ∧ pc ≠ .barrierExit ∧
      ∀ site i, pc ≠ .recvTask site i := by
  cases pc with
  | recvReq k' =>
    cases here
    exact ⟨rfl, rfl, rfl, rfl, Iff.rfl, rfl, rfl, by simp, by simp⟩
  | recvReqFor k' scan | handle k' req =>
    cases here
    cases k with
    | pop site task => cases task <;> exact ⟨rfl, rfl, rfl, rfl, Iff.rfl, rfl, rfl, by simp,
    by simp⟩
    | push | poll | declineAll _ | force _ =>
      exact ⟨rfl, rfl, rfl, rfl, Iff.rfl, rfl, rfl, by simp, by simp⟩
  | user | pop _ | shareWork _ | peekReq _ | trySend _ | recvTask _ _ | forceReady _ _ | barrierExit
  | exitLeft | exitRight | finished => cases here

theorem Pre.request_moves (pre : Pre cfg ctx w n) (here : n.self.pc.request = some k)
    (there : pc.request = some k) (scan : pc.scanOk cfg w n.self.flag) :
    LocalOk cfg w (n.goto pc).self.loc ∧ Depends cfg w (n.goto pc).self.loc n.net := by
  obtain ⟨idle, site, held, found, declining, mayWait, -, -, notRecv⟩ := Pc.request_facts here
  obtain ⟨idle', site', held', found', declining', -, stays, notExit, notRecv'⟩ :=
    Pc.request_facts there
  have awaiting : (n.goto pc).self.loc.awaiting = n.self.loc.awaiting :=
    awaiting_goto (l := n.self.loc) (congrArg Site.futures (site'.trans site.symm))
  have ok := pre.loc
  constructor
  · refine ⟨?_, ok.stack, declining'.mpr (declining.mp ok.declining), ?_, ?_, scan, ?_, ?_, ?_,
      ok.quiescent_master, ?_, fun leaves => absurd leaves notExit, stays, ok.unfinished, ?_,
      fun site i receives => absurd receives (notRecv' site i)⟩
    · have := ok.site
      rwa [show n.self.loc.pc.site = pc.site from site.trans site'.symm] at this
    · exact fun now => ok.idle_empty (idle.trans (idle'.symm.trans now))
    · exact fun now => ok.found_nothing (found.trans (found'.symm.trans now))
    · exact fun single => idle'.trans (idle.symm.trans (ok.alone single))
    · intro waiting backoff
      exact absurd ((ok.waits waiting backoff).symm.trans mayWait) (by simp)
    · intro inWait
      exact absurd (ok.in_wait inWait).2.2 (notRecv _ _)
    · intro quiescent several
      obtain ⟨deque, rets, none⟩ := ok.quiescent_empty quiescent several
      exact ⟨deque, rets, held'.trans (held.symm.trans none)⟩
    · rw [awaiting]
      exact ok.awaiting
  · refine ⟨fun f member => pre.depends.futures f (awaiting ▸ member), ?_⟩
    intro backoff waiting inWait
    obtain ⟨i, receives, -⟩ := pre.depends.woken backoff waiting inWait
    exact absurd receives (notRecv _ _)

theorem plain_recvReq (busy : ∀ site, k ≠ .declineAll site) : (Pc.recvReq k).plain = true := by
  cases k with
  | declineAll site => exact absurd rfl (busy site)
  | push | poll | pop _ _ | force _ => rfl

theorem handle_isIdle (busy : ∀ site, k ≠ .declineAll site) : (Pc.handle k req).isIdle = false := by
  cases k with
  | declineAll site => exact absurd rfl (busy site)
  | push | poll | pop _ _ | force _ => rfl

/-! ## Outside the idle loops -/

/-- The request in hand was answered with tasks. -/
theorem Gives.answered (pre : Pre cfg ctx w n) (gives : Gives cfg ctx w req.token n n')
    (here : n.self.pc = .handle k req) (busy : ∀ site, k ≠ .declineAll site)
    (busy' : ∀ site, k' ≠ .declineAll site) (site : k'.site = k.site)
    (held : tagsOf (Pc.recvReq k').held.toList = tagsOf n.self.pc.held.toList)
    (nothing : (Pc.recvReq k').foundNothing = true → n'.self.deque = []) :
    Simulated cfg ctx w n (n'.goto (.recvReq k')) := by
  obtain ⟨sent, custody, agent, queue, loc, awake⟩ := gives
  have hand : n.self.pc.hand = some req := by rw [here]; rfl
  have isBusy : n.self.pc.isIdle = false := by
    rw [here]
    exact handle_isIdle busy
  have notIdle : (Pc.recvReq k').isIdle = false := (Pc.plain_facts (plain_recvReq busy')).1
  have pc : n'.self.pc = n.self.pc := congrArg Local.pc loc
  have quiescent : n'.self.quiescent = n.self.quiescent := congrArg Local.quiescent loc
  have sameSite : (Pc.recvReq k').site = n.self.pc.site := by
    rw [here]
    exact site
  have moved : (n'.goto (.recvReq k')).self.loc =
      { n.self.loc with pc := .recvReq k', deque := n'.self.deque } :=
    congrArg (fun l : Local => { l with pc := .recvReq k' }) loc
  have notWaiting := pre.not_waiting isBusy
  refine ⟨?_, ?_, ?_, sent.ok, ?_, fun v _ c => sent.slots v c⟩
  · refine tokenStep_to (.answer pre.worker (ring_hand hand) ?_ ?_) ?_ ?_ ?_ sent.answers
    · simp [Worker.agent, isBusy]
    · intro master
      simp [Node.ring, master, awake]
    · have same : (n'.goto (.recvReq k')).self.agent = n.self.agent := by
        rw [← agent]
        simp only [Worker.agent, Node.goto, notIdle, pc, isBusy]
        rfl
      simp only [Node.ring, same]
    · simp only [Node.ring, Node.goto, quiescent]
    · rw [ring_empty rfl]
      simp only [Node.elsewhere, Node.goto, sent.tokens, queue]
  · rw [custody_goto (by rw [pc, held])]
    exact custody
  · rw [moved]
    refine pre.loc.goPlain
      ⟨plain_recvReq busy', nothing, trivial, by intro _ _ receives; cases receives⟩ ?_
      (congrArg Site.futures sameSite) notWaiting ?_
    · rw [sameSite]
      exact pre.loc.site
    · intro quiet
      exact absurd (quiet.symm.trans awake) (by simp)
  · rw [moved]
    refine pre.depends.goPlain notWaiting ?_ sent.known sent.futures
    exact awaiting_goto (l := n.self.loc) (congrArg Site.futures sameSite)

/-- A request was dealt with without touching any task. -/
theorem Simulated.disposed
    (goes : LocalOk cfg w (n.goto pc).self.loc ∧ Depends cfg w (n.goto pc).self.loc n.net)
    (held : pc.held = n.self.pc.held)
    (tokens : Relation.ReflTransGen (TokenProtocol.Step cfg.numWorkers cfg.maxSteal)
      (n.ring cfg ctx w) ((n'.goto pc).ring cfg ctx w)) (loc : n'.self.loc = n.self.loc)
    (frames : n'.self.frames = n.self.frames) {reqs : ℕ → List StealRequest}
    (net : n'.net = { n.net with chanRequests := reqs }) (ok : NetOk cfg n'.net) :
    Simulated cfg ctx w n (n'.goto pc) := by
  have moved : (n'.goto pc).self.loc = (n.goto pc).self.loc :=
    congrArg (fun l : Local => { l with pc := pc }) loc
  have deque : n'.self.deque = n.self.deque := congrArg Local.deque loc
  refine ⟨tokens, ?_, ?_, ok, ?_, ?_⟩
  · have same : (n'.goto pc).custody cfg ctx w = n.custody cfg ctx w := by
      simp only [Node.custody, Node.goto, Worker.tasks, net, deque, frames, held]
      rfl
    rw [same]
  · rw [moved]
    exact goes.1
  · rw [moved]
    refine ⟨fun f member => ?_, fun backoff waiting inWait => ?_⟩
    · simp only [Node.goto, net]
      exact goes.2.futures f member
    · simp only [Node.goto, net]
      exact goes.2.woken backoff waiting inWait
  · intro v _ c some
    simp only [Node.goto, net]
    exact some

/-- A worker that is not idle never gives up on stealing, because none of its requests says that
it is idle. -/
theorem Pre.not_last (pre : Pre cfg ctx w n) (hand : n.self.pc.hand = some req)
    (busy : n.self.pc.isIdle = false) (own : req.token.owner = w) :
    ¬ LastToken cfg.maxSteal n.self.agent req.token := by
  intro last
  have idle := ((pre.hand_account hand own).last last).1
  simp [Worker.agent, busy] at idle

theorem Outcome.busy (pre : Pre cfg ctx w n) (here : n.self.pc = .handle k req)
    (busy : ∀ site, k ≠ .declineAll site) (out : Outcome cfg w req.token n n') :
    Simulated cfg ctx w n (n'.goto (.recvReq k)) := by
  have hand : n.self.pc.hand = some req := by rw [here]; rfl
  have isBusy : n.self.pc.isIdle = false := by
    rw [here]
    exact handle_isIdle busy
  have idle : (Pc.recvReq k).isIdle = n.self.pc.isIdle :=
    (Pc.plain_facts (plain_recvReq busy)).1.trans isBusy.symm
  have member : (Place.hand w, req.token) ∈ (n.ring cfg ctx w).tokens := hand_member hand
  have request : n.self.pc.request = some k := by rw [here]; rfl
  have held : (Pc.recvReq k).held = n.self.pc.held := (Pc.request_facts request).2.2.1.symm
  have goes := @Pre.request_moves _ _ _ _ _ (.recvReq k) pre request rfl trivial
  cases out with
  | relayed target same =>
    exact Simulated.disposed goes held (relayed_tokens hand rfl idle target same) rfl rfl rfl
      (pre.net.pushRequest target)
  | forgotten own =>
    exact Simulated.disposed goes held (forgotten_tokens pre hand rfl idle own) rfl rfl rfl pre.net
  | dropped own stateIdle below more =>
    exact Simulated.disposed goes held (dropped_tokens pre hand rfl idle own stateIdle below more)
      rfl rfl rfl pre.net
  | retired own last _ _ => exact absurd last (pre.not_last hand isBusy own)
  | detected own _ last => exact absurd last (pre.not_last hand isBusy own)
  | @looted loot same other some =>
    have sameMember : (Place.hand w, loot.token) ∈ (n.ring cfg ctx w).tokens := by
      rw [same]
      exact member
    have gives := loot_gives pre sameMember (same ▸ other) some
    rw [same] at gives
    refine gives.answered pre here busy busy rfl (by rw [held]) fun nothing => ?_
    have before := (Pc.request_facts request).2.2.2.1
    exact absurd (pre.loc.found_nothing (before.trans nothing)) some

/-! ## In an idle loop -/

/-- In `decline_all_steal_requests` the worker is idle, and not waiting unless
nobody backs off. -/
theorem Pre.declining (pre : Pre cfg ctx w n) (here : n.self.pc.request = some (.declineAll site)) :
    site.isIdle = true ∧
      n.self.pc.isIdle = true ∧
      (n.self.waitingForTasks = true → cfg.backoff = .off) ∧ n.self.inWait = false := by
  obtain ⟨idle, -, -, -, declining, mayWait, -, -, notRecv⟩ := Pc.request_facts here
  have siteIdle : site.isIdle = true := declining.mp pre.loc.declining
  refine ⟨siteIdle, idle.trans siteIdle, fun waiting => ?_, ?_⟩
  · by_contra backoff
    exact absurd ((pre.loc.waits waiting backoff).symm.trans mayWait) (by simp)
  · by_contra inWait
    exact notRecv _ _ (pre.loc.in_wait (by simpa [Worker.loc] using inWait)).2.2

/-- The master is not quiescent while it looks for work. -/
theorem Pre.loud (pre : Pre cfg ctx w n) (idle : n.self.pc.isIdle = true) :
    n.self.quiescent = false := by
  by_contra quiescent
  have quiescent : n.self.quiescent = true := by simpa using quiescent
  have busy := pre.unquiet (pre.loc.quiescent_master quiescent) quiescent
  rw [idle] at busy
  cases busy

/-- After declining requests the worker goes back to receiving tasks. -/
theorem Pre.back_to_receiving (pre : Pre cfg ctx w n)
    (here : n.self.pc.request = some (.declineAll site)) :
    LocalOk cfg w (n.goto (.recvTask site 0)).self.loc ∧
      Depends cfg w (n.goto (.recvTask site 0)).self.loc n.net := by
  obtain ⟨siteIdle, idle, waits, inWait⟩ := pre.declining here
  have same : (Pc.recvTask site 0).site = n.self.pc.site := (Pc.request_facts here).2.1.symm
  constructor
  · refine pre.loc.goIdle idle siteIdle same trivial ?_ ?_ ?_
    · intro waiting backoff
      exact absurd (waits waiting) backoff
    · intro inside
      exact absurd (inside.symm.trans inWait) (by simp)
    · rintro _ _ ⟨⟩
      exact cfg.someSteal
  · refine ⟨fun f member => ?_, fun backoff waiting _ => ?_⟩
    · have awaiting : (n.goto (.recvTask site 0)).self.loc.awaiting = n.self.loc.awaiting :=
        awaiting_goto (l := n.self.loc) (congrArg Site.futures same)
      exact pre.depends.futures f (awaiting ▸ member)
    · rw [waits waiting] at backoff
      cases backoff

theorem Outcome.idle (pre : Pre cfg ctx w n) (here : n.self.pc = .handle (.declineAll site) req)
    (out : Outcome cfg w req.token n n') :
    Simulated cfg ctx w n (declined site n') := by
  have hand : n.self.pc.hand = some req := by rw [here]; rfl
  have request : n.self.pc.request = some (.declineAll site) := by rw [here]; rfl
  obtain ⟨siteIdle, idle, waits, inWait⟩ := pre.declining request
  have same : (Pc.recvTask site 0).isIdle = n.self.pc.isIdle := idle.symm ▸ siteIdle
  have held : (Pc.recvTask site 0).held = n.self.pc.held := by rw [here]; rfl
  have loud := pre.loud idle
  have goes := pre.back_to_receiving request
  have siteOk : SiteOk w n.self.loc.rets (some site) := by
    have := pre.loc.site
    have before : n.self.loc.pc = .handle (.declineAll site) req := here
    rwa [before] at this
  have stays {n'' : Node} (quiet : n''.self.quiescent = n.self.quiescent) :
      declined site n'' = n''.goto (.recvTask site 0) := by
    simp [declined, quiet, loud]
  cases out with
  | relayed target kept =>
    rw [stays]
    · exact Simulated.disposed goes held (relayed_tokens hand rfl same target kept) rfl rfl rfl
        (pre.net.pushRequest target)
    · rfl
  | forgotten own =>
    rw [stays]
    · exact Simulated.disposed goes held (forgotten_tokens pre hand rfl same own) rfl rfl rfl
        pre.net
    · rfl
  | dropped own stateIdle below more =>
    rw [stays]
    · exact Simulated.disposed goes held
        (dropped_tokens pre hand rfl same own stateIdle below more) rfl rfl rfl pre.net
    · rfl
  | looted _ _ some => exact absurd (pre.loc.idle_empty idle) some
  | @retired p passed own last climbs failed =>
    rw [stays ?same]
    case same => rfl
    have notMaster : w ≠ 0 := by
      have := parent_lt climbs
      omega
    have target : p < cfg.numWorkers := (parent_lt climbs).trans pre.worker
    obtain rfl : site = .schedule := by
      cases site with
      | schedule => rfl
      | barrier => exact absurd siteOk.1 notMaster
      | force f => cases siteIdle
    refine ⟨retired_tokens pre hand rfl same own last climbs failed, ?_, ?_,
      pre.net.pushRequest target, ⟨?_, ?_⟩, fun _ _ _ some => some⟩
    · have sameTasks : (Node.goto ⟨{ n.self with
          waitingForTasks := true, inWait := cfg.backoff = .waitCond },
          n.net.pushRequest p passed⟩ (.recvTask .schedule 0)).custody cfg ctx w =
          n.custody cfg ctx w := by
        simp only [Node.custody, Node.goto, Worker.tasks, held]
        rfl
      rw [sameTasks]
    · obtain ⟨ok, -⟩ := goes
      exact ⟨ok.site, ok.stack, ok.declining, ok.idle_empty, ok.found_nothing, ok.scan, ok.alone,
        fun _ _ => rfl, fun waits => ⟨rfl, of_decide_eq_true waits, rfl⟩, ok.quiescent_master,
        ok.quiescent_empty, ok.leaves_quiescent, ok.stays, ok.unfinished, ok.awaiting,
        ok.recv_index⟩
    · exact goes.2.futures
    · intro backoff _ awake
      exact absurd backoff (of_decide_eq_false awake)
  | detected own master last =>
    obtain rfl : site = .barrier := by
      cases site with
      | barrier => rfl
      | schedule => exact absurd master siteOk.1
      | force f => cases siteIdle
    have leaves : declined .barrier { n with self := { n.self with
        quiescent := true, requested := n.self.requested - 1
        channelStack := req.token.chan :: n.self.channelStack } } =
        Node.goto { n with self := { n.self with
          quiescent := true, requested := n.self.requested - 1
          channelStack := req.token.chan :: n.self.channelStack } } .barrierExit := by
      simp [declined]
    rw [leaves]
    have empty := pre.loc.idle_empty idle
    have notWaiting : n.self.waitingForTasks = false := by
      have acc := pre.hand_account hand own
      exact acc.not_waiting (pre.hand_live hand)
    refine ⟨detected_tokens pre hand rfl rfl own master last, ?_, ?_, pre.net, ?_,
      fun _ _ _ some => some⟩
    · have sameTasks : (Node.goto { n with self := { n.self with
          quiescent := true, requested := n.self.requested - 1
          channelStack := req.token.chan :: n.self.channelStack } } .barrierExit).custody cfg
            ctx w =
          n.custody cfg ctx w := by
        have none : (Pc.barrierExit).held = n.self.pc.held := by rw [here]; rfl
        simp only [Node.custody, Node.goto, Worker.tasks, none]
      rw [sameTasks]
    · obtain ⟨ok, -⟩ := goes
      refine ⟨ok.site, ok.stack, trivial, ?_, ?_, trivial, fun _ => rfl, ?_, ?_,
        fun _ => master, fun _ _ => ⟨empty, siteOk.2, rfl⟩, fun _ => rfl, rfl, ok.unfinished,
        ok.awaiting, by intro _ _ receives; cases receives⟩
      · exact fun idle => absurd idle Bool.false_ne_true
      · exact fun found => absurd found Bool.false_ne_true
      · intro waiting
        exact absurd (waiting.symm.trans notWaiting) (by simp)
      · intro inside
        exact absurd (inside.symm.trans inWait) (by simp)
    · exact ⟨goes.2.futures, fun _ waiting => absurd (waiting.symm.trans notWaiting) (by simp)⟩

/-! ## The callers -/

theorem Pre.handles (pre : Pre cfg ctx w n) (hand : n.self.pc.hand = some req) :
    Ensures Elsewhere (handleStealRequest cfg o w req n) (Outcome cfg w req.token n) :=
  handleStealRequest_ensures pre.worker (pre.room_of_hand hand) rfl (pre.hand_live hand)
    (pre.hand_account hand) pre.unquiet

theorem Pre.declines (pre : Pre cfg ctx w n) (hand : n.self.pc.hand = some req) :
    Ensures Elsewhere (declineStealRequest cfg o w req n) (Outcome cfg w req.token n) :=
  declineStealRequest_ensures pre.worker (pre.room_of_hand hand) rfl (pre.hand_live hand)
    (pre.hand_account hand) pre.unquiet

theorem Pre.forgets (pre : Pre cfg ctx w n) (hand : n.self.pc.hand = some req)
    (own : req.ID = w) : Ensures Elsewhere (forgetReq cfg w req n.self) fun x =>
      Outcome cfg w req.token n { n with self := x } := by
  rw [forgetReq_eq own (pre.hand_account hand own)]
  exact .forgotten own

/-- `handle`, called from `RT_poll`. -/
theorem Pre.poll_handles (pre : Pre cfg ctx w n) (here : n.self.pc = .handle .poll req) :
    Ensures Elsewhere (handle cfg o w req n) fun out =>
      Simulated cfg ctx w n (out.2.goto (.recvReq .poll)) := by
  have hand : n.self.pc.hand = some req := by rw [here]; rfl
  have member := @hand_member cfg ctx w _ _ hand
  have busy : ∀ site, ReqCont.poll ≠ .declineAll site := by simp
  unfold handle
  split
  · simp only [ensures_bind]
    exact (pre.handles hand).mono fun n' out => out.busy pre here busy
  · split
    · next this splits =>
      have frames : n.self.frames ≠ [] := by
        intro none
        simp [Worker.currentTask, none] at splits
      split
      · next other =>
        simp only [ensures_bind]
        refine (splitLoop_ensures other).mono ?_
        rintro ⟨split, n'⟩ out
        have gives := split_gives pre member other out (shortenCurrent_alike _ split)
          (.inr (.inl frames))
        refine gives.answered pre here busy busy rfl ?_ nofun
        rw [here]
        rfl
      · next own =>
        simp only [ensures_bind]
        exact (pre.forgets hand (by simpa using own)).mono fun x out => out.busy pre here busy
    · rw [if_neg (show ¬ req.state = .failed from pre.hand_live hand)]
      simp only [ensures_bind]
      exact (pre.declines hand).mono fun n' out => out.busy pre here busy

/-- The body of the loop of `RT_pop` over requests. -/
theorem Pre.pop_handles (pre : Pre cfg ctx w n) {task : Option Task}
    (here : n.self.pc = .handle (.pop site task) req) :
    Ensures Elsewhere (popHandle cfg o w site task req n) (Simulated cfg ctx w n) := by
  have hand : n.self.pc.hand = some req := by rw [here]; rfl
  have member := @hand_member cfg ctx w _ _ hand
  have busy : ∀ task' site', ReqCont.pop site task' ≠ .declineAll site' := by simp
  have held : n.self.pc.held = task := by rw [here]; rfl
  unfold popHandle
  split
  · next t splits =>
    obtain rfl : task = some t := by
      split at splits
      · exact (Option.filter_eq_some_iff.mp splits).1
      · cases splits
    split
    · next other =>
      simp only [ensures_bind]
      refine (splitLoop_ensures other).mono ?_
      rintro ⟨split, n'⟩ out
      have gives := split_gives pre member other out (.refl _)
        (.inr (.inr (by rw [held]; exact Option.some_ne_none t)))
      refine gives.answered pre here (busy _) (busy _) rfl ?_ (by intro nothing; cases nothing)
      rw [held]
      rfl
    · next own =>
      simp only [ensures_bind]
      exact (pre.forgets hand (by simpa using own)).mono fun x out => out.busy pre here (busy _)
  · simp only [ensures_bind]
    exact (pre.handles hand).mono fun n' out => out.busy pre here (busy _)

theorem Pre.handleStep (pre : Pre cfg ctx w n) (here : n.self.pc = .handle k req) :
    Ensures Elsewhere (handleStep cfg o w k req n) (Simulated cfg ctx w n) := by
  have hand : n.self.pc.hand = some req := by rw [here]; rfl
  cases k with
  | push =>
    simp only [Runtime.handleStep, ensures_bind]
    exact (pre.handles hand).mono fun n' out => out.busy pre here (by simp)
  | poll =>
    simp only [Runtime.handleStep, ensures_bind]
    exact (pre.poll_handles here).mono fun out sim => sim
  | pop site task => exact pre.pop_handles here
  | declineAll site =>
    simp only [Runtime.handleStep, ensures_bind]
    exact (pre.declines hand).mono fun n' out => out.idle pre here
  | force f =>
    simp only [Runtime.handleStep, ensures_bind]
    exact (pre.handles hand).mono fun n' out => out.busy pre here (by simp)

end Handling

end Tasking.Runtime
