import Tasking.SearchSimulation

/-! The refinement: every step of the runtime is a step of both protocols, as long
as nobody leaves.  With it the invariants of the protocols hold in every state
the runtime reaches, and the assertions that follow from them cannot fail. -/
namespace Tasking.Runtime
open Fallible Family TokenProtocol Custody WorkerTree

section Steps

variable {cfg : Config} {ctx : Context} {w : ℕ} {n n' : Node} {site : Site} {k : ReqCont}

/-! ## When no request is left -/

theorem LocalOk.rests {ID : ℕ} {l : Local} (ok : LocalOk cfg ID l) (here : l.pc.site = some site)
    (empty : l.deque = []) (awake : l.waiting = false) (several : cfg.numWorkers ≠ 1) :
    LocalOk cfg ID { l with pc := .trySend (.enter site) } := by
  have siteOk := ok.site
  rw [here] at siteOk
  have same : Local.awaiting { l with pc := .trySend (.enter site) } = l.awaiting :=
    awaiting_goto (congrArg Site.futures here.symm)
  refine ⟨siteOk, ok.stack, trivial, fun _ => empty, fun _ => empty, trivial,
    fun single => absurd single several, ?_, ?_, ok.quiescent_master, ?_, nofun, rfl,
    ok.unfinished, same ▸ ok.awaiting, nofun⟩
  · exact fun waiting => absurd (waiting.symm.trans awake) (by simp)
  · exact fun inWait => absurd (inWait.symm.trans (ok.not_inWait awake)) (by simp)
  · exact fun quiescent more => ⟨empty, (ok.quiescent_empty quiescent more).2.1, rfl⟩

theorem LocalOk.leaves {ID : ℕ} {l : Local} (ok : LocalOk cfg ID l)
    (here : l.pc.site = some .barrier) (empty : l.deque = []) (awake : l.waiting = false) :
    LocalOk cfg ID { l with pc := .barrierExit, quiescent := true } := by
  have siteOk := ok.site
  rw [here] at siteOk
  have same : Local.awaiting { l with pc := .barrierExit, quiescent := true } = l.awaiting := by
    simp only [Local.awaiting, here]
    rfl
  refine ⟨siteOk, ok.stack, trivial, ?_, ?_, trivial, fun _ => rfl, ?_, ?_,
    fun _ => siteOk.1, fun _ _ => ⟨empty, siteOk.2, rfl⟩, fun _ => rfl, rfl, ok.unfinished,
    same ▸ ok.awaiting, ?_⟩
  · exact fun idle => absurd idle Bool.false_ne_true
  · exact fun found => absurd found Bool.false_ne_true
  · exact fun waiting => absurd (waiting.symm.trans awake) (by simp)
  · exact fun inWait => absurd (inWait.symm.trans (ok.not_inWait awake)) (by simp)
  · intro _ _ receives
    cases receives

theorem Pre.rests (pre : Pre cfg ctx w n) (hand : n.self.pc.hand = none)
    (busy : n.self.pc.isIdle = false) (held : n.self.pc.held = none)
    (here : n.self.pc.site = some site) (siteIdle : site.isIdle = true) (empty : n.self.deque = [])
    (several : cfg.numWorkers ≠ 1) (awake : w = 0 → n.self.quiescent = false) :
    Simulated cfg ctx w n (n.goto (.trySend (.enter site))) := by
  have notWaiting := pre.not_waiting busy
  refine ⟨?_, ?_, pre.loc.rests here empty notWaiting several, pre.net, ?_,
    fun _ _ _ some => some⟩
  · refine tokenStep_to (.rest pre.worker ?_) (agents_set ?_) rfl ?_ rfl
    · intro master
      simp [Node.ring, master, awake master]
    · simp only [ring_agent, Worker.agent, Node.goto, Pc.isIdle, siteIdle]
      rfl
    · rw [ring_empty rfl]
      exact (ring_empty hand).symm
  · rw [custody_goto (by rw [held]; rfl)]
  · refine pre.depends.goPlain notWaiting ?_ le_rfl fun _ _ => ⟨rfl, rfl, rfl⟩
    exact awaiting_goto (l := n.self.loc) (congrArg Site.futures here.symm)

/-- `RT_barrier` is about to return. -/
theorem Pre.leaves_barrier (pre : Pre cfg ctx w n) (hand : n.self.pc.hand = none)
    (busy : n.self.pc.isIdle = false) (held : n.self.pc.held = none)
    (here : n.self.pc.site = some .barrier) (empty : n.self.deque = [])
    (fine : cfg.numWorkers = 1 ∨ n.self.quiescent = true) :
    Simulated cfg ctx w n
      (Node.goto { n with self := { n.self with quiescent := true } } .barrierExit) := by
  have notWaiting := pre.not_waiting busy
  have siteOk := pre.loc.site
  rw [show n.self.loc.pc.site = some .barrier from here] at siteOk
  have agent : Worker.agent { n.self with quiescent := true, pc := .barrierExit } =
    n.self.agent := by
    simp only [Worker.agent, busy]
    rfl
  have tokens : Worker.tokens w { n.self with quiescent := true, pc := .barrierExit } =
      n.self.tokens w := by
    simp only [Worker.tokens, hand]
    rfl
  refine ⟨?_, ?_, pre.loc.leaves here empty notWaiting, pre.net, ?_, fun _ _ _ some => some⟩
  · rcases fine with single | quiescent
    · refine tokenStep_to (.alone single) ?_ ?_ ?_ rfl
      · simp only [Node.ring, Node.goto, agent]
      · simp [Node.ring, Node.goto, siteOk.1]
      · simp only [Node.ring, Node.goto, tokens]
    · exact tokens_unchanged agent (fun _ => quiescent.symm) tokens rfl rfl
  · have same : Node.custody cfg ctx w
        (Node.goto { n with self := { n.self with quiescent := true } } .barrierExit) =
        n.custody cfg ctx w := by
      simp only [Node.custody, Node.goto, Worker.tasks, held]
      rfl
    rw [same]
  · refine pre.depends.goPlain notWaiting ?_ le_rfl fun _ _ => ⟨rfl, rfl, rfl⟩
    simp only [Local.awaiting, show n.self.loc.pc.site = some .barrier from here]
    rfl

theorem Pre.popFailed (pre : Pre cfg ctx w n) (here : n.self.pc.request = some (.pop site none))
    (hand : n.self.pc.hand = none) :
    Simulated cfg ctx w n (popFailed cfg site n) := by
  obtain ⟨idle, pcSite, pcHeld, found, -⟩ := Pc.request_facts here
  have busy : n.self.pc.isIdle = false := idle
  have held : n.self.pc.held = none := pcHeld
  have pcSite : n.self.pc.site = some site := pcSite
  have siteOk := pre.loc.site
  rw [show n.self.loc.pc.site = some site from pcSite] at siteOk
  have empty (siteIdle : site.isIdle = true) : n.self.deque = [] :=
    pre.loc.found_nothing (found.trans siteIdle)
  have worker := pre.worker
  unfold Runtime.popFailed
  cases site with
  | schedule =>
    have other : w ≠ 0 := siteOk.1
    exact pre.rests hand busy held pcSite rfl (empty rfl) (by omega) (absurd · other)
  | barrier =>
    simp only
    split
    · next single => exact pre.leaves_barrier hand busy held pcSite (empty rfl) (.inl single)
    · next several =>
      split
      · next quiescent =>
        have same : n.goto .barrierExit =
            Node.goto { n with self := { n.self with quiescent := true } } .barrierExit := by
          rw [← quiescent]
        rw [same]
        exact pre.leaves_barrier hand busy held pcSite (empty rfl) (.inr quiescent)
      · next loud =>
        exact pre.rests hand busy held pcSite rfl (empty rfl) several fun _ => by simpa using loud
  | force f =>
    exact pre.goPlain (.easy (by rfl)) hand.symm busy siteOk
      (congrArg Site.futures pcSite.symm) held.symm

theorem Pre.noRequest (pre : Pre cfg ctx w n) (here : n.self.pc.request = some k)
    (hand : n.self.pc.hand = none) : Simulated cfg ctx w n (noRequest cfg k n) := by
  obtain ⟨idle, pcSite, pcHeld, -⟩ := Pc.request_facts here
  have siteOk := pre.loc.site
  rw [show n.self.loc.pc.site = k.site from pcSite] at siteOk
  cases k with
  | push | poll =>
    exact pre.goPlain (.easy (by rfl)) hand.symm idle siteOk
      (congrArg Site.futures pcSite.symm) pcHeld.symm
  | pop site task =>
    cases task with
    | some t =>
      refine pre.runs idle hand pcHeld (pcSite.trans ?_)
      cases site <;> rfl
    | none => exact pre.popFailed here hand
  | declineAll site =>
    obtain ⟨siteIdle, isIdle, -⟩ := pre.declining here
    have stays : declined site n = n.goto (.recvTask site 0) := by
      simp [declined, pre.loud isIdle]
    have moved : (n.goto (.recvTask site 0)).ring cfg ctx w = n.ring cfg ctx w :=
      ring_goto hand.symm (siteIdle.trans isIdle.symm)
    simp only [Runtime.noRequest, stays]
    refine Simulated.disposed (pre.back_to_receiving here) pcHeld.symm ?_ rfl rfl rfl pre.net
    rw [moved]
  | force f =>
    exact pre.goPlain (.easy (by rfl)) hand.symm idle siteOk
      (congrArg Site.futures pcSite.symm) pcHeld.symm

/-! ## One step of a worker -/

theorem Pre.recvReqStep (pre : Pre cfg ctx w n) (here : n.self.pc = .recvReq k) :
    Ensures Elsewhere (recvReqStep cfg w k n) (Simulated cfg ctx w n) := by
  have request : n.self.pc.request = some k := by rw [here]; rfl
  have hand : n.self.pc.hand = none := by rw [here]; rfl
  unfold Runtime.recvReqStep
  split
  · next req reqs first =>
    split
    · next failed =>
      simp only [ensures_bind]
      exact (pre.adopts here first failed).mono fun x sim => sim
    · next live => exact pre.receives request hand first live
  · split
    · exact pre.noRequest request hand
    · exact pre.scans request rfl hand.symm (onBehalf_scanOk cfg w n.self k)

theorem Pre.recvReqForStep (pre : Pre cfg ctx w n) {scan : List ℕ}
    (here : n.self.pc = .recvReqFor k scan) :
    Simulated cfg ctx w n (recvReqForStep cfg w k scan n) := by
  have request : n.self.pc.request = some k := by rw [here]; rfl
  have hand : n.self.pc.hand = none := by rw [here]; rfl
  cases scan with
  | nil => exact pre.noRequest request hand
  | cons i rest =>
    simp only [Runtime.recvReqForStep]
    split
    · next req reqs first => exact pre.receives request hand first (pre.behalf_live here first)
    · have there : (Pc.recvReqFor k rest).request = some k := rfl
      refine pre.scans request there hand.symm ?_
      have scanOk := pre.loc.scan
      rw [show n.self.loc.pc = .recvReqFor k (i :: rest) from here] at scanOk
      exact fun j member => scanOk j (List.mem_cons_of_mem i member)

theorem Pre.shareDone (pre : Pre cfg ctx w n) {k : ShareCont} (here : n.self.pc = .shareWork k) :
    Ensures Elsewhere (shareDone cfg w k n) (Simulated cfg ctx w n) := by
  have before : n.self.loc.pc = .shareWork k := here
  have busy : n.self.pc.isIdle = false := by rw [here]; rfl
  have hand : n.self.pc.hand = none := by rw [here]; rfl
  have siteOk := pre.loc.site
  rw [before] at siteOk
  cases k with
  | push =>
    exact pre.goPlain (.easy (by rfl)) hand.symm busy siteOk (by rw [here]; rfl)
      (by rw [here]; rfl)
  | poll =>
    exact pre.goPlain (.easy (by rfl)) hand.symm busy siteOk (by rw [here]; rfl)
      (by rw [here]; rfl)
  | pop site task =>
    refine pre.goPlain ⟨rfl, fun nothing => pre.loc.found_nothing ?_, trivial, nofun⟩ hand.symm busy
      siteOk (by rw [here]; rfl) (by rw [here]; rfl)
    rw [before]
    cases task <;> exact nothing
  | got site t =>
    refine pre.runs busy hand (by rw [here]; rfl) ?_
    rw [here]
    cases site <;> rfl
  | exit addr =>
    have stays := pre.loc.stays
    rw [before] at stays
    cases stays

theorem Pre.shareStep (pre : Pre cfg ctx w n) {o : Oracle} {k : ShareCont}
    (here : n.self.pc = .shareWork k) :
    Ensures Elsewhere (shareStep cfg o w k n) (Simulated cfg ctx w n) := by
  simp only [Runtime.shareStep, ensures_bind]
  refine (pre.shareRound here).mono ?_
  rintro ⟨more, n'⟩ out
  cases more with
  | true => exact out
  | false =>
    obtain rfl : n' = n := out
    exact pre.shareDone here

theorem Pre.peekStep (pre : Pre cfg ctx w n) {scan : List ℕ} (here : n.self.pc = .peekReq scan) :
    Simulated cfg ctx w n (peekStep scan n) := by
  have busy : n.self.pc.isIdle = false := by rw [here]; rfl
  have siteOk := pre.loc.site
  rw [show n.self.loc.pc = .peekReq scan from here] at siteOk
  have goes {pc : Pc} (plain : { n.self.loc with pc := pc }.Plain cfg w) (hand : pc.hand = none)
      (site : pc.site = none) (held : pc.held = none) : Simulated cfg ctx w n (n.goto pc) := by
    refine pre.goPlain plain ?_ busy (by rw [site]; exact siteOk) ?_ ?_
    · rw [hand, here]
      rfl
    · rw [site, here]
      rfl
    · rw [held, here]
      rfl
  cases scan with
  | nil => exact goes (.easy (by rfl)) rfl rfl rfl
  | cons i rest =>
    simp only [Runtime.peekStep]
    split
    · exact goes (.easy (by rfl)) rfl rfl rfl
    · exact goes (.easy (by rfl)) rfl rfl rfl

/-- Every step of a worker is one the protocols know, or it issues `RT_EXIT`. -/
theorem Pre.wstep (pre : Pre cfg ctx w n) (c : Choice) :
    Ensures Elsewhere (wstep cfg w c n) fun n' => Exits w n n' ∨ Simulated cfg ctx w n n' := by
  unfold Runtime.wstep
  have stays := pre.loc.stays
  split
  · next here => exact pre.userStep here c.act
  · next here => exact .inr (pre.pops here)
  · next here => exact (pre.shareStep here).mono fun _ => .inr
  · next here => exact .inr (pre.peekStep here)
  · next here => exact (pre.recvReqStep here).mono fun _ => .inr
  · next here => exact .inr (pre.recvReqForStep here)
  · next here => exact (pre.handleStep here).mono fun _ => .inr
  · next here => exact (pre.sendStep here).mono fun _ => .inr
  · next here => exact (pre.recvTaskStep here).mono fun _ => .inr
  · next here => exact (pre.forces here).mono fun _ => .inr
  · next here =>
    have before : n.self.loc.pc = .barrierExit := here
    have siteOk := pre.loc.site
    rw [before] at siteOk
    have quiescent : n.self.quiescent = true := pre.loc.leaves_quiescent here
    simp only [ensures_bind, ensures_check, ensures_pure]
    have plain : { n.self.loc with pc := .user }.Plain cfg w := (.easy (by rfl))
    have goes : Simulated cfg ctx w n (n.goto .user) :=
      pre.goPlain plain (by rw [here]; rfl) (by rw [here]; rfl) (.inl siteOk.1)
        (by rw [here]; rfl) (by rw [here]; rfl)
    exact ⟨fun _ => .inr goes, fun wrong => absurd quiescent wrong⟩
  all_goals
    next here =>
    rw [show n.self.loc.pc = _ from here] at stays
    cases stays

end Steps

/-! ## Runs -/

section Runs

variable {cfg : Config} {s : State} {w : ℕ} {n : Node}

/-- The state is one the two protocols know, and the workers' variables and the
channels are in order. -/
structure Refines (cfg : Config) (s : State) : Prop where
  ring : (TokenProtocol.system cfg.numWorkers cfg.maxSteal).Reachable (s.ring cfg)
  custody : Custody.system.Reachable (s.custody cfg)
  loc : ∀ w < cfg.numWorkers, LocalOk cfg w (s.workers w).loc
  net : NetOk cfg s.net
  depends : ∀ w < cfg.numWorkers, Depends cfg w (s.workers w).loc s.net

theorem ring_init (cfg : Config) :
    (State.init cfg).ring cfg = TokenProtocol.State.init cfg.numWorkers cfg.maxSteal := by
  have nothing : (gather cfg.numWorkers fun v => (Worker.init cfg v).tokens v) = 0 := by
    refine gather_eq_zero.mpr fun v _ => ?_
    by_cases master : v = 0 <;> simp [Worker.tokens, Worker.init, master, Pc.hand]
  have silent : (Network.init).tokens cfg = 0 := gather_eq_zero.mpr fun _ _ => rfl
  have unanswered : (Network.init).answers cfg = 0 :=
    gather_eq_zero.mpr fun _ _ => gather_eq_zero.mpr fun _ _ => rfl
  simp only [State.ring, TokenProtocol.State.init, State.init, nothing, silent, unanswered,
    TokenProtocol.State.mk.injEq, add_zero, and_true]
  refine ⟨funext fun v => ?_, rfl⟩
  have positive := cfg.someWorker
  simp only [Worker.agent, Agent.mk.injEq]
  refine ⟨?_, rfl, funext fun side => ?_, rfl, rfl, ?_⟩
  · by_cases master : v = 0 <;> simp [Worker.init, master, Pc.isIdle]
  · rw [Bool.eq_iff_iff, decide_eq_true_iff]
    cases side <;>
      simp only [Worker.init, Worker.flag, Config.leftChild, Config.rightChild,
        WorkerTree.leftChild, WorkerTree.rightChild, child] <;>
      split <;> simp <;> omega
  · exact Multiset.coe_eq_coe.mpr (List.reverse_perm _)

theorem custody_init (cfg : Config) : (State.init cfg).custody cfg = Custody.State.init := by
  have nothing : (gather cfg.numWorkers fun v => (Worker.init cfg v).tasks v) = 0 := by
    refine gather_eq_zero.mpr fun v _ => ?_
    by_cases master : v = 0 <;>
      simp [Worker.tasks, Worker.init, master, Pc.held, tagsOf, place]
  have silent : (Network.init).tasks cfg = 0 :=
    gather_eq_zero.mpr fun _ _ => gather_eq_zero.mpr fun _ _ => rfl
  simp only [State.custody, State.init, nothing, silent, add_zero]
  rfl

theorem Refines.init (cfg : Config) : Refines cfg (State.init cfg) where
  ring := Transition.System.reachable_of_init (ring_init cfg)
  custody := Transition.System.reachable_of_init (custody_init cfg)
  loc w _ := localOk_init cfg w
  net := netOk_init cfg
  depends w _ := depends_init cfg w

theorem Refines.pre (ok : Refines cfg s) (worker : w < cfg.numWorkers) :
    Pre cfg (s.context cfg w) w (s.node w) := by
  have inv := TokenProtocol.reachable_inv cfg.someSteal ok.ring
  obtain ⟨conserved, kept⟩ := Custody.reachable_inv ok.custody
  rw [ring_node worker] at inv
  rw [custody_node worker] at conserved kept
  exact ⟨worker, inv, conserved, kept, ok.loc w worker, ok.net, ok.depends w worker⟩

/-- A worker can rely on the channels while another one moves: nobody else takes messages out of
its channels. -/
theorem Depends.undisturbed {v : ℕ} {l : Local} {ctx : Context} {n' : Node} (other : v ≠ w)
    (dep : Depends cfg v l n.net) (kept : Kept (n.custody cfg ctx w))
    (sim : Simulated cfg ctx w n n') : Depends cfg v l n'.net := by
  refine ⟨fun f member => ?_, fun backoff waiting inWait => ?_⟩
  · obtain ⟨known, creator, result, awaited⟩ := dep.futures f member
    have untouched := kept.untouched_run sim.custody known (creator.trans_ne other)
    exact ⟨untouched.known, untouched.creator.trans creator, untouched.result.trans result,
      untouched.awaited.trans awaited⟩
  · obtain ⟨i, here, j, above, inside, message⟩ := dep.woken backoff waiting inWait
    exact ⟨i, here, j, above, inside, sim.slots v other j message⟩

theorem custody_run {a a' : Custody.State}
    (run : Relation.ReflTransGen (Custody.Step w) a a') :
    Relation.ReflTransGen Custody.system.step a a' :=
  Relation.ReflTransGen.mono (r := Custody.Step w) (fun _ _ next => ⟨w, next⟩) a a' run

/-- A step of worker `w` keeps the refinement, or it issues `RT_EXIT`. -/
theorem Refines.step (ok : Refines cfg s) (worker : w < cfg.numWorkers) {c : Choice}
    (moved : wstep cfg w c (s.node w) = .ok n) :
    Exits w (s.node w) n ∨ Refines cfg (s.put w n) := by
  have pre := ok.pre worker
  refine ((pre.wstep c).value moved).imp_right fun sim => ?_
  refine ⟨?_, ?_, fun v inside => ?_, sim.net, fun v inside => ?_⟩
  · rw [ring_put worker]
    exact (ring_node worker ▸ ok.ring).trans sim.tokens
  · rw [custody_put worker]
    exact (custody_node worker ▸ ok.custody).trans (custody_run sim.custody)
  · by_cases same : v = w
    · subst same
      simpa [State.put] using sim.loc
    · simpa [State.put, same] using ok.loc v inside
  · by_cases same : v = w
    · subst same
      simpa [State.put] using sim.depends
    · simpa [State.put, same] using (ok.depends v inside).undisturbed same pre.kept sim

/-- The assertions that follow from the protocols' invariants do not fail. -/
theorem Refines.faults (ok : Refines cfg s) {which : Fault} (fault : Faults cfg s which) :
    Elsewhere which := by
  obtain ⟨w, worker, c, ran⟩ := fault
  exact ((ok.pre worker).wstep c).tolerates ran

end Runs

end Tasking.Runtime
