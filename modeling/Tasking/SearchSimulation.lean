import Tasking.LifelineSimulation
import Tasking.TaskSimulation

/-! Looking for work: sending a request, receiving an answer, and the transitions
between the two in `schedule`, `RT_barrier` and `RT_force_future`. -/
namespace Tasking.Runtime
open Fallible Family TokenProtocol Custody WorkerTree

section Search

variable {cfg : Config} {ctx : Context} {w : ℕ} {n n' : Node} {o : Oracle} {site : Site}
  {state : ReqState}

/-! ## Sending a request -/

theorem adaptStrategy_alike (cfg : Config) (x : Worker) : Alike x (adaptStrategy cfg x) := by
  unfold adaptStrategy
  split
  · exact ⟨rfl, rfl, rfl, rfl⟩
  · exact .refl x

theorem Pre.posts (pre : Pre cfg ctx w n) (hand : n.self.pc.hand = none) {chan : ℕ} {rest : List ℕ}
    (stack : n.self.channelStack = chan :: rest) (room : n.self.requested < cfg.maxSteal) {v : ℕ}
    (target : v < cfg.numWorkers) {req : StealRequest} (token : req.token = ⟨w, chan, state⟩)
    (fits : state = .working ∨ (state = .idle ∧ n.self.pc.isIdle = true)) {pc : Pc}
    (same : pc.isIdle = n.self.pc.isIdle) (none : pc.hand = none) (held : pc.held = n.self.pc.held)
    (goes : LocalOk cfg w (n.goto pc).self.loc ∧ Depends cfg w (n.goto pc).self.loc n.net) :
    Simulated cfg ctx w n (Node.goto ⟨{ n.self with
      channelStack := rest, requested := n.self.requested + 1 }, n.net.pushRequest v req⟩ pc) := by
  refine Simulated.disposed goes held ?_ rfl rfl rfl (pre.net.pushRequest target)
  have taken : ((n.ring cfg ctx w).agent w).free = chan ::ₘ (rest : Multiset ℕ) := by
    simp only [ring_agent, Worker.agent, stack]
    rfl
  have fits' : state = .working ∨ (state = .idle ∧ ((n.ring cfg ctx w).agent w).busy = false) := by
    refine fits.imp id fun idle => ⟨idle.1, ?_⟩
    simp [Worker.agent, idle.2]
  refine tokenStep_to (.post (v := v) pre.worker (by simpa [Worker.agent] using room) taken fits')
    (agents_set ?_) rfl ?_ rfl
  · simp only [ring_agent, Worker.agent, Node.goto, same]
    rfl
  · rw [ring_empty none, ring_empty hand]
    simp only [Node.elsewhere, Node.goto, tokens_pushRequest target, token, Multiset.cons_add]

/-- What `try_send_steal_request` leaves behind: the worker has a request under
way, and may go on to any program point of the same kind. -/
def Sending (cfg : Config) (ctx : Context) (w : ℕ) (n n' : Node) : Prop :=
  0 < n'.self.requested ∧ n'.self.loc = n.self.loc ∧
    ∀ pc : Pc, pc.isIdle = n.self.pc.isIdle → pc.hand = none → pc.held = n.self.pc.held →
      LocalOk cfg w (n.goto pc).self.loc ∧ Depends cfg w (n.goto pc).self.loc n.net →
      Simulated cfg ctx w n (n'.goto pc)

theorem Pre.sends (pre : Pre cfg ctx w n) (hand : n.self.pc.hand = none) {idle : Bool}
    (fits : idle = true → n.self.pc.isIdle = true) :
    Ensures Elsewhere (trySendStealRequest cfg o w idle n) (Sending cfg ctx w n) := by
  unfold trySendStealRequest
  split
  · next room =>
    have alike := adaptStrategy_alike cfg n.self
    have pre' := pre.alike alike
    have requested : (adaptStrategy cfg n.self).requested = n.self.requested :=
      congrArg Agent.requested alike.agent
    generalize adaptStrategy cfg n.self = x at alike pre' requested
    have hand' : x.pc.hand = none := by rw [alike.pc, hand]
    have live := pre'.account.live_eq
    have low := pre'.account.dropped_nonneg
    have counters := pre'.account.counters
    simp only [Worker.agent, Multiset.coe_card] at live low counters
    have stack : x.channelStack ≠ [] := by
      intro empty
      rw [empty, List.length_nil] at counters
      omega
    obtain ⟨chan, rest, shape⟩ := List.exists_cons_of_ne_nil stack
    have bound : Network.Room cfg (Node.net ⟨{ x with channelStack := rest }, n.net⟩) :=
      pre'.room_of_free hand' stack
    have pop : channelPop x = .ok (chan, { x with channelStack := rest }) := by
      simp only [channelPop, shape]
      rfl
    simp only [pop, ensures_bind, ensures_ok]
    refine ((nextVictim_ensures cfg o.rand w _ _).weaken fun _ => .inl).mono ?_
    rintro ⟨v, req⟩ ⟨target, set, rfl⟩
    rw [sendReq_eq bound target]
    refine ⟨?_, alike.loc, fun pc same none held goes => ?_⟩
    · simp only
      omega
    · refine Simulated.of_alike alike (pre'.posts hand' shape (requested ▸ room) target rfl ?_
        (same.trans (congrArg Pc.isIdle alike.pc.symm)) none
        (held.trans (congrArg Pc.held alike.pc.symm)) ?_)
      · cases idle with
        | false => exact .inl rfl
        | true => exact .inr ⟨rfl, (congrArg Pc.isIdle alike.pc).trans (fits rfl)⟩
      · have moved : (Node.goto ⟨x, n.net⟩ pc).self.loc = (n.goto pc).self.loc :=
          congrArg (fun l : Local => { l with pc := pc }) alike.loc
        rw [moved]
        exact goes
  · next full =>
    refine ⟨?_, rfl, fun pc same none held goes => ?_⟩
    · have := cfg.someSteal
      omega
    · refine Simulated.disposed goes held ?_ rfl rfl rfl pre.net
      rw [ring_goto (none.trans hand.symm) same]

/-! ## Going on after a request was sent -/

/-- In an idle loop but not in `RECV_TASK`. -/
theorem Pre.search_idle (pre : Pre cfg ctx w n) (idle : n.self.pc.isIdle = true)
    (here : n.self.pc.site = some site) {pc : Pc} (pcIdle : pc.isIdle = true)
    (there : pc.site = some site) (scan : pc.scanOk cfg w n.self.flag)
    (waits : n.self.waitingForTasks = true → cfg.backoff ≠ .off → pc.mayWait = true)
    (inWait : n.self.inWait = false) (index : ∀ site i, pc = .recvTask site i → i = 0)
    (woken : cfg.backoff = .waitCond → n.self.waitingForTasks = false) :
    LocalOk cfg w (n.goto pc).self.loc ∧ Depends cfg w (n.goto pc).self.loc n.net := by
  have same : pc.site = n.self.pc.site := there.trans here.symm
  constructor
  · refine pre.loc.goIdle idle pcIdle same scan waits ?_ ?_
    · exact fun inside => absurd (inside.symm.trans inWait) (by simp)
    · intro site i receives
      rw [index site i receives]
      exact cfg.someSteal
  · refine ⟨fun f member => ?_, fun backoff waiting => ?_⟩
    · have awaiting : (n.goto pc).self.loc.awaiting = n.self.loc.awaiting :=
        awaiting_goto (l := n.self.loc) (congrArg Site.futures same)
      exact pre.depends.futures f (awaiting ▸ member)
    · exact absurd (waiting.symm.trans (woken backoff)) (by simp)

theorem Pre.search_busy (pre : Pre cfg ctx w n) (busy : n.self.pc.isIdle = false) {pc : Pc}
    (plain : { n.self.loc with pc := pc }.Plain cfg w) (same : pc.site = n.self.pc.site)
    (held : pc.held = n.self.pc.held) :
    LocalOk cfg w (n.goto pc).self.loc ∧ Depends cfg w (n.goto pc).self.loc n.net := by
  have notWaiting := pre.not_waiting busy
  constructor
  · refine pre.loc.goPlain plain ?_ (congrArg Site.futures same) notWaiting fun quiet several => ?_
    · have siteOk := pre.loc.site
      rwa [show n.self.loc.pc.site = pc.site from same.symm] at siteOk
    · obtain ⟨deque, -, none⟩ := pre.loc.quiescent_empty quiet several
      exact ⟨deque, held.trans none⟩
  · refine pre.depends.goPlain notWaiting ?_ le_rfl fun _ _ => ⟨rfl, rfl, rfl⟩
    exact awaiting_goto (l := n.self.loc) (congrArg Site.futures same)

/-- Whoever is neither receiving tasks nor about to is not sitting in `WAIT`, and
under `wait_cond` it does not wait at all. -/
theorem Pre.not_receiving (pre : Pre cfg ctx w n) (here : ∀ i, n.self.pc ≠ .recvTask .schedule i) :
    n.self.inWait = false ∧ (cfg.backoff = .waitCond → n.self.waitingForTasks = false) := by
  have inWait : n.self.inWait = false := by
    by_contra inside
    exact here _ (pre.loc.in_wait (by simpa [Worker.loc] using inside)).2.2
  refine ⟨inWait, fun backoff => ?_⟩
  by_contra waiting
  obtain ⟨i, receives, -⟩ := pre.depends.woken backoff (by simpa [Worker.loc] using waiting) inWait
  exact here i receives

/-- The end of `RECV_TASK` without a task. -/
theorem Pre.missing (pre : Pre cfg ctx w n) (here : n.self.pc = .trySend (.failed site))
    (sending : Sending cfg ctx w n n') :
    Ensures Elsewhere (taskMissing cfg site n') (Simulated cfg ctx w n) := by
  obtain ⟨positive, loc, goes⟩ := sending
  have before : n.self.loc.pc = .trySend (.failed site) := here
  have held : n.self.pc.held = none := by rw [here]; rfl
  have pcSite : n.self.pc.site = some site := by rw [here]; rfl
  have idleEq : n.self.pc.isIdle = site.isIdle := by rw [here]; rfl
  by_cases siteIdle : site.isIdle = true
  · have idle : n.self.pc.isIdle = true := idleEq.trans siteIdle
    obtain ⟨inWait, woken⟩ := pre.not_receiving (by rw [here]; simp)
    have empty : n'.self.deque = [] :=
      (congrArg Local.deque loc).trans (pre.loc.idle_empty idle)
    have waiting : n'.self.waitingForTasks = n.self.waitingForTasks := congrArg Local.waiting loc
    have asks : Ensures Elsewhere (do
        check (n'.self.deque = []) Fault.idleDequeEmpty
        check (n'.self.requested ≠ 0) Fault.idleRequested
        if cfg.backoff = .sleepExp ∧ n'.self.waitingForTasks ∧ site = .schedule then
          return n'.goto (.recvTask site 0)
        else return n'.goto (.recvReq (.declineAll site))) (Simulated cfg ctx w n) := by
      simp only [ensures_bind, ensures_check, ensures_ite, ensures_pure]
      refine ⟨fun _ => ⟨fun _ => ⟨?_, ?_⟩, fun wrong => absurd positive.ne' wrong⟩,
        fun wrong => absurd empty wrong⟩
      · rintro ⟨-, -, rfl⟩
        refine goes _ idle.symm rfl held.symm
          (pre.search_idle idle pcSite rfl rfl trivial (fun _ _ => rfl) inWait ?_ woken)
        rintro _ _ ⟨⟩
        rfl
      · intro otherwise
        refine goes _ (siteIdle.trans idle.symm) rfl held.symm
          (pre.search_idle idle pcSite siteIdle rfl trivial ?_ inWait
            (by intro _ _ receives; cases receives) woken)
        intro waits backoff
        have mayWait := pre.loc.waits waits backoff
        rw [before] at mayWait
        obtain rfl : site = .schedule := by
          cases site with
          | schedule => rfl
          | barrier | force _ => cases mayWait
        cases kind : cfg.backoff with
        | off => exact absurd kind backoff
        | sleepExp => exact absurd ⟨kind, waiting.trans waits, rfl⟩ otherwise
        | waitCond => exact absurd (waits.symm.trans (woken kind)) (by simp)
    cases site with
    | schedule | barrier => exact asks
    | force f => cases siteIdle
  · have busy : n.self.pc.isIdle = false := idleEq.trans (by simpa using siteIdle)
    cases site with
    | schedule | barrier => exact absurd rfl siteIdle
    | force f =>
      exact goes _ busy.symm rfl held.symm
        (pre.search_busy busy (.easy (by rfl)) pcSite.symm held.symm)

/-- `try_send_steal_request`, at each of its callers. -/
theorem Pre.sendStep (pre : Pre cfg ctx w n) {k : SendCont} (here : n.self.pc = .trySend k) :
    Ensures Elsewhere (sendStep cfg o w k n) (Simulated cfg ctx w n) := by
  have hand : n.self.pc.hand = none := by rw [here]; rfl
  cases k with
  | enter site =>
    have idleEq : n.self.pc.isIdle = site.isIdle := by rw [here]; rfl
    have held : n.self.pc.held = none := by rw [here]; rfl
    have pcSite : n.self.pc.site = some site := by rw [here]; rfl
    simp only [Runtime.sendStep, ensures_bind]
    refine (pre.sends hand fun idle => idleEq.trans idle).mono ?_
    rintro n' ⟨positive, loc, goes⟩
    simp only [ensures_ite, ensures_bind, ensures_check, ensures_pure]
    have goal : Simulated cfg ctx w n (n'.goto (.recvTask site 0)) := by
      refine goes _ idleEq.symm rfl held.symm ?_
      by_cases siteIdle : site.isIdle = true
      · obtain ⟨inWait, woken⟩ := pre.not_receiving (by rw [here]; simp)
        refine pre.search_idle (idleEq.trans siteIdle) pcSite siteIdle rfl trivial ?_ inWait
          ?_ woken
        · intro waits backoff
          have mayWait := pre.loc.waits waits backoff
          rw [show n.self.loc.pc = .trySend (.enter site) from here] at mayWait
          cases mayWait
        · rintro _ _ ⟨⟩
          rfl
      · have plain : (Pc.recvTask site 0).plain = true := by
          cases site with
          | schedule | barrier => exact absurd rfl siteIdle
          | force f => rfl
        refine pre.search_busy (idleEq.trans (by simpa using siteIdle))
          ⟨plain, fun found => absurd found Bool.false_ne_true, trivial, ?_⟩ pcSite.symm held.symm
        rintro _ _ ⟨⟩
        exact cfg.someSteal
    exact ⟨fun _ => ⟨fun _ => goal, fun wrong => absurd positive.ne' wrong⟩, fun _ => goal⟩
  | failed site =>
    have idleEq : n.self.pc.isIdle = site.isIdle := by rw [here]; rfl
    simp only [Runtime.sendStep, ensures_bind]
    exact (pre.sends hand fun idle => idleEq.trans idle).mono fun n' => pre.missing here
  | again f =>
    have busy : n.self.pc.isIdle = false := by rw [here]; rfl
    simp only [Runtime.sendStep, ensures_bind]
    refine (pre.sends hand fun wrong => absurd wrong Bool.false_ne_true).mono ?_
    rintro n' ⟨-, -, goes⟩
    exact goes _ busy.symm rfl (by rw [here]; rfl)
      (pre.search_busy busy (.easy (by rfl)) (by rw [here]; rfl) (by rw [here]; rfl))
  | early site t =>
    have busy : n.self.pc.isIdle = false := by rw [here]; rfl
    simp only [Runtime.sendStep, ensures_bind]
    refine (pre.sends hand fun wrong => absurd wrong Bool.false_ne_true).mono ?_
    rintro n' ⟨-, -, goes⟩
    exact goes _ busy.symm rfl (by rw [here]; rfl)
      (pre.search_busy busy (.easy (by rfl)) (by rw [here]; rfl) (by rw [here]; rfl))

/-! ## Receiving tasks -/

/-- The bookkeeping of `RECV_TASK` runs into no assertion, because every message answers a
request that was counted. -/
theorem receivedTask_ensures {x : Worker} {r : Token} {rest : Multiset Token} {chan : ℕ}
    (acc : Account cfg.maxSteal x.agent (r ::ₘ rest)) :
    Ensures Elsewhere (receivedTask cfg chan x) fun x' => x' = { x with
      channelStack := chan :: x.channelStack
      requested := (if x.waitingForTasks then 1 else x.requested - x.droppedStealRequests) - 1
      waitingForTasks := false
      droppedStealRequests := 0 } := by
  have total := acc.card_free
  have live := acc.live_eq
  have low := acc.dropped_nonneg
  have high := acc.dropped_lt
  have waits := acc.waits
  have single := acc.waiting_single
  rw [Multiset.card_cons] at total live single
  push_cast at live
  simp only [Worker.agent, Multiset.coe_card] at total live low high waits single
  have space : x.channelStack.length < cfg.maxSteal := by omega
  simp only [receivedTask, ensures_bind, channelPush_eq space, ensures_ok, ensures_ite,
    ensures_check, ensures_pure, List.length_cons]
  refine ⟨fun waiting => ?_, fun awake => ⟨fun some => ?_, fun none => ?_⟩⟩
  · obtain ⟨-, requested, -, -⟩ := waits waiting
    have one := single waiting
    refine ⟨fun _ => ⟨fun _ => ⟨fun _ => ⟨fun _ => ?_, ?_⟩, ?_⟩, ?_⟩, ?_⟩
    · simp [waiting]
    all_goals (intro wrong; first | omega | exact absurd trivial wrong)
  · refine ⟨fun _ => ⟨fun _ => ⟨fun _ => ?_, ?_⟩, ?_⟩, ?_⟩
    · simp [awake]
    all_goals (intro wrong; first | omega | exact absurd trivial wrong)
  · have dropped : x.droppedStealRequests = 0 := by omega
    have awake : x.waitingForTasks = false := by simpa using awake
    refine ⟨fun _ => ⟨fun _ => ?_, ?_⟩, ?_⟩
    · simp only [awake, dropped]
      simp
    all_goals intro wrong; omega

theorem unpack_ensures {ID : ℕ} {t : Task} {rest : List Task} (x : Worker) :
    Ensures Elsewhere (unpack cfg ID site (.tasks (t :: rest) state) x) fun x' =>
      ∃ steals victim, x' = { x with
        numRecentSteals := steals, lastVictim := victim
        deque := rest ++ x.deque, pc := .shareWork (.got site t) } := by
  simp only [unpack, ensures_ite, ensures_bind, ensures_check, ensures_pure]
  exact ⟨fun _ => ⟨fun _ => ⟨_, _, rfl⟩, fun _ => by simp [Elsewhere]⟩, fun _ => ⟨_, _, rfl⟩⟩

/-- A message is received: its tasks are in the worker's hands, and its channel is
free again. -/
theorem Pre.receives_tasks (pre : Pre cfg ctx w n) {i : ℕ} (here : n.self.pc = .recvTask site i)
    (awake : n.self.inWait = false) {t : Task} {rest : List Task}
    (message : n.net.chanTasks w i = some (.tasks (t :: rest) state)) (steals : ℕ) (victim : ℤ) :
    Simulated cfg ctx w n ⟨{ n.self with
      numRecentSteals := steals
      lastVictim := victim
      channelStack := i :: n.self.channelStack
      requested :=
        (if n.self.waitingForTasks then 1 else n.self.requested - n.self.droppedStealRequests) - 1
      waitingForTasks := false
      droppedStealRequests := 0
      deque := rest ++ n.self.deque
      pc := .shareWork (.got site t) }, n.net.putTask w i none⟩ := by
  have inside : i < cfg.maxSteal := pre.loc.recv_index site i here
  have before : n.self.loc.pc = .recvTask site i := here
  have hand : n.self.pc.hand = none := by rw [here]; rfl
  have held : n.self.pc.held = none := by rw [here]; rfl
  have answers := answers_takeTask pre.worker inside message
  have siteOk := pre.loc.site
  rw [before] at siteOk
  have awaiting : Local.awaiting { n.self.loc with
      waiting := false, deque := rest ++ n.self.deque, pc := .shareWork (.got site t) } =
      n.self.loc.awaiting := by
    simp only [Local.awaiting, before]
    rfl
  refine ⟨?_, ?_, ?_, pre.net.takeTask, ?_, ?_⟩
  · refine tokenStep_to (.receive pre.worker answers rfl) (agents_set ?_) rfl ?_ rfl
    · simp only [ring_agent, Worker.agent]
      rfl
    · rw [ring_empty rfl]
      exact (ring_empty hand).symm
  · have tasks : (n.custody cfg ctx w).tasks = place (.sent w i) (tagsOf (t :: rest)) +
        ((n.net.putTask w i none).tasks cfg + n.self.tasks w + ctx.tasks) := by
      simp only [Node.custody, tasks_takeTask pre.worker inside message]
      abel
    refine custodyStep_to (.receive tasks) ?_ rfl rfl rfl rfl rfl rfl
    have split : tagsOf ((some t).toList ++ (rest ++ n.self.deque)) =
        tagsOf (t :: rest) + tagsOf n.self.deque := tagsOf_append (t :: rest) n.self.deque
    have got : (Pc.shareWork (.got site t)).held = some t := rfl
    simp only [Node.custody, Worker.tasks, got, held, Option.toList_none, List.nil_append, split,
      place_add]
    abel
  · refine Local.Plain.ok (.easy (by rfl)) siteOk pre.loc.stack rfl awake
      pre.loc.quiescent_master ?_ pre.loc.unfinished (awaiting ▸ pre.loc.awaiting)
    intro quiescent several
    -- After termination was detected no message is left.
    have master := pre.loc.quiescent_master quiescent
    have quiet : (n.ring cfg ctx w).quiescent = true := by
      have now : n.self.quiescent = true := quiescent
      simp [Node.ring, master, now]
    have none := (pre.tokens.quiet several quiet).2.2
    exact absurd (answers.symm.trans none) (Multiset.cons_ne_zero)
  · refine pre.depends.goPlain rfl awaiting le_rfl fun _ _ => ⟨rfl, rfl, rfl⟩
  · intro v other c some
    simpa [Network.putTask, other] using some

/-- `RECV_TASK` at one channel. -/
theorem Pre.recvTaskStep (pre : Pre cfg ctx w n) {i : ℕ} (here : n.self.pc = .recvTask site i) :
    Ensures Elsewhere (recvTaskStep cfg w site i n) (Simulated cfg ctx w n) := by
  have inside : i < cfg.maxSteal := pre.loc.recv_index site i here
  have before : n.self.loc.pc = .recvTask site i := here
  have hand : n.self.pc.hand = none := by rw [here]; rfl
  have held : n.self.pc.held = none := by rw [here]; rfl
  have pcSite : n.self.pc.site = some site := by rw [here]; rfl
  have idleEq : n.self.pc.isIdle = site.isIdle := by rw [here]; rfl
  unfold Runtime.recvTaskStep
  split
  · next inWait =>
    simp only [ensures_bind, ensures_await, ensures_pure]
    intro woken
    obtain ⟨waiting, backoff, receives⟩ := pre.loc.in_wait inWait
    rw [before] at receives
    obtain ⟨rfl, rfl⟩ : site = .schedule ∧ i = 0 := by simpa using receives
    simp only [Network.hasTask, List.any_eq_true, List.mem_range] at woken
    obtain ⟨j, small, some⟩ := woken
    have ok := pre.loc
    refine ⟨?_, .refl, ?_, pre.net, ⟨pre.depends.futures, ?_⟩, fun _ _ _ some => some⟩
    · exact tokens_unchanged rfl (fun _ => rfl) rfl rfl rfl
    · exact ⟨ok.site, ok.stack, ok.declining, ok.idle_empty, ok.found_nothing, ok.scan, ok.alone,
        ok.waits, fun inWait => absurd inWait Bool.false_ne_true, ok.quiescent_master,
        ok.quiescent_empty, ok.leaves_quiescent, ok.stays, ok.unfinished, ok.awaiting,
          ok.recv_index⟩
    · exact fun _ _ _ => ⟨0, here, j, Nat.zero_le _, small, some⟩
  · next inWait =>
    have inWait : n.self.inWait = false := by simpa using inWait
    split
    · next message full =>
      obtain ⟨-, -, batch, state, nonempty, rfl⟩ := pre.net.slots _ _ _ full
      obtain ⟨t, rest, rfl⟩ := List.exists_cons_of_ne_nil nonempty
      have answers := answers_takeTask pre.worker inside full
      have acc := pre.tokens.answer_account answers
      simp only [ring_agent] at acc
      simp only [ensures_bind]
      refine (receivedTask_ensures acc).mono ?_
      rintro _ rfl
      refine (unpack_ensures _).mono ?_
      rintro _ ⟨steals, victim, rfl⟩
      exact pre.receives_tasks here inWait full steals victim
    · next empty =>
      have woken : cfg.backoff = .waitCond → n.self.waitingForTasks = true →
          site = .schedule ∧ ∃ j, i + 1 ≤ j ∧ j < cfg.maxSteal ∧ (n.net.chanTasks w j).isSome := by
        intro backoff waiting
        obtain ⟨i', receives, j, above, small, some⟩ := pre.depends.woken backoff waiting inWait
        rw [before] at receives
        obtain ⟨rfl, rfl⟩ : site = .schedule ∧ i = i' := by simpa using receives
        refine ⟨rfl, j, ?_, small, some⟩
        rcases Nat.eq_or_lt_of_le above with rfl | above
        · simp [empty] at some
        · exact above
      have waits {pc : Pc} (mayWait : site = .schedule → pc.mayWait = true) :
          n.self.waitingForTasks = true → cfg.backoff ≠ .off → pc.mayWait = true := by
        intro waiting backoff
        refine mayWait ?_
        have there := pre.loc.waits waiting backoff
        rw [before] at there
        cases site with
        | schedule => rfl
        | barrier | force _ => cases there
      have inside' : n.self.inWait = true → False := fun wrong => by simp [inWait] at wrong
      by_cases siteIdle : site.isIdle = true
      · have idle := idleEq.trans siteIdle
        split
        · next more =>
          refine pre.goIdle idle siteIdle hand.symm pcSite.symm held.symm trivial (waits ?_)
            (fun wrong => (inside' wrong).elim) ?_ ?_
          · rintro rfl
            rfl
          · rintro _ _ ⟨⟩
            exact more
          · intro backoff waiting _
            obtain ⟨rfl, j, above, small, some⟩ := woken backoff waiting
            exact ⟨i + 1, rfl, j, above, small, some⟩
        · next last =>
          refine pre.goIdle idle siteIdle hand.symm pcSite.symm held.symm trivial (waits ?_)
            (fun wrong => (inside' wrong).elim) (by intro _ _ receives; cases receives) ?_
          · rintro rfl
            rfl
          · intro backoff waiting _
            obtain ⟨rfl, j, above, small, -⟩ := woken backoff waiting
            omega
      · have busy : n.self.pc.isIdle = false := idleEq.trans (by simpa using siteIdle)
        have siteOk := pre.loc.site
        rw [before] at siteOk
        cases site with
        | schedule | barrier => exact absurd rfl siteIdle
        | force f =>
          split
          · next more =>
            refine pre.goPlain ⟨rfl, fun found => absurd found Bool.false_ne_true, trivial, ?_⟩
              hand.symm busy siteOk (congrArg Site.futures pcSite.symm) held.symm
            rintro _ _ ⟨⟩
            exact more
          · exact pre.goPlain (.easy (by rfl)) hand.symm busy siteOk
              (congrArg Site.futures pcSite.symm) held.symm

end Search

end Tasking.Runtime
